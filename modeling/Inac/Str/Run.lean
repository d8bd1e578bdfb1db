import Inac.Str.Trim

/-!
# Runs of string operations

A heap string is made by one of the three constructors and then goes through any sequence of
`ncpy`, `ncat`, `append_chr`, `truncate` and `trim`. Beside it runs the byte sequence the caller
has in mind: a copy, an append, a prefix, a strip. The bytes an operation reads are given by value,
so a source never aliases the string.

Whatever the calls are, every operation writes inside the buffer and the buffer never gets smaller.
The bytes are those of the sequence with one exception. `trim` asks `strchr` about each byte, and
`strchr` finds the terminator of the set of characters too. A NUL that stands where the stripped
sequence begins or ends is taken for a character of the set, and what is behind it goes with it. The
two are in step over exactly those runs that never `trim` down to such a NUL.
-/

namespace Inac
namespace Str

open Lib

/-! ## The code

A run has one string and any calls; a call that finds no string does nothing. -/

/-- How a string is made. -/
inductive Start where
  | new (len : Nat)
  | newFromblk (blk : Option (List UInt8)) (len : Nat)
  | newFromcstr (cstr : Option (List UInt8))
  deriving DecidableEq, Repr

/-- An operation on a string; `none` is a `NULL` argument. -/
inductive Op where
  | ncpy (src : Option (List UInt8)) (n : Nat)
  | ncat (src : Option (List UInt8)) (n : Nat)
  | appendChr (c : UInt8)
  | truncate (pos : Nat)
  | trim (chars : Option (List UInt8))
  deriving DecidableEq, Repr

/-- A call: the operation, and what the memory holds that it may get. -/
structure Call where
  junk : Nat → UInt8
  op : Op

def Start.make (junk : Nat → UInt8) : Start → Option Hdr
  | .new len => inaStrNew junk len
  | .newFromblk blk len => inaStrNewFromblk junk blk len
  | .newFromcstr cstr => inaStrNewFromcstr junk cstr

def Call.apply (call : Call) (hdr : Hdr) : Option Hdr :=
  match call.op with
  | .ncpy src n => inaStrNcpy call.junk hdr src n
  | .ncat src n => inaStrNcat call.junk hdr src n
  | .appendChr c => inaStrAppendChr call.junk hdr c
  | .truncate pos => inaStrTruncate hdr pos
  | .trim chars => inaStrTrim hdr chars

/-- One call of a run; a run that wrote outside the buffer goes nowhere. -/
def step (hdr : Option Hdr) (call : Call) : Unit × Option Hdr := ((), hdr.bind call.apply)

/-- The bytes allocated. -/
def capacity (hdr : Option Hdr) : Nat :=
  match hdr with
  | none => 0
  | some hdr => hdr.data.length

/-! ## The byte sequence

What each operation means, with no header and no NUL in it. A strip is one of the characters of the
set. -/

/-- The byte sequence a string starts as. -/
def Start.bytes : Start → List UInt8
  | .new _ | .newFromblk none _ | .newFromcstr none => []
  | .newFromblk (some blk) len => blk.take len
  | .newFromcstr (some cstr) => cstr.takeWhile (· ≠ 0)

/-- What an operation means for the byte sequence. -/
def Op.bytes (s : List UInt8) : Op → List UInt8
  | .ncpy none _ | .ncat none _ | .trim none => s
  | .ncpy (some src) n => src.take n
  | .ncat (some src) n => s ++ src.take n
  | .appendChr c => s ++ [c]
  | .truncate pos => s.take pos
  | .trim (some chars) => strip (charSet chars) s

def absStep (s : List UInt8) (call : Call) : Unit × List UInt8 := ((), call.op.bytes s)

/-! ## What the caller owes

The source holds the bytes asked for, `truncate` gets a position of the string, as its assertion
demands, and the length of the string and the bytes asked for stay below 2^30 together. -/

def Start.Valid : Start → Prop
  | .new len | .newFromblk none len => len < 2 ^ 30
  | .newFromblk (some blk) len => len < 2 ^ 30 ∧ len ≤ blk.length
  | .newFromcstr none => True
  | .newFromcstr (some cstr) => strlen cstr < 2 ^ 30

def Op.Valid (s : List UInt8) : Op → Prop
  | .ncpy none _ | .ncat none _ | .trim _ => True
  | .ncpy (some src) n | .ncat (some src) n => n ≤ src.length ∧ s.length + n < 2 ^ 30
  | .appendChr _ => s.length + 1 < 2 ^ 30
  | .truncate pos => pos ≤ s.length

instance (s : List UInt8) : (op : Op) → Decidable (op.Valid s)
  | .ncpy none _ | .ncat none _ | .trim _ => inferInstanceAs (Decidable True)
  | .ncpy (some src) n | .ncat (some src) n =>
    inferInstanceAs (Decidable (n ≤ src.length ∧ s.length + n < 2 ^ 30))
  | .appendChr _ => inferInstanceAs (Decidable (s.length + 1 < 2 ^ 30))
  | .truncate pos => inferInstanceAs (Decidable (pos ≤ s.length))

/-! ## The two in step

The pair of a string and a sequence is the state of one machine (`both`). A call keeps the pair in
step, unless it trims down to a NUL, and the two statements about runs follow from the rules of
`Inac.Lib.Run`. -/

theorem Start.make_rep {start : Start} (hv : start.Valid) (junk : Nat → UInt8) :
    ∃ h, start.make junk = some h ∧ Rep h start.bytes := by
  match start, hv with
  | .new len, hv =>
    obtain ⟨h, hnew, hr, -⟩ := inaStrNew_rep junk hv
    exact ⟨h, hnew, hr⟩
  | .newFromblk none len, hv =>
    obtain ⟨h, hnew, hr, -⟩ := inaStrNew_rep junk hv
    exact ⟨h, hnew, hr⟩
  | .newFromblk (some blk) len, hv => exact inaStrNewFromblk_rep junk hv.1 hv.2
  | .newFromcstr none, _ => exact inaStrNewFromcstr_null junk
  | .newFromcstr (some cstr), hv => exact inaStrNewFromcstr_rep junk hv

/-- A `NULL` source or set of characters leaves the string alone. -/
theorem Rep.yields_self {h : Hdr} {s : List UInt8} (hr : Rep h s) : Yields h (some h) s :=
  ⟨h, rfl, hr, Nat.le_refl _⟩

/-- The bytes the code comes to: those of the sequence, with the NULs stripped by `trim`. -/
def Op.left (s : List UInt8) : Op → List UInt8
  | .trim (some chars) => trimmed chars s
  | op => op.bytes s

/-- `trim` strips down to a NUL. -/
def TrimsNul (s : List UInt8) : Op → Prop
  | .trim (some chars) => NulAtEnd (strip (charSet chars) s)
  | _ => False

instance (s : List UInt8) : (op : Op) → Decidable (TrimsNul s op)
  | .trim (some _) => inferInstanceAs (Decidable (NulAtEnd _))
  | .trim none | .ncpy .. | .ncat .. | .appendChr _ | .truncate _ => inferInstanceAs (Decidable False)

/-- **Where the code and the sequence part.** -/
theorem Op.left_eq_bytes_iff (s : List UInt8) (op : Op) :
    op.left s = op.bytes s ↔ ¬ TrimsNul s op := by
  match op with
  | .trim (some chars) => exact trimmed_eq_strip_iff chars s
  | .trim none | .ncpy .. | .ncat .. | .appendChr _ | .truncate _ => exact ⟨fun _ => id, fun _ => rfl⟩

/-- A valid call on a string in step gives a string again, with the bytes the code comes to. -/
theorem Call.apply_yields {h : Hdr} {s : List UInt8} (hr : Rep h s) (call : Call)
    (hv : call.op.Valid s) : Yields h (call.apply h) (call.op.left s) := by
  obtain ⟨junk, op⟩ := call
  match op, hv with
  | .ncpy none n, _ => exact hr.yields_self
  | .ncpy (some src) n, hv => exact inaStrNcpy_yields (hr.ensures junk hv.2) hv.1
  | .ncat none n, _ => exact hr.yields_self
  | .ncat (some src) n, hv => exact inaStrNcat_yields (hr.ensures junk hv.2) hv.1
  | .appendChr c, hv => exact inaStrAppendChr_yields (hr.ensures junk hv) c
  | .truncate pos, hv => exact inaStrTruncate_yields hr hv
  | .trim none, _ => exact hr.yields_self
  | .trim (some chars), _ => exact inaStrTrim_yields hr chars

/-- The string is there and represents the byte sequence. -/
def InStep (p : Option Hdr × List UInt8) : Prop := ∃ h, p.1 = some h ∧ Rep h p.2

/-- What a user of the string sees: the length below the size and the size within the buffer, a NUL
    behind the bytes, and the bytes themselves. -/
structure Shows (h : Hdr) (s : List UInt8) : Prop where
  len_lt : h.len < h.size
  size_le : h.size ≤ h.data.length
  nul : h.data[h.len]? = some 0
  bytes : h.data.take h.len = s

theorem Rep.shows {h : Hdr} {s : List UInt8} (hr : Rep h s) : Shows h s := by
  obtain ⟨rest, hdata⟩ := hr.data
  refine ⟨?_, Nat.le_of_eq hr.size, ?_, ?_⟩
  · rw [hr.size]; exact hr.len_lt
  · rw [hr.len, hdata, List.getElem?_append_right (Nat.le_refl _), Nat.sub_self]
    rfl
  · rw [hr.len, hdata, List.take_left]

/-- A string in step shows the sequence's bytes, and those are the only bytes it shows. -/
theorem Rep.shows_iff {h : Hdr} {s t : List UInt8} (hr : Rep h s) : Shows h t ↔ s = t := by
  constructor
  · intro hshows
    exact hr.shows.bytes.symm.trans hshows.bytes
  · rintro rfl
    exact hr.shows

/-- There is a string, so all that was written is inside the buffer, and it shows the sequence. -/
def Agrees (p : Option Hdr × List UInt8) : Prop := ∃ h, p.1 = some h ∧ Shows h p.2

/-- **One call.** From a string in step the buffer gets no smaller, and there is a string again. It
    shows the sequence, and is in step with it, unless `trim` strips down to a NUL. -/
theorem InStep.step {p : Option Hdr × List UInt8} (hp : InStep p) (call : Call)
    (hv : call.op.Valid p.2) :
    capacity p.1 ≤ capacity (step p.1 call).2 ∧
      (Agrees (both step absStep p call).2 ↔ ¬ TrimsNul p.2 call.op) ∧
      (¬ TrimsNul p.2 call.op → InStep (both step absStep p call).2) := by
  obtain ⟨h, hsome, hr⟩ := hp
  obtain ⟨h', happ, hr', hcap⟩ := Call.apply_yields hr call hv
  have hstep : (Str.step p.1 call).2 = some h' := by
    rw [Str.step, hsome, Option.bind_some, happ]
  refine ⟨?_, ?_, fun hnul => ⟨h', hstep, ?_⟩⟩
  · rw [hstep, hsome]
    exact hcap
  · rw [← Op.left_eq_bytes_iff, ← hr'.shows_iff]
    constructor
    · rintro ⟨h'', hsome'', hshows⟩
      obtain rfl := Option.some.inj (hstep.symm.trans hsome'')
      exact hshows
    · intro hshows
      exact ⟨h', hstep, hshows⟩
  · have hsame := (Op.left_eq_bytes_iff p.2 call.op).mpr hnul
    rw [hsame] at hr'
    exact hr'

/-- **When strings refine byte sequences.** In a run of valid calls on a new string, after each call
    there is a string, so every write was inside the buffer, it shows the byte sequence the same
    calls give, and no call made the buffer smaller: this holds of the whole run exactly if no
    `trim` of it strips down to a NUL. -/
theorem str_runs_refine_iff (junk : Nat → UInt8) (start : Start) (hstart : start.Valid)
    {calls : List Call} (hcalls : Along absStep (fun s call => call.op.Valid s) start.bytes calls) :
    (Always (both step absStep) Agrees (start.make junk, start.bytes) calls ∧
      Along step (fun hdr call => capacity hdr ≤ capacity (step hdr call).2) (start.make junk)
        calls) ↔
      Never absStep (fun s call => TrimsNul s call.op) start.bytes calls := by
  have hnew : InStep (start.make junk, start.bytes) := Start.make_rep hstart junk
  have hboth : Along (both step absStep) (fun p call => call.op.Valid p.2)
      (start.make junk, start.bytes) calls :=
    (along_both_right (C := fun s call => call.op.Valid s) _ calls).mpr hcalls
  -- One call that strips a NUL shows bytes that are not the sequence's, and all others keep the two
  -- in step.
  have hiff : Along (both step absStep) (fun p call => Agrees (both step absStep p call).2)
        (start.make junk, start.bytes) calls ↔
      Never (both step absStep) (fun p call => TrimsNul p.2 call.op)
        (start.make junk, start.bytes) calls :=
    along_iff_never (I := InStep) (fun p call hv hnul hp => (hp.step call hv).2.2 hnul)
      (fun p call hv hp => (hp.step call hv).2.1) hboth hnew
  -- Whether a NUL is stripped down to is a matter of the sequence alone.
  have habs : Never (both step absStep) (fun p call => TrimsNul p.2 call.op)
        (start.make junk, start.bytes) calls ↔
      Never absStep (fun s call => TrimsNul s call.op) start.bytes calls :=
    never_both_right (B := fun s call => TrimsNul s call.op) _ calls
  rw [← habs]
  constructor
  · rintro ⟨hagrees, -⟩
    exact hiff.mp (along_next_of_always hagrees)
  · intro hnever
    refine ⟨always_of_along_next ?_ (hiff.mpr hnever), ?_⟩
    · obtain ⟨h, hsome, hr⟩ := hnew
      exact ⟨h, hsome, hr.shows⟩
    · have hgrow : Along (both step absStep)
          (fun p call => capacity p.1 ≤ capacity (step p.1 call).2)
          (start.make junk, start.bytes) calls := by
        refine along_of_along (I := InStep)
          (C := fun p call => call.op.Valid p.2 ∧ ¬ TrimsNul p.2 call.op) ?_ ?_ hnew
        · intro p call hc hp
          exact ⟨(hp.step call hc.1).1, (hp.step call hc.1).2.2 hc.2⟩
        · exact along_and_never hboth hnever
      exact (along_both_left (C := fun hdr call => capacity hdr ≤ capacity (step hdr call).2) _
        calls).mp hgrow

/-- A string that is made exactly full, grows, is stripped and cut. -/
theorem str_runs_refine_full :
    Always (both step absStep) Agrees
      (Start.make (fun _ => 7) (.newFromblk (some [32, 65]) 2), [32, 65])
      [⟨fun _ => 7, .ncat (some [66, 32]) 2⟩, ⟨fun _ => 7, .trim (some [32])⟩,
        ⟨fun _ => 7, .appendChr 67⟩, ⟨fun _ => 7, .truncate 1⟩] := by
  refine ((str_runs_refine_iff (fun _ => 7) (.newFromblk (some [32, 65]) 2) ?_ ?_).mpr ?_).1
  · exact ⟨by decide, by decide⟩
  · refine ⟨?_, ?_, ?_, ?_, trivial⟩
    all_goals exact of_decide_eq_true rfl
  · exact of_decide_eq_true rfl

/-- `"\0A"` of two bytes, trimmed of blanks: the NUL goes, though it is no blank. -/
theorem trim_takes_nul :
    Start.Valid (.newFromblk (some [0, 65]) 2) ∧
      Along absStep (fun s call => call.op.Valid s) [0, 65]
        [⟨fun _ => 7, .trim (some [32, 0])⟩] ∧
      ¬ Always (both step absStep) Agrees
        (Start.make (fun _ => 7) (.newFromblk (some [0, 65]) 2), [0, 65])
        [⟨fun _ => 7, .trim (some [32, 0])⟩] := by
  refine ⟨⟨by decide, by decide⟩, ⟨trivial, trivial⟩, fun hall => ?_⟩
  obtain ⟨h, hsome, hshows⟩ := hall _ List.prefix_rfl
  have hrun : (exec (both step absStep)
      (Start.make (fun _ => 7) (.newFromblk (some [0, 65]) 2), [0, 65])
      [⟨fun _ => 7, .trim (some [32, 0])⟩]) = (some ⟨3, 1, [65, 0, 0]⟩, [0, 65]) := rfl
  rw [hrun] at hsome hshows
  obtain rfl := Option.some.inj hsome
  exact absurd hshows.bytes (by decide)

end Str
end Inac
