import Mathlib.Logic.Function.Iterate
import Inac.FileCursor.FileioLine
import Inac.FileCursor.Mmap

/-!
# Lines of a mapped file

`ina_file_cursor_mmap_text_read_line` walks from the pointer to the next newline, the end of the
mapping or a NUL. At a newline it returns the line with it and moves on without a look at the
mapping. At the end it asks for the next window and returns the piece so far; at the end of the file
it returns nothing and stays, so that a last line without a newline is not returned at all.

The first byte is read before the pointer is compared with the end of the mapping. Behind a newline
that is the last byte of the mapping the next call reads the byte at its tail, whether the file goes
on there or not. So the call that should say that there is nothing left reads outside: no file is
read to its end as it should be.

Bytes are read through the mapping; a read outside of it gives no result.
-/

namespace Inac
namespace FileCursor

/-- The cursor with its `eof` field. -/
structure LineCursor where
  cursor : Cursor
  eof : Bool

def LineCursor.init (file : File) (bufferSize : UInt64) : LineCursor :=
  { cursor := FileCursor.init file bufferSize, eof := false }

/-- How the loop `while (*d != '\n')` ends, with `l` bytes behind it. -/
inductive Scan where
  | newline (l : Nat)
  | stopped (l : Nat)  -- `c >= end || *d == '\0'`
  | outside  -- `*d` is behind the mapping
  deriving DecidableEq, Repr

/-- `while (*d != '\n')`, over the bytes from `d` to the end of the mapping. -/
def scan : List UInt8 → Nat → Scan
  | [], _ => .outside
  | [b], l => if b = newline then .newline l else .stopped (l + 1)
  | b :: c :: rest, l =>
    if b = newline then .newline l
    else if c = 0 then .stopped (l + 1)
    else scan (c :: rest) (l + 1)

/-- `ina_file_cursor_mmap_text_read_line`: the bytes from `*begin_line` on, `*len` of them. What the
    branch for `eof` assigns to `*len` and `*begin_line` is overwritten: it does not return. -/
def mmapTextReadLine (c : LineCursor) : Option (List UInt8) × LineCursor :=
  match c.cursor.fm, c.cursor.memPos with
  | some m, some d =>
    let bytes := (m.memory c.cursor.file).drop d.toNat
    match scan bytes 0 with
    | .outside => (none, c)
    | .newline l =>
      let l := l + 1
      (some (bytes.take l), { c with
        cursor := { c.cursor with
          position := c.cursor.position + UInt64.ofNat l, memPos := some (d + UInt64.ofNat l) } })
    | .stopped l =>
      if c.cursor.len ≤ c.cursor.position + UInt64.ofNat l then (some [], { c with eof := true })
      else
        (some (bytes.take l),
          { c with cursor := (setPos c.cursor (c.cursor.position + UInt64.ofNat l)).2 })
  | _, _ => (none, c)

/-- What the call behind `k` others returns. -/
def mmapNthLine (c : LineCursor) (k : Nat) : Option (List UInt8) :=
  (mmapTextReadLine ((fun c => (mmapTextReadLine c).2)^[k] c)).1

/-- The calls return the pieces and from then on a length of 0, all from bytes in the mapping; the
    pieces are the file, and each but the last ends with a newline. -/
def LinesMapped (file : File) (bufferSize : UInt64) : Prop :=
  ∃ pieces : List (List UInt8),
    (∀ k, mmapNthLine (.init file bufferSize) k = some (pieces.getD k [])) ∧
      (∀ piece ∈ pieces, piece ≠ []) ∧ pieces.flatten = file.bytes ∧
      ∀ piece ∈ pieces.dropLast, piece.getLast? = some newline

/-! ## The loop

What it has passed at a newline, and where else it stops. -/

/-- At a newline it has not yet passed all bytes. -/
theorem scan_newline {bytes : List UInt8} {l k : Nat} (h : scan bytes l = .newline k) :
    l ≤ k ∧ k < l + bytes.length := by
  fun_induction scan bytes l with
  | case1 => cases h
  | case2 =>
    cases h
    simp
  | case3 => cases h
  | case4 =>
    cases h
    simp
  | case5 => cases h
  | case6 b c rest l hb hc ih =>
    obtain ⟨hle, hlt⟩ := ih h
    simp only [List.length_cons] at hlt ⊢
    omega

/-- What it has passed when it stops elsewhere has no newline. -/
theorem scan_stopped {bytes : List UInt8} {l k : Nat} (h : scan bytes l = .stopped k) :
    l < k ∧ k ≤ l + bytes.length ∧ newline ∉ bytes.take (k - l) := by
  fun_induction scan bytes l with
  | case1 => cases h
  | case2 => cases h
  | case3 l b hb =>
    cases h
    simp [Ne.symm hb]
  | case4 => cases h
  | case5 l b rest hb =>
    cases h
    simp [Ne.symm hb]
  | case6 b c rest l hb hc ih =>
    obtain ⟨hlt, hle, hnot⟩ := ih h
    have hk : k - l = (k - (l + 1)) + 1 := by omega
    simp only [List.length_cons] at hle ⊢
    refine ⟨by omega, by omega, ?_⟩
    rw [hk, List.take_succ_cons, List.mem_cons, not_or]
    exact ⟨Ne.symm hb, hnot⟩

/-! ## In the first window

A cursor that was just made stands at the head of its first mapping, and as long as it finds
newlines it moves on in it. -/

/-- The bytes of the first mapping. -/
def firstLen (file : File) (bufferSize : UInt64) : UInt64 :=
  if UInt64.ofNat file.bytes.length ≤ bufferSize then UInt64.ofNat file.bytes.length else bufferSize

/-- The cursor `q` bytes into the first mapping. -/
def standing (file : File) (bufferSize : UInt64) (q : Nat) : LineCursor :=
  { cursor := { FileCursor.init file bufferSize with
      position := UInt64.ofNat q, memPos := some (UInt64.ofNat q) }
    eof := false }

theorem firstLen_le (file : File) (bufferSize : UInt64) :
    (firstLen file bufferSize).toNat ≤ file.bytes.length := by
  have hfits := file.fits
  have hlen : (UInt64.ofNat file.bytes.length).toNat = file.bytes.length := by
    rw [UInt64.toNat_ofNat']; omega
  rw [firstLen]
  by_cases hle : UInt64.ofNat file.bytes.length ≤ bufferSize
  · rw [if_pos hle, hlen]
  · rw [if_neg hle]
    rw [UInt64.le_iff_toNat_le, hlen] at hle
    omega

theorem init_standing (file : File) (bufferSize : UInt64) :
    LineCursor.init file bufferSize = standing file bufferSize 0 := by
  simp only [LineCursor.init, standing, FileCursor.init, mmapNew_zero, Option.map_some]
  rfl

/-- What the mapping has left `q` bytes into it. -/
def leftOf (file : File) (bufferSize : UInt64) (q : Nat) : List UInt8 :=
  (file.bytes.take (firstLen file bufferSize).toNat).drop q

theorem length_leftOf (file : File) (bufferSize : UInt64) (q : Nat) :
    (leftOf file bufferSize q).length = (firstLen file bufferSize).toNat - q := by
  rw [leftOf, List.length_drop, List.length_take, Nat.min_eq_left (firstLen_le file bufferSize)]

theorem mmapTextReadLine_standing {file : File} {bufferSize : UInt64} {q : Nat}
    (hq : q ≤ (firstLen file bufferSize).toNat) :
    mmapTextReadLine (standing file bufferSize q) =
      match scan (leftOf file bufferSize q) 0 with
      | .outside => (none, standing file bufferSize q)
      | .newline l =>
        (some ((leftOf file bufferSize q).take (l + 1)), standing file bufferSize (q + (l + 1)))
      | .stopped l =>
        if (standing file bufferSize q).cursor.len ≤ UInt64.ofNat q + UInt64.ofNat l then
          (some [], { standing file bufferSize q with eof := true })
        else
          (some ((leftOf file bufferSize q).take l), { standing file bufferSize q with
            cursor := (setPos (standing file bufferSize q).cursor
              (UInt64.ofNat q + UInt64.ofNat l)).2 }) := by
  have hfirst := (firstLen file bufferSize).toNat_lt
  have hqNat : (UInt64.ofNat q).toNat = q := by
    rw [UInt64.toNat_ofNat']; omega
  have hfm : (standing file bufferSize q).cursor.fm = some ⟨0, firstLen file bufferSize⟩ :=
    mmapNew_zero file _
  have hbytes : ((⟨0, firstLen file bufferSize⟩ : Mapping).memory file).drop (UInt64.ofNat q).toNat
      = leftOf file bufferSize q := by
    rw [Mapping.memory, hqNat]
    rfl
  have hmem : (standing file bufferSize q).cursor.memPos = some (UInt64.ofNat q) := rfl
  have hfile : (standing file bufferSize q).cursor.file = file := rfl
  simp only [mmapTextReadLine, hfm, hmem, hfile, hbytes]
  cases scan (leftOf file bufferSize q) 0 with
  | outside => rfl
  | newline l =>
    rw [← hfm]
    simp only [standing, UInt64.ofNat_add]
    rfl
  | stopped l => rfl

/-- **What one call can do** from a place in the first window: it reads outside, returns the bytes
    up to a newline and moves behind it, returns nothing, or returns bytes without a newline
    although the file goes on behind them. -/
theorem standing_cases {file : File} {bufferSize : UInt64} {q : Nat}
    (hq : q ≤ (firstLen file bufferSize).toNat) :
    (mmapTextReadLine (standing file bufferSize q)).1 = none ∨
      (∃ piece, mmapTextReadLine (standing file bufferSize q) =
          (some piece, standing file bufferSize (q + piece.length)) ∧
        q + piece.length ≤ (firstLen file bufferSize).toNat) ∨
      (mmapTextReadLine (standing file bufferSize q)).1 = some [] ∨
      ∃ piece, (mmapTextReadLine (standing file bufferSize q)).1 = some piece ∧
        newline ∉ piece ∧ q + piece.length < file.bytes.length := by
  have hleft := length_leftOf file bufferSize q
  rw [mmapTextReadLine_standing hq]
  cases hscan : scan (leftOf file bufferSize q) 0 with
  | outside => exact Or.inl rfl
  -- The newline belongs to the piece.
  | newline l =>
    right; left
    have hlt := (scan_newline hscan).2
    have hlen : ((leftOf file bufferSize q).take (l + 1)).length = l + 1 := by
      rw [List.length_take]
      omega
    refine ⟨(leftOf file bufferSize q).take (l + 1), ?_, ?_⟩
    · rw [hlen]
    · rw [hlen]
      omega
  | stopped l =>
    obtain ⟨-, hle, hnot⟩ := scan_stopped hscan
    -- Behind the mapping the file ends, or it goes on and the piece has no newline.
    by_cases hend : (standing file bufferSize q).cursor.len ≤ UInt64.ofNat q + UInt64.ofNat l
    · right; right; left
      simp only [if_pos hend]
    · right; right; right
      have hlen : ((leftOf file bufferSize q).take l).length = l := by
        rw [List.length_take]
        omega
      refine ⟨(leftOf file bufferSize q).take l, by simp only [if_neg hend], hnot, ?_⟩
      have hfirst := firstLen_le file bufferSize
      have hfits := file.fits
      have hlenNat : (standing file bufferSize q).cursor.len.toNat
          = file.bytes.length % 2 ^ 64 := UInt64.toNat_ofNat'
      rw [← UInt64.ofNat_add, UInt64.le_iff_toNat_le, UInt64.toNat_ofNat'] at hend
      omega

/-! ## The end of a file

Every piece but the last has to end with a newline, and behind the last newline the byte that is
read is outside. So no list of pieces is what it should be. -/

theorem mmapNthLine_zero (c : LineCursor) : mmapNthLine c 0 = (mmapTextReadLine c).1 := rfl

theorem mmapNthLine_succ (c : LineCursor) (k : Nat) :
    mmapNthLine c (k + 1) = mmapNthLine (mmapTextReadLine c).2 k := by
  rw [mmapNthLine, Function.iterate_succ_apply, mmapNthLine]

/-- Behind a newline at the tail of the mapping the next byte is read outside of it. -/
theorem mmapNthLine_tail {file : File} {bufferSize : UInt64} :
    mmapNthLine (standing file bufferSize (firstLen file bufferSize).toNat) 0 = none := by
  have hnil : leftOf file bufferSize (firstLen file bufferSize).toNat = [] := by
    rw [← List.length_eq_zero_iff, length_leftOf, Nat.sub_self]
  rw [mmapNthLine_zero, mmapTextReadLine_standing (Nat.le_refl _), hnil]
  rfl

/-- Pieces that are as asked for end before the file does. -/
theorem standing_not_mapped {file : File} {bufferSize : UInt64} {pieces : List (List UInt8)}
    {q : Nat} (hq : q ≤ (firstLen file bufferSize).toNat)
    (hcalls : ∀ k, mmapNthLine (standing file bufferSize q) k = some (pieces.getD k []))
    (hne : ∀ piece ∈ pieces, piece ≠ []) (hends : ∀ piece ∈ pieces.dropLast,
      piece.getLast? = some newline) : q + pieces.flatten.length ≠ file.bytes.length := by
  have hfirst := firstLen_le file bufferSize
  -- On the pieces, from where the cursor stands.
  induction pieces generalizing q with
  | nil =>
    intro hall
    have htail : q = (firstLen file bufferSize).toNat := by
      rw [List.flatten_nil, List.length_nil] at hall
      omega
    have hcall := hcalls 0
    rw [htail, mmapNthLine_tail] at hcall
    cases hcall
  | cons piece pieces ih =>
    intro hall
    rw [List.flatten_cons, List.length_append] at hall
    have hcall : (mmapTextReadLine (standing file bufferSize q)).1 = some piece := hcalls 0
    -- Of the four things a call can do only the one that meets a newline returns such a piece and
    -- goes on.
    obtain hnone | ⟨p, hstep, hp⟩ | hempty | ⟨p, hp, hnot, hmore⟩ := standing_cases hq
    · rw [hnone] at hcall
      cases hcall
    · rw [hstep] at hcall
      obtain rfl : p = piece := Option.some.inj hcall
      have hnext : ∀ k, mmapNthLine (standing file bufferSize (q + p.length)) k =
          some (pieces.getD k []) := by
        intro k
        have hk := hcalls (k + 1)
        rw [mmapNthLine_succ, hstep] at hk
        exact hk
      refine ih hp hnext (fun x hx => hne x (List.mem_cons_of_mem _ hx)) ?_ (by omega)
      intro x hx
      refine hends x ?_
      rw [List.dropLast_cons_of_ne_nil (List.ne_nil_of_mem (List.dropLast_subset _ hx))]
      exact List.mem_cons_of_mem _ hx
    · rw [hempty] at hcall
      exact hne piece List.mem_cons_self (Option.some.inj hcall).symm
    · -- the file goes on, so that another piece follows and this one should end with a newline
      rw [hp] at hcall
      obtain rfl : p = piece := Option.some.inj hcall
      have hrest : pieces ≠ [] := by
        intro hnil
        rw [hnil, List.flatten_nil, List.length_nil] at hall
        omega
      have hlast := hends p (by simp [List.dropLast_cons_of_ne_nil hrest])
      exact hnot (List.mem_of_getLast? hlast)

/-- **No file is read to its end.** Whatever its bytes and the buffer size are, a line is lost or
    cut in two, or a call reads outside of the mapping. -/
theorem lines_never_mapped (file : File) (bufferSize : UInt64) : ¬ LinesMapped file bufferSize := by
  rintro ⟨pieces, hcalls, hne, hall, hends⟩
  rw [init_standing] at hcalls
  refine standing_not_mapped (Nat.zero_le _) hcalls hne hends ?_
  rw [hall, Nat.zero_add]

/-- One line of two bytes in a buffer of sixteen: the second call reads the byte behind it. -/
theorem second_call_outside : ¬ LinesMapped ⟨[97, 10], by decide⟩ 16 := by
  rintro ⟨pieces, hcalls, -⟩
  have hcall := hcalls 1
  have hnone : mmapNthLine (.init ⟨[97, 10], by decide⟩ 16) 1 = none := by decide
  rw [hnone] at hcall
  cases hcall

end FileCursor
end Inac
