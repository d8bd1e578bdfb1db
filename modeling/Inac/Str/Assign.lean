import Inac.Lib.Bytes
import Inac.Err
import Inac.Str.Limit

/-!
# A string in the caller's buffer

`ina_str_assign_buf` lays a header over the first eight bytes of a buffer, and what is behind them
is a string like any other. `ina_str_release_buf` moves the bytes of the string over the header, so
that the buffer starts with them.

Three things come apart here. A buffer of eight bytes is accepted, and the NUL of the empty string
is written behind it. An operation that finds no byte to spare hands the buffer to `realloc`, which
did not make it. And the bytes are moved without the NUL behind them: the buffer holds a C string
only if the header, or the bytes of the string that were not moved over, happen to have a NUL there.
-/

namespace Inac
namespace Str

open Lib

/-! ## The code

The operations on the string are those of `Inac.Str.Run`. What decides is whether one of them calls
`ina_mem_realloc` (`Op.reallocs`), which frees a block that it was never given. -/

/-- The lengths `ina_str_assign_buf` takes. -/
def acceptsBuf (len : Nat) : Bool := ¬ (len < hdrBytes ∨ len > 2 ^ 31 - 1 - hdrBytes)

/-- `ina_str_assign_buf`; a `NULL` buffer is `none`, and there is no string where it writes outside
    the buffer. -/
def inaStrAssignBuf (buf : Option (List UInt8)) (len : Nat) : Except Err (Option Hdr) :=
  match buf with
  | none => .error .invalidArgument
  | some buf =>
    if acceptsBuf len then
      .ok do
        let size := len - hdrBytes
        let buf ← store buf 0 (u32Bytes size ++ u32Bytes 0)
        let buf ← store buf hdrBytes [0]
        some { size := size, len := 0, data := buf.drop hdrBytes }
    else .error .invalidArgument

/-- The header and what is behind it, as they stand in memory. -/
def Hdr.bytes (hdr : Hdr) : List UInt8 := u32Bytes hdr.size ++ u32Bytes hdr.len ++ hdr.data

/-- `ina_str_release_buf`: the buffer as it is left. -/
def inaStrReleaseBuf (str : Option Hdr) : Except Err (Option (List UInt8)) :=
  match str with
  | none => .error .invalidArgument
  | some hdr =>
    .ok (if hdr.len ≤ hdr.data.length then store hdr.bytes 0 (hdr.data.take hdr.len) else none)

/-- The operation finds too few bytes unused, and calls `ina_mem_realloc`. -/
def Op.reallocs (op : Op) (hdr : Hdr) : Bool :=
  op.asks.any fun n => ¬ ((hdr.size &&& (2 ^ 31 - 1)) + 2 ^ 64 - hdr.len - 1) % 2 ^ 64 > n

/-- One call on a string in a buffer. A `realloc` frees what is not from the heap, and there is no
    string then. -/
def bufStep (hdr : Option Hdr) (call : Call) : Unit × Option Hdr :=
  ((), hdr.bind fun h => if call.op.reallocs h then none else call.apply h)

/-! ## What is asked of them

The caller may count on the bytes behind the header, less one for the NUL. -/

/-- The bytes a call leaves in the string. -/
def leftStep (s : List UInt8) (call : Call) : Unit × List UInt8 := ((), call.op.left s)

/-- The buffer is assigned, filled and released without a write outside it, and then starts with the
    bytes the calls give and a NUL. -/
def Released (buf : List UInt8) (calls : List Call) : Prop :=
  ∃ hdr h out rest, inaStrAssignBuf (some buf) buf.length = .ok (some hdr) ∧
    exec bufStep (some hdr) calls = some h ∧ inaStrReleaseBuf (some h) = .ok (some out) ∧
    out = exec leftStep [] calls ++ 0 :: rest

/-- A call keeps to what the caller owes, and its result and a NUL fit into the size. -/
def Within (size : Nat) (s : List UInt8) (call : Call) : Prop :=
  call.op.Held s.length ∧ (call.op.left s).length < size

/-- Behind the string there is a byte more than the call asks for and its NUL. -/
def Spare (size : Nat) (s : List UInt8) (call : Call) : Prop :=
  ∀ n ∈ call.op.asks, s.length + n + 1 < size

/-- The lengths at which the header has a NUL where the string ends: 5, 6 and 7, where the upper
    bytes of `len` are, and those where a byte of `size` is 0. -/
def NulInHeader (size len : Nat) : Prop :=
  len < 8 ∧ len ≠ 4 ∧ (len < 4 → size / 2 ^ (8 * len) % 2 ^ 8 = 0)

/-! ## Assigning

The string is the empty one, with all bytes behind the header for its capacity. -/

theorem acceptsBuf_iff {len : Nat} :
    acceptsBuf len = true ↔ hdrBytes ≤ len ∧ len ≤ 2 ^ 31 - 1 - hdrBytes := by
  rw [acceptsBuf, decide_eq_true_eq]
  omega

/-- Of the lengths that are accepted only the smallest has no string. -/
theorem inaStrAssignBuf_eq {buf : List UInt8} (hok : acceptsBuf buf.length = true) :
    inaStrAssignBuf (some buf) buf.length = .ok
      (if hdrBytes < buf.length then
        some ⟨buf.length - hdrBytes, 0, 0 :: buf.drop (hdrBytes + 1)⟩
      else none) := by
  have hle := (acceptsBuf_iff.mp hok).1
  simp only [inaStrAssignBuf, hok, if_true, Option.bind_eq_bind]
  congr 1
  generalize hfront : u32Bytes (buf.length - hdrBytes) ++ u32Bytes 0 = front
  have hflen : front.length = hdrBytes := by rw [← hfront]; rfl
  by_cases hlt : hdrBytes < buf.length
  · have hroom : 0 + front.length < buf.length := by omega
    have hboth := store_store_singleton (0 : UInt8) hroom
    rw [if_pos hlt, ← Option.bind_assoc]
    rw [Nat.zero_add, hflen, List.take_zero, List.nil_append] at hboth
    rw [hboth, Option.bind_some, ← hflen, List.drop_left]
  · rw [if_neg hlt, store_eq (by omega), Option.bind_some, store, if_neg]
    · rfl
    · rw [List.length_append, List.length_append, List.length_drop, List.length_take,
        List.length_singleton]
      omega

theorem assigned_rep {buf : List UInt8} (hok : acceptsBuf buf.length = true)
    (hlt : hdrBytes < buf.length) :
    Rep ⟨buf.length - hdrBytes, 0, 0 :: buf.drop (hdrBytes + 1)⟩ [] := by
  have hmax := (acceptsBuf_iff.mp hok).2
  refine ⟨⟨_, rfl⟩, rfl, ?_, ?_⟩
  · rw [List.length_cons, List.length_drop]
    dsimp only
    omega
  · dsimp only
    omega

/-! ## Filling

A call that finds a byte to spare does what it does on the heap, since nothing is allocated. Any
other call ends the string. -/

theorem Rep.reallocs_iff {h : Hdr} {s : List UInt8} (hr : Rep h s) (op : Op) :
    op.reallocs h = true ↔ ¬ ∀ n ∈ op.asks, s.length + n + 1 < h.size := by
  have hlen := hr.len
  cases hasks : op.asks with
  | none => simp [Op.reallocs, hasks]
  | some n =>
    simp only [Op.reallocs, hasks, hr.unused, Option.any_some, Option.mem_def, Option.some.injEq,
      forall_eq', decide_eq_true_eq]
    omega

theorem Call.apply_asks {call : Call} {n : Nat} (hasks : call.op.asks = some n) (h : Hdr) :
    call.apply h = call.op.rest (ensureSize call.junk h n) := by
  obtain ⟨junk, op⟩ := call
  match op, hasks with
  | .ncpy (some src) _, rfl => rfl
  | .ncat (some src) _, rfl => rfl
  | .appendChr c, rfl => rfl

/-- An operation that asks for no room leaves the size as it is. -/
theorem Call.apply_size {call : Call} (hasks : call.op.asks = none) {h h' : Hdr} {s : List UInt8}
    (hr : Rep h s) (happ : call.apply h = some h') : h'.size = h.size := by
  obtain ⟨junk, op⟩ := call
  match op, hasks with
  | .ncpy none _, _ => exact congrArg Hdr.size (Option.some.inj happ).symm
  | .ncat none _, _ => exact congrArg Hdr.size (Option.some.inj happ).symm
  | .trim none, _ => exact congrArg Hdr.size (Option.some.inj happ).symm
  | .truncate pos, _ =>
    obtain ⟨data, -, rfl⟩ := Option.map_eq_some_iff.mp happ
    rfl
  | .trim (some chars), _ =>
    have htrim : inaStrTrim h (some chars) = some h' := happ
    rw [inaStrTrim_eq hr.spells] at htrim
    obtain rfl := Option.some.inj htrim
    rfl

/-- **A call with a byte to spare** stays in the buffer and does what it means. -/
theorem Rep.buf_call {h : Hdr} {s : List UInt8} (hr : Rep h s) {call : Call}
    (hheld : call.op.Held s.length) (hspare : Spare h.size s call) :
    ∃ h', call.apply h = some h' ∧ Rep h' (call.op.left s) ∧ h'.size = h.size := by
  have hlen := hr.len
  rw [← hlen] at hheld
  cases hasks : call.op.asks with
  | none =>
    obtain ⟨h', happ, hr'⟩ := Call.apply_yields_none hasks hr hheld
    exact ⟨h', happ, hr', Call.apply_size hasks hr happ⟩
  | some n =>
    have hroom : h.size - h.len - 1 > n := by
      have hn := hspare n hasks
      omega
    obtain ⟨h', hrest, hr'⟩ :=
      Op.rest_yields hasks hheld (ensureSize_ensures hr call.junk (Or.inl hroom))
    have hsame : ensureSize call.junk h n = h := by
      simp only [ensureSize, hr.unused, if_pos hroom]
    refine ⟨h', ?_, hr', ?_⟩
    · rw [Call.apply_asks hasks h, hrest]
    · rw [hsame] at hrest
      exact (Op.rest_some hasks hrest).1

theorem bufStep_none (calls : List Call) : exec bufStep none calls = none := by
  induction calls with
  | nil => rfl
  | cons call calls ih => rw [exec_cons]; exact ih

/-- A run of calls is there at its end exactly when every call had a byte to spare, and is then the
    byte sequence the calls give. -/
theorem fill_iff {calls : List Call} {h : Hdr} {s : List UInt8} (hr : Rep h s)
    (hcalls : Along leftStep (Within h.size) s calls) :
    (Along leftStep (Spare h.size) s calls →
      ∃ h', exec bufStep (some h) calls = some h' ∧ Rep h' (exec leftStep s calls) ∧
        h'.size = h.size) ∧
    (¬ Along leftStep (Spare h.size) s calls → exec bufStep (some h) calls = none) := by
  induction calls generalizing h s with
  | nil => exact ⟨fun _ => ⟨h, rfl, hr, rfl⟩, fun hno => absurd trivial hno⟩
  | cons call calls ih =>
    obtain ⟨hcall, hrest⟩ := hcalls
    have hreallocs := hr.reallocs_iff call.op
    by_cases hspare : Spare h.size s call
    · obtain ⟨h', happ, hr', hsize⟩ := hr.buf_call hcall.1 hspare
      -- The call stays in the buffer, and the rest of the run meets a string of the same size.
      have hstep : (bufStep (some h) call).2 = some h' := by
        rw [bufStep, Option.bind_some, if_neg fun hc => hreallocs.mp hc hspare, happ]
      rw [← hsize] at hrest
      obtain ⟨hthen, helse⟩ := ih hr' hrest
      rw [exec_cons, exec_cons, hstep]
      rw [hsize] at hthen helse
      constructor
      · intro halong
        exact hthen halong.2
      · intro hno
        exact helse fun halong => hno ⟨hspare, halong⟩
    · -- The call hands the buffer to `realloc`; there is no string from here on.
      have hstep : (bufStep (some h) call).2 = none := by
        rw [bufStep, Option.bind_some, if_pos (hreallocs.mpr hspare)]
      refine ⟨fun halong => absurd halong.1 hspare, fun _ => ?_⟩
      rw [exec_cons, hstep, bufStep_none]

/-! ## Releasing

After the move the byte behind the string is the one that stood there before: one of the header's
for a string of less than eight bytes, and else one of the string's own. -/

theorem inaStrReleaseBuf_eq {h : Hdr} {s : List UInt8} (hr : Rep h s) :
    inaStrReleaseBuf (some h) = .ok (some (s ++ h.bytes.drop s.length)) := by
  have hlt := hr.len_lt
  have hlen := hr.len
  have hbytes : h.bytes.length = 8 + h.data.length := by
    rw [Hdr.bytes, List.length_append]
    rfl
  simp only [inaStrReleaseBuf]
  rw [if_pos (Nat.le_of_lt hlt), hlen, hr.take (Nat.le_refl _), List.take_length,
    store_eq (by omega), List.take_zero, List.nil_append, Nat.zero_add]

theorem ofNat_eq_zero_iff (x : Nat) : UInt8.ofNat x = 0 ↔ x % 2 ^ 8 = 0 := by
  rw [← UInt8.toNat_inj, UInt8.toNat_ofNat']
  exact Iff.rfl

theorem u32Bytes_getElem? (x : Nat) {i : Nat} (hi : i < 4) :
    (u32Bytes x)[i]? = some (.ofNat (x / 2 ^ (8 * i))) := by
  match i, hi with
  | 0, _ => rw [Nat.mul_zero, Nat.pow_zero, Nat.div_one]; rfl
  | 1, _ => rfl
  | 2, _ => rfl
  | 3, _ => rfl

/-- What is read where a string without NULs ends, once its bytes are moved to the front. -/
theorem Rep.nul_iff {h : Hdr} {s : List UInt8} (hr : Rep h s) (hs : 0 ∉ s) :
    h.bytes[s.length]? = some 0 ↔ NulInHeader h.size s.length := by
  obtain ⟨rest, hdata⟩ := hr.data
  by_cases hlt : s.length < 8
  · -- a byte of the header
    have hhead : h.bytes[s.length]? = (u32Bytes h.size ++ u32Bytes s.length)[s.length]? := by
      rw [Hdr.bytes, hr.len]
      exact List.getElem?_append_left hlt
    rw [hhead, NulInHeader]
    generalize s.length = n at hlt
    by_cases hsize : n < 4
    · rw [List.getElem?_append_left hsize, u32Bytes_getElem? _ hsize, Option.some.injEq,
        ofNat_eq_zero_iff]
      constructor
      · intro hzero
        exact ⟨hlt, by omega, fun _ => hzero⟩
      · intro hc
        exact hc.2.2 hsize
    · -- of the bytes of `len` only the lowest is not 0
      have hlen : (u32Bytes n)[n - 4]? = some 0 ↔ n ≠ 4 := by
        rw [u32Bytes_getElem? n (by omega), Option.some.injEq, ofNat_eq_zero_iff]
        obtain rfl | rfl | rfl | rfl : n = 4 ∨ n = 5 ∨ n = 6 ∨ n = 7 := by omega
        all_goals decide
      rw [List.getElem?_append_right (Nat.not_lt.mp hsize), u32Bytes_length, hlen]
      constructor
      · intro hne
        exact ⟨hlt, hne, fun hc => absurd hc hsize⟩
      · intro hc
        exact hc.2.1
  · -- a byte of the string itself, eight before its end
    have hbyte : h.bytes[s.length]? = s[s.length - 8]? := by
      rw [Hdr.bytes, List.getElem?_append_right (by rw [List.length_append]; exact Nat.not_lt.mp hlt),
        hdata]
      exact List.getElem?_append_left (by simp only [List.length_append, u32Bytes_length]; omega)
    rw [hbyte]
    constructor
    · intro hzero
      exact absurd (List.mem_of_getElem? hzero) hs
    · intro hc
      exact absurd hc.1 hlt

theorem append_eq_nul_iff {s b : List UInt8} :
    (∃ rest, s ++ b.drop s.length = s ++ 0 :: rest) ↔ b[s.length]? = some 0 := by
  constructor
  · rintro ⟨rest, heq⟩
    have hdrop := List.append_cancel_left heq
    rw [← List.head?_drop, hdrop]
    rfl
  · intro hzero
    obtain ⟨hlt, hget⟩ := List.getElem?_eq_some_iff.mp hzero
    exact ⟨b.drop (s.length + 1), by rw [List.drop_eq_getElem_cons hlt, hget]⟩

/-! ## The whole way

The three conditions are independent of one another and meet here. -/

/-- **The buffer holds the string exactly when** it has more than the eight bytes of the header, no
    call needs the last byte, and the string ends where the header has a NUL. For every buffer that
    is accepted and all calls whose results fit into its size and end without NULs. -/
theorem released_iff_nul_in_header {buf : List UInt8} (hok : acceptsBuf buf.length = true)
    {calls : List Call} (hcalls : Along leftStep (Within (buf.length - hdrBytes)) [] calls)
    (hnul : 0 ∉ exec leftStep [] calls) :
    Released buf calls ↔
      hdrBytes < buf.length ∧ Along leftStep (Spare (buf.length - hdrBytes)) [] calls ∧
        NulInHeader (buf.length - hdrBytes) (exec leftStep [] calls).length := by
  have hassign := inaStrAssignBuf_eq hok
  by_cases hlt : hdrBytes < buf.length
  · rw [if_pos hlt] at hassign
    have hfill := fill_iff (assigned_rep hok hlt) hcalls
    by_cases hspare : Along leftStep (Spare (buf.length - hdrBytes)) [] calls
    · obtain ⟨h, hexec, hr, hsize⟩ := hfill.1 hspare
      have hrelease := inaStrReleaseBuf_eq hr
      have hnuls := (append_eq_nul_iff (b := h.bytes)).trans (hr.nul_iff hnul)
      rw [hsize] at hnuls
      dsimp only at hnuls
      rw [← hnuls]
      constructor
      · rintro ⟨hdr, h', out, rest, hdr_eq, hh', hout, heq⟩
        rw [hassign] at hdr_eq
        obtain rfl := Option.some.inj (Except.ok.inj hdr_eq)
        rw [hexec] at hh'
        obtain rfl := Option.some.inj hh'
        rw [hrelease] at hout
        obtain rfl := Option.some.inj (Except.ok.inj hout)
        exact ⟨hlt, hspare, rest, heq⟩
      · rintro ⟨-, -, rest, heq⟩
        exact ⟨_, h, _, rest, hassign, hexec, hrelease, heq⟩
    · -- a `realloc` on the way
      refine ⟨?_, fun hc => absurd hc.2.1 hspare⟩
      rintro ⟨hdr, h', out, rest, hdr_eq, hh', -⟩
      rw [hassign] at hdr_eq
      obtain rfl := Option.some.inj (Except.ok.inj hdr_eq)
      rw [hfill.2 hspare] at hh'
      cases hh'
  · refine ⟨?_, fun hc => absurd hc.1 hlt⟩
    rintro ⟨hdr, h', out, rest, hdr_eq, -⟩
    rw [hassign, if_neg hlt] at hdr_eq
    cases hdr_eq

/-- "hallo" in a buffer of twenty bytes, which the tests do in one of 512. -/
theorem released_iff_nul_in_header_hallo :
    Released (List.replicate 20 1) [⟨fun _ => 7, .ncat (some [104, 97, 108, 108, 111]) 5⟩] := by
  have hok : acceptsBuf (List.replicate 20 (1 : UInt8)).length = true := by decide
  refine (released_iff_nul_in_header hok ?_ ?_).mpr ⟨?_, ?_, ?_⟩
  · exact ⟨⟨Nat.le_refl 5, by decide⟩, trivial⟩
  · decide
  · decide
  · refine ⟨?_, trivial⟩
    intro n hn
    obtain rfl := Option.some.inj hn
    decide
  · exact ⟨by decide, by decide, fun hc => absurd hc (by decide)⟩

/-- "hall" does not end: behind it stands the lowest byte of its length. And in a buffer of eight
    bytes, which is accepted, there is no place for the first NUL. -/
theorem four_bytes_unterminated :
    ¬ Released (List.replicate 20 1) [⟨fun _ => 7, .ncat (some [104, 97, 108, 108]) 4⟩] ∧
      acceptsBuf 8 = true ∧ ¬ Released (List.replicate 8 1) [] := by
  refine ⟨?_, by decide, ?_⟩
  · have hassign : inaStrAssignBuf (some (List.replicate 20 1)) 20 =
        .ok (some ⟨12, 0, 0 :: List.replicate 11 1⟩) := rfl
    have hexec : exec bufStep (some ⟨12, 0, 0 :: List.replicate 11 1⟩)
        [⟨fun _ => 7, .ncat (some [104, 97, 108, 108]) 4⟩] =
          some ⟨12, 4, [104, 97, 108, 108] ++ 0 :: List.replicate 7 1⟩ := rfl
    have hrelease : inaStrReleaseBuf (some ⟨12, 4, [104, 97, 108, 108] ++ 0 :: List.replicate 7 1⟩) =
        .ok (some ([104, 97, 108, 108] ++ 4 :: [0, 0, 0, 104, 97, 108, 108] ++
          0 :: List.replicate 7 1)) := rfl
    rintro ⟨hdr, h, out, rest, hdr_eq, hh, hout, heq⟩
    obtain rfl := Option.some.inj (Except.ok.inj (hassign.symm.trans hdr_eq))
    obtain rfl := Option.some.inj (hexec.symm.trans hh)
    obtain rfl := Option.some.inj (Except.ok.inj (hrelease.symm.trans hout))
    have hfour : some (4 : UInt8) = some 0 := congrArg (fun out => out[4]?) heq
    exact absurd hfour (by decide)
  · rintro ⟨hdr, -, -, -, hdr_eq, -⟩
    have hassign : inaStrAssignBuf (some (List.replicate 8 1)) 8 = .ok none := rfl
    cases Except.ok.inj (hassign.symm.trans hdr_eq)

end Str
end Inac
