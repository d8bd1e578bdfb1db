import Mathlib.Data.List.Infix
import Inac.Str.Refine

/-!
# Tokenizing (`ina_str_tok`)

The caller passes the buffer once and then `NULL`; `*next` says where to go on. Each call builds a
map of the separators, 256 bits in eight words, skips the separators at `*next`, and ends the token
behind them by a NUL written over the separator that follows, or over the NUL at the end.

A byte of the buffer is a `char`, which is signed here (x86), and is used as an index of the map as
it is: from 0x80 on the index is negative. And a token that runs to the end of the buffer leaves
`*next` one behind the NUL, where the next call goes on reading. Both have no result in the model
(`Fault`). The tokens are the runs of other characters exactly for buffers of bytes below 0x80 that
are empty or end with a separator (`tok_iff_ends_with_separator`).
-/

namespace Inac
namespace Str

open Lib

/-! ## The code

An index of the map is signed, as the byte is. So the map is a list with a check on every access. -/

/-- An access outside the buffer, or outside `tokmap`. -/
inductive Fault where
  | buffer
  | tokmap
  deriving DecidableEq, Repr

/-- `unsigned long tokmap[1 << (CHAR_BIT - 5)] = {0}`. -/
def tokmapZero : List (BitVec 64) := List.replicate 8 0

/-- `(c & ~31) >> 5`. -/
def mapIndex (c : BitVec 32) : Int := ((c &&& ~~~31#32).sshiftRight 5).toInt

/-- `1u << (c & 31)`, as an `unsigned long`. -/
def mapBit (c : BitVec 32) : BitVec 64 := (1#32 <<< (c &&& 31#32).toNat).setWidth 64

/-- An entry of `tokmap`. -/
def mapEntry (tokmap : List (BitVec 64)) (i : Int) : Except Fault (BitVec 64) :=
  if 0 ≤ i then
    match tokmap[i.toNat]? with
    | some w => .ok w
    | none => .error .tokmap
  else .error .tokmap

/-- `tokmap[i] |= bit`. -/
def mapOr (tokmap : List (BitVec 64)) (i : Int) (bit : BitVec 64) :
    Except Fault (List (BitVec 64)) := do
  let w ← mapEntry tokmap i
  .ok (tokmap.set i.toNat (w ||| bit))

/-- `tokmap[(*p & ~31) >> 5] & (1u << (*p & 31))`. -/
def mapHas (tokmap : List (BitVec 64)) (c : UInt8) : Except Fault Bool := do
  let c := c.toBitVec.signExtend 32
  let w ← mapEntry tokmap (mapIndex c)
  .ok (w &&& mapBit c ≠ 0)

/-- The loop over `sep` up to its NUL; `tmp` is an `unsigned char`. -/
def mapFill (tokmap : List (BitVec 64)) : List UInt8 → Except Fault (List (BitVec 64))
  | [] => .ok tokmap
  | tmp :: sep => do
    let c := tmp.toBitVec.setWidth 32
    let tokmap ← mapOr tokmap (mapIndex c) (mapBit c)
    mapFill tokmap sep

/-- `while (tokmap[..] & ..) ++p;`, on the bytes from `p` on. -/
def tokSkip (tokmap : List (BitVec 64)) : List UInt8 → Nat → Except Fault Nat
  | [], _ => .error .buffer
  | c :: bytes, p => do
    if ← mapHas tokmap c then tokSkip tokmap bytes (p + 1) else .ok p

/-- `do { ++p; } while (!(tokmap[..] & ..));`, on the bytes behind the first `p`. -/
def tokScan (tokmap : List (BitVec 64)) : List UInt8 → Nat → Except Fault Nat
  | [], _ => .error .buffer
  | c :: bytes, p => do
    if ← mapHas tokmap c then .ok p else tokScan tokmap bytes (p + 1)

/-- The buffer, and `*next` as an index of it; `none` is `NULL`. -/
structure TokState where
  buf : List UInt8
  next : Option Nat
  deriving DecidableEq, Repr

/-- What follows the skipping: at the NUL there are no more tokens, else the token is ended. -/
def tokEnd (tokmap : List (BitVec 64)) (buf : List UInt8) (p : Nat) :
    Except Fault (Option Nat × TokState) :=
  match buf[p]? with
  | none => .error .buffer
  | some c =>
    if c = 0 then .ok (none, ⟨buf, none⟩)
    else do
      let tokmap ← mapOr tokmap 0 1
      let q ← tokScan tokmap (buf.drop (p + 1)) (p + 1)
      match store buf q [0] with
      | none => .error .buffer
      | some buf => .ok (some p, ⟨buf, some (q + 1)⟩)

/-- What `ina_str_tok` does once `*next` is set to `p`. -/
def tokFrom (sep : List UInt8) (buf : List UInt8) (p : Nat) :
    Except Fault (Option Nat × TokState) := do
  let tokmap ← mapFill tokmapZero (sep.takeWhile (· ≠ 0))
  let p ← tokSkip tokmap (buf.drop p) p
  tokEnd tokmap buf p

/-- `ina_str_tok`; `str` and the token returned are indices of the buffer, and `none` is `NULL`. -/
def inaStrTok (sep : Option (List UInt8)) (str : Option Nat) (st : TokState) :
    Except Fault (Option Nat × TokState) :=
  match sep with
  | none => .ok (none, st)
  | some sep =>
    if strlen sep = 0 then .ok (none, st)
    else
      let st := if str.isSome then { st with next := str } else st
      match st.next with
      | none => .ok (none, st)
      | some p => tokFrom sep st.buf p

/-- The C string at index `p`. -/
def TokState.text (st : TokState) (p : Nat) : List UInt8 := (st.buf.drop p).takeWhile (· ≠ 0)

/-- The calls with `str` first and then `NULL`, until one returns `NULL`: the tokens returned. -/
inductive TokCalls (sep : Option (List UInt8)) : Option Nat → TokState → List (List UInt8) → Prop
  where
  | done {str : Option Nat} {st st' : TokState} (h : inaStrTok sep str st = .ok (none, st')) :
      TokCalls sep str st []
  | more {str : Option Nat} {st st' : TokState} {p : Nat} {toks : List (List UInt8)}
      (h : inaStrTok sep str st = .ok (some p, st')) (rest : TokCalls sep none st' toks) :
      TokCalls sep str st (st'.text p :: toks)

/-! ## The map

Eight words of which each has the bits of thirty-two bytes; the upper half of a word is never used.
-/

/-- Whether the map has the bit of a byte. -/
def mapped (tokmap : List (BitVec 64)) (k : Nat) : Bool :=
  (tokmap.getD (k / 32) 0).getLsbD (k % 32)

theorem mapIndex_unsigned : ∀ c : BitVec 8, mapIndex (c.setWidth 32) = (c.toNat / 32 : Nat) := by
  decide +kernel

theorem mapIndex_signed : ∀ c : BitVec 8, mapIndex (c.signExtend 32) =
    if c.toNat < 128 then ((c.toNat / 32 : Nat) : Int) else (c.toNat / 32 : Nat) - 8 := by
  decide +kernel

theorem mapBit_unsigned : ∀ c : BitVec 8,
    mapBit (c.setWidth 32) = BitVec.twoPow 64 (c.toNat % 32) := by
  decide +kernel

theorem mapBit_signed : ∀ c : BitVec 8,
    mapBit (c.signExtend 32) = BitVec.twoPow 64 (c.toNat % 32) := by
  decide +kernel

theorem mapEntry_eq {tokmap : List (BitVec 64)} (hlen : tokmap.length = 8) {i : Nat} (hi : i < 8) :
    mapEntry tokmap i = .ok (tokmap.getD i 0) := by
  have hlt : i < tokmap.length := by omega
  simp [mapEntry, hlt]

theorem and_twoPow_ne_zero {w : BitVec 64} {k : Nat} (hk : k < 64) :
    decide (w &&& BitVec.twoPow 64 k ≠ 0) = w.getLsbD k := by
  rw [BitVec.and_twoPow]
  cases hbit : w.getLsbD k with
  | false => simp
  | true =>
    simp only [if_true, decide_eq_true_eq]
    intro hzero
    have := congrArg (fun x => BitVec.getLsbD x k) hzero
    simp [hk] at this

/-- A byte of the buffer below 0x80 is looked up, any other is not in the map. -/
theorem mapHas_eq {tokmap : List (BitVec 64)} (hlen : tokmap.length = 8) (c : UInt8) :
    mapHas tokmap c = if c.toNat < 128 then .ok (mapped tokmap c.toNat) else .error .tokmap := by
  have hidx := mapIndex_signed c.toBitVec
  rw [UInt8.toNat_toBitVec] at hidx
  have hbit := mapBit_signed c.toBitVec
  rw [UInt8.toNat_toBitVec] at hbit
  have hc := c.toNat_lt
  simp only [mapHas, hidx, hbit]
  by_cases hlow : c.toNat < 128
  · rw [if_pos hlow, if_pos hlow, mapEntry_eq hlen (by omega)]
    exact congrArg Except.ok (and_twoPow_ne_zero (by omega))
  · rw [if_neg hlow, if_neg hlow, mapEntry, if_neg (by omega)]
    rfl

/-- Storing a bit adds it to the map. -/
theorem mapOr_eq {tokmap : List (BitVec 64)} (hlen : tokmap.length = 8) {d : Nat} (hd : d < 256) :
    ∃ tokmap', mapOr tokmap (d / 32 : Nat) (BitVec.twoPow 64 (d % 32)) = .ok tokmap' ∧
      tokmap'.length = 8 ∧ ∀ k, mapped tokmap' k = (mapped tokmap k || decide (k = d)) := by
  refine ⟨tokmap.set (d / 32) (tokmap.getD (d / 32) 0 ||| BitVec.twoPow 64 (d % 32)), ?_, ?_, ?_⟩
  · rw [mapOr, mapEntry_eq hlen (by omega)]
    rfl
  · rw [List.length_set]
    exact hlen
  · intro k
    simp only [mapped]
    by_cases hk : k / 32 = d / 32
    · have hlt : d / 32 < tokmap.length := by omega
      rw [hk, List.getD_eq_getElem _ _ (by rw [List.length_set]; exact hlt), List.getElem_set_self,
        BitVec.getLsbD_or, BitVec.getLsbD_twoPow]
      have hbit : (decide (d % 32 < 64) && decide (d % 32 = k % 32)) = decide (k = d) := by
        rw [← Bool.decide_and]
        exact decide_eq_decide.mpr ⟨fun h => by omega, fun h => by omega⟩
      rw [hbit]
    · have hne : k ≠ d := fun h => hk (h ▸ rfl)
      rw [decide_eq_false hne, Bool.or_false, List.getD_eq_getElem?_getD,
        List.getElem?_set_ne (Ne.symm hk), List.getD_eq_getElem?_getD]

/-- The map of the separators. -/
theorem mapFill_eq (sep : List UInt8) {tokmap : List (BitVec 64)} (hlen : tokmap.length = 8) :
    ∃ tokmap', mapFill tokmap sep = .ok tokmap' ∧ tokmap'.length = 8 ∧
      ∀ c : UInt8, mapped tokmap' c.toNat = (mapped tokmap c.toNat || decide (c ∈ sep)) := by
  induction sep generalizing tokmap with
  | nil => exact ⟨tokmap, rfl, hlen, fun c => by simp⟩
  | cons d sep ih =>
    obtain ⟨tokmap', hor, hlen', hmapped⟩ := mapOr_eq hlen (d := d.toNat) d.toNat_lt
    obtain ⟨tokmap'', hfill, hlen'', hmapped'⟩ := ih hlen'
    refine ⟨tokmap'', ?_, hlen'', fun c => ?_⟩
    · rw [mapFill, mapIndex_unsigned, mapBit_unsigned, UInt8.toNat_toBitVec, hor]
      exact hfill
    · have hcd : decide (c.toNat = d.toNat) = decide (c = d) :=
        decide_eq_decide.mpr UInt8.toNat_inj
      rw [hmapped', hmapped, hcd, Bool.or_assoc]
      simp [List.mem_cons]

/-- The map has the bits of these bytes. -/
structure Marks (tokmap : List (BitVec 64)) (q : UInt8 → Bool) : Prop where
  length : tokmap.length = 8
  bit : ∀ c : UInt8, mapped tokmap c.toNat = q c

theorem Marks.has {tokmap : List (BitVec 64)} {q : UInt8 → Bool} (h : Marks tokmap q) (c : UInt8) :
    mapHas tokmap c = if c.toNat < 128 then .ok (q c) else .error .tokmap := by
  rw [mapHas_eq h.length, h.bit]

theorem mapFill_marks (sep : List UInt8) :
    ∃ tokmap, mapFill tokmapZero sep = .ok tokmap ∧ Marks tokmap fun c => c ∈ sep := by
  obtain ⟨tokmap, hfill, hlen, hbit⟩ := mapFill_eq sep (show tokmapZero.length = 8 from rfl)
  refine ⟨tokmap, hfill, hlen, fun c => ?_⟩
  have hzero : mapped tokmapZero c.toNat = false := by
    have hc : c.toNat / 32 < 8 := by
      have := c.toNat_lt
      omega
    rw [mapped, tokmapZero, List.getD_replicate _ hc]
    exact BitVec.getLsbD_zero
  rw [hbit, hzero, Bool.false_or]

/-- The map once the NUL is a separator too. -/
theorem Marks.nul {tokmap : List (BitVec 64)} {q : UInt8 → Bool} (h : Marks tokmap q) :
    ∃ tokmap', mapOr tokmap 0 1 = .ok tokmap' ∧ Marks tokmap' fun c => q c || c = 0 := by
  obtain ⟨tokmap', hor, hlen, hbit⟩ := mapOr_eq h.length (show 0 < 256 by decide)
  refine ⟨tokmap', hor, hlen, fun c => ?_⟩
  have hzero : decide (c.toNat = 0) = decide (c = 0) :=
    decide_eq_decide.mpr (UInt8.toNat_inj (b := 0))
  rw [hbit, h.bit, hzero]

/-! ## The runs of other characters

What the tokens should be, without the code. -/

/-- The maximal runs of characters that are not in `sep`, in order. -/
def maximalRuns (sep s : List UInt8) : List (List UInt8) :=
  (s.splitOnP (· ∈ sep)).filter (· ≠ [])

theorem maximalRuns_sep {sep : List UInt8} {c : UInt8} (hc : c ∈ sep) (s : List UInt8) :
    maximalRuns sep (c :: s) = maximalRuns sep s := by
  simp [maximalRuns, List.splitOnP_cons_eq_if_modifyHead, hc]

theorem maximalRuns_run {sep t : List UInt8} (ht : t ≠ []) (hts : ∀ c ∈ t, c ∉ sep) {d : UInt8}
    (hd : d ∈ sep) (s : List UInt8) :
    maximalRuns sep (t ++ d :: s) = t :: maximalRuns sep s := by
  rw [maximalRuns, List.splitOnP_append_cons_of_forall_mem (fun c hc => decide_eq_false (hts c hc)) d
    (decide_eq_true hd), List.filter_cons_of_pos (by simpa using ht)]
  rfl

/-! ## The loops

Both stop at the first byte of one kind, or fail at the first one that is no index. -/

/-- A byte that a token goes on over. -/
def Plain (sep : List UInt8) (c : UInt8) : Prop := c.toNat < 128 ∧ c ∉ sep

instance (sep : List UInt8) (c : UInt8) : Decidable (Plain sep c) :=
  inferInstanceAs (Decidable (_ ∧ _))

section Loops

variable {sep : List UInt8} {tokmap : List (BitVec 64)}

theorem tokSkip_sep (hm : Marks tokmap fun c => c ∈ sep) {c : UInt8} (hlow : c.toNat < 128)
    (hc : c ∈ sep) (bytes : List UInt8) (p : Nat) :
    tokSkip tokmap (c :: bytes) p = tokSkip tokmap bytes (p + 1) := by
  rw [tokSkip, hm.has, if_pos hlow, decide_eq_true hc]
  rfl

theorem tokSkip_plain (hm : Marks tokmap fun c => c ∈ sep) {c : UInt8} (hc : Plain sep c)
    (bytes : List UInt8) (p : Nat) : tokSkip tokmap (c :: bytes) p = .ok p := by
  rw [tokSkip, hm.has, if_pos hc.1, decide_eq_false hc.2]
  rfl

/-- A byte from 0x80 on is no index of the map. -/
theorem tokSkip_high {q : UInt8 → Bool} (hm : Marks tokmap q) {c : UInt8}
    (hhigh : ¬ c.toNat < 128) (bytes : List UInt8) (p : Nat) :
    tokSkip tokmap (c :: bytes) p = .error .tokmap := by
  rw [tokSkip, hm.has, if_neg hhigh]
  rfl

theorem tokScan_high {q : UInt8 → Bool} (hm : Marks tokmap q) {c : UInt8}
    (hhigh : ¬ c.toNat < 128) (bytes : List UInt8) (p : Nat) :
    tokScan tokmap (c :: bytes) p = .error .tokmap := by
  rw [tokScan, hm.has, if_neg hhigh]
  rfl

theorem tokScan_stop (hm : Marks tokmap fun c => c ∈ sep || c = 0) {c : UInt8}
    (hlow : c.toNat < 128) (hc : c ∈ sep ∨ c = 0) (bytes : List UInt8) (p : Nat) :
    tokScan tokmap (c :: bytes) p = .ok p := by
  have hstop : (decide (c ∈ sep) || decide (c = 0)) = true := by simpa using hc
  rw [tokScan, hm.has, if_pos hlow, hstop]
  rfl

theorem tokScan_plain (hm : Marks tokmap fun c => c ∈ sep || c = 0) {t : List UInt8}
    (ht : ∀ c ∈ t, Plain sep c) (ht0 : 0 ∉ t) (bytes : List UInt8) (p : Nat) :
    tokScan tokmap (t ++ bytes) p = tokScan tokmap bytes (p + t.length) := by
  induction t generalizing p with
  | nil => rfl
  | cons c t ih =>
    obtain ⟨⟨hlow, hns⟩, ht'⟩ := List.forall_mem_cons.mp ht
    obtain ⟨hc0, ht0'⟩ := not_or.mp (List.mem_cons.not.mp ht0)
    have hgo : (decide (c ∈ sep) || decide (c = 0)) = false := by
      simpa [hns] using Ne.symm hc0
    rw [List.cons_append, tokScan, hm.has, if_pos hlow, hgo]
    refine (ih ht' ht0' (p + 1)).trans ?_
    rw [List.length_cons, Nat.add_assoc, Nat.add_comm 1]

end Loops

/-! ## A call

The buffer has changed in one place after a call: the separator behind the token is a NUL. -/

section Call

variable {sep : List UInt8} (hsep0 : 0 ∉ sep) (rest : List UInt8)

theorem drop_of_getElem? {buf : List UInt8} {p : Nat} {c : UInt8} (h : buf[p]? = some c) :
    buf.drop p = c :: buf.drop (p + 1) := by
  obtain ⟨hlt, rfl⟩ := List.getElem?_eq_some_iff.mp h
  exact List.drop_eq_getElem_cons hlt

include hsep0

theorem tokFrom_eq : ∃ tokmap, Marks tokmap (fun c => c ∈ sep) ∧ ∀ buf p,
    tokFrom (sep ++ 0 :: rest) buf p =
      (tokSkip tokmap (buf.drop p) p).bind (tokEnd tokmap buf) := by
  obtain ⟨tokmap, hfill, hm⟩ := mapFill_marks sep
  refine ⟨tokmap, hm, fun buf p => ?_⟩
  rw [tokFrom, takeWhile_cstr hsep0, hfill]
  rfl

theorem tokFrom_sep {buf : List UInt8} {p : Nat} {c : UInt8} (hp : buf[p]? = some c)
    (hlow : c.toNat < 128) (hc : c ∈ sep) :
    tokFrom (sep ++ 0 :: rest) buf p = tokFrom (sep ++ 0 :: rest) buf (p + 1) := by
  obtain ⟨tokmap, hm, heq⟩ := tokFrom_eq hsep0 rest
  rw [heq, heq, drop_of_getElem? hp, tokSkip_sep hm hlow hc]

theorem tokFrom_high {buf : List UInt8} {p : Nat} {c : UInt8} (hp : buf[p]? = some c)
    (hhigh : ¬ c.toNat < 128) : tokFrom (sep ++ 0 :: rest) buf p = .error .tokmap := by
  obtain ⟨tokmap, hm, heq⟩ := tokFrom_eq hsep0 rest
  rw [heq, drop_of_getElem? hp, tokSkip_high hm hhigh]
  rfl

/-- Behind the buffer there is nothing to read. -/
theorem tokFrom_behind {buf : List UInt8} {p : Nat} (hp : buf.length ≤ p) :
    tokFrom (sep ++ 0 :: rest) buf p = .error .buffer := by
  obtain ⟨tokmap, -, heq⟩ := tokFrom_eq hsep0 rest
  rw [heq, List.drop_of_length_le hp]
  rfl

/-- At the NUL there are no more tokens. -/
theorem tokFrom_nul {buf : List UInt8} {p : Nat} (hp : buf[p]? = some 0) :
    tokFrom (sep ++ 0 :: rest) buf p = .ok (none, ⟨buf, none⟩) := by
  obtain ⟨tokmap, hm, heq⟩ := tokFrom_eq hsep0 rest
  rw [heq, drop_of_getElem? hp, tokSkip_plain hm ⟨by decide, hsep0⟩, Except.bind, tokEnd, hp]
  rfl

/-- A token starts: what the call does is decided by the first byte that does not go on. -/
theorem tokFrom_token {buf t r : List UInt8} {p : Nat} {c d : UInt8} (hp : buf[p]? = some c)
    (hc : Plain sep c) (hc0 : c ≠ 0) (hdrop : buf.drop (p + 1) = t ++ d :: r)
    (ht : ∀ x ∈ t, Plain sep x) (ht0 : 0 ∉ t) :
    (¬ d.toNat < 128 → tokFrom (sep ++ 0 :: rest) buf p = .error .tokmap) ∧
    (d.toNat < 128 → d ∈ sep ∨ d = 0 → tokFrom (sep ++ 0 :: rest) buf p =
      .ok (some p, ⟨buf.take (p + 1) ++ t ++ 0 :: r, some (p + 1 + t.length + 1)⟩)) := by
  obtain ⟨tokmap, hm, heq⟩ := tokFrom_eq hsep0 rest
  obtain ⟨tokmap', hor, hm'⟩ := hm.nul
  have hend : tokFrom (sep ++ 0 :: rest) buf p =
      (tokScan tokmap' (d :: r) (p + 1 + t.length)).bind fun q =>
        match store buf q [0] with
        | none => .error .buffer
        | some buf => .ok (some p, ⟨buf, some (q + 1)⟩) := by
    rw [heq, drop_of_getElem? hp, tokSkip_plain hm hc, Except.bind, tokEnd, hp]
    simp only [if_neg hc0, hor]
    rw [← tokScan_plain hm' ht ht0 (d :: r) (p + 1), ← hdrop]
    rfl
  constructor
  · intro hhigh
    rw [hend, tokScan_high hm' hhigh]
    rfl
  · intro hlow hd
    -- the NUL is written over `d`
    have hsplit : buf = buf.take (p + 1) ++ t ++ d :: r := by
      rw [List.append_assoc, ← hdrop, List.take_append_drop]
    have hlen : (buf.take (p + 1) ++ t).length = p + 1 + t.length := by
      obtain ⟨hlt, -⟩ := List.getElem?_eq_some_iff.mp hp
      rw [List.length_append, List.length_take_of_le hlt]
    have hstore : store buf (p + 1 + t.length) [0] =
        some (buf.take (p + 1) ++ t ++ 0 :: r) := by
      generalize buf.take (p + 1) ++ t = front at hsplit hlen
      rw [hsplit, ← hlen, store_eq (by simp), List.take_left]
      simp
    rw [hend, tokScan_stop hm' hlow hd, Except.bind]
    simp only [hstore]

end Call

/-! ## The calls

By strong induction on what is left of the buffer: each call takes at least one byte of it. -/

/-- The buffers that are read to their end: bytes below 0x80, the last one a separator. -/
structure Readable (sep s : List UInt8) : Prop where
  low : ∀ c ∈ s, c.toNat < 128
  last : ∀ c, s.getLast? = some c → c ∈ sep

theorem readable_nil (sep : List UInt8) : Readable sep [] :=
  ⟨fun _ h => absurd h List.not_mem_nil, fun _ h => by cases h⟩

/-- A separator, and low bytes before it, change nothing. -/
theorem readable_append_sep {sep t r : List UInt8} {d : UInt8} (ht : ∀ c ∈ t, c.toNat < 128)
    (hlow : d.toNat < 128) (hd : d ∈ sep) : Readable sep (t ++ d :: r) ↔ Readable sep r := by
  have hlast : (t ++ d :: r).getLast? = r.getLast?.or (some d) := by
    rw [List.getLast?_append, List.getLast?_cons]
    cases r.getLast? <;> rfl
  constructor
  · intro h
    refine ⟨fun c hc => h.low c ?_, fun c hc => h.last c ?_⟩
    · exact List.mem_append_right _ (List.mem_cons_of_mem _ hc)
    · rw [hlast, hc]
      rfl
  · intro h
    refine ⟨fun c hc => ?_, fun c hc => ?_⟩
    · rcases List.mem_append.mp hc with hc | hc
      · exact ht c hc
      · rcases List.mem_cons.mp hc with rfl | hc
        · exact hlow
        · exact h.low c hc
    · rw [hlast] at hc
      cases hr : r.getLast? with
      | none =>
        rw [hr] at hc
        cases hc
        exact hd
      | some x =>
        rw [hr] at hc
        cases hc
        exact h.last c hr

theorem tokCalls_congr {sep : Option (List UInt8)} {str str' : Option Nat} {st st' : TokState}
    {toks : List (List UInt8)} (h : inaStrTok sep str st = inaStrTok sep str' st') :
    TokCalls sep str st toks ↔ TokCalls sep str' st' toks := by
  constructor
  · rintro (hdone | ⟨hmore, hrest⟩)
    · exact .done (h.symm.trans hdone)
    · exact .more (h.symm.trans hmore) hrest
  · rintro (hdone | ⟨hmore, hrest⟩)
    · exact .done (h.trans hdone)
    · exact .more (h.trans hmore) hrest

theorem not_tokCalls_of_error {sep : Option (List UInt8)} {str : Option Nat} {st : TokState}
    {toks : List (List UInt8)} {e : Fault} (h : inaStrTok sep str st = .error e) :
    ¬ TokCalls sep str st toks := by
  rintro (hdone | ⟨hmore, -⟩)
  · rw [h] at hdone; cases hdone
  · rw [h] at hmore; cases hmore

theorem tokCalls_of_token {sep : Option (List UInt8)} {str : Option Nat} {st st' : TokState}
    {p : Nat} {tok : List UInt8} {toks : List (List UInt8)}
    (h : inaStrTok sep str st = .ok (some p, st')) (htok : st'.text p = tok) :
    TokCalls sep str st (tok :: toks) ↔ TokCalls sep none st' toks := by
  constructor
  · intro hcalls
    generalize hl : tok :: toks = l at hcalls
    cases hcalls with
    | done _ => cases hl
    | more hmore hrest =>
      cases h.symm.trans hmore
      obtain ⟨-, rfl⟩ := List.cons.inj hl
      exact hrest
  · intro hrest
    rw [← htok]
    exact .more h hrest

section Calls

variable {sep : List UInt8} (hsep : sep ≠ []) (hsep0 : 0 ∉ sep) (rest : List UInt8)

/-- The calls from index `p` of the buffer on. -/
def CallsFrom (sep buf : List UInt8) (p : Nat) (toks : List (List UInt8)) : Prop :=
  TokCalls (some sep) none ⟨buf, some p⟩ toks

include hsep hsep0

theorem inaStrTok_eq (buf : List UInt8) (p : Nat) :
    inaStrTok (some (sep ++ 0 :: rest)) none ⟨buf, some p⟩ = tokFrom (sep ++ 0 :: rest) buf p ∧
      ∀ next, inaStrTok (some (sep ++ 0 :: rest)) (some p) ⟨buf, next⟩ =
        tokFrom (sep ++ 0 :: rest) buf p := by
  have hlen : strlen (sep ++ 0 :: rest) ≠ 0 := by
    rw [strlen_cstr hsep0]
    exact fun h => hsep (List.length_eq_zero_iff.mp h)
  simp only [inaStrTok, if_neg hlen]
  exact ⟨rfl, fun _ => rfl⟩

theorem not_callsFrom {buf : List UInt8} {p : Nat} {e : Fault}
    (h : tokFrom (sep ++ 0 :: rest) buf p = .error e) (toks : List (List UInt8)) :
    ¬ CallsFrom (sep ++ 0 :: rest) buf p toks :=
  not_tokCalls_of_error (((inaStrTok_eq hsep hsep0 rest buf p).1).trans h)

/-- A token and the calls after it. -/
theorem callsFrom_token {pre t r : List UInt8} {c d : UInt8} (hc : Plain sep c) (hc0 : c ≠ 0)
    (ht : ∀ x ∈ t, Plain sep x) (ht0 : 0 ∉ t) (hlow : d.toNat < 128) (hd : d ∈ sep ∨ d = 0)
    (toks : List (List UInt8)) :
    CallsFrom (sep ++ 0 :: rest) (pre ++ (c :: t ++ d :: r)) pre.length ((c :: t) :: toks) ↔
      CallsFrom (sep ++ 0 :: rest) (pre ++ (c :: t) ++ [0] ++ r) (pre ++ (c :: t) ++ [0]).length
        toks := by
  have hp : (pre ++ (c :: t ++ d :: r))[pre.length]? = some c := by simp
  have hdrop : (pre ++ (c :: t ++ d :: r)).drop (pre.length + 1) = t ++ d :: r := by
    rw [← List.drop_drop, List.drop_left]
    rfl
  have htake : (pre ++ (c :: t ++ d :: r)).take (pre.length + 1) = pre ++ [c] := by
    rw [List.take_append, List.take_of_length_le (Nat.le_succ _), Nat.add_sub_cancel_left]
    rfl
  have hcall := (tokFrom_token hsep0 rest hp hc hc0 hdrop ht ht0).2 hlow hd
  rw [htake] at hcall
  have hbuf : pre ++ [c] ++ t ++ 0 :: r = pre ++ (c :: t) ++ [0] ++ r := by simp
  have hlen : pre.length + 1 + t.length + 1 = (pre ++ (c :: t) ++ [0]).length := by
    simp only [List.length_append, List.length_cons, List.length_nil]
    omega
  rw [hbuf, hlen] at hcall
  refine tokCalls_of_token ((inaStrTok_eq hsep hsep0 rest _ _).1.trans hcall) ?_
  -- the token is what stands before the NUL that was written
  have hct0 : 0 ∉ c :: t := fun h => (List.mem_cons.mp h).elim (fun h => hc0 h.symm) ht0
  rw [TokState.text, List.append_assoc, List.append_assoc, List.drop_left]
  exact takeWhile_cstr hct0 r

/-- A token that runs to the NUL: the next call reads behind it. -/
theorem not_callsFrom_open {pre u : List UInt8} {c : UInt8} (hc : Plain sep c) (hc0 : c ≠ 0)
    (hu : ∀ x ∈ u, Plain sep x) (hu0 : 0 ∉ u) (toks : List (List UInt8)) :
    ¬ CallsFrom (sep ++ 0 :: rest) (pre ++ (c :: u ++ [0])) pre.length ((c :: u) :: toks) := by
  rw [callsFrom_token hsep hsep0 rest hc hc0 hu hu0 (by decide) (Or.inr rfl)]
  refine not_callsFrom hsep hsep0 rest (tokFrom_behind hsep0 rest ?_) _
  rw [List.append_nil]

omit hsep hsep0 in
theorem maximalRuns_plain {u : List UInt8} (hne : u ≠ []) (hu : ∀ x ∈ u, Plain sep x) :
    maximalRuns sep u = [u] := by
  rw [maximalRuns, List.splitOnP_eq_singleton fun c hc => decide_eq_false (hu c hc).2]
  simp [hne]

omit hsep hsep0 in
theorem plain_split (sep u : List UInt8) : (∀ c ∈ u, Plain sep c) ∨
    ∃ t d r, u = t ++ d :: r ∧ (∀ c ∈ t, Plain sep c) ∧ ¬ Plain sep d := by
  induction u with
  | nil => exact .inl fun _ h => absurd h List.not_mem_nil
  | cons c u ih =>
    by_cases hc : Plain sep c
    · rcases ih with hall | ⟨t, d, r, rfl, ht, hd⟩
      · exact .inl (List.forall_mem_cons.mpr ⟨hc, hall⟩)
      · exact .inr ⟨c :: t, d, r, rfl, List.forall_mem_cons.mpr ⟨hc, ht⟩, hd⟩
    · exact .inr ⟨[], c, u, rfl, fun _ h => absurd h List.not_mem_nil, hc⟩

/-- A separator is skipped. -/
theorem callsFrom_sep {pre u : List UInt8} {c : UInt8} (hlow : c.toNat < 128) (hc : c ∈ sep)
    (toks : List (List UInt8)) :
    CallsFrom (sep ++ 0 :: rest) (pre ++ (c :: u ++ [0])) pre.length toks ↔
      CallsFrom (sep ++ 0 :: rest) (pre ++ [c] ++ (u ++ [0])) (pre ++ [c]).length toks := by
  have hp : (pre ++ (c :: u ++ [0]))[pre.length]? = some c := by simp
  rw [List.append_assoc, List.length_append, List.length_singleton]
  refine tokCalls_congr ?_
  rw [(inaStrTok_eq hsep hsep0 rest _ _).1, (inaStrTok_eq hsep hsep0 rest _ _).1]
  exact tokFrom_sep hsep0 rest hp hlow hc

/-- A token that meets a byte above 0x7F: the call has no result. -/
theorem not_callsFrom_high {pre t r : List UInt8} {c d : UInt8} (hc : Plain sep c) (hc0 : c ≠ 0)
    (ht : ∀ x ∈ t, Plain sep x) (ht0 : 0 ∉ t) (hd : ¬ d.toNat < 128) (toks : List (List UInt8)) :
    ¬ CallsFrom (sep ++ 0 :: rest) (pre ++ (c :: (t ++ d :: r) ++ [0])) pre.length toks := by
  have hp : (pre ++ (c :: (t ++ d :: r) ++ [0]))[pre.length]? = some c := by simp
  have hdrop : (pre ++ (c :: (t ++ d :: r) ++ [0])).drop (pre.length + 1) = t ++ d :: (r ++ [0]) := by
    simp
  exact not_callsFrom hsep hsep0 rest ((tokFrom_token hsep0 rest hp hc hc0 hdrop ht ht0).1 hd) _

omit hsep hsep0 in
theorem not_readable_plain {u : List UInt8} (hne : u ≠ []) (hu : ∀ x ∈ u, Plain sep x) :
    ¬ Readable sep u := by
  intro h
  have hlast := List.getLast?_eq_some_getLast hne
  exact (hu _ (List.mem_of_getLast? hlast)).2 (h.last _ hlast)

/-- A token that a separator ends, and what stands behind that. -/
theorem callsFrom_run {pre t r : List UInt8} {c d : UInt8} (hc : Plain sep c) (hc0 : c ≠ 0)
    (ht : ∀ x ∈ t, Plain sep x) (ht0 : 0 ∉ t) (hlow : d.toNat < 128) (hd : d ∈ sep)
    (ih : ∀ pre, CallsFrom (sep ++ 0 :: rest) (pre ++ (r ++ [0])) pre.length (maximalRuns sep r) ↔
      Readable sep r) :
    CallsFrom (sep ++ 0 :: rest) (pre ++ (c :: (t ++ d :: r) ++ [0])) pre.length
      (maximalRuns sep (c :: (t ++ d :: r))) ↔ Readable sep (c :: (t ++ d :: r)) := by
  have hct : ∀ x ∈ c :: t, Plain sep x := List.forall_mem_cons.mpr ⟨hc, ht⟩
  have hrun := maximalRuns_run (List.cons_ne_nil c t) (fun x hx => (hct x hx).2) hd r
  rw [← List.cons_append, hrun, List.append_assoc, List.cons_append (a := d),
    callsFrom_token hsep hsep0 rest hc hc0 ht ht0 hlow (Or.inl hd), ih]
  exact (readable_append_sep (fun x hx => (hct x hx).1) hlow hd).symm

/-- A token, from its first byte on: it runs to the end, or up to a separator or a byte that is no
    index. -/
theorem callsFrom_plain {pre u : List UInt8} {c : UInt8} (hc : Plain sep c) (hc0 : c ≠ 0)
    (hu0 : 0 ∉ u)
    (ih : ∀ pre r, r.length ≤ u.length → 0 ∉ r →
      (CallsFrom (sep ++ 0 :: rest) (pre ++ (r ++ [0])) pre.length (maximalRuns sep r) ↔
        Readable sep r)) :
    CallsFrom (sep ++ 0 :: rest) (pre ++ (c :: u ++ [0])) pre.length (maximalRuns sep (c :: u)) ↔
      Readable sep (c :: u) := by
  rcases plain_split sep u with hall | ⟨t, d, r, rfl, ht, hd⟩
  · have hcu : ∀ x ∈ c :: u, Plain sep x := List.forall_mem_cons.mpr ⟨hc, hall⟩
    rw [maximalRuns_plain (List.cons_ne_nil c u) hcu]
    exact iff_of_false (not_callsFrom_open hsep hsep0 rest hc hc0 hall hu0 _)
      (not_readable_plain (List.cons_ne_nil c u) hcu)
  · have ht0 : 0 ∉ t := fun h => hu0 (List.mem_append_left _ h)
    by_cases hlow : d.toNat < 128
    · have hdsep : d ∈ sep := by
        by_contra hns
        exact hd ⟨hlow, hns⟩
      have hr0 : 0 ∉ r := fun h => hu0 (List.mem_append_right _ (List.mem_cons_of_mem _ h))
      refine callsFrom_run hsep hsep0 rest hc hc0 ht ht0 hlow hdsep fun pre => ih pre r ?_ hr0
      rw [List.length_append, List.length_cons]
      omega
    · refine iff_of_false (not_callsFrom_high hsep hsep0 rest hc hc0 ht ht0 hlow _)
        fun h => hlow (h.low d ?_)
      exact List.mem_cons_of_mem _ (List.mem_append_right _ List.mem_cons_self)

/-- **From any place on**, by the length of what is left. -/
theorem callsFrom_iff (n : Nat) : ∀ (pre u : List UInt8), u.length ≤ n → 0 ∉ u →
    (CallsFrom (sep ++ 0 :: rest) (pre ++ (u ++ [0])) pre.length (maximalRuns sep u) ↔
      Readable sep u) := by
  induction n with
  | zero =>
    intro pre u hu hu0
    obtain rfl := List.length_eq_zero_iff.mp (Nat.le_zero.mp hu)
    have hnul : (pre ++ ([] ++ [0]))[pre.length]? = some (0 : UInt8) := by simp
    have hcall := (inaStrTok_eq hsep hsep0 rest _ _).1.trans (tokFrom_nul hsep0 rest hnul)
    exact ⟨fun _ => readable_nil sep, fun _ => .done hcall⟩
  | succ n ih =>
    intro pre u hu hu0
    cases u with
    | nil => exact ih pre [] (Nat.zero_le n) hu0
    | cons c u =>
      obtain ⟨hc0, hu0'⟩ := not_or.mp (List.mem_cons.not.mp hu0)
      have hle : u.length ≤ n := Nat.le_of_succ_le_succ hu
      by_cases hlow : c.toNat < 128
      · by_cases hc : c ∈ sep
        · -- a separator: the calls go on behind it
          rw [maximalRuns_sep hc, callsFrom_sep hsep hsep0 rest hlow hc, ih (pre ++ [c]) u hle hu0']
          exact (readable_append_sep (t := []) (fun _ h => absurd h List.not_mem_nil) hlow hc).symm
        · exact callsFrom_plain hsep hsep0 rest ⟨hlow, hc⟩ (Ne.symm hc0) hu0'
            fun pre r hr => ih pre r (Nat.le_trans hr hle)
      · have hp : (pre ++ (c :: u ++ [0]))[pre.length]? = some c := by simp
        refine iff_of_false (not_callsFrom hsep hsep0 rest (tokFrom_high hsep0 rest hp hlow) _) ?_
        intro h
        exact hlow (h.low c List.mem_cons_self)

/-- **Tokens.** For every NUL-terminated buffer and every non-empty set of separators, whatever
    stands behind the NUL of the set and in `*next`: calling `ina_str_tok` with the buffer and then
    with `NULL` until it returns `NULL` gives the maximal runs of other characters, in order, with no
    access outside the buffer or the map, if and only if every byte of the buffer is below 0x80
    and the last one, if there is one, is a separator. -/
theorem tok_iff_ends_with_separator {s : List UInt8} (hs0 : 0 ∉ s) (next : Option Nat) :
    TokCalls (some (sep ++ 0 :: rest)) (some 0) ⟨s ++ [0], next⟩ (maximalRuns sep s) ↔
      Readable sep s := by
  rw [← callsFrom_iff hsep hsep0 rest s.length [] s (Nat.le_refl _) hs0]
  refine tokCalls_congr ?_
  exact ((inaStrTok_eq hsep hsep0 rest _ _).2 next).trans (inaStrTok_eq hsep hsep0 rest _ _).1.symm

end Calls

/-- `" ab c "` at `" "`. -/
theorem tok_iff_ends_with_separator_blanks :
    TokCalls (some [32, 0]) (some 0) ⟨[32, 97, 98, 32, 99, 32, 0], none⟩ [[97, 98], [99]] := by
  have hsep : (0 : UInt8) ∉ [32] := by decide
  have hs : (0 : UInt8) ∉ [32, 97, 98, 32, 99, 32] := by decide
  refine (tok_iff_ends_with_separator (List.cons_ne_nil _ _) hsep [] hs none).mpr ⟨by simp, ?_⟩
  intro c hc
  cases hc
  decide

/-- `"a"` at `" "`: after the token the second call reads behind the buffer. `"\x80 "` at `" "`: the
    first byte gives the index -4. -/
theorem tok_faults :
    (∃ st, inaStrTok (some [32, 0]) (some 0) ⟨[97, 0], none⟩ = .ok (some 0, st) ∧
      st.text 0 = [97] ∧ inaStrTok (some [32, 0]) none st = .error .buffer) ∧
    inaStrTok (some [32, 0]) (some 0) ⟨[128, 32, 0], none⟩ = .error .tokmap ∧
    (∀ toks, ¬ TokCalls (some [32, 0]) (some 0) ⟨[97, 0], none⟩ toks) ∧
    ∀ toks, ¬ TokCalls (some [32, 0]) (some 0) ⟨[128, 32, 0], none⟩ toks := by
  have hfirst : inaStrTok (some [32, 0]) (some 0) ⟨[97, 0], none⟩ =
      .ok (some 0, ⟨[97, 0], some 2⟩) := by decide
  have hsecond : inaStrTok (some [32, 0]) none ⟨[97, 0], some 2⟩ = .error .buffer := by decide
  have hhigh : inaStrTok (some [32, 0]) (some 0) ⟨[128, 32, 0], none⟩ = .error .tokmap := by decide
  refine ⟨⟨_, hfirst, by decide, hsecond⟩, hhigh, fun toks hcalls => ?_, fun toks =>
    not_tokCalls_of_error hhigh⟩
  cases hcalls with
  | done hdone => rw [hfirst] at hdone; cases hdone
  | more hmore hrest =>
    cases hfirst.symm.trans hmore
    exact not_tokCalls_of_error hsecond hrest

end Str
end Inac
