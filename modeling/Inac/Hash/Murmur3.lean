import Mathlib.Tactic.IntervalCases
import Inac.Lib.Bytes
import Inac.Lib.Mix
import Inac.Lib.Stream

/-!
# The murmur3 hash (`src/hash.c`)

`__ina_hash_PMurHash32_Process` may be given the data in pieces. Between two calls it keeps the
bytes that do not fill a word at the upper end of `carry`, and their number in the two lowest bits.
Bytes that were there before are shifted out of the way, so a carry can be written in many ways;
`Kept` says what counts.

However the data is cut, what comes out is `murmur3` of the whole (`murmur3_pieces`). The length is
an `int` all the same: of two gigabytes or more, in one piece, nothing is hashed but the length
(`murmur3_by_length`).
-/

namespace Inac
namespace Hash

open Lib
open Function

/-! ## The code

The state between two calls is the hash so far and the carry. Reads behind the data have no result.
-/

/-- `__INA_HASH_ROTL32`. -/
def inaHashRotl32 (x : BitVec 32) (r : Nat) : BitVec 32 := (x <<< r) ||| (x >>> (32 - r))

def murmurC1 : BitVec 32 := 0xcc9e2d51#32
def murmurC2 : BitVec 32 := 0x1b873593#32

/-- What `__INA_HASH_MURMUR_DOBLOCK` makes of `k1`. -/
def murmurScramble (k1 : BitVec 32) : BitVec 32 :=
  let k1 := k1 * murmurC1
  let k1 := inaHashRotl32 k1 15
  k1 * murmurC2

/-- `__INA_HASH_MURMUR_DOBLOCK`: `h1` and `k1`, both of which it changes. -/
def murmurDoblock (h1 k1 : BitVec 32) : BitVec 32 × BitVec 32 :=
  let k1 := murmurScramble k1
  let h1 := h1 ^^^ k1
  let h1 := inaHashRotl32 h1 13
  (h1 * 5 + 0xe6546b64, k1)

/-- `h1`, the carry `c` and the number `n` of bytes in it. -/
structure Murmur where
  h1 : BitVec 32
  c : BitVec 32
  n : Nat
  deriving DecidableEq, Repr

/-- One round of `__INA_HASH_MURMUR_DOBYTES`. -/
def murmurDobyte (s : Murmur) (b : UInt8) : Murmur :=
  let c := (s.c >>> 8) ||| (b.toBitVec.setWidth 32 <<< 24)
  if s.n + 1 = 4 then
    let (h1, c) := murmurDoblock s.h1 c
    ⟨h1, c, 0⟩
  else ⟨s.h1, c, s.n + 1⟩

/-- `__INA_HASH_MURMUR_READ_UINT32` of the four bytes at a place. -/
def murmurReadUint32 (w : List UInt8) : BitVec 32 := BitVec.ofNat 32 (wordOf w)

/-- One round of the loop over the words. -/
def murmurStep (h1 : BitVec 32) (w : List UInt8) : BitVec 32 :=
  (murmurDoblock h1 (murmurReadUint32 w)).1

/-- The second half of `__ina_hash_PMurHash32_Process`: the words, the bytes behind them, and the
    new `*ph1` and `*pcarry`. There is no result where it reads on behind the data, as a loop does that
    counts down from a negative number. -/
def murmurWords (s : Murmur) (ptr : List UInt8) (len : Int) : Option (BitVec 32 × BitVec 32) :=
  let words := len.tdiv 4 * 4
  let h1 := (blocks 4 murmurStep s.h1 (ptr.take words.toNat)).1
  let ptr := ptr.drop words.toNat
  let len := len - words
  if len < 0 then none
  else
    let s := (ptr.take len.toNat).foldl murmurDobyte { s with h1 := h1 }
    some (s.h1, (s.c &&& ~~~0xff#32) ||| BitVec.ofNat 32 s.n)

def inaHashPMurHash32Process (h1 carry : BitVec 32) (key : List UInt8) (len : Int) :
    Option (BitVec 32 × BitVec 32) :=
  let n := (carry &&& 3).toNat
  let i := (4 - n) &&& 3
  let s : Murmur := ⟨h1, carry, n⟩
  if i ≠ 0 ∧ (i : Int) ≤ len then
    murmurWords ((key.take i).foldl murmurDobyte s) (key.drop i) (len - i)
  else murmurWords s key len

/-- `fmix` of `__ina_hash_PMurHash32_Result`. -/
def murmurFmix (h : BitVec 32) : BitVec 32 :=
  let h := h ^^^ (h >>> 16)
  let h := h * 0x85ebca6b
  let h := h ^^^ (h >>> 13)
  let h := h * 0xc2b2ae35
  h ^^^ (h >>> 16)

def inaHashPMurHash32Result (h carry totalLength : BitVec 32) : BitVec 32 :=
  let n := (carry &&& 3).toNat
  let h := if n ≠ 0 then h ^^^ murmurScramble (carry >>> ((4 - n) * 8)) else h
  murmurFmix (h ^^^ totalLength)

/-- The `uint32_t` length becomes the `int` of `__ina_hash_PMurHash32_Process`. -/
def inaHashPMurHash32 (seed : BitVec 32) (key : List UInt8) (len : BitVec 32) :
    Option (BitVec 32) := do
  let (h1, carry) ← inaHashPMurHash32Process seed 0 key len.toInt
  return inaHashPMurHash32Result h1 carry len

def inaHash32Murmur3 (hash : BitVec 32) (data : List UInt8) : Option (BitVec 32) :=
  inaHashPMurHash32 hash data (BitVec.ofNat 32 data.length)

/-! ## What is hashed

Words of four bytes, the bytes that are left, and the length. -/

/-- The end of the hash: the bytes that do not fill a word, the length, and `fmix`. -/
def murmurFinish (h : BitVec 32) (rest : List UInt8) (totalLength : BitVec 32) : BitVec 32 :=
  murmurFmix <|
    (if rest = [] then h else h ^^^ murmurScramble (murmurReadUint32 rest)) ^^^ totalLength

/-- The hash of data: the whole words, then the rest. -/
def murmur3 (seed : BitVec 32) (data : List UInt8) : BitVec 32 :=
  let (h, rest) := blocks 4 murmurStep seed data
  murmurFinish h rest (BitVec.ofNat 32 data.length)

/-! ## The carry

Bytes come in at the top and move down. When there are four of them the word is read off the whole
carry. -/

variable {s : Murmur} {h h1 carry : BitVec 32} {rest key : List UInt8}

/-- The state has taken in words up to `h`, and `rest` is at the upper end of the carry. -/
structure Holds (s : Murmur) (h : BitVec 32) (rest : List UInt8) : Prop where
  h1_eq : s.h1 = h
  n_eq : s.n = rest.length
  short : rest.length < 4
  c_eq : s.c.toNat / 2 ^ (8 * (4 - rest.length)) = wordOf rest

theorem wordOf_append (xs ys : List UInt8) :
    wordOf (xs ++ ys) = wordOf xs + 2 ^ (8 * xs.length) * wordOf ys := by
  induction xs with
  | nil => simp only [List.nil_append, wordOf, List.length_nil, Nat.mul_zero, Nat.pow_zero,
      Nat.one_mul, Nat.zero_add]
  | cons x xs ih =>
    rw [List.cons_append, wordOf, wordOf, ih, List.length_cons, Nat.mul_add_one,
      Nat.add_comm (8 * _),
      Nat.pow_add, Nat.mul_add, Nat.mul_assoc, Nat.add_assoc]

/-- What a byte makes of the carry. -/
theorem carry_toNat (c : BitVec 32) (b : UInt8) :
    ((c >>> 8) ||| (b.toBitVec.setWidth 32 <<< 24)).toNat = c.toNat / 2 ^ 8 + 2 ^ 24 * b.toNat := by
  have hb : b.toNat < 2 ^ 8 := b.toNat_lt
  have hc : c.toNat < 2 ^ 32 := c.isLt
  have hlow : c.toNat / 2 ^ 8 < 2 ^ 24 := by omega
  rw [BitVec.toNat_or, BitVec.toNat_ushiftRight, BitVec.toNat_shiftLeft, BitVec.toNat_setWidth,
    UInt8.toNat_toBitVec, Nat.shiftRight_eq_div_pow, Nat.shiftLeft_eq, Nat.or_comm,
    Nat.mod_eq_of_lt (show b.toNat < 2 ^ 32 by omega),
    Nat.mod_eq_of_lt (show b.toNat * 2 ^ 24 < 2 ^ 32 by omega), Nat.mul_comm,
    ← Nat.two_pow_add_eq_or_of_lt hlow, Nat.add_comm]

/-- **One byte.** -/
theorem Holds.dobyte (hs : Holds s h rest) (b : UInt8) :
    Holds (murmurDobyte s b) (blocks 4 murmurStep h (rest ++ [b])).1
      (blocks 4 murmurStep h (rest ++ [b])).2 := by
  have hlen : (rest ++ [b]).length = rest.length + 1 := by rw [List.length_append]; rfl
  have hc := carry_toNat s.c b
  have hword : wordOf (rest ++ [b]) = wordOf rest + 2 ^ (8 * rest.length) * b.toNat := by
    rw [wordOf_append, wordOf, wordOf, Nat.mul_zero, Nat.add_zero]
  have hkept := hs.c_eq
  have hshort := hs.short
  simp only [murmurDobyte, hs.n_eq, hs.h1_eq]
  generalize (s.c >>> 8) ||| (b.toBitVec.setWidth 32 <<< 24) = c at hc ⊢
  -- The word is full and is mixed in, or the byte is kept.
  by_cases hfull : rest.length + 1 = 4
  · rw [if_pos hfull, blocks_one _ (hlen.trans hfull)]
    have hread : c = murmurReadUint32 (rest ++ [b]) := by
      apply BitVec.eq_of_toNat_eq
      have hlt := wordOf_lt (rest ++ [b])
      rw [hlen, hfull] at hlt
      rw [murmurReadUint32, BitVec.toNat_ofNat, Nat.mod_eq_of_lt hlt, hc, hword, ← hkept]
      rw [show rest.length = 3 by omega]
    exact ⟨by rw [murmurStep, hread], rfl, Nat.zero_lt_succ 3,
      Nat.div_eq_of_lt (murmurDoblock h c).2.isLt⟩
  · rw [if_neg hfull, blocks_short _ (show (rest ++ [b]).length < 4 by omega)]
    show Holds _ h (rest ++ [b])
    refine ⟨rfl, hlen.symm, by omega, ?_⟩
    have hn : rest.length < 3 := by omega
    simp only [hlen, hword, hc, ← hkept]
    generalize rest.length = n at hn
    interval_cases n <;> omega

/-- **Some bytes.** -/
theorem Holds.dobytes (hs : Holds s h rest) (bs : List UInt8) :
    Holds (bs.foldl murmurDobyte s) (blocks 4 murmurStep h (rest ++ bs)).1
      (blocks 4 murmurStep h (rest ++ bs)).2 := by
  induction bs generalizing s h rest with
  | nil =>
    rw [List.append_nil, blocks_short _ hs.short]
    exact hs
  | cons b bs ih =>
    have hpieces := blocks_pieces (n := 4) murmurStep h (rest ++ [b]) bs
    rw [List.append_assoc, List.singleton_append] at hpieces
    rw [List.foldl_cons, ← hpieces]
    exact ih (hs.dobyte b)

/-- Between two calls. -/
def Kept (h1 carry h : BitVec 32) (rest : List UInt8) : Prop :=
  Holds ⟨h1, carry, (carry &&& 3).toNat⟩ h rest

theorem and_three_toNat (c : BitVec 32) : (c &&& 3).toNat = c.toNat % 4 := by
  rw [BitVec.toNat_and]
  exact Nat.and_two_pow_sub_one_eq_mod _ 2

theorem kept_zero (h : BitVec 32) : Kept h 0 h [] :=
  ⟨rfl, rfl, by decide, Nat.zero_div _⟩

theorem and_not_toNat (c : BitVec 32) : (c &&& ~~~0xff#32).toNat = 2 ^ 8 * (c.toNat / 2 ^ 8) := by
  have hsplit : c &&& ~~~0xff#32 = (c >>> 8) <<< 8 := by
    refine BitVec.eq_of_getLsbD_eq fun i hi => ?_
    have hmask : (0xff#32).getLsbD i = decide (i < 8) := by
      rw [BitVec.getLsbD_ofNat, decide_eq_true hi, Bool.true_and]
      exact Nat.testBit_two_pow_sub_one 8 i
    rw [BitVec.getLsbD_and, BitVec.getLsbD_not, hmask, BitVec.getLsbD_shiftLeft,
      BitVec.getLsbD_ushiftRight, decide_eq_true hi, Bool.true_and]
    rcases Nat.lt_or_ge i 8 with hlow | hhigh
    · rw [decide_eq_true hlow, Bool.not_true, Bool.and_false, Bool.false_and]
    · rw [decide_eq_false (Nat.not_lt.mpr hhigh), Bool.not_false, Bool.and_true, Bool.true_and,
        Nat.add_sub_cancel' hhigh]
  have hc : c.toNat < 2 ^ 32 := c.isLt
  rw [hsplit, BitVec.toNat_shiftLeft, BitVec.toNat_ushiftRight, Nat.shiftRight_eq_div_pow,
    Nat.shiftLeft_eq]
  omega

/-- The carry that is stored holds the same bytes. -/
theorem Holds.kept (hs : Holds s h rest) :
    Kept s.h1 ((s.c &&& ~~~0xff#32) ||| BitVec.ofNat 32 s.n) h rest := by
  have hshort := hs.short
  have hc : ((s.c &&& ~~~0xff#32) ||| BitVec.ofNat 32 s.n).toNat =
      2 ^ 8 * (s.c.toNat / 2 ^ 8) + rest.length := by
    rw [hs.n_eq, BitVec.toNat_or, and_not_toNat, BitVec.toNat_ofNat,
      Nat.mod_eq_of_lt (show rest.length < 2 ^ 32 by omega),
      ← Nat.two_pow_add_eq_or_of_lt (show rest.length < 2 ^ 8 by omega)]
  refine ⟨hs.h1_eq, ?_, hshort, ?_⟩
  · show (((s.c &&& ~~~0xff#32) ||| BitVec.ofNat 32 s.n) &&& 3).toNat = rest.length
    rw [and_three_toNat, hc]
    omega
  · have hkept := hs.c_eq
    simp only [hc]
    generalize wordOf rest = word at hkept ⊢
    generalize rest.length = n at hshort hkept ⊢
    interval_cases n <;> omega

/-- **The words and the bytes behind them**, when no word is begun or none is filled. -/
theorem Holds.words (hs : Holds s h rest) (ptr : List UInt8)
    (hside : rest = [] ∨ rest.length + ptr.length < 4) :
    ∃ h1' carry', murmurWords s ptr ptr.length = some (h1', carry') ∧
      Kept h1' carry' (blocks 4 murmurStep h (rest ++ ptr)).1
        (blocks 4 murmurStep h (rest ++ ptr)).2 := by
  obtain ⟨words, hwords⟩ : ∃ words, words = ptr.length / 4 * 4 := ⟨_, rfl⟩
  have hle : words ≤ ptr.length := hwords ▸ Nat.div_mul_le_self ..
  -- The number of bytes in whole words, in the division of C.
  have hint : (ptr.length : Int).tdiv 4 * 4 = words := by
    rw [hwords, Int.tdiv_eq_ediv_of_nonneg (Int.natCast_nonneg _)]
    rfl
  have hrest : (ptr.drop words).take ((ptr.length : Int) - words).toNat = ptr.drop words := by
    rw [← Int.ofNat_sub hle, Int.toNat_natCast, List.take_of_length_le]
    rw [List.length_drop]
  simp only [murmurWords, hint, Int.toNat_natCast, hrest]
  rw [if_neg (by omega)]
  refine ⟨_, _, rfl, Holds.kept ?_⟩
  rcases hside with rfl | hshort
  · have hlen : (ptr.take words).length = words := List.length_take_of_le hle
    have hnil : (blocks 4 murmurStep s.h1 (ptr.take words)).2 = [] := by
      rw [← List.length_eq_zero_iff, blocks_rest, hlen, hwords, Nat.mul_mod_left]
    have hpieces := blocks_pieces (n := 4) murmurStep s.h1 (ptr.take words) (ptr.drop words)
    rw [hnil, List.take_append_drop, List.nil_append] at hpieces
    have hdone : Holds { s with h1 := (blocks 4 murmurStep s.h1 (ptr.take words)).1 }
        (blocks 4 murmurStep s.h1 (ptr.take words)).1 [] := ⟨rfl, hs.n_eq, hs.short, hs.c_eq⟩
    have hbytes := hdone.dobytes (ptr.drop words)
    rw [List.nil_append, hpieces] at hbytes
    rw [List.nil_append, ← hs.h1_eq]
    exact hbytes
  · -- Words are only read if nothing was kept, so here all bytes go one by one.
    have hnone : words = 0 := by omega
    rw [hnone, List.take_zero, List.drop_zero, blocks_short _ (show [].length < 4 by decide)]
    exact hs.dobytes ptr

/-- **A piece of the data.** -/
theorem Kept.process (hk : Kept h1 carry h rest) (key : List UInt8) :
    ∃ h1' carry', inaHashPMurHash32Process h1 carry key key.length = some (h1', carry') ∧
      Kept h1' carry' (blocks 4 murmurStep h (rest ++ key)).1
        (blocks 4 murmurStep h (rest ++ key)).2 := by
  have hn : (carry &&& 3).toNat = rest.length := hk.n_eq
  have hshort := hk.short
  have hi : (4 - rest.length) &&& 3 = (4 - rest.length) % 4 := Nat.and_two_pow_sub_one_eq_mod _ 2
  simp only [inaHashPMurHash32Process, hn, hi]
  rw [Kept, hn] at hk
  split
  case isTrue hfill =>
    -- the word that is begun is filled
    obtain ⟨i, hieq⟩ : ∃ i, i = (4 - rest.length) % 4 := ⟨_, rfl⟩
    rw [← hieq] at hfill ⊢
    have hle : i ≤ key.length := Int.ofNat_le.mp hfill.2
    have hfull : (rest ++ key.take i).length = 4 := by
      rw [List.length_append, List.length_take_of_le hle]
      omega
    have hs := hk.dobytes (key.take i)
    rw [blocks_one _ hfull] at hs
    have hwords := hs.words (key.drop i) (Or.inl rfl)
    rwa [List.nil_append, ← blocks_cons h _ hfull, List.append_assoc, List.take_append_drop,
      List.length_drop, Int.ofNat_sub hle] at hwords
  case isFalse hnot =>
    refine hk.words key ?_
    rw [← List.length_eq_zero_iff]
    omega

theorem Kept.result (hk : Kept h1 carry h rest) (totalLength : BitVec 32) :
    inaHashPMurHash32Result h1 carry totalLength = murmurFinish h rest totalLength := by
  have hn : (carry &&& 3).toNat = rest.length := hk.n_eq
  have hh : h1 = h := hk.h1_eq
  have hword : carry >>> ((4 - rest.length) * 8) = murmurReadUint32 rest := by
    apply BitVec.eq_of_toNat_eq
    have hkept : carry.toNat / 2 ^ (8 * (4 - rest.length)) = wordOf rest := hk.c_eq
    have hshort : rest.length < 4 := hk.short
    have hlt : wordOf rest < 2 ^ 32 :=
      Nat.lt_of_lt_of_le (wordOf_lt rest) (Nat.pow_le_pow_right (by decide) (by omega))
    rw [murmurReadUint32, BitVec.toNat_ofNat, Nat.mod_eq_of_lt hlt, BitVec.toNat_ushiftRight,
      Nat.shiftRight_eq_div_pow, Nat.mul_comm, hkept]
  simp only [inaHashPMurHash32Result, hn, hword, hh, murmurFinish, ne_eq, List.length_eq_zero_iff,
    ite_not]

/-! ## Pieces

A piece first fills up the carry, then goes by words, and leaves the rest in the carry. So after
each the state stands for all that has come. -/

/-- A caller that has the data in pieces. -/
def murmurPieces (seed : BitVec 32) (pieces : List (List UInt8)) : Option (BitVec 32) := do
  let (h1, carry) ← pieces.foldlM (fun s piece =>
    inaHashPMurHash32Process s.1 s.2 piece (BitVec.ofNat 32 piece.length).toInt) (seed, 0)
  return inaHashPMurHash32Result h1 carry (BitVec.ofNat 32 pieces.flatten.length)

/-- A length that fits into an `int`. -/
theorem int_of_length {n : Nat} (hn : n < 2 ^ 31) : (BitVec.ofNat 32 n).toInt = n := by
  have hnat : (BitVec.ofNat 32 n).toNat = n := by
    rw [BitVec.toNat_ofNat, Nat.mod_eq_of_lt (by omega)]
  rw [BitVec.toInt_eq_toNat_of_lt (by omega), hnat]

theorem Kept.pieces (hk : Kept h1 carry h rest) {pieces : List (List UInt8)}
    (hlen : ∀ piece ∈ pieces, piece.length < 2 ^ 31) :
    ∃ h1' carry', pieces.foldlM (fun s piece =>
        inaHashPMurHash32Process s.1 s.2 piece (BitVec.ofNat 32 piece.length).toInt) (h1, carry) =
        some (h1', carry') ∧
      Kept h1' carry' (blocks 4 murmurStep h (rest ++ pieces.flatten)).1
        (blocks 4 murmurStep h (rest ++ pieces.flatten)).2 := by
  induction pieces generalizing h1 carry h rest with
  | nil =>
    rw [List.flatten_nil, List.append_nil, blocks_short _ hk.short]
    exact ⟨h1, carry, rfl, hk⟩
  | cons piece pieces ih =>
    obtain ⟨h1₁, carry₁, hprocess, hk₁⟩ := hk.process piece
    obtain ⟨h1₂, carry₂, hrest, hk₂⟩ := ih hk₁ fun q hq => hlen q (List.mem_cons_of_mem _ hq)
    rw [blocks_pieces, List.append_assoc, ← List.flatten_cons] at hk₂
    refine ⟨h1₂, carry₂, ?_, hk₂⟩
    rw [List.foldlM_cons, int_of_length (hlen piece (List.mem_cons_self ..)), hprocess]
    exact hrest

/-- **Pieces of the data** give the hash of the whole. -/
theorem murmur3_pieces (seed : BitVec 32) {pieces : List (List UInt8)}
    (hlen : ∀ piece ∈ pieces, piece.length < 2 ^ 31) :
    murmurPieces seed pieces = some (murmur3 seed pieces.flatten) := by
  obtain ⟨h1, carry, hfold, hk⟩ := (kept_zero seed).pieces hlen
  rw [List.nil_append] at hk
  rw [murmurPieces, hfold, Option.bind_eq_bind, Option.bind_some]
  exact congrArg some (hk.result _)

theorem murmur3_pieces_four :
    murmurPieces 7 [[0x61, 0x62], [], [0x63, 0x64, 0x65, 0x66, 0x67], [0x68, 0x69]] =
      some (murmur3 7 [0x61, 0x62, 0x63, 0x64, 0x65, 0x66, 0x67, 0x68, 0x69]) :=
  murmur3_pieces 7 (by decide)

/-- With a negative length no word is read. The loop over the bytes then has nothing to count down
    from, or it does not come to an end. -/
theorem process_negative (h1 : BitVec 32) (key : List UInt8) {len : Int} (hneg : len < 0) :
    inaHashPMurHash32Process h1 0 key len = if len.tmod 4 = 0 then some (h1, 0) else none := by
  have hi : ¬ ((4 - (0 &&& 3 : BitVec 32).toNat) &&& 3 ≠ 0 ∧
      (((4 - (0 &&& 3 : BitVec 32).toNat) &&& 3 : Nat) : Int) ≤ len) := fun h => h.1 (by decide)
  obtain ⟨m, rfl⟩ : ∃ m : Nat, len = -(m : Int) := ⟨len.natAbs, by omega⟩
  have hdiv : (-(m : Int)).tdiv 4 = -((m / 4 : Nat) : Int) := by
    rw [Int.neg_tdiv, Int.tdiv_eq_ediv_of_nonneg (Int.natCast_nonneg _)]
    rfl
  have hmod : (-(m : Int)).tmod 4 = -((m % 4 : Nat) : Int) := by
    rw [Int.neg_tmod, Int.tmod_eq_emod_of_nonneg (Int.natCast_nonneg _)]
    rfl
  have hwords : (-((m / 4 : Nat) : Int) * 4).toNat = 0 := by omega
  simp only [inaHashPMurHash32Process]
  rw [if_neg hi, murmurWords, hdiv, hmod]
  simp only [hwords, List.take_zero, List.drop_zero]
  rw [blocks_short _ (show ([] : List UInt8).length < 4 by decide)]
  by_cases hzero : m % 4 = 0
  · have hbytes : (-(m : Int) - -((m / 4 : Nat) : Int) * 4).toNat = 0 := by omega
    have hcarry : ((0 : BitVec 32) &&& ~~~0xff#32) |||
        BitVec.ofNat 32 ((0 : BitVec 32) &&& 3).toNat = 0 := by decide
    rw [if_neg (by omega), if_pos (by omega), hbytes, List.take_zero, List.foldl_nil]
    exact congrArg (fun c => some (h1, c)) hcarry
  · rw [if_pos (by omega), if_neg (by omega)]

/-- Data of less than two gigabytes, in one piece. -/
theorem inaHash32Murmur3_eq (hash : BitVec 32) {data : List UInt8} (hshort : data.length < 2 ^ 31) :
    inaHash32Murmur3 hash data = some (murmur3 hash data) := by
  obtain ⟨h1, carry, hprocess, hk⟩ := (kept_zero hash).process data
  rw [List.nil_append] at hk
  rw [inaHash32Murmur3, inaHashPMurHash32, int_of_length hshort, hprocess, Option.bind_eq_bind,
    Option.bind_some]
  exact congrArg some (hk.result _)

/-- **What the `int` does.** Data of less than two gigabytes is hashed. Of two to four gigabytes
    nothing is hashed but the length, which has to be a multiple of four: if it is not, the
    function reads on behind the data. -/
theorem murmur3_by_length (hash : BitVec 32) {data : List UInt8} (hfit : data.length < 2 ^ 32) :
    inaHash32Murmur3 hash data =
      if data.length < 2 ^ 31 then some (murmur3 hash data)
      else if data.length % 4 = 0 then
        some (murmurFinish hash [] (BitVec.ofNat 32 data.length))
      else none := by
  split
  case isTrue hshort => exact inaHash32Murmur3_eq hash hshort
  case isFalse hlong =>
    have hint : (BitVec.ofNat 32 data.length).toInt = (data.length : Int) - 2 ^ 32 := by
      have hnat : (BitVec.ofNat 32 data.length).toNat = data.length := by
        rw [BitVec.toNat_ofNat, Nat.mod_eq_of_lt hfit]
      rw [BitVec.toInt_eq_toNat_cond, if_neg (by omega), hnat]
      rfl
    have hmod : ((data.length : Int) - 2 ^ 32).tmod 4 = 0 ↔ data.length % 4 = 0 := by
      rw [← Int.dvd_iff_tmod_eq_zero]
      omega
    rw [inaHash32Murmur3, inaHashPMurHash32, hint, process_negative hash data (by omega),
      if_congr hmod rfl rfl]
    split
    · rw [Option.bind_eq_bind, Option.bind_some]
      exact congrArg some ((kept_zero hash).result _)
    · rfl

theorem murmur3_by_length_two_gigabytes :
    inaHash32Murmur3 7 (List.replicate (2 ^ 31) 0x61) =
      some (murmurFinish 7 [] (BitVec.ofNat 32 (2 ^ 31))) := by
  have h := @murmur3_by_length 7 (List.replicate (2 ^ 31) 0x61)
    (by rw [List.length_replicate]; decide)
  rwa [List.length_replicate, if_neg (by decide), if_pos (by decide)] at h

/-! ## Data that is nearly the same

A word of data and a word of the hash are mixed without loss, so this is one of the hashes by
blocks. -/

theorem inaHashRotl32_injective {r : Nat} (hr : r < 32) :
    Injective fun x => inaHashRotl32 x r := rotl_injective hr

theorem murmurScramble_injective : Injective murmurScramble :=
  (mul_odd_injective (c := murmurC2) 0xdc39ac9 (by decide)).comp <|
    (inaHashRotl32_injective (r := 15) (by decide)).comp <|
    mul_odd_injective (c := murmurC1) 0x664f16a8 (by decide)

theorem murmurFmix_injective : Injective murmurFmix :=
  laid_mul_injective (i := 16) (j := 13) (k := 16) (by decide) (by decide) (by decide)
    (b := 0x85ebca6b#32) (c := 0xc2b2ae35#32) 0x42f5e535 0x6159571a (by decide) (by decide)

/-- What a word is mixed into the hash with loses nothing of either. -/
theorem murmurDoblock_inj {h h' k k' : BitVec 32} :
    (murmurDoblock h k).1 = (murmurDoblock h' k').1 ↔
      h ^^^ murmurScramble k = h' ^^^ murmurScramble k' := by
  have hmix : Injective fun x : BitVec 32 => inaHashRotl32 x 13 * 5 + 0xe6546b64 :=
    (add_left_injective _).comp (rotl_mul_injective (k := 13) (by decide) 2 (by decide))
  exact hmix.eq_iff

theorem murmurReadUint32_ne {w w' : List UInt8} (hlen : w.length ≤ 4) (h : OneApart w w') :
    murmurReadUint32 w ≠ murmurReadUint32 w' :=
  fun heq => h.ne ((ofNat_wordOf_inj h.length_eq (by omega)).mp heq)

theorem murmurStep_separates : Separates 4 (· ≠ ·) murmurStep where
  state _ hne heq := hne (BitVec.xor_left_inj _ |>.mp (murmurDoblock_inj.mp heq))
  block hlen h heq := murmurReadUint32_ne (Nat.le_of_eq hlen) h <|
    murmurScramble_injective (BitVec.xor_right_inj _ |>.mp (murmurDoblock_inj.mp heq))

theorem murmurFinish_apart {p q : BitVec 32 × List UInt8} (totalLength : BitVec 32)
    (hp : p.2.length < 4) (h : Parted (· ≠ ·) p q) :
    murmurFinish p.1 p.2 totalLength ≠ murmurFinish q.1 q.2 totalLength := by
  intro heq
  have hxor := BitVec.xor_left_inj _ |>.mp (murmurFmix_injective heq)
  rcases h with ⟨hne, hrest⟩ | ⟨hh, hone⟩
  · rw [hrest] at hxor
    split at hxor
    · exact hne hxor
    · exact hne (BitVec.xor_left_inj _ |>.mp hxor)
  · have hq : q.2 ≠ [] := fun hnil => hone.ne_nil <|
      List.length_eq_zero_iff.mp (hone.length_eq.trans (List.length_eq_zero_iff.mpr hnil))
    rw [if_neg hone.ne_nil, if_neg hq, hh] at hxor
    exact murmurReadUint32_ne (Nat.le_of_lt hp) hone
      (murmurScramble_injective (BitVec.xor_right_inj _ |>.mp hxor))

theorem murmur3_apart {p q : BitVec 32 × List UInt8} (h : Parted (· ≠ ·) p q) :
    murmur3 p.1 p.2 ≠ murmur3 q.1 q.2 := by
  rw [murmur3, murmur3, h.length_eq]
  exact murmurFinish_apart _ (blocks_rest_lt ..) (h.blocks murmurStep_separates)

/-- The function itself, as far as the length is an `int`. -/
theorem inaHash32Murmur3_keen : Keen (2 ^ 31) inaHash32Murmur3 :=
  keen_of_apart fun p q hshort h => by
    rw [inaHash32Murmur3_eq p.1 hshort, inaHash32Murmur3_eq q.1 (h.length_eq ▸ hshort)]
    exact fun heq => murmur3_apart h (Option.some.inj heq)

end Hash
end Inac
