import Mathlib.Data.Nat.Bitwise
import Inac.Hash.Murmur3
import Inac.Hash.Xxhash

/-!
# FNV in the way of Yoshimitsu (`src/hash.c`), and what the hashes by blocks lose

Three words of state take in the data in rounds of 24 bytes, eight bytes each. What is behind the
rounds is less than 24 bytes long, and the bits of its length say how it is cut: 16 bytes for two of
the words, then 8, 4, 2 and 1. Everything that is read is there (`yoshimitsu_reads`).

No word of state loses anything, and a byte goes to one of them only. So the hash of data that
differs in one byte differs, and the same can be said of the two other hashes that work by blocks
(`block_hashes_keen`).
-/

namespace Inac
namespace Hash

open Lib
open Function

/-! ## The code

A round reads six words of four bytes, two for each of the three words of state. The steps behind
the rounds are chosen by the bits of the length. -/

def yoshimitsuPrime : BitVec 32 := 709607  -- `PRIME`

/-- `n` bytes at `p + i`, for an `n` up to four. -/
def readLow (n : Nat) (p : List UInt8) (i : Nat) : BitVec 32 :=
  BitVec.ofNat 32 (wordOf ((p.drop i).take n))

/-- A word of state takes in two words. -/
def yoshimitsuTwo (h : BitVec 32) (p : List UInt8) (i : Nat) : BitVec 32 :=
  (h ^^^ (inaHashRotl32 (readLow 4 p i) 5 ^^^ readLow 4 p (i + 4))) * yoshimitsuPrime

/-- A word of state takes in `n` bytes. -/
def yoshimitsuOne (n : Nat) (h : BitVec 32) (p : List UInt8) (i : Nat) : BitVec 32 :=
  (h ^^^ readLow n p i) * yoshimitsuPrime

/-- One round of the loop, on `hash32A`, `hash32B` and `hash32C`. -/
def yoshimitsuRound (h : BitVec 32 × BitVec 32 × BitVec 32) (p : List UInt8) :
    BitVec 32 × BitVec 32 × BitVec 32 :=
  (yoshimitsuTwo h.1 p 0, yoshimitsuTwo h.2.1 p 8, yoshimitsuTwo h.2.2 p 16)

/-- `if (size & k)`: the next `k` bytes, which have to be there. -/
def yoshimitsuCase (k : Nat) (step : BitVec 32 × BitVec 32 → List UInt8 → BitVec 32 × BitVec 32)
    (size : Nat) (s : (BitVec 32 × BitVec 32) × List UInt8) :
    Option ((BitVec 32 × BitVec 32) × List UInt8) :=
  if size &&& k ≠ 0 then
    if k ≤ s.2.length then some (step s.1 (s.2.take k), s.2.drop k) else none
  else some s

def yoshimitsu16 (h : BitVec 32 × BitVec 32) (p : List UInt8) : BitVec 32 × BitVec 32 :=
  (yoshimitsuTwo h.1 p 0, yoshimitsuTwo h.2 p 8)

def yoshimitsu8 (h : BitVec 32 × BitVec 32) (p : List UInt8) : BitVec 32 × BitVec 32 :=
  (yoshimitsuOne 4 h.1 p 0, yoshimitsuOne 4 h.2 p 4)

def yoshimitsu4 (h : BitVec 32 × BitVec 32) (p : List UInt8) : BitVec 32 × BitVec 32 :=
  (yoshimitsuOne 2 h.1 p 0, yoshimitsuOne 2 h.2 p 2)

def yoshimitsu2 (h : BitVec 32 × BitVec 32) (p : List UInt8) : BitVec 32 × BitVec 32 :=
  (yoshimitsuOne 2 h.1 p 0, h.2)

def yoshimitsu1 (h : BitVec 32 × BitVec 32) (p : List UInt8) : BitVec 32 × BitVec 32 :=
  (yoshimitsuOne 1 h.1 p 0, h.2)

/-- What is behind the rounds. The source leaves `p` where it is in the last case. -/
def yoshimitsuCases (size : Nat) (s : (BitVec 32 × BitVec 32) × List UInt8) :
    Option ((BitVec 32 × BitVec 32) × List UInt8) := do
  let s ← yoshimitsuCase 16 yoshimitsu16 size s
  let s ← yoshimitsuCase 8 yoshimitsu8 size s
  let s ← yoshimitsuCase 4 yoshimitsu4 size s
  let s ← yoshimitsuCase 2 yoshimitsu2 size s
  yoshimitsuCase 1 yoshimitsu1 size s

/-- The end of the hash: the two words are put together. -/
def yoshimitsuEnd (h : BitVec 32 × BitVec 32) : BitVec 32 :=
  let hash32A := (h.1 ^^^ inaHashRotl32 h.2 5) * yoshimitsuPrime
  hash32A ^^^ (hash32A >>> 16)

/-- `hash32A`, `hash32B` and `hash32C` at the beginning. -/
def yoshimitsuStart (hash : BitVec 32) (size : Nat) : BitVec 32 × BitVec 32 × BitVec 32 :=
  (hash ^^^ 2166136261, 2166136261 + BitVec.ofNat 32 size, 2166136261)

/-- `hash32A` and `hash32B` behind the loop, that is left with the words and the place `s`:
    `if (p != data)` there was a round. -/
def yoshimitsuWords (size : Nat) (s : (BitVec 32 × BitVec 32 × BitVec 32) × List UInt8) :
    BitVec 32 × BitVec 32 :=
  if s.2.length ≠ size then
    ((s.1.1 ^^^ inaHashRotl32 s.1.2.2 5) * yoshimitsuPrime, s.1.2.1)
  else (s.1.1, s.1.2.1)

/-- There is no result where it reads behind the data. -/
def inaHash32FnvYoshimitsu (hash : BitVec 32) (data : List UInt8) : Option (BitVec 32) := do
  let s := blocks 24 yoshimitsuRound (yoshimitsuStart hash data.length) data
  let (h, _) ← yoshimitsuCases s.2.length (yoshimitsuWords data.length s, s.2)
  return yoshimitsuEnd h

/-! ## What is read

The bits of a number below 24 say how it is made of 16, 8, 4, 2 and 1, and what has been read so far
is what the higher bits say. -/

variable {step : BitVec 32 × BitVec 32 → List UInt8 → BitVec 32 × BitVec 32} {i size : Nat}
  {s : (BitVec 32 × BitVec 32) × List UInt8}

/-- A case, by the bit of the length that it is for. -/
def yoshimitsuTaken (i : Nat)
    (step : BitVec 32 × BitVec 32 → List UInt8 → BitVec 32 × BitVec 32) (size : Nat)
    (s : (BitVec 32 × BitVec 32) × List UInt8) : (BitVec 32 × BitVec 32) × List UInt8 :=
  if size.testBit i then (step s.1 (s.2.take (2 ^ i)), s.2.drop (2 ^ i)) else s

variable (step) in
/-- The lower bits say how much is left behind a case. -/
theorem yoshimitsuTaken_length (hlen : s.2.length = size % 2 ^ (i + 1)) :
    (yoshimitsuTaken i step size s).2.length = size % 2 ^ i := by
  rw [Nat.mod_pow_succ, ← Nat.toNat_testBit] at hlen
  cases hbit : size.testBit i
  · simpa only [yoshimitsuTaken, hbit, Bool.false_eq_true, if_false, Bool.toNat_false, Nat.mul_zero,
      Nat.add_zero] using hlen
  · rw [hbit, Bool.toNat_true, Nat.mul_one] at hlen
    rw [yoshimitsuTaken, hbit, if_pos rfl, List.length_drop, hlen, Nat.add_sub_cancel]

theorem yoshimitsuCase_eq (hlen : s.2.length = size % 2 ^ (i + 1)) :
    yoshimitsuCase (2 ^ i) step size s = some (yoshimitsuTaken i step size s) := by
  rw [Nat.mod_pow_succ, ← Nat.toNat_testBit] at hlen
  rw [yoshimitsuCase, yoshimitsuTaken, Nat.and_two_pow]
  cases hbit : size.testBit i
  · simp only [Bool.toNat_false, Nat.zero_mul, ne_eq, not_true_eq_false, if_false,
      Bool.false_eq_true]
  · rw [hbit, Bool.toNat_true, Nat.mul_one] at hlen
    rw [if_pos, if_pos (by rw [hlen]; exact Nat.le_add_left ..), if_pos rfl]
    rw [Bool.toNat_true, Nat.one_mul]
    exact Nat.ne_of_gt (Nat.two_pow_pos i)

/-- All cases, without the question whether the bytes are there. -/
def yoshimitsuTail (s : (BitVec 32 × BitVec 32) × List UInt8) :
    (BitVec 32 × BitVec 32) × List UInt8 :=
  let size := s.2.length
  yoshimitsuTaken 0 yoshimitsu1 size <| yoshimitsuTaken 1 yoshimitsu2 size <|
    yoshimitsuTaken 2 yoshimitsu4 size <| yoshimitsuTaken 3 yoshimitsu8 size <|
    yoshimitsuTaken 4 yoshimitsu16 size s

theorem yoshimitsuCases_eq (hshort : s.2.length < 32) :
    yoshimitsuCases s.2.length s = some (yoshimitsuTail s) := by
  have h5 : s.2.length = s.2.length % 2 ^ 5 := (Nat.mod_eq_of_lt hshort).symm
  have h4 := yoshimitsuTaken_length yoshimitsu16 h5
  have h3 := yoshimitsuTaken_length yoshimitsu8 h4
  have h2 := yoshimitsuTaken_length yoshimitsu4 h3
  have h1 := yoshimitsuTaken_length yoshimitsu2 h2
  have e4 : yoshimitsuCase 16 yoshimitsu16 _ s = _ := yoshimitsuCase_eq h5
  have e3 : yoshimitsuCase 8 yoshimitsu8 _ _ = _ := yoshimitsuCase_eq h4
  have e2 : yoshimitsuCase 4 yoshimitsu4 _ _ = _ := yoshimitsuCase_eq h3
  have e1 : yoshimitsuCase 2 yoshimitsu2 _ _ = _ := yoshimitsuCase_eq h2
  have e0 : yoshimitsuCase 1 yoshimitsu1 _ _ = _ := yoshimitsuCase_eq h1
  simp only [yoshimitsuCases, e4, e3, e2, e1, e0, Option.bind_eq_bind, Option.bind_some]
  rfl

/-- The hash, without the question what is read. -/
def yoshimitsu (seed : BitVec 32) (data : List UInt8) : BitVec 32 :=
  let s := blocks 24 yoshimitsuRound (yoshimitsuStart seed data.length) data
  yoshimitsuEnd (yoshimitsuTail (yoshimitsuWords data.length s, s.2)).1

/-- **Everything that is read is there.** -/
theorem yoshimitsu_reads (seed : BitVec 32) (data : List UInt8) :
    inaHash32FnvYoshimitsu seed data = some (yoshimitsu seed data) := by
  have hshort := blocks_rest_lt (n := 24) yoshimitsuRound
    (yoshimitsuStart seed data.length) data
  rw [inaHash32FnvYoshimitsu, yoshimitsuCases_eq (s := (_, _)) (Nat.lt_trans hshort (by decide))]
  rfl

/-! ## Data that is nearly the same

The words of state are lanes, of which a byte goes to one. -/

theorem readLow_ne {n : Nat} {p q : List UInt8} (hn : n ≤ 4) (hlen : p.length = n)
    (h : OneApart p q) : readLow n p 0 ≠ readLow n q 0 :=
  ofNat_wordOf_front_ne hlen (h.length_eq ▸ hlen) (by omega) h.ne

theorem mul_yoshimitsuPrime_injective : Injective fun x => x * yoshimitsuPrime :=
  mul_odd_injective (c := yoshimitsuPrime) 354803 (by decide)

theorem yoshimitsuOne_separates {n : Nat} (hn : n ≤ 4) :
    Separates n (· ≠ ·) fun h p => yoshimitsuOne n h p 0 where
  state _ hne heq := hne (BitVec.xor_left_inj _ |>.mp (mul_yoshimitsuPrime_injective heq))
  block hlen h heq := readLow_ne hn hlen h
    (BitVec.xor_right_inj _ |>.mp (mul_yoshimitsuPrime_injective heq))

theorem yoshimitsuTwo_separates : Separates 8 (· ≠ ·) fun h p => yoshimitsuTwo h p 0 where
  state _ hne heq := hne (BitVec.xor_left_inj _ |>.mp (mul_yoshimitsuPrime_injective heq))
  block {s w w'} hlen h heq := by
    have hwords := BitVec.xor_right_inj _ |>.mp (mul_yoshimitsuPrime_injective heq)
    have hfirst : ∀ v : List UInt8, readLow 4 v 0 = readLow 4 (v.take 4) 0 := fun v => by
      simp only [readLow, List.drop_zero, List.take_take, Nat.min_self]
    have hsecond : ∀ v : List UInt8, readLow 4 v (0 + 4) = readLow 4 (v.drop 4) 0 := fun v => by
      simp only [readLow, List.drop_drop]
    rw [hfirst w, hfirst w', hsecond, hsecond] at hwords
    rcases h.split 4 with ⟨hne, heq⟩ | ⟨heq, hne⟩
    · change w.drop 4 = w'.drop 4 at heq
      rw [heq, BitVec.xor_left_inj] at hwords
      exact readLow_ne (Nat.le_refl 4) (List.length_take_of_le (by omega)) hne
        (inaHashRotl32_injective (by decide) hwords)
    · change w.take 4 = w'.take 4 at heq
      rw [heq, BitVec.xor_right_inj] at hwords
      exact readLow_ne (Nat.le_refl 4) (by rw [List.length_drop]; omega) hne hwords

/-- Two of the words of state, of which one differs. -/
def OneWord : BitVec 32 × BitVec 32 → BitVec 32 × BitVec 32 → Prop := OneOf (· ≠ ·) (· ≠ ·)

theorem yoshimitsuRound_separates : Separates 24 (OneOf (· ≠ ·) OneWord) yoshimitsuRound := by
  have hlanes := yoshimitsuTwo_separates.pair (yoshimitsuTwo_separates.pair yoshimitsuTwo_separates)
  simp only [yoshimitsuTwo, readLow, List.drop_drop, List.drop_take, List.take_take] at hlanes
  exact hlanes

theorem yoshimitsu16_separates : Separates 16 OneWord yoshimitsu16 := by
  have hlanes := yoshimitsuTwo_separates.pair yoshimitsuTwo_separates
  simp only [yoshimitsuTwo, readLow, List.drop_drop, List.drop_take, List.take_take] at hlanes
  exact hlanes

/-- Two words of state, with as many bytes for each. -/
theorem yoshimitsuOne_pair {n : Nat} (hn : n ≤ 4) :
    Separates (n + n) OneWord fun h p => (yoshimitsuOne n h.1 p 0, yoshimitsuOne n h.2 p n) := by
  have hlanes := (yoshimitsuOne_separates hn).pair (yoshimitsuOne_separates hn)
  simp only [yoshimitsuOne, readLow, List.drop_drop, List.drop_zero, List.take_take, Nat.min_self]
    at hlanes
  exact hlanes

theorem yoshimitsu8_separates : Separates 8 OneWord yoshimitsu8 :=
  yoshimitsuOne_pair (Nat.le_refl 4)

theorem yoshimitsu4_separates : Separates 4 OneWord yoshimitsu4 :=
  yoshimitsuOne_pair (n := 2) (by decide)

theorem yoshimitsu2_separates : Separates 2 OneWord yoshimitsu2 :=
  (yoshimitsuOne_separates (by decide)).left

theorem yoshimitsu1_separates : Separates 1 OneWord yoshimitsu1 :=
  (yoshimitsuOne_separates (by decide)).left

theorem yoshimitsuTaken_apart {s' : (BitVec 32 × BitVec 32) × List UInt8}
    (hsep : Separates (2 ^ i) OneWord step) (hlen : s.2.length = size % 2 ^ (i + 1))
    (h : Parted OneWord s s') :
    Parted OneWord (yoshimitsuTaken i step size s) (yoshimitsuTaken i step size s') := by
  rw [Nat.mod_pow_succ, ← Nat.toNat_testBit] at hlen
  rw [yoshimitsuTaken, yoshimitsuTaken]
  split
  case isTrue hbit =>
    rw [hbit, Bool.toNat_true, Nat.mul_one] at hlen
    exact h.step hsep (hlen ▸ Nat.le_add_left ..)
  case isFalse => exact h

/-- **Behind the rounds** nothing of two words is lost either, and at the end of the data the
    difference is in them. -/
theorem yoshimitsuTail_apart {s' : (BitVec 32 × BitVec 32) × List UInt8}
    (hshort : s.2.length < 32) (h : Parted OneWord s s') :
    OneWord (yoshimitsuTail s).1 (yoshimitsuTail s').1 := by
  have h5 : s.2.length = s.2.length % 2 ^ 5 := (Nat.mod_eq_of_lt hshort).symm
  have h4 := yoshimitsuTaken_length yoshimitsu16 h5
  have h3 := yoshimitsuTaken_length yoshimitsu8 h4
  have h2 := yoshimitsuTaken_length yoshimitsu4 h3
  have h1 := yoshimitsuTaken_length yoshimitsu2 h2
  have h0 := yoshimitsuTaken_length yoshimitsu1 h1
  have a4 := yoshimitsuTaken_apart yoshimitsu16_separates h5 h
  have a3 := yoshimitsuTaken_apart yoshimitsu8_separates h4 a4
  have a2 := yoshimitsuTaken_apart yoshimitsu4_separates h3 a3
  have a1 := yoshimitsuTaken_apart yoshimitsu2_separates h2 a2
  have a0 := yoshimitsuTaken_apart yoshimitsu1_separates h1 a1
  rw [yoshimitsuTail, yoshimitsuTail, ← h.length_eq]
  exact a0.state (List.length_eq_zero_iff.mp (h0.trans (Nat.mod_one _)))

theorem yoshimitsuEnd_ne {h h' : BitVec 32 × BitVec 32} (hone : OneWord h h') :
    yoshimitsuEnd h ≠ yoshimitsuEnd h' := by
  intro heq
  have hxor := mul_yoshimitsuPrime_injective (xor_ushiftRight_injective (k := 16) (by decide) heq)
  rcases hone with ⟨hne, hsame⟩ | ⟨hsame, hne⟩
  · rw [hsame, BitVec.xor_left_inj] at hxor
    exact hne hxor
  · rw [hsame, BitVec.xor_right_inj] at hxor
    exact hne (inaHashRotl32_injective (r := 5) (by decide) hxor)

/-- The third word goes into the first. -/
theorem yoshimitsu_third {h h' : BitVec 32 × BitVec 32 × BitVec 32}
    (hone : OneOf (· ≠ ·) OneWord h h') :
    OneWord ((h.1 ^^^ inaHashRotl32 h.2.2 5) * yoshimitsuPrime, h.2.1)
      ((h'.1 ^^^ inaHashRotl32 h'.2.2 5) * yoshimitsuPrime, h'.2.1) := by
  rcases hone with ⟨hne, hsame⟩ | ⟨hsame, ⟨hne, heq⟩ | ⟨heq, hne⟩⟩
  · refine Or.inl ⟨fun h => hne ?_, congrArg Prod.fst hsame⟩
    have hxor := mul_yoshimitsuPrime_injective h
    rwa [hsame, BitVec.xor_left_inj] at hxor
  · exact Or.inr ⟨by rw [hsame, heq], hne⟩
  · refine Or.inl ⟨fun h => hne ?_, heq⟩
    have hxor := mul_yoshimitsuPrime_injective h
    rw [hsame, BitVec.xor_right_inj] at hxor
    exact inaHashRotl32_injective (r := 5) (by decide) hxor

theorem yoshimitsu_keen (max : Nat) : Keen max yoshimitsu :=
  keen_of_apart fun p q _ h => by
    have hseed : ∀ s t : BitVec 32, s ≠ t → s ^^^ 2166136261 ≠ t ^^^ 2166136261 :=
      fun _ _ hne => (xor_left_injective _).ne hne
    have hstart : Parted (OneOf (· ≠ ·) OneWord) (yoshimitsuStart p.1 p.2.length, p.2)
        (yoshimitsuStart q.1 p.2.length, q.2) :=
      h.map (yoshimitsuStart · p.2.length) id (fun s t hne => Or.inl ⟨hseed s t hne, rfl⟩)
        fun _ _ => id
    have hrounds := hstart.blocks yoshimitsuRound_separates
    have hrest := blocks_rest (n := 24) yoshimitsuRound
      (yoshimitsuStart p.1 p.2.length) p.2
    rw [yoshimitsu, yoshimitsu, ← h.length_eq]
    refine yoshimitsuEnd_ne (yoshimitsuTail_apart ?_ ?_)
    · exact hrest ▸ Nat.lt_trans (Nat.mod_lt _ (by decide)) (by decide)
    rcases Nat.lt_or_ge p.2.length 24 with hshort | hlong
    · -- there was no round
      rw [blocks_short _ hshort, blocks_short _ (h.length_eq ▸ hshort), yoshimitsuWords,
        yoshimitsuWords, if_neg (not_not_intro rfl), if_neg (not_not_intro h.length_eq.symm)]
      exact h.map (fun s => (s ^^^ 2166136261, 2166136261 + BitVec.ofNat 32 p.2.length)) id
        (fun s t hne => Or.inl ⟨hseed s t hne, rfl⟩) fun _ _ => id
    · have hmoved : ((blocks 24 yoshimitsuRound (yoshimitsuStart p.1 p.2.length) p.2).2).length ≠
          p.2.length := by
        have hlt := Nat.mod_lt p.2.length (show 24 > 0 by decide)
        omega
      have hmoved' := hrounds.length_eq ▸ hmoved
      rw [yoshimitsuWords, yoshimitsuWords, if_pos hmoved, if_pos hmoved']
      have hwords : Parted OneWord _ _ := hrounds.map
        (fun h : BitVec 32 × BitVec 32 × BitVec 32 =>
          ((h.1 ^^^ inaHashRotl32 h.2.2 5) * yoshimitsuPrime, h.2.1)) id
        (fun _ _ hone => yoshimitsu_third hone) fun _ _ => id
      exact hwords

/-- **What the hashes by blocks tell apart**: two lists of bytes that differ in one place, and two
    seeds, if the lanes of `xxh32` are not made of them. Yoshimitsu's, which cuts its data by the
    bits of a length, reads nothing outside of it. -/
theorem block_hashes_keen :
    Keen (2 ^ 31) inaHash32Murmur3 ∧
      (∀ seed data, (inaHash32FnvYoshimitsu seed data).isSome) ∧
      (∀ max, Keen max inaHash32FnvYoshimitsu) ∧
      Keen 16 inaHash32Xxhash ∧
      ∀ hash xs ys, OneApart xs ys → inaHash32Xxhash hash xs ≠ inaHash32Xxhash hash ys := by
  refine ⟨inaHash32Murmur3_keen, fun seed data => ?_, fun max => ?_, inaHash32Xxhash_keen,
    fun hash xs ys => xxh32_byte hash⟩
  · rw [yoshimitsu_reads]
    rfl
  · -- since all of its reads succeed, the hash is the plain one under a `some`
    rw [show inaHash32FnvYoshimitsu = _ from funext₂ yoshimitsu_reads]
    exact (yoshimitsu_keen max).comp injective_id (Option.some_injective _)

end Hash
end Inac
