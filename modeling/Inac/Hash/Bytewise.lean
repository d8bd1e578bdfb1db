import Inac.Hash.Crc32
import Inac.Lib.Mix
import Inac.Lib.Stream

/-!
# The hashes that take in a byte at a time (`src/hash.c`)

Each is a loop over the bytes with one word of state. None loses anything of the word or of the byte
on its way, so two seeds, or two lists of bytes that differ in one place, never have the same hash
(`bytewise_keen`).

A turn of a loop does one of a few things to the word: it is multiplied by an odd number, shifts of
it are added or laid over it, and the byte is added or laid over it. For each of them there is a
lemma in `Inac.Lib.Mix`.
-/

namespace Inac
namespace Hash

open Lib
open Function

/-! ## The code

Each step is written with the shifts and the factors of its source. -/

/-- A byte read into a variable of `w` bits. -/
def widen (w : Nat) (b : UInt8) : BitVec w := b.toBitVec.setWidth w

def inaHash32Djb (hash : BitVec 32) (data : List UInt8) : BitVec 32 :=
  data.foldl (fun hash d => 33 * hash + widen 32 d) hash

def inaHash32JenkinsOoat (hash : BitVec 32) (data : List UInt8) : BitVec 32 :=
  let hash := data.foldl (fun hash b =>
    let hash := hash + widen 32 b
    let hash := hash + (hash <<< 10)
    hash ^^^ (hash >>> 6)) hash
  let hash := hash + (hash <<< 3)
  let hash := hash ^^^ (hash >>> 11)
  hash + (hash <<< 15)

def inaHash32Fnv (hash : BitVec 32) (data : List UInt8) : BitVec 32 :=
  data.foldl (fun h d => (h ^^^ widen 32 d) * 16777619) (hash ^^^ 2166136261)

def inaHash64Fnv (hash : BitVec 64) (data : List UInt8) : BitVec 64 :=
  data.foldl (fun h d => (h ^^^ widen 64 d) * 0x100000001b3) (hash ^^^ 0xcbf29ce484222325)

def inaHashSdbm (hash : BitVec 32) (data : List UInt8) : BitVec 32 :=
  data.foldl (fun hash p => widen 32 p + (hash <<< 6) + (hash <<< 16) - hash) hash

def inaHash32Sdbm (hash : BitVec 32) (data : List UInt8) : BitVec 32 :=
  data.foldl (fun hash b => (hash <<< 6) + (hash <<< 16) - hash + widen 32 b) hash

/-! ## One turn of a loop

A turn is injective in the word for each byte, and in the byte for each word. -/

theorem widen_injective {w : Nat} (hw : 8 ≤ w) : Injective (widen w) :=
  byte_setWidth_injective hw

/-- What both forms of `sdbm` make of the word: a product with 65599. -/
theorem sdbm_word (hash : BitVec 32) :
    (hash <<< 6) + (hash <<< 16) - hash = hash * (1 + 2 * 32799) := by
  have heven : (2 : BitVec 32) ^ 6 + 2 ^ 16 - 1 = 1 + 2 * 32799 := by decide
  rw [shiftLeft_eq_mul, shiftLeft_eq_mul, ← heven]
  ring

theorem sdbm_word_injective :
    Injective fun hash : BitVec 32 => (hash <<< 6) + (hash <<< 16) - hash :=
  injective_of_affine 32799 0 fun hash => by rw [sdbm_word, add_zero]

theorem inaHash32Djb_keen (max : Nat) : Keen max inaHash32Djb :=
  keen_foldl max
    (fun d => injective_of_affine 16 (widen 32 d) fun hash => by
      rw [mul_comm]
      rfl)
    fun _ => (add_right_injective _).comp (widen_injective (by decide))

theorem inaHash32JenkinsOoat_keen (max : Nat) : Keen max inaHash32JenkinsOoat := by
  have hturn : Injective fun hash : BitVec 32 =>
      (hash + (hash <<< 10)) ^^^ ((hash + (hash <<< 10)) >>> 6) :=
    (xor_ushiftRight_injective (k := 6) (by decide)).comp <|
      add_shiftLeft_injective (k := 10) (by decide)
  have hend : Injective fun hash : BitVec 32 =>
      let hash := hash + (hash <<< 3)
      let hash := hash ^^^ (hash >>> 11)
      hash + (hash <<< 15) :=
    (add_shiftLeft_injective (k := 15) (by decide)).comp <|
      (xor_ushiftRight_injective (k := 11) (by decide)).comp <|
      add_shiftLeft_injective (k := 3) (by decide)
  exact (keen_foldl max (fun b => hturn.comp (add_left_injective (widen 32 b)))
    fun hash => hturn.comp ((add_right_injective hash).comp (widen_injective (by decide)))).comp
    injective_id hend

/-- The turn of both forms of `fnv`, with an odd number to multiply by. -/
theorem fnv_keen {w : Nat} (hw : 8 ≤ w) (prime half basis : BitVec w) (hodd : prime = 1 + 2 * half)
    (max : Nat) : Keen max fun hash data =>
      data.foldl (fun h d => (h ^^^ widen w d) * prime) (hash ^^^ basis) := by
  have hmul := mul_odd_injective half hodd
  exact (keen_foldl max (fun d => hmul.comp (xor_left_injective (widen w d)))
    fun h => hmul.comp ((xor_right_injective h).comp (widen_injective hw))).comp
    (xor_left_injective basis) injective_id

theorem inaHash32Sdbm_keen (max : Nat) : Keen max inaHash32Sdbm :=
  keen_foldl max (fun b => (add_left_injective (widen 32 b)).comp sdbm_word_injective)
    fun _ => (add_right_injective _).comp (widen_injective (by decide))

theorem inaHashSdbm_keen (max : Nat) : Keen max inaHashSdbm := by
  have hturn : ∀ (hash : BitVec 32) p, widen 32 p + (hash <<< 6) + (hash <<< 16) - hash =
      (hash <<< 6) + (hash <<< 16) - hash + widen 32 p := fun _ _ => by ring
  have hsame : inaHashSdbm = inaHash32Sdbm := by
    simp only [funext_iff, inaHashSdbm, inaHash32Sdbm, hturn, implies_true]
  rw [hsame]
  exact inaHash32Sdbm_keen max

theorem inaHashCrc32_keen (max : Nat) : Keen max inaHashCrc32 := by
  have hbits : Injective (crcBits crc32Poly 8) := crcBits_injective (by decide) 8
  have hnot : Injective fun x : BitVec 32 => ~~~x := LeftInverse.injective fun _ => BitVec.not_not
  have hloop : Keen max (crcBytes crc32Poly) :=
    keen_foldl max (fun b => hbits.comp (xor_left_injective (b.toBitVec.setWidth 32)))
      fun c => hbits.comp ((xor_right_injective c).comp (byte_setWidth_injective (by decide)))
  rw [show inaHashCrc32 = _ from funext₂ inaHashCrc32_eq]
  exact hloop.comp hnot hnot

/-- **No loop over the bytes loses anything**: with these hashes two seeds, or two lists of bytes
    that differ in one place, never have the same hash. -/
theorem bytewise_keen (max : Nat) :
    Keen max inaHashCrc32 ∧ Keen max inaHashSdbm ∧ Keen max inaHash32Sdbm ∧
      Keen max inaHash32Djb ∧ Keen max inaHash32JenkinsOoat ∧ Keen max inaHash32Fnv ∧
      Keen max inaHash64Fnv :=
  ⟨inaHashCrc32_keen max, inaHashSdbm_keen max, inaHash32Sdbm_keen max, inaHash32Djb_keen max,
    inaHash32JenkinsOoat_keen max, fnv_keen (by decide) _ 8388809 _ (by decide) max,
    fnv_keen (by decide) _ 0x80000000d9 _ (by decide) max⟩

end Hash
end Inac
