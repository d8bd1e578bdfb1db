import Inac.Lib.Mix

/-!
# Hashes of integers (`include/libinac/hash.h`)

The integer hashes are chains of shifts that are added, subtracted or laid over the key, in
unsigned arithmetic of 32 or 64 bits. No step loses anything, so two keys never have the same hash
(`integer_hashes_injective`). The two variants for small keys widen the key and then repeat the
steps of the one for 32 bits.
-/

namespace Inac
namespace Hash

open Lib
open Function

/-! ## The code

The steps in the order of the source; each of the hashes is a chain of steps of one word. -/

def inaHash32WangInt8 (key8 : BitVec 8) : BitVec 32 :=
  let key := key8.setWidth 32
  let key := key + ~~~(key <<< 15)
  let key := key ^^^ (key >>> 10)
  let key := key + (key <<< 3)
  let key := key ^^^ (key >>> 6)
  let key := key + ~~~(key <<< 11)
  key ^^^ (key >>> 16)

def inaHash32WangInt16 (key16 : BitVec 16) : BitVec 32 :=
  let key := key16.setWidth 32
  let key := key + ~~~(key <<< 15)
  let key := key ^^^ (key >>> 10)
  let key := key + (key <<< 3)
  let key := key ^^^ (key >>> 6)
  let key := key + ~~~(key <<< 11)
  key ^^^ (key >>> 16)

def inaHash32WangInt32 (key : BitVec 32) : BitVec 32 :=
  let key := key + ~~~(key <<< 15)
  let key := key ^^^ (key >>> 10)
  let key := key + (key <<< 3)
  let key := key ^^^ (key >>> 6)
  let key := key + ~~~(key <<< 11)
  key ^^^ (key >>> 16)

def inaHash32JenkinsInt32 (key : BitVec 32) : BitVec 32 :=
  let key := key - (key <<< 6)
  let key := key ^^^ (key >>> 17)
  let key := key - (key <<< 9)
  let key := key ^^^ (key <<< 4)
  let key := key - (key <<< 3)
  let key := key ^^^ (key <<< 10)
  key ^^^ (key >>> 15)

def inaHash64WangInt64 (key : BitVec 64) : BitVec 64 :=
  let key := ~~~key + (key <<< 21)
  let key := key ^^^ (key >>> 24)
  let key := key + (key <<< 3) + (key <<< 8)
  let key := key ^^^ (key >>> 14)
  let key := key + (key <<< 2) + (key <<< 4)
  let key := key ^^^ (key >>> 28)
  key + (key <<< 31)

/-! ## No step loses anything

A step that adds shifts is a product with an odd number, and one that lays a shift over the word is
undone bit by bit. Which of the two it is can be seen at each step. -/

theorem inaHash32WangInt32_injective : Injective inaHash32WangInt32 := by
  have hfirst : Injective fun key : BitVec 32 => key + ~~~(key <<< 15) :=
    add_not_shiftLeft_injective (by decide)
  have hthird : Injective fun key : BitVec 32 => key + (key <<< 3) :=
    add_shiftLeft_injective (by decide)
  have hfifth : Injective fun key : BitVec 32 => key + ~~~(key <<< 11) :=
    add_not_shiftLeft_injective (by decide)
  have hlaid : ∀ {k : Nat}, 0 < k → Injective fun key : BitVec 32 => key ^^^ (key >>> k) :=
    fun hk => xor_ushiftRight_injective hk
  exact (hlaid (k := 16) (by decide)).comp <| hfifth.comp <| (hlaid (k := 6) (by decide)).comp <|
    hthird.comp <| (hlaid (k := 10) (by decide)).comp hfirst

theorem inaHash32JenkinsInt32_injective : Injective inaHash32JenkinsInt32 := by
  have hsub : ∀ {k : Nat}, 0 < k → Injective fun key : BitVec 32 => key - (key <<< k) :=
    fun hk => sub_shiftLeft_injective hk
  have hleft : ∀ {k : Nat}, 0 < k → Injective fun key : BitVec 32 => key ^^^ (key <<< k) :=
    fun hk => xor_shiftLeft_injective hk
  have hright : ∀ {k : Nat}, 0 < k → Injective fun key : BitVec 32 => key ^^^ (key >>> k) :=
    fun hk => xor_ushiftRight_injective hk
  exact (hright (k := 15) (by decide)).comp <| (hleft (k := 10) (by decide)).comp <|
    (hsub (k := 3) (by decide)).comp <| (hleft (k := 4) (by decide)).comp <|
    (hsub (k := 9) (by decide)).comp <| (hright (k := 17) (by decide)).comp <|
    hsub (k := 6) (by decide)

theorem inaHash64WangInt64_injective : Injective inaHash64WangInt64 := by
  have hfirst : Injective fun key : BitVec 64 => ~~~key + (key <<< 21) :=
    not_add_shiftLeft_injective (by decide)
  have hthird : Injective fun key : BitVec 64 => key + (key <<< 3) + (key <<< 8) :=
    add_shiftLeft_shiftLeft_injective (by decide) (by decide)
  have hfifth : Injective fun key : BitVec 64 => key + (key <<< 2) + (key <<< 4) :=
    add_shiftLeft_shiftLeft_injective (by decide) (by decide)
  have hlast : Injective fun key : BitVec 64 => key + (key <<< 31) :=
    add_shiftLeft_injective (by decide)
  have hlaid : ∀ {k : Nat}, 0 < k → Injective fun key : BitVec 64 => key ^^^ (key >>> k) :=
    fun hk => xor_ushiftRight_injective hk
  exact hlast.comp <| (hlaid (k := 28) (by decide)).comp <| hfifth.comp <|
    (hlaid (k := 14) (by decide)).comp <| hthird.comp <| (hlaid (k := 24) (by decide)).comp hfirst

/-- **Two integer keys never have the same hash**, of all 2^32 or 2^64 of them, and the hashes of
    small keys are those of the widened keys. -/
theorem integer_hashes_injective :
    Injective inaHash32WangInt32 ∧ Injective inaHash32JenkinsInt32 ∧
      Injective inaHash64WangInt64 ∧
      (∀ key8, inaHash32WangInt8 key8 = inaHash32WangInt32 (key8.setWidth 32)) ∧
      ∀ key16, inaHash32WangInt16 key16 = inaHash32WangInt32 (key16.setWidth 32) :=
  ⟨inaHash32WangInt32_injective, inaHash32JenkinsInt32_injective, inaHash64WangInt64_injective,
    fun _ => rfl, fun _ => rfl⟩

end Hash
end Inac
