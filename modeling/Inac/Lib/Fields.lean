import Mathlib.Data.BitVec

/-!
# Fields of a word

A word is packed of values that are widened, shifted to their places and laid over each other, and a
value is read by a shift and a mask. A reader that takes the bits of one place finds the value that
was put there, and nothing of those that stand apart from it.
-/

namespace Inac
namespace Lib

variable {W w : Nat}

/-- Bits `s` to `s + n` and bits `k` to `k + w` have none in common. -/
def Apart (s n k w : Nat) : Prop := s + n ≤ k ∨ k + w ≤ s

instance (s n k w : Nat) : Decidable (Apart s n k w) := inferInstanceAs (Decidable (_ ∨ _))

theorem getLsbD_shifted (x : BitVec w) (k i : Nat) :
    (x.setWidth W <<< k).getLsbD i = (decide (i < W) && (decide (k ≤ i) && x.getLsbD (i - k))) := by
  rw [BitVec.getLsbD_shiftLeft, BitVec.getLsbD_setWidth]
  by_cases hi : i < W
  · have hsub : i - k < W := by omega
    by_cases hk : i < k
    · simp [hi, hk]
    · simp [hi, hsub, Nat.le_of_not_lt hk, hk]
  · simp [hi]

/-- What was put there is read. -/
theorem extract_shifted {k : Nat} (h : k + w ≤ W) (x : BitVec w) :
    (x.setWidth W <<< k).extractLsb' k w = x := by
  apply BitVec.eq_of_getLsbD_eq
  intro i hi
  have hlt : k + i < W := by omega
  rw [BitVec.getLsbD_extractLsb', getLsbD_shifted, Nat.add_sub_cancel_left]
  simp [hi, hlt]

/-- What stands apart is not. -/
theorem extract_shifted_apart {s n k : Nat} (h : Apart s n k w) (x : BitVec w) :
    (x.setWidth W <<< k).extractLsb' s n = 0#n := by
  apply BitVec.eq_of_getLsbD_eq
  intro i hi
  rw [BitVec.getLsbD_extractLsb', getLsbD_shifted, BitVec.getLsbD_zero]
  rcases h with hbelow | habove
  · have hk : ¬ k ≤ s + i := by omega
    simp [hk]
  · have hk : x.getLsbD (s + i - k) = false := BitVec.getLsbD_of_ge x _ (by omega)
    simp [hk]

/-- A shift and a mask. -/
theorem masked_eq_extract (x : BitVec W) (s n m : Nat) (hn : n ≤ W) :
    ((x >>> s) &&& BitVec.ofNat W (2 ^ n - 1)).setWidth m = (x.extractLsb' s n).setWidth m := by
  apply BitVec.eq_of_getLsbD_eq
  intro i hi
  rw [BitVec.getLsbD_setWidth, BitVec.getLsbD_setWidth, BitVec.getLsbD_and,
    BitVec.getLsbD_ushiftRight, BitVec.getLsbD_extractLsb', BitVec.getLsbD_ofNat,
    Nat.testBit_two_pow_sub_one]
  by_cases hin : i < n
  · have hlt : i < W := by omega
    simp [hi, hin, hlt]
  · simp [hin]

/-- A place that is cleared reads as nothing. -/
theorem extract_cleared (x : BitVec W) (k w : Nat) :
    (x &&& ~~~((BitVec.allOnes w).setWidth W <<< k)).extractLsb' k w = 0#w := by
  apply BitVec.eq_of_getLsbD_eq
  intro i hi
  rw [BitVec.getLsbD_extractLsb', BitVec.getLsbD_and, BitVec.getLsbD_not, getLsbD_shifted,
    Nat.add_sub_cancel_left]
  simp [hi]

/-- The others read as before. -/
theorem extract_cleared_apart {s n k w : Nat} (h : Apart s n k w) (x : BitVec W) :
    (x &&& ~~~((BitVec.allOnes w).setWidth W <<< k)).extractLsb' s n = x.extractLsb' s n := by
  apply BitVec.eq_of_getLsbD_eq
  intro i hi
  rw [BitVec.getLsbD_extractLsb', BitVec.getLsbD_extractLsb', BitVec.getLsbD_and,
    BitVec.getLsbD_not, getLsbD_shifted]
  by_cases hlt : s + i < W
  · have hout : (decide (k ≤ s + i) && (BitVec.allOnes w).getLsbD (s + i - k)) = false := by
      rcases h with hbelow | habove
      · have hk : ¬ k ≤ s + i := by omega
        simp [hk]
      · rw [BitVec.getLsbD_of_ge _ _ (by omega), Bool.and_false]
    rw [hout, Bool.and_false, Bool.not_false, decide_eq_true hlt, Bool.and_true, Bool.and_true]
  · rw [BitVec.getLsbD_of_ge x _ (by omega), Bool.false_and]

/-! ## A word as a sum

Where the values are apart it makes no difference whether they are laid over each other or added. -/

theorem shifted_toNat {k : Nat} (h : k + w ≤ W) (x : BitVec w) :
    (x.setWidth W <<< k).toNat = x.toNat * 2 ^ k := by
  have hx := x.isLt
  have hfits : x.toNat * 2 ^ k < 2 ^ W := by
    calc x.toNat * 2 ^ k < 2 ^ w * 2 ^ k := Nat.mul_lt_mul_of_pos_right hx (Nat.two_pow_pos k)
      _ = 2 ^ (k + w) := by rw [← Nat.pow_add, Nat.add_comm]
      _ ≤ 2 ^ W := Nat.pow_le_pow_right (by decide) h
  have hwide : x.toNat < 2 ^ W :=
    Nat.lt_of_lt_of_le hx (Nat.pow_le_pow_right (by decide) (by omega))
  rw [BitVec.toNat_shiftLeft, BitVec.toNat_setWidth, Nat.mod_eq_of_lt hwide, Nat.shiftLeft_eq,
    Nat.mod_eq_of_lt hfits]

/-- A value laid over one that stands below it is added. -/
theorem or_shifted_toNat {k : Nat} (h : k + w ≤ W) {low : BitVec W} (hlow : low.toNat < 2 ^ k)
    (x : BitVec w) : (low ||| (x.setWidth W <<< k)).toNat = x.toNat * 2 ^ k + low.toNat := by
  rw [BitVec.toNat_or, shifted_toNat h, Nat.or_comm, Nat.mul_comm,
    ← Nat.two_pow_add_eq_or_of_lt hlow]

end Lib
end Inac
