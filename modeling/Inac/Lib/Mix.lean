import Mathlib.Data.BitVec
import Mathlib.RingTheory.Nilpotent.Basic
import Mathlib.Tactic.Ring

/-!
# Mixing steps

A hash of an integer is a chain of steps on one word: shifts that are added to it, subtracted from
it, or laid over it with an exclusive or. Each step loses nothing, for one of two reasons.

Shifts to the left that are added make the step `x * u + d`, and two is nilpotent among the words of
`w` bits, so a multiplier that is one more than an even number is a unit. A shift laid over the word
can be undone bit by bit, from the end the shift comes from.
-/

namespace Inac
namespace Lib

open Function

variable {w : Nat}

/-! ## Multipliers

Odd numbers are units among words, and a shift that is added is a product with one of them. -/

theorem ofNat_two_pow (k : Nat) : BitVec.ofNat w (2 ^ k) = 2 ^ k := by
  rw [← BitVec.natCast_eq_ofNat, Nat.cast_pow]
  rfl

theorem shiftLeft_eq_mul (x : BitVec w) (k : Nat) : x <<< k = x * 2 ^ k := by
  rw [BitVec.shiftLeft_eq_mul_twoPow, ← ofNat_two_pow]
  congr 1
  apply BitVec.eq_of_toNat_eq
  rw [BitVec.toNat_twoPow, BitVec.toNat_ofNat]

theorem not_eq_neg_sub_one (x : BitVec w) : ~~~x = -x - 1 := BitVec.not_eq_neg_add x

theorem two_nilpotent : IsNilpotent (2 : BitVec w) := by
  refine ⟨w, ?_⟩
  rw [← ofNat_two_pow]
  apply BitVec.eq_of_toNat_eq
  rw [BitVec.toNat_ofNat, Nat.mod_self]
  rfl

theorem isUnit_one_add_two_mul (c : BitVec w) : IsUnit (1 + 2 * c) :=
  IsNilpotent.isUnit_one_add (Commute.isNilpotent_mul_right (Commute.all _ _) two_nilpotent)

/-- A step that multiplies by an odd number and adds another. -/
theorem injective_of_affine {f : BitVec w → BitVec w} (c d : BitVec w)
    (hf : ∀ x, f x = x * (1 + 2 * c) + d) : Injective f := by
  have haffine : Injective fun x : BitVec w => x * (1 + 2 * c) + d :=
    (add_left_injective d).comp (isUnit_one_add_two_mul c).mul_left_injective
  rw [funext hf]
  exact haffine

section Added

variable {k : Nat} (hk : 0 < k)
include hk

theorem add_shiftLeft_injective : Injective fun x : BitVec w => x + (x <<< k) := by
  obtain ⟨k, rfl⟩ := Nat.exists_eq_add_one.mpr hk
  refine injective_of_affine (2 ^ k) 0 fun x => ?_
  rw [shiftLeft_eq_mul]
  ring

theorem sub_shiftLeft_injective : Injective fun x : BitVec w => x - (x <<< k) := by
  obtain ⟨k, rfl⟩ := Nat.exists_eq_add_one.mpr hk
  refine injective_of_affine (-2 ^ k) 0 fun x => ?_
  rw [shiftLeft_eq_mul]
  ring

theorem add_not_shiftLeft_injective : Injective fun x : BitVec w => x + ~~~(x <<< k) := by
  obtain ⟨k, rfl⟩ := Nat.exists_eq_add_one.mpr hk
  refine injective_of_affine (-2 ^ k) (-1) fun x => ?_
  rw [not_eq_neg_sub_one, shiftLeft_eq_mul]
  ring

theorem not_add_shiftLeft_injective : Injective fun x : BitVec w => ~~~x + (x <<< k) := by
  obtain ⟨k, rfl⟩ := Nat.exists_eq_add_one.mpr hk
  refine injective_of_affine (2 ^ k - 1) (-1) fun x => ?_
  rw [not_eq_neg_sub_one, shiftLeft_eq_mul]
  ring

theorem add_shiftLeft_shiftLeft_injective {l : Nat} (hl : 0 < l) :
    Injective fun x : BitVec w => x + (x <<< k) + (x <<< l) := by
  obtain ⟨k, rfl⟩ := Nat.exists_eq_add_one.mpr hk
  obtain ⟨l, rfl⟩ := Nat.exists_eq_add_one.mpr hl
  refine injective_of_affine (2 ^ k + 2 ^ l) 0 fun x => ?_
  rw [shiftLeft_eq_mul, shiftLeft_eq_mul]
  ring

end Added

theorem mul_odd_injective {c : BitVec w} (d : BitVec w) (h : c = 1 + 2 * d) :
    Injective fun x : BitVec w => x * c :=
  injective_of_affine d 0 fun x => by rw [← h, add_zero]

/-! ## Rotations

A rotation can be turned back. -/

theorem rotl_injective {k : Nat} (hk : k < w) :
    Injective fun x : BitVec w => (x <<< k) ||| (x >>> (w - k)) := by
  intro x y h
  have hbits : ∀ i, ((x <<< k) ||| (x >>> (w - k))).getLsbD i =
      ((y <<< k) ||| (y >>> (w - k))).getLsbD i :=
    fun i => congrArg (fun z : BitVec w => z.getLsbD i) h
  simp only [BitVec.getLsbD_or, BitVec.getLsbD_shiftLeft, BitVec.getLsbD_ushiftRight] at hbits
  refine BitVec.eq_of_getLsbD_eq fun j hj => ?_
  -- where bit `j` of the word has gone
  rcases Nat.lt_or_ge (j + k) w with hlt | hge
  · have hbit := hbits (j + k)
    rw [BitVec.getLsbD_of_ge x _ (show w ≤ w - k + (j + k) by omega),
      BitVec.getLsbD_of_ge y _ (show w ≤ w - k + (j + k) by omega), Nat.add_sub_cancel] at hbit
    simpa only [hlt, decide_true, Bool.true_and, Bool.or_false,
      Nat.not_lt.mpr (Nat.le_add_left k j), decide_false, Bool.not_false] using hbit
  · have hbit := hbits (j + k - w)
    rw [show w - k + (j + k - w) = j by omega] at hbit
    simpa only [show j + k - w < k by omega, decide_true, Bool.not_true, Bool.and_false,
      Bool.false_and, Bool.false_or] using hbit

/-- A word that is rotated and multiplied. -/
theorem rotl_mul_injective {k : Nat} (hk : k < w) {c : BitVec w} (d : BitVec w)
    (h : c = 1 + 2 * d) : Injective fun x : BitVec w => ((x <<< k) ||| (x >>> (w - k))) * c :=
  (mul_odd_injective d h).comp (rotl_injective hk)

/-! ## What is laid over the word

An exclusive or with a shift of the word. It is undone bit by bit, beginning where nothing is laid
over. -/

/-- A byte in a word. -/
theorem byte_setWidth_injective (hw : 8 ≤ w) :
    Injective fun b : UInt8 => b.toBitVec.setWidth w := by
  intro a b heq
  have hlt : ∀ c : UInt8, c.toNat < 2 ^ w := fun c =>
    Nat.lt_of_lt_of_le c.toNat_lt (Nat.pow_le_pow_right (by decide) hw)
  have hnat := congrArg BitVec.toNat heq
  simp only [BitVec.toNat_setWidth, UInt8.toNat_toBitVec, Nat.mod_eq_of_lt (hlt _)] at hnat
  exact UInt8.toNat_inj.mp hnat

theorem xor_left_injective (y : BitVec w) : Injective fun x => x ^^^ y :=
  fun _ _ => (BitVec.xor_left_inj y).mp

theorem xor_right_injective (x : BitVec w) : Injective fun y => x ^^^ y :=
  fun _ _ => (BitVec.xor_right_inj x).mp

section Laid

variable {k : Nat} (hk : 0 < k)
include hk

/-- From the low bits up: below the shift nothing is laid over. -/
theorem xor_shiftLeft_injective : Injective fun x : BitVec w => x ^^^ (x <<< k) := by
  intro x y h
  have hbits : ∀ i, x.getLsbD i = y.getLsbD i := by
    intro i
    induction i using Nat.strongRecOn with
    | ind i ih =>
      have hbit := congrArg (fun z : BitVec w => z.getLsbD i) h
      simp only [BitVec.getLsbD_xor, BitVec.getLsbD_shiftLeft] at hbit
      by_cases hlow : i < k
      · simpa [hlow] using hbit
      · rw [ih (i - k) (by omega)] at hbit
        exact Bool.xor_left_inj.mp hbit
  exact BitVec.eq_of_getLsbD_eq fun i _ => hbits i

/-- From the high bits down, by the distance from the top. -/
theorem xor_ushiftRight_injective : Injective fun x : BitVec w => x ^^^ (x >>> k) := by
  intro x y h
  have hbits : ∀ n i, w ≤ i + n → x.getLsbD i = y.getLsbD i := by
    intro n
    induction n with
    | zero =>
      intro i hi
      rw [BitVec.getLsbD_of_ge x i hi, BitVec.getLsbD_of_ge y i hi]
    | succ n ih =>
      intro i hi
      have hbit := congrArg (fun z : BitVec w => z.getLsbD i) h
      simp only [BitVec.getLsbD_xor, BitVec.getLsbD_ushiftRight] at hbit
      rw [ih (k + i) (by omega)] at hbit
      exact Bool.xor_left_inj.mp hbit
  exact BitVec.eq_of_getLsbD_eq fun i _ => hbits w i (Nat.le_add_left ..)

end Laid

/-- The end of a hash: shifts laid over the word, with products between them. -/
theorem laid_mul_injective {i j k : Nat} (hi : 0 < i) (hj : 0 < j) (hk : 0 < k) {b c : BitVec w}
    (d e : BitVec w) (hb : b = 1 + 2 * d) (hc : c = 1 + 2 * e) : Injective fun h : BitVec w =>
      let h := h ^^^ (h >>> i)
      let h := h * b
      let h := h ^^^ (h >>> j)
      let h := h * c
      h ^^^ (h >>> k) :=
  (xor_ushiftRight_injective hk).comp <| (mul_odd_injective e hc).comp <|
    (xor_ushiftRight_injective hj).comp <| (mul_odd_injective d hb).comp <|
    xor_ushiftRight_injective hi

end Lib
end Inac
