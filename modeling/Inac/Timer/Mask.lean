import Mathlib.Tactic.IntervalCases
import Inac.Lib.Wheel
import Inac.Timer.Defs

/-!
# The words of the wheels

What the shifts, masks and rotations of the wheels compute, as arithmetic: a hand of `Inac.Lib.Wheel`
in base 64, the slot and the wheel of an entry, and the slots an update passes.

Nothing here knows of timeouts. There are three results the other modules use. `timeoutWheel_spec`
says which wheel the highest bit of the remaining time picks; `timeoutSlot_eq` that the slot is the
digit of the time at that wheel; and `getLsbD_expiring` that the word which `timeouts_update` builds
out of two rotations has a bit for every slot the hand passes, whether or not the hand goes over the
end of the word.
-/

namespace Inac
namespace Timer

open Lib

@[simp] theorem wheelLen_eq : wheelLen = 64 := rfl
@[simp] theorem wheelBit_eq : wheelBit = 6 := rfl
@[simp] theorem wheelNum_eq : wheelNum = 4 := rfl

theorem two_pow_wheel (w : Nat) : 2 ^ (w * 6) = 64 ^ w := by
  rw [Nat.mul_comm, Nat.pow_mul]

/-- The hand of a wheel. -/
theorem shift_toNat (x : BitVec 64) (w : Nat) :
    (x >>> (w * wheelBit)).toNat = x.toNat / 64 ^ w := by
  rw [BitVec.toNat_ushiftRight, Nat.shiftRight_eq_div_pow, wheelBit_eq, two_pow_wheel]

theorem wheelMask_and (x : BitVec 64) : (wheelMask &&& x).toNat = x.toNat % 64 := by
  rw [BitVec.and_comm, BitVec.toNat_and]
  exact Nat.and_two_pow_sub_one_eq_mod x.toNat 6

theorem hand_toNat (x : BitVec 64) (w : Nat) :
    (wheelMask &&& (x >>> (w * wheelBit))).toNat = x.toNat / 64 ^ w % 64 := by
  rw [wheelMask_and, shift_toNat]

/-! ## Bits

A word is taken apart into its bits and never into a number, since the two rotations have no value
that is worth a name. -/

theorem getLsbD_rotl (v : BitVec 64) {c i : Nat} (hc : c < 64) (hi : i < 64) :
    (rotl v c).getLsbD i = v.getLsbD ((i + (64 - c)) % 64) := by
  rw [rotl, Nat.mod_eq_of_lt hc]
  by_cases hzero : c = 0
  · rw [if_pos hzero, hzero, Nat.sub_zero, Nat.add_mod_right, Nat.mod_eq_of_lt hi]
  · rw [if_neg hzero, BitVec.getLsbD_or, BitVec.getLsbD_shiftLeft, BitVec.getLsbD_ushiftRight]
    by_cases hlow : i < c
    · rw [Nat.mod_eq_of_lt (by omega), Nat.add_comm i]
      simp [hlow]
    · rw [show (i + (64 - c)) % 64 = i - c by omega, BitVec.getLsbD_of_ge v (64 - c + i) (by omega)]
      simp [hi, hlow]

theorem getLsbD_rotr (v : BitVec 64) {c i : Nat} (hc : c < 64) (hi : i < 64) :
    (rotr v c).getLsbD i = v.getLsbD ((i + c) % 64) := by
  rw [rotr, Nat.mod_eq_of_lt hc]
  by_cases hzero : c = 0
  · rw [if_pos hzero, hzero, Nat.add_zero, Nat.mod_eq_of_lt hi]
  · rw [if_neg hzero, BitVec.getLsbD_or, BitVec.getLsbD_shiftLeft, BitVec.getLsbD_ushiftRight]
    by_cases hlow : i + c < 64
    · rw [Nat.mod_eq_of_lt hlow, Nat.add_comm c]
      simp [show i < 64 - c by omega]
    · rw [show (i + c) % 64 = i - (64 - c) by omega, BitVec.getLsbD_of_ge v (c + i) (by omega)]
      simp [hi, show ¬ i < 64 - c by omega]

/-- The low `e` bits. -/
theorem getLsbD_ones {e : Nat} (he : e < 64) (i : Nat) :
    ((1#64 <<< e) - 1#64).getLsbD i = decide (i < e) := by
  have hpow : 2 ^ e < 2 ^ 64 := Nat.pow_lt_pow_right (by decide) he
  have hpos : 0 < 2 ^ e := Nat.two_pow_pos e
  have hval : ((1#64 <<< e) - 1#64).toNat = 2 ^ e - 1 := by
    have hshift : (1#64 <<< e).toNat = 2 ^ e := by
      rw [BitVec.toNat_shiftLeft, Nat.shiftLeft_eq]
      exact (congrArg (· % 2 ^ 64) (Nat.one_mul _)).trans (Nat.mod_eq_of_lt hpow)
    rw [BitVec.toNat_sub, hshift]
    simp only [BitVec.toNat_ofNat]
    omega
  rw [BitVec.getLsbD, hval, Nat.testBit_two_pow_sub_one]

theorem getLsbD_one_shift {s : Nat} (hs : s < 64) (i : Nat) :
    (1#64 <<< s).getLsbD i = decide (i = s) := by
  rw [← BitVec.twoPow_eq, BitVec.getLsbD_twoPow]
  simp [hs, eq_comm]

theorem getLsbD_one_and (v : BitVec 64) : 0x1#64 &&& v = 0#64 ↔ v.getLsbD 0 = false := by
  constructor
  · intro h
    have hbit := congrArg (fun x => x.getLsbD 0) h
    simpa using hbit
  · intro h
    refine BitVec.eq_of_getLsbD_eq fun i hi => ?_
    by_cases hzero : i = 0
    · rw [hzero, BitVec.getLsbD_and, h, Bool.and_false, BitVec.getLsbD_zero]
    · simp [hzero]

theorem ctz_lt {v : BitVec 64} (h : v ≠ 0#64) : ctz v < 64 := by
  have hlt := (BitVec.ctz_lt_iff_ne_zero (x := v)).mpr h
  rw [BitVec.lt_def] at hlt
  exact hlt

theorem getLsbD_ctz {v : BitVec 64} (h : v ≠ 0#64) : v.getLsbD (ctz v) = true :=
  BitVec.getLsbD_true_ctz_of_ne_zero h

theorem ctz_le {v : BitVec 64} {i : Nat} (h : v.getLsbD i = true) : ctz v ≤ i := by
  by_contra hlt
  rw [BitVec.getLsbD_false_of_lt_ctz (Nat.not_le.mp hlt)] at h
  exact absurd h (by decide)

theorem ne_zero_of_getLsbD {v : BitVec 64} {i : Nat} (h : v.getLsbD i = true) : v ≠ 0#64 := by
  rintro rfl
  rw [BitVec.getLsbD_zero] at h
  exact absurd h (by decide)

/-! ## The wheel and the slot of an entry

`fls` counts the bits below the highest one, so a sixth of it is the digit in which the remaining
time has its highest place. -/

theorem fls_spec {n : BitVec 64} (h : n ≠ 0#64) :
    0 < fls n ∧ 2 ^ (fls n - 1) ≤ n.toNat ∧ n.toNat < 2 ^ fls n := by
  have hlt := (BitVec.clz_lt_iff_ne_zero (x := n)).mpr h
  have hlow := BitVec.two_pow_sub_clz_le_toNat_of_ne_zero (by decide) h
  have hhigh := BitVec.toNat_lt_two_pow_sub_clz (x := n)
  rw [BitVec.lt_def] at hlt
  have hlt' : n.clz.toNat < 64 := hlt
  refine ⟨by rw [fls]; omega, ?_, hhigh⟩
  rwa [fls, show 64 - n.clz.toNat - 1 = 64 - 1 - n.clz.toNat by omega]

theorem timeoutMax_toNat : timeoutMax.toNat = 64 ^ 4 - 1 := by decide

/-- The wheel is the one whose slots the remaining time is counted in. -/
theorem timeoutWheel_spec {rem : BitVec 64} (h : rem ≠ 0#64) :
    timeoutWheel rem < 4 ∧ 64 ^ timeoutWheel rem ≤ rem.toNat ∧
      (timeoutWheel rem < 3 → rem.toNat < 64 ^ (timeoutWheel rem + 1)) := by
  obtain ⟨m, hm⟩ : ∃ m, m = if rem < timeoutMax then rem else timeoutMax := ⟨_, rfl⟩
  have hpos : 0 < rem.toNat := Nat.pos_of_ne_zero fun hzero => h (BitVec.eq_of_toNat_eq hzero)
  have hmin : m.toNat = min rem.toNat (64 ^ 4 - 1) := by
    rw [hm, ← timeoutMax_toNat]
    split
    · rename_i hlt
      exact (Nat.min_eq_left (Nat.le_of_lt (BitVec.lt_def.mp hlt))).symm
    · rename_i hge
      exact (Nat.min_eq_right (Nat.not_lt.mp fun hlt => hge (BitVec.lt_def.mpr hlt))).symm
  have hmzero : m ≠ 0#64 := by
    rintro rfl
    simp only [BitVec.toNat_ofNat] at hmin
    omega
  obtain ⟨hfls, hlow, hhigh⟩ := fls_spec hmzero
  have hw : timeoutWheel rem = (fls m - 1) / 6 := by rw [timeoutWheel, ← hm, wheelBit_eq]
  have hsmall : fls m ≤ 24 := by
    by_contra hc
    -- The remaining time was cut off at `TIMEOUT_MAX`, which has twenty-four bits.
    have hpow := Nat.pow_le_pow_right (n := 2) (by decide) (show 24 ≤ fls m - 1 by omega)
    omega
  rw [hw, ← two_pow_wheel, ← two_pow_wheel]
  have hdown : 2 ^ ((fls m - 1) / 6 * 6) ≤ m.toNat :=
    Nat.le_trans (Nat.pow_le_pow_right (by decide) (Nat.div_mul_le_self _ _)) hlow
  refine ⟨by omega, by omega, fun hlt => ?_⟩
  -- Below the highest wheel nothing was cut off.
  have hup : 2 ^ fls m ≤ 2 ^ (((fls m - 1) / 6 + 1) * 6) :=
    Nat.pow_le_pow_right (by decide) (by omega)
  have hcap : 2 ^ (((fls m - 1) / 6 + 1) * 6) ≤ 2 ^ 18 :=
    Nat.pow_le_pow_right (by decide) (by omega)
  omega

theorem timeoutSlot_lt (w : Nat) (x : BitVec 64) : timeoutSlot w x < 64 := by
  rw [timeoutSlot, wheelMask_and]
  exact Nat.mod_lt _ (by decide)

/-- The slot is that of the tick. -/
theorem timeoutSlot_eq {w : Nat} {x : BitVec 64} (h : 0 < x.toNat / 64 ^ w) :
    timeoutSlot w x = tick 64 w x.toNat % 64 := by
  rw [timeoutSlot, wheelMask_and, tick, ← shift_toNat]
  rw [← shift_toNat] at h
  generalize x >>> (w * wheelBit) = y at h ⊢
  have hy := y.isLt
  by_cases hzero : w = 0
  · rw [if_pos hzero, if_pos hzero, Nat.sub_zero]
    exact congrArg (·.toNat % 64) (BitVec.sub_zero y)
  · rw [if_neg hzero, if_neg hzero, BitVec.toNat_sub, show (1 : BitVec 64).toNat = 1 from rfl]
    omega

/-! ## The slots an update passes -/

/-- What is known of the time that an update counts as elapsed when it comes to a wheel: it is the
    time that has passed, or, on a higher wheel, one slot of it. -/
structure Elapsed (t n w e : Nat) : Prop where
  le : t ≤ n
  time : n - t ≤ e
  slot : w ≠ 0 → 64 ^ w ≤ e
  cap : w = 0 → e = n - t

/-- Every slot the hand of the wheel passes is in the bit field, the last one included. `n` is the
    new time without the wrap. -/
theorem getLsbD_expiring {told tnew elapsed : BitVec 64} {n w k : Nat} (hw : w < 4)
    (he : Elapsed told.toNat n w elapsed.toNat) (hnew : tnew.toNat = n % 2 ^ 64)
    (hlow : told.toNat / 64 ^ w ≤ k) (hhigh : k ≤ n / 64 ^ w) :
    (expiring told tnew elapsed w).getLsbD (k % 64) = true := by
  have hk : k % 64 < 64 := Nat.mod_lt _ (by decide)
  rw [expiring]
  split
  · rw [BitVec.getLsbD_not]
    simp [hk]
  · rename_i hturn
    have hpos : 0 < 64 ^ w := Nat.pow_pos (by decide)
    have hsmall : elapsed.toNat / 64 ^ w < 64 := by
      have hle := Nat.not_lt.mp fun hlt => hturn (BitVec.lt_def.mpr hlt)
      rw [shift_toNat] at hle
      exact Nat.lt_succ_of_le hle
    have hhand : tnew.toNat / 64 ^ w % 64 = n / 64 ^ w % 64 := by
      rw [hnew]
      interval_cases w <;> omega
    -- the hand moves by the slots elapsed, and by one more at most
    have hmove : n / 64 ^ w ≤ told.toNat / 64 ^ w + elapsed.toNat / 64 ^ w + 1 := by
      have hle := he.time
      interval_cases w <;> omega
    have hstep : told.toNat / 64 ^ w = n / 64 ^ w ∨ 0 < elapsed.toNat / 64 ^ w := by
      by_cases hzero : w = 0
      · have hcap := he.cap hzero
        have hle := he.le
        subst hzero
        omega
      · exact Or.inr (Nat.div_pos (he.slot hzero) hpos)
    simp only [hand_toNat, hhand, Nat.mod_eq_of_lt hsmall]
    generalize elapsed.toNat / 64 ^ w = e at hsmall hmove hstep
    generalize told.toNat / 64 ^ w = o at hmove hstep hlow
    generalize n / 64 ^ w = m at hmove hstep hhigh
    have hom : o % 64 < 64 := Nat.mod_lt _ (by decide)
    have hmm : m % 64 < 64 := Nat.mod_lt _ (by decide)
    rw [BitVec.getLsbD_or, BitVec.getLsbD_or, getLsbD_rotl _ hom hk, getLsbD_rotr _ hsmall hk,
      getLsbD_rotl _ hmm (Nat.mod_lt _ (by decide)), getLsbD_ones hsmall, getLsbD_ones hsmall,
      getLsbD_one_shift hmm]
    simp only [Bool.or_eq_true, decide_eq_true_eq]
    -- near the old hand, one before the new hand, or at it
    by_cases hold : k < o + e
    · exact Or.inl (Or.inl (by omega))
    · by_cases hnow : k = m
      · exact Or.inr (by rw [hnow])
      · exact Or.inl (Or.inr (by omega))

end Timer
end Inac
