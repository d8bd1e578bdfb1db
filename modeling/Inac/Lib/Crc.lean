import Mathlib.Tactic.Ring
import Mathlib.Data.Nat.Bitwise

/-!
# Cyclic redundancy checks, bit by bit

The register of a reflected CRC of width `w` shifts to the right: the bit that falls out decides
whether the generator is added. A byte is added to the low end of the register and shifted out in
eight steps, the bytes of a message one after the other.

Where the generator has its top bit set, the bit shifted out can be read off the top of the next
register, so a step can be undone. Two consequences carry the proofs that use this file: a step is
injective (`crcBytes_injective`), and a register with a clear top byte says exactly what it came
from (`crcByte_eq_iff`).
-/

namespace Inac
namespace Lib

variable {w : Nat} (poly : BitVec w)

/-- One bit is shifted out. -/
def crcBit (c : BitVec w) : BitVec w := (c >>> 1) ^^^ (if c.getLsbD 0 then poly else 0#w)

/-- `k` bits are shifted out. -/
def crcBits : Nat → BitVec w → BitVec w
  | 0, c => c
  | k + 1, c => crcBit poly (crcBits k c)

def crcByte (c : BitVec w) (b : UInt8) : BitVec w := crcBits poly 8 (c ^^^ b.toBitVec.setWidth w)

def crcBytes (c : BitVec w) (bytes : List UInt8) : BitVec w := bytes.foldl (crcByte poly) c

@[simp] theorem crcBytes_nil (c : BitVec w) : crcBytes poly c [] = c := rfl

@[simp] theorem crcBytes_cons (c : BitVec w) (b : UInt8) (bytes : List UInt8) :
    crcBytes poly c (b :: bytes) = crcBytes poly (crcByte poly c b) bytes := rfl

theorem crcBytes_append (c : BitVec w) (as bs : List UInt8) :
    crcBytes poly c (as ++ bs) = crcBytes poly (crcBytes poly c as) bs := List.foldl_append

section Undo
variable {poly} (hpoly : poly.msb = true)
include hpoly

/-- The bit shifted out is the top bit of what is left. -/
theorem crcBit_msb (c : BitVec w) : (crcBit poly c).msb = c.getLsbD 0 := by
  have hshift : (c >>> 1).msb = false := by rw [BitVec.msb_ushiftRight]; simp
  cases hc : c.getLsbD 0 <;> simp [crcBit, hc, hshift, hpoly]

theorem crcBit_injective : Function.Injective (crcBit poly) := by
  intro c c' h
  have hlow : c.getLsbD 0 = c'.getLsbD 0 := by
    rw [← crcBit_msb hpoly c, ← crcBit_msb hpoly c', h]
  have hshift : c >>> 1 = c' >>> 1 := by
    unfold crcBit at h
    rw [hlow] at h
    exact (BitVec.xor_left_inj _).mp h
  apply BitVec.eq_of_getLsbD_eq
  intro i _
  cases i with
  | zero => exact hlow
  | succ i =>
    have hbit := congrArg (fun x : BitVec w => x.getLsbD i) hshift
    simpa [BitVec.getLsbD_ushiftRight, Nat.add_comm] using hbit

theorem crcBits_injective (k : Nat) : Function.Injective (crcBits poly k) := by
  induction k with
  | zero => exact fun _ _ h => h
  | succ k ih => exact fun _ _ h => ih (crcBit_injective hpoly h)

theorem crcBytes_injective (bytes : List UInt8) :
    Function.Injective fun c => crcBytes poly c bytes := by
  induction bytes with
  | nil => exact fun _ _ h => h
  | cons b bytes ih =>
    intro c c' h
    have hbyte : crcByte poly c b = crcByte poly c' b := ih h
    exact (BitVec.xor_left_inj _).mp (crcBits_injective hpoly 8 hbyte)

end Undo

theorem crcBit_even {c : BitVec w} (hc : c.getLsbD 0 = false) :
    c.toNat = 2 * (crcBit poly c).toNat := by
  have heven : c.toNat % 2 = 0 := by
    rw [BitVec.getLsbD, Nat.testBit_zero] at hc
    have := Nat.mod_two_eq_zero_or_one c.toNat
    simp only [decide_eq_false_iff_not] at hc
    omega
  have hbit : crcBit poly c = c >>> 1 := by simp [crcBit, hc]
  rw [hbit, BitVec.toNat_ushiftRight, Nat.shiftRight_eq_div_pow]
  omega

/-- `k` bits that are clear are shifted out unchanged. -/
theorem crcBits_of_clear {k r : Nat} {c : BitVec w} (hc : c.toNat = r * 2 ^ k) :
    (crcBits poly k c).toNat = r := by
  induction k generalizing r with
  | zero => rw [crcBits, hc, Nat.pow_zero, Nat.mul_one]
  | succ k ih =>
    have hk : (crcBits poly k c).toNat = r * 2 := ih (by rw [hc, Nat.pow_succ]; ring)
    have hlow : (crcBits poly k c).getLsbD 0 = false := by
      rw [BitVec.getLsbD, hk, Nat.testBit_zero]
      simp
    have heven := crcBit_even poly hlow
    rw [crcBits]
    omega

/-- A register with `k` clear top bits came from one with `k` clear low bits. -/
theorem clear_of_crcBits {poly : BitVec w} (hpoly : poly.msb = true) {k : Nat} {c : BitVec w}
    (hk : k ≤ w) (hc : (crcBits poly k c).toNat < 2 ^ (w - k)) :
    c.toNat = (crcBits poly k c).toNat * 2 ^ k := by
  induction k with
  | zero => rw [crcBits, Nat.pow_zero, Nat.mul_one]
  | succ k ih =>
    rw [crcBits] at hc ⊢
    have hpow : 2 ^ (w - k) = 2 * 2 ^ (w - (k + 1)) := by
      rw [← Nat.pow_succ']; congr 1; omega
    have hle : 2 ^ (w - k) ≤ 2 ^ w := Nat.pow_le_pow_right (by decide) (Nat.sub_le w k)
    have hlow : (crcBits poly k c).getLsbD 0 = false := by
      rw [← crcBit_msb hpoly, BitVec.msb_eq_false_iff_two_mul_lt]
      omega
    have heven := crcBit_even poly hlow
    have hprev := ih (by omega) (by omega)
    rw [hprev, heven, Nat.pow_succ]
    ring

/-- **A clear top byte.** A register below `2 ^ (w - 8)` was reached with a byte exactly from the
    register that holds it one byte higher, over that byte. -/
theorem crcByte_eq_iff {poly : BitVec w} (hpoly : poly.msb = true) (hw : 8 ≤ w) {c : BitVec w}
    {b : UInt8} {r : Nat} (hr : r < 2 ^ (w - 8)) :
    (crcByte poly c b).toNat = r ↔ c.toNat = r * 256 + b.toNat := by
  have hb : b.toNat < 256 := b.toNat_lt
  have hbw : (b.toBitVec.setWidth w).toNat = b.toNat := by
    rw [BitVec.toNat_setWidth]
    refine Nat.mod_eq_of_lt (Nat.lt_of_lt_of_le hb ?_)
    exact Nat.pow_le_pow_right (n := 2) (by decide) hw
  -- adding the byte to the register is a sum where the register's low byte is clear
  have hxor : (c ^^^ b.toBitVec.setWidth w).toNat = r * 2 ^ 8 ↔ c.toNat = r * 256 + b.toNat := by
    rw [BitVec.toNat_xor, hbw]
    have hdiv := Nat.xor_div_two_pow (a := c.toNat) (b := b.toNat) (n := 8)
    have hmod := Nat.xor_mod_two_pow (a := c.toNat) (b := b.toNat) (n := 8)
    have hb0 : b.toNat / 2 ^ 8 = 0 := Nat.div_eq_of_lt hb
    have hb1 : b.toNat % 2 ^ 8 = b.toNat := Nat.mod_eq_of_lt hb
    rw [hb0, Nat.xor_zero] at hdiv
    rw [hb1] at hmod
    constructor
    · intro h
      rw [h, Nat.mul_mod_left] at hmod
      have hlow : c.toNat % 2 ^ 8 = b.toNat := Nat.xor_eq_zero_iff.mp hmod.symm
      omega
    · intro h
      have hlow : c.toNat % 2 ^ 8 = b.toNat := by omega
      rw [hlow, Nat.xor_self] at hmod
      omega
  rw [← hxor, crcByte]
  constructor
  · intro h
    have := clear_of_crcBits hpoly hw (by rw [h]; exact hr)
    rw [this, h]
  · exact crcBits_of_clear poly

/-! ## A table of the low bits

That is how eight steps become one: the table has what eight bits leave. -/

theorem crcBit_xor (x y : BitVec w) : crcBit poly (x ^^^ y) = crcBit poly x ^^^ crcBit poly y := by
  have hgen : (if (x ^^^ y).getLsbD 0 then poly else 0#w) =
      (if x.getLsbD 0 then poly else 0#w) ^^^ (if y.getLsbD 0 then poly else 0#w) := by
    rw [BitVec.getLsbD_xor]
    cases x.getLsbD 0 <;> cases y.getLsbD 0 <;> simp
  rw [crcBit, crcBit, crcBit, hgen, BitVec.ushiftRight_xor_distrib]
  ac_rfl

theorem crcBits_xor (k : Nat) (x y : BitVec w) :
    crcBits poly k (x ^^^ y) = crcBits poly k x ^^^ crcBits poly k y := by
  induction k with
  | zero => rfl
  | succ k ih => rw [crcBits, crcBits, crcBits, ih, crcBit_xor]

/-- A word is its low bits and the others. -/
theorem low_xor_high (x : BitVec w) (k : Nat) :
    x = BitVec.ofNat w (x.toNat % 2 ^ k) ^^^ ((x >>> k) <<< k) := by
  apply BitVec.eq_of_getLsbD_eq
  intro i hi
  rw [BitVec.getLsbD_xor, BitVec.getLsbD_ofNat, Nat.testBit_mod_two_pow, BitVec.getLsbD_shiftLeft,
    BitVec.getLsbD_ushiftRight]
  by_cases hk : i < k
  · simp [hi, hk, BitVec.getLsbD]
  · have hsum : k + (i - k) = i := by omega
    simp [hi, hk, hsum]

/-- **Shifting out bits by a table** of what the low ones leave: the others move down. -/
theorem crcBits_eq_low (k : Nat) (x : BitVec w) :
    crcBits poly k x = crcBits poly k (BitVec.ofNat w (x.toNat % 2 ^ k)) ^^^ (x >>> k) := by
  have hhigh : crcBits poly k ((x >>> k) <<< k) = x >>> k := by
    apply BitVec.eq_of_toNat_eq
    refine crcBits_of_clear poly ?_
    have hle : x.toNat / 2 ^ k * 2 ^ k ≤ x.toNat := Nat.div_mul_le_self ..
    rw [BitVec.toNat_shiftLeft, BitVec.toNat_ushiftRight, Nat.shiftRight_eq_div_pow,
      Nat.shiftLeft_eq, Nat.mod_eq_of_lt (Nat.lt_of_le_of_lt hle x.isLt)]
  conv_lhs => rw [low_xor_high x k, crcBits_xor, hhigh]

end Lib
end Inac
