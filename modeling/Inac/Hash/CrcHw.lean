import Mathlib.Algebra.Ring.Nat
import Inac.Hashtable.Defs
import Inac.Lib.Crc

/-!
# The CRC hash functions of `src/hash.c`

`ina_hash_32_crc_hw` and `ina_hash_64_crc_hw` feed a buffer to the CRC-32C instructions of SSE4.2:
single bytes until the address is a multiple of eight, then words, then what is left of the buffer
in halves and bytes. How the buffer is cut therefore depends on its address, and the result should
not.

An instruction is the CRC-32C step of the bytes of its operand, in memory order. The loops for the
rest of the buffer cast the register to the type of the operand first, which for the short types
throws its high bits away. This file models the functions and says for which seeds and bytes the
address shows.

How the buffer is cut decides in which operand a byte comes, and so whether the register was cast
before it. A cast loses nothing if the bits that go are zero already. So the condition is about the
register that the bytes before the last ones lead to, and it can be said with the bit by bit CRC
alone.
-/

namespace Inac
namespace Hash

open Lib

/-! ## The instructions

Each is a loop over the bytes of its operand. -/

/-- The generator of CRC-32C, reflected. -/
def crc32cPoly : BitVec 32 := 0x82F63B78#32

/-- `_mm_crc32_u8` to `_mm_crc32_u64`, on a register of which the low 32 bits count. -/
def mmCrc32 {W : Nat} (crc : BitVec W) (operand : List UInt8) : BitVec 32 :=
  crcBytes crc32cPoly (crc.setWidth 32) operand

/-! ## The functions

`W` is the width of the variable `crc`: 32 in the one, 64 in the other. -/

def crcAlignMask : Nat := 7  -- `__INA_HASH_CRC_ALIGN_MASK`

/-- The loop that aligns the input: the register and the bytes that are left. -/
def alignInput {W : Nat} : Nat → BitVec W → List UInt8 → BitVec W × List UInt8
  | _, crc, [] => (crc, [])
  | addr, crc, b :: buf =>
    if addr &&& crcAlignMask ≠ 0 then alignInput (addr + 1) ((mmCrc32 crc [b]).setWidth W) buf
    else (crc, b :: buf)

/-- `__INA_HASH_CRC_CALC_CRC` with a type of `size` bytes and a cast to `cast` bits; `fuel` bounds
    the number of rounds. -/
def calcCrcLoop {W : Nat} (size cast : Nat) : Nat → BitVec W → List UInt8 → BitVec W × List UInt8
  | 0, crc, buf => (crc, buf)
  | fuel + 1, crc, buf =>
    if size ≤ buf.length then
      calcCrcLoop size cast fuel ((mmCrc32 (crc.setWidth cast) (buf.take size)).setWidth W)
        (buf.drop size)
    else (crc, buf)

/-- Each round takes a byte at least, so the length of the buffer is fuel enough. -/
def calcCrc {W : Nat} (size cast : Nat) (s : BitVec W × List UInt8) : BitVec W × List UInt8 :=
  calcCrcLoop size cast s.2.length s.1 s.2

def inaHash32CrcHw (hash : UInt32) (addr : Nat) (data : List UInt8) : UInt32 :=
  let crc := hash.toBitVec ^^^ 0xFFFFFFFF#32
  let s := alignInput addr crc data
  let s := calcCrc 4 32 s
  let s := calcCrc 2 16 s
  let s := calcCrc 1 8 s
  ⟨s.1 ^^^ 0xFFFFFFFF#32⟩

/-- On `INA_CPU_X86_64`. -/
def inaHash64CrcHw (hash : UInt64) (addr : Nat) (data : List UInt8) : UInt64 :=
  let s := alignInput addr hash.toBitVec data
  let s := calcCrc 8 64 s
  let s := calcCrc 4 32 s
  let s := calcCrc 2 16 s
  let s := calcCrc 1 8 s
  ⟨s.1⟩

/-! ## What the loops compute

Only the low half of the register counts for the next step, so each loop is described by the low
half it leaves and by the bytes it leaves. -/

/-- `(cast) crc` of a register, as a register again. -/
def castTo (cast : Nat) (c : BitVec 32) : BitVec 32 := (c.setWidth cast).setWidth 32

/-- `crc` holds a 32-bit value. -/
def Narrow {W : Nat} (crc : BitVec W) : Prop := (crc.setWidth 32).setWidth W = crc

/-- From `s` to `s'` nothing happened, or the register is a 32-bit value now. -/
def Settled {W : Nat} (s s' : BitVec W × List UInt8) : Prop := s' = s ∨ Narrow s'.1

theorem Settled.trans {W : Nat} {s t u : BitVec W × List UInt8} (hst : Settled s t)
    (htu : Settled t u) : Settled s u := by
  rcases htu with rfl | hu
  · exact hst
  · exact .inr hu

theorem castTo_toNat {cast : Nat} {c : BitVec 32} (hcast : cast ≤ 32) :
    (castTo cast c).toNat = c.toNat % 2 ^ cast := by
  rw [castTo, BitVec.toNat_setWidth, BitVec.toNat_setWidth]
  refine Nat.mod_eq_of_lt (Nat.lt_of_lt_of_le (Nat.mod_lt _ (Nat.two_pow_pos cast)) ?_)
  exact Nat.pow_le_pow_right (by decide) hcast

theorem mmCrc32_cast {W cast : Nat} (hcast : cast ≤ 32) (crc : BitVec W) (operand : List UInt8) :
    mmCrc32 (crc.setWidth cast) operand =
      crcBytes crc32cPoly (castTo cast (crc.setWidth 32)) operand := by
  rw [mmCrc32, castTo, BitVec.setWidth_setWidth_of_le _ hcast]

/-- The last bytes, fewer than four, on a register with this low half. -/
def tailCrc (c : BitVec 32) : List UInt8 → BitVec 32
  | [z] => crcBytes crc32cPoly (castTo 8 c) [z]
  | [y, z] => crcBytes crc32cPoly (castTo 16 c) [y, z]
  | [x, y, z] =>
    crcBytes crc32cPoly (castTo 8 (crcBytes crc32cPoly (castTo 16 c) [x, y])) [z]
  | _ => c

/-- From `s` to `s'` the register took in whole words of four bytes. -/
def Ate {W : Nat} (s s' : BitVec W × List UInt8) : Prop :=
  ∃ words, s.2 = words ++ s'.2 ∧ 4 ∣ words.length ∧
    s'.1.setWidth 32 = crcBytes crc32cPoly (s.1.setWidth 32) words

theorem Ate.refl {W : Nat} (s : BitVec W × List UInt8) : Ate s s := ⟨[], rfl, ⟨0, rfl⟩, rfl⟩

theorem Ate.trans {W : Nat} {s t u : BitVec W × List UInt8} (hst : Ate s t) (htu : Ate t u) :
    Ate s u := by
  obtain ⟨v, hs, hv, hlow⟩ := hst
  obtain ⟨w, ht, hw, hlow'⟩ := htu
  refine ⟨v ++ w, ?_, ?_, ?_⟩
  · rw [hs, ht, List.append_assoc]
  · rw [List.length_append]; exact Nat.dvd_add hv hw
  · rw [hlow', hlow, crcBytes_append]

/-- With the length as fuel the loop ends with less than a word. -/
theorem calcCrcLoop_length {W size cast : Nat} (hsize : 0 < size) {fuel : Nat} {crc : BitVec W}
    {buf : List UInt8} (hfuel : buf.length ≤ fuel) :
    (calcCrcLoop size cast fuel crc buf).2.length < size := by
  induction fuel generalizing crc buf with
  | zero => exact Nat.lt_of_le_of_lt hfuel hsize
  | succ fuel ih =>
    rw [calcCrcLoop]
    by_cases hlen : size ≤ buf.length
    · rw [if_pos hlen]
      refine ih ?_
      rw [List.length_drop]
      omega
    · rw [if_neg hlen]
      exact Nat.lt_of_not_le hlen

section Loops
variable {W : Nat} (hW : 32 ≤ W)
include hW

theorem setWidth_wide (c : BitVec 32) : (c.setWidth W).setWidth 32 = c :=
  BitVec.setWidth_setWidth_of_le _ hW

theorem narrow_setWidth (c : BitVec 32) : Narrow (c.setWidth W) := by
  unfold Narrow
  rw [setWidth_wide hW]

/-- Aligning takes one byte at a time, up to the next multiple of eight. -/
theorem alignInput_eq (addr : Nat) (crc : BitVec W) (data : List UInt8) :
    (alignInput addr crc data).1.setWidth 32 =
        crcBytes crc32cPoly (crc.setWidth 32) (data.take ((8 - addr % 8) % 8)) ∧
      (alignInput addr crc data).2 = data.drop ((8 - addr % 8) % 8) := by
  induction data generalizing addr crc with
  | nil => simp [alignInput]
  | cons b buf ih =>
    have hmask : addr &&& crcAlignMask = addr % 8 := Nat.and_two_pow_sub_one_eq_mod addr 3
    rw [alignInput, hmask]
    by_cases haddr : addr % 8 = 0
    · rw [if_neg (by simpa using haddr), haddr]
      exact ⟨rfl, rfl⟩
    · rw [if_pos haddr]
      have hk : (8 - addr % 8) % 8 = (8 - (addr + 1) % 8) % 8 + 1 := by omega
      obtain ⟨hlow, hrest⟩ := ih (addr + 1) ((mmCrc32 crc [b]).setWidth W)
      rw [hk, List.take_succ_cons, List.drop_succ_cons]
      refine ⟨?_, hrest⟩
      rw [hlow, setWidth_wide hW]
      rfl

/-- A loop whose cast keeps the low half eats whole words. -/
theorem calcCrcLoop_ate {size cast : Nat} (hsize : 4 ∣ size) (hcast : 32 ≤ cast) (fuel : Nat)
    (crc : BitVec W) (buf : List UInt8) :
    Ate (crc, buf) (calcCrcLoop size cast fuel crc buf) := by
  induction fuel generalizing crc buf with
  | zero => exact Ate.refl _
  | succ fuel ih =>
    rw [calcCrcLoop]
    by_cases hlen : size ≤ buf.length
    · rw [if_pos hlen]
      refine Ate.trans ?_ (ih _ _)
      refine ⟨buf.take size, (List.take_append_drop size buf).symm, ?_, ?_⟩
      · rw [List.length_take_of_le hlen]; exact hsize
      · rw [setWidth_wide hW, mmCrc32, BitVec.setWidth_setWidth_of_le _ hcast]
    · rw [if_neg hlen]
      exact Ate.refl _

theorem calcCrc_ate {size cast : Nat} (hsize : 4 ∣ size) (hcast : 32 ≤ cast)
    (s : BitVec W × List UInt8) : Ate s (calcCrc size cast s) :=
  calcCrcLoop_ate hW hsize hcast s.2.length s.1 s.2

theorem calcCrc_tail {s : BitVec W × List UInt8} (hrest : s.2.length < 4) :
    (calcCrc 1 8 (calcCrc 2 16 s)).1.setWidth 32 = tailCrc (s.1.setWidth 32) s.2 ∧
      (calcCrc 1 8 (calcCrc 2 16 s)).2 = [] := by
  obtain ⟨crc, rest⟩ := s
  match rest, hrest with
  | [], _ => exact ⟨rfl, rfl⟩
  | [z], _ =>
    simp [calcCrc, calcCrcLoop, tailCrc, mmCrc32_cast, setWidth_wide hW]
  | [y, z], _ =>
    simp [calcCrc, calcCrcLoop, tailCrc, mmCrc32_cast, setWidth_wide hW]
  | [x, y, z], _ =>
    simp [calcCrc, calcCrcLoop, tailCrc, mmCrc32_cast, setWidth_wide hW]

theorem alignInput_settled (addr : Nat) (crc : BitVec W) (data : List UInt8) :
    Settled (crc, data) (alignInput addr crc data) := by
  induction data generalizing addr crc with
  | nil => exact .inl rfl
  | cons b buf ih =>
    rw [alignInput]
    by_cases haddr : addr &&& crcAlignMask ≠ 0
    · rw [if_pos haddr]
      have hstep : Settled (crc, b :: buf) ((mmCrc32 crc [b]).setWidth W, buf) :=
        .inr (narrow_setWidth hW _)
      exact hstep.trans (ih _ _)
    · rw [if_neg haddr]
      exact .inl rfl

theorem calcCrcLoop_settled (size cast fuel : Nat) (crc : BitVec W) (buf : List UInt8) :
    Settled (crc, buf) (calcCrcLoop size cast fuel crc buf) := by
  induction fuel generalizing crc buf with
  | zero => exact .inl rfl
  | succ fuel ih =>
    rw [calcCrcLoop]
    by_cases hlen : size ≤ buf.length
    · rw [if_pos hlen]
      have hstep : Settled (crc, buf)
          ((mmCrc32 (crc.setWidth cast) (buf.take size)).setWidth W, buf.drop size) :=
        .inr (narrow_setWidth hW _)
      exact hstep.trans (ih _ _)
    · rw [if_neg hlen]
      exact .inl rfl

end Loops

/-! ## What the functions compute

The bytes up to the last three or fewer are taken in without loss, and those by the loops that cast.
`cutCrc` says with how many of them. -/

/-- The register when the last `r` bytes are left to the loops for short operands. -/
def cutCrc (c : BitVec 32) (data : List UInt8) (r : Nat) : BitVec 32 :=
  tailCrc (crcBytes crc32cPoly c (data.take (data.length - r))) (data.drop (data.length - r))

/-- How many bytes are left to them, for data at an address. -/
def cutAt (addr : Nat) (data : List UInt8) : Nat :=
  (data.length - (8 - addr % 8) % 8) % 4

theorem cutAt_le (addr : Nat) (data : List UInt8) : cutAt addr data ≤ data.length := by
  unfold cutAt
  omega

theorem cutCrc_append (c : BitVec 32) (front rest : List UInt8) :
    cutCrc c (front ++ rest) rest.length = tailCrc (crcBytes crc32cPoly c front) rest := by
  rw [cutCrc, List.length_append, Nat.add_sub_cancel, List.take_left, List.drop_left]

/-- Once the data is aligned and its whole words are taken in, the bytes left are as many as its
    length says. -/
theorem cutCrc_of_ate {W : Nat} (hW : 32 ≤ W) {addr : Nat} {crc : BitVec W} {data : List UInt8}
    {s : BitVec W × List UInt8} (hate : Ate (alignInput addr crc data) s)
    (hrest : s.2.length < 4) :
    (calcCrc 1 8 (calcCrc 2 16 s)).1.setWidth 32 =
      cutCrc (crc.setWidth 32) data (cutAt addr data) := by
  obtain ⟨hlow, hleft⟩ := alignInput_eq hW addr crc data
  obtain ⟨words, hdata, hdvd, hwords⟩ := hate
  rw [hleft] at hdata
  have hlen := congrArg List.length hdata
  rw [List.length_drop, List.length_append] at hlen
  have hcut : cutAt addr data = s.2.length := by
    unfold cutAt
    omega
  have hsplit : data = (data.take ((8 - addr % 8) % 8) ++ words) ++ s.2 := by
    rw [List.append_assoc, ← hdata, List.take_append_drop]
  rw [(calcCrc_tail hW hrest).1, hwords, hlow, hcut, ← crcBytes_append, ← cutCrc_append, ← hsplit]

theorem hash32CrcHw_eq (hash : UInt32) (addr : Nat) (data : List UInt8) :
    (inaHash32CrcHw hash addr data).toBitVec =
      cutCrc (hash.toBitVec ^^^ 0xFFFFFFFF#32) data (cutAt addr data) ^^^ 0xFFFFFFFF#32 := by
  have hate := calcCrc_ate (Nat.le_refl 32) (by decide : 4 ∣ 4) (by decide : 32 ≤ 32)
    (alignInput addr (hash.toBitVec ^^^ 0xFFFFFFFF#32) data)
  have hcut := cutCrc_of_ate (Nat.le_refl 32) hate
    (calcCrcLoop_length (by decide) (Nat.le_refl _))
  rw [BitVec.setWidth_eq, BitVec.setWidth_eq] at hcut
  rw [← hcut]
  rfl

/-- The 64-bit function returns the 32-bit register, once it has taken a byte in. -/
theorem hash64CrcHw_eq (hash : UInt64) (addr : Nat) {data : List UInt8} (hdata : data ≠ []) :
    (inaHash64CrcHw hash addr data).toBitVec =
      (cutCrc (hash.toBitVec.setWidth 32) data (cutAt addr data)).setWidth 64 := by
  have hW : 32 ≤ 64 := by decide
  have hate8 := calcCrc_ate hW (by decide : 4 ∣ 8) (by decide : 32 ≤ 64)
    (alignInput addr hash.toBitVec data)
  have hate4 := calcCrc_ate hW (by decide : 4 ∣ 4) (by decide : 32 ≤ 32)
    (calcCrc 8 64 (alignInput addr hash.toBitVec data))
  have hrest : (calcCrc 4 32 (calcCrc 8 64 (alignInput addr hash.toBitVec data))).2.length < 4 :=
    calcCrcLoop_length (by decide) (Nat.le_refl _)
  have hcut := cutCrc_of_ate hW (hate8.trans hate4) hrest
  -- nothing is left of the data at the end, so some loop has stored a 32-bit register
  have hsettled : Settled (hash.toBitVec, data) (calcCrc 1 8 (calcCrc 2 16 (calcCrc 4 32
      (calcCrc 8 64 (alignInput addr hash.toBitVec data))))) :=
    ((((alignInput_settled hW addr _ _).trans (calcCrcLoop_settled hW 8 64 _ _ _)).trans
      (calcCrcLoop_settled hW 4 32 _ _ _)).trans (calcCrcLoop_settled hW 2 16 _ _ _)).trans
      (calcCrcLoop_settled hW 1 8 _ _ _)
  have hnarrow : Narrow (inaHash64CrcHw hash addr data).toBitVec := by
    rcases hsettled with hsame | hnarrow
    · have hdone := (calcCrc_tail hW hrest).2
      rw [hsame] at hdone
      exact absurd hdone hdata
    · exact hnarrow
  rw [← hcut]
  exact hnarrow.symm

/-! ## When the address shows

By the length of the data. With fewer than three bytes not every cut is possible, so these are cases
of their own. -/

/-- Every cut that some address makes gives the same as no cut. -/
theorem cut_cases {data : List UInt8} {r : Nat} (hr : r ≤ 3) (hn : r ≤ data.length) :
    ∃ addr, cutAt addr data = r := by
  refine ⟨8 - (data.length - r) % 4, ?_⟩
  unfold cutAt
  omega

theorem poly_msb : crc32cPoly.msb = true := by decide

theorem cast_crc_eq_iff {cast : Nat} (hcast : cast ≤ 32) {c : BitVec 32} {bytes : List UInt8} :
    crcBytes crc32cPoly (castTo cast c) bytes = crcBytes crc32cPoly c bytes ↔
      c.toNat < 2 ^ cast := by
  constructor
  · intro h
    have hc : castTo cast c = c := crcBytes_injective poly_msb bytes h
    rw [← hc, castTo_toNat hcast]
    exact Nat.mod_lt _ (Nat.two_pow_pos cast)
  · intro h
    have hc : castTo cast c = c := by
      apply BitVec.eq_of_toNat_eq
      rw [castTo_toNat hcast, Nat.mod_eq_of_lt h]
    rw [hc]

/-- The register before the last two bytes, where it is small after them. -/
theorem crc_two_eq_iff {c : BitVec 32} {x y : UInt8} {r : Nat} (hr : r < 2 ^ 16) :
    (crcBytes crc32cPoly c [x, y]).toNat = r ↔ c.toNat = (r * 256 + y.toNat) * 256 + x.toNat := by
  have hy : y.toNat < 256 := y.toNat_lt
  have hlast : (crcBytes crc32cPoly c [x, y]).toNat = r ↔
      (crcByte crc32cPoly c x).toNat = r * 256 + y.toNat :=
    crcByte_eq_iff poly_msb (by decide) (by omega)
  rw [hlast]
  exact crcByte_eq_iff poly_msb (by decide) (by omega)

theorem lt_of_crc_lt {c : BitVec 32} {y : UInt8}
    (h : (crcBytes crc32cPoly c [y]).toNat < 2 ^ 8) : c.toNat < 2 ^ 16 := by
  have hy : y.toNat < 256 := y.toNat_lt
  have hc : c.toNat = (crcBytes crc32cPoly c [y]).toNat * 256 + y.toNat :=
    (crcByte_eq_iff poly_msb (by decide) (by omega)).mp rfl
  omega

/-- Both casts of the last three bytes are harmless exactly when the register is zero before the
    last one. -/
theorem tail_three_iff {c : BitVec 32} {x y z : UInt8}
    (hsmall : (crcBytes crc32cPoly c [x, y]).toNat < 2 ^ 8) :
    tailCrc c [x, y, z] = crcBytes crc32cPoly c [x, y, z] ↔
      crcBytes crc32cPoly c [x, y] = 0 := by
  have hx : x.toNat < 256 := x.toNat_lt
  have hy : y.toNat < 256 := y.toNat_lt
  have hc := (crc_two_eq_iff (by omega)).mp (Eq.refl (crcBytes crc32cPoly c [x, y]).toNat)
  -- the 16-bit cast keeps just what the two bytes shift out again
  have hcast : crcBytes crc32cPoly (castTo 16 c) [x, y] = 0#32 := by
    apply BitVec.eq_of_toNat_eq
    refine (crc_two_eq_iff (r := 0) (by decide)).mpr ?_
    rw [castTo_toNat (by decide), hc]
    omega
  have hzero : castTo 8 0#32 = 0#32 := rfl
  have hthree : crcBytes crc32cPoly c [x, y, z] =
      crcBytes crc32cPoly (crcBytes crc32cPoly c [x, y]) [z] := rfl
  rw [tailCrc, hcast, hzero, hthree]
  constructor
  · intro h
    exact (crcBytes_injective poly_msb [z] h).symm
  · intro h
    rw [h]
    rfl

/-- No address shows for this seed and these bytes: there are none, or the register before the last
    byte has nothing for the casts to throw away. -/
def AlignFree (c : BitVec 32) (data : List UInt8) : Prop :=
  data = [] ∨ (data.length ≤ 2 ∧ (crcBytes crc32cPoly c data.dropLast).toNat < 2 ^ 8) ∨
    crcBytes crc32cPoly c data.dropLast = 0

theorem cutCrc_zero (c : BitVec 32) (data : List UInt8) :
    cutCrc c data 0 = crcBytes crc32cPoly c data := by
  have h := cutCrc_append c data []
  rw [List.append_nil] at h
  exact h

theorem cutCrc_one_iff {c : BitVec 32} {front : List UInt8} {z : UInt8} :
    cutCrc c (front ++ [z]) 1 = crcBytes crc32cPoly c (front ++ [z]) ↔
      (crcBytes crc32cPoly c front).toNat < 2 ^ 8 := by
  have hcut : cutCrc c (front ++ [z]) 1 = tailCrc (crcBytes crc32cPoly c front) [z] :=
    cutCrc_append c front [z]
  rw [hcut, crcBytes_append]
  exact cast_crc_eq_iff (by decide)

theorem cutCrc_two_iff {c : BitVec 32} {front : List UInt8} {y z : UInt8} :
    cutCrc c (front ++ [y, z]) 2 = crcBytes crc32cPoly c (front ++ [y, z]) ↔
      (crcBytes crc32cPoly c front).toNat < 2 ^ 16 := by
  have hcut : cutCrc c (front ++ [y, z]) 2 = tailCrc (crcBytes crc32cPoly c front) [y, z] :=
    cutCrc_append c front [y, z]
  rw [hcut, crcBytes_append]
  exact cast_crc_eq_iff (by decide)

theorem cutCrc_three_iff {c : BitVec 32} {front : List UInt8} {x y z : UInt8}
    (hsmall : (crcBytes crc32cPoly c (front ++ [x, y])).toNat < 2 ^ 8) :
    cutCrc c (front ++ [x, y, z]) 3 = crcBytes crc32cPoly c (front ++ [x, y, z]) ↔
      crcBytes crc32cPoly c (front ++ [x, y]) = 0 := by
  have hcut : cutCrc c (front ++ [x, y, z]) 3 = tailCrc (crcBytes crc32cPoly c front) [x, y, z] :=
    cutCrc_append c front [x, y, z]
  rw [crcBytes_append] at hsmall ⊢
  rw [hcut, crcBytes_append]
  exact tail_three_iff hsmall

/-- With three bytes at least, all four cuts are made. -/
theorem cuts_long {c : BitVec 32} {front : List UInt8} {x y z : UInt8} :
    (∀ r, r ≤ 3 → cutCrc c (front ++ [x, y, z]) r = crcBytes crc32cPoly c (front ++ [x, y, z])) ↔
      crcBytes crc32cPoly c (front ++ [x, y]) = 0 := by
  have hone : front ++ [x, y, z] = front ++ [x, y] ++ [z] := by simp
  have htwo : front ++ [x, y, z] = front ++ [x] ++ [y, z] := by simp
  have hxy : front ++ [x, y] = front ++ [x] ++ [y] := by simp
  constructor
  · intro h
    have hsmall := h 1 (by decide)
    rw [hone, cutCrc_one_iff] at hsmall
    exact (cutCrc_three_iff hsmall).mp (h 3 (by decide))
  · intro hzero r hr
    have hsmall : (crcBytes crc32cPoly c (front ++ [x, y])).toNat < 2 ^ 8 := by
      rw [hzero]; decide
    match r, hr with
    | 0, _ => exact cutCrc_zero c _
    | 1, _ => rw [hone]; exact cutCrc_one_iff.mpr hsmall
    | 2, _ =>
      rw [hxy, crcBytes_append] at hsmall
      rw [htwo]
      exact cutCrc_two_iff.mpr (lt_of_crc_lt hsmall)
    | 3, _ => exact (cutCrc_three_iff hsmall).mpr hzero

theorem AlignFree.small {c : BitVec 32} {front : List UInt8} {z : UInt8}
    (h : AlignFree c (front ++ [z])) : (crcBytes crc32cPoly c front).toNat < 2 ^ 8 := by
  rw [AlignFree, List.dropLast_concat] at h
  rcases h with hnil | ⟨-, hsmall⟩ | hzero
  · exact absurd hnil (by simp)
  · exact hsmall
  · rw [hzero]; decide

/-- Of one byte or two, it is the cut in front of the last one that decides. -/
theorem AlignFree.of_short {c : BitVec 32} {front : List UInt8} {z : UInt8}
    (hlen : front.length ≤ 1)
    (hall : ∀ r, r ≤ 3 → r ≤ (front ++ [z]).length →
      cutCrc c (front ++ [z]) r = crcBytes crc32cPoly c (front ++ [z])) :
    AlignFree c (front ++ [z]) := by
  refine .inr (.inl ⟨?_, ?_⟩)
  · rw [List.length_append, List.length_singleton]; omega
  · rw [List.dropLast_concat]
    exact cutCrc_one_iff.mp (hall 1 (by decide) (by simp))

/-- All cuts that the length allows agree exactly on these bytes. -/
theorem cuts_agree_iff (c : BitVec 32) (data : List UInt8) :
    (∀ r, r ≤ 3 → r ≤ data.length → cutCrc c data r = crcBytes crc32cPoly c data) ↔
      AlignFree c data := by
  match h : data.reverse with
  | [] =>
    obtain rfl := List.reverse_eq_nil_iff.mp h
    refine ⟨fun _ => .inl rfl, ?_⟩
    intro _ r _ hr
    obtain rfl := Nat.le_zero.mp hr
    exact cutCrc_zero c []
  | [z] =>
    obtain rfl : data = [] ++ [z] := by rw [← List.reverse_reverse data, h]; rfl
    constructor
    · exact AlignFree.of_short (by simp)
    · intro hfree r _ hr
      match r, hr with
      | 0, _ => exact cutCrc_zero c _
      | 1, _ => exact cutCrc_one_iff.mpr hfree.small
  | [z, y] =>
    obtain rfl : data = [y] ++ [z] := by rw [← List.reverse_reverse data, h]; rfl
    constructor
    · exact AlignFree.of_short (by simp)
    · intro hfree r _ hr
      match r, hr with
      | 0, _ => exact cutCrc_zero c _
      | 1, _ => exact cutCrc_one_iff.mpr hfree.small
      | 2, _ =>
        have hc : (crcBytes crc32cPoly c []).toNat < 2 ^ 16 := by
          rw [crcBytes_nil]
          exact lt_of_crc_lt hfree.small
        exact cutCrc_two_iff.mpr hc
  | z :: y :: x :: front =>
    obtain rfl : data = front.reverse ++ [x, y, z] := by
      rw [← List.reverse_reverse data, h]; simp
    -- Three bytes or more: the cuts agree if the register is zero before the last one.
    have hlast : (front.reverse ++ [x, y, z]).dropLast = front.reverse ++ [x, y] := by simp
    have hlen : (front.reverse ++ [x, y, z]).length = front.length + 3 := by simp
    rw [AlignFree, hlast, hlen]
    constructor
    · intro hall
      exact .inr (.inr (cuts_long.mp fun r hr => hall r hr (by omega)))
    · intro hfree
      have hzero : crcBytes crc32cPoly c (front.reverse ++ [x, y]) = 0 := by
        rcases hfree with hnil | ⟨hshort, -⟩ | hzero
        · exact absurd hnil (by simp)
        · omega
        · exact hzero
      exact fun r hr _ => cuts_long.mpr hzero r hr

/-- Addresses make every cut, so they all give one register exactly when the cuts agree. -/
theorem address_free_iff (c : BitVec 32) (data : List UInt8) :
    (∀ a a', cutCrc c data (cutAt a data) = cutCrc c data (cutAt a' data)) ↔
      AlignFree c data := by
  rw [← cuts_agree_iff]
  constructor
  · intro h r hr hn
    obtain ⟨a, ha⟩ := cut_cases hr hn
    obtain ⟨a', ha'⟩ := cut_cases (Nat.zero_le 3) (Nat.zero_le data.length)
    have hcut := h a a'
    rw [ha, ha', cutCrc_zero] at hcut
    exact hcut
  · intro h a a'
    have hle : ∀ a, cutAt a data ≤ 3 := fun a => Nat.le_of_lt_succ (Nat.mod_lt _ (by decide))
    rw [h _ (hle a) (cutAt_le a data), h _ (hle a') (cutAt_le a' data)]

theorem hash32CrcHw_iff (hash : UInt32) (data : List UInt8) :
    (∀ a a', inaHash32CrcHw hash a data = inaHash32CrcHw hash a' data) ↔
      AlignFree (hash.toBitVec ^^^ 0xFFFFFFFF#32) data := by
  rw [← address_free_iff]
  refine forall_congr' fun a => forall_congr' fun a' => ?_
  rw [← UInt32.toBitVec_inj, hash32CrcHw_eq, hash32CrcHw_eq, BitVec.xor_left_inj]

theorem hash64CrcHw_iff (hash : UInt64) (data : List UInt8) :
    (∀ a a', inaHash64CrcHw hash a data = inaHash64CrcHw hash a' data) ↔
      AlignFree (hash.toBitVec.setWidth 32) data := by
  by_cases hdata : data = []
  · subst hdata
    exact ⟨fun _ => .inl rfl, fun _ _ _ => rfl⟩
  · rw [← address_free_iff]
    refine forall_congr' fun a => forall_congr' fun a' => ?_
    rw [← UInt64.toBitVec_inj, hash64CrcHw_eq hash a hdata, hash64CrcHw_eq hash a' hdata]
    constructor
    · intro h
      have hlow := congrArg (BitVec.setWidth 32) h
      rwa [setWidth_wide (by decide), setWidth_wide (by decide)] at hlow
    · intro h
      rw [h]

/-! ## Buckets

A bucket is the hash modulo the capacity, and two large capacities are enough to tell hashes apart.
-/

/-- Two 32-bit values that fall into one bucket for every capacity a table can have are equal. -/
theorem eq_of_buckets {x y : Nat} (hx : x < 2 ^ 32) (hy : y < 2 ^ 32)
    (h : ∀ capacity, 0 < capacity → capacity ≤ 2 ^ 31 - 1 → x % capacity = y % capacity) :
    x = y := by
  have hlast := h (2 ^ 31 - 1) (by decide) (by decide)
  have hprev := h (2 ^ 31 - 2) (by decide) (by decide)
  omega

/-- The bucket of a key, at the address it is passed at. -/
def bucket32 (addr capacity : Nat) (key : List UInt8) : Nat :=
  (Hashtable.HashFn.hash32 fun seed bytes => inaHash32CrcHw seed addr bytes).bucket capacity key

def bucket64 (addr capacity : Nat) (key : List UInt8) : Nat :=
  (Hashtable.HashFn.hash64 fun seed bytes => inaHash64CrcHw seed addr bytes).bucket capacity key

theorem bucket32_iff (key : List UInt8) :
    (∀ capacity, 0 < capacity → capacity ≤ 2 ^ 31 - 1 →
      ∀ a a', bucket32 a capacity key = bucket32 a' capacity key) ↔
      ∀ a a', inaHash32CrcHw 0 a key = inaHash32CrcHw 0 a' key := by
  constructor
  · intro h a a'
    refine UInt32.toNat_inj.mp (eq_of_buckets (UInt32.toNat_lt _) (UInt32.toNat_lt _) ?_)
    exact fun capacity h0 h1 => h capacity h0 h1 a a'
  · intro h capacity _ _ a a'
    exact congrArg (fun v => v.toNat % capacity) (h a a')

theorem bucket64_iff (key : List UInt8) :
    (∀ capacity, 0 < capacity → capacity ≤ 2 ^ 31 - 1 →
      ∀ a a', bucket64 a capacity key = bucket64 a' capacity key) ↔
      ∀ a a', inaHash64CrcHw 0 a key = inaHash64CrcHw 0 a' key := by
  constructor
  · intro h a a'
    by_cases hkey : key = []
    · subst hkey; rfl
    · have hlt : ∀ a, (inaHash64CrcHw 0 a key).toNat < 2 ^ 32 := by
        intro a
        rw [← UInt64.toNat_toBitVec, hash64CrcHw_eq 0 a hkey, BitVec.toNat_setWidth]
        exact Nat.lt_of_le_of_lt (Nat.mod_le _ _) (BitVec.isLt _)
      refine UInt64.toNat_inj.mp (eq_of_buckets (hlt a) (hlt a') ?_)
      exact fun capacity h0 h1 => h capacity h0 h1 a a'
  · intro h capacity _ _ a a'
    exact congrArg (fun v => v.toNat % capacity) (h a a')

/-- **When the address shows.** The hash of some bytes is the same at every address, and the key is
    found again in every table, exactly when there are no bytes, or the casts have nothing to throw
    away from the register before the last byte: at most its low byte is set where there are one or
    two bytes, and it is zero where there are more. -/
theorem crcHw_address_free_iff (data : List UInt8) :
    (∀ hash, (∀ a a', inaHash32CrcHw hash a data = inaHash32CrcHw hash a' data) ↔
      AlignFree (hash.toBitVec ^^^ 0xFFFFFFFF#32) data) ∧
    (∀ hash, (∀ a a', inaHash64CrcHw hash a data = inaHash64CrcHw hash a' data) ↔
      AlignFree (hash.toBitVec.setWidth 32) data) ∧
    ((∀ capacity, 0 < capacity → capacity ≤ 2 ^ 31 - 1 →
        ∀ a a', bucket32 a capacity data = bucket32 a' capacity data) ↔
      AlignFree 0xFFFFFFFF#32 data) ∧
    ((∀ capacity, 0 < capacity → capacity ≤ 2 ^ 31 - 1 →
        ∀ a a', bucket64 a capacity data = bucket64 a' capacity data) ↔
      AlignFree 0#32 data) := by
  refine ⟨fun hash => hash32CrcHw_iff hash data, fun hash => hash64CrcHw_iff hash data, ?_, ?_⟩
  · rw [bucket32_iff, hash32CrcHw_iff]
    exact Iff.rfl
  · rw [bucket64_iff, hash64CrcHw_iff]
    exact Iff.rfl

/-- The bytes `01 02 03` at two addresses: both functions, and the bucket of a table of 256. -/
theorem crcHw_address_shows :
    inaHash32CrcHw 0 0 [1, 2, 3] ≠ inaHash32CrcHw 0 5 [1, 2, 3] ∧
      inaHash64CrcHw 0 0 [1, 2, 3] ≠ inaHash64CrcHw 0 5 [1, 2, 3] ∧
      bucket32 0 256 [1, 2, 3] ≠ bucket32 5 256 [1, 2, 3] ∧
      bucket64 0 256 [1, 2, 3] ≠ bucket64 5 256 [1, 2, 3] := by
  decide

end Hash
end Inac
