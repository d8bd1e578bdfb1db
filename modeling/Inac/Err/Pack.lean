import Inac.Lib.Fields

/-!
# The packed return code (`include/libinac/error.h`)

An `ina_rc_t` is a word of 64 bits:

```
EVVVVVVV|RRRRRRRR|OOOOOOOO|OOOOOOOO|UUUUUUUU|AAAAAAAA|NSSSSSSS|SSSSSSSS
```

the error indicator, the API's version and revision, the error of the operating system, bits for the
user, and the message: an adjective, a negation flag and a subject. It is packed by `INA_RC_PACK`
and read by macros that shift and mask.

Two of these do not read what was packed. The mask of the version has three bits for a field of
seven, and `INA_RC_ERROR` gives `INA_MID_BITS`, which counts bits from one, a position counted from
zero, so that it reads nine bits from the top one of the subject on and misses the adjective's top
one.
-/

namespace Inac
namespace Rc

open Lib

/-! ## The code

The macros as they are written; what they read is cast to a `uint32_t`. -/

def rcBitE : Nat := 63
def rcBitV : Nat := 56
def rcBitR : Nat := 48
def rcBitO : Nat := 32
def rcBitU : Nat := 24
def rcBitC : Nat := 16
def rcBitN : Nat := 15
def rcBitS : Nat := 0

def inaRcEflag (rc : BitVec 64) : BitVec 32 := ((rc >>> rcBitE) &&& 0x1#64).setWidth 32

def inaRcVer (rc : BitVec 64) : BitVec 32 := ((rc >>> rcBitV) &&& 0x7#64).setWidth 32

def inaRcRev (rc : BitVec 64) : BitVec 32 := ((rc >>> rcBitR) &&& 0xFF#64).setWidth 32

def inaRcErrno (rc : BitVec 64) : BitVec 32 := ((rc >>> rcBitO) &&& 0xFFFF#64).setWidth 32

def inaRcUbits (rc : BitVec 64) : BitVec 32 := ((rc >>> rcBitU) &&& 0xFF#64).setWidth 32

def inaRcNflag (rc : BitVec 64) : BitVec 32 := ((rc >>> rcBitN) &&& 0x1#64).setWidth 32

def inaRcAdj (rc : BitVec 64) : BitVec 32 := ((rc >>> rcBitC) &&& 0xFF#64).setWidth 32

def inaRcSubject (rc : BitVec 64) : BitVec 32 := ((rc >>> rcBitS) &&& 0x7FFF#64).setWidth 32

/-- `INA_MID_BITS`. -/
def inaMidBits (number : BitVec 64) (k p : Nat) : BitVec 64 :=
  ((1#64 <<< k) - 1#64) &&& (number >>> (p - 1))

def inaRcError (rc : BitVec 64) : BitVec 32 :=
  (inaMidBits rc (rcBitU - rcBitN) rcBitN <<< (rcBitN - 1)).setWidth 32

def inaRcErrmsg (rc : BitVec 64) : BitVec 32 := (rc &&& 0xFFFFFF#64).setWidth 32

def inaErrError : BitVec 64 := 1#64 <<< rcBitE

/-- `ina_err_clear_rc`. -/
def inaErrClearRc (rc : BitVec 64) : BitVec 64 := rc &&& ~~~inaErrError

/-- `ina_err_set_ubits`: what becomes of the global return code. -/
def inaErrSetUbits (rc : BitVec 64) (ubits : BitVec 8) : BitVec 64 :=
  (rc &&& ~~~(((1#64 <<< 8) - 1#64) <<< rcBitU)) ||| (ubits.setWidth 64 <<< rcBitU)

/-- `INA_RC_PACK`, with the application's `INA_ERROR_VER` and `INA_ERROR_REV`. -/
def inaRcPack (errorVer errorRev x e : BitVec 64) : BitVec 64 :=
  inaErrError ||| (errorVer <<< rcBitV) ||| (errorRev <<< rcBitR) ||| (e <<< rcBitO) ||| x

/-! ## What is packed and what is read

The parts with the widths of the format, and what comes back of each. -/

/-- What a return code is packed from. -/
structure Parts where
  subject : BitVec 15
  nflag : BitVec 1
  code : BitVec 8
  ubits : BitVec 8
  errno : BitVec 16
  ver : BitVec 7
  rev : BitVec 8
  deriving DecidableEq, Repr

/-- The error and the subject, as `INA_RC_PACK` takes them. -/
def Parts.message (p : Parts) : BitVec 64 :=
  (p.subject.setWidth 64 <<< rcBitS) ||| (p.nflag.setWidth 64 <<< rcBitN) |||
    (p.code.setWidth 64 <<< rcBitC)

def Parts.pack (p : Parts) : BitVec 64 :=
  inaErrSetUbits
    (inaRcPack (p.ver.setWidth 64) (p.rev.setWidth 64) p.message (p.errno.setWidth 64)) p.ubits

/-- What the macros for one part read. -/
structure Read where
  subject : BitVec 32
  nflag : BitVec 32
  adj : BitVec 32
  ubits : BitVec 32
  errno : BitVec 32
  ver : BitVec 32
  rev : BitVec 32
  eflag : BitVec 32
  deriving DecidableEq, Repr

def unpack (rc : BitVec 64) : Read where
  subject := inaRcSubject rc
  nflag := inaRcNflag rc
  adj := inaRcAdj rc
  ubits := inaRcUbits rc
  errno := inaRcErrno rc
  ver := inaRcVer rc
  rev := inaRcRev rc
  eflag := inaRcEflag rc

/-- The parts themselves. -/
def Parts.read (p : Parts) : Read where
  subject := p.subject.setWidth 32
  nflag := p.nflag.setWidth 32
  adj := p.code.setWidth 32
  ubits := p.ubits.setWidth 32
  errno := p.errno.setWidth 32
  ver := p.ver.setWidth 32
  rev := p.rev.setWidth 32
  eflag := 1

/-- The macros read what was packed, and the two functions change one part only. -/
structure Parts.Right (p : Parts) : Prop where
  unpacked : unpack p.pack = p.read
  error : inaRcError p.pack = (p.nflag.setWidth 32 <<< 15) ||| (p.code.setWidth 32 <<< 16)
  errmsg : inaRcErrmsg p.pack =
    p.subject.setWidth 32 ||| (p.nflag.setWidth 32 <<< 15) ||| (p.code.setWidth 32 <<< 16)
  setUbits : ∀ u, unpack (inaErrSetUbits p.pack u) =
    { unpack p.pack with ubits := u.setWidth 32 }
  clearRc : unpack (inaErrClearRc p.pack) = { unpack p.pack with eflag := 0 }

/-! ## The macros as fields

A shift and a mask read a field of bits. Most of the work is in `Inac.Lib.Fields`. -/

theorem unpack_eq (rc : BitVec 64) : unpack rc = {
    subject := (rc.extractLsb' 0 15).setWidth 32
    nflag := (rc.extractLsb' 15 1).setWidth 32
    adj := (rc.extractLsb' 16 8).setWidth 32
    ubits := (rc.extractLsb' 24 8).setWidth 32
    errno := (rc.extractLsb' 32 16).setWidth 32
    ver := (rc.extractLsb' 56 3).setWidth 32
    rev := (rc.extractLsb' 48 8).setWidth 32
    eflag := (rc.extractLsb' 63 1).setWidth 32 } := by
  rw [← masked_eq_extract rc 0 15 32 (by decide), ← masked_eq_extract rc 15 1 32 (by decide),
    ← masked_eq_extract rc 16 8 32 (by decide), ← masked_eq_extract rc 24 8 32 (by decide),
    ← masked_eq_extract rc 32 16 32 (by decide), ← masked_eq_extract rc 56 3 32 (by decide),
    ← masked_eq_extract rc 48 8 32 (by decide), ← masked_eq_extract rc 63 1 32 (by decide)]
  rfl

theorem inaErrSetUbits_eq (rc : BitVec 64) (u : BitVec 8) :
    inaErrSetUbits rc u =
      (rc &&& ~~~((BitVec.allOnes 8).setWidth 64 <<< 24)) ||| (u.setWidth 64 <<< 24) := rfl

theorem inaErrClearRc_eq (rc : BitVec 64) :
    inaErrClearRc rc = rc &&& ~~~((BitVec.allOnes 1).setWidth 64 <<< 63) := rfl

theorem setUbits_extract_apart {s n : Nat} (h : Apart s n 24 8) (rc : BitVec 64) (u : BitVec 8) :
    (inaErrSetUbits rc u).extractLsb' s n = rc.extractLsb' s n := by
  rw [inaErrSetUbits_eq, BitVec.extractLsb'_or, extract_cleared_apart h, extract_shifted_apart h,
    BitVec.or_zero]

theorem setUbits_extract (rc : BitVec 64) (u : BitVec 8) :
    (inaErrSetUbits rc u).extractLsb' 24 8 = u := by
  rw [inaErrSetUbits_eq, BitVec.extractLsb'_or, extract_cleared, extract_shifted (by decide),
    BitVec.zero_or]

/-- **`ina_err_set_ubits`** changes the user bits only. -/
theorem unpack_setUbits (rc : BitVec 64) (u : BitVec 8) :
    unpack (inaErrSetUbits rc u) = { unpack rc with ubits := u.setWidth 32 } := by
  rw [unpack_eq, unpack_eq, setUbits_extract]
  simp (disch := decide) only [setUbits_extract_apart]

/-- **`ina_err_clear_rc`** changes the error indicator only. -/
theorem unpack_clearRc (rc : BitVec 64) :
    unpack (inaErrClearRc rc) = { unpack rc with eflag := 0 } := by
  rw [unpack_eq, unpack_eq, inaErrClearRc_eq, extract_cleared]
  simp (disch := decide) only [extract_cleared_apart]
  rfl

/-! ## What stands where

The places of the parts do not overlap, so packing puts each where the format says. -/

/-- The places of a return code that was packed. -/
structure Parts.Placed (p : Parts) (rc : BitVec 64) : Prop where
  subject : rc.extractLsb' 0 15 = p.subject
  nflag : rc.extractLsb' 15 1 = p.nflag
  code : rc.extractLsb' 16 8 = p.code
  ubits : rc.extractLsb' 24 8 = p.ubits
  errno : rc.extractLsb' 32 16 = p.errno
  rev : rc.extractLsb' 48 8 = p.rev
  ver : rc.extractLsb' 56 7 = p.ver
  eflag : rc.extractLsb' 63 1 = 1

theorem Parts.pack_placed (p : Parts) : p.Placed p.pack := by
  have heflag : inaErrError = (1#1).setWidth 64 <<< 63 := rfl
  constructor
  case ubits => exact setUbits_extract _ _
  all_goals
    rw [Parts.pack, setUbits_extract_apart (by decide), inaRcPack, Parts.message, heflag, rcBitV,
      rcBitR, rcBitO, rcBitS, rcBitN, rcBitC]
    simp (disch := decide) only [BitVec.extractLsb'_or, extract_shifted_apart, extract_shifted,
      BitVec.zero_or, BitVec.or_zero]
  rfl

section Placed

variable {p : Parts} {rc : BitVec 64} (hrc : p.Placed rc)
include hrc

/-- Three bits of the version are read. -/
theorem Parts.Placed.ver_low : rc.extractLsb' 56 3 = p.ver.setWidth 3 := by
  rw [← hrc.ver]
  apply BitVec.eq_of_getLsbD_eq
  intro i hi
  have hlt : i < 7 := by omega
  simp [hi, hlt]

theorem Parts.Placed.unpack_iff : unpack rc = p.read ↔ p.ver.toNat < 8 := by
  rw [unpack_eq, hrc.subject, hrc.nflag, hrc.code, hrc.ubits, hrc.errno, hrc.rev, hrc.eflag,
    hrc.ver_low]
  have hver : (p.ver.setWidth 3).setWidth 32 = p.ver.setWidth 32 ↔ p.ver.toNat < 8 := by
    have hlt := p.ver.isLt
    rw [← BitVec.toNat_inj]
    simp only [BitVec.toNat_setWidth]
    omega
  rw [← hver]
  constructor
  · intro h
    exact congrArg Read.ver h
  · intro h
    rw [h]
    rfl

/-- The message, as a number. -/
theorem Parts.Placed.message_toNat :
    rc.toNat % 2 ^ 24 = p.code.toNat * 2 ^ 16 + p.nflag.toNat * 2 ^ 15 + p.subject.toNat := by
  have hsubject := congrArg BitVec.toNat hrc.subject
  have hnflag := congrArg BitVec.toNat hrc.nflag
  have hcode := congrArg BitVec.toNat hrc.code
  simp only [BitVec.extractLsb'_toNat, Nat.shiftRight_eq_div_pow] at hsubject hnflag hcode
  omega

theorem Parts.Placed.errmsg : inaRcErrmsg rc =
    p.subject.setWidth 32 ||| (p.nflag.setWidth 32 <<< 15) ||| (p.code.setWidth 32 <<< 16) := by
  have hs := p.subject.isLt
  have hn := p.nflag.isLt
  have hsubject : (p.subject.setWidth 32).toNat = p.subject.toNat := by
    rw [BitVec.toNat_setWidth]
    omega
  have hlow : (p.subject.setWidth 32 ||| (p.nflag.setWidth 32 <<< 15)).toNat =
      p.nflag.toNat * 2 ^ 15 + p.subject.toNat := by
    rw [or_shifted_toNat (by decide) (by omega), hsubject]
  have hmask : (rc &&& 0xFFFFFF#64).toNat = rc.toNat % 2 ^ 24 := Nat.and_two_pow_sub_one_eq_mod _ 24
  apply BitVec.eq_of_toNat_eq
  rw [inaRcErrmsg, BitVec.toNat_setWidth, hmask, hrc.message_toNat,
    or_shifted_toNat (by decide) (by omega), hlow]
  have hc := p.code.isLt
  omega

/-- **`INA_RC_ERROR`** gives the error unless the subject or the adjective has its top bit set. -/
theorem Parts.Placed.error_iff :
    inaRcError rc = (p.nflag.setWidth 32 <<< 15) ||| (p.code.setWidth 32 <<< 16) ↔
      p.subject.toNat < 2 ^ 14 ∧ p.code.toNat < 2 ^ 7 := by
  have hs := p.subject.isLt
  have hn := p.nflag.isLt
  have hc := p.code.isLt
  have hmsg := hrc.message_toNat
  -- Nine bits from the fourteenth on.
  have hbits : (inaMidBits rc (rcBitU - rcBitN) rcBitN).toNat = rc.toNat / 2 ^ 14 % 2 ^ 9 := by
    have hmask : (1#64 <<< 9) - 1#64 = BitVec.ofNat 64 (2 ^ 9 - 1) := rfl
    rw [inaMidBits, rcBitU, rcBitN, hmask, BitVec.and_comm, BitVec.toNat_and,
      BitVec.toNat_ushiftRight, Nat.shiftRight_eq_div_pow]
    exact Nat.and_two_pow_sub_one_eq_mod _ 9
  have hflag : (p.nflag.setWidth 32 <<< 15).toNat = p.nflag.toNat * 2 ^ 15 :=
    shifted_toNat (by decide) p.nflag
  rw [← BitVec.toNat_inj, or_shifted_toNat (by decide) (by omega), hflag, inaRcError,
    BitVec.toNat_setWidth, BitVec.toNat_shiftLeft, hbits, Nat.shiftLeft_eq, rcBitN]
  omega

end Placed

/-- **What is read is what was packed** exactly when the version is below 8 and neither the subject
    nor the adjective has its top bit set. -/
theorem unpacked_iff_low (p : Parts) :
    p.Right ↔ p.ver.toNat < 8 ∧ p.subject.toNat < 2 ^ 14 ∧ p.code.toNat < 2 ^ 7 := by
  have hplaced := p.pack_placed
  rw [← hplaced.unpack_iff, ← hplaced.error_iff]
  constructor
  · intro h
    exact ⟨h.unpacked, h.error⟩
  · rintro ⟨hunpacked, herror⟩
    exact ⟨hunpacked, herror, hplaced.errmsg, unpack_setUbits _, unpack_clearRc _⟩

/-- Version 8 reads as 0, subject 2^14 shows in the error, and adjective 2^7 does not. -/
theorem top_bits_misread :
    inaRcVer (Parts.pack ⟨1, 0, 0x2B, 0, 0, 8, 0⟩) = 0 ∧
      inaRcError (Parts.pack ⟨0x4000, 0, 0x2B, 0, 0, 1, 0⟩) = 0x2B4000 ∧
      inaRcError (Parts.pack ⟨1, 0, 0x80, 0, 0, 1, 0⟩) = 0 ∧
      ¬ (Parts.mk 1 0 0x2B 0 0 8 0).Right := by
  refine ⟨by decide, by decide, by decide, fun h => ?_⟩
  have hver := congrArg Read.ver h.unpacked
  exact absurd hver (by decide)

end Rc
end Inac
