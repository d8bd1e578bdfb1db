import Mathlib.Logic.Relation
import Inac.Lz4.Decode

/-!
# What the shortcut lets through

Where there is room enough the decoder takes a short sequence without a look at what the plain decoder
checks: that its literals do not end in the last eight bytes of the input, and its match not in the
last five of the output. A sequence that is taken like that is `Waived`.

The plain decoder stops with an error there. So what it accepts the real one accepts, with the same
bytes, and the two return the same number exactly if the plain one meets no such sequence: after one
the real decoder is further into the input than the plain one has come, and an error of its own says
so.

The comparison is between `plainLoop` and `laxLoop`, which differ in a single branch; the step from
there to the buffers is `decodeLoop_mirrors`. A turn of the two is the same, or the sequence is
waived and the plain one stops at an error (`plain_or_waived`). Its place is less than that of any
error the real decoder can come to behind the sequence, and so the numbers that are returned differ.

An example is at the end of the module, where the real decoder returns the length of an output and
the plain one an error.
-/

namespace Inac
namespace Lz4

open Lib

variable {src out out' dst : List UInt8} {srcSize outputSize ip ip' fuel : Nat} {t : PlainTurn}

/-- The shortcut takes the sequence at `ip`, and it ends too late in the input or in the output. -/
def Waived (src : List UInt8) (srcSize outputSize ip : Nat) (out : List UInt8) : Prop :=
  ∃ token off, src[ip]? = some token ∧
    shortcutOffset safe src srcSize outputSize token.toNat (ip + 1) out.length = some (some off) ∧
    (srcSize < ip + 1 + token.toNat / 2 ^ 4 + 8 ∨
      outputSize < out.length + token.toNat / 2 ^ 4 + (token.toNat % 2 ^ 4 + 4) + 5)

/-- The plain decoder goes on from one place in the input and what has been put out to another. -/
def Goes (src : List UInt8) (srcSize outputSize : Nat) (s s' : Nat × List UInt8) : Prop :=
  plainSequence safe src srcSize outputSize s.1 s.2 = some (.next s'.1 s'.2)

/-- The plain decoder meets a sequence that is waived. -/
def MeetsWaived (src : List UInt8) (srcSize outputSize ip : Nat) (out : List UInt8) : Prop :=
  ∃ s, Relation.ReflTransGen (Goes src srcSize outputSize) (ip, out) s ∧
    Waived src srcSize outputSize s.1 s.2

/-! ## One turn -/

/-- What the plain decoder makes of a sequence that the shortcut would take. -/
theorem plainLiterals_short {token off : Nat}
    (hoff : shortcutOffset safe src srcSize outputSize token (ip + 1) out.length =
      some (some off))
    (hsrc : srcSize ≤ src.length) :
    plainLiterals safe src srcSize outputSize token (ip + 1) out =
      if srcSize < ip + 1 + token / 2 ^ 4 + 8 then some (.outputError (ip + 1))
      else if outputSize < out.length + token / 2 ^ 4 + (token % 2 ^ 4 + 4) + 5 then
        some (.outputError (ip + 1 + token / 2 ^ 4 + 2))
      else laxShortcut src token (ip + 1) off out := by
  rw [shortcutOffset] at hoff
  split at hoff
  case isFalse => simp at hoff
  case isTrue hroom =>
  obtain ⟨hip, hop, hhi, hlo⟩ := hroom
  obtain ⟨o, ho, hsome⟩ := Option.map_eq_some_iff.mp hoff
  split at hsome
  case isFalse => cases hsome
  case isTrue hfar =>
  cases Option.some.inj hsome
  have hll : token / 2 ^ 4 ≤ 14 := by omega
  have hml : token % 2 ^ 4 ≤ 15 := by omega
  have hlen : literalLength safe src srcSize token (ip + 1) = some (ip + 1, token / 2 ^ 4) :=
    if_neg (by omega)
  rw [laxShortcut, plainLiterals, hlen, Option.bind_eq_bind, Option.bind_some]
  simp only
  generalize token / 2 ^ 4 = ll at *
  by_cases hin : srcSize < ip + 1 + ll + 8
  · have hends : Ends safe srcSize outputSize (ip + 1 + ll) (out.length + ll) :=
      Or.inl ⟨rfl, Or.inr hin⟩
    have hamiss : Amiss safe srcSize outputSize (ip + 1 + ll) (out.length + ll) :=
      Or.inr ⟨rfl, Or.inl (by omega)⟩
    rw [if_pos hends, if_pos hamiss, if_pos hin]
  · have hends : ¬ Ends safe srcSize outputSize (ip + 1 + ll) (out.length + ll) := by
      simp only [Ends, true_and, reduceCtorEq, false_and, or_false]
      omega
    have hload := load_eq (n := ll) (show ip + 1 + ll ≤ src.length by omega)
    have happ : (out ++ (src.drop (ip + 1)).take ll).length = out.length + ll := by
      rw [List.length_append, List.length_take, List.length_drop]
      omega
    have hmatch : matchLength safe src srcSize token (ip + 1 + ll + 2) =
        some (.ok (ip + 1 + ll + 2, token % 2 ^ 4)) := if_neg hlo
    have hplace : matchPlace (out.length + ll) off = some (out.length + ll - off) :=
      if_pos hfar.2
    rw [if_neg hends, if_neg hin, hload, Option.bind_eq_bind, Option.bind_some, plainMatch, ho,
      Option.bind_eq_bind, Option.bind_some, happ, if_neg fun h => by omega]
    simp only [hmatch, hplace, happ, Option.bind_eq_bind, Option.bind_some]

/-- **A turn is the same** with the shortcut and without, or the sequence is waived; then the plain
    decoder has an error, no further in the input than where the shortcut goes on. -/
theorem plain_or_waived (hsrc : srcSize ≤ src.length)
    (ht : laxSequence safe src srcSize outputSize ip out = some t) :
    (¬ Waived src srcSize outputSize ip out ∧
        plainSequence safe src srcSize outputSize ip out = some t) ∨
      (Waived src srcSize outputSize ip out ∧ ∃ e ip' out', e ≤ ip' ∧
        plainSequence safe src srcSize outputSize ip out = some (.outputError e) ∧
        t = .next ip' out') := by
  rw [laxSequence, Option.bind_eq_bind] at ht
  obtain ⟨token, htoken, ht⟩ := Option.bind_eq_some_iff.mp ht
  obtain ⟨r, hr, ht⟩ := Option.bind_eq_some_iff.mp ht
  have hplain : plainSequence safe src srcSize outputSize ip out =
      plainLiterals safe src srcSize outputSize token.toNat (ip + 1) out := by
    rw [plainSequence, htoken, Option.bind_eq_bind, Option.bind_some]
  cases r with
  | none =>
    refine Or.inl ⟨?_, hplain.trans ht⟩
    rintro ⟨token', off, htoken', hoff, -⟩
    rw [htoken] at htoken'
    cases Option.some.inj htoken'
    rw [hr] at hoff
    cases Option.some.inj hoff
  | some off =>
    rw [plainLiterals_short hr hsrc] at hplain
    by_cases hlate : srcSize < ip + 1 + token.toNat / 2 ^ 4 + 8 ∨
        outputSize < out.length + token.toNat / 2 ^ 4 + (token.toNat % 2 ^ 4 + 4) + 5
    · refine Or.inr ⟨⟨token, off, htoken, hr, hlate⟩, ?_⟩
      simp only [laxShortcut, Option.bind_eq_bind] at ht
      obtain ⟨lits, -, ht⟩ := Option.bind_eq_some_iff.mp ht
      obtain ⟨m, -, ht⟩ := Option.bind_eq_some_iff.mp ht
      cases Option.some.inj ht
      split at hplain
      case isTrue => exact ⟨_, _, _, by omega, hplain, rfl⟩
      case isFalse hin =>
        rw [if_pos (hlate.resolve_left hin)] at hplain
        exact ⟨_, _, _, Nat.le_refl _, hplain, rfl⟩
    · obtain ⟨hin, hout⟩ := not_or.mp hlate
      rw [if_neg hin, if_neg hout] at hplain
      refine Or.inl ⟨?_, hplain.trans ht⟩
      rintro ⟨token', off', htoken', -, hlate'⟩
      rw [htoken] at htoken'
      cases Option.some.inj htoken'
      exact hlate hlate'

/-! ## How far into the input -/

theorem literalLength_ge {token length : Nat}
    (h : literalLength safe src srcSize token ip = some (ip', length)) : ip ≤ ip' := by
  rw [literalLength] at h
  split at h
  case isTrue =>
    obtain ⟨k, -, -, rfl, -⟩ := literalBytes_read h
    omega
  case isFalse =>
    cases Option.some.inj h
    exact Nat.le_refl _

theorem matchBytes_error_ge {e length : Nat}
    (h : matchBytes safe src srcSize fuel ip length = some (.error e)) : ip ≤ e := by
  induction fuel generalizing ip length with
  | zero => cases h
  | succ fuel ih =>
    rw [matchBytes, Option.bind_eq_bind] at h
    obtain ⟨b, -, h⟩ := Option.bind_eq_some_iff.mp h
    split at h
    case isTrue =>
      cases Except.error.inj (Option.some.inj h)
      exact Nat.le_succ _
    case isFalse =>
      split at h
      case isTrue => exact Nat.le_of_succ_le (ih h)
      case isFalse => cases h

theorem plainMatch_error_ge {token e : Nat}
    (ht : plainMatch safe src srcSize outputSize token ip out = some (.outputError e)) :
    ip ≤ e := by
  rw [plainMatch, Option.bind_eq_bind] at ht
  obtain ⟨offset, -, ht⟩ := Option.bind_eq_some_iff.mp ht
  split at ht
  case isTrue =>
    cases Option.some.inj ht
    omega
  case isFalse =>
  obtain ⟨r, hr, ht⟩ := Option.bind_eq_some_iff.mp ht
  cases r with
  | error e' =>
    cases Option.some.inj ht
    rw [matchLength] at hr
    split at hr
    case isTrue => exact Nat.le_of_add_right_le (matchBytes_error_ge hr)
    case isFalse => cases hr
  | ok r =>
    obtain ⟨m, -, ht⟩ := Option.bind_eq_some_iff.mp ht
    obtain ⟨-, hle, -⟩ := matchLength_read hr
    split at ht
    case isTrue =>
      cases Option.some.inj ht
      omega
    case isFalse => cases ht

/-- An error is noticed behind the token. -/
theorem laxSequence_error_gt {e : Nat}
    (ht : laxSequence safe src srcSize outputSize ip out = some (.outputError e)) : ip < e := by
  rw [laxSequence, Option.bind_eq_bind] at ht
  obtain ⟨token, -, ht⟩ := Option.bind_eq_some_iff.mp ht
  obtain ⟨r, -, ht⟩ := Option.bind_eq_some_iff.mp ht
  cases r with
  | some off =>
    simp only [laxShortcut, Option.bind_eq_bind] at ht
    obtain ⟨lits, -, ht⟩ := Option.bind_eq_some_iff.mp ht
    obtain ⟨m, -, ht⟩ := Option.bind_eq_some_iff.mp ht
    cases ht
  | none =>
    simp only [plainLiterals, Option.bind_eq_bind] at ht
    obtain ⟨⟨ip', length⟩, hl, ht⟩ := Option.bind_eq_some_iff.mp ht
    have hge := literalLength_ge hl
    simp only at ht
    split at ht
    case isTrue =>
      split at ht
      case isTrue =>
        cases Option.some.inj ht
        exact hge
      case isFalse =>
        obtain ⟨lits, -, ht⟩ := Option.bind_eq_some_iff.mp ht
        cases ht
    case isFalse =>
      obtain ⟨lits, -, ht⟩ := Option.bind_eq_some_iff.mp ht
      have := plainMatch_error_ge ht
      omega

/-- So what the loop returns as an error says a place behind where it began. -/
theorem laxLoop_ahead {r : Int} {res : List UInt8} (hip : ip ≤ srcSize) (hsrc : srcSize ≤ src.length)
    (hr : laxLoop safe src srcSize outputSize fuel ip out = some (r, res)) :
    0 ≤ r ∨ r < -(ip : Int) - 1 := by
  induction fuel generalizing ip out with
  | zero => cases hr
  | succ fuel ih =>
    rw [laxLoop, Option.bind_eq_bind] at hr
    obtain ⟨t, ht, hr⟩ := Option.bind_eq_some_iff.mp hr
    have hsound := laxSequence_sound hip hsrc ht
    cases t with
    | next ip' out' =>
      obtain ⟨s, -, rfl, hle, -⟩ := hsound
      have := ih hle hr
      omega
    | finish ip' out' =>
      cases Option.some.inj hr
      exact Or.inl (Int.natCast_nonneg _)
    | outputError e =>
      have hgt := laxSequence_error_gt ht
      cases Option.some.inj hr
      omega

/-! ## The whole of the input -/

theorem meetsWaived_iff : MeetsWaived src srcSize outputSize ip out ↔
    Waived src srcSize outputSize ip out ∨
      ∃ ip' out', plainSequence safe src srcSize outputSize ip out = some (.next ip' out') ∧
        MeetsWaived src srcSize outputSize ip' out' := by
  constructor
  · rintro ⟨s, hreach, hw⟩
    rcases hreach.cases_head with rfl | ⟨⟨ip', out'⟩, hgo, hrest⟩
    · exact Or.inl hw
    · exact Or.inr ⟨ip', out', hgo, s, hrest, hw⟩
  · rintro (hw | ⟨ip', out', hgo, s, hrest, hw⟩)
    · exact ⟨_, .refl, hw⟩
    · exact ⟨s, .head (show Goes src srcSize outputSize (ip, out) (ip', out') from hgo) hrest, hw⟩

/-- What the two loops return. -/
structure Compared (src : List UInt8) (srcSize outputSize ip : Nat) (out : List UInt8)
    (p l : Int × List UInt8) : Prop where
  accepted : 0 ≤ p.1 → l = p
  same_iff : l.1 = p.1 ↔ ¬ MeetsWaived src srcSize outputSize ip out

/-- The two loops, from one place on. The induction is on the turns, which are the same until a
    sequence is waived. -/
theorem loops_compared (fuel : Nat) (hip : ip ≤ srcSize) (hsrc : srcSize + 2 ≤ src.length)
    (hfuel : srcSize < fuel + ip) (out : List UInt8) :
    ∃ p l, plainLoop safe src srcSize outputSize fuel ip out = some p ∧
      laxLoop safe src srcSize outputSize fuel ip out = some l ∧
      Compared src srcSize outputSize ip out p l := by
  induction fuel generalizing ip out with
  | zero => omega
  | succ fuel ih =>
    have hle : srcSize ≤ src.length := by omega
    obtain ⟨t, ht⟩ := laxSequence_some outputSize out hip hsrc
    have hsound := laxSequence_sound hip hle ht
    rcases plain_or_waived hle ht with ⟨hnot, hplain⟩ | ⟨hw, e, ip', out', hbehind, hplain, rfl⟩
    · have hiff := meetsWaived_iff.trans (or_iff_right hnot)
      cases t with
      | next ip' out' =>
        obtain ⟨s, -, rfl, hend, -⟩ := hsound
        have hpos := s.length_bytes
        obtain ⟨p, l, hp, hl, hcomp⟩ := ih hend (by omega) out'
        refine ⟨p, l, ?_, ?_, hcomp.accepted, hcomp.same_iff.trans (not_congr ?_)⟩
        · rw [plainLoop, hplain]
          exact hp
        · rw [laxLoop, ht]
          exact hl
        · refine Iff.trans ⟨fun h => ⟨_, _, hplain, h⟩, ?_⟩ hiff.symm
          rintro ⟨ip', out', hgo, h⟩
          rw [hplain] at hgo
          cases Option.some.inj hgo
          exact h
      | finish ip' out' =>
        refine ⟨_, _, by rw [plainLoop, hplain]; rfl, by rw [laxLoop, ht]; rfl, fun _ => rfl,
          iff_of_true rfl fun h => ?_⟩
        obtain ⟨ip', out', hgo, -⟩ := hiff.mp h
        rw [hplain] at hgo
        cases Option.some.inj hgo
      | outputError e =>
        refine ⟨_, _, by rw [plainLoop, hplain]; rfl, by rw [laxLoop, ht]; rfl, fun _ => rfl,
          iff_of_true rfl fun h => ?_⟩
        obtain ⟨ip', out', hgo, -⟩ := hiff.mp h
        rw [hplain] at hgo
        cases Option.some.inj hgo
    · -- the plain decoder stops, and the other one is past the place where it does
      obtain ⟨s, -, rfl, hend, -⟩ := hsound
      have hpos := s.length_bytes
      obtain ⟨r, res, hl, -⟩ := laxLoop_sound outputSize fuel out' hend hsrc (by omega)
      have hahead := laxLoop_ahead hend hle hl
      refine ⟨(-(e : Int) - 1, []), (r, res), by rw [plainLoop, hplain]; rfl, ?_, fun h => ?_, ?_⟩
      · rw [laxLoop, ht]
        exact hl
      · simp only at h
        omega
      · refine iff_of_false (fun h => ?_) (not_not.mpr (meetsWaived_iff.mpr (Or.inl hw)))
        simp only at h
        omega

/-- **What is waived is all the difference**: whatever the plain decoder accepts
    `LZ4_decompress_safe` accepts, with the same bytes at the front of `dst`; and on any input the two
    return the same number exactly if the plain decoder meets no sequence that is waived. -/
theorem decompress_safe_plain (src dst : List UInt8) (srcSize outputSize : Nat)
    (hsrc : srcSize + 2 ≤ src.length) (hdst : outputSize ≤ dst.length) (hpos : 0 < outputSize) :
    ∃ r res r' dst', plainLoop safe src srcSize outputSize (src.length + 1) 0 [] = some (r, res) ∧
      lz4DecompressSafe src srcSize outputSize dst = some (r', dst') ∧
      dst'.length = dst.length ∧ (0 ≤ r → r' = r ∧ res <+: dst') ∧
      (r' = r ↔ ¬ MeetsWaived src srcSize outputSize 0 []) := by
  obtain ⟨p, l, hp, hl, hcomp⟩ := loops_compared (src.length + 1)
    (Nat.zero_le srcSize) hsrc (by omega) []
  obtain ⟨dst', hloop, hpre, hlen⟩ := decodeLoop_mirrors dst List.nil_prefix hdst (by omega) hl
  refine ⟨p.1, p.2, l.1, dst', hp, ?_, hlen, fun h => ?_, hcomp.same_iff⟩
  · rw [lz4DecompressSafe, lz4DecompressGeneric, if_neg (Nat.ne_of_gt hpos)]
    exact hloop
  · have heq := hcomp.accepted h
    exact ⟨congrArg Prod.fst heq, heq ▸ hpre⟩

/-- Twenty literals and a match, then ten literals that end six bytes before the end of the input. -/
def lateBlock : List UInt8 :=
  [0xF0, 0x05] ++ List.replicate 20 1 ++ [0x14, 0, 0xA0] ++ List.replicate 10 2 ++
    [0x12, 0, 0x30, 0xC9, 0xCA, 0xCB]

theorem decompress_safe_plain_late :
    ∃ r res r' dst', plainLoop safe (lateBlock ++ [0, 0]) 41 56
        ((lateBlock ++ [0, 0]).length + 1) 0 [] = some (r, res) ∧
      lz4DecompressSafe (lateBlock ++ [0, 0]) 41 56 (List.replicate 56 7) = some (r', dst') ∧
      dst'.length = (List.replicate 56 (7 : UInt8)).length ∧ (0 ≤ r → r' = r ∧ res <+: dst') ∧
      (r' = r ↔ ¬ MeetsWaived (lateBlock ++ [0, 0]) 41 56 0 []) :=
  decompress_safe_plain (lateBlock ++ [0, 0]) (List.replicate 56 7) 41 56 (by decide) (by decide)
    (by decide)

/-- The plain decoder stops at the second token. -/
example : plainLoop safe lateBlock 41 56 42 0 [] = some (-26, []) ∧
    (lz4DecompressSafe lateBlock 41 56 (List.replicate 56 7)).map Prod.fst = some 41 := by
  decide +kernel

end Lz4
end Inac
