import Inac.Lib.Stride
import Inac.Cron.Parse

/-!
# What an item sets

The loop that fills the array walks up from `n1`, around the end of the array, until it meets `n2`.
The `failsafe` ends it if it never does, which is when `n2` is no index of the array. As C's
remainder keeps the sign, a start below zero leads to an index below zero, unless it is a multiple
of the size.
-/

namespace Inac
namespace Cron

open Lib

/-- The array with these entries set as well. -/
def addTo (ary : Nat → Bool) (S : Nat → Prop) [DecidablePred S] : Nat → Bool :=
  fun i => ary i || decide (S i)

/-- The entries of an array of size `m` that the loop sets from `n1` to `n2`. -/
def Sets (m : Nat) (n1 n2 skip : Int) (i : Nat) : Prop :=
  ∃ t ≤ stepsTo m n1 n2, Strided skip t ∧ (n1 + t) % m = i

instance (m : Nat) (n1 n2 skip : Int) : DecidablePred (Sets m n1 n2 skip) := fun i =>
  decidable_of_iff (∃ t : Nat, t < stepsTo m n1 n2 + 1 ∧ Strided skip t ∧ (n1 + t) % m = i) (by
    simp only [Sets, Nat.lt_succ_iff])

/-- Only the residue of the start matters. -/
theorem sets_congr {m : Nat} {n1 n1' n2 skip : Int} (h : n1 % m = n1' % m) (i : Nat) :
    Sets m n1 n2 skip i ↔ Sets m n1' n2 skip i := by
  have hsteps : stepsTo m n1 n2 = stepsTo m n1' n2 := by
    rw [stepsTo, stepsTo, ← Int.sub_emod_emod, h, Int.sub_emod_emod]
  have hplace : ∀ t : Nat, (n1 + t) % m = (n1' + t) % m := by
    intro t
    rw [← Int.emod_add_emod, h, Int.emod_add_emod]
  rw [Sets, Sets, hsteps]
  simp only [hplace]

/-- The same from the place `t` steps up on. -/
def SetsFrom (m : Nat) (n1 n2 skip : Int) (t : Nat) (i : Nat) : Prop :=
  ∃ u, t ≤ u ∧ u ≤ stepsTo m n1 n2 ∧ Strided skip u ∧ (n1 + u) % m = i

/-- One step of the loop, without the sign of the remainder. -/
theorem next_place {m : Nat} (hm : 0 < m) (a : Int) :
    (a % m + 1).tmod m = (a + 1) % m ∧ ((a + 1) % m).tmod m = (a + 1) % m ∧ 0 ≤ (a + 1) % m ∧
      (a + 1) % m < m := by
  have hne : (m : Int) ≠ 0 := by omega
  have hpos : (0 : Int) < m := by omega
  have h0 := Int.emod_nonneg a hne
  have h1 := Int.emod_nonneg (a + 1) hne
  have h2 := Int.emod_lt_of_pos (a + 1) hpos
  refine ⟨?_, ?_, h1, h2⟩
  · rw [Int.tmod_eq_emod_of_nonneg (by omega), Int.emod_add_emod]
  · rw [Int.tmod_eq_emod_of_nonneg h1, Int.emod_emod_of_dvd _ (Int.dvd_refl _)]

/-- One round at a place inside the array. -/
theorem fillLoop_round {m : Nat} {n2 skip n1 s0 p : Int} {failsafe : Nat} {ary : Nat → Bool}
    (hp : (n1 + 1).tmod m = p) (hidx : p.tmod m = p) (h0 : 0 ≤ p) (hlt : p < m) :
    fillLoop m n2 skip (failsafe + 1) n1 s0 ary =
      let ary' := if s0 = 1 then Function.update ary p.toNat true else ary
      let s0' := if s0 = 1 then skip else s0 - 1
      if p = n2 then .ok ary' else fillLoop m n2 skip failsafe p s0' ary' := by
  rw [fillLoop]
  simp only [hp, hidx]
  by_cases hs : s0 = 1
  · have hzero : s0 - 1 = 0 := by omega
    rw [if_pos hzero, if_neg (by omega), if_pos hs, if_pos hs]
    rfl
  · have hzero : s0 - 1 ≠ 0 := by omega
    rw [if_neg hzero, if_neg hs, if_neg hs]
    rfl

/-- The loop does not meet an end that is no index. -/
theorem fillLoop_null {m : Nat} (hm : 0 < m) {n2 skip : Int} (hn2 : ¬ (0 ≤ n2 ∧ n2 < m))
    (failsafe : Nat) (a s0 : Int) (ary : Nat → Bool) :
    fillLoop m n2 skip failsafe (a % m) s0 ary = .error .null := by
  induction failsafe generalizing a s0 ary with
  | zero => rfl
  | succ failsafe ih =>
    obtain ⟨hp, hidx, h0, hlt⟩ := next_place hm a
    have hne : (a + 1) % m ≠ n2 := by
      intro he
      exact hn2 ⟨he ▸ h0, he ▸ hlt⟩
    rw [fillLoop_round hp hidx h0 hlt]
    simp only [if_neg hne]
    exact ih (a + 1) _ _

/-- A turn sets its own place if the stride falls on it, and the rest is left to the turns behind
    it. -/
theorem setsFrom_succ {m : Nat} {n1 n2 skip : Int} {t i : Nat} (ht : t ≤ stepsTo m n1 n2) :
    SetsFrom m n1 n2 skip t i ↔
      Strided skip t ∧ (n1 + t) % m = i ∨ SetsFrom m n1 n2 skip (t + 1) i := by
  constructor
  · rintro ⟨u, htu, hu, hmark, hi⟩
    rcases Nat.eq_or_lt_of_le htu with rfl | hlt
    · exact .inl ⟨hmark, hi⟩
    · exact .inr ⟨u, hlt, hu, hmark, hi⟩
  · rintro (⟨hmark, hi⟩ | ⟨u, htu, hu, hmark, hi⟩)
    · exact ⟨t, Nat.le_refl t, ht, hmark, hi⟩
    · exact ⟨u, by omega, hu, hmark, hi⟩

/-- One round sets the entry at its place exactly if the place is marked, and counts on. -/
theorem fill_round {skip s0 p : Int} {t : Nat} (hs : Counts skip s0 t) (hp : 0 ≤ p)
    (ary : Nat → Bool) :
    (∀ i : Nat, (if s0 = 1 then Function.update ary p.toNat true else ary) i = true ↔
        ary i = true ∨ Strided skip t ∧ p = i) ∧
      Counts skip (if s0 = 1 then skip else s0 - 1) (t + 1) := by
  by_cases hone : s0 = 1
  · subst hone
    obtain ⟨hmark, hcounts⟩ := hs.hit
    rw [if_pos rfl, if_pos rfl]
    refine ⟨fun i => ?_, hcounts⟩
    have hi : p.toNat = i ↔ p = i := by omega
    rw [Function.update_apply, and_iff_right hmark, ← hi]
    by_cases he : i = p.toNat
    · simp [he]
    · simp [he, Ne.symm he]
  · obtain ⟨hmark, hcounts⟩ := hs.miss hone
    rw [if_neg hone, if_neg hone]
    exact ⟨fun i => by simp [hmark], hcounts⟩

/-- The loop from the place `t` steps up on: it sets what is marked from there to the end. -/
theorem fillLoop_ok {m : Nat} (hm : 0 < m) {n1 n2 skip : Int} (h0 : 0 ≤ n2) (hlt : n2 < m)
    {failsafe t : Nat} {a s0 : Int} {ary : Nat → Bool} (ha : (a + 1).tmod m = (n1 + t) % m)
    (hs : Counts skip s0 t) (ht : t ≤ stepsTo m n1 n2) (hf : stepsTo m n1 n2 < t + failsafe) :
    ∃ ary', fillLoop m n2 skip failsafe a s0 ary = .ok ary' ∧
      ∀ i, ary' i = true ↔ ary i = true ∨ SetsFrom m n1 n2 skip t i := by
  induction failsafe generalizing t a s0 ary with
  | zero => omega
  | succ failsafe ih =>
    have hp0 := Int.emod_nonneg (n1 + t) (by omega : (m : Int) ≠ 0)
    have hplt := Int.emod_lt_of_pos (n1 + t) (by omega : (0 : Int) < m)
    have hidx : ((n1 + t) % m).tmod m = (n1 + t) % m := by
      rw [Int.tmod_eq_emod_of_nonneg hp0, Int.emod_emod_of_dvd _ (Int.dvd_refl _)]
    rw [fillLoop_round ha hidx hp0 hplt]
    dsimp only
    -- What this round does to the array and to the count of the step.
    obtain ⟨hround, hcounts⟩ := fill_round hs hp0 ary
    generalize (if s0 = 1 then Function.update ary ((n1 + t) % m).toNat true else ary) = ary₁
      at hround ⊢
    generalize (if s0 = 1 then skip else s0 - 1) = s₁ at hcounts ⊢
    -- The end is met here for the first time, or the place above is next.
    by_cases hend : (n1 + t) % m = n2
    · have hlast : t = stepsTo m n1 n2 := by
        by_contra hne
        exact add_ne_of_lt_stepsTo (lt_of_le_of_ne ht hne) hend
      refine ⟨ary₁, if_pos hend, fun i => ?_⟩
      have hover : ¬ SetsFrom m n1 n2 skip (t + 1) i := by
        rintro ⟨u, htu, hu, -⟩
        omega
      rw [hround i, setsFrom_succ ht, or_iff_left hover]
    · have hnext : t < stepsTo m n1 n2 := by
        refine lt_of_le_of_ne ht fun he => hend ?_
        rw [he]
        exact add_stepsTo h0 hlt n1
      have hplace : ((n1 + t) % m + 1).tmod m = (n1 + (t + 1 : Nat)) % m := by
        rw [(next_place hm (n1 + t)).1, Int.natCast_add, ← add_assoc]
        rfl
      obtain ⟨ary', hok, hset⟩ := @ih (t + 1) ((n1 + t) % m) s₁ ary₁ hplace hcounts hnext
        (by omega)
      refine ⟨ary', by rw [if_neg hend]; exact hok, fun i => ?_⟩
      rw [hset i, hround i, setsFrom_succ ht, or_assoc]

/-- A start from which the first entry is no index of the array. -/
def BadStart (m : Nat) (n1 : Int) : Prop := n1 < 0 ∧ ¬ (m : Int) ∣ n1

instance (m : Nat) (n1 : Int) : Decidable (BadStart m n1) := inferInstanceAs (Decidable (_ ∧ _))

theorem tmod_of_not_badStart {m : Nat} {n1 : Int} (h : ¬ BadStart m n1) :
    n1.tmod m = n1 % m := by
  have hcase : 0 ≤ n1 ∨ (m : Int) ∣ n1 := by
    by_cases hneg : n1 < 0
    · exact .inr (not_not.mp fun hdvd => h ⟨hneg, hdvd⟩)
    · exact .inl (by omega)
  rw [Int.tmod_eq_emod, if_pos hcase]
  exact sub_zero _

/-- A start below the array stays below it. -/
theorem tmod_neg_of_badStart {m : Nat} (hm : 0 < m) {n1 : Int} (h : BadStart m n1) :
    n1.tmod m < 0 ∧ (n1.tmod m).tmod m = n1.tmod m := by
  have hlt := Int.emod_lt_of_pos n1 (by omega : (0 : Int) < m)
  have hnonneg := Int.emod_nonneg n1 (by omega : (m : Int) ≠ 0)
  have hneg : n1.tmod m < 0 := by
    rw [Int.tmod_eq_emod, if_neg]
    · simp only [Int.natAbs_natCast]
      omega
    · rintro (hpos | hdvd)
      · exact absurd h.1 (by omega)
      · exact h.2 hdvd
  exact ⟨hneg, Int.tmod_tmod n1 m⟩

/-- **What filling does**, for a field whose size the failsafe allows for. -/
theorem fill_eq (f : Field) (hm : 0 < f.modvalue) (hsafe : f.modvalue ≤ 1024) (n1 n2 skip : Int)
    (ary : Nat → Bool) :
    fill f n1 n2 skip ary =
      if BadStart f.modvalue n1 then .error .fault
      else if 0 ≤ n2 ∧ n2 < f.modvalue then .ok (addTo ary (Sets f.modvalue n1 n2 skip))
      else .error .null := by
  have hstart : n1 - 1 + 1 = n1 := sub_add_cancel n1 1
  unfold fill
  by_cases hbad : BadStart f.modvalue n1
  · -- C's remainder of a negative start is negative: the first round is outside the array.
    obtain ⟨hneg, hidx⟩ := tmod_neg_of_badStart hm hbad
    rw [if_pos hbad, fillLoop]
    simp only [hstart, hidx, sub_self, if_pos, if_pos (Or.inl hneg)]
    rfl
  · rw [if_neg hbad]
    have hmod := tmod_of_not_badStart hbad
    have h0 := Int.emod_nonneg n1 (by omega : (f.modvalue : Int) ≠ 0)
    -- An end that is an index is met in less than a round of the array; any other is not met before
    -- the failsafe runs out.
    by_cases hn2 : 0 ≤ n2 ∧ n2 < f.modvalue
    · have hplace : (n1 - 1 + 1).tmod f.modvalue = (n1 + (0 : Nat)) % f.modvalue := by
        rw [hstart, hmod, Int.natCast_zero, add_zero]
      have hsteps := stepsTo_lt hm n1 n2
      have hloop : ∃ ary', fillLoop f.modvalue n2 skip 1024 (n1 - 1) 1 ary = .ok ary' ∧
          ∀ i, ary' i = true ↔ ary i = true ∨ SetsFrom f.modvalue n1 n2 skip 0 i :=
        fillLoop_ok hm hn2.1 hn2.2 hplace (counts_start skip) (Nat.zero_le _) (by omega)
      obtain ⟨ary', hok, hset⟩ := hloop
      rw [if_pos hn2, hok]
      congr 1
      funext i
      have hfrom : SetsFrom f.modvalue n1 n2 skip 0 i ↔ Sets f.modvalue n1 n2 skip i := by
        simp [SetsFrom, Sets]
      rw [Bool.eq_iff_iff, hset i, hfrom, addTo, Bool.or_eq_true, decide_eq_true_eq]
    · have hidx : (n1 % f.modvalue).tmod f.modvalue = n1 % f.modvalue := by
        rw [Int.tmod_eq_emod_of_nonneg h0, Int.emod_emod_of_dvd _ (Int.dvd_refl _)]
      have hne : n1 % f.modvalue ≠ n2 := by
        intro he
        exact hn2 ⟨he ▸ h0, he ▸ Int.emod_lt_of_pos n1 (by omega)⟩
      have hlt := Int.emod_lt_of_pos n1 (by omega : (0 : Int) < f.modvalue)
      rw [if_neg hn2, fillLoop_round (by rw [hstart, hmod]) hidx h0 hlt]
      simp only [if_neg hne]
      exact fillLoop_null hm hn2 _ _ _ _

end Cron
end Inac
