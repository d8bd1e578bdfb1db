import Mathlib.Algebra.Ring.Int.Defs
import Mathlib.Data.Int.Order.Basic

/-!
# Cyclic walks with a stride

A walk over the residues of `m` goes up by one, starts again at 0 after `m - 1` and marks the place
where it begins and from there every `skip`-th one. `stepsTo` is how far a residue is from the start.
A counter that is counted down to 0 and then set to `skip` again tells which places are marked:
`Counts` relates it to the number of places passed.
-/

namespace Inac
namespace Lib

/-! ## Places

The walk meets a residue for the first time after `stepsTo` steps, which is less than a round. -/

/-- How many steps up from `lo` lead to the residue `hi` for the first time. -/
def stepsTo (m : Nat) (lo hi : Int) : Nat := ((hi - lo) % m).toNat

theorem stepsTo_lt {m : Nat} (hm : 0 < m) (lo hi : Int) : stepsTo m lo hi < m := by
  have hnonneg := Int.emod_nonneg (hi - lo) (by omega : (m : Int) ≠ 0)
  have hlt := Int.emod_lt_of_pos (hi - lo) (by omega : (0 : Int) < m)
  unfold stepsTo
  omega

theorem add_stepsTo {m : Nat} {hi : Int} (hlo : 0 ≤ hi) (hhi : hi < m) (lo : Int) :
    (lo + stepsTo m lo hi) % m = hi := by
  have hnonneg := Int.emod_nonneg (hi - lo) (by omega : (m : Int) ≠ 0)
  rw [stepsTo, Int.toNat_of_nonneg hnonneg, Int.add_emod_emod, add_sub_cancel]
  exact Int.emod_eq_of_lt hlo hhi

/-- Before that it is not met. -/
theorem add_ne_of_lt_stepsTo {m : Nat} {lo hi : Int} {t : Nat} (h : t < stepsTo m lo hi) :
    (lo + t) % m ≠ hi := by
  intro he
  have hm : 0 < m := by
    rcases Nat.eq_zero_or_pos m with rfl | hm
    · simp only [stepsTo, Int.natCast_zero, Int.emod_zero] at h he
      omega
    · exact hm
  have hd : stepsTo m lo hi < m := stepsTo_lt hm lo hi
  have hsteps : ((hi - lo) % m).toNat = t := by
    rw [← he, Int.emod_sub_emod, add_sub_cancel_left, Int.emod_eq_of_lt (by omega) (by omega)]
    rfl
  exact absurd hsteps (by unfold stepsTo at h; omega)

/-! ## Marks

The counter is what a program has instead of a remainder. -/

/-- The place `t` steps up from the start is marked. -/
def Strided (skip : Int) (t : Nat) : Prop := t = 0 ∨ 0 < skip ∧ skip ∣ t

instance (skip : Int) (t : Nat) : Decidable (Strided skip t) := inferInstanceAs (Decidable (_ ∨ _))

/-- After `t` places the counter tells the next mark: it is the `s`-th place from here on, and there
    is none if `s` is not positive. -/
structure Counts (skip s : Int) (t : Nat) : Prop where
  next : ∀ j : Nat, (j : Int) + 1 = s → Strided skip (t + j)
  none : ∀ j : Nat, (j : Int) + 1 < s ∨ s ≤ 0 → ¬ Strided skip (t + j)

theorem counts_start (skip : Int) : Counts skip 1 0 := by
  refine ⟨fun j hj => .inl (by omega), fun j hj => ?_⟩
  omega

/-- The counter gets to 0: the place is marked, and counting starts again. -/
theorem Counts.hit {skip : Int} {t : Nat} (h : Counts skip 1 t) :
    Strided skip t ∧ Counts skip skip (t + 1) := by
  have hmark : Strided skip t := h.next 0 rfl
  refine ⟨hmark, fun j hj => .inr ⟨by omega, ?_⟩, fun j hj hmark' => ?_⟩
  · have hdvd : skip ∣ (t : Int) := by
      rcases hmark with rfl | ⟨-, hdvd⟩
      · exact Int.dvd_zero skip
      · exact hdvd
    have hsum : ((t + 1 + j : Nat) : Int) = t + skip := by omega
    rw [hsum]
    exact Int.dvd_add hdvd (Int.dvd_refl skip)
  · rcases hmark' with hzero | ⟨hpos, hdvd'⟩
    · omega
    · have hdvd : skip ∣ (t : Int) := by
        rcases hmark with rfl | ⟨-, hdvd⟩
        · exact Int.dvd_zero skip
        · exact hdvd
      have hsum : ((t + 1 + j : Nat) : Int) - t = j + 1 := by omega
      have hdvd'' : skip ∣ (j : Int) + 1 := hsum ▸ Int.dvd_sub hdvd' hdvd
      have hle := Int.le_of_dvd (by omega) hdvd''
      omega

/-- The counter does not get to 0: the place is not marked. -/
theorem Counts.miss {skip s : Int} {t : Nat} (h : Counts skip s t) (hs : s ≠ 1) :
    ¬ Strided skip t ∧ Counts skip (s - 1) (t + 1) := by
  refine ⟨h.none 0 (by omega), fun j hj => ?_, fun j hj => ?_⟩
  · have hmark := h.next (j + 1) (by omega)
    rwa [show t + (j + 1) = t + 1 + j by omega] at hmark
  · have hmark := h.none (j + 1) (by omega)
    rwa [show t + (j + 1) = t + 1 + j by omega] at hmark

end Lib
end Inac
