import Mathlib.Algebra.Order.Ring.Nat
import Mathlib.Data.List.Basic

/-!
# Rows laid out one behind another

Rows of equal length that are written one after another make a list in which the entry `j` of row
`i` stands at `i * n + j`. Grids of more than two dimensions are rows of rows.
-/

namespace Inac
namespace Lib

variable {α : Type} {f : Nat → List α} {m n : Nat}

theorem length_flatMap_range (h : ∀ i < m, (f i).length = n) :
    ((List.range m).flatMap f).length = m * n := by
  induction m with
  | zero => simp
  | succ m ih =>
    have hrest := ih fun i hi => h i (Nat.lt_succ_of_lt hi)
    rw [List.range_succ, List.flatMap_append, List.length_append, hrest, List.flatMap_singleton,
      h m (Nat.lt_succ_self m), Nat.succ_mul]

/-- The entry `j` of row `i`. -/
theorem getElem?_flatMap_range (h : ∀ i < m, (f i).length = n) {i j : Nat} (hi : i < m)
    (hj : j < n) : ((List.range m).flatMap f)[i * n + j]? = (f i)[j]? := by
  induction m with
  | zero => exact absurd hi (Nat.not_lt_zero i)
  | succ m ih =>
    have hrest : ∀ i < m, (f i).length = n := fun i hi => h i (Nat.lt_succ_of_lt hi)
    have hlen := length_flatMap_range hrest
    rw [List.range_succ, List.flatMap_append, List.flatMap_singleton]
    rcases Nat.lt_succ_iff_lt_or_eq.mp hi with hlt | rfl
    · have hbelow : i * n + j < m * n := by
        calc i * n + j < i * n + n := Nat.add_lt_add_left hj _
          _ = (i + 1) * n := (Nat.succ_mul i n).symm
          _ ≤ m * n := Nat.mul_le_mul_right n hlt
      rw [List.getElem?_append_left (hlen ▸ hbelow), ih hrest hlt]
    · rw [List.getElem?_append_right (hlen ▸ Nat.le_add_right _ _), hlen, Nat.add_sub_cancel_left]

/-- Every place of the list is one of a row. -/
theorem exists_row {x : Nat} (hx : x < m * n) : ∃ i j, i < m ∧ j < n ∧ x = i * n + j := by
  have hn : 0 < n := Nat.pos_of_ne_zero fun h => by simp [h] at hx
  exact ⟨x / n, x % n, Nat.div_lt_of_lt_mul (Nat.mul_comm m n ▸ hx), Nat.mod_lt x hn,
    (Nat.div_add_mod' x n).symm⟩

end Lib
end Inac
