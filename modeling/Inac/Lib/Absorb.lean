import Mathlib.Algebra.Ring.Nat
import Mathlib.Data.List.Basic

/-!
# Taking in a list block by block

A state takes in a list in blocks of `n`, as long as there is something behind the block. So the
last block, whole or not, is left over, and nothing is left only of the empty list.

It is the way of a hash that keeps its last block for another treatment. Where every whole block is
taken in there is `Inac.Lib.Stream`.
-/

namespace Inac
namespace Lib

variable {α σ : Type} {n : Nat} [NeZero n] {step : σ → List α → σ}

/-- The state that the blocks leave, and what is left of the list. -/
def absorb (n : Nat) [NeZero n] (step : σ → List α → σ) (s : σ) (xs : List α) : σ × List α :=
  if n < xs.length then absorb n step (step s (xs.take n)) (xs.drop n) else (s, xs)
termination_by xs.length
decreasing_by
  have hpos := Nat.pos_of_neZero n
  rw [List.length_drop]
  omega

theorem absorb_last (s : σ) {xs : List α} (h : xs.length ≤ n) : absorb n step s xs = (s, xs) := by
  rw [absorb, if_neg (Nat.not_lt.mpr h)]

/-- What is left is a block at most. -/
theorem absorb_length_le (s : σ) (xs : List α) : (absorb n step s xs).2.length ≤ n := by
  fun_induction absorb n step s xs with
  | case1 s xs h ih => exact ih
  | case2 s xs h => exact Nat.not_lt.mp h

theorem absorb_eq_nil_iff (s : σ) (xs : List α) : (absorb n step s xs).2 = [] ↔ xs = [] := by
  fun_induction absorb n step s xs with
  | case1 s xs h ih =>
    rw [ih, List.drop_eq_nil_iff]
    refine iff_of_false (Nat.not_le.mpr h) ?_
    rintro rfl
    exact absurd h (Nat.not_lt_zero n)
  | case2 s xs h => exact Iff.rfl

end Lib
end Inac
