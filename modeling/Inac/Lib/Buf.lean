import Mathlib.Data.List.Basic

/-!
# Bounded buffers

A buffer is a list whose length is its capacity. A write outside it has no result, so a program
that computes one has stayed in bounds.
-/

namespace Inac
namespace Lib

variable {α : Type}

/-- Write `bs` from index `i` on; `none` when that goes past the end. -/
def store (buf : List α) (i : Nat) (bs : List α) : Option (List α) :=
  if i + bs.length ≤ buf.length then some (buf.take i ++ bs ++ buf.drop (i + bs.length)) else none

theorem store_eq {buf bs : List α} {i : Nat} (h : i + bs.length ≤ buf.length) :
    store buf i bs = some (buf.take i ++ bs ++ buf.drop (i + bs.length)) := if_pos h

theorem store_length {buf bs buf' : List α} {i : Nat} (hs : store buf i bs = some buf') :
    i + bs.length ≤ buf.length := by
  rw [store] at hs
  split at hs
  · assumption
  · cases hs

theorem store_nil {buf : List α} {i : Nat} (h : i ≤ buf.length) : store buf i [] = some buf := by
  rw [store_eq (by rw [List.length_nil]; omega)]
  simp

/-- One element written behind the elements in front of it. -/
theorem store_singleton (front : List α) (x y : α) (rest : List α) :
    store (front ++ y :: rest) front.length [x] = some (front ++ x :: rest) := by
  rw [store_eq (by simp), List.take_left]
  simp [List.drop_append]

theorem store_singleton_end (front : List α) (x : α) : store front front.length [x] = none := by
  simp [store]

/-- **Write and terminate.** Writing `bs` and then one element behind it leaves what stood before
    `i`, `bs`, that element, and what stood behind. -/
theorem store_store_singleton {buf bs : List α} {i : Nat} (x : α) (h : i + bs.length < buf.length) :
    (store buf i bs).bind (fun b => store b (i + bs.length) [x]) =
      some (buf.take i ++ bs ++ x :: buf.drop (i + bs.length + 1)) := by
  have hlen : (buf.take i ++ bs).length = i + bs.length := by
    rw [List.length_append, List.length_take_of_le (by omega)]
  rw [store_eq (Nat.le_of_lt h), Option.bind_some, store_eq]
  · rw [List.take_append_of_le_length (Nat.le_of_eq hlen.symm), List.take_of_length_le
      (Nat.le_of_eq hlen), List.drop_append, List.drop_of_length_le (by rw [hlen]; omega), hlen,
      List.drop_drop]
    simp
  · rw [List.length_append, hlen, List.length_drop, List.length_singleton]
    omega

/-- Without room for the one element behind them there is no result. -/
theorem store_store_singleton_none {buf bs : List α} {i : Nat} (x : α)
    (h : ¬ i + bs.length < buf.length) :
    (store buf i bs).bind (fun b => store b (i + bs.length) [x]) = none := by
  cases hstore : store buf i bs with
  | none => rfl
  | some b =>
    rw [store, Option.ite_none_right_eq_some, Option.some.injEq] at hstore
    obtain ⟨hroom, rfl⟩ := hstore
    rw [Option.bind_some, store, if_neg]
    simp only [List.length_append, List.length_take, List.length_drop, List.length_singleton]
    omega

end Lib
end Inac
