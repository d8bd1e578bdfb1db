import Mathlib.Algebra.Ring.Nat
import Mathlib.Data.List.GetD

/-!
# Copies from further back

A compressor of the Lempel-Ziv family says of a stretch of its input that it is to be found again
some distance `d` back. The stretch may reach past the place it is copied from, as when `d` is one
and the last element is repeated, so what such a copy means is said one element at a time.

A program does not copy one element at a time. It copies blocks of up to `d` elements, and where `d`
is too small for a block it goes over to a multiple of `d`, once enough has been copied for it not to
matter. Both are the same copy, which is what is shown here.
-/

namespace Inac
namespace Lib

variable {α : Type} [Inhabited α] {d m n k p : Nat} {l s : List α}

/-- The element `d` from the end. -/
def back (d : Nat) (l : List α) : α := l.getD (l.length - d) default

/-- `n` elements more, each copied from `d` back. -/
def copyBack (d : Nat) : Nat → List α → List α
  | 0, l => l
  | n + 1, l => copyBack d n (l ++ [back d l])

@[simp] theorem copyBack_zero (d : Nat) (l : List α) : copyBack d 0 l = l := rfl

theorem copyBack_succ (d n : Nat) (l : List α) :
    copyBack d (n + 1) l = copyBack d n (l ++ [back d l]) := rfl

@[simp] theorem length_copyBack (d n : Nat) (l : List α) :
    (copyBack d n l).length = l.length + n := by
  induction n generalizing l with
  | zero => rfl
  | succ n ih => rw [copyBack, ih, List.length_append, List.length_singleton, Nat.add_right_comm,
      Nat.add_assoc]

theorem copyBack_add (d m n : Nat) (l : List α) :
    copyBack d (m + n) l = copyBack d n (copyBack d m l) := by
  induction m generalizing l with
  | zero => rw [Nat.zero_add, copyBack_zero]
  | succ m ih => rw [Nat.add_right_comm, copyBack, ih, copyBack]

theorem prefix_copyBack (d n : Nat) (l : List α) : l <+: copyBack d n l := by
  induction n generalizing l with
  | zero => exact List.prefix_rfl
  | succ n ih => exact (List.prefix_append l _).trans (ih _)

theorem copyBack_mono (d : Nat) (h : m ≤ n) (l : List α) : copyBack d m l <+: copyBack d n l := by
  obtain ⟨k, rfl⟩ := Nat.exists_eq_add_of_le h
  rw [copyBack_add]
  exact prefix_copyBack ..

theorem take_copyBack (h : m ≤ n) : (copyBack d n l).take (l.length + m) = copyBack d m l := by
  have hpre := List.prefix_iff_eq_take.mp (copyBack_mono d h l)
  rw [length_copyBack] at hpre
  exact hpre.symm

/-! ## What repeats

A list repeats from a place on if every element from there is the one `d` in front of it. This is
kept when the list is cut, and it determines what follows. -/

/-- From `p` on every element is the one `d` in front of it. -/
def Repeats (d p : Nat) (s : List α) : Prop :=
  ∀ i, p ≤ i → i < s.length → s.getD i default = s.getD (i - d) default

/-- The element `d` from the end of a beginning of `s`. -/
theorem back_take (hd : 0 < d) (hp : d ≤ p) (hs : p ≤ s.length) :
    back d (s.take p) = s.getD (p - d) default := by
  rw [back, List.length_take_of_le hs]
  simp only [List.getD_eq_getElem?_getD, List.getElem?_take]
  rw [if_pos (Nat.sub_lt (Nat.lt_of_lt_of_le hd hp) hd)]

/-- **A beginning is continued** by the copy, as far as what follows repeats. -/
theorem copyBack_take (h : ∀ i, p ≤ i → i < p + n → s.getD i default = s.getD (i - d) default)
    (hd : 0 < d) (hp : d ≤ p) (hs : p + n ≤ s.length) :
    copyBack d n (s.take p) = s.take (p + n) := by
  induction n generalizing p with
  | zero => rfl
  | succ n ih =>
    have hlt : p < s.length := by omega
    have hnext : s.take p ++ [back d (s.take p)] = s.take (p + 1) := by
      rw [back_take hd hp (Nat.le_of_lt hlt), ← h p (Nat.le_refl p) (by omega),
        List.getD_eq_getElem _ _ hlt, List.take_succ_eq_append_getElem hlt]
    rw [copyBack, hnext, ih (fun i hi hin => h i (by omega) (by omega)) (by omega) (by omega),
      Nat.add_right_comm, Nat.add_assoc]

/-- What is copied repeats. -/
theorem repeats_copyBack (hd : 0 < d) (hl : d ≤ l.length) (n : Nat) :
    Repeats d l.length (copyBack d n l) := by
  induction n with
  | zero => exact fun i hi hlt => absurd hlt (Nat.not_lt.mpr hi)
  | succ n ih =>
    have hsnoc : copyBack d (n + 1) l = copyBack d n l ++ [back d (copyBack d n l)] := by
      rw [copyBack_add, copyBack_succ, copyBack_zero]
    intro i hi hlt
    rw [hsnoc, List.length_append, List.length_singleton] at hlt
    rw [hsnoc]
    rcases Nat.lt_succ_iff_lt_or_eq.mp hlt with hlt | rfl
    · rw [List.getD_append _ _ _ _ hlt, List.getD_append _ _ _ _ (by omega), ih i hi hlt]
    · rw [List.getD_append_right _ _ _ _ (Nat.le_refl _),
        List.getD_append _ _ _ _ (by rw [length_copyBack]; omega), Nat.sub_self]
      rfl

theorem Repeats.mul (h : Repeats d p s) (k : Nat) : Repeats ((k + 1) * d) (p + k * d) s := by
  induction k with
  | zero => simpa using h
  | succ k ih =>
    intro i hi hlt
    rw [Nat.succ_mul] at hi
    rw [ih i (by omega) hlt, h (i - (k + 1) * d) (by rw [Nat.succ_mul]; omega) (by omega),
      Nat.sub_sub, ← Nat.succ_mul]

/-- **A multiple of the distance** does as well, once enough has been copied. -/
theorem copyBack_mul (hd : 0 < d) (hl : d ≤ l.length) (hk : k * d ≤ m) :
    copyBack ((k + 1) * d) n (copyBack d m l) = copyBack d (m + n) l := by
  have hrep := (repeats_copyBack hd hl (m + n)).mul k
  have htake : (copyBack d (m + n) l).take (l.length + m) = copyBack d m l :=
    take_copyBack (Nat.le_add_right m n)
  rw [← htake, copyBack_take (fun i hi hin => hrep i (by omega) (by rw [length_copyBack]; omega))
    (Nat.mul_pos (Nat.succ_pos k) hd) (by rw [Nat.succ_mul]; omega)
    (by rw [length_copyBack]; omega)]
  exact List.take_of_length_le (by rw [length_copyBack]; omega)

/-- **A block** that ends where the copy begins, or before. -/
theorem copyBack_block (hn : n ≤ d) (hl : d ≤ l.length) :
    copyBack d n l = l ++ (l.drop (l.length - d)).take n := by
  induction n with
  | zero => simp
  | succ n ih =>
    have hlen : n < (l.drop (l.length - d)).length := by rw [List.length_drop]; omega
    have hback : back d (copyBack d n l) = (l.drop (l.length - d))[n] := by
      rw [back, length_copyBack, ih (Nat.le_of_succ_le hn), List.getElem_drop,
        List.getD_append _ _ _ _ (by omega), List.getD_eq_getElem _ _ (by omega)]
      congr 1
      omega
    rw [copyBack_add, copyBack_succ, copyBack_zero, hback, ih (Nat.le_of_succ_le hn),
      List.append_assoc, List.take_succ_eq_append_getElem hlen]

/-! ## No distance

There is nothing at the end of a list, and a copy from there is a copy of the default. -/

theorem copyBack_none (n : Nat) (l : List α) : copyBack 0 n l = l ++ List.replicate n default := by
  induction n generalizing l with
  | zero => simp
  | succ n ih =>
    have hback : back 0 l = default := by
      rw [back, Nat.sub_zero, List.getD_eq_default _ _ (Nat.le_refl _)]
    rw [copyBack_succ, hback, ih, List.append_assoc, List.replicate_succ, List.singleton_append]

theorem copyBack_one (n : Nat) (l : List α) (a : α) :
    copyBack 1 n (l ++ [a]) = l ++ List.replicate (n + 1) a := by
  induction n generalizing l with
  | zero => rfl
  | succ n ih =>
    have hback : back 1 (l ++ [a]) = a := by simp [back]
    rw [copyBack_succ, hback, ih, List.append_assoc, List.replicate_succ (n := n + 1)]
    rfl

/-- What is copied from no distance may be continued from any. -/
theorem copyBack_none_add (hm : d ≤ m) (hd : 0 < d) (n : Nat) (l : List α) :
    copyBack d n (copyBack 0 m l) = copyBack 0 (m + n) l := by
  obtain ⟨k, rfl⟩ : ∃ k, d = k + 1 := ⟨d - 1, by omega⟩
  obtain ⟨j, rfl⟩ : ∃ j, m = j + 1 := ⟨m - 1, by omega⟩
  have hmul := copyBack_mul (n := n) (m := j) (k := k) (l := l ++ [default]) Nat.one_pos
    (by simp) (by omega)
  rw [Nat.mul_one, copyBack_one, copyBack_one] at hmul
  rw [copyBack_none, copyBack_none, hmul, Nat.add_right_comm]

end Lib
end Inac
