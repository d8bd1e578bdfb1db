import Mathlib.Data.List.Infix

/-!
# Cutting a list at a separator

A list is cut at the leftmost occurrence of a separator, the rest behind it likewise, until there
is no occurrence left: `Leftmost` relates the list to its pieces. A scan from left to right builds
it with two facts in hand, where an occurrence can be in a suffix (`infix_drop_iff`) and that the
pieces of a suffix and those before it are the pieces of the whole (`Leftmost.cut`).
-/

namespace Inac
namespace Lib

variable {α : Type}

/-- The pieces of a list cut at the leftmost non-overlapping occurrences of `p`. -/
inductive Leftmost (p : List α) : List α → List (List α) → Prop where
  | last {s : List α} (h : ¬ p <:+: s) : Leftmost p s [s]
  | cut {t r : List α} {bs : List (List α)}
      (first : ∀ k < t.length, ¬ p <+: (t ++ (p ++ r)).drop k) (rest : Leftmost p r bs) :
      Leftmost p (t ++ (p ++ r)) (t :: bs)

/-- An occurrence in a suffix is one at a place behind its start. -/
theorem infix_drop_iff {p s : List α} {i : Nat} :
    p <:+: s.drop i ↔ ∃ k, i ≤ k ∧ p <+: s.drop k := by
  rw [List.infix_iff_prefix_suffix]
  constructor
  · rintro ⟨t, hpt, hts⟩
    refine ⟨i + ((s.drop i).length - t.length), Nat.le_add_right .., ?_⟩
    rw [← List.drop_drop, ← List.suffix_iff_eq_drop.mp hts]
    exact hpt
  · rintro ⟨k, hik, hpk⟩
    refine ⟨s.drop k, hpk, ?_⟩
    obtain ⟨d, rfl⟩ := Nat.exists_eq_add_of_le hik
    rw [← List.drop_drop]
    exact List.drop_suffix ..

/-- A prefix of a part of the list is a prefix from there on. -/
theorem prefix_drop_append {p t r : List α} {k : Nat} (h : p <+: t.drop k) :
    p <+: (t ++ r).drop k := by
  rw [List.drop_append]
  exact h.trans (List.prefix_append ..)

/-- **No piece holds the separator.** -/
theorem Leftmost.not_infix {p s : List α} (hp : p ≠ []) {bs : List (List α)}
    (h : Leftmost p s bs) : ∀ b ∈ bs, ¬ p <:+: b := by
  induction h with
  | last hs =>
    intro b hb
    rw [List.mem_singleton.mp hb]
    exact hs
  | @cut t r bs first rest ih =>
    intro b hb
    rcases List.mem_cons.mp hb with rfl | hb
    · intro hin
      rw [← List.drop_zero (l := b), infix_drop_iff] at hin
      obtain ⟨k, -, hk⟩ := hin
      -- an occurrence inside the piece would have been found first
      have hlt : k < b.length := by
        by_contra hge
        rw [List.drop_of_length_le (Nat.le_of_not_lt hge)] at hk
        exact hp (List.prefix_nil.mp hk)
      exact first k hlt (prefix_drop_append hk)
    · exact ih b hb

end Lib
end Inac
