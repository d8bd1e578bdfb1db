import Mathlib.Data.List.Basic
import Mathlib.Data.List.Forall2
import Mathlib.Data.List.Infix

/-!
# Glob patterns

A pattern is a list of tokens: one given symbol, any one symbol, or any sequence of symbols, the
empty one included. `Glob w t` says that the pattern `w` matches the whole of the text `t`. This
file is what the correctness of a matcher rests on: how a `many` takes symbols, and how a stretch
of the pattern without `many` is matched by a stretch of text of the same length.
-/

namespace Inac
namespace Lib

variable {α : Type}

inductive Tok (α : Type) where
  | one
  | many
  | lit (a : α)
  deriving DecidableEq, Repr

def Glob : List (Tok α) → List α → Prop
  | [], t => t = []
  | .one :: w, t => ∃ x t', t = x :: t' ∧ Glob w t'
  | .lit a :: w, t => ∃ t', t = a :: t' ∧ Glob w t'
  | .many :: w, t => ∃ q, q <:+ t ∧ Glob w q

/-- The token stands for this symbol. -/
def Tok.Admits : Tok α → α → Prop
  | .one, _ => True
  | .lit a, x => a = x
  | .many, _ => False

instance decidableGlob [DecidableEq α] : ∀ (w : List (Tok α)) (t : List α), Decidable (Glob w t)
  | [], t => inferInstanceAs (Decidable (t = []))
  | .one :: _, [] => isFalse (by simp [Glob])
  | .one :: w, x :: t =>
    have := decidableGlob w t
    decidable_of_iff (Glob w t) (by simp [Glob])
  | .lit _ :: _, [] => isFalse (by simp [Glob])
  | .lit a :: w, x :: t =>
    have := decidableGlob w t
    decidable_of_iff (x = a ∧ Glob w t) (by simp [Glob])
  | .many :: w, t =>
    have := decidableGlob w
    decidable_of_iff (∃ q ∈ t.tails, Glob w q) (by simp [Glob, List.mem_tails])

/-! ## One token

The rules by which a match is taken apart from the front. -/

@[simp] theorem glob_nil {t : List α} : Glob [] t ↔ t = [] := Iff.rfl

theorem glob_many {w : List (Tok α)} {t : List α} :
    Glob (.many :: w) t ↔ ∃ q, q <:+ t ∧ Glob w q := Iff.rfl

theorem glob_cons_cons {c : Tok α} {w : List (Tok α)} {x : α} {t : List α} (hc : c ≠ .many) :
    Glob (c :: w) (x :: t) ↔ c.Admits x ∧ Glob w t := by
  cases c with
  | one => simp [Glob, Tok.Admits]
  | many => exact absurd rfl hc
  | lit a => simp [Glob, Tok.Admits, eq_comm]

theorem not_glob_cons_nil {c : Tok α} {w : List (Tok α)} (hc : c ≠ .many) :
    ¬ Glob (c :: w) [] := by
  cases c with
  | one => simp [Glob]
  | many => exact absurd rfl hc
  | lit a => simp [Glob]

/-- Only a pattern of `many`s matches the empty text. -/
theorem glob_nil_right {w : List (Tok α)} : Glob w [] ↔ ∀ c ∈ w, c = .many := by
  induction w with
  | nil => simp
  | cons c w ih =>
    by_cases hc : c = .many
    · subst hc
      rw [glob_many]
      simp [ih]
    · simp [not_glob_cons_nil hc, hc]

/-! ## A `many`

It takes nothing, or a symbol and then as much as it likes. -/

theorem glob_many_of_glob {w : List (Tok α)} {t : List α} (h : Glob w t) : Glob (.many :: w) t :=
  ⟨t, List.suffix_rfl, h⟩

theorem Glob.many_of_suffix {w : List (Tok α)} {q t : List α} (h : Glob (.many :: w) q)
    (hq : q <:+ t) : Glob (.many :: w) t := by
  obtain ⟨r, hr, hw⟩ := h
  exact ⟨r, hr.trans hq, hw⟩

theorem glob_many_cons {w : List (Tok α)} {x : α} {t : List α} :
    Glob (.many :: w) (x :: t) ↔ Glob w (x :: t) ∨ Glob (.many :: w) t := by
  constructor
  · rintro ⟨q, hq, hw⟩
    rcases List.suffix_cons_iff.mp hq with rfl | hq
    · exact .inl hw
    · exact .inr ⟨q, hq, hw⟩
  · rintro (hw | hw)
    · exact glob_many_of_glob hw
    · exact hw.many_of_suffix (List.suffix_cons x t)

theorem glob_many_many {w : List (Tok α)} {t : List α} :
    Glob (.many :: .many :: w) t ↔ Glob (.many :: w) t := by
  constructor
  · rintro ⟨q, hq, hw⟩
    exact hw.many_of_suffix hq
  · exact glob_many_of_glob

theorem not_glob_many_cons_nil {c : Tok α} {w : List (Tok α)} (hc : c ≠ .many) :
    ¬ Glob (.many :: c :: w) [] := by
  rintro ⟨q, hq, hw⟩
  rw [List.suffix_nil.mp hq] at hw
  exact not_glob_cons_nil hc hw

/-! ## Patterns one behind the other

A text is matched if it can be cut so that each pattern matches its part. -/

theorem Glob.append {w w' : List (Tok α)} {t t' : List α} (h : Glob w t) (h' : Glob w' t') :
    Glob (w ++ w') (t ++ t') := by
  induction w generalizing t with
  | nil =>
    rw [glob_nil.mp h]
    exact h'
  | cons c w ih =>
    by_cases hc : c = .many
    · subst hc
      obtain ⟨q, ⟨v, rfl⟩, hw⟩ := h
      exact ⟨q ++ t', ⟨v, (List.append_assoc v q t').symm⟩, ih hw⟩
    · cases t with
      | nil => exact absurd h (not_glob_cons_nil hc)
      | cons x t =>
        obtain ⟨hx, hw⟩ := (glob_cons_cons hc).mp h
        exact (glob_cons_cons hc).mpr ⟨hx, ih hw⟩

/-! ## Stretches without `many`

There the lengths are equal, so it is settled symbol by symbol. -/

/-- The tokens stand for these symbols, one for one. -/
def Fits (y : List (Tok α)) (x : List α) : Prop := List.Forall₂ Tok.Admits y x

theorem Fits.length_eq {y : List (Tok α)} {x : List α} (h : Fits y x) : y.length = x.length :=
  List.Forall₂.length_eq h

theorem Tok.Admits.ne_many {c : Tok α} {x : α} (h : c.Admits x) : c ≠ .many := by
  rintro rfl
  exact h

theorem Fits.snoc {y : List (Tok α)} {x : List α} {c : Tok α} {a : α} (h : Fits y x)
    (hc : c.Admits a) : Fits (y ++ [c]) (x ++ [a]) :=
  List.rel_append h (List.Forall₂.cons hc List.Forall₂.nil)

theorem Fits.glob_append {y w : List (Tok α)} {x t : List α} (h : Fits y x) :
    Glob (y ++ w) (x ++ t) ↔ Glob w t := by
  induction h with
  | nil => rfl
  | cons hc _ ih =>
    rw [List.cons_append, List.cons_append, glob_cons_cons hc.ne_many, ih]
    exact and_iff_right hc

theorem Fits.ne_many {y : List (Tok α)} {x : List α} (h : Fits y x) : ∀ c ∈ y, c ≠ .many := by
  induction h with
  | nil => simp
  | cons hc _ ih => exact List.forall_mem_cons.mpr ⟨hc.ne_many, ih⟩

/-- Tokens that are no `many` take one symbol each. -/
theorem Glob.split {y w : List (Tok α)} {q : List α} (h : Glob (y ++ w) q)
    (hy : ∀ c ∈ y, c ≠ .many) :
    ∃ t, t <:+ q ∧ y.length + t.length = q.length ∧ Glob w t := by
  induction y generalizing q with
  | nil => exact ⟨q, List.suffix_rfl, Nat.zero_add _, h⟩
  | cons c y ih =>
    obtain ⟨hc, hy⟩ := List.forall_mem_cons.mp hy
    cases q with
    | nil => exact absurd h (not_glob_cons_nil hc)
    | cons x q =>
      obtain ⟨t, ht, hlen, hw⟩ := ih ((glob_cons_cons hc).mp h).2 hy
      exact ⟨t, ht.trans (List.suffix_cons x q), by simp only [List.length_cons]; omega, hw⟩

end Lib
end Inac
