import Inac.Cron.Grammar

/-!
# Which patterns are accepted

A field may be empty for the parser, a comma or a `'-'` may be the last thing in it, a step may be
missing or 0, and what follows the fifth field is not looked at. So a pattern that is not
well-formed is refused only where its text cannot be read or where one of its items does not fit.

The grammar is the one of `Inac.Cron.Grammar`, and an error is one that is returned: a write outside
an array is none.
-/

namespace Inac
namespace Cron

/-- For every pattern that is not well-formed an error is returned. -/
def WellFormedOnly (pattern : List Char) (tt : Timetable) : Prop :=
  ¬ WellFormed Col.all pattern → ∃ e, parsePattern pattern tt = .error (.rc e)

/-- **When a malformed pattern is refused.** Exactly if it is empty, or it is not read to the end
    with items that all fit and faults nowhere, or else it is read as five complete fields with
    nothing left. -/
theorem wellFormedOnly_iff (pattern : List Char) (tt : Timetable) :
    WellFormedOnly pattern tt ↔
      (pattern ≠ [] → (scan Col.all pattern).Passes ∨ (scan Col.all pattern).Faults →
        (scan Col.all pattern).Tidy) := by
  rw [WellFormedOnly, wellFormed_iff_tidy]
  by_cases hne : pattern = []
  · subst hne
    exact iff_of_true (fun _ => ⟨.invalidArgument, rfl⟩) (fun h => absurd rfl h)
  · rw [parsePattern_rc_iff hne, ← not_or]
    constructor
    · intro h _ hcase
      by_contra htidy
      exact h htidy hcase
    · intro h htidy hcase
      exact htidy (h hne hcase)

/-- `"*"` has one field and is accepted. -/
theorem wellFormedOnly_fails : ¬ WellFormedOnly ['*'] .zero := by
  intro h
  have hmalformed : ¬ WellFormed Col.all ['*'] := by
    rw [wellFormed_iff_tidy]
    rintro ⟨-, hfields⟩
    obtain ⟨⟨e, he⟩, -⟩ := hfields (.hours, ⟨[], .hanging [] []⟩) (by decide +kernel)
    cases he
  exact ((parsePattern_rc_iff (by decide)).mp (h hmalformed)).1 (by decide +kernel)

end Cron
end Inac
