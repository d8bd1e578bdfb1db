import Inac.Wildcard.Run

/-!
# Reads behind the terminators

The loop moves on in the text without a look at the terminator in one place only: where the
shortcut has just taken the last symbol. What it does then depends on what the pattern has behind
the first symbol of the stretch. Before the end of the pattern, a `'?'` or stars with something
after them it moves on once more, and reads behind the terminator. An empty text is at its
terminator from the start.
-/

namespace Inac
namespace Wildcard

open Lib

/-- The pattern lets the loop move on from the end of the text: it is over as well, begins with a
    `'?'`, or begins with stars that do not end it. -/
def Unguarded (wild : List UInt8) : Prop :=
  wild = [] ∨ wild.head? = some quest ∨ wild.head? = some star ∧ skipStars wild ≠ []

instance (wild : List UInt8) : Decidable (Unguarded wild) := inferInstanceAs (Decidable (_ ∨ _))

/-- The shortcut takes the last symbol of the text, and the pattern goes on `Unguarded`. -/
def Overruns (s : State) : Prop :=
  s.tame.length = 1 ∧ Jumps s ∧ ∃ tb wb, s.marks = some (tb, wb) ∧ Unguarded wb.tail

/-! ## A round that leaves the strings

`Overruns` names the state in which this happens, and no other round leaves them. -/

theorem fastForward_of_ne_nil {c : UInt8} {t : List UInt8} (ht : t ≠ []) :
    match fastForward c t with
    | .ok t' => t' ≠ []
    | .error r => r = .notMatch := by
  induction t with
  | nil => exact absurd rfl ht
  | cons x t ih =>
    rw [fastForward]
    by_cases hx : x = c
    · rw [if_pos hx]
      exact List.cons_ne_nil x t
    · rw [if_neg hx]
      by_cases hnil : t = []
      · rw [if_pos hnil]
      · rw [if_neg hnil]
        exact ih hnil

theorem advance_eq_outOfBounds {s : State} : advance s = .stop .outOfBounds ↔ s.tame = [] := by
  obtain ⟨tame, wild, marks⟩ := s
  cases tame with
  | nil => simp [advance]
  | cons x t =>
    by_cases ht : t = []
    · simp only [advance, if_pos ht, reduceCtorEq, iff_false]
      split <;> simp
    · simp [advance, ht]

theorem onStar_eq_outOfBounds {s : State} :
    onStar s = .stop .outOfBounds ↔ s.tame = [] ∧ skipStars s.wild ≠ [] := by
  unfold onStar
  cases hskip : skipStars s.wild with
  | nil => simp
  | cons c w =>
    rw [and_iff_left (List.cons_ne_nil c w)]
    by_cases hq : c = quest
    · simp only [if_pos hq]
      exact advance_eq_outOfBounds
    · simp only [if_neg hq]
      by_cases ht : s.tame = []
      · rw [ht]
        exact iff_of_true rfl rfl
      · have hff := fastForward_of_ne_nil (c := c) ht
        cases he : fastForward c s.tame with
        | error r =>
          rw [he] at hff
          simp [hff, ht]
        | ok t =>
          rw [he] at hff
          exact iff_of_false (fun h => hff (advance_eq_outOfBounds.mp h)) ht

/-- Going back stays in the strings. -/
theorem onMismatch_ne_outOfBounds {s : State} (hinv : Inv s) :
    onMismatch s ≠ .stop .outOfBounds := by
  obtain ⟨t, w, marks⟩ := s
  cases marks with
  | none => simp [onMismatch]
  | some marks =>
    obtain ⟨tb, wb⟩ := marks
    by_cases hne : w = wb
    · subst hne
      cases t with
      | nil => simp [onMismatch]
      | cons x t => simp [onMismatch]
    · cases tb with
      | nil => exact absurd rfl ((hinv [] wb rfl).ne_nil hne)
      | cons z tb =>
        by_cases hhead : t.head? = wb.head?
        · cases t with
          | nil => simp [onMismatch, hne, hhead]
          | cons x t => simp [onMismatch, hne, hhead]
        · simp [onMismatch, hne, hhead]

/-- **Where the loop leaves the strings**: at the end of the text, before an `Unguarded`
    pattern. -/
theorem step_eq_outOfBounds {s : State} (hinv : Inv s) :
    step s = .stop .outOfBounds ↔ s.tame = [] ∧ Unguarded s.wild := by
  unfold step
  by_cases hstar : s.wild.head? = some star
  · rw [if_pos hstar, onStar_eq_outOfBounds]
    have hcons : s.wild ≠ [] := by
      intro hnil
      simp [hnil] at hstar
    simp [Unguarded, hstar, hcons, star, quest]
  · rw [if_neg hstar]
    by_cases hmis : s.tame.head? ≠ s.wild.head? ∧ s.wild.head? ≠ some quest
    · rw [if_pos hmis]
      refine iff_of_false (onMismatch_ne_outOfBounds hinv) ?_
      rintro ⟨ht, hnil | hquest | hstar'⟩
      · exact hmis.1 (by rw [ht, hnil])
      · exact hmis.2 hquest
      · exact hstar hstar'.1
    · rw [if_neg hmis, advance_eq_outOfBounds]
      refine (and_iff_left_of_imp fun ht => ?_).symm
      rw [not_and_or, not_not, not_not, ht] at hmis
      rcases hmis with hnil | hquest
      · exact .inl (by simpa using hnil.symm)
      · exact .inr (.inl hquest)

/-! ## How the loop gets to the end of the text

A round that does not take the shortcut looks for the terminator before it goes on. -/

/-- At the end of the text the attempt has read nothing, or its bookmark is at least two symbols
    back, so that there is a place left to go back to. -/
def Roomy (s : State) : Prop :=
  ∀ tb wb, s.marks = some (tb, wb) → s.tame = [] → s.wild = wb ∨ 2 ≤ tb.length

theorem roomy_start (tame wildcard : List UInt8) : Roomy (start tame wildcard) := by
  intro tb wb hm
  cases hm

/-- An attempt that has read something began at least one symbol before. -/
theorem Marked.length_lt {tb wb t w : List UInt8} (h : Marked tb wb t w) (hne : w ≠ wb) :
    t.length < tb.length := by
  obtain ⟨y, x, rfl, hsuf, hfits, -⟩ := h.attempt
  have hy : y ≠ [] := by
    rintro rfl
    exact hne rfl
  have hx : 0 < x.length := by
    rw [← hfits.length_eq, toks, List.length_map]
    exact List.length_pos_of_ne_nil hy
  have hle := hsuf.length_le
  rw [List.length_append] at hle
  omega

theorem advance_marks {s s' : State} (h : advance s = .goOn s') : s'.marks = s.marks := by
  obtain ⟨x, t, -, -, rfl⟩ := advance_goOn h
  rfl

/-- The bookmark in the text only moves on when the attempt has read something. -/
theorem wild_ne_of_back {z : UInt8} {t w tb wb : List UInt8}
    (hinv : Inv ⟨t, w, some (z :: tb, wb)⟩)
    (h : step ⟨t, w, some (z :: tb, wb)⟩ = .goOn ⟨tb, wb, some (tb, wb)⟩) : w ≠ wb := by
  rintro rfl
  obtain ⟨c, w', rfl, hc⟩ := (hinv _ _ rfl).head
  have hstar : (c :: w').head? ≠ some star := by simpa using hc
  have hkeep : tb ≠ z :: tb := fun he => absurd (congrArg List.length he) (by simp)
  rw [step, if_neg hstar] at h
  split at h
  · simp only [onMismatch, ne_eq, not_true, if_false] at h
    split at h
    · cases h
    · have hm := congrArg State.marks (Next.goOn.inj h)
      simp only [Option.some.injEq, Prod.mk.injEq] at hm
      exact hkeep hm.1.symm
  · have hm := advance_marks h
    simp only [Option.some.injEq, Prod.mk.injEq] at hm
    exact hkeep hm.1

/-- **Step to the end of the text**: there is a place left to go back to, and the pattern is
    guarded unless the round overran. -/
theorem Round.to_end {s s' : State} (h : Round s s') (hinv : Inv s) (hroomy : Roomy s)
    (hstep : step s = .goOn s') (ht : s'.tame = []) :
    Roomy s' ∧ (Unguarded s'.wild → Overruns s) := by
  cases h with
  | read hne _ => exact absurd ht hne
  | commit hne _ _ _ _ => exact absurd ht hne
  | @back z t w tb wb _ =>
    simp only at ht
    subst ht
    have hne := wild_ne_of_back hinv hstep
    have hlt := (hinv _ _ rfl).length_lt hne
    have hnil : t = [] := List.length_eq_zero_iff.mp (by simpa using hlt)
    rcases hroomy _ _ rfl hnil with heq | hlen
    · exact absurd heq hne
    · simp at hlen
  | @jump x c t w tb wb hj =>
    simp only at ht
    subst ht
    have hne : w ≠ c :: wb := by
      obtain ⟨-, -, tb', wb', hm, hne, -⟩ := hj
      cases hm
      exact hne
    refine ⟨?_, fun hopen => ⟨rfl, hj, tb, c :: wb, rfl, hopen⟩⟩
    intro tb' wb' hm _
    cases hm
    exact .inr ((hinv _ _ rfl).length_lt hne)
  | @next x t tb wb hw =>
    simp only at ht
    subst ht
    obtain ⟨c, w, rfl, hc⟩ := (hinv _ _ rfl).head
    refine ⟨?_, fun hopen => ?_⟩
    · intro tb' wb' hm _
      cases hm
      exact .inl rfl
    · rcases hopen with hnil | hquest | hstar
      · cases hnil
      · -- a `'?'` would have taken the symbol
        have hstop : step ⟨[x], c :: w, some (tb, c :: w)⟩
            = advance ⟨[x], c :: w, some (tb, c :: w)⟩ := by
          obtain rfl : c = quest := by simpa using hquest
          simp [step, hc]
        rw [hstop] at hstep
        cases hstep
      · exact absurd (by simpa using hstar.1) hc

theorem Roomy.step {s s' : State} (hroomy : Roomy s) (hinv : Inv s)
    (hstep : Wildcard.step s = .goOn s') :
    Roomy s' ∧ (s'.tame = [] → Unguarded s'.wild → Overruns s) := by
  have hround := round_of_step hinv hstep
  by_cases ht : s'.tame = []
  · obtain ⟨hroomy', hover⟩ := hround.to_end hinv hroomy hstep ht
    exact ⟨hroomy', fun _ => hover⟩
  · exact ⟨fun _ _ _ hnil => absurd hnil ht, fun hnil => absurd hnil ht⟩

/-! ## Runs

A run has an end, so it leaves the strings if and only if a state is reached from which it does. -/

/-- **A run that does not overrun stays in the strings.** -/
theorem ne_outOfBounds_of_not_overruns {n : Nat} {s : State} {r : Result} (hinv : Inv s)
    (hroomy : Roomy s) (hguard : s.tame = [] → ¬ Unguarded s.wild)
    (hover : ∀ s', Reached s s' → ¬ Overruns s') (h : loop n s = some r) : r ≠ .outOfBounds := by
  induction n generalizing s with
  | zero => cases h
  | succ n ih =>
    rw [loop] at h
    cases hstep : step s with
    | goOn s' =>
      rw [hstep] at h
      obtain ⟨hroomy', hopen⟩ := hroomy.step hinv hstep
      refine ih (hinv.step hstep).1 hroomy' ?_ ?_ h
      · intro ht hw
        exact hover s .refl (hopen ht hw)
      · intro s'' hreach
        exact hover s'' (.head hstep hreach)
    | stop r' =>
      rw [hstep] at h
      cases h
      rintro rfl
      obtain ⟨ht, hw⟩ := (step_eq_outOfBounds hinv).mp hstep
      exact hguard ht hw

/-- An overrun goes on at the end of the text. -/
theorem Overruns.step {s : State} (h : Overruns s) :
    ∃ s', Wildcard.step s = .goOn s' ∧ s'.tame = [] ∧ Unguarded s'.wild := by
  obtain ⟨hone, ⟨hstar, hmis, tb, wb, hm, hne, hhead⟩, tb', wb', hm', hopen⟩ := h
  rw [hm] at hm'
  cases hm'
  obtain ⟨x, hx⟩ := List.length_eq_one_iff.mp hone
  refine ⟨⟨[], wb.tail, some (tb, wb)⟩, ?_, rfl, hopen⟩
  have hcons : s.tame ≠ [] := by simp [hx]
  have hmove : onMismatch s = .goOn ⟨s.tame.tail, wb.tail, some (tb, wb)⟩ := by
    simp [onMismatch, hm, hne, hhead, hcons]
  rw [Wildcard.step, if_neg hstar, if_pos hmis, hmove, hx]
  rfl

theorem loop_outOfBounds {n : Nat} {s : State} {r : Result} (hinv : Inv s) (ht : s.tame = [])
    (hw : Unguarded s.wild) (h : loop n s = some r) : r = .outOfBounds := by
  have hstep := (step_eq_outOfBounds hinv).mpr ⟨ht, hw⟩
  cases n with
  | zero => cases h
  | succ n =>
    rw [loop, hstep] at h
    exact (Option.some.inj h).symm

/-- **When the matcher stays in the strings.** It returns on every text and pattern, and it does so
    without a read behind a terminator exactly if an empty text meets a guarded pattern and no
    round of the run overruns. -/
theorem wildcard_in_bounds_iff (tame wildcard : List UInt8) :
    (∃ r, wildcardMatch tame wildcard = some r ∧ r ≠ .outOfBounds) ↔
      (tame = [] → ¬ Unguarded wildcard) ∧
        ∀ s, Reached (start tame wildcard) s → ¬ Overruns s := by
  have hinv := inv_start tame wildcard
  constructor
  · rintro ⟨r, hr, hne⟩
    refine ⟨fun ht hw => hne (loop_outOfBounds hinv ht hw hr), ?_⟩
    intro s hreach hover
    obtain ⟨s', hstep, ht, hw⟩ := hover.step
    have hreach' : Reached (start tame wildcard) s' := hreach.tail hstep
    obtain ⟨m, hm⟩ := loop_of_reached hreach' hr
    exact hne (loop_outOfBounds (hinv.reached hreach').1 ht hw hm)
  · rintro ⟨hguard, hover⟩
    obtain ⟨r, hr⟩ := wildcardMatch_returns tame wildcard
    have hroomy := roomy_start tame wildcard
    exact ⟨r, hr, ne_outOfBounds_of_not_overruns hinv hroomy hguard hover hr⟩

end Wildcard
end Inac
