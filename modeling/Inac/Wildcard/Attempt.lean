import Inac.Wildcard.Defs

/-!
# Attempts of the wildcard matcher

What the loop is in the middle of: an attempt to match the stretch after the last star, begun at
some place in the text from the bookmark on. `Live` says that there is still a match to find. A
round that reads on, goes back or starts the next attempt keeps what is `Live`. A round that ends
the attempt, at a star or at the end of the text, stands or falls with what the attempt leaves.
-/

namespace Inac
namespace Wildcard

open Lib

/-! ## Tokens

The pattern's bytes as tokens of `Inac.Lib.Glob`, and its tests in these terms. -/

@[simp] theorem toks_cons (c : UInt8) (w : List UInt8) : toks (c :: w) = tok c :: toks w := rfl

@[simp] theorem toks_append (y w : List UInt8) : toks (y ++ w) = toks y ++ toks w :=
  List.map_append

theorem tok_star : tok star = .many := rfl

theorem tok_ne_many {c : UInt8} (hc : c ≠ star) : tok c ≠ .many := by
  rw [tok, if_neg hc]
  split <;> simp

theorem tok_admits {c x : UInt8} (hc : c ≠ star) : (tok c).Admits x ↔ c = quest ∨ x = c := by
  rw [tok, if_neg hc]
  by_cases hq : c = quest
  · simp [hq, Tok.Admits]
  · simp [hq, Tok.Admits, eq_comm]

/-- The loop's test of two symbols. -/
theorem tok_admits_of_test {c x : UInt8} {w t : List UInt8} (hc : c ≠ star)
    (h : (x :: t).head? = (c :: w).head? ∨ (c :: w).head? = some quest) : (tok c).Admits x := by
  rw [tok_admits hc]
  rcases h with he | hq
  · exact .inr (Option.some.inj he)
  · exact .inl (Option.some.inj hq)

theorem matches_cons_cons {c x : UInt8} {w t : List UInt8} (hc : c ≠ star) :
    Matches (c :: w) (x :: t) ↔ (tok c).Admits x ∧ Matches w t :=
  glob_cons_cons (tok_ne_many hc)

theorem not_matches_cons_nil {c : UInt8} {w : List UInt8} (hc : c ≠ star) :
    ¬ Matches (c :: w) [] := not_glob_cons_nil (tok_ne_many hc)

/-! ## Stars

At a star the loop first skips the stars, and then goes to the first symbol of the text that fits
the next one. -/

/-- Some place from `t` on is matched by `w`. -/
def MatchesFrom (w t : List UInt8) : Prop := Glob (.many :: toks w) t

theorem matchesFrom_iff {w t : List UInt8} : MatchesFrom w t ↔ ∃ q, q <:+ t ∧ Matches w q :=
  glob_many

theorem matchesFrom_skipStars (w t : List UInt8) :
    MatchesFrom (skipStars w) t ↔ MatchesFrom w t := by
  induction w with
  | nil => rfl
  | cons c w ih =>
    by_cases hc : c = star
    · subst hc
      have hskip : skipStars (star :: w) = skipStars w := rfl
      rw [hskip, ih]
      exact glob_many_many.symm
    · have hskip : skipStars (c :: w) = c :: w := by simp [skipStars, hc]
      rw [hskip]

theorem skipStars_eq_nil {w : List UInt8} : skipStars w = [] ↔ Matches w [] := by
  induction w with
  | nil => simp [skipStars, Matches, toks]
  | cons c w ih =>
    by_cases hc : c = star
    · subst hc
      have hmatch : Matches (star :: w) [] ↔ Matches w [] := by
        simp [Matches, glob_nil_right, tok_star]
      rw [hmatch, ← ih]
      rfl
    · have hskip : skipStars (c :: w) = c :: w := by simp [skipStars, hc]
      simp [hskip, not_matches_cons_nil hc]

theorem skipStars_cons {w w' : List UInt8} {c : UInt8} (h : skipStars w = c :: w') :
    c ≠ star := by
  intro hc
  have := List.head?_dropWhile_not (· = star) w
  rw [← skipStars, h] at this
  simp [hc] at this

theorem matches_star {w t : List UInt8} (h : w.head? = some star) :
    Matches w t ↔ MatchesFrom (skipStars w) t := by
  cases w with
  | nil => simp at h
  | cons c w =>
    obtain rfl : c = star := by simpa using h
    rw [matchesFrom_skipStars]
    exact glob_many_many.symm

/-- The places that the fast-forward passes over do not match. -/
theorem fastForward_spec {c : UInt8} (hstar : c ≠ star) (hquest : c ≠ quest)
    (w t : List UInt8) :
    match fastForward c t with
    | .ok t' => t'.head? = some c ∧ t' <:+ t ∧ (MatchesFrom (c :: w) t' ↔ MatchesFrom (c :: w) t)
    | .error r => r ≠ .success ∧ ¬ MatchesFrom (c :: w) t := by
  induction t with
  | nil => exact ⟨by simp, not_glob_many_cons_nil (tok_ne_many hstar)⟩
  | cons x t ih =>
    rw [fastForward]
    by_cases hx : x = c
    · rw [if_pos hx]
      exact ⟨by rw [hx]; rfl, List.suffix_rfl, Iff.rfl⟩
    · -- The symbol does not fit, so the stretch does not begin here.
      have hpass : MatchesFrom (c :: w) (x :: t) ↔ MatchesFrom (c :: w) t := by
        rw [MatchesFrom, glob_many_cons, or_iff_right]
        · rfl
        · intro h
          rcases (tok_admits hstar).mp ((matches_cons_cons hstar).mp h).1 with h | h
          · exact hquest h
          · exact hx h
      rw [if_neg hx]
      by_cases ht : t = []
      · rw [if_pos ht]
        refine ⟨by simp, ?_⟩
        rw [hpass, ht]
        exact not_glob_many_cons_nil (tok_ne_many hstar)
      · rw [if_neg ht]
        cases hff : fastForward c t with
        | error r =>
          rw [hff] at ih
          exact ⟨ih.1, by rw [hpass]; exact ih.2⟩
        | ok t' =>
          rw [hff] at ih
          exact ⟨ih.1, ih.2.1.trans (List.suffix_cons x t), by rw [hpass]; exact ih.2.2⟩

/-! ## Attempts

`Marked` is what the bookmarks stand for: a stretch that is tried from some place behind the
bookmark, and what of it has been matched. -/

/-- With bookmarks: the attempt that runs began at a place in the text from the bookmark on, and
    what it has read fits the pattern from its bookmark on. The bookmark itself is where the
    attempt began or does not match. While nothing has been read, no place before matches. -/
structure Marked (tb wb t w : List UInt8) : Prop where
  attempt : ∃ y x, wb = y ++ w ∧ x ++ t <:+ tb ∧ Fits (toks y) x ∧
    (y = [] ∨ x ++ t = tb ∨ ¬ Matches wb tb)
  head : ∃ c w', wb = c :: w' ∧ c ≠ star
  scan : w = wb → ∀ q, q <:+ tb → t.length < q.length → ¬ Matches wb q

def Inv (s : State) : Prop :=
  ∀ tb wb, s.marks = some (tb, wb) → Marked tb wb s.tame s.wild

/-- What is left to find: a match of the pattern from its bookmark on, at any place in the text
    from its bookmark on. -/
def Live (s : State) : Prop :=
  match s.marks with
  | none => Matches s.wild s.tame
  | some (tb, wb) => MatchesFrom wb tb

/-- This round does not try another place: the pattern is at a star, or the symbols match and the
    text is over. -/
def Ends (s : State) : Prop :=
  s.wild.head? = some star ∨
    ((s.tame.head? = s.wild.head? ∨ s.wild.head? = some quest) ∧ s.tame.length ≤ 1)

theorem Marked.first {x c : UInt8} {t w : List UInt8} (hc : c ≠ star) (h : (tok c).Admits x) :
    Marked (x :: t) (c :: w) t w := by
  refine ⟨⟨[c], [x], rfl, List.suffix_rfl, ?_, .inr (.inl rfl)⟩, ⟨c, w, rfl, hc⟩, ?_⟩
  · exact List.Forall₂.cons h List.Forall₂.nil
  · intro he
    exact absurd (congrArg List.length he) (by simp)

/-- A match of the rest is a match of the attempt. -/
theorem Marked.matchesFrom {tb wb t w : List UInt8} (h : Marked tb wb t w) (hw : Matches w t) :
    MatchesFrom wb tb := by
  obtain ⟨y, x, rfl, hsuf, hfits, -⟩ := h.attempt
  refine matchesFrom_iff.mpr ⟨x ++ t, hsuf, ?_⟩
  rw [Matches, toks_append, hfits.glob_append]
  exact hw

theorem Inv.live {s : State} (h : Inv s) (hw : Matches s.wild s.tame) : Live s := by
  unfold Live
  cases hm : s.marks with
  | none => exact hw
  | some marks => exact (h marks.1 marks.2 hm).matchesFrom hw

/-- The bookmark does not match once the attempt has failed. -/
theorem Marked.not_matches {tb wb t w : List UInt8} (h : Marked tb wb t w) (hne : w ≠ wb)
    (hw : ¬ Matches w t) : ¬ Matches wb tb := by
  obtain ⟨y, x, rfl, -, hfits, hstart⟩ := h.attempt
  rcases hstart with rfl | hstart | hstart
  · exact absurd rfl hne
  · rw [← hstart, Matches, toks_append, hfits.glob_append]
    exact hw
  · exact hstart

/-! ## Rounds

By the three tests of a round: a star, a mismatch, or a symbol that fits. -/

/-- The two symbols match: what the loop goes on with. -/
theorem advance_spec {x c : UInt8} (hc : c ≠ star) (h : (tok c).Admits x) (t w : List UInt8)
    (marks : Option (List UInt8 × List UInt8)) :
    (t = [] ∧ ∃ r, advance ⟨x :: t, c :: w, marks⟩ = .stop r ∧
      (r = .success ↔ Matches (c :: w) (x :: t))) ∨
    (t ≠ [] ∧ advance ⟨x :: t, c :: w, marks⟩ = .goOn ⟨t, w, marks⟩) := by
  by_cases ht : t = []
  · refine .inl ⟨ht, if skipStars w = [] then .success else .notMatch, ?_, ?_⟩
    · rw [ht]; rfl
    · rw [matches_cons_cons hc, ht, and_iff_right h, ← skipStars_eq_nil]
      split <;> simp_all
  · refine .inr ⟨ht, ?_⟩
    simp only [advance, if_neg ht, List.tail_cons]

/-- After new bookmarks are set. -/
theorem advance_marked {c : UInt8} {tb w : List UInt8} (hc : c ≠ star)
    (h : ∀ x ∈ tb.head?, (tok c).Admits x) :
    (∃ r, advance ⟨tb, c :: w, some (tb, c :: w)⟩ = .stop r ∧
      (r = .success ↔ MatchesFrom (c :: w) tb)) ∨
    ∃ s, advance ⟨tb, c :: w, some (tb, c :: w)⟩ = .goOn s ∧ Inv s ∧
      (Live s ↔ MatchesFrom (c :: w) tb) := by
  cases tb with
  | nil => exact .inl ⟨.outOfBounds, rfl, by simp [MatchesFrom,
      not_glob_many_cons_nil (tok_ne_many hc)]⟩
  | cons x t =>
    have hx : (tok c).Admits x := h x rfl
    rcases advance_spec hc hx t w (some (x :: t, c :: w)) with ⟨rfl, r, hr, hiff⟩ | ⟨-, hgo⟩
    · refine .inl ⟨r, hr, ?_⟩
      rw [hiff, MatchesFrom, glob_many_cons]
      exact (or_iff_left (not_glob_many_cons_nil (tok_ne_many hc))).symm
    · refine .inr ⟨_, hgo, ?_, Iff.rfl⟩
      intro tb wb hm
      cases hm
      exact .first hc hx

/-- At a star: the answer, or new bookmarks, for which the same is left to find. -/
theorem onStar_spec {s : State} (hstar : s.wild.head? = some star) :
    (∃ r, onStar s = .stop r ∧ (r = .success ↔ Matches s.wild s.tame)) ∨
    ∃ s', onStar s = .goOn s' ∧ Inv s' ∧ (Live s' ↔ Matches s.wild s.tame) := by
  rw [matches_star hstar]
  unfold onStar
  -- Stars at the end match whatever is left.
  cases hskip : skipStars s.wild with
  | nil =>
    refine .inl ⟨.success, rfl, ?_⟩
    simp only [true_iff]
    exact matchesFrom_iff.mpr ⟨[], List.nil_suffix, rfl⟩
  | cons c w =>
    have hc := skipStars_cons hskip
    by_cases hq : c = quest
    · simp only [if_pos hq]
      exact advance_marked hc fun x _ => (tok_admits hc).mpr (.inl hq)
    · simp only [if_neg hq]
      have hff := fastForward_spec hc hq w s.tame
      cases he : fastForward c s.tame with
      | error r =>
        rw [he] at hff
        exact .inl ⟨r, rfl, iff_of_false hff.1 hff.2⟩
      | ok t =>
        rw [he] at hff
        obtain ⟨hhead, -, hiff⟩ := hff
        have hadm : ∀ x ∈ t.head?, (tok c).Admits x := by
          intro x hx
          rw [hhead] at hx
          exact (tok_admits hc).mpr (.inr (Option.some.inj hx).symm)
        rw [← hiff]
        exact advance_marked hc hadm

/-- What a round that ends an attempt does: it answers or commits to the rest of the text. -/
theorem step_ends {s : State} (h : Ends s) :
    (∃ r, step s = .stop r ∧ (r = .success → Matches s.wild s.tame) ∧
      (Matches s.wild s.tame → r = .success ∨ s.tame = [] ∧ s.wild = [])) ∨
    ∃ s', step s = .goOn s' ∧ Inv s' ∧ (Live s' ↔ Matches s.wild s.tame) := by
  by_cases hstar : s.wild.head? = some star
  · rw [step, if_pos hstar]
    rcases onStar_spec hstar with ⟨r, hr, hiff⟩ | hgo
    · exact .inl ⟨r, hr, hiff.mp, fun hw => .inl (hiff.mpr hw)⟩
    · exact .inr hgo
  · obtain ⟨heq, hlen⟩ := h.resolve_left hstar
    -- No star: the symbols fit, and the text ends with this one.
    have hmatch : ¬ (s.tame.head? ≠ s.wild.head? ∧ s.wild.head? ≠ some quest) := by
      rintro ⟨hne, hq⟩
      exact heq.elim hne hq
    rw [step, if_neg hstar, if_neg hmatch]
    obtain ⟨tame, wild, marks⟩ := s
    cases tame with
    | nil =>
      refine .inl ⟨.outOfBounds, rfl, by simp, ?_⟩
      intro hw
      cases wild with
      | nil => exact .inr ⟨rfl, rfl⟩
      | cons c w =>
        have hc : c ≠ star := by simpa using hstar
        exact absurd hw (not_matches_cons_nil hc)
    | cons x t =>
      cases wild with
      | nil => simp at heq
      | cons c w =>
        have hc : c ≠ star := by simpa using hstar
        have hadm : (tok c).Admits x := tok_admits_of_test hc heq
        have ht : t = [] := by
          simpa using hlen
        rcases advance_spec hc hadm t w marks with ⟨-, r, hr, hiff⟩ | ⟨hne, -⟩
        · exact .inl ⟨r, hr, hiff.mp, fun hw => .inl (hiff.mpr hw)⟩
        · exact absurd ht hne

theorem not_matches_of_mismatch {t w : List UInt8} (hstar : w.head? ≠ some star)
    (hne : t.head? ≠ w.head?) (hquest : w.head? ≠ some quest) : ¬ Matches w t := by
  cases w with
  | nil =>
    intro hw
    rw [Matches, toks, List.map_nil, glob_nil] at hw
    exact hne (by rw [hw])
  | cons c w =>
    have hc : c ≠ star := by simpa using hstar
    cases t with
    | nil => exact not_matches_cons_nil hc
    | cons x t =>
      rw [matches_cons_cons hc, tok_admits hc]
      rintro ⟨hq | hx, -⟩
      · exact hquest (by rw [hq]; rfl)
      · exact hne (by rw [hx]; rfl)

/-- The bookmark moves on by one place, which does not match. -/
theorem Marked.back {z : UInt8} {tb wb t w : List UInt8} (h : Marked (z :: tb) wb t w)
    (hne : w ≠ wb) (hw : ¬ Matches w t) :
    Marked tb wb tb wb ∧ (MatchesFrom wb tb ↔ MatchesFrom wb (z :: tb)) := by
  refine ⟨⟨⟨[], [], rfl, List.suffix_rfl, List.Forall₂.nil, .inl rfl⟩, h.head, ?_⟩, ?_⟩
  · intro _ q hq hlt
    exact absurd hq.length_le (by omega)
  · rw [MatchesFrom, MatchesFrom, glob_many_cons]
    exact (or_iff_right (h.not_matches hne hw)).symm

/-- The shortcut: the next attempt begins where this one failed. -/
theorem Marked.jump {a : UInt8} {tb t w wb : List UInt8} (h : Marked tb (a :: wb) (a :: t) w)
    (hne : w ≠ a :: wb) (hw : ¬ Matches w (a :: t)) : Marked tb (a :: wb) t wb := by
  obtain ⟨y, x, -, hsuf, -, -⟩ := h.attempt
  obtain ⟨c, w', hcons, hc⟩ := h.head
  obtain ⟨rfl, rfl⟩ := List.cons.inj hcons
  refine ⟨⟨[a], [a], rfl, ?_, ?_, .inr (.inr (h.not_matches hne hw))⟩, h.head, ?_⟩
  · exact (List.suffix_append x _).trans hsuf
  · exact List.Forall₂.cons ((tok_admits hc).mpr (.inr rfl)) List.Forall₂.nil
  · intro he
    exact absurd (congrArg List.length he) (by simp)

/-- Nothing has been read and the symbol is not the first of the stretch: the next place. -/
theorem Marked.next {x : UInt8} {tb t wb : List UInt8} (h : Marked tb wb (x :: t) wb)
    (hw : ¬ Matches wb (x :: t)) : Marked tb wb t wb := by
  obtain ⟨y, x', -, hsuf, -, -⟩ := h.attempt
  have hplace : x :: t <:+ tb := (List.suffix_append x' _).trans hsuf
  refine ⟨⟨[], [], rfl, (List.suffix_cons x t).trans hplace, List.Forall₂.nil, .inl rfl⟩,
    h.head, ?_⟩
  intro _ q hq hlt
  by_cases hlong : (x :: t).length < q.length
  · exact h.scan rfl q hq hlong
  · have heq : q = x :: t :=
      (List.suffix_of_suffix_length_le hq hplace (by omega)).eq_of_length (by
        simp only [List.length_cons] at hlong ⊢; omega)
    rw [heq]
    exact hw

/-- The attempt reads one more symbol. -/
theorem Marked.read {x c : UInt8} {tb wb t w : List UInt8} (h : Marked tb wb (x :: t) (c :: w))
    (hadm : (tok c).Admits x) : Marked tb wb t w := by
  obtain ⟨y, x', hwb, hsuf, hfits, hstart⟩ := h.attempt
  refine ⟨⟨y ++ [c], x' ++ [x], ?_, ?_, ?_, .inr ?_⟩, h.head, ?_⟩
  · rw [hwb, List.append_assoc]; rfl
  · rw [List.append_assoc]; exact hsuf
  · rw [toks_append]; exact hfits.snoc hadm
  · rcases hstart with rfl | hstart | hstart
    · -- nothing read so far: the attempt begins here
      by_cases hbegin : x' ++ x :: t = tb
      · exact .inl (by rw [List.append_assoc]; exact hbegin)
      · refine .inr (h.scan hwb.symm tb List.suffix_rfl ?_)
        have hx' : x' = [] := List.length_eq_zero_iff.mp hfits.length_eq.symm
        rw [hx'] at hbegin hsuf
        exact lt_of_le_of_ne hsuf.length_le fun he => hbegin (hsuf.eq_of_length he)
    · exact .inl (by rw [List.append_assoc]; exact hstart)
    · exact .inr hstart
  · intro he
    have hlen := congrArg List.length hwb
    rw [← he] at hlen
    simp only [List.length_append, List.length_cons] at hlen
    omega

theorem Marked.suffix {tb wb t w : List UInt8} (h : Marked tb wb t w) : t <:+ tb := by
  obtain ⟨y, x, -, hsuf, -, -⟩ := h.attempt
  exact (List.suffix_append x t).trans hsuf

/-- All places have been passed over. -/
theorem Marked.over {tb wb : List UInt8} (h : Marked tb wb [] wb) : ¬ MatchesFrom wb tb := by
  rw [matchesFrom_iff]
  rintro ⟨q, hq, hw⟩
  obtain ⟨c, w, rfl, hc⟩ := h.head
  cases q with
  | nil => exact not_matches_cons_nil hc hw
  | cons x q => exact h.scan rfl _ hq (by simp) hw

/-- With the bookmark at the end of the text nothing can have been read. -/
theorem Marked.ne_nil {tb wb t w : List UInt8} (h : Marked tb wb t w) (hne : w ≠ wb) :
    tb ≠ [] := by
  rintro rfl
  obtain ⟨y, x, hwb, hsuf, hfits, -⟩ := h.attempt
  have hx : x = [] := (List.append_eq_nil_iff.mp (List.suffix_nil.mp hsuf)).1
  rw [hx] at hfits
  have hy : y = [] := List.length_eq_zero_iff.mp (by simpa [toks] using hfits.length_eq)
  exact hne (by rw [hwb, hy]; rfl)

/-- A mismatch does not change what is left to find, or nothing is left. -/
theorem onMismatch_spec {s : State} (hinv : Inv s) (hw : ¬ Matches s.wild s.tame) :
    (∃ r, onMismatch s = .stop r ∧ r ≠ .success ∧ ¬ Live s) ∨
    ∃ s', onMismatch s = .goOn s' ∧ Inv s' ∧ (Live s' ↔ Live s) := by
  obtain ⟨t, w, marks⟩ := s
  cases marks with
  | none => exact .inl ⟨.notMatch, rfl, by simp, hw⟩
  | some marks =>
    obtain ⟨tb, wb⟩ := marks
    have hm : Marked tb wb t w := hinv tb wb rfl
    have hinv' : ∀ {t' tb' w'}, Marked tb' wb t' w' → Inv ⟨t', w', some (tb', wb)⟩ := by
      intro t' tb' w' h tb'' wb'' he
      cases he
      exact h
    -- The first symbol of the stretch did not fit; the next place is tried.
    by_cases hne : w = wb
    · subst hne
      cases t with
      | nil => exact .inl ⟨.notMatch, by simp [onMismatch], by simp, hm.over⟩
      | cons x t =>
        exact .inr ⟨_, by simp [onMismatch], hinv' (hm.next hw), Iff.rfl⟩
    · -- The shortcut, or back to the bookmarks.
      by_cases hhead : t.head? = wb.head?
      · obtain ⟨a, wb', rfl, hc⟩ := hm.head
        cases t with
        | nil => simp at hhead
        | cons x t =>
          obtain rfl : x = a := by simpa using hhead
          exact .inr ⟨⟨t, wb', some (tb, x :: wb')⟩, by simp [onMismatch, hne],
            hinv' (hm.jump hne hw), Iff.rfl⟩
      · cases tb with
        | nil => exact absurd rfl (hm.ne_nil hne)
        | cons z tb =>
          obtain ⟨hback, hiff⟩ := hm.back hne hw
          exact .inr ⟨⟨tb, wb, some (tb, wb)⟩, by simp [onMismatch, hne, hhead],
            hinv' hback, hiff⟩

/-- What a round that does not end an attempt does: it keeps what is left to find. -/
theorem step_stays {s : State} (hinv : Inv s) (h : ¬ Ends s) :
    (∃ r, step s = .stop r ∧ r ≠ .success ∧ ¬ Live s) ∨
    ∃ s', step s = .goOn s' ∧ Inv s' ∧ (Live s' ↔ Live s) := by
  rw [Ends, not_or, not_and_or] at h
  obtain ⟨hstar, hcase⟩ := h
  by_cases hmis : s.tame.head? ≠ s.wild.head? ∧ s.wild.head? ≠ some quest
  · rw [step, if_neg hstar, if_pos hmis]
    exact onMismatch_spec hinv (not_matches_of_mismatch hstar hmis.1 hmis.2)
  · rw [step, if_neg hstar, if_neg hmis]
    rw [not_and_or, not_not, not_not] at hmis
    have hlen : ¬ s.tame.length ≤ 1 := hcase.resolve_left (not_not.mpr hmis)
    obtain ⟨tame, wild, marks⟩ := s
    cases tame with
    | nil => simp at hlen
    | cons x t =>
      cases wild with
      | nil => simp at hmis
      | cons c w =>
        have hc : c ≠ star := by simpa using hstar
        have hadm : (tok c).Admits x := tok_admits_of_test hc hmis
        -- A symbol that fits, with more of the text behind it.
        rcases advance_spec hc hadm t w marks with ⟨rfl, -⟩ | ⟨-, hgo⟩
        · simp at hlen
        · refine .inr ⟨_, hgo, ?_, ?_⟩
          · intro tb wb hm
            exact (hinv tb wb hm).read hadm
          · cases marks with
            | none => exact ((matches_cons_cons hc).trans (and_iff_right hadm)).symm
            | some marks => exact Iff.rfl

/-- Where the loop goes on, read off its step. -/
theorem step_goOn {s s' : State} (hinv : Inv s) (h : step s = .goOn s') :
    Inv s' ∧ (Ends s ∧ (Live s' ↔ Matches s.wild s.tame) ∨ ¬ Ends s ∧ (Live s' ↔ Live s)) := by
  by_cases hends : Ends s
  · rcases step_ends hends with ⟨r, hr, -⟩ | ⟨s'', hgo, hinv', hiff⟩
    · rw [hr] at h
      cases h
    · rw [hgo] at h
      cases h
      exact ⟨hinv', .inl ⟨hends, hiff⟩⟩
  · rcases step_stays hinv hends with ⟨r, hr, -⟩ | ⟨s'', hgo, hinv', hiff⟩
    · rw [hr] at h
      cases h
    · rw [hgo] at h
      cases h
      exact ⟨hinv', .inr ⟨hends, hiff⟩⟩

/-- Where the loop returns, read off its step. -/
theorem step_stop {s : State} {r : Result} (hinv : Inv s) (h : step s = .stop r) :
    Ends s ∧ (r = .success → Matches s.wild s.tame) ∧
        (Matches s.wild s.tame → r = .success ∨ s.tame = [] ∧ s.wild = []) ∨
      ¬ Ends s ∧ r ≠ .success ∧ ¬ Live s := by
  by_cases hends : Ends s
  · rcases step_ends hends with ⟨r', hr, hsound, hcomplete⟩ | ⟨s', hgo, -⟩
    · rw [hr] at h
      cases h
      exact .inl ⟨hends, hsound, hcomplete⟩
    · rw [hgo] at h
      cases h
  · rcases step_stays hinv hends with ⟨r', hr, hne, hdead⟩ | ⟨s', hgo, -⟩
    · rw [hr] at h
      cases h
      exact .inr ⟨hends, hne, hdead⟩
    · rw [hgo] at h
      cases h

end Wildcard
end Inac
