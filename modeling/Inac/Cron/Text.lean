import Inac.Cron.Parse

/-!
# Digits and blanks

What `strtol` takes from a text and what it makes of it. Of digits alone it makes the number they
stand for, up to `LONG_MAX`, and the same of what it took, whatever came after it.
-/

namespace Inac
namespace Cron

/-! ## Characters -/

theorem not_isDigit_of_isBlank {c : Char} (h : isBlank c = true) : c.isDigit = false := by
  simp only [isBlank, Bool.or_eq_true, decide_eq_true_eq] at h
  rcases h with (rfl | rfl) | rfl <;> rfl

theorem not_isSpace_of_isDigit {c : Char} (h : c.isDigit = true) : isSpace c = false := by
  rw [Bool.eq_false_iff]
  intro hs
  simp only [isSpace, isBlank, Bool.or_eq_true, decide_eq_true_eq] at hs
  rcases hs with (((((rfl | rfl) | rfl) | rfl) | rfl) | rfl) <;> exact absurd h (by decide)

theorem ne_of_isDigit {c d : Char} (h : c.isDigit = true) (hd : d.isDigit = false) : c ≠ d := by
  rintro rfl
  rw [h] at hd
  cases hd

/-- The text does not begin with such a character. -/
def Stops (p : Char → Bool) (t : List Char) : Prop := ∀ c ∈ t.head?, p c = false

theorem stops_nil (p : Char → Bool) : Stops p [] := by
  intro c hc
  cases hc

theorem stops_cons {p : Char → Bool} {c : Char} {t : List Char} (h : p c = false) :
    Stops p (c :: t) := by
  intro d hd
  cases hd
  exact h

theorem Stops.takeWhile {p : Char → Bool} {t : List Char} (h : Stops p t) :
    t.takeWhile p = [] := by
  cases t with
  | nil => rfl
  | cons c t => rw [List.takeWhile_cons_of_neg (by rw [h c rfl]; exact Bool.false_ne_true)]

theorem Stops.dropWhile {p : Char → Bool} {t : List Char} (h : Stops p t) :
    t.dropWhile p = t := by
  cases t with
  | nil => rfl
  | cons c t => rw [List.dropWhile_cons_of_neg (by rw [h c rfl]; exact Bool.false_ne_true)]

theorem stops_dropWhile (p : Char → Bool) (t : List Char) : Stops p (t.dropWhile p) := by
  intro c hc
  have h := List.head?_dropWhile_not p t
  rw [Option.mem_def.mp hc] at h
  simpa using h

/-- All characters of the first text are such and the second does not begin with one. -/
theorem span_append {p : Char → Bool} {s t : List Char} (hs : ∀ c ∈ s, p c = true)
    (ht : Stops p t) : (s ++ t).takeWhile p = s ∧ (s ++ t).dropWhile p = t := by
  rw [List.takeWhile_append_of_pos hs, List.dropWhile_append_of_pos hs, ht.takeWhile,
    ht.dropWhile, List.append_nil]
  exact ⟨rfl, rfl⟩

theorem stops_space_of_digits {ds t : List Char} (hds : ∀ c ∈ ds, c.isDigit = true)
    (hne : ds ≠ []) : Stops isSpace (ds ++ t) := by
  cases ds with
  | nil => exact absurd rfl hne
  | cons d ds => exact stops_cons (not_isSpace_of_isDigit (hds d List.mem_cons_self))

/-! ## `strtol`

A number is blanks, a sign and digits (`strtol_append`), and nothing else is ever taken
(`strtol_cases`). -/

/-- A sign, or none. -/
def IsSign (sg : List Char) : Prop := sg = [] ∨ sg = ['-'] ∨ sg = ['+']

theorem readSign_append {sg ds t : List Char} (hsg : IsSign sg)
    (hds : ∀ c ∈ ds, c.isDigit = true) (hne : ds ≠ []) :
    readSign (sg ++ (ds ++ t)) = (decide (sg = ['-']), ds ++ t) := by
  cases ds with
  | nil => exact absurd rfl hne
  | cons d ds =>
    have hd := hds d List.mem_cons_self
    rcases hsg with rfl | rfl | rfl
    · simp [readSign, ne_of_isDigit hd (by decide : '-'.isDigit = false),
        ne_of_isDigit hd (by decide : '+'.isDigit = false)]
    · simp [readSign]
    · simp [readSign]

theorem readSign_eq (t : List Char) :
    ∃ sg, IsSign sg ∧ t = sg ++ (readSign t).2 ∧ (readSign t).1 = decide (sg = ['-']) := by
  cases t with
  | nil => exact ⟨[], .inl rfl, rfl, rfl⟩
  | cons c t =>
    by_cases hminus : c = '-'
    · exact ⟨['-'], .inr (.inl rfl), by simp [readSign, hminus], by simp [readSign, hminus]⟩
    · by_cases hplus : c = '+'
      · exact ⟨['+'], .inr (.inr rfl), by simp [readSign, hplus], by simp [readSign, hplus]⟩
      · exact ⟨[], .inl rfl, by simp [readSign, hminus, hplus],
          by simp [readSign, hminus, hplus]⟩

/-- The value of digits with a sign. -/
def longOf (sg ds : List Char) : Int :=
  max longMin (min longMax (if sg = ['-'] then -(decimal ds : Int) else decimal ds))

/-- A number in a text: blanks, a sign, digits, and then no digit. -/
theorem strtol_append {sp sg ds t : List Char} (hsp : ∀ c ∈ sp, isSpace c = true)
    (hsg : IsSign sg) (hds : ∀ c ∈ ds, c.isDigit = true) (hne : ds ≠ [])
    (ht : Stops Char.isDigit t) :
    strtol (sp ++ (sg ++ (ds ++ t))) = (longOf sg ds, t) := by
  have hstop : Stops isSpace (sg ++ (ds ++ t)) := by
    rcases hsg with rfl | rfl | rfl
    · rw [List.nil_append]
      exact stops_space_of_digits hds hne
    · exact stops_cons (by decide)
    · exact stops_cons (by decide)
  obtain ⟨htake, hdrop⟩ := span_append hds ht
  rw [strtol, (span_append hsp hstop).2, readSign_append hsg hds hne]
  simp only [htake, hdrop, if_neg hne, longOf, decide_eq_true_eq]

/-- What `strtol` takes from the text. -/
def taken (t : List Char) : List Char := t.take (t.length - (strtol t).2.length)

/-- `strtol` takes nothing, or a number. -/
theorem strtol_cases (t : List Char) :
    strtol t = (0, t) ∨ ∃ sp sg ds u, t = sp ++ (sg ++ (ds ++ u)) ∧ (∀ c ∈ sp, isSpace c = true) ∧
      IsSign sg ∧ (∀ c ∈ ds, c.isDigit = true) ∧ ds ≠ [] ∧ Stops Char.isDigit u := by
  obtain ⟨sg, hsg, hsplit, -⟩ := readSign_eq (t.dropWhile isSpace)
  generalize hu : (readSign (t.dropWhile isSpace)).2 = u at hsplit
  by_cases hds : u.takeWhile Char.isDigit = []
  · refine .inl ?_
    rw [strtol]
    simp only [hu, if_pos hds]
  · refine .inr ⟨t.takeWhile isSpace, sg, u.takeWhile Char.isDigit, u.dropWhile Char.isDigit,
      ?_, fun c hc => ?_, hsg, fun c hc => ?_, hds, stops_dropWhile _ u⟩
    · rw [List.takeWhile_append_dropWhile, ← hsplit, List.takeWhile_append_dropWhile]
    · exact List.all_eq_true.mp List.all_takeWhile c hc
    · exact List.all_eq_true.mp List.all_takeWhile c hc

theorem taken_append (t : List Char) : taken t ++ (strtol t).2 = t := by
  rcases strtol_cases t with h | ⟨sp, sg, ds, u, rfl, hsp, hsg, hds, hne, hu⟩
  · simp [taken, h]
  · rw [taken, strtol_append hsp hsg hds hne hu]
    simp only [← List.append_assoc, List.length_append, Nat.add_sub_cancel]
    rw [List.take_left' (by simp only [List.length_append])]

/-- The number depends only on what was taken. -/
theorem strtol_taken (t : List Char) : (strtol (taken t)).1 = (strtol t).1 := by
  rcases strtol_cases t with h | ⟨sp, sg, ds, u, rfl, hsp, hsg, hds, hne, hu⟩
  · have htaken : taken t = [] := by simp [taken, h]
    rw [htaken, h]
    rfl
  · have htaken : taken (sp ++ (sg ++ (ds ++ u))) = sp ++ (sg ++ (ds ++ [])) := by
      have h := taken_append (sp ++ (sg ++ (ds ++ u)))
      rw [strtol_append hsp hsg hds hne hu] at h
      have heq : taken (sp ++ (sg ++ (ds ++ u))) ++ u = sp ++ (sg ++ (ds ++ [])) ++ u := by
        rw [h]
        simp
      exact List.append_cancel_right heq
    rw [htaken, strtol_append hsp hsg hds hne hu, strtol_append hsp hsg hds hne (stops_nil _)]

/-- Digits alone. -/
theorem strtol_digits {ds t : List Char} (hds : ∀ c ∈ ds, c.isDigit = true) (hne : ds ≠ [])
    (ht : Stops Char.isDigit t) : strtol (ds ++ t) = (min longMax (decimal ds), t) := by
  have h : strtol ([] ++ ([] ++ (ds ++ t))) = (longOf [] ds, t) :=
    strtol_append (fun _ hc => absurd hc List.not_mem_nil) (.inl rfl) hds hne ht
  rw [List.nil_append, List.nil_append] at h
  have hmin : longMin ≤ min longMax (decimal ds) := by
    unfold longMin longMax
    omega
  rw [h, longOf, if_neg (by simp), Int.max_eq_right hmin]

end Cron
end Inac
