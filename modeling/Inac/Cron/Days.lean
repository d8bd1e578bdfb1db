import Inac.Cron.Line

/-!
# Days of the month and days of the week

The scheduler tests `days[mday] || dow[wday]`. A pattern that restricts one of the two fields
should be tested by that field only, and one that restricts both by either. The parser takes a
field as restricted if it leaves an entry of its array unset (`dayTest_iff`). For the weekdays
these are the documented values. The days have an entry 0 as well, so `1-31` is restricted for the
parser although it leaves no day out, and a field that sets everything without being `'*'` is not.
-/

namespace Inac
namespace Cron

open Lib

/-! ## The rule

`DayRule` is stated for any sense of being restricted. The comment of the source can be read in two
senses, and each has its condition. -/

/-- What the two fields say of a date, when each is restricted or not. -/
def DayRule (rd rw : Prop) (day week : Prop) : Prop :=
  rd ∧ rw ∧ (day ∨ week) ∨ rd ∧ ¬ rw ∧ day ∨ ¬ rd ∧ rw ∧ week ∨ ¬ rd ∧ ¬ rw

/-- The field stands for the value `i`. -/
def Line.Denotes (l : Line) (c : Col) (i : Nat) : Prop := ∃ it ∈ l.items c, it.Denotes c.field i

/-- A day of the month, or of the week. -/
def Documented : Col → Nat → Prop
  | .days, i => 1 ≤ i ∧ i ≤ 31
  | c, i => i < c.field.modvalue

/-- A field is restricted if it is not `'*'`, as the comment in the source has it. -/
def NotStar (l : Line) (c : Col) : Prop := l.items c ≠ [⟨[.star], none⟩]

/-- A field is restricted if it leaves a value out. -/
def LeavesOut (l : Line) (c : Col) : Prop := ∃ i, Documented c i ∧ ¬ l.Denotes c i

/-- The minutes, hours and months are what the fields denote, and the scheduler's test of a date is
    true as the rule says, for this sense of being restricted. -/
def DaysRight (restricted : Line → Col → Prop) (l : Line) : Prop :=
  ∀ r, parsePattern l.text .zero = .ok r →
    (∀ c, c ≠ .days → c ≠ .dow → ∀ i, r.get c i = true ↔ l.Denotes c i) ∧
    ∀ mday wday, Documented .days mday → Documented .dow wday →
      ((r.days mday || r.dow wday) = true ↔
        DayRule (restricted l .days) (restricted l .dow) (l.Denotes .days mday)
          (l.Denotes .dow wday))

/-- Five fields of well-formed items with numbers in range. -/
structure Line.WellFormed (l : Line) : Prop extends l.Plain where
  step : ∀ c, ∀ it ∈ l.items c, ∀ s ∈ it.step, 1 ≤ decimal s
  nums : ∀ c, ∀ it ∈ l.items c, it.NumsInRange (Col.field c)

/-- No step of 2^31 or more sets an entry that its field does not denote. -/
def Line.StepsRight (l : Line) : Prop :=
  ∀ c, ∀ it ∈ l.items c, 2 ^ 31 ≤ it.stepValue → ∀ i, it.Sets (Col.field c) i → l.Denotes c i

/-! ## What the parser does

In terms of what the fields denote, and without the steps that an `int` does not hold. -/

/-- An array is cleared if it is full and the other one is not. -/
theorem kept_or_kept {fd fw day week : Prop} (hd : fd → day) :
    day ∧ (fd → fw) ∨ week ∧ (fw → fd) ↔ DayRule (¬ fd) (¬ fw) day week := by
  by_cases hfd : fd
  · by_cases hfw : fw
    · simp [DayRule, hfd, hfw, hd hfd]
    · simp [DayRule, hfd, hfw]
  · by_cases hfw : fw
    · simp [DayRule, hfd, hfw]
    · simp [DayRule, hfd, hfw]

section

variable {l : Line} (h : l.WellFormed) (hsteps : l.StepsRight)

include h hsteps

theorem sets_iff_denotes (hfits : ∀ c, ∀ it ∈ l.items c, it.Fits (Col.field c)) (c : Col)
    (i : Nat) : With (scan Col.all l.text) .zero c i ↔ l.Denotes c i := by
  have hzero : Timetable.zero.get c i = false := by cases c <;> rfl
  rw [With, hzero, sets_line_iff h.toPlain]
  simp only [Bool.false_eq_true, false_or]
  constructor
  · rintro ⟨it, hit, hset⟩
    by_cases hsmall : it.stepValue < 2 ^ 31
    · exact ⟨it, hit, denotes_of_sets c (h.plain c it hit) (h.nums c it hit) (hfits c it hit)
        hsmall hset⟩
    · exact hsteps c it hit (not_lt.mp hsmall) i hset
  · rintro ⟨it, hit, hden⟩
    exact ⟨it, hit, sets_of_denotes c ⟨h.plain c it hit, h.step c it hit⟩ (h.nums c it hit)
      (hfits c it hit) hden⟩

theorem get_parsed {r : Timetable} (hr : parsePattern l.text .zero = .ok r) (c : Col) (i : Nat) :
    r.get c i = true ↔ Kept l.Denotes c i := by
  obtain ⟨hfits, rfl⟩ := (parse_line_iff h.toPlain).mp hr
  have hwith : With (scan Col.all l.text) .zero = l.Denotes := by
    funext c i
    exact propext (sets_iff_denotes h hsteps hfits c i)
  rw [get_fixDays_foldl, hwith]

/-- **The parser's rule**: a field is restricted if it leaves an entry of its array unset. -/
theorem dayTest_iff {r : Timetable} (hr : parsePattern l.text .zero = .ok r) {mday wday : Nat}
    (hd : Documented .days mday) :
    (r.days mday || r.dow wday) = true ↔
      DayRule (¬ Full .days (l.Denotes .days)) (¬ Full .dow (l.Denotes .dow))
        (l.Denotes .days mday) (l.Denotes .dow wday) := by
  have hday : r.days mday = true ↔ Kept l.Denotes .days mday := get_parsed h hsteps hr .days mday
  have hweek : r.dow wday = true ↔ Kept l.Denotes .dow wday := get_parsed h hsteps hr .dow wday
  have hfull : Full .days (l.Denotes .days) → l.Denotes .days mday := fun hf =>
    hf mday (Nat.lt_succ_of_le hd.2)
  rw [Bool.or_eq_true, hday, hweek]
  exact kept_or_kept hfull

/-- The line is right exactly if the rule says the same as the parser's on every date. -/
theorem daysRight_iff_rule (restricted : Line → Col → Prop) :
    DaysRight restricted l ↔ ((∀ c, ∀ it ∈ l.items c, it.Fits (Col.field c)) →
      ∀ mday wday, Documented .days mday → Documented .dow wday →
        (DayRule (¬ Full .days (l.Denotes .days)) (¬ Full .dow (l.Denotes .dow))
            (l.Denotes .days mday) (l.Denotes .dow wday) ↔
          DayRule (restricted l .days) (restricted l .dow) (l.Denotes .days mday)
            (l.Denotes .dow wday))) := by
  constructor
  · intro hright hfits mday wday hd hw
    have hr := (parse_line_iff h.toPlain).mpr ⟨hfits, rfl⟩
    rw [← dayTest_iff h hsteps hr hd]
    exact (hright _ hr).2 mday wday hd hw
  · intro hrule r hr
    refine ⟨fun c hd hw i => ?_, fun mday wday hd hw => ?_⟩
    · rw [get_parsed h hsteps hr]
      cases c with
      | days => exact absurd rfl hd
      | dow => exact absurd rfl hw
      | mins => exact Iff.rfl
      | hours => exact Iff.rfl
      | mons => exact Iff.rfl
    · rw [dayTest_iff h hsteps hr hd]
      exact hrule ((parse_line_iff h.toPlain).mp hr).1 mday wday hd hw

end

/-! ## The two senses of being restricted

The parser's own sense is a third one. Each of the two is compared with it on all dates, and they
agree up to one kind of line each. -/

theorem full_of_star {l : Line} {c : Col} (h : l.items c = [⟨[.star], none⟩]) :
    Full c (l.Denotes c) := by
  intro i hi
  have hmod := c.modvalue_pos
  have hsteps : stepsTo c.field.modvalue 0 (c.field.modvalue - 1) = c.field.modvalue - 1 := by
    rw [stepsTo, sub_zero, Int.emod_eq_of_lt (by omega) (by omega)]
    omega
  refine ⟨⟨[.star], none⟩, by simp [h], i, ?_, ?_⟩
  · change i * 1 ≤ stepsTo c.field.modvalue 0 (c.field.modvalue - 1)
    omega
  · change ((0 : Int) + (i * 1 : Nat)) % c.field.modvalue = i
    rw [zero_add, Nat.mul_one]
    exact Int.emod_eq_of_lt (by omega) (by omega)

theorem leavesOut_dow {l : Line} : LeavesOut l .dow ↔ ¬ Full .dow (l.Denotes .dow) := by
  simp [LeavesOut, Full, Documented]

/-- The array of the days has one entry more than there are days. -/
theorem not_full_days {l : Line} :
    ¬ Full .days (l.Denotes .days) ↔ LeavesOut l .days ∨ ¬ l.Denotes .days 0 := by
  constructor
  · intro hfull
    by_cases hzero : l.Denotes .days 0
    · obtain ⟨i, hi⟩ := not_forall.mp hfull
      obtain ⟨hlt, hout⟩ := Classical.not_imp.mp hi
      refine .inl ⟨i, ⟨?_, Nat.le_of_lt_succ hlt⟩, hout⟩
      rcases Nat.eq_zero_or_pos i with rfl | hpos
      · exact absurd hzero hout
      · exact hpos
    · exact .inr hzero
  · rintro (⟨i, hdoc, hout⟩ | hzero) hfull
    · exact hout (hfull i (Nat.lt_succ_of_le hdoc.2))
    · exact hzero (hfull 0 (by decide))

/-- The parser's rule is the one for "not `'*'`", unless it drops a field that is full without being
    `'*'`. -/
theorem rule_notStar_iff {l : Line} :
    (∀ mday wday, Documented .days mday → Documented .dow wday →
      (DayRule (¬ Full .days (l.Denotes .days)) (¬ Full .dow (l.Denotes .dow))
          (l.Denotes .days mday) (l.Denotes .dow wday) ↔
        DayRule (NotStar l .days) (NotStar l .dow) (l.Denotes .days mday)
          (l.Denotes .dow wday))) ↔
      ¬ (NotStar l .days ∧ Full .days (l.Denotes .days) ∧ ¬ Full .dow (l.Denotes .dow)) ∧
        ¬ (NotStar l .dow ∧ Full .dow (l.Denotes .dow) ∧ LeavesOut l .days) := by
  have hstar : ∀ c, ¬ Full c (l.Denotes c) → NotStar l c := fun c hfull heq =>
    hfull (full_of_star heq)
  constructor
  · intro hrule
    refine ⟨?_, ?_⟩
    · rintro ⟨hnd, hfd, hfw⟩
      obtain ⟨wday, hw, hout⟩ := leavesOut_dow.mpr hfw
      have hdate := hrule 1 wday ⟨by decide, by decide⟩ hw
      have hday : l.Denotes .days 1 := hfd 1 (by decide)
      simp [DayRule, hnd, hfd, hfw, hstar .dow hfw, hday, hout] at hdate
    · rintro ⟨hnw, hfw, mday, hd, hout⟩
      have hfd : ¬ Full .days (l.Denotes .days) := not_full_days.mpr (.inl ⟨mday, hd, hout⟩)
      have hdate := hrule mday 0 hd (Nat.zero_lt_succ 6)
      have hweek : l.Denotes .dow 0 := hfw 0 (by decide)
      simp [DayRule, hnw, hfd, hfw, hstar .days hfd, hweek, hout] at hdate
  · rintro ⟨hdrop, hdrop'⟩ mday wday hd hw
    have hday : Full .days (l.Denotes .days) → l.Denotes .days mday := fun hf =>
      hf mday (Nat.lt_succ_of_le hd.2)
    have hweek : Full .dow (l.Denotes .dow) → l.Denotes .dow wday := fun hf => hf wday hw
    by_cases hfd : Full .days (l.Denotes .days)
    · by_cases hfw : Full .dow (l.Denotes .dow)
      · by_cases hnd : NotStar l .days <;> by_cases hnw : NotStar l .dow <;>
          simp [DayRule, hfd, hfw, hnd, hnw, hday hfd, hweek hfw]
      · have hnd : ¬ NotStar l .days := fun hnd => hdrop ⟨hnd, hfd, hfw⟩
        simp [DayRule, hfd, hfw, hnd, hstar .dow hfw]
    · by_cases hfw : Full .dow (l.Denotes .dow)
      · by_cases hnw : NotStar l .dow
        · -- the days are all there but for the entry 0
          have hall : l.Denotes .days mday := by
            by_contra hout
            exact hdrop' ⟨hnw, hfw, mday, hd, hout⟩
          simp [DayRule, hfd, hfw, hnw, hstar .days hfd, hall]
        · simp [DayRule, hfd, hfw, hnw, hstar .days hfd]
      · simp [DayRule, hfd, hfw, hstar .days hfd, hstar .dow hfw]

/-- It is the one for "leaves a value out", unless only the entry 0 of the days is missing. -/
theorem rule_leavesOut_iff {l : Line} :
    (∀ mday wday, Documented .days mday → Documented .dow wday →
      (DayRule (¬ Full .days (l.Denotes .days)) (¬ Full .dow (l.Denotes .dow))
          (l.Denotes .days mday) (l.Denotes .dow wday) ↔
        DayRule (LeavesOut l .days) (LeavesOut l .dow) (l.Denotes .days mday)
          (l.Denotes .dow wday))) ↔
      ¬ (¬ LeavesOut l .days ∧ ¬ l.Denotes .days 0 ∧ LeavesOut l .dow) := by
  rw [not_full_days, leavesOut_dow]
  constructor
  · rintro hrule ⟨hld, hzero, hfw⟩
    -- On the first of the month and a weekday that is left out the rule says no, as only
    -- the weekday counts, and the parser says yes, as the day is set.
    obtain ⟨wday, hw, hout⟩ := leavesOut_dow.mpr hfw
    have hdate := hrule 1 wday ⟨by decide, by decide⟩ hw
    have hday : l.Denotes .days 1 := by
      by_contra hmiss
      exact hld ⟨1, ⟨by decide, by decide⟩, hmiss⟩
    simp [DayRule, hld, hzero, hfw, hday, hout] at hdate
  · intro hdrop mday wday hd hw
    by_cases hld : LeavesOut l .days
    · simp [DayRule, hld]
    · have hday : l.Denotes .days mday := by
        by_contra hmiss
        exact hld ⟨mday, hd, hmiss⟩
      by_cases hzero : l.Denotes .days 0
      · simp [DayRule, hld, hzero]
      · have hfw : Full .dow (l.Denotes .dow) := by
          by_contra hfw
          exact hdrop ⟨hld, hzero, hfw⟩
        simp [DayRule, hld, hzero, hfw, hday]

/-- **When the day test follows the rule.** If a field is restricted when it is not `'*'`, exactly
    if the pattern is not accepted or the parser does not drop a field that is full without being
    `'*'` in favour of one that leaves a value out. If a field is restricted when it leaves a value
    out, exactly if the pattern is not accepted or it does not have all days without the entry 0
    together with a restricted weekday. -/
theorem daysRight_iff (l : Line) (h : l.WellFormed) (hsteps : l.StepsRight) :
    (DaysRight NotStar l ↔ ((∀ c, ∀ it ∈ l.items c, it.Fits (Col.field c)) →
      ¬ (NotStar l .days ∧ Full .days (l.Denotes .days) ∧ ¬ Full .dow (l.Denotes .dow)) ∧
        ¬ (NotStar l .dow ∧ Full .dow (l.Denotes .dow) ∧ LeavesOut l .days))) ∧
    (DaysRight LeavesOut l ↔ ((∀ c, ∀ it ∈ l.items c, it.Fits (Col.field c)) →
      ¬ (¬ LeavesOut l .days ∧ ¬ l.Denotes .days 0 ∧ LeavesOut l .dow))) := by
  refine ⟨?_, ?_⟩
  · rw [daysRight_iff_rule h hsteps, rule_notStar_iff]
  · rw [daysRight_iff_rule h hsteps, rule_leavesOut_iff]

/-! ## Two lines on which the rule fails, and one on which it does not -/

instance (l : Line) (c : Col) : DecidablePred (l.Denotes c) := fun _ =>
  inferInstanceAs (Decidable (∃ it ∈ l.items c, _))

instance (c : Col) (S : Nat → Prop) [DecidablePred S] : Decidable (Full c S) :=
  inferInstanceAs (Decidable (∀ i < _, _))

theorem Line.WellFormed.of_inRange {l : Line} (h : l.Plain)
    (hits : ∀ c ∈ Col.all, ∀ it ∈ l.items c, it.WellFormed (Col.field c) ∧
      it.InRange (Col.field c) ∧ it.stepValue < 2 ^ 31) : l.WellFormed ∧ l.StepsRight := by
  have hall := Col.forall_iff.mpr hits
  refine ⟨⟨h, fun c it hit => (hall c it hit).1.2, fun c it hit => (hall c it hit).2.1.nums⟩, ?_⟩
  intro c it hit hwide
  exact absurd (hall c it hit).2.2 (not_lt.mpr hwide)

/-- Midnight, with these days and weekdays. -/
def midnight (days dow : List Item) : Line where
  items
    | .mins => [⟨[.num ['0']], none⟩]
    | .hours => [⟨[.num ['0']], none⟩]
    | .days => days
    | .mons => [⟨[.star], none⟩]
    | .dow => dow
  blanks := spaced

/-- `"0 0 15 * 1"`: the 15th and every Monday, in both senses. -/
theorem daysRight_iff_fifteenth :
    let l := midnight [⟨[.num ['1', '5']], none⟩] [⟨[.num ['1']], none⟩]
    l.text = ['0', ' ', '0', ' ', '1', '5', ' ', '*', ' ', '1'] ∧
      DaysRight NotStar l ∧ DaysRight LeavesOut l := by
  intro l
  obtain ⟨hwf, hsteps⟩ : l.WellFormed ∧ l.StepsRight :=
    Line.WellFormed.of_inRange (by decide +kernel) (by decide +kernel)
  have hdow : ¬ Full .dow (l.Denotes .dow) := by decide +kernel
  have hdays : ¬ Full .days (l.Denotes .days) := by decide +kernel
  have hfirst : LeavesOut l .days := ⟨1, ⟨by decide, by decide⟩, by decide +kernel⟩
  refine ⟨by decide +kernel, ?_, ?_⟩
  · refine (daysRight_iff l hwf hsteps).1.mpr fun _ => ⟨?_, ?_⟩
    · exact fun hbad => hdays hbad.2.1
    · exact fun hbad => hdow hbad.2.1
  · exact (daysRight_iff l hwf hsteps).2.mpr fun _ hbad => hbad.1 hfirst

/-- `"0 0 15 * 0-6"` should be every day, as neither field is `'*'`, and is the 15th only.
    `"0 0 1-31 * 1"` should be every Monday, as no day is left out, and is every day. -/
theorem daysRight_fails :
    let l := midnight [⟨[.num ['1', '5']], none⟩] [⟨[.num ['0'], .num ['6']], none⟩]
    let l' := midnight [⟨[.num ['1'], .num ['3', '1']], none⟩] [⟨[.num ['1']], none⟩]
    l.text = ['0', ' ', '0', ' ', '1', '5', ' ', '*', ' ', '0', '-', '6'] ∧
      l'.text = ['0', ' ', '0', ' ', '1', '-', '3', '1', ' ', '*', ' ', '1'] ∧
      ¬ DaysRight NotStar l ∧ ¬ DaysRight LeavesOut l' := by
  intro l l'
  refine ⟨by decide +kernel, by decide +kernel, ?_, ?_⟩
  · obtain ⟨hwf, hsteps⟩ : l.WellFormed ∧ l.StepsRight :=
      Line.WellFormed.of_inRange (by decide +kernel) (by decide +kernel)
    have hfits : ∀ c, ∀ it ∈ l.items c, it.Fits (Col.field c) :=
      Col.forall_iff.mpr (by decide +kernel)
    have hfull : Full .dow (l.Denotes .dow) := by decide +kernel
    rw [daysRight_iff_rule hwf hsteps, rule_notStar_iff]
    intro hright
    refine (hright hfits).2 ⟨?_, hfull, 1, ⟨by decide, by decide⟩, by decide +kernel⟩
    unfold NotStar
    decide +kernel
  · obtain ⟨hwf, hsteps⟩ : l'.WellFormed ∧ l'.StepsRight :=
      Line.WellFormed.of_inRange (by decide +kernel) (by decide +kernel)
    have hfits : ∀ c, ∀ it ∈ l'.items c, it.Fits (Col.field c) :=
      Col.forall_iff.mpr (by decide +kernel)
    rw [daysRight_iff_rule hwf hsteps, rule_leavesOut_iff]
    intro hright
    refine hright hfits ⟨?_, by decide +kernel, 0, Nat.zero_lt_succ 6, by decide +kernel⟩
    rintro ⟨i, hdoc, hout⟩
    have hall : ∀ i < 32, 1 ≤ i → l'.Denotes .days i := by decide +kernel
    exact hout (hall i (Nat.lt_succ_of_le hdoc.2) hdoc.1)

end Cron
end Inac
