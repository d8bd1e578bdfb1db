import Mathlib.Data.Int.Order.Basic
import Inac.Cron.Defs

/-!
# Which minutes the scheduler looks at

`__ina_test_jobs` starts at the minute that holds `t1` and steps a minute at a time; the test
`t > t1` makes the window half open. So a call tests the minute boundaries of `(t1, t2]`, in order
(`testJobs_tests`), and as the window of the next call starts where this one ended, a run of calls
tests each boundary once, also when the clock goes back and forth.

`ina_cron_last_exec_systime` goes the other way, from the minute that holds the time it is given,
and stops at the first minute that matches. The two loops agree on which minutes count.
-/

namespace Inac
namespace Cron

open Lib

variable (env : Env)

/-! ## The minutes of a window

The loop starts at the minute that holds `t1`, which is not after `t1`, and so the first one it
tests is the next. -/

/-- The minutes from `t` on that are after `t1` and not after `t2`, as the loop visits them. -/
def minutesFrom (t1 t2 : Int) : Nat → Int → List Int
  | 0, _ => []
  | fuel + 1, t =>
    if t ≤ t2 then
      if t > t1 then t :: minutesFrom t1 t2 fuel (t + 60) else minutesFrom t1 t2 fuel (t + 60)
    else []

theorem mem_minutesFrom {t1 t2 : Int} {fuel : Nat} {t x : Int} (hfuel : t2 < t + 60 * fuel) :
    x ∈ minutesFrom t1 t2 fuel t ↔ t1 < x ∧ t ≤ x ∧ x ≤ t2 ∧ (x - t) % 60 = 0 := by
  induction fuel generalizing t with
  | zero =>
    refine ⟨fun h => absurd h List.not_mem_nil, ?_⟩
    rintro ⟨-, htx, hxt, -⟩
    exact absurd hfuel (by simp only [Int.natCast_zero, Int.mul_zero]; omega)
  | succ fuel ih =>
    have hnext : x ∈ minutesFrom t1 t2 fuel (t + 60) ↔
        t1 < x ∧ t + 60 ≤ x ∧ x ≤ t2 ∧ (x - (t + 60)) % 60 = 0 := ih (by omega)
    rw [minutesFrom]
    by_cases ht : t ≤ t2
    · rw [if_pos ht]
      by_cases ht1 : t > t1
      · rw [if_pos ht1, List.mem_cons, hnext]
        omega
      · rw [if_neg ht1, hnext]
        omega
    · rw [if_neg ht]
      refine ⟨fun h => absurd h List.not_mem_nil, ?_⟩
      omega

theorem minutesFrom_sorted (t1 t2 : Int) (fuel : Nat) (t : Int) :
    (minutesFrom t1 t2 fuel t).Pairwise (· < ·) ∧ ∀ x ∈ minutesFrom t1 t2 fuel t, t ≤ x := by
  induction fuel generalizing t with
  | zero => exact ⟨List.Pairwise.nil, fun _ h => absurd h List.not_mem_nil⟩
  | succ fuel ih =>
    obtain ⟨hsorted, hle⟩ := ih (t + 60)
    rw [minutesFrom]
    by_cases ht : t ≤ t2
    · rw [if_pos ht]
      by_cases ht1 : t > t1
      · rw [if_pos ht1]
        refine ⟨List.pairwise_cons.mpr ⟨fun x hx => ?_, hsorted⟩, fun x hx => ?_⟩
        · have := hle x hx
          omega
        · rcases List.mem_cons.mp hx with rfl | hx
          · exact Int.le_refl _
          · have := hle x hx
            omega
      · rw [if_neg ht1]
        refine ⟨hsorted, fun x hx => ?_⟩
        have := hle x hx
        omega
    · rw [if_neg ht]
      exact ⟨List.Pairwise.nil, fun _ h => absurd h List.not_mem_nil⟩

/-- The minute boundaries of the window `(t1, t2]`, in the order in which they are visited. -/
def minutes (t1 t2 : Int) : List Int :=
  minutesFrom t1 t2 ((t2 - (t1 - t1.tmod 60)) / 60 + 1).toNat (t1 - t1.tmod 60)

theorem minutes_sorted (t1 t2 : Int) : (minutes t1 t2).Pairwise (· < ·) :=
  (minutesFrom_sorted t1 t2 _ _).1

theorem mem_minutes {t1 t2 x : Int} :
    x ∈ minutes t1 t2 ↔ x % 60 = 0 ∧ t1 < x ∧ x ≤ t2 := by
  -- before 1970 the remainder is not positive, and the loop starts at the boundary after `t1`
  have hmod : t1.tmod 60 = t1 % 60 ∨ t1 < 0 ∧ t1 % 60 ≠ 0 ∧ t1.tmod 60 = t1 % 60 - 60 := by
    rw [Int.tmod_eq_emod]
    split <;> omega
  rw [minutes, mem_minutesFrom (by omega)]
  omega

/-! ## The tests of a call

The events change while they are tested, but not in their timetables. -/

/-- The test of events with these timetables at `t`. -/
def testAt (tts : List Timetable) (t : Int) : Test :=
  ⟨t, tts.map fun tt => tt.hits (env.localtime t)⟩

theorem markPull_tt (e : Event) : (markPull e).tt = e.tt := by
  unfold markPull
  split <;> rfl

theorem markEvent_tt (w : Asked) (e : Event) : (markEvent env w e).1.tt = e.tt := by
  unfold markEvent
  dsimp only
  split
  · rfl
  · split
    · rw [markPull_tt]
    · exact markPull_tt e

/-- Testing the events leaves their timetables alone, and an event matches as its timetable says. -/
theorem testEvents_eq (tp : Tm) (es : List Event) (njobs : BitVec 16) (w : Asked) :
    (testEvents env tp es njobs w).1.map Event.tt = es.map Event.tt ∧
      (testEvents env tp es njobs w).2.1 = (es.map Event.tt).map fun tt => tt.hits tp := by
  induction es generalizing njobs w with
  | nil => exact ⟨rfl, rfl⟩
  | cons e es ih =>
    rw [testEvents]
    by_cases hhit : e.tt.hits tp = true
    · rw [if_pos hhit]
      obtain ⟨htt, hmatched⟩ := ih
        (if (markEvent env w e).2.1 then njobs + 1 else njobs) (markEvent env w e).2.2
      simp only [List.map_cons, htt, hmatched, markEvent_tt, hhit, and_self]
    · rw [if_neg hhit]
      obtain ⟨htt, hmatched⟩ := ih njobs w
      simp only [List.map_cons, htt, hmatched, Bool.eq_false_iff.mpr hhit, and_self]

theorem testMinute_eq (t : Int) (j : Jobs) :
    (testMinute env t j).events.map Event.tt = j.events.map Event.tt ∧
      (testMinute env t j).tests = j.tests ++ [testAt env (j.events.map Event.tt) t] := by
  obtain ⟨htt, hmatched⟩ := testEvents_eq env (env.localtime t) j.events j.njobs j.asked
  refine ⟨htt, ?_⟩
  unfold testMinute
  dsimp only
  rw [hmatched]
  rfl

theorem testLoop_tests (t1 t2 : Int) (fuel : Nat) (t : Int) (j : Jobs) :
    (testLoop env t1 t2 fuel t j).tests =
      j.tests ++ (minutesFrom t1 t2 fuel t).map (testAt env (j.events.map Event.tt)) := by
  induction fuel generalizing t j with
  | zero => simp [testLoop, minutesFrom]
  | succ fuel ih =>
    rw [testLoop, minutesFrom]
    by_cases ht : t ≤ t2
    · rw [if_pos ht, if_pos ht, ih]
      by_cases ht1 : t > t1
      · obtain ⟨htt, htests⟩ := testMinute_eq env t j
        rw [if_pos ht1, if_pos ht1, htt, htests, List.map_cons, List.append_assoc]
        rfl
      · rw [if_neg ht1, if_neg ht1]
    · rw [if_neg ht, if_neg ht, List.map_nil, List.append_nil]

/-- A call tests the events at the minutes of its window. -/
theorem testJobs_tests (t1 t2 : Int) (events : List Event) (asked : Asked) :
    (testJobs env t1 t2 events asked).tests =
      (minutes t1 t2).map (testAt env (events.map Event.tt)) := by
  rw [testJobs, minutes]
  exact testLoop_tests env t1 t2 _ _ _

/-! ## Runs of `ina_cron_process`

A call moves the start of the window to its own time, so the windows of a run lie one behind the
other. A clock that goes back leaves the window where it is. -/

theorem runWindow_eq (ctx : Ctx) :
    (runWindow env ctx).1.tests = (testJobs env ctx.t1 ctx.t2 ctx.events ctx.asked).tests ∧
      (runWindow env ctx).2.t1 = ctx.t2 := by
  unfold runWindow
  dsimp only
  split <;> exact ⟨rfl, rfl⟩

/-- The minutes at which a report says the events were tested. -/
def Report.minutes (r : Report) : List Int := r.tests.map Test.t

/-- The time of a call is within an hour of the start of the window. -/
def WithinHour (ctx : Ctx) (c : Call) : Prop :=
  ctx.t1 - 3600 ≤ c.now ∧ c.now ≤ ctx.t1 + 3600

/-- Such a call tests the window up to its time, and moves its start there unless that is back. -/
theorem process_eq {ctx : Ctx} {c : Call} (hwin : WithinHour ctx c) :
    (inaCronProcess env ctx c).1.minutes = minutes ctx.t1 c.now ∧
      (inaCronProcess env ctx c).2.t1 = max ctx.t1 c.now := by
  obtain ⟨hlo, hhi⟩ := hwin
  have hnear : ¬ (c.now - ctx.t1 < -60 * 60 ∨ c.now - ctx.t1 > 60 * 60) := by omega
  unfold inaCronProcess Report.minutes
  dsimp only
  rw [if_neg hnear]
  by_cases hdt : c.now - ctx.t1 > 0
  · rw [if_pos hdt]
    obtain ⟨htests, hnext⟩ := runWindow_eq env { ctx with t2 := c.now }
    refine ⟨?_, ?_⟩
    · rw [htests, testJobs_tests, List.map_map]
      exact List.map_id _
    · rw [hnext, max_eq_right (by omega)]
  · rw [if_neg hdt]
    refine ⟨?_, ?_⟩
    · symm
      rw [List.map_nil, List.eq_nil_iff_forall_not_mem]
      intro x hx
      have := mem_minutes.mp hx
      omega
    · have hle : c.now ≤ ctx.t1 := by omega
      exact (max_eq_left hle).symm

/-- **Every minute once.** Over any calls whose times are within an hour of the window's start, the
    minutes at which the events are tested increase, and they are all minute boundaries after the
    first window's start up to the latest time passed. -/
theorem cron_minutes_once (ctx : Ctx) (calls : List Call) (ht1 : 0 ≤ ctx.t1)
    (hwin : Along (inaCronProcess env) WithinHour ctx calls) :
    ((outs (inaCronProcess env) ctx calls).flatMap Report.minutes).Pairwise (· < ·) ∧
      ∀ t, t ∈ (outs (inaCronProcess env) ctx calls).flatMap Report.minutes ↔
        t % 60 = 0 ∧ ctx.t1 < t ∧ ∃ c ∈ calls, t ≤ c.now := by
  induction calls generalizing ctx with
  | nil => exact ⟨List.Pairwise.nil, fun t => by simp [outs]⟩
  | cons c calls ih =>
    obtain ⟨hc, hrest⟩ := hwin
    obtain ⟨htests, hnext⟩ := process_eq env hc
    obtain ⟨hsorted, hmem⟩ := ih (inaCronProcess env ctx c).2 (by omega) hrest
    -- The minutes of the first call are before those of the others.
    rw [outs, List.flatMap_cons, htests]
    rw [hnext] at hmem
    refine ⟨List.pairwise_append.mpr ⟨minutes_sorted _ _, hsorted, ?_⟩, ?_⟩
    · intro x hx y hy
      have hx' := mem_minutes.mp hx
      have hy' := (hmem y).mp hy
      omega
    · intro t
      rw [List.mem_append, mem_minutes, hmem]
      constructor
      · rintro (⟨h60, hlt, hle⟩ | ⟨h60, hlt, d, hd, hle⟩)
        · exact ⟨h60, hlt, c, List.mem_cons_self, hle⟩
        · exact ⟨h60, by omega, d, List.mem_cons_of_mem c hd, hle⟩
      · rintro ⟨h60, hlt, d, hd, hle⟩
        by_cases htc : t ≤ c.now
        · exact .inl ⟨h60, hlt, htc⟩
        · rcases List.mem_cons.mp hd with rfl | hd
          · exact absurd hle htc
          · exact .inr ⟨h60, by omega, d, hd, hle⟩

/-- The clock goes forward past two minutes, back, and forward again. -/
theorem cron_minutes_once_back_and_forth :
    let env : Env := ⟨fun _ => ⟨0, 0, 1, 0, 0⟩, fun _ => true, fun _ => none⟩
    let ctx : Ctx := ⟨100, 0, 60, [], ⟨0, 0⟩⟩
    let calls : List Call := [⟨185, 185⟩, ⟨130, 130⟩, ⟨239, 239⟩, ⟨240, 240⟩]
    Along (inaCronProcess env) WithinHour ctx calls ∧
      ∀ t, t ∈ (outs (inaCronProcess env) ctx calls).flatMap Report.minutes ↔
        t % 60 = 0 ∧ 100 < t ∧ ∃ c ∈ calls, t ≤ c.now := by
  intro env ctx calls
  have hwin : Along (inaCronProcess env) WithinHour ctx calls := by
    refine ⟨?_, ?_, ?_, ?_, trivial⟩ <;> exact ⟨by decide, by decide⟩
  exact ⟨hwin, (cron_minutes_once env ctx calls (by decide) hwin).2⟩

/-! ## `ina_cron_last_exec_systime`

The loop over the minutes and the one of the scheduler have the same test, so what they find can be
compared. -/

/-- A minute boundary whose local time matches. -/
def Due (tt : Timetable) (t : Int) : Prop := t % 60 = 0 ∧ tt.hits (env.localtime t) = true

/-- The latest due minute after 0 and not after `t`, or 0. -/
structure LastDue (tt : Timetable) (t r : Int) : Prop where
  latest : ∀ x, Due env tt x → 0 < x → x ≤ t → x ≤ r
  due : r = 0 ∨ (Due env tt r ∧ 0 < r ∧ r ≤ t)

theorem lastExecLoop_spec (tt : Timetable) (fuel : Nat) :
    LastDue env tt (60 * fuel) (lastExecLoop env tt fuel (60 * fuel)) := by
  induction fuel with
  | zero => exact ⟨fun x _ _ hx => by simpa [lastExecLoop] using hx, .inl (by simp [lastExecLoop])⟩
  | succ fuel ih =>
    have hpos : (60 * (fuel + 1 : Nat) : Int) > 0 := by omega
    have hprev : (60 * (fuel + 1 : Nat) : Int) - 60 = 60 * fuel := by omega
    rw [lastExecLoop, if_pos hpos]
    by_cases hhit : tt.hits (env.localtime (60 * (fuel + 1 : Nat))) = true
    · rw [if_pos hhit]
      refine ⟨fun x _ _ hx => hx, .inr ⟨⟨?_, hhit⟩, hpos, Int.le_refl _⟩⟩
      omega
    · rw [if_neg hhit, hprev]
      refine ⟨?_, ?_⟩
      · intro x hdue hx0 hx
        refine ih.latest x hdue hx0 ?_
        -- the minute just tried is not due, so `x` is an earlier one
        have hne : x ≠ 60 * (fuel + 1 : Nat) := by
          rintro rfl
          exact hhit hdue.2
        have h60 := hdue.1
        omega
      · rcases ih.due with hzero | ⟨hdue, hr0, hle⟩
        · exact .inl hzero
        · exact .inr ⟨hdue, hr0, by omega⟩

theorem lastExecSystime_spec (tt : Timetable) {t2 : Int} (ht2 : 0 ≤ t2) :
    LastDue env tt t2 (inaCronLastExecSystime env tt t2) := by
  have hmod : t2.tmod 60 = t2 % 60 := Int.tmod_eq_emod_of_nonneg ht2
  have hstart : t2 - t2.tmod 60 = 60 * ((t2 / 60).toNat : Int) := by omega
  have hspec := lastExecLoop_spec env tt (t2 / 60).toNat
  rw [inaCronLastExecSystime, hstart]
  refine ⟨?_, ?_⟩
  · intro x hdue hx0 hx
    have h60 := hdue.1
    exact hspec.latest x hdue hx0 (by omega)
  · rcases hspec.due with hzero | ⟨hdue, hr0, hle⟩
    · exact .inl hzero
    · exact .inr ⟨hdue, hr0, by omega⟩

/-- The tests of a window find an event exactly if one of its minutes is due for the event. -/
theorem testJobs_finds {t1 t2 : Int} {events : List Event} {asked : Asked} {i : Nat} {e : Event}
    (he : events[i]? = some e) :
    (∃ test ∈ (testJobs env t1 t2 events asked).tests, test.matched[i]? = some true) ↔
      ∃ t, Due env e.tt t ∧ t1 < t ∧ t ≤ t2 := by
  have hat : ∀ t, (testAt env (events.map Event.tt) t).matched[i]? =
      some (e.tt.hits (env.localtime t)) := by
    intro t
    simp [testAt, he]
  rw [testJobs_tests]
  constructor
  · rintro ⟨test, htest, hfound⟩
    obtain ⟨t, ht, rfl⟩ := List.mem_map.mp htest
    obtain ⟨h60, hlt, hle⟩ := mem_minutes.mp ht
    rw [hat] at hfound
    exact ⟨t, ⟨h60, Option.some.inj hfound⟩, hlt, hle⟩
  · rintro ⟨t, ⟨h60, hhit⟩, hlt, hle⟩
    refine ⟨_, List.mem_map_of_mem (mem_minutes.mpr ⟨h60, hlt, hle⟩), ?_⟩
    rw [hat, hhit]

/-- **The two loops agree.** The last execution time is the latest due minute, and the scheduler
    finds the event in a window exactly if that minute is in it. -/
theorem last_exec_agrees (tt : Timetable) (t1 t2 : Int) (ht1 : 0 ≤ t1) (ht : t1 ≤ t2) :
    LastDue env tt t2 (inaCronLastExecSystime env tt t2) ∧
      ∀ (events : List Event) (asked : Asked) (i : Nat) (e : Event), events[i]? = some e → e.tt = tt →
        ((∃ test ∈ (testJobs env t1 t2 events asked).tests, test.matched[i]? = some true) ↔
          inaCronLastExecSystime env tt t2 > t1) := by
  have hlast := lastExecSystime_spec env tt (Int.le_trans ht1 ht)
  refine ⟨hlast, ?_⟩
  rintro events asked i e he rfl
  rw [testJobs_finds env he]
  constructor
  · rintro ⟨t, hdue, hlt, hle⟩
    have := hlast.latest t hdue (by omega) hle
    omega
  · intro hgt
    rcases hlast.due with hzero | ⟨hdue, -, hle⟩
    · omega
    · exact ⟨_, hdue, hgt, hle⟩

/-- A timetable that matches every minute, and a window inside a minute. -/
theorem last_exec_agrees_always :
    let env : Env := ⟨fun _ => ⟨0, 0, 1, 0, 0⟩, fun _ => true, fun _ => none⟩
    let tt : Timetable := ⟨fun _ => true, fun _ => true, fun _ => true, fun _ => true,
      fun _ => true⟩
    LastDue env tt 190 (inaCronLastExecSystime env tt 190) ∧
      inaCronLastExecSystime env tt 190 = 180 := by
  intro env tt
  exact ⟨(last_exec_agrees env tt 185 190 (by decide) (by decide)).1, by decide⟩

end Cron
end Inac
