import Inac.Cron.Window

/-!
# Which processes the scheduler starts

The scan over the window and the loop that starts the processes only share the flag `ready` of the
events and the number of jobs. The scan sets the flag of an event that matches, and nothing resets
it: the loop clears it around `ina_process_start` and sets it again. So from the first match on
an event is started in every call in which any event is due.

A call starts only events that are due in its window if no event is ready from before without being
due again, or if nothing is due at all.
-/

namespace Inac
namespace Cron

open Lib

variable (env : Env)

/-- The timetable matches some minute boundary of the window `(t1, t2]`. -/
def DueIn (t1 t2 : Int) (tt : Timetable) : Prop := ∃ t, Due env tt t ∧ t1 < t ∧ t ≤ t2

/-- The process of an event is started in a call only if the event is due in its window. -/
def StartsDue (ctx : Ctx) (c : Call) : Prop :=
  ∀ i : Nat, (inaCronProcess env ctx c).1.started[i]? = some true →
    ∃ e, ctx.events[i]? = some e ∧ e.cf &&& cronCfExec ≠ 0 ∧ DueIn env ctx.t1 c.now e.tt

/-- If the call tests its window, no EXEC event is ready from an earlier call without being due
    again, or nothing is due. -/
def Fresh (ctx : Ctx) (c : Call) : Prop :=
  0 < c.now - ctx.t1 → c.now - ctx.t1 ≤ 60 * 60 →
    (∀ e ∈ ctx.events, e.cf &&& cronCfExec ≠ 0 → e.ready = true → DueIn env ctx.t1 c.now e.tt) ∨
      ∀ e ∈ ctx.events, ¬ DueIn env ctx.t1 c.now e.tt

/-! ## What the scan does to the events

As for the flags of the pulls: what may happen to an event in a minute composes over the minutes. -/

/-- What a scan may do to an event: make it ready, if it was `due`. -/
structure Scanned (due : Timetable → Prop) (e e' : Event) : Prop where
  tt : e'.tt = e.tt
  cf : e'.cf = e.cf
  ready : e'.ready = true → e.ready = true ∨ due e.tt

theorem Scanned.refl (due : Timetable → Prop) (e : Event) : Scanned due e e :=
  ⟨rfl, rfl, .inl⟩

theorem Scanned.mono {due due' : Timetable → Prop} {e e' : Event} (h : Scanned due e e')
    (hdue : ∀ tt, due tt → due' tt) : Scanned due' e e' :=
  ⟨h.tt, h.cf, fun hr => (h.ready hr).imp_right (hdue _)⟩

/-- Two scans make ready what either of them hits. -/
theorem Scanned.trans {due due' : Timetable → Prop} {e e' e'' : Event} (h : Scanned due e e')
    (h' : Scanned due' e' e'') : Scanned (fun tt => due tt ∨ due' tt) e e'' := by
  refine ⟨h'.tt.trans h.tt, h'.cf.trans h.cf, fun hr => ?_⟩
  rcases h'.ready hr with hr | hdue
  · exact (h.ready hr).imp_right .inl
  · exact .inr (.inr (h.tt ▸ hdue))

theorem markPull_ready (e : Event) : (markPull e).cf = e.cf ∧ (markPull e).ready = e.ready := by
  unfold markPull
  split <;> exact ⟨rfl, rfl⟩

/-- An event that is due may be marked. -/
theorem markEvent_scanned (w : Asked) {e : Event} {due : Timetable → Prop} (hdue : due e.tt) :
    Scanned due e (markEvent env w e).1 := by
  refine ⟨markEvent_tt env w e, ?_, fun _ => .inr hdue⟩
  unfold markEvent
  dsimp only
  split
  · rfl
  · split
    · exact (markPull_ready _).1
    · exact (markPull_ready e).1

/-- Every event comes from the one at its place. -/
def ScannedAll (due : Timetable → Prop) (es es' : List Event) : Prop :=
  ∀ (i : Nat) (e' : Event), es'[i]? = some e' → ∃ e, es[i]? = some e ∧ Scanned due e e'

theorem ScannedAll.refl (due : Timetable → Prop) (es : List Event) : ScannedAll due es es :=
  fun _ e he => ⟨e, he, .refl due e⟩

theorem ScannedAll.cons {due : Timetable → Prop} {e e' : Event} {es es' : List Event}
    (h : Scanned due e e') (hs : ScannedAll due es es') :
    ScannedAll due (e :: es) (e' :: es') := by
  intro i e'' he
  cases i with
  | zero =>
    cases he
    exact ⟨e, rfl, h⟩
  | succ i => exact hs i e'' he

theorem ScannedAll.trans {due due' : Timetable → Prop} {es es' es'' : List Event}
    (h : ScannedAll due es es') (h' : ScannedAll due' es' es'') :
    ScannedAll (fun tt => due tt ∨ due' tt) es es'' := by
  intro i e'' he
  obtain ⟨e', he', hs'⟩ := h' i e'' he
  obtain ⟨e, he, hs⟩ := h i e' he'
  exact ⟨e, he, hs.trans hs'⟩

theorem ScannedAll.mono {due due' : Timetable → Prop} {es es' : List Event}
    (h : ScannedAll due es es') (hdue : ∀ tt, due tt → due' tt) : ScannedAll due' es es' := by
  intro i e' he
  obtain ⟨e, he, hs⟩ := h i e' he
  exact ⟨e, he, hs.mono hdue⟩

/-- One minute of the scan: what it marks is hit by that minute. -/
theorem testEvents_scanned (tp : Tm) (es : List Event) (njobs : BitVec 16) (w : Asked) :
    ScannedAll (fun tt => tt.hits tp = true) es (testEvents env tp es njobs w).1 := by
  induction es generalizing njobs w with
  | nil => exact .refl _ []
  | cons e es ih =>
    rw [testEvents]
    by_cases hhit : e.tt.hits tp = true
    · rw [if_pos hhit]
      exact .cons (markEvent_scanned env w hhit) (ih _ _)
    · rw [if_neg hhit]
      exact .cons (.refl _ e) (ih _ _)

/-- Without a match nothing is counted. -/
theorem testEvents_njobs {tp : Tm} {es : List Event} (h : ∀ e ∈ es, e.tt.hits tp = false)
    (njobs : BitVec 16) (w : Asked) : (testEvents env tp es njobs w).2.2.1 = njobs := by
  induction es with
  | nil => rfl
  | cons e es ih =>
    obtain ⟨he, hes⟩ := List.forall_mem_cons.mp h
    rw [testEvents, if_neg (by rw [he]; exact Bool.false_ne_true)]
    exact ih hes

/-- One of these minutes matches. -/
def HitsIn (ts : List Int) (tt : Timetable) : Prop :=
  ∃ t ∈ ts, tt.hits (env.localtime t) = true

/-- The minutes that are scanned are those of the interval. -/
theorem hitsIn_minutes {t1 t2 : Int} {tt : Timetable} :
    HitsIn env (minutes t1 t2) tt ↔ DueIn env t1 t2 tt := by
  constructor
  · rintro ⟨t, ht, hhit⟩
    obtain ⟨h60, hlt, hle⟩ := mem_minutes.mp ht
    exact ⟨t, ⟨h60, hhit⟩, hlt, hle⟩
  · rintro ⟨t, ⟨h60, hhit⟩, hlt, hle⟩
    exact ⟨t, mem_minutes.mpr ⟨h60, hlt, hle⟩, hhit⟩

theorem testLoop_scanned (t1 t2 : Int) (fuel : Nat) (t : Int) (j : Jobs) :
    ScannedAll (HitsIn env (minutesFrom t1 t2 fuel t)) j.events
      (testLoop env t1 t2 fuel t j).events := by
  induction fuel generalizing t j with
  | zero => exact .refl _ _
  | succ fuel ih =>
    rw [testLoop, minutesFrom]
    by_cases ht : t ≤ t2
    · rw [if_pos ht, if_pos ht]
      by_cases ht1 : t > t1
      · rw [if_pos ht1, if_pos ht1]
        have hhere := testEvents_scanned env (env.localtime t) j.events j.njobs j.asked
        refine (hhere.trans (ih (t + 60) (testMinute env t j))).mono ?_
        rintro tt (hhit | ⟨u, hu, hhit⟩)
        · exact ⟨t, List.mem_cons_self, hhit⟩
        · exact ⟨u, List.mem_cons_of_mem t hu, hhit⟩
      · rw [if_neg ht1, if_neg ht1]
        exact ih _ _
    · rw [if_neg ht, if_neg ht]
      exact .refl _ _

/-- The whole scan: what it marks is due in the interval. -/
theorem testJobs_scanned (t1 t2 : Int) (events : List Event) (asked : Asked) :
    ScannedAll (DueIn env t1 t2) events (testJobs env t1 t2 events asked).events := by
  refine ScannedAll.mono (testLoop_scanned env t1 t2 _ _ _) ?_
  intro tt h
  exact (hitsIn_minutes env).mp h

/-- Without a hit nothing is counted. -/
theorem testLoop_njobs {t1 t2 : Int} {fuel : Nat} {t : Int} {j : Jobs}
    (h : ∀ e ∈ j.events, ¬ HitsIn env (minutesFrom t1 t2 fuel t) e.tt) :
    (testLoop env t1 t2 fuel t j).njobs = j.njobs := by
  induction fuel generalizing t j with
  | zero => rfl
  | succ fuel ih =>
    rw [testLoop]
    rw [minutesFrom] at h
    by_cases ht : t ≤ t2
    · rw [if_pos ht] at h ⊢
      by_cases ht1 : t > t1
      · rw [if_pos ht1] at h ⊢
        -- No event matches in this minute, so it counts nothing.
        have hnone : ∀ e ∈ j.events, e.tt.hits (env.localtime t) = false := by
          intro e he
          refine Bool.eq_false_iff.mpr fun hhit => h e he ⟨t, List.mem_cons_self, hhit⟩
        have hnjobs : (testMinute env t j).njobs = j.njobs := testEvents_njobs env hnone _ _
        rw [ih, hnjobs]
        rintro e' he' ⟨u, hu, hhit⟩
        obtain ⟨i, hi⟩ := List.getElem?_of_mem he'
        obtain ⟨e, he, hs⟩ := testEvents_scanned env (env.localtime t) j.events j.njobs j.asked
          i e' hi
        refine h e (List.mem_of_getElem? he) ⟨u, List.mem_cons_of_mem t hu, ?_⟩
        rw [← hs.tt]
        exact hhit
      · rw [if_neg ht1] at h ⊢
        exact ih h
    · rw [if_neg ht]

theorem testJobs_njobs {t1 t2 : Int} {events : List Event}
    (h : ∀ e ∈ events, ¬ DueIn env t1 t2 e.tt) (asked : Asked) :
    (testJobs env t1 t2 events asked).njobs = 0 := by
  apply testLoop_njobs env
  intro e he hhits
  exact h e he ((hitsIn_minutes env).mp hhits)

/-! ## What is started -/

/-- Only events that are to be executed and are marked are started. -/
theorem startReady_started {es : List Event} {w : Asked} {i : Nat}
    (h : (startReady env es w).1[i]? = some true) :
    ∃ e, es[i]? = some e ∧ e.cf &&& cronCfExec ≠ 0 ∧ e.ready = true := by
  induction es generalizing w i with
  | nil => simp [startReady] at h
  | cons e es ih =>
    rw [startReady] at h
    by_cases hready : e.cf &&& cronCfExec ≠ 0 ∧ e.ready = true
    · rw [if_pos hready] at h
      cases i with
      | zero => exact ⟨e, rfl, hready⟩
      | succ i => exact ih h
    · rw [if_neg hready] at h
      cases i with
      | zero => cases h
      | succ i => exact ih h

/-- **Step**: in a call that finds the events `Fresh` only due events are started. -/
theorem Fresh.startsDue {ctx : Ctx} {c : Call} (h : Fresh env ctx c) : StartsDue env ctx c := by
  intro i hi
  unfold inaCronProcess at hi
  dsimp only at hi
  split at hi
  · simp at hi
  · rename_i hhour
    split at hi
    · rename_i hpos
      unfold runWindow at hi
      dsimp only at hi
      split at hi
      · rename_i hjobs
        obtain ⟨e', he', hexec, hready⟩ := startReady_started env hi
        obtain ⟨e, he, hs⟩ := testJobs_scanned env ctx.t1 c.now ctx.events ctx.asked i e' he'
        rw [hs.cf] at hexec
        refine ⟨e, he, hexec, ?_⟩
        rcases h hpos (by omega) with hfresh | hnone
        · rcases hs.ready hready with hbefore | hdue
          · exact hfresh e (List.mem_of_getElem? he) hexec hbefore
          · exact hdue
        · exact absurd (testJobs_njobs env hnone ctx.asked) hjobs
      · simp at hi
    · simp at hi

/-- **Started only when due.** In every run of `ina_cron_process` whose calls all find the events
    `Fresh`, each call starts only processes of events that are due in its window. -/
theorem cron_starts_due (ctx : Ctx) (calls : List Call)
    (h : Along (inaCronProcess env) (Fresh env) ctx calls) :
    Along (inaCronProcess env) (StartsDue env) ctx calls := by
  have hstep : ∀ ctx c, Fresh env ctx c → True →
      StartsDue env ctx c ∧ True := fun _ _ hfresh _ => ⟨hfresh.startsDue, trivial⟩
  exact along_of_along hstep h trivial

/-- An EXEC event that is due in one minute of every hour. -/
def onMinute (m : Nat) : Event :=
  ⟨cronCfExec, 0, false, false, false,
    ⟨fun i => i = m, fun _ => true, fun _ => true, fun _ => true, fun _ => true⟩⟩

/-- Times without a date, and processes that are never found running. -/
def stoppedEnv : Env :=
  ⟨fun t => ⟨(t / 60).toNat % 60, 0, 1, 0, 0⟩, fun _ => true, fun _ => some .stopped⟩

theorem dueIn_onMinute {t1 t2 : Int} {m : Nat} :
    DueIn stoppedEnv t1 t2 (onMinute m).tt ↔
      ∃ t, t % 60 = 0 ∧ (t / 60).toNat % 60 = m ∧ t1 < t ∧ t ≤ t2 := by
  simp [DueIn, Due, onMinute, stoppedEnv, Timetable.hits, and_assoc]

theorem cron_starts_due_minute :
    let ctx : Ctx := ⟨0, 0, 60, [onMinute 1], ⟨0, 0⟩⟩
    let calls : List Call := [⟨60, 60⟩, ⟨119, 119⟩]
    (outs (inaCronProcess stoppedEnv) ctx calls).map Report.started = [[true], []] ∧
      Along (inaCronProcess stoppedEnv) (StartsDue stoppedEnv) ctx calls := by
  intro ctx calls
  have hfresh : Along (inaCronProcess stoppedEnv) (Fresh stoppedEnv) ctx calls := by
    refine ⟨fun _ _ => .inl ?_, fun _ _ => .inr ?_, trivial⟩
    · intro e he _ _
      obtain rfl : e = onMinute 1 := by simpa [ctx] using he
      exact dueIn_onMinute.mpr ⟨60, by decide⟩
    · -- no minute begins after 60 and before 120
      have ht1 : (inaCronProcess stoppedEnv ctx ⟨60, 60⟩).2.t1 = 60 := rfl
      rintro e - ⟨t, ⟨h60, -⟩, hlt, hle⟩
      rw [ht1] at hlt
      simp only at hle
      omega
  exact ⟨by decide, cron_starts_due stoppedEnv ctx calls hfresh⟩

/-- An event of the first minute and one of the second: the call at the second minute starts both
    processes. -/
theorem cron_starts_stale :
    ¬ Along (inaCronProcess stoppedEnv) (StartsDue stoppedEnv)
      ⟨0, 0, 60, [onMinute 1, onMinute 2], ⟨0, 0⟩⟩ [⟨60, 60⟩, ⟨120, 120⟩] := by
  rintro ⟨-, hsecond, -⟩
  obtain ⟨e, he, -, hdue⟩ := hsecond 0 rfl
  obtain rfl := Option.some.inj he
  obtain ⟨t, h60, hmin, hlt, hle⟩ := dueIn_onMinute.mp hdue
  have ht : t = 120 := by
    change (60 : Int) < t at hlt
    change t ≤ (120 : Int) at hle
    omega
  rw [ht] at hmin
  exact absurd hmin (by decide)

end Cron
end Inac
