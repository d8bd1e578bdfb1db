import Inac.Timer.Event

/-!
# A timer keeps an agenda

The invariant `TimerOk` says what the wheels do not: every timeout on them repeats, belongs to one
live event, and no sum of times wraps. Under it each call of the timer is a step of the agenda, so
**every run of a timer is a run of the agenda**.

A call brings the wheels up to its time first (`TimerOk.update`), and then changes one timeout: that
of the event which is created (`TimerOk.start`), freed (`TimerOk.free`) or handed out
(`TimerOk.fire`). What is left of the invariant is the same in all three (`TimerOk.changed`), and so
is what is seen of the other events (`agenda_set`).
-/

namespace Inac
namespace Timer

open Lib

variable {T : Timeouts} {timer : InaTimer} {a t e : Addr}

/-! ## Fields that the wheels leave alone

An update schedules a timeout anew, with the time it had. So what the timer has put into it is there
afterwards. -/

/-- The wheels have moved a timeout at most. -/
structure Kept (t t' : Timeout) : Prop where
  flags : t'.flags = t.flags
  interval : t'.interval = t.interval
  expires : t'.expires = t.expires
  data : t'.data = t.data
  installed : t'.pending ≠ none ↔ t.pending ≠ none

theorem pending_of_waiting {t : Timeout} (h : t.waiting = true) : t.pending ≠ none := by
  intro hnone
  rw [Timeout.waiting, hnone] at h
  exact absurd h Bool.false_ne_true

theorem Ok.update_kept (h : Ok T) (curtime : BitVec 64) (a : Addr) :
    Kept (T.mem a) ((timeoutsUpdate T curtime).mem a) := by
  obtain ⟨-, -, todo, hwait, -, hmem⟩ := timeoutsUpdate_spec h curtime
  rw [hmem a]
  split
  · rename_i hin
    exact ⟨rfl, rfl, rfl, rfl, iff_of_true nofun (pending_of_waiting (hwait a hin))⟩
  · exact ⟨rfl, rfl, rfl, rfl, Iff.rfl⟩

/-- What is on the wheels waits or is ready. -/
theorem ready_or_waiting {t : Timeout} (h : t.pending ≠ none) :
    t.ready = true ∨ t.waiting = true := by
  rw [Timeout.ready, Timeout.waiting]
  cases hp : t.pending with
  | none => exact absurd hp h
  | some p =>
    cases p with
    | slot i => exact Or.inr rfl
    | expired => exact Or.inl (decide_eq_true rfl)

theorem pending_of_ready {t : Timeout} (h : t.ready = true) : t.pending ≠ none := by
  rw [Timeout.ready, decide_eq_true_eq] at h
  rw [h]
  exact Option.some_ne_none _

theorem sched_mem_of_none (hnone : (T.mem a).pending = none) (expires : BitVec 64) :
    (timeoutsSched T a expires).mem =
      Function.update T.mem a ((T.mem a).sched T.curtime expires) := by
  have hdel : timeoutsDel T a = T := by
    rw [timeoutsDel.eq_def, hnone]
  rw [timeoutsSched_eq, hdel, put_mem, edit_mem, Function.update_idem, Function.update_self]
  rfl

/-- A timeout that is scheduled for later is not ready. -/
theorem sched_not_ready {t : Timeout} {curtime expires : BitVec 64}
    (hlt : curtime.toNat < expires.toNat) : (t.sched curtime expires).ready = false := by
  rw [Timeout.ready, Timeout.sched]
  refine decide_eq_false fun hexp => ?_
  have hle := placeFor_expired.mp (Option.some.inj hexp)
  exact absurd (BitVec.le_def.mp hle) (Nat.not_le.mpr hlt)

/-! ## Time

The agenda goes on to a time by itself (`Agenda.at`), and an update of the wheels does the same. -/

theorem TimerOk.update_live (h : TimerOk timer) (now : BitVec 64) (e : Addr) :
    InaTimer.Live { timer with timeouts := timeoutsUpdate timer.timeouts now } e ↔
      timer.Live e := by
  have hkept := h.wheels.update_kept now
  rw [InaTimer.Live, InaTimer.Live]
  exact and_congr (hkept _).installed (by rw [(hkept _).data])

theorem TimerOk.update (h : TimerOk timer) {now : BitVec 64} (hnow : now.toNat < 2 ^ 63) :
    TimerOk { timer with timeouts := timeoutsUpdate timer.timeouts now } ∧
      InaTimer.agenda { timer with timeouts := timeoutsUpdate timer.timeouts now } =
        timer.agenda.at now.toNat := by
  obtain ⟨hok, hcur, -⟩ := timeoutsUpdate_spec h.wheels now
  have hkept := h.wheels.update_kept now
  have hready := fun b => (h.wheels.update_waiting now b).2.2
  constructor
  · constructor
    · exact hok
    · show (timeoutsUpdate timer.timeouts now).curtime.toNat < 2 ^ 63
      rwa [hcur]
    · intro t ht
      obtain ⟨hflags, hpos, hsmall, hevent⟩ := h.repeats t ((hkept t).installed.mp ht)
      exact ⟨(hkept t).flags.trans hflags, by rwa [(hkept t).interval],
        by rwa [(hkept t).interval], by rwa [(hkept t).data]⟩
    · intro t ht
      rw [(hkept t).expires]
      rcases (hready t).mp ht with hold | ⟨-, hle⟩
      · exact h.reached t hold
      · exact Nat.lt_of_le_of_lt (BitVec.le_def.mp hle) hnow
  · refine Agenda.ext (congrArg BitVec.toNat hcur) (funext fun e => ?_)
    show _ = (timer.agenda.slot e).map (·.at now.toNat)
    have hlive := h.update_live now e
    by_cases hl : timer.Live e
    · rw [agenda_slot_live hl, agenda_slot_live (hlive.mpr hl), Option.map_some, Timeout.slot,
        Timeout.slot, Slot.at, (hkept _).interval, (hkept _).expires]
      congr 2
      -- ready now is what was ready before, and what waited and is due
      rw [Bool.eq_iff_iff, hready, Bool.or_eq_true, decide_eq_true_eq, BitVec.le_def]
      refine or_congr_right' fun hnot => ?_
      rw [and_iff_right ((ready_or_waiting hl.1).resolve_left hnot)]
    · rw [agenda_slot_dead hl, agenda_slot_dead fun hc => hl (hlive.mp hc)]
      rfl

/-! ## A timeout of its own for an event -/

/-- One timeout has changed. The invariant is kept if the timeout repeats, or is out, and has not come
    to be ready; and if the events of the other timeouts are what they were. -/
theorem TimerOk.changed {timer' : InaTimer} (h : TimerOk timer) (hwheels : Ok timer'.timeouts)
    (hclock : timer'.timeouts.curtime.toNat < 2 ^ 63)
    (hother : ∀ t', t' ≠ t → timer'.timeouts.mem t' = timer.timeouts.mem t')
    (hevent : ∀ t', t' ≠ t → (timer.timeouts.mem t').pending ≠ none →
      timer'.event (timer.timeouts.mem t').data = timer.event (timer.timeouts.mem t').data)
    (hself : (timer'.timeouts.mem t).pending ≠ none → Repeats timer' t)
    (hready : (timer'.timeouts.mem t).ready = false) : TimerOk timer' where
  wheels := hwheels
  clock := hclock
  repeats t' ht' := by
    -- The changed timeout, and all others.
    by_cases ht : t' = t
    · subst ht
      exact hself ht'
    · have hold := hother t' ht
      rw [hold] at ht'
      obtain ⟨hflags, hpos, hsmall, hhome⟩ := h.repeats t' ht'
      refine ⟨?_, ?_, ?_, ?_⟩
      · rwa [hold]
      · rwa [hold]
      · rwa [hold]
      · rwa [hold, hevent t' ht ht']
  reached t' ht' := by
    have ht : t' ≠ t := by
      rintro rfl
      rw [hready] at ht'
      exact absurd ht' Bool.false_ne_true
    rw [hother t' ht] at ht' ⊢
    exact h.reached t' ht'

/-- One timeout has changed, and it is the one of an event that lives. -/
theorem agenda_set {timer' : InaTimer} (hevent : ∀ e', e' ≠ e → timer'.event e' = timer.event e')
    (hmem : ∀ t', t' ≠ t → timer'.timeouts.mem t' = timer.timeouts.mem t')
    (hself : (timer'.event e).t = t) (hpend : (timer'.timeouts.mem t).pending ≠ none)
    (hdata : (timer'.timeouts.mem t).data = e)
    (hold : (timer.timeouts.mem t).pending ≠ none → (timer.timeouts.mem t).data = e)
    (hclock : timer'.timeouts.curtime = timer.timeouts.curtime) :
    timer'.agenda = timer.agenda.set e (some (timer'.timeouts.mem t).slot) := by
  refine Agenda.ext (congrArg BitVec.toNat hclock) (funext fun e' => ?_)
  show _ = Function.update timer.agenda.slot e _ e'
  by_cases he : e' = e
  · subst he
    have hlive : timer'.Live e' := by
      rw [InaTimer.Live, hself]
      exact ⟨hpend, hdata⟩
    rw [Function.update_self, agenda_slot_live hlive, hself]
  · rw [Function.update_of_ne he]
    -- An event that shares the timeout's address is not live, before or after: the timeout belongs
    -- to `e`.
    by_cases ht : (timer.event e').t = t
    · have hdead' : ¬ timer'.Live e' := by
        rw [InaTimer.Live, hevent e' he, ht]
        exact fun hc => he (hc.2.symm.trans hdata)
      have hdead : ¬ timer.Live e' := by
        rw [InaTimer.Live, ht]
        exact fun hc => he (hc.2.symm.trans (hold hc.1))
      rw [agenda_slot_dead hdead', agenda_slot_dead hdead]
    · have hiff : timer'.Live e' ↔ timer.Live e' := by
        rw [InaTimer.Live, InaTimer.Live, hevent e' he, hmem _ ht]
      by_cases hlive : timer.Live e'
      · rw [agenda_slot_live hlive, agenda_slot_live (hiff.mpr hlive), hevent e' he, hmem _ ht]
      · rw [agenda_slot_dead hlive, agenda_slot_dead fun hc => hlive (hiff.mp hc)]

/-! ## `ina_timer_event_new`

The timeout is initialised, told its event and added with the period as its interval; it is due one
period after the time that the caller gave. -/

/-- `timeouts_add` of a timeout that only repeats. -/
theorem timeoutsAdd_repeating (hflags : (T.mem a).flags = timeoutInt) (timeout : BitVec 64) :
    timeoutsAdd T a timeout = timeoutsSched
      (T.edit a ({ · with interval := if 1 > timeout then 1 else timeout })) a
      (T.curtime + timeout) := by
  have hint : (T.mem a).flags &&& timeoutInt ≠ 0 := by
    rw [hflags]
    decide
  have habs : ¬ ((T.edit a ({ · with interval := if 1 > timeout then 1 else timeout })).mem a).flags
      &&& timeoutAbs ≠ 0 := by
    rw [edit_mem, Function.update_self, hflags]
    decide
  rw [timeoutsAdd]
  simp only [if_pos hint]
  rw [if_neg habs]
  rfl

/-- The timeout of an event that starts now. -/
def startedTimeout (curtime p : BitVec 64) (e : Addr) : Timeout :=
  { flags := timeoutInt
    interval := p
    expires := curtime + p
    timeouts := true
    pending := some (placeFor curtime (curtime + p))
    data := e }

/-- `timeouts_add` of a fresh repeating timeout. -/
theorem Ok.add_event (h : Ok T) (hfree : (T.mem t).pending = none) {p : BitVec 64}
    (hp : 0 < p.toNat) {S : Timeouts}
    (hS : S = timeoutsAdd ((timeoutInit T t timeoutInt).edit t ({ · with data := e })) t p) :
    Ok S ∧ S.curtime = T.curtime ∧
      S.mem = Function.update T.mem t (startedTimeout T.curtime p e) := by
  have hinit := (h.init hfree timeoutInt).1
  have hdata : Ok ((timeoutInit T t timeoutInt).edit t ({ · with data := e })) :=
    ⟨hinit.linked.edit_values (fun _ => rfl) (fun _ => rfl), hinit.placed.edit_values fun _ => rfl⟩
  -- A period is at least one, so it is the interval as it stands.
  have hone : ¬ (1 : BitVec 64) > p := by
    rw [gt_iff_lt, BitVec.lt_def]
    exact Nat.not_lt.mpr hp
  have hadd : S = timeoutsSched
      (((timeoutInit T t timeoutInt).edit t ({ · with data := e })).edit t
        ({ · with interval := p })) t (T.curtime + p) := by
    rw [hS, timeoutsAdd_repeating, if_neg hone]
    · rfl
    · rw [edit_mem, Function.update_self, timeoutInit, edit_mem, Function.update_self]
  have hnone : ((((timeoutInit T t timeoutInt).edit t ({ · with data := e })).edit t
      ({ · with interval := p })).mem t).pending = none := by
    rw [edit_mem, Function.update_self, edit_mem, Function.update_self, timeoutInit, edit_mem,
      Function.update_self]
  refine ⟨hS ▸ (hdata.add p).1, ?_, ?_⟩
  · rw [hadd, timeoutsSched_curtime]
    rfl
  · rw [hadd, sched_mem_of_none hnone, edit_mem, edit_mem, timeoutInit, edit_mem,
      Function.update_idem, Function.update_idem, Function.update_idem, Function.update_self,
      Function.update_self, Function.update_self]
    rfl

/-- An event that starts now is on the agenda, one period ahead. -/
theorem TimerOk.start (h : TimerOk timer) {p : BitVec 64}
    (hp : 0 < p.toNat ∧ p.toNat < 2 ^ 63) (hdead : ¬ timer.Live e)
    (hfree : (timer.timeouts.mem t).pending = none) (timer' : InaTimer) (id : BitVec 32)
    (htimeouts : timer'.timeouts = timeoutsAdd
      ((timeoutInit timer.timeouts t timeoutInt).edit t ({ · with data := e })) t p)
    (hevent : timer'.event = Function.update timer.event e ⟨id, t⟩) :
    TimerOk timer' ∧ timer'.agenda = timer.agenda.set e
      (some ⟨p.toNat, timer.timeouts.curtime.toNat + p.toNat, false⟩) := by
  obtain ⟨hwheels, hclock, hmem⟩ := h.wheels.add_event hfree hp.1 htimeouts
  have hsum : (timer.timeouts.curtime + p).toNat = timer.timeouts.curtime.toNat + p.toNat := by
    have hcur := h.clock
    rw [BitVec.toNat_add]
    omega
  have hself : timer'.timeouts.mem t = startedTimeout timer.timeouts.curtime p e := by
    rw [hmem, Function.update_self]
  have hother : ∀ t', t' ≠ t → timer'.timeouts.mem t' = timer.timeouts.mem t' := by
    intro t' ht
    rw [hmem, Function.update_of_ne ht]
  have hhome : timer'.event e = ⟨id, t⟩ := by
    rw [hevent, Function.update_self]
  have hnotReady : (timer'.timeouts.mem t).ready = false := by
    rw [hself]
    exact sched_not_ready (t := startedTimeout timer.timeouts.curtime p e) (by rw [hsum]; omega)
  constructor
  · refine h.changed hwheels (hclock ▸ h.clock) hother ?_ ?_ hnotReady
    · -- no timeout that is installed belongs to the address the event has got
      intro t' _ ht'
      rw [hevent]
      refine Function.update_of_ne (fun hde => hdead ?_) ..
      rw [← hde]
      exact (h.live ht').1
    · intro _
      refine ⟨?_, ?_, ?_, ?_⟩
      · rw [hself]; rfl
      · rw [hself]; exact hp.1
      · rw [hself]; exact hp.2
      · rw [hself]
        exact congrArg TimerEvent.t hhome
  · rw [agenda_set (fun e' he => by rw [hevent, Function.update_of_ne he]) hother
      (congrArg TimerEvent.t hhome) (by rw [hself]; exact nofun) (by rw [hself]; rfl)
      (fun hc => absurd hfree hc) hclock, Timeout.slot, hnotReady, hself, startedTimeout, hsum]

theorem TimerOk.new (h : TimerOk timer) {n p : BitVec 64}
    (hn : 0 < n.toNat ∧ n.toNat < 2 ^ 63) (hp : 0 < p.toNat ∧ p.toNat < 2 ^ 63)
    (hfresh : timer.Fresh (some e) (some t)) :
    (inaTimerEventNewWithTime timer n p (some e) (some t)).1 = .ok e ∧
      TimerOk (inaTimerEventNewWithTime timer n p (some e) (some t)).2 ∧
      (inaTimerEventNewWithTime timer n p (some e) (some t)).2.agenda =
        (timer.agenda.at n.toNat).set e (some ⟨p.toNat, n.toNat + p.toNat, false⟩) := by
  obtain ⟨hdead, hfree⟩ := hfresh
  obtain ⟨hok, hagenda⟩ := h.update hn.2
  have hfree' : ((timeoutsUpdate timer.timeouts n).mem t).pending = none := by
    by_contra hne
    exact (h.wheels.update_kept n t).installed.mp hne hfree
  rw [inaTimerEventNewWithTime, if_neg (not_not.mpr (slt_iff.mpr hn)),
    if_neg (not_not.mpr (slt_iff.mpr hp))]
  obtain ⟨hok', hagenda'⟩ := hok.start hp (fun hl => hdead ((h.update_live n e).mp hl)) hfree'
    ⟨timeoutsAdd ((timeoutInit (timeoutsUpdate timer.timeouts n) t timeoutInt).edit t
      ({ · with data := e })) t p, timer.nextEventId + 1,
      Function.update timer.event e ⟨timer.nextEventId + 1, t⟩⟩ (timer.nextEventId + 1) rfl rfl
  refine ⟨rfl, hok', ?_⟩
  rw [hagenda, show (timeoutsUpdate timer.timeouts n).curtime = n from
    (timeoutsUpdate_spec h.wheels n).2.1] at hagenda'
  exact hagenda'

/-! ## `ina_timer_event_free`

The timeout is deleted and both blocks are given back. The event is live no more, as its timeout
points nowhere. -/

theorem TimerOk.free (h : TimerOk timer) (hlive : timer.Live e) :
    TimerOk (inaTimerEventFree timer e) ∧
      (inaTimerEventFree timer e).agenda = timer.agenda.set e none := by
  have hdel := h.wheels.del (timer.event e).t
  have hmem := (h.wheels.linked.del (a := (timer.event e).t) List.not_mem_nil).mem
  have hcur := timeoutsDel_curtime timer.timeouts (timer.event e).t
  rw [inaTimerEventFree]
  generalize timeoutsDel timer.timeouts (timer.event e).t = S at hdel hmem hcur ⊢
  have hself : (S.mem (timer.event e).t).pending = none := by
    rw [hmem, Function.update_self]
  have hother : ∀ t', t' ≠ (timer.event e).t → S.mem t' = timer.timeouts.mem t' := by
    intro t' ht
    rw [hmem, Function.update_of_ne ht]
  constructor
  · refine h.changed hdel ?_ hother (fun _ _ _ => rfl) (fun hc => absurd hself hc) ?_
    · show S.curtime.toNat < 2 ^ 63
      rw [hcur]
      exact h.clock
    · exact Bool.eq_false_of_not_eq_true fun hr => pending_of_ready hr hself
  · refine Agenda.ext (congrArg BitVec.toNat hcur) (funext fun e' => ?_)
    show _ = Function.update timer.agenda.slot e none e'
    by_cases he : e' = e
    · rw [he, Function.update_self]
      exact agenda_slot_dead fun hc => hc.1 hself
    · rw [Function.update_of_ne he]
      -- Another event of the same timeout would not be live, as the timeout belongs to the one that
      -- is freed.
      by_cases ht : (timer.event e').t = (timer.event e).t
      · have hdead : ¬ timer.Live e' := by
          rintro ⟨-, hdata⟩
          rw [ht, hlive.2] at hdata
          exact he hdata.symm
        rw [agenda_slot_dead hdead]
        refine agenda_slot_dead fun hc => hc.1 ?_
        show (S.mem (timer.event e').t).pending = none
        rw [ht, hself]
      · have hiff : InaTimer.Live { timer with timeouts := S } e' ↔ timer.Live e' := by
          rw [InaTimer.Live, InaTimer.Live, hother _ ht]
        by_cases hl : timer.Live e'
        · rw [agenda_slot_live hl, agenda_slot_live (hiff.mpr hl), hother _ ht]
        · rw [agenda_slot_dead hl, agenda_slot_dead fun hc => hl (hiff.mp hc)]

/-! ## `ina_timer_next_event` -/

/-- `timeouts_get` of a repeating timeout. -/
theorem timeoutsGet_mem {rest : List Addr} (hq : T.expired = a :: rest)
    (hflags : (T.mem a).flags = timeoutInt) (hpos : 0 < (T.mem a).interval.toNat) :
    (timeoutsGet T).2.curtime = T.curtime ∧
      (timeoutsGet T).2.mem = Function.update T.mem a ((T.mem a).sched T.curtime
        (nextFiring T.curtime (T.mem a).expires (T.mem a).interval)) := by
  obtain ⟨S, hS⟩ : ∃ S, S = (T.remove a .expired).edit a ({ · with pending := none }) := ⟨_, rfl⟩
  have hSmem : S.mem a = { T.mem a with pending := none } := by
    rw [hS, edit_mem, Function.update_self]
    rfl
  -- It repeats, so it goes back on the wheels.
  have hcond : (S.mem a).flags &&& timeoutInt ≠ 0 ∧ (S.mem a).interval > 0 := by
    rw [hSmem]
    refine ⟨?_, BitVec.lt_def.mpr hpos⟩
    rw [hflags]
    decide
  have hget : (timeoutsGet T).2 = timeoutsReadd S a := by
    rw [timeoutsGet.eq_def, hq]
    simp only [← hS]
    rw [if_pos hcond]
  have hnone : ((S.edit a ({ · with
      expires := nextFiring S.curtime (S.mem a).expires (S.mem a).interval })).mem a).pending =
        none := by
    rw [edit_mem, Function.update_self, hSmem]
  have hcur : S.curtime = T.curtime := by rw [hS]; rfl
  rw [hget, timeoutsReadd_eq]
  refine ⟨?_, ?_⟩
  · rw [timeoutsSched_curtime, edit_curtime, hcur]
  · rw [sched_mem_of_none hnone, edit_mem, edit_curtime, Function.update_idem,
      Function.update_self, hSmem, hcur]
    rw [hS, edit_mem, Function.update_idem]
    rfl

/-- The event whose timeout has come to the front of the expired list fires. -/
theorem TimerOk.fire (h : TimerOk timer) {rest : List Addr}
    (hq : timer.timeouts.expired = a :: rest) :
    TimerOk { timer with timeouts := (timeoutsGet timer.timeouts).2 } ∧
      ((timeoutsGet timer.timeouts).2.mem a).data = (timer.timeouts.mem a).data ∧
      InaTimer.agenda { timer with timeouts := (timeoutsGet timer.timeouts).2 } =
        timer.agenda.set (timer.timeouts.mem a).data
          (some ((timer.timeouts.mem a).slot.fire timer.timeouts.curtime.toNat)) := by
  obtain ⟨-, hwheels, hready, -⟩ := h.wheels.get_some hq
  obtain ⟨hflags, hpos, hsmall, hevent⟩ := h.repeats a (pending_of_ready hready)
  obtain ⟨hclock, hmem⟩ := timeoutsGet_mem hq hflags hpos
  generalize (timeoutsGet timer.timeouts).2 = V at hwheels hclock hmem ⊢
  -- It was due before it was handed out, so its next time does not wrap.
  have hnext := nextFiring_toNat h.clock (h.reached a hready) hpos hsmall
  have hself : V.mem a = (timer.timeouts.mem a).sched timer.timeouts.curtime
      (nextFiring timer.timeouts.curtime (timer.timeouts.mem a).expires
        (timer.timeouts.mem a).interval) := by
    rw [hmem, Function.update_self]
  have hdata : (V.mem a).data = (timer.timeouts.mem a).data := by rw [hself]; rfl
  have hother : ∀ t', t' ≠ a → V.mem t' = timer.timeouts.mem t' := by
    intro t' ht
    rw [hmem, Function.update_of_ne ht]
  have hnotReady : (V.mem a).ready = false := by
    rw [hself]
    exact sched_not_ready hnext.2
  refine ⟨?_, hdata, ?_⟩
  · refine h.changed hwheels (hclock ▸ h.clock) hother (fun _ _ _ => rfl) (fun _ => ?_) hnotReady
    refine ⟨?_, ?_, ?_, ?_⟩
    · exact (congrArg Timeout.flags hself).trans hflags
    · exact (congrArg (fun u : Timeout => 0 < u.interval.toNat) hself).mpr hpos
    · exact (congrArg (fun u : Timeout => u.interval.toNat < 2 ^ 63) hself).mpr hsmall
    · exact (congrArg (fun d => (timer.event d).t) hdata).trans hevent
  · have hslot : (V.mem a).slot =
        (timer.timeouts.mem a).slot.fire timer.timeouts.curtime.toNat := by
      rw [Timeout.slot, hnotReady, hself, Slot.fire]
      congr 1
      exact hnext.1
    rw [← hdata, ← hslot]
    exact agenda_set (fun e' _ => rfl) hother (hdata ▸ hevent) (hself ▸ Option.some_ne_none _) rfl
      (fun _ => hdata.symm) hclock

theorem TimerOk.next (h : TimerOk timer) {now : BitVec 64} (hnow : now.toNat < 2 ^ 63) :
    TimerOk (inaTimerNextEventWithTime timer now).2 ∧
      AgendaStep timer.agenda (.next now) (.next (inaTimerNextEventWithTime timer now).1)
        (inaTimerNextEventWithTime timer now).2.agenda := by
  obtain ⟨hok, hagenda⟩ := h.update hnow
  have hcur := (timeoutsUpdate_spec h.wheels now).2.1
  rw [inaTimerNextEventWithTime]
  generalize timeoutsUpdate timer.timeouts now = U at hok hagenda hcur ⊢
  cases hq : U.expired with
  | nil =>
    have hget : timeoutsGet U = (none, U) := by
      rw [timeoutsGet.eq_def, hq]
    simp only [hget]
    refine ⟨hok, hagenda ▸ .noNext now fun e s hs => ?_⟩
    rw [← hagenda] at hs
    obtain ⟨hl, rfl⟩ := TimerOk.slot_eq hs
    by_contra hr
    -- The queue is empty, so nothing is ready.
    have hmem := hok.wheels.ready_iff.mp (Bool.eq_true_of_not_eq_false hr)
    rw [hq] at hmem
    exact List.not_mem_nil hmem
  | cons a rest =>
    obtain ⟨hgot, -, hready, -⟩ := hok.wheels.get_some hq
    obtain ⟨hok', hdata, hfire⟩ := hok.fire hq
    obtain ⟨hlive, hhome⟩ := hok.live (pending_of_ready hready)
    simp only [hgot]
    refine ⟨hok', ?_⟩
    rw [hfire, hagenda, hdata, hcur]
    refine .next now _ _ ?_ hready
    rw [← hagenda, agenda_slot_live hlive, hhome]

/-! ## Every call -/

theorem TimerOk.howLong (h : TimerOk timer) :
    AgendaStep timer.agenda .howLong (.howLong (inaTimerTimeToNextEvent timer)) timer.agenda := by
  have hwait := h.wheels.mayWait
  refine .howLong _ ?_ ?_
  · rintro ⟨e, s, hs, hready⟩
    obtain ⟨hl, rfl⟩ := TimerOk.slot_eq hs
    exact hwait.ready ⟨_, (ready_iff_status _).mp hready⟩
  · intro e s hs hnot
    obtain ⟨hl, rfl⟩ := TimerOk.slot_eq hs
    refine hwait.waiting _ ((waiting_iff_status _).mp ((ready_or_waiting hl.1).resolve_left ?_))
    rw [show (timer.timeouts.mem (timer.event e).t).ready = false from hnot]
    exact Bool.false_ne_true

theorem TimerOk.newStep (h : TimerOk timer) (n p : BitVec 64) {event t : Option Addr}
    (hfresh : timer.Fresh event t) :
    TimerOk (inaTimerEventNewWithTime timer n p event t).2 ∧
      AgendaStep timer.agenda (.new n p event t)
        (.created (inaTimerEventNewWithTime timer n p event t).1)
        (inaTimerEventNewWithTime timer n p event t).2.agenda := by
  by_cases hn : (0#64).slt n = true
  · by_cases hp : (0#64).slt p = true
    · cases event with
      | none =>
        rw [inaTimerEventNewWithTime, if_neg (not_not.mpr hn), if_neg (not_not.mpr hp)]
        exact ⟨h, .notNew (.memory (slt_iff.mp hn) (slt_iff.mp hp) (.inl rfl))⟩
      | some e =>
        cases t with
        | none =>
          rw [inaTimerEventNewWithTime, if_neg (not_not.mpr hn), if_neg (not_not.mpr hp)]
          exact ⟨h, .notNew (.memory (slt_iff.mp hn) (slt_iff.mp hp) (.inr rfl))⟩
        | some t =>
          obtain ⟨hout, hok, hagenda⟩ := h.new (slt_iff.mp hn) (slt_iff.mp hp) hfresh
          rw [hout, hagenda]
          exact ⟨hok, .new n p e t (slt_iff.mp hn) (slt_iff.mp hp) (agenda_slot_dead hfresh.1)⟩
    · rw [inaTimerEventNewWithTime.eq_def, if_neg (not_not.mpr hn), if_pos hp]
      exact ⟨h, .notNew (.period fun hpos => hp (slt_iff.mpr hpos))⟩
  · rw [inaTimerEventNewWithTime.eq_def, if_pos hn]
    exact ⟨h, .notNew (.time fun hpos => hn (slt_iff.mpr hpos))⟩

theorem timerStep_refines (h : TimerOk timer) {op : TimerOp} (hop : timer.Proper op) :
    TimerOk (timerStep timer op).2 ∧
      AgendaStep timer.agenda op (timerStep timer op).1 (timerStep timer op).2.agenda := by
  cases op with
  | new n p event t => exact h.newStep n p hop
  | free e =>
    obtain ⟨hok, hagenda⟩ := h.free hop
    exact ⟨hok, hagenda ▸ .free e⟩
  | next now => exact h.next hop
  | howLong => exact ⟨h, h.howLong⟩

theorem TimerOk.fresh {mem : Addr → Timeout} (hmem : Unused mem) (event : Addr → TimerEvent) :
    TimerOk (inaTimerNew mem event) where
  wheels := Ok.fresh hmem 0
  clock := by
    show (0#64).toNat < 2 ^ 63
    decide
  repeats t ht := absurd (hmem t).1 ht
  reached t ht := absurd (hmem t).1 (pending_of_ready ht)

/-- Every run of a timer whose caller frees an event once, gives it blocks that are not in use and reads
    no negative time is a run of the agenda. -/
theorem timer_follows_agenda {mem : Addr → Timeout} (hmem : Unused mem)
    (event : Addr → TimerEvent) {ops : List TimerOp}
    (hops : Along timerStep InaTimer.Proper (inaTimerNew mem event) ops) :
    Follows AgendaStep (inaTimerNew mem event).agenda ops
      (outs timerStep (inaTimerNew mem event) ops)
      (exec timerStep (inaTimerNew mem event) ops).agenda :=
  follows_of_refines (fun _ _ hop h => timerStep_refines h hop) hops (TimerOk.fresh hmem event)

/-- Two events, one of which is freed, and calls before and after they are due. -/
def twoEvents : List TimerOp :=
  [.new 1 900 (some 1) (some 1), .new 2 100 (some 2) (some 2), .next 50, .howLong, .next 102,
    .next 102, .free 2, .next 5000, .next 5000]

theorem timer_follows_agenda_two :
    Follows AgendaStep (inaTimerNew zeroed fun _ => ⟨0, 0⟩).agenda twoEvents
      (outs timerStep (inaTimerNew zeroed fun _ => ⟨0, 0⟩) twoEvents)
      (exec timerStep (inaTimerNew zeroed fun _ => ⟨0, 0⟩) twoEvents).agenda :=
  timer_follows_agenda zeroed_unused (fun _ => ⟨0, 0⟩) (by decide +kernel)

end Timer
end Inac
