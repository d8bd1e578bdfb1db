import Inac.Timer.Agenda

/-!
# Waiting for flags

`ina_ipc_flags_wait` (`src/src/ipc.c`) starts an event of the timer that each flags object has, and
then looks at the flags and asks the timer in turn. The flags may be changed by anyone between two
looks and the clock goes its own way, so what a call reads is an argument: the time it starts at,
and for each round the word of the flags and the time.

The event that the timer hands out takes the place of the caller's own before it is freed. That is
the same event only as long as no other is left on the timer, which every call that returns keeps up.
-/

namespace Inac
namespace Ipc

open Lib Timer

/-- `ina_ipc_flags_is_set`, with the word it reads. -/
def inaIpcFlagsIsSet (v value : BitVec 64) : Bool := value &&& v = value

/-- What `ina_ipc_flags_wait` returns. -/
inductive WaitRc where
  | success
  | timedOut  -- `INA_ERR_TIMED_OUT`
  | failed (e : Err)  -- what `ina_timer_event_new` fails with
  deriving DecidableEq, Repr

/-- What a round of the loop reads. -/
structure Reading where
  v : BitVec 64
  nowMillis : BitVec 64
  deriving DecidableEq, Repr

/-- The loop: whether it timed out, the timer and the event to free. `none` is a loop that goes on
    when the readings end. -/
def waitLoop (waitFor : BitVec 64) :
    List Reading → InaTimer → Addr → Option (Bool × InaTimer × Addr)
  | [], _, _ => none
  | r :: readings, timer, event =>
    if inaIpcFlagsIsSet r.v waitFor then some (false, timer, event)
    else
      match inaTimerNextEventWithTime timer r.nowMillis with
      | (.ok event, timer) => some (true, timer, event)
      | (.error _, timer) => waitLoop waitFor readings timer event

/-- A call, with the blocks that the allocator returns for its event. -/
structure WaitCall where
  waitFor : BitVec 64
  msecTimeout : BitVec 64
  start : BitVec 64
  event : Option Addr
  t : Option Addr
  readings : List Reading
  deriving DecidableEq, Repr

def inaIpcFlagsWait (timer : InaTimer) (c : WaitCall) : Option WaitRc × InaTimer :=
  match inaTimerEventNewWithTime timer c.start c.msecTimeout c.event c.t with
  | (.error e, timer) => (some (.failed e), timer)
  | (.ok event, timer) =>
    match waitLoop c.waitFor c.readings timer event with
    | none => (none, timer)
    | some (timeout, timer, event) =>
      (some (if timeout then .timedOut else .success), inaTimerEventFree timer event)

/-! ## What a call should return

It is read off what the call is given: the first round in which the flags are set or the time is
over decides. -/

/-- The round that ends the wait. -/
def Reading.ends (waitFor : BitVec 64) (due : Nat) (r : Reading) : Bool :=
  inaIpcFlagsIsSet r.v waitFor || decide (due ≤ r.nowMillis.toNat)

/-- The first round that finds the flags set or the time over decides, the flags before the time. -/
def verdict (waitFor : BitVec 64) (due : Nat) (readings : List Reading) : Option WaitRc :=
  (readings.find? (·.ends waitFor due)).map fun r =>
    if inaIpcFlagsIsSet r.v waitFor then .success else .timedOut

def WaitCall.verdict (c : WaitCall) : Option WaitRc :=
  if ¬ (0#64).slt c.start ∨ ¬ (0#64).slt c.msecTimeout then some (.failed .invalidArgument)
  else if c.event = none ∨ c.t = none then some (.failed .outOfMemory)
  else Ipc.verdict c.waitFor (c.start.toNat + c.msecTimeout.toNat) c.readings

/-- The times are not negative, and the rounds go on until the call returns. -/
def WaitCall.Returns (c : WaitCall) : Prop :=
  (∀ r ∈ c.readings, r.nowMillis.toNat < 2 ^ 63) ∧ c.verdict ≠ none

instance (c : WaitCall) : Decidable c.Returns := inferInstanceAs (Decidable (_ ∧ _))

/-! ## The timer of a flags object

Between two calls it holds no event. From here on it is an agenda, and nothing of its wheels is
used. -/

/-- No event is left on the timer. -/
structure Vacant (timer : InaTimer) : Prop where
  ok : TimerOk timer
  empty : ∀ e, timer.agenda.slot e = none

/-- One event is on the timer, and its time has not been reached. -/
structure Waits (timer : InaTimer) (e : Addr) (p due : Nat) : Prop where
  ok : TimerOk timer
  slot : ∀ e', timer.agenda.slot e' = if e' = e then some ⟨p, due, false⟩ else none

variable {timer : InaTimer} {e t : Addr} {p due : Nat}

theorem Vacant.dead (h : Vacant timer) (e : Addr) : ¬ timer.Live e := by
  intro hl
  have hslot := h.empty e
  rw [agenda_slot_live hl] at hslot
  exact absurd hslot nofun

theorem Vacant.fresh (h : Vacant timer) (event t : Option Addr) : timer.Fresh event t := by
  cases event with
  | none => trivial
  | some e =>
    cases t with
    | none => trivial
    | some t =>
      refine ⟨h.dead e, ?_⟩
      by_contra hpend
      exact h.dead _ (h.ok.live hpend).1

theorem Vacant.start (h : Vacant timer) {n m : BitVec 64} (hn : (0#64).slt n = true)
    (hm : (0#64).slt m = true) :
    (inaTimerEventNewWithTime timer n m (some e) (some t)).1 = .ok e ∧
      Waits (inaTimerEventNewWithTime timer n m (some e) (some t)).2 e m.toNat
        (n.toNat + m.toNat) := by
  obtain ⟨hout, hok, hagenda⟩ := h.ok.new (slt_iff.mp hn) (slt_iff.mp hm) (h.fresh (some e) (some t))
  refine ⟨hout, hok, fun e' => ?_⟩
  rw [hagenda]
  show Function.update (timer.agenda.at n.toNat).slot e _ e' = _
  have hnone : (timer.agenda.at n.toNat).slot e' = none := congrArg (Option.map _) (h.empty e')
  rw [Function.update_apply, hnone]

/-- The event is handed out when its time is reached, and not before. -/
theorem Waits.next (h : Waits timer e p due) {now : BitVec 64} (hnow : now.toNat < 2 ^ 63) :
    if due ≤ now.toNat then
      (inaTimerNextEventWithTime timer now).1 = .ok e ∧
        TimerOk (inaTimerNextEventWithTime timer now).2 ∧
        (∀ e', e' ≠ e → (inaTimerNextEventWithTime timer now).2.agenda.slot e' = none) ∧
        (inaTimerNextEventWithTime timer now).2.agenda.slot e ≠ none
    else
      (inaTimerNextEventWithTime timer now).1 = .error .tryAgain ∧
        Waits (inaTimerNextEventWithTime timer now).2 e p due := by
  obtain ⟨hok, hstep⟩ := h.ok.next hnow
  have hslot : ∀ e', (timer.agenda.at now.toNat).slot e' =
      if e' = e then some ⟨p, due, decide (due ≤ now.toNat)⟩ else none := by
    intro e'
    show (timer.agenda.slot e').map _ = _
    rw [h.slot e']
    split <;> rfl
  generalize hr : (inaTimerNextEventWithTime timer now).1 = r at hstep
  generalize hg : (inaTimerNextEventWithTime timer now).2.agenda = g at hstep
  cases hstep with
  -- The event handed out is the caller's own, since there is no other, and its time has come.
  | next _ e' s hs hready =>
    rw [hslot] at hs
    split at hs
    · rename_i he
      subst he
      rw [← Option.some.inj hs] at hready
      rw [if_pos (of_decide_eq_true hready)]
      refine ⟨rfl, hok, fun e'' he => ?_, ?_⟩
      · show Function.update (timer.agenda.at now.toNat).slot e' _ e'' = none
        rw [Function.update_of_ne he, hslot, if_neg he]
      · show Function.update (timer.agenda.at now.toNat).slot e' _ e' ≠ none
        rw [Function.update_self]
        exact nofun
    · exact absurd hs nofun
  -- Its time has not come.
  | noNext _ hnone =>
    have hfalse := hnone e ⟨p, due, decide (due ≤ now.toNat)⟩ (by rw [hslot, if_pos rfl])
    rw [if_neg (of_decide_eq_false hfalse)]
    refine ⟨rfl, hok, fun e' => ?_⟩
    rw [hg, hslot, show decide (due ≤ now.toNat) = false from hfalse]

theorem vacant_free (h : TimerOk timer) (hother : ∀ e', e' ≠ e → timer.agenda.slot e' = none)
    (hself : timer.agenda.slot e ≠ none) : Vacant (inaTimerEventFree timer e) := by
  have hlive : timer.Live e := by
    by_contra hdead
    exact hself (agenda_slot_dead hdead)
  obtain ⟨hok, hagenda⟩ := h.free hlive
  refine ⟨hok, fun e' => ?_⟩
  rw [hagenda]
  show Function.update timer.agenda.slot e none e' = none
  rw [Function.update_apply]
  split
  · rfl
  · rename_i he
    exact hother e' he

/-! ## The loop and the call

A round finds the flags set, finds the time over, or goes on with the event still waiting. -/

theorem Waits.loop {waitFor : BitVec 64} {readings : List Reading} (h : Waits timer e p due)
    (htimes : ∀ r ∈ readings, r.nowMillis.toNat < 2 ^ 63)
    (hends : verdict waitFor due readings ≠ none) :
    ∃ timeout timer', waitLoop waitFor readings timer e = some (timeout, timer', e) ∧
      verdict waitFor due readings = some (if timeout then .timedOut else .success) ∧
      Vacant (inaTimerEventFree timer' e) := by
  induction readings generalizing timer with
  | nil => exact absurd rfl hends
  | cons r readings ih =>
    have hnext := h.next (htimes r List.mem_cons_self)
    rw [waitLoop]
    -- The flags are looked at first, so they count even if the time is over as well.
    by_cases hset : inaIpcFlagsIsSet r.v waitFor = true
    · have hend : r.ends waitFor due = true := by rw [Reading.ends, hset, Bool.true_or]
      refine ⟨false, timer, if_pos hset, ?_, vacant_free h.ok (fun e' he => ?_) ?_⟩
      · rw [verdict, List.find?_cons_of_pos hend, Option.map_some, if_pos hset]
        rfl
      · rw [h.slot, if_neg he]
      · rw [h.slot, if_pos rfl]
        exact nofun
    · rw [if_neg hset]
      by_cases hdue : due ≤ r.nowMillis.toNat
      · have hend : r.ends waitFor due = true := by
          rw [Reading.ends, decide_eq_true hdue, Bool.or_true]
        rw [if_pos hdue] at hnext
        obtain ⟨hout, hok, hother, hself⟩ := hnext
        refine ⟨true, (inaTimerNextEventWithTime timer r.nowMillis).2, ?_, ?_,
          vacant_free hok hother hself⟩
        · rw [show inaTimerNextEventWithTime timer r.nowMillis =
            (.ok e, (inaTimerNextEventWithTime timer r.nowMillis).2) from Prod.ext hout rfl]
        · rw [verdict, List.find?_cons_of_pos hend, Option.map_some, if_neg hset]
          rfl
      · have hend : ¬ r.ends waitFor due = true := by
          rw [Reading.ends, Bool.or_eq_true, decide_eq_true_eq]
          exact fun hc => hc.elim hset hdue
        rw [if_neg hdue] at hnext
        have hrest : verdict waitFor due (r :: readings) = verdict waitFor due readings := by
          rw [verdict, List.find?_cons_of_neg hend]
          rfl
        rw [hrest] at hends ⊢
        rw [show inaTimerNextEventWithTime timer r.nowMillis =
          (.error .tryAgain, (inaTimerNextEventWithTime timer r.nowMillis).2) from
            Prod.ext hnext.1 rfl]
        exact ih hnext.2 (fun r' hr => htimes r' (List.mem_cons_of_mem r hr)) hends

/-- One call. -/
theorem Vacant.wait (h : Vacant timer) {c : WaitCall} (hc : c.Returns) :
    (inaIpcFlagsWait timer c).1 = c.verdict ∧ Vacant (inaIpcFlagsWait timer c).2 := by
  obtain ⟨htimes, hends⟩ := hc
  rw [inaIpcFlagsWait]
  by_cases hargs : ¬ (0#64).slt c.start ∨ ¬ (0#64).slt c.msecTimeout
  · have hnew : inaTimerEventNewWithTime timer c.start c.msecTimeout c.event c.t =
        (.error .invalidArgument, timer) := by
      rw [inaTimerEventNewWithTime.eq_def]
      rcases hargs with hs | hm
      · rw [if_pos hs]
      · by_cases hs : ¬ (0#64).slt c.start
        · rw [if_pos hs]
        · rw [if_neg hs, if_pos hm]
    rw [hnew, WaitCall.verdict, if_pos hargs]
    exact ⟨rfl, h⟩
  · have hpos := not_or.mp hargs
    -- Without memory for the event the call fails before it waits.
    by_cases hmem : c.event = none ∨ c.t = none
    · have hnew : inaTimerEventNewWithTime timer c.start c.msecTimeout c.event c.t =
          (.error .outOfMemory, timer) := by
        rw [inaTimerEventNewWithTime.eq_def, if_neg hpos.1, if_neg hpos.2]
        rcases hmem with he | ht
        · rw [he]
        · rw [ht]
          cases c.event <;> rfl
      rw [hnew, WaitCall.verdict, if_neg hargs, if_pos hmem]
      exact ⟨rfl, h⟩
    · obtain ⟨he, ht⟩ := not_or.mp hmem
      obtain ⟨e, he⟩ := Option.ne_none_iff_exists'.mp he
      obtain ⟨t, ht⟩ := Option.ne_none_iff_exists'.mp ht
      have hverdict : c.verdict =
          verdict c.waitFor (c.start.toNat + c.msecTimeout.toNat) c.readings := by
        rw [WaitCall.verdict, if_neg hargs, if_neg hmem]
      obtain ⟨hout, hwaits⟩ := h.start (e := e) (t := t) (not_not.mp hpos.1) (not_not.mp hpos.2)
      rw [hverdict] at hends ⊢
      obtain ⟨timeout, timer', hloop, hsome, hvacant⟩ := hwaits.loop htimes hends
      rw [he, ht, show inaTimerEventNewWithTime timer c.start c.msecTimeout (some e) (some t) =
        (.ok e, (inaTimerEventNewWithTime timer c.start c.msecTimeout (some e) (some t)).2) from
          Prod.ext hout rfl]
      simp only [hloop]
      exact ⟨hsome.symm, hvacant⟩

theorem vacant_new {mem : Addr → Timeout} (hmem : Unused mem) (event : Addr → TimerEvent) :
    Vacant (inaTimerNew mem event) :=
  ⟨TimerOk.fresh hmem event, fun _ => agenda_slot_dead fun hl => hl.1 (hmem _).1⟩

/-- Whatever the flags and the clock show, the calls on one flags object return success when they
    find their flags set before their time is over, and a timeout otherwise. -/
theorem flags_waits_settled {mem : Addr → Timeout} (hmem : Unused mem)
    (event : Addr → TimerEvent) {cs : List WaitCall} (hcs : ∀ c ∈ cs, c.Returns) :
    outs inaIpcFlagsWait (inaTimerNew mem event) cs = cs.map WaitCall.verdict := by
  have hmap : cs.map WaitCall.verdict =
      outs (fun (u : Unit) (c : WaitCall) => (c.verdict, u)) () cs := by
    clear hcs
    induction cs with
    | nil => rfl
    | cons c cs ih => rw [List.map_cons, ih]; rfl
  rw [hmap]
  refine outs_eq_of_sim (R := fun timer _ => Vacant timer) (A := WaitCall.Returns) ?_ hcs
    (vacant_new hmem event)
  intro timer _ c hc h
  exact h.wait hc

/-- A wait that times out, one whose flags are set in time, and one without a timeout. -/
def threeWaits : List WaitCall :=
  [⟨1, 100, 1000, some 1, some 1, [⟨2, 1050⟩, ⟨2, 1100⟩]⟩,
    ⟨3, 100, 1200, some 1, some 1, [⟨2, 1250⟩, ⟨7, 1400⟩]⟩, ⟨1, 0, 1500, some 1, some 1, []⟩]

theorem flags_waits_settled_three :
    outs inaIpcFlagsWait (inaTimerNew zeroed fun _ => ⟨0, 0⟩) threeWaits =
      threeWaits.map WaitCall.verdict :=
  flags_waits_settled zeroed_unused (fun _ => ⟨0, 0⟩) (by decide)

end Ipc
end Inac
