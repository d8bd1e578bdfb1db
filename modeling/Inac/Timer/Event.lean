import Inac.Err
import Inac.Timer.Run

/-!
# Timer events

`src/src/timer.c`: a timer is the wheels of `Inac.Timer.Defs`, and an event is a repeating timeout
with a number. `ina_timer_event_new` and `ina_timer_next_event` read the clock and pass it on to the
functions with `_with_time`, which is where the model starts, with the time as their argument. Times
are `time_t` and signed, the wheels take them as unsigned.

An event and its timeout are two blocks of memory. What the allocator returns for them is an
argument too.

A `time_t` that is negative would be a time far in the future to the wheels, so the results are
about callers that read none (`InaTimer.Proper`). With times below `2 ^ 63` and periods below `2 ^
63` no sum of the two wraps, and what the wheels compute for a repeating timeout is the agenda's
next time (`nextFiring_toNat`). A caller may still read a clock that goes back.
-/

namespace Inac
namespace Timer

open Lib

/-- `struct ina_timer_event_s`. -/
structure TimerEvent where
  id : BitVec 32
  t : Addr
  deriving DecidableEq, Repr

/-- `struct ina_timer_s`, with the events in memory. -/
structure InaTimer where
  timeouts : Timeouts
  nextEventId : BitVec 32
  event : Addr → TimerEvent

/-- `ina_timer_new`, where memory is to be had. -/
def inaTimerNew (mem : Addr → Timeout) (event : Addr → TimerEvent) : InaTimer :=
  { timeouts := timeoutsInit mem 0, nextEventId := 0, event }

/-- `ina_timer_event_new_with_time`. -/
def inaTimerEventNewWithTime (timer : InaTimer) (nMsec eMsec : BitVec 64)
    (event t : Option Addr) : Except Err Addr × InaTimer :=
  if ¬ (0#64).slt nMsec then (.error .invalidArgument, timer)
  else if ¬ (0#64).slt eMsec then (.error .invalidArgument, timer)
  else
    match event, t with
    | none, _ => (.error .outOfMemory, timer)
    | some _, none => (.error .outOfMemory, timer)
    | some event, some t =>
      let id := timer.nextEventId + 1
      let T := timeoutsUpdate timer.timeouts nMsec
      let T := timeoutInit T t timeoutInt
      let T := T.edit t ({ · with data := event })
      (.ok event,
        { timeouts := timeoutsAdd T t eMsec
          nextEventId := id
          event := Function.update timer.event event { id, t } })

/-- `ina_timer_event_free`. -/
def inaTimerEventFree (timer : InaTimer) (e : Addr) : InaTimer :=
  { timer with timeouts := timeoutsDel timer.timeouts (timer.event e).t }

def inaTimerEventGetId (timer : InaTimer) (e : Addr) : BitVec 32 := (timer.event e).id

/-- `ina_timer_next_event_with_time`. -/
def inaTimerNextEventWithTime (timer : InaTimer) (nowMillis : BitVec 64) :
    Except Err Addr × InaTimer :=
  let T := timeoutsUpdate timer.timeouts nowMillis
  let ne := timeoutsGet T
  match ne.1 with
  | some t => (.ok (ne.2.mem t).data, { timer with timeouts := ne.2 })
  | none => (.error .tryAgain, { timer with timeouts := ne.2 })

def inaTimerTimeToNextEvent (timer : InaTimer) : BitVec 64 := timeoutsTimeout timer.timeouts

/-! ## Calls -/

inductive TimerOp where
  | new (nMsec eMsec : BitVec 64) (event t : Option Addr)
  | free (e : Addr)
  | next (nowMillis : BitVec 64)
  | howLong
  deriving DecidableEq, Repr

inductive TimerOut where
  | created (r : Except Err Addr)
  | freed
  | next (r : Except Err Addr)
  | howLong (d : BitVec 64)

def timerStep (timer : InaTimer) : TimerOp → TimerOut × InaTimer
  | .new nMsec eMsec event t =>
    let r := inaTimerEventNewWithTime timer nMsec eMsec event t
    (.created r.1, r.2)
  | .free e => (.freed, inaTimerEventFree timer e)
  | .next nowMillis =>
    let r := inaTimerNextEventWithTime timer nowMillis
    (.next r.1, r.2)
  | .howLong => (.howLong (inaTimerTimeToNextEvent timer), timer)

/-- The event at an address is there, and not freed. -/
def InaTimer.Live (timer : InaTimer) (e : Addr) : Prop :=
  (timer.timeouts.mem (timer.event e).t).pending ≠ none ∧
    (timer.timeouts.mem (timer.event e).t).data = e

instance (timer : InaTimer) (e : Addr) : Decidable (timer.Live e) :=
  inferInstanceAs (Decidable (_ ∧ _))

/-- The allocator returns blocks that are not in use. -/
def InaTimer.Fresh (timer : InaTimer) : Option Addr → Option Addr → Prop
  | some e, some t => ¬ timer.Live e ∧ (timer.timeouts.mem t).pending = none
  | _, _ => True

instance (timer : InaTimer) (e t : Option Addr) : Decidable (timer.Fresh e t) :=
  match e, t with
  | some e, some t =>
    inferInstanceAs (Decidable (¬ timer.Live e ∧ (timer.timeouts.mem t).pending = none))
  | none, _ => inferInstanceAs (Decidable True)
  | some _, none => inferInstanceAs (Decidable True)

/-- What a caller keeps to: an event is freed once, and the time is not negative. -/
def InaTimer.Proper (timer : InaTimer) : TimerOp → Prop
  | .new _ _ event t => timer.Fresh event t
  | .free e => timer.Live e
  | .next nowMillis => nowMillis.toNat < 2 ^ 63
  | .howLong => True

instance (timer : InaTimer) (op : TimerOp) : Decidable (timer.Proper op) :=
  match op with
  | .new _ _ event t => inferInstanceAs (Decidable (timer.Fresh event t))
  | .free e => inferInstanceAs (Decidable (timer.Live e))
  | .next nowMillis => inferInstanceAs (Decidable (nowMillis.toNat < 2 ^ 63))
  | .howLong => inferInstanceAs (Decidable True)

/-! ## The agenda -/

/-- A live event: its period, when it is due next, and whether that time has been reached. -/
structure Slot where
  period : Nat
  due : Nat
  ready : Bool
  deriving DecidableEq, Repr

/-- What a timer is for: a clock, and the live events. -/
@[ext] structure Agenda where
  clock : Nat
  slot : Addr → Option Slot

/-- Time goes on, or back. -/
def Slot.at (s : Slot) (clock : Nat) : Slot := { s with ready := s.ready || decide (s.due ≤ clock) }

def Agenda.at (g : Agenda) (clock : Nat) : Agenda :=
  { clock, slot := fun e => (g.slot e).map (·.at clock) }

/-- The first time a whole number of periods after `due` that is still to come; one period after `due`
    if the clock has gone back behind it. -/
def nextDue (clock due period : Nat) : Nat := due + period * ((clock - due) / period + 1)

def Slot.fire (s : Slot) (clock : Nat) : Slot :=
  { s with due := nextDue clock s.due s.period, ready := false }

def Agenda.set (g : Agenda) (e : Addr) (s : Option Slot) : Agenda :=
  { g with slot := Function.update g.slot e s }

/-- When the creation of an event is refused: for a time or a period that is not positive, or if one
    of the two blocks is not to be had. -/
inductive Refused (n p : BitVec 64) (e t : Option Addr) : Err → Prop
  | time (hn : ¬ (0 < n.toNat ∧ n.toNat < 2 ^ 63)) : Refused n p e t .invalidArgument
  | period (hp : ¬ (0 < p.toNat ∧ p.toNat < 2 ^ 63)) : Refused n p e t .invalidArgument
  | memory (hn : 0 < n.toNat ∧ n.toNat < 2 ^ 63) (hp : 0 < p.toNat ∧ p.toNat < 2 ^ 63)
      (hnone : e = none ∨ t = none) : Refused n p e t .outOfMemory

/-- How the agenda may answer. Which of several ready events comes first is open. -/
inductive AgendaStep (g : Agenda) : TimerOp → TimerOut → Agenda → Prop
  | new (n p : BitVec 64) (e t : Addr) (hn : 0 < n.toNat ∧ n.toNat < 2 ^ 63)
      (hp : 0 < p.toNat ∧ p.toNat < 2 ^ 63) (hfresh : g.slot e = none) :
      AgendaStep g (.new n p (some e) (some t)) (.created (.ok e))
        ((g.at n.toNat).set e (some ⟨p.toNat, n.toNat + p.toNat, false⟩))
  | notNew {n p : BitVec 64} {e t : Option Addr} {err : Err} (hrefused : Refused n p e t err) :
      AgendaStep g (.new n p e t) (.created (.error err)) g
  | free (e : Addr) : AgendaStep g (.free e) .freed (g.set e none)
  | next (now : BitVec 64) (e : Addr) (s : Slot) (hs : (g.at now.toNat).slot e = some s)
      (hready : s.ready = true) :
      AgendaStep g (.next now) (.next (.ok e))
        ((g.at now.toNat).set e (some (s.fire now.toNat)))
  | noNext (now : BitVec 64)
      (hnone : ∀ e s, (g.at now.toNat).slot e = some s → s.ready = false) :
      AgendaStep g (.next now) (.next (.error .tryAgain)) (g.at now.toNat)
  | howLong (d : BitVec 64)
      (hready : (∃ e s, g.slot e = some s ∧ s.ready = true) → d = 0)
      (hwait : ∀ e s, g.slot e = some s → s.ready = false → d.toNat ≤ s.due - g.clock) :
      AgendaStep g .howLong (.howLong d) g

/-! ## The timer as an agenda -/

def Timeout.slot (t : Timeout) : Slot := ⟨t.interval.toNat, t.expires.toNat, t.ready⟩

def InaTimer.agenda (timer : InaTimer) : Agenda :=
  { clock := timer.timeouts.curtime.toNat
    slot := fun e =>
      if timer.Live e then some (timer.timeouts.mem (timer.event e).t).slot else none }

/-- A timeout of a live event. -/
structure Repeats (timer : InaTimer) (t : Addr) : Prop where
  flags : (timer.timeouts.mem t).flags = timeoutInt
  pos : 0 < (timer.timeouts.mem t).interval.toNat
  small : (timer.timeouts.mem t).interval.toNat < 2 ^ 63
  event : (timer.event (timer.timeouts.mem t).data).t = t

structure TimerOk (timer : InaTimer) : Prop where
  wheels : Ok timer.timeouts
  clock : timer.timeouts.curtime.toNat < 2 ^ 63
  repeats : ∀ t, (timer.timeouts.mem t).pending ≠ none → Repeats timer t
  reached : ∀ t, (timer.timeouts.mem t).ready = true →
    (timer.timeouts.mem t).expires.toNat < 2 ^ 63

variable {timer : InaTimer}

theorem slt_iff {x : BitVec 64} : (0#64).slt x = true ↔ 0 < x.toNat ∧ x.toNat < 2 ^ 63 := by
  rw [BitVec.slt_iff_toInt_lt, BitVec.toInt_eq_toNat_cond, BitVec.toInt_eq_toNat_cond]
  have hlt := x.isLt
  simp only [BitVec.toNat_ofNat]
  split <;> split <;> omega

/-- What the wheels compute as the next firing is the agenda's next time. -/
theorem nextFiring_toNat {curtime expires interval : BitVec 64} (hcur : curtime.toNat < 2 ^ 63)
    (hexp : expires.toNat < 2 ^ 63) (hpos : 0 < interval.toNat)
    (hsmall : interval.toNat < 2 ^ 63) :
    (nextFiring curtime expires interval).toNat =
        nextDue curtime.toNat expires.toNat interval.toNat ∧
      curtime.toNat < (nextFiring curtime expires interval).toNat := by
  have hsum : (expires + interval).toNat = expires.toNat + interval.toNat := by
    rw [BitVec.toNat_add]
    omega
  rw [nextFiring, nextDue]
  split
  · rename_i hle
    rw [BitVec.le_def, hsum] at hle
    have hn : (curtime - (expires + interval)).toNat =
        curtime.toNat - (expires.toNat + interval.toNat) := by
      rw [BitVec.toNat_sub, hsum]
      omega
    -- Periods have been missed: the remainder says how far into the present one the clock is.
    have hr := Nat.mod_lt (curtime.toNat - (expires.toNat + interval.toNat)) hpos
    have hrem : (interval - (curtime - (expires + interval)) % interval).toNat = interval.toNat -
        (curtime.toNat - (expires.toNat + interval.toNat)) % interval.toNat := by
      rw [BitVec.toNat_sub, BitVec.toNat_umod, hn]
      omega
    have hval : (curtime + (interval - (curtime - (expires + interval)) % interval)).toNat =
        curtime.toNat + (interval.toNat -
          (curtime.toNat - (expires.toNat + interval.toNat)) % interval.toNat) := by
      rw [BitVec.toNat_add, hrem]
      omega
    have hdiv : (curtime.toNat - expires.toNat) / interval.toNat =
        (curtime.toNat - (expires.toNat + interval.toNat)) / interval.toNat + 1 := by
      rw [← Nat.sub_sub, ← Nat.add_div_right _ hpos, Nat.sub_add_cancel (by omega)]
    have hmod := Nat.div_add_mod (curtime.toNat - (expires.toNat + interval.toNat)) interval.toNat
    rw [hval, hdiv, Nat.mul_add, Nat.mul_add]
    generalize interval.toNat *
      ((curtime.toNat - (expires.toNat + interval.toNat)) / interval.toNat) = q at hmod ⊢
    generalize (curtime.toNat - (expires.toNat + interval.toNat)) % interval.toNat = r at hmod hr ⊢
    omega
  · rename_i hgt
    rw [BitVec.le_def, hsum] at hgt
    -- None has been missed, and the next one is a period later.
    have hzero : (curtime.toNat - expires.toNat) / interval.toNat = 0 :=
      Nat.div_eq_of_lt (by omega)
    rw [hsum, hzero, Nat.zero_add, Nat.mul_one]
    exact ⟨rfl, by omega⟩

theorem TimerOk.slot_eq {e : Addr} {s : Slot} (hs : timer.agenda.slot e = some s) :
    timer.Live e ∧ s = (timer.timeouts.mem (timer.event e).t).slot := by
  rw [InaTimer.agenda] at hs
  simp only at hs
  split at hs
  · rename_i hlive
    exact ⟨hlive, (Option.some.inj hs).symm⟩
  · exact absurd hs nofun

theorem agenda_slot_live {e : Addr} (h : timer.Live e) :
    timer.agenda.slot e = some (timer.timeouts.mem (timer.event e).t).slot := if_pos h

theorem agenda_slot_dead {e : Addr} (h : ¬ timer.Live e) : timer.agenda.slot e = none := if_neg h

/-- An installed timeout belongs to a live event, and to one only. -/
theorem TimerOk.live (h : TimerOk timer) {t : Addr}
    (ht : (timer.timeouts.mem t).pending ≠ none) :
    timer.Live (timer.timeouts.mem t).data ∧ (timer.event (timer.timeouts.mem t).data).t = t := by
  have hev := (h.repeats t ht).event
  refine ⟨?_, hev⟩
  rw [InaTimer.Live, hev]
  exact ⟨ht, rfl⟩

end Timer
end Inac
