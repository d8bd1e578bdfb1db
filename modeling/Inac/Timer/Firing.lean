import Inac.Timer.Agenda

/-!
# When events fire

What a caller sees of an event is the list of times at which `ina_timer_next_event` handed it out.
With a clock that does not go back, counted from the start of the event in its periods, these times
lie in different periods, none in the first; and whenever the timer answers that there is nothing,
no event is behind. So an event is never early, never handed out twice for one period, and only
the periods are missed in which nobody asked.

Asking until there is nothing hands out each event that is due exactly once (`drained`).

The history of an event is read off the calls and their answers alone (`life`), and so it could be
kept by a caller. The link between it and the timer is `Keeps`: the event is due next at the end of
the period after the last one in which it was handed out. A step of the agenda keeps that, and the
two statements about periods follow from it and from nothing else of the timer.
-/

namespace Inac
namespace Timer

open Lib

variable {timer : InaTimer} {g : Agenda} {e : Addr}

/-! ## A history

A call may create the event, free it or hand it out; all others leave its history alone. -/

/-- What happened to an event since it was made. -/
structure Life where
  start : Nat
  period : Nat
  fired : List Nat  -- the times at which it was handed out
  deriving DecidableEq, Repr

/-- The number of the period that a time lies in. -/
def Life.turn (l : Life) (t : Nat) : Nat := (t - l.start) / l.period

def Life.turns (l : Life) : List Nat := l.fired.map l.turn

def lifeStep (e : Addr) (l : Option Life) : TimerOp × TimerOut → Option Life
  | (.new n p _ _, .created (.ok e')) => if e' = e then some ⟨n.toNat, p.toNat, []⟩ else l
  | (.free e', _) => if e' = e then none else l
  | (.next now, .next (.ok e')) =>
    if e' = e then l.map fun l => { l with fired := l.fired ++ [now.toNat] } else l
  | _ => l

def life (e : Addr) (h : List (TimerOp × TimerOut)) : Option Life := h.foldl (lifeStep e) none

theorem life_append (e : Addr) (h : List (TimerOp × TimerOut)) (x : TimerOp × TimerOut) :
    life e (h ++ [x]) = lifeStep e (life e h) x := by
  rw [life, List.foldl_append]
  rfl

/-! ## A clock that does not go back -/

/-- The time of a call that updates the wheels is not before the one of the last such call. -/
def InaTimer.Onward (timer : InaTimer) : TimerOp → Prop
  | .new n p _ _ =>
    (0#64).slt n = true → (0#64).slt p = true → timer.timeouts.curtime.toNat ≤ n.toNat
  | .next now => timer.timeouts.curtime.toNat ≤ now.toNat
  | _ => True

instance (timer : InaTimer) (op : TimerOp) : Decidable (timer.Onward op) :=
  match op with
  | .new n p _ _ => inferInstanceAs (Decidable ((0#64).slt n = true → (0#64).slt p = true →
      timer.timeouts.curtime.toNat ≤ n.toNat))
  | .next now => inferInstanceAs (Decidable (timer.timeouts.curtime.toNat ≤ now.toNat))
  | .free _ | .howLong => inferInstanceAs (Decidable True)

/-- A step of the agenda in which the clock goes on. -/
def OnwardStep (g : Agenda) (op : TimerOp) (o : TimerOut) (g' : Agenda) : Prop :=
  AgendaStep g op o g' ∧ g.clock ≤ g'.clock

theorem onwardStep (h : TimerOk timer) {op : TimerOp} (hop : timer.Proper op ∧ timer.Onward op) :
    TimerOk (timerStep timer op).2 ∧
      OnwardStep timer.agenda op (timerStep timer op).1 (timerStep timer op).2.agenda := by
  obtain ⟨hok, hstep⟩ := timerStep_refines h hop.1
  refine ⟨hok, hstep, ?_⟩
  generalize (timerStep timer op).2.agenda = g' at hstep ⊢
  generalize (timerStep timer op).1 = o at hstep
  cases hstep with
  | new n p e t hn hp _ => exact hop.2 (slt_iff.mpr hn) (slt_iff.mpr hp)
  | notNew => exact Nat.le_refl _
  | free => exact Nat.le_refl _
  | next => exact hop.2
  | noNext => exact hop.2
  | howLong => exact Nat.le_refl _

/-! ## An event keeps its times

`Keeps` is about one event, `Agrees` about all: an event is live exactly if its history says so. -/

/-- The last period in which an event was handed out, zero if there is none. -/
def Life.last (l : Life) : Nat := l.turns.getLastD 0

/-- A slot of the agenda and the history of its event. -/
structure Keeps (clock : Nat) (s : Slot) (l : Life) : Prop where
  pos : 0 < s.period
  period : s.period = l.period
  start : l.start ≤ clock
  due : s.due = l.start + s.period * (l.last + 1)
  ready : s.ready = decide (s.due ≤ clock)
  apart : (0 :: l.turns).Pairwise (· < ·)

/-- Strictly increasing numbers, and a greater one behind. -/
theorem pairwise_concat {l : List Nat} {a n : Nat} (h : (a :: l).Pairwise (· < ·))
    (hn : l.getLastD a < n) : (a :: (l ++ [n])).Pairwise (· < ·) := by
  induction l generalizing a with
  | nil => exact List.pairwise_pair.mpr hn
  | cons b l ih =>
    obtain ⟨ha, hrest⟩ := List.pairwise_cons.mp h
    have hlast : l.getLastD b < n := by
      rwa [List.getLastD_cons] at hn
    have hnext := ih hrest hlast
    refine List.pairwise_cons.mpr ⟨fun c hc => ?_, hnext⟩
    rw [List.cons_append, List.mem_cons] at hc
    rcases hc with rfl | hc
    · exact ha c List.mem_cons_self
    · exact Nat.lt_trans (ha b List.mem_cons_self) ((List.pairwise_cons.mp hnext).1 c hc)

theorem Keeps.at {clock clock' : Nat} {s : Slot} {l : Life} (h : Keeps clock s l)
    (hle : clock ≤ clock') : Keeps clock' (s.at clock') l := by
  refine ⟨h.pos, h.period, Nat.le_trans h.start hle, h.due, ?_, h.apart⟩
  rw [Slot.at, h.ready, ← Bool.decide_or]
  exact decide_eq_decide.mpr ⟨fun hc => hc.elim (fun hd => Nat.le_trans hd hle) id, Or.inr⟩

/-- The last period is the one of the present when nothing is due. -/
theorem Keeps.caught_up {clock : Nat} {s : Slot} {l : Life} (h : Keeps clock s l)
    (hnot : s.ready = false) (hlast : ∀ t ∈ l.fired, t ≤ clock) : l.last = l.turn clock := by
  have hdue : clock < s.due := by
    have hready := h.ready
    rw [hnot] at hready
    exact Nat.not_le.mp (of_decide_eq_false hready.symm)
  have hhigh : l.turn clock < l.last + 1 := by
    rw [Life.turn, ← h.period, Nat.div_lt_iff_lt_mul h.pos, Nat.mul_comm]
    have hd := h.due
    have hs := h.start
    omega
  have hlow : l.last ≤ l.turn clock := by
    rw [Life.last]
    cases hf : l.turns using List.reverseRecOn with
    | nil => exact Nat.zero_le _
    | append_singleton ts x _ =>
      rw [List.getLastD_concat]
      have hx : x ∈ l.turns := hf ▸ List.mem_append_right _ List.mem_cons_self
      obtain ⟨t, ht, rfl⟩ := List.mem_map.mp hx
      exact Nat.div_le_div_right (Nat.sub_le_sub_right (hlast t ht) _)
  omega

/-- An event that is due is handed out. -/
theorem Keeps.fire {clock : Nat} {s : Slot} {l : Life} (h : Keeps clock s l)
    (hready : s.ready = true) :
    Keeps clock (s.fire clock) { l with fired := l.fired ++ [clock] } := by
  have hdue : s.due ≤ clock := by
    have hr := h.ready
    rw [hready] at hr
    exact of_decide_eq_true hr.symm
  have hturns : Life.turns { l with fired := l.fired ++ [clock] } = l.turns ++ [l.turn clock] := by
    rw [Life.turns, List.map_append]
    rfl
  have hlast : Life.last { l with fired := l.fired ++ [clock] } = l.turn clock := by
    rw [Life.last, hturns, List.getLastD_concat]
  have hpos := h.pos
  -- The periods from the start to the present are those up to the last firing, one, and what has
  -- been missed.
  have hturn : l.turn clock = (clock - s.due) / s.period + (l.last + 1) := by
    have hsplit : clock - l.start = clock - s.due + s.period * (l.last + 1) := by
      have hd := h.due
      omega
    rw [Life.turn, ← h.period, hsplit, Nat.add_mul_div_left _ _ hpos]
  -- So the next time ends the period after the present one.
  have hnext : nextDue clock s.due s.period = l.start + s.period * (l.turn clock + 1) := by
    rw [nextDue, hturn]
    generalize (clock - s.due) / s.period = q
    rw [h.due, Nat.add_assoc, ← Nat.mul_add, Nat.add_comm (l.last + 1), Nat.add_right_comm]
  refine ⟨hpos, h.period, h.start, ?_, ?_, ?_⟩
  · rw [hlast]
    exact hnext
  · have hlater : clock < nextDue clock s.due s.period := by
      rw [hnext]
      have hlt : l.turn clock < l.turn clock + 1 := Nat.lt_succ_self _
      rw [Life.turn, ← h.period] at hlt ⊢
      have hmul := (Nat.div_lt_iff_lt_mul hpos).mp hlt
      rw [Nat.mul_comm] at hmul
      have hs := h.start
      omega
    exact (decide_eq_false (Nat.not_le.mpr hlater)).symm
  · rw [hturns]
    refine pairwise_concat h.apart ?_
    rw [hturn]
    exact Nat.lt_of_lt_of_le (Nat.lt_succ_self l.last) (Nat.le_add_left _ _)

/-- An event that has just been made. -/
theorem keeps_new (n p : Nat) (hp : 0 < p) : Keeps n ⟨p, n + p, false⟩ ⟨n, p, []⟩ where
  pos := hp
  period := rfl
  start := Nat.le_refl n
  due := by
    show n + p = n + p * (0 + 1)
    rw [Nat.zero_add, Nat.mul_one]
  ready := (decide_eq_false (Nat.not_le.mpr (Nat.lt_add_of_pos_right hp))).symm
  apart := List.pairwise_singleton _ _

/-! ## The agenda and the history -/

/-- The live events of the agenda are those of the history, and they keep their times. -/
def Agrees (h : List (TimerOp × TimerOut)) (g : Agenda) : Prop :=
  ∀ e, (g.slot e = none ↔ life e h = none) ∧
    ∀ s l, g.slot e = some s → life e h = some l →
      Keeps g.clock s l ∧ ∀ t ∈ l.fired, t ≤ g.clock

theorem Agrees.at {h : List (TimerOp × TimerOut)} (ha : Agrees h g) {clock : Nat}
    (hle : g.clock ≤ clock) : Agrees h (g.at clock) := by
  intro e
  obtain ⟨hnone, hkeeps⟩ := ha e
  refine ⟨?_, fun s l hs hl => ?_⟩
  · rw [← hnone]
    exact Option.map_eq_none_iff
  · obtain ⟨s', hs', rfl⟩ := Option.map_eq_some_iff.mp hs
    obtain ⟨hk, hfired⟩ := hkeeps s' l hs' hl
    exact ⟨hk.at hle, fun t ht => Nat.le_trans (hfired t ht) hle⟩

/-- One event of the agenda and of the history has changed. -/
theorem Agrees.set {h : List (TimerOp × TimerOut)} {x : TimerOp × TimerOut} (ha : Agrees h g)
    {s : Option Slot} (hother : ∀ e', e' ≠ e → lifeStep e' (life e' h) x = life e' h)
    (hself : match s, lifeStep e (life e h) x with
      | none, none => True
      | some s, some l => Keeps g.clock s l ∧ ∀ t ∈ l.fired, t ≤ g.clock
      | _, _ => False) : Agrees (h ++ [x]) (g.set e s) := by
  intro e'
  rw [life_append]
  show (Function.update g.slot e s e' = none ↔ _) ∧ ∀ s' l, Function.update g.slot e s e' = some s' →
    _ → Keeps g.clock s' l ∧ _
  by_cases he : e' = e
  · subst he
    rw [Function.update_self]
    -- The event itself has come to its new history; the others are as they were.
    cases hs : s with
    | none =>
      cases hl : lifeStep e' (life e' h) x with
      | none => exact ⟨iff_of_true rfl rfl, nofun⟩
      | some l =>
        rw [hs, hl] at hself
        exact hself.elim
    | some s' =>
      cases hl : lifeStep e' (life e' h) x with
      | none =>
        rw [hs, hl] at hself
        exact hself.elim
      | some l =>
        rw [hs, hl] at hself
        refine ⟨iff_of_false nofun nofun, fun s'' l' h1 h2 => ?_⟩
        rw [← Option.some.inj h1, ← Option.some.inj h2]
        exact hself
  · rw [Function.update_of_ne he, hother e' he]
    exact ha e'

theorem Agrees.same {h : List (TimerOp × TimerOut)} {x : TimerOp × TimerOut} (ha : Agrees h g)
    (hx : ∀ e, lifeStep e (life e h) x = life e h) : Agrees (h ++ [x]) g := by
  intro e
  rw [life_append, hx]
  exact ha e

theorem Agrees.step {h : List (TimerOp × TimerOut)} {op : TimerOp} {o : TimerOut} {g' : Agenda}
    (hstep : OnwardStep g op o g') (ha : Agrees h g) : Agrees (h ++ [(op, o)]) g' := by
  obtain ⟨hstep, hle⟩ := hstep
  cases hstep with
  | new n p e t hn hp _ =>
    refine (ha.at hle).set (fun e' he => if_neg (Ne.symm he)) ?_
    simp only [lifeStep, if_pos]
    exact ⟨keeps_new n.toNat p.toNat hp.1, fun t ht => absurd ht List.not_mem_nil⟩
  | notNew _ => exact ha.same fun _ => rfl
  | free e =>
    refine ha.set (fun e' he => if_neg (Ne.symm he)) ?_
    simp only [lifeStep, if_pos]
  | next now e s hs hready =>
    have hat : Agrees h (g.at now.toNat) := ha.at hle
    refine hat.set (fun e' he => if_neg (Ne.symm he)) ?_
    cases hl : life e h with
    | none =>
      have hnone := (hat e).1.mpr hl
      rw [hs] at hnone
      exact absurd hnone nofun
    | some l =>
      obtain ⟨hk, hfired⟩ := (hat e).2 s l hs hl
      simp only [lifeStep, if_pos, Option.map_some]
      refine ⟨hk.fire hready, fun t ht => ?_⟩
      rcases List.mem_append.mp ht with ht | ht
      · exact hfired t ht
      · rw [List.mem_singleton.mp ht]
        exact Nat.le_refl _
  | noNext now hnone => exact (ha.at hle).same fun _ => rfl
  | howLong d => exact ha.same fun _ => rfl

theorem agrees_new (mem : Addr → Timeout) (hmem : Unused mem) (event : Addr → TimerEvent) :
    Agrees [] (inaTimerNew mem event).agenda := by
  intro e
  have hdead : ¬ (inaTimerNew mem event).Live e := fun hl => hl.1 (hmem _).1
  rw [agenda_slot_dead hdead]
  exact ⟨iff_of_true rfl rfl, nofun⟩

/-- The calls of a run with their answers. -/
def history (timer : InaTimer) (ops : List TimerOp) : List (TimerOp × TimerOut) :=
  ops.zip (outs timerStep timer ops)

theorem agrees_run {mem : Addr → Timeout} (hmem : Unused mem) (event : Addr → TimerEvent)
    {ops : List TimerOp}
    (hops : Along timerStep (fun s op => s.Proper op ∧ s.Onward op) (inaTimerNew mem event) ops) :
    TimerOk (exec timerStep (inaTimerNew mem event) ops) ∧
      Agrees (history (inaTimerNew mem event) ops)
        (exec timerStep (inaTimerNew mem event) ops).agenda := by
  have hall := always_of_along (fun _ _ hop h => (onwardStep h hop).1) hops
    (TimerOk.fresh hmem event)
  have hfollow := follows_of_refines (fun _ _ hop h => onwardStep h hop) hops
    (TimerOk.fresh hmem event)
  exact ⟨hall ops List.prefix_rfl,
    hfollow.history (h := []) (fun _ _ _ _ _ hrel => Agrees.step hrel) (agrees_new mem hmem event)⟩

/-- Each event is handed out once in a period at most, and not in its first; and when the timer says
    that there is nothing, each live event has been handed out in the period of the present, or is
    in its first. -/
theorem events_fire_once_per_period {mem : Addr → Timeout} (hmem : Unused mem)
    (event : Addr → TimerEvent) {ops : List TimerOp}
    (hops : Along timerStep (fun s op => s.Proper op ∧ s.Onward op) (inaTimerNew mem event) ops)
    {l : Life} (hl : life e (history (inaTimerNew mem event) ops) = some l) :
    (0 :: l.turns).Pairwise (· < ·) ∧
      ∀ now : BitVec 64, now.toNat < 2 ^ 63 →
        (exec timerStep (inaTimerNew mem event) ops).timeouts.curtime.toNat ≤ now.toNat →
        (inaTimerNextEventWithTime (exec timerStep (inaTimerNew mem event) ops) now).1 =
          .error .tryAgain → l.last = l.turn now.toNat := by
  obtain ⟨hok, hagrees⟩ := agrees_run hmem event hops
  generalize exec timerStep (inaTimerNew mem event) ops = timer at hok hagrees ⊢
  generalize history (inaTimerNew mem event) ops = h at hagrees hl
  -- An event with a history that has not ended is on the agenda.
  have hslot : ∃ s, timer.agenda.slot e = some s := by
    cases hs : timer.agenda.slot e with
    | none =>
      rw [(hagrees e).1.mp hs] at hl
      exact absurd hl nofun
    | some s => exact ⟨s, rfl⟩
  obtain ⟨s, hs⟩ := hslot
  obtain ⟨hk, hfired⟩ := (hagrees e).2 s l hs hl
  refine ⟨hk.apart, fun now hnow hle hnone => ?_⟩
  have hstep := (hok.next hnow).2
  rw [hnone] at hstep
  generalize (inaTimerNextEventWithTime timer now).2.agenda = g' at hstep
  cases hstep with
  | noNext _ hidle =>
    have hat : (timer.agenda.at now.toNat).slot e = some (s.at now.toNat) := by
      rw [Agenda.at]
      simp only [hs, Option.map_some]
    exact (hk.at hle).caught_up (hidle e _ hat) fun t ht => Nat.le_trans (hfired t ht) hle

/-- An event of a hundred units that is asked for late, twice at once, and too early. -/
def lateCalls : List TimerOp :=
  [.new 1 100 (some 1) (some 1), .next 350, .next 350, .next 380, .next 401]

theorem events_fire_once_per_period_late :
    (0 :: Life.turns ⟨1, 100, [350, 401]⟩).Pairwise (· < ·) ∧
      ∀ now : BitVec 64, now.toNat < 2 ^ 63 →
        (exec timerStep (inaTimerNew zeroed fun _ => ⟨0, 0⟩) lateCalls).timeouts.curtime.toNat ≤
          now.toNat →
        (inaTimerNextEventWithTime (exec timerStep (inaTimerNew zeroed fun _ => ⟨0, 0⟩) lateCalls)
          now).1 = .error .tryAgain →
        Life.last ⟨1, 100, [350, 401]⟩ = Life.turn ⟨1, 100, [350, 401]⟩ now.toNat :=
  events_fire_once_per_period (e := 1) zeroed_unused (fun _ => ⟨0, 0⟩) (by decide +kernel)
    (by decide +kernel)

/-! ## Asking until there is nothing -/

/-- The event is due at a time, or was before. -/
def Agenda.Due (g : Agenda) (now : Nat) (e : Addr) : Prop :=
  ∃ s, (g.at now).slot e = some s ∧ s.ready = true

theorem at_at (g : Agenda) (now : Nat) : (g.at now).at now = g.at now := by
  refine Agenda.ext rfl (funext fun e => ?_)
  show ((g.slot e).map (·.at now)).map (·.at now) = (g.slot e).map (·.at now)
  rw [Option.map_map]
  congr 1
  funext s
  show (s.at now).at now = s.at now
  rw [Slot.at, Slot.at]
  simp only [Bool.or_assoc, Bool.or_self]

theorem lt_nextDue (now due : Nat) {p : Nat} (hp : 0 < p) : now < nextDue now due p := by
  have hlt : (now - due) / p < (now - due) / p + 1 := Nat.lt_succ_self _
  have hmul := (Nat.div_lt_iff_lt_mul hp).mp hlt
  rw [Nat.mul_comm] at hmul
  rw [nextDue]
  omega

/-- What is due after an event was handed out is what else was due. -/
theorem due_fire {now : Nat} {s : Slot} (hp : 0 < s.period) (e' : Addr) :
    ((g.at now).set e (some (s.fire now))).Due now e' ↔ g.Due now e' ∧ e' ≠ e := by
  have hslot : (((g.at now).set e (some (s.fire now))).at now).slot e' =
      (Function.update (g.at now).slot e (some (s.fire now)) e').map (·.at now) := rfl
  rw [Agenda.Due, Agenda.Due, hslot]
  by_cases he : e' = e
  · rw [he, Function.update_self]
    refine iff_of_false ?_ fun hc => hc.2 rfl
    rintro ⟨s', hs', hready⟩
    have hfalse : ((s.fire now).at now).ready = false := by
      rw [Slot.at, Slot.fire, Bool.false_or]
      exact decide_eq_false (Nat.not_le.mpr (lt_nextDue now s.due hp))
    rw [← Option.some.inj hs', hfalse] at hready
    exact absurd hready Bool.false_ne_true
  · rw [Function.update_of_ne he, and_iff_left he]
    have hsame : ((g.at now).slot e').map (·.at now) = (g.at now).slot e' :=
      congrFun (congrArg Agenda.slot (at_at g now)) e'
    rw [hsame]

theorem TimerOk.period_pos (h : TimerOk timer) {now : Nat} {s : Slot}
    (hs : (timer.agenda.at now).slot e = some s) : 0 < s.period := by
  obtain ⟨s', hs', rfl⟩ := Option.map_eq_some_iff.mp hs
  obtain ⟨hl, rfl⟩ := TimerOk.slot_eq hs'
  exact (h.repeats _ hl.1).pos

/-- A finite list of what is due. -/
theorem TimerOk.exists_due (h : TimerOk timer) {now : BitVec 64} (hnow : now.toNat < 2 ^ 63) :
    ∃ l : List Addr, l.Nodup ∧ ∀ e, e ∈ l ↔ timer.agenda.Due now.toNat e := by
  obtain ⟨hok, hagenda⟩ := h.update hnow
  generalize timeoutsUpdate timer.timeouts now = U at hok hagenda
  have hpend : ∀ t ∈ U.expired, (U.mem t).pending ≠ none :=
    fun t ht => pending_of_ready (hok.wheels.ready_iff.mpr ht)
  refine ⟨U.expired.map fun t => (U.mem t).data, ?_, fun e => ?_⟩
  · refine List.Nodup.map_on (fun t ht t' ht' heq => ?_) hok.wheels.linked.expired_nodup
    rw [← (hok.repeats t (hpend t ht)).event, ← (hok.repeats t' (hpend t' ht')).event]
    exact congrArg (fun d => (timer.event d).t) heq
  · rw [List.mem_map, Agenda.Due, ← hagenda]
    constructor
    · rintro ⟨t, ht, rfl⟩
      obtain ⟨hl, hhome⟩ := hok.live (hpend t ht)
      refine ⟨_, agenda_slot_live hl, ?_⟩
      rw [hhome]
      exact hok.wheels.ready_iff.mpr ht
    · rintro ⟨s, hs, hready⟩
      obtain ⟨hl, rfl⟩ := TimerOk.slot_eq hs
      exact ⟨_, hok.wheels.ready_iff.mp hready, hl.2⟩

theorem TimerOk.drain (h : TimerOk timer) {now : BitVec 64} (hnow : now.toNat < 2 ^ 63) (n : Nat)
    {d : List Addr} (hn : d.length = n) (hd : d.Nodup)
    (hdue : ∀ e, e ∈ d ↔ timer.agenda.Due now.toNat e) :
    ∃ l : List Addr, l.Nodup ∧ l.length = n ∧ (∀ e, e ∈ l ↔ timer.agenda.Due now.toNat e) ∧
      outs timerStep timer (List.replicate (n + 1) (.next now)) =
        l.map (fun e => .next (.ok e)) ++ [.next (.error .tryAgain)] := by
  induction n generalizing timer d with
  | zero =>
    -- Nothing is due, so nothing can be handed out.
    have hnil := List.length_eq_zero_iff.mp hn
    obtain ⟨hok, hstep⟩ := h.next hnow
    refine ⟨[], List.nodup_nil, rfl, fun e => ?_, ?_⟩
    · rw [← hdue, hnil]
    · show [TimerOut.next (inaTimerNextEventWithTime timer now).1] = _
      generalize (inaTimerNextEventWithTime timer now).2.agenda = g' at hstep
      generalize (inaTimerNextEventWithTime timer now).1 = r at hstep ⊢
      cases hstep with
      | next _ e s hs hready =>
        have hin := (hdue e).mpr ⟨s, hs, hready⟩
        rw [hnil] at hin
        exact absurd hin List.not_mem_nil
      | noNext => rfl
  | succ n ih =>
    obtain ⟨hok, hstep⟩ := h.next hnow
    rw [List.replicate_succ]
    show ∃ l, _ ∧ _ ∧ _ ∧ TimerOut.next (inaTimerNextEventWithTime timer now).1 ::
      outs timerStep (inaTimerNextEventWithTime timer now).2 (List.replicate (n + 1) (.next now)) = _
    generalize (inaTimerNextEventWithTime timer now).1 = r at hstep ⊢
    obtain ⟨g', hg'⟩ : ∃ g', g' = (inaTimerNextEventWithTime timer now).2.agenda := ⟨_, rfl⟩
    rw [← hg'] at hstep
    cases hstep with
    | noNext _ hnone =>
      obtain ⟨e, he⟩ := List.exists_mem_of_length_pos (l := d) (by omega)
      obtain ⟨s, hs, hready⟩ := (hdue e).mp he
      rw [hnone e s hs] at hready
      exact absurd hready Bool.false_ne_true
    | next _ e s hs hready =>
      have hin := (hdue e).mpr ⟨s, hs, hready⟩
      -- The event that is handed out is due no more, and the others are due as before.
      have hrest : ∀ e', e' ∈ d.erase e ↔
          (inaTimerNextEventWithTime timer now).2.agenda.Due now.toNat e' := by
        intro e'
        rw [← hg', due_fire (h.period_pos hs), hd.mem_erase_iff, hdue]
        exact and_comm
      obtain ⟨l, hl, hlen, hmem, houts⟩ := ih hok
        (by rw [List.length_erase_of_mem hin, hn, Nat.add_sub_cancel]) (hd.erase e) hrest
      have hsplit : ∀ e', e' ∈ l ↔ timer.agenda.Due now.toNat e' ∧ e' ≠ e := by
        intro e'
        rw [hmem e', ← hg', due_fire (h.period_pos hs)]
      refine ⟨e :: l, List.nodup_cons.mpr ⟨fun hc => ((hsplit e).mp hc).2 rfl, hl⟩,
        by rw [List.length_cons, hlen], fun e' => ?_, ?_⟩
      · rw [List.mem_cons, hsplit e']
        constructor
        · rintro (rfl | ⟨hd', -⟩)
          · exact ⟨s, hs, hready⟩
          · exact hd'
        · intro hd'
          by_cases he : e' = e
          · exact Or.inl he
          · exact Or.inr ⟨hd', he⟩
      · rw [houts]
        rfl

/-- Asking at one time until there is nothing hands out each event that is due exactly once. -/
theorem drained {mem : Addr → Timeout} (hmem : Unused mem) (event : Addr → TimerEvent)
    {ops : List TimerOp} (hops : Along timerStep InaTimer.Proper (inaTimerNew mem event) ops)
    {now : BitVec 64} (hnow : now.toNat < 2 ^ 63) :
    ∃ l : List Addr, l.Nodup ∧
      (∀ e, e ∈ l ↔ (exec timerStep (inaTimerNew mem event) ops).agenda.Due now.toNat e) ∧
      outs timerStep (exec timerStep (inaTimerNew mem event) ops)
          (List.replicate (l.length + 1) (.next now)) =
        l.map (fun e => .next (.ok e)) ++ [.next (.error .tryAgain)] := by
  have hok : TimerOk (exec timerStep (inaTimerNew mem event) ops) :=
    always_of_along (fun _ _ hop h => (timerStep_refines h hop).1) hops (TimerOk.fresh hmem event)
      ops List.prefix_rfl
  obtain ⟨d, hd, hdue⟩ := hok.exists_due hnow
  obtain ⟨l, hl, hlen, hmem, houts⟩ := hok.drain hnow d.length rfl hd hdue
  exact ⟨l, hl, hmem, hlen ▸ houts⟩

theorem drained_two_events : ∃ l : List Addr, l.Nodup ∧
    (∀ e, e ∈ l ↔ (exec timerStep (inaTimerNew zeroed fun _ => ⟨0, 0⟩)
      [.new 1 900 (some 1) (some 1), .new 2 100 (some 2) (some 2)]).agenda.Due (1000#64).toNat e) ∧
    outs timerStep (exec timerStep (inaTimerNew zeroed fun _ => ⟨0, 0⟩)
        [.new 1 900 (some 1) (some 1), .new 2 100 (some 2) (some 2)])
        (List.replicate (l.length + 1) (.next 1000#64)) =
      l.map (fun e => .next (.ok e)) ++ [.next (.error .tryAgain)] :=
  drained zeroed_unused (fun _ => ⟨0, 0⟩) (by decide +kernel) (by decide)

end Timer
end Inac
