import Inac.Err
import Inac.Lib.Run

/-!
# The state machine of a process object (`src/process.c`, `include/libinac/fsm.h`)

A process object is STARTABLE, RUNNING or STOPPED. A call of `ina_process_start`,
`ina_process_stop` or `ina_process_reset` fires an event; the transition table gives for each event
and state the action to run and the next state. Three of the nine entries are the life of a child.
The other six have an action that does nothing, and a next state that is not the current one, so
a call that is not allowed moves the machine to a state that says nothing about the child.

What `fork`, `kill` and `waitpid` answer comes with the call. `kill(pid, 0) != ESRCH` is always
true, as `kill` returns 0 or -1. The model keeps a history of the children launched and the stop
actions run, which no call reads.
-/

namespace Inac
namespace Process

open Lib

/-! ## The machine

Three states, three events, and the table as it stands in the source. -/

inductive State where
  | startable  -- `INA_PROCESS_STARTABLE`
  | running  -- `INA_PROCESS_RUNNING`
  | stopped  -- `INA_PROCESS_STOPPED`
  deriving DecidableEq, Repr

inductive Event where
  | start  -- `INA_PROCESS_START`
  | stop  -- `INA_PROCESS_STOP`
  | reset  -- `INA_PROCESS_RESET`
  deriving DecidableEq, Repr

inductive Action where
  | start  -- `__ina_process_fsm_event_start`
  | stop  -- `__ina_process_fsm_event_stop`
  | reset  -- `__ina_process_fsm_event_reset`
  | error  -- `__ina_process_fsm_event_error`
  deriving DecidableEq, Repr

/-- `INA_FSM_TRANSITIONS(process_fsm, ..)`. -/
def processFsm : Event → State → Action × State
  | .start, .startable => (.start, .running)
  | .start, .running => (.error, .startable)
  | .start, .stopped => (.error, .startable)
  | .stop, .startable => (.error, .running)
  | .stop, .running => (.stop, .stopped)
  | .stop, .stopped => (.error, .running)
  | .reset, .startable => (.error, .stopped)
  | .reset, .running => (.error, .stopped)
  | .reset, .stopped => (.reset, .startable)

/-- `ina_fsm_status_t`: the last event in the high byte, the state in the low byte. -/
structure Status where
  event : Event
  state : State
  deriving DecidableEq, Repr

/-- What has been done to children. -/
inductive Did where
  | launched (pid : Int)
  | stopped
  deriving DecidableEq, Repr

/-- `struct ina_process_s`, and the history. `wait` is the descriptor's `INA_PROCESS_CF_WAIT`. -/
structure Proc where
  wait : Bool
  status : Status
  exitCode : Int
  lastRc : Except Err Unit
  pid : Int
  history : List Did

/-- `ina_process_new`, on zeroed memory. -/
def inaProcessNew (wait : Bool) : Proc :=
  { wait := wait, status := ⟨.start, .startable⟩, exitCode := -1, lastRc := .ok (), pid := 0,
    history := [] }

def Proc.setState (p : Proc) (s : State) : Proc :=
  { p with status := { p.status with state := s } }

/-! ## The actions

What `fork`, `kill` and `waitpid` answer is given with a call. An action sets what it finds out; the
state is set behind it, whatever the action did. -/

/-- What `waitpid` says about a child with `INA_PROCESS_CF_WAIT`: its exit code if it exited. -/
def awaitChild (p : Proc) (exited : Option Int) : Proc :=
  match exited with
  | some code => { p.setState .stopped with exitCode := code }
  | none => p

/-- `__ina_process_start`, on the parent's side of `fork`. -/
def processStart (p : Proc) (fork : Int) (exited : Option Int) : Proc :=
  if fork < 0 then { p with lastRc := .error .processNotCreated }
  else
    let p := { p with pid := fork, history := p.history ++ [.launched fork] }
    if p.wait then awaitChild p exited else p

/-- `__ina_process_stop`; `kill` is whether `kill(pid, SIGTERM)` succeeds. -/
def processStop (p : Proc) (kill : Bool) : Proc :=
  let p := { p with history := p.history ++ [.stopped] }
  if p.pid > 0 then
    if kill then { p with lastRc := .ok () } else { p with lastRc := .error .processNotStopped }
  else p

/-- `__ina_process_reset`. -/
def processReset (p : Proc) : Proc := { p with pid := 0, exitCode := -1, lastRc := .ok () }

/-- A call, with what the system answers. -/
inductive Call where
  | start (fork : Int) (exited : Option Int)
  | stop (kill : Bool)
  | reset
  deriving DecidableEq, Repr

def Call.event : Call → Event
  | .start _ _ => .start
  | .stop _ => .stop
  | .reset => .reset

def runAction (p : Proc) (c : Call) : Action → Proc
  | .error => p
  | .start =>
    match c with
    | .start fork exited => processStart p fork exited
    | _ => p
  | .stop =>
    match c with
    | .stop kill => processStop p kill
    | _ => p
  | .reset => processReset p

/-- `process_fsm_fire_event`: the action, then the event and the next state of the table. -/
def fireEvent (p : Proc) (c : Call) : Proc :=
  let entry := processFsm c.event p.status.state
  { runAction p c entry.1 with status := ⟨c.event, entry.2⟩ }

/-- `ina_process_start`, `ina_process_stop` and `ina_process_reset`. -/
def call (p : Proc) (c : Call) : Except Err Unit × Proc :=
  let p := fireEvent p c
  let p := if c.event = .start ∧ p.wait then p.setState .stopped else p
  (p.lastRc, p)

/-! ## What the state should say

It is compared with the history, which the code does not have. -/

/-- The last child launched has not been stopped since. -/
def childLive (history : List Did) : Bool :=
  match history.getLast? with
  | some (.launched _) => true
  | _ => false

/-- The children not stopped, the latest first; a stop action is for the pid recorded last. -/
def liveChildren (history : List Did) : List Int :=
  history.foldl (fun pids d => match d with
    | .launched pid => pid :: pids
    | .stopped => pids.tail) []

/-- The state is RUNNING exactly while a child launched has not been stopped. -/
def Tells (p : Proc) : Prop := p.status.state = .running ↔ childLive p.history = true

/-- The call is one the table has an action for. -/
def Allowed (p : Proc) (c : Call) : Prop := (processFsm c.event p.status.state).1 ≠ .error

instance (p : Proc) (c : Call) : Decidable (Allowed p c) := inferInstanceAs (Decidable (_ ≠ _))

/-- No second child is launched beside a live one, and a call that is not allowed changes neither
    state nor pid. -/
structure Minds (p : Proc) (c : Call) : Prop where
  single : ∀ pid, (call p c).2.history = p.history ++ [.launched pid] → liveChildren p.history = []
  refuses : ¬ Allowed p c →
    (call p c).2.status.state = p.status.state ∧ (call p c).2.pid = p.pid

/-- `fork` gives a child, and `kill` succeeds. -/
def Call.Succeeds : Call → Prop
  | .start fork _ => 0 < fork
  | .stop kill => kill = true
  | .reset => True

/-! ## One call

Without the WAIT flag a call is the event it fires. While the state tells, there is one child if it
is RUNNING and none otherwise. -/

/-- No entry with the error action stays in its state. -/
theorem processFsm_error {e : Event} {s : State} (h : (processFsm e s).1 = .error) :
    (processFsm e s).2 ≠ s := by
  cases e <;> cases s <;> revert h <;> decide

theorem runAction_wait (p : Proc) (c : Call) (a : Action) : (runAction p c a).wait = p.wait := by
  cases a with
  | error => rfl
  | reset => rfl
  | start =>
    cases c with
    | start fork exited =>
      simp only [runAction, processStart]
      split
      · rfl
      · split
        · cases exited <;> rfl
        · rfl
    | stop kill => rfl
    | reset => rfl
  | stop =>
    cases c with
    | stop kill =>
      simp only [runAction, processStop]
      split
      · split <;> rfl
      · rfl
    | start fork exited => rfl
    | reset => rfl

/-- Without the WAIT flag a call is the event it fires. -/
theorem call_eq {p : Proc} (hwait : p.wait = false) (c : Call) : (call p c).2 = fireEvent p c := by
  have hfire : (fireEvent p c).wait = false := (runAction_wait p c _).trans hwait
  unfold call
  dsimp only
  rw [if_neg (by rw [hfire]; simp)]

theorem childLive_concat (history : List Did) (d : Did) :
    childLive (history ++ [d]) = match d with
      | .launched _ => true
      | .stopped => false := by
  rw [childLive, List.getLast?_concat]
  cases d <;> rfl

theorem liveChildren_concat (history : List Did) (d : Did) :
    liveChildren (history ++ [d]) = match d with
      | .launched pid => pid :: liveChildren history
      | .stopped => (liveChildren history).tail := by
  rw [liveChildren, List.foldl_append]
  rfl

/-- The machine knows the one child there can be. -/
structure Tracks (p : Proc) : Prop where
  nowait : p.wait = false
  tells : Tells p
  one : liveChildren p.history = if p.status.state = .running then [p.pid] else []

/-- The state a call is for. -/
def Event.home : Event → State
  | .start => .startable
  | .stop => .running
  | .reset => .stopped

theorem allowed_iff {p : Proc} {c : Call} : Allowed p c ↔ p.status.state = c.event.home := by
  unfold Allowed
  cases c.event <;> cases p.status.state <;> decide

theorem fireEvent_start {p : Proc} {fork : Int} (exited : Option Int) (hp : p.wait = false)
    (hstate : p.status.state = .startable) (hfork : 0 < fork) :
    fireEvent p (.start fork exited) = { p with
      pid := fork, history := p.history ++ [.launched fork], status := ⟨.start, .running⟩ } := by
  simp [fireEvent, Call.event, hstate, processFsm, runAction, processStart, hp,
    Int.not_lt.mpr (Int.le_of_lt hfork)]

theorem processStop_history (p : Proc) (kill : Bool) :
    (processStop p kill).history = p.history ++ [.stopped] := by
  unfold processStop
  dsimp only
  split
  · split <;> rfl
  · rfl

theorem fireEvent_stop {p : Proc} (kill : Bool) (hstate : p.status.state = .running) :
    (fireEvent p (.stop kill)).history = p.history ++ [.stopped] ∧
      (fireEvent p (.stop kill)).status.state = .stopped := by
  have hentry : processFsm .stop p.status.state = (.stop, .stopped) := by rw [hstate]; rfl
  simp only [fireEvent, Call.event, hentry, runAction]
  exact ⟨processStop_history p kill, trivial⟩

theorem fireEvent_reset {p : Proc} (hstate : p.status.state = .stopped) :
    (fireEvent p .reset).history = p.history ∧
      (fireEvent p .reset).status.state = .startable := by
  have hentry : processFsm .reset p.status.state = (.reset, .startable) := by rw [hstate]; rfl
  simp only [fireEvent, Call.event, hentry, runAction, processReset, and_self]

/-- A call that is allowed keeps track of the child. -/
theorem Tracks.call {p : Proc} {c : Call} (hc : c.Succeeds) (hp : Tracks p)
    (hok : Allowed p c) : Tracks (call p c).2 ∧ Minds p c := by
  obtain ⟨hwait, htells, hone⟩ := hp
  have hstate := allowed_iff.mp hok
  have hwait' : (fireEvent p c).wait = false := (runAction_wait p c _).trans hwait
  -- Each call finds the state it is for, and one branch of the table is left.
  cases c with
  | start fork exited =>
    have hfire := fireEvent_start exited hwait hstate hc
    rw [hstate, Call.event, Event.home, if_neg (by decide)] at hone
    refine ⟨?_, ⟨fun _ _ => hone, fun hno => absurd hok hno⟩⟩
    rw [call_eq hwait, hfire]
    refine ⟨hwait, ?_, ?_⟩
    · simp [Tells, childLive_concat]
    · simp [liveChildren_concat, hone]
  | stop kill =>
    obtain ⟨hhist, hto⟩ := fireEvent_stop kill hstate
    rw [hstate, Call.event, Event.home, if_pos rfl] at hone
    refine ⟨?_, ⟨?_, fun hno => absurd hok hno⟩⟩
    · rw [call_eq hwait]
      refine ⟨hwait', ?_, ?_⟩
      · rw [Tells, hto, hhist, childLive_concat]
        decide
      · rw [hhist, liveChildren_concat, hone, hto]
        rfl
    · intro pid hlaunch
      rw [call_eq hwait, hhist] at hlaunch
      exact absurd (List.append_cancel_left hlaunch) (by simp)
  | reset =>
    obtain ⟨hhist, hto⟩ := fireEvent_reset hstate
    refine ⟨?_, ⟨?_, fun hno => absurd hok hno⟩⟩
    · rw [call_eq hwait]
      refine ⟨hwait', ?_, ?_⟩
      · rw [Tells, hstate] at htells
        rw [Tells, hto, hhist, ← htells]
        decide
      · rw [hhist, hone, hstate, hto]
        rfl
    · intro pid hlaunch
      rw [call_eq hwait, hhist] at hlaunch
      simp at hlaunch

/-! ## Runs

A call that is not allowed changes the state, so that a run goes on rightly only as long as all
calls are allowed. -/

theorem new_tracks : Tracks (inaProcessNew false) := by
  refine ⟨rfl, ?_, rfl⟩
  unfold Tells
  decide

/-- A call that is not allowed changes the state, so it never minds. -/
theorem Minds.allowed {p : Proc} {c : Call} (hwait : p.wait = false) (h : Minds p c) :
    Allowed p c := by
  by_contra hno
  have hsame := (h.refuses hno).1
  rw [call_eq hwait] at hsame
  refine processFsm_error ?_ hsame
  exact Classical.not_not.mp hno

theorem Tracks.run_iff {p : Proc} (hp : Tracks p) {calls : List Call}
    (hc : ∀ c ∈ calls, c.Succeeds) :
    (Always Process.call Tells p calls ∧ Along Process.call Minds p calls) ↔
      Along Process.call Allowed p calls := by
  -- On the calls, with the object each of them finds.
  induction calls generalizing p with
  | nil => exact ⟨fun _ => trivial, fun _ => ⟨always_nil.mpr hp.tells, trivial⟩⟩
  | cons c calls ih =>
    have hrest := fun d hd => hc d (List.mem_cons_of_mem c hd)
    have hfirst := hc c List.mem_cons_self
    rw [always_cons, Along, Along]
    constructor
    · rintro ⟨⟨-, htells⟩, hminds, halong⟩
      have hok := hminds.allowed hp.nowait
      exact ⟨hok, (ih (hp.call hfirst hok).1 hrest).mp ⟨htells, halong⟩⟩
    · rintro ⟨hok, halong⟩
      obtain ⟨hnext, hminds⟩ := hp.call hfirst hok
      obtain ⟨htells, hmind⟩ := (ih hnext hrest).mpr halong
      exact ⟨⟨hp.tells, htells⟩, hminds, hmind⟩

/-- **The state tells exactly in runs of allowed calls.** For a new process object without the WAIT
    flag and calls whose `fork` and `kill` succeed: in every state of the run RUNNING means that
    the last child launched has not been stopped, no call launches a child beside a live one, and no
    call that is not allowed changes state or pid, if and only if every call is allowed in the
    state it finds. -/
theorem process_run_iff (calls : List Call) (hc : ∀ c ∈ calls, c.Succeeds) :
    (Always call Tells (inaProcessNew false) calls ∧
      Along call Minds (inaProcessNew false) calls) ↔
      Along call Allowed (inaProcessNew false) calls :=
  new_tracks.run_iff hc

/-- Start, stop, reset and start again. -/
theorem process_run_cycle :
    let calls : List Call := [.start 41 none, .stop true, .reset, .start 42 none]
    (∀ c ∈ calls, c.Succeeds) ∧ Along call Allowed (inaProcessNew false) calls ∧
      Always call Tells (inaProcessNew false) calls := by
  have hc : ∀ c ∈ [Call.start 41 none, .stop true, .reset, .start 42 none], c.Succeeds := by
    simp [Call.Succeeds]
  have hok : Along call Allowed (inaProcessNew false)
      [.start 41 none, .stop true, .reset, .start 42 none] :=
    ⟨by decide, by decide, by decide, by decide, trivial⟩
  exact ⟨hc, hok, ((process_run_iff _ hc).mpr hok).1⟩

/-- Three starts in a row: the second takes the machine back to STARTABLE, and the third launches a
    child beside the first one. -/
theorem process_second_child :
    let calls : List Call := [.start 41 none, .start 42 none, .start 43 none]
    let p := exec call (inaProcessNew false) calls
    (∀ c ∈ calls, c.Succeeds) ∧ liveChildren p.history = [43, 41] ∧
      ¬ (Always call Tells (inaProcessNew false) calls ∧
        Along call Minds (inaProcessNew false) calls) := by
  refine ⟨by simp [Call.Succeeds], by decide, ?_⟩
  rintro ⟨htells, -⟩
  -- after the second start the child is live and the state is STARTABLE
  have h := htells [.start 41 none, .start 42 none] ⟨[.start 43 none], rfl⟩
  exact absurd (h.mpr (by decide)) (by decide)

end Process
end Inac
