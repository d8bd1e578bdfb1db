import Inac.Process.Fsm

/-!
# The scheduler of `src/cron.c`

A context holds events, each with a timetable, and the start `t1` of the window that has not been
looked at yet. `ina_cron_process` is called with the current time: `__ina_test_jobs` goes through
the minutes after `t1` and up to that time and marks the events whose timetable matches, then the
processes of the marked events are started and the window moves on.

Times are seconds, as integers; `%` is C's, which truncates. What the code asks of the outside is
in `Env`: the local time of a time, and the answers of the push callbacks and of the process state
queries, in the order in which they are asked for, with `Asked` counting them. The table of events
is the list of its events in iteration order.

Beside what the code returns, the model reports what it did, and nothing reads it: the minutes at
which the events were tested, with the events that matched, and the processes that were started.
-/

namespace Inac
namespace Cron

/-! ## Timetables

An array of the source has a byte for each value, and only whether it is zero is ever looked at. -/

/-- `struct tm`, the fields that are read. -/
structure Tm where
  min : Nat
  hour : Nat
  mday : Nat
  mon : Nat
  wday : Nat
  deriving DecidableEq, Repr

/-- `ina_cron_timetable_t`: which entries of each array are not zero. -/
structure Timetable where
  mins : Nat → Bool
  hours : Nat → Bool
  days : Nat → Bool
  mons : Nat → Bool
  dow : Nat → Bool

/-- The test of a local time, as `__ina_test_jobs` and `ina_cron_last_exec_systime` have it. -/
def Timetable.hits (tt : Timetable) (tp : Tm) : Bool :=
  tt.mins tp.min && tt.hours tp.hour && (tt.days tp.mday || tt.dow tp.wday) && tt.mons tp.mon

/-! ## Events

What the flags of an event have to do with one another is left to `markEvent`: an event may be
pushed, pulled and started at once. -/

def cronCfExec : BitVec 32 := 1  -- `INA_CRON_CF_EXEC`
def cronCfPush : BitVec 32 := 2  -- `INA_CRON_CF_PUSH`
def cronCfPull : BitVec 32 := 4  -- `INA_CRON_CF_PULL`

/-- `struct ina_cron_event_s`; `pushCb` is whether there is a callback. -/
structure Event where
  cf : BitVec 32
  key : BitVec 32
  pushCb : Bool
  ready : Bool
  canPull : Bool
  tt : Timetable

/-- What the outside answers. The `n`-th push callback succeeds or fails, and the `n`-th state
    query gives a state or fails. -/
structure Env where
  localtime : Int → Tm
  push : Nat → Bool
  query : Nat → Option Process.State

/-- How many answers have been asked for. -/
structure Asked where
  pushes : Nat
  queries : Nat
  deriving DecidableEq, Repr

variable (env : Env)

/-- `ina_process_query_state`. -/
def queryState (w : Asked) : Option Process.State × Asked :=
  (env.query w.queries, { w with queries := w.queries + 1 })

/-- `ina_cron_event_is_running` succeeds. -/
def eventIsRunning (w : Asked) (e : Event) : Bool × Asked :=
  if e.cf &&& cronCfExec ≠ 0 then
    let q := queryState env w
    (q.1 = some .running, q.2)
  else (false, w)

/-- The push callback is called and fails. -/
def pushFails (w : Asked) (e : Event) : Bool × Asked :=
  if e.cf &&& cronCfPush ≠ 0 ∧ e.pushCb then
    (!env.push w.pushes, { w with pushes := w.pushes + 1 })
  else (false, w)

/-- `e->can_pull = 1` where the event can be pulled. -/
def markPull (e : Event) : Event :=
  if e.cf &&& cronCfPull ≠ 0 ∧ e.key ≠ 0 then { e with canPull := true } else e

/-- The body of the loop over the events, for an event whose timetable matches: the event, and
    whether it counts as a job. -/
def markEvent (w : Asked) (e : Event) : Event × Bool × Asked :=
  let failed := pushFails env w e
  if failed.1 then (e, false, failed.2)
  else
    let running := eventIsRunning env failed.2 e
    if e.cf ||| cronCfExec ≠ 0 ∧ running.1 = false then
      (markPull { e with ready := true }, true, running.2)
    else (markPull e, false, running.2)

/-! ## `__ina_test_jobs`

The events are tested in every minute of the window, one after the other. They change in between,
and so does what has been asked of the outside. -/

/-- The events were tested at `t`, and these matched. -/
structure Test where
  t : Int
  matched : List Bool
  deriving DecidableEq, Repr

/-- What `__ina_test_jobs` works on; `njobs` is a `short`. -/
structure Jobs where
  events : List Event
  asked : Asked
  njobs : BitVec 16
  tests : List Test

/-- The loop over the events at one local time: the events, which of them matched, the number of
    jobs and what was asked. -/
def testEvents (tp : Tm) :
    List Event → BitVec 16 → Asked → List Event × List Bool × BitVec 16 × Asked
  | [], njobs, w => ([], [], njobs, w)
  | e :: es, njobs, w =>
    if e.tt.hits tp then
      let (e, job, w) := markEvent env w e
      let (es, matched, njobs, w) := testEvents tp es (if job then njobs + 1 else njobs) w
      (e :: es, true :: matched, njobs, w)
    else
      let (es, matched, njobs, w) := testEvents tp es njobs w
      (e :: es, false :: matched, njobs, w)

def testMinute (t : Int) (j : Jobs) : Jobs :=
  let (events, matched, njobs, asked) := testEvents env (env.localtime t) j.events j.njobs j.asked
  { events := events, asked := asked, njobs := njobs, tests := j.tests ++ [⟨t, matched⟩] }

/-- The loop over the minutes; `fuel` bounds the number of rounds. -/
def testLoop (t1 t2 : Int) : Nat → Int → Jobs → Jobs
  | 0, _, j => j
  | fuel + 1, t, j =>
    if t ≤ t2 then testLoop t1 t2 fuel (t + 60) (if t > t1 then testMinute env t j else j) else j

/-- `__ina_test_jobs`, from the events as they are and nothing counted yet. -/
def testJobs (t1 t2 : Int) (events : List Event) (asked : Asked) : Jobs :=
  let t := t1 - t1.tmod 60
  testLoop env t1 t2 ((t2 - t) / 60 + 1).toNat t
    { events := events, asked := asked, njobs := 0, tests := [] }

/-! ## `ina_cron_process`

If the clock has gone back or forward by more than an hour, nothing is tested and the window is
moved. -/

/-- The loop that starts the processes of the events that are ready: which were started. The event
    is ready again after it. -/
def startReady : List Event → Asked → List Bool × Asked
  | [], w => ([], w)
  | e :: es, w =>
    if e.cf &&& cronCfExec ≠ 0 ∧ e.ready then
      let (state, w) := queryState env w
      let (started, w) := startReady es w
      ((state.isSome && state ≠ some .running) :: started, w)
    else
      let (started, w) := startReady es w
      (false :: started, w)

/-- The loop that looks for a running process. -/
def anyRunning : List Event → Asked → Bool × Asked
  | [], w => (false, w)
  | e :: es, w =>
    if e.cf &&& cronCfExec ≠ 0 then
      let (state, w) := queryState env w
      if state = some .running then (true, w) else anyRunning es w
    else anyRunning es w

/-- `struct ina_cron_ctx_s`. -/
structure Ctx where
  t1 : Int
  t2 : Int
  stime : Int
  events : List Event
  asked : Asked

/-- What a call returned and did. -/
structure Report where
  suggestedNextTime : Int
  tests : List Test
  started : List Bool
  deriving DecidableEq, Repr

/-- A call: the time it is given, and what `time(NULL)` returns in it. -/
structure Call where
  now : Int
  time : Int
  deriving DecidableEq, Repr

/-- The branch that tests the window `(t1, t2]` and starts what is ready. -/
def runWindow (ctx : Ctx) : Report × Ctx :=
  let j := testJobs env ctx.t1 ctx.t2 ctx.events ctx.asked
  let ctx := { ctx with events := j.events, asked := j.asked, t1 := ctx.t2 }
  if j.njobs ≠ 0 then
    let (started, w) := startReady env ctx.events ctx.asked
    let (running, w) := anyRunning env ctx.events w
    (⟨0, j.tests, started⟩, { ctx with asked := w, stime := if running then 10 else 60 })
  else (⟨0, j.tests, []⟩, ctx)

def inaCronProcess (ctx : Ctx) (c : Call) : Report × Ctx :=
  let ctx := { ctx with t2 := c.now }
  let dt := ctx.t2 - ctx.t1
  let (report, ctx) :=
    if dt < -60 * 60 ∨ dt > 60 * 60 then (⟨0, [], []⟩, { ctx with t1 := ctx.t2 })
    else if dt > 0 then runWindow env ctx
    else (⟨0, [], []⟩, ctx)
  ({ report with suggestedNextTime := (ctx.stime + 1) - c.time.tmod ctx.stime }, ctx)

/-! ## `ina_cron_last_exec_systime`

It goes back a minute at a time, from the one that holds the time it is given. -/

/-- The loop back over the minutes; `fuel` bounds the number of rounds. -/
def lastExecLoop (tt : Timetable) : Nat → Int → Int
  | 0, t => t
  | fuel + 1, t =>
    if t > 0 then if tt.hits (env.localtime t) then t else lastExecLoop tt fuel (t - 60) else t

/-- From a time that is not negative, no more rounds than it has minutes. -/
def inaCronLastExecSystime (tt : Timetable) (now : Int) : Int :=
  lastExecLoop env tt (now / 60).toNat (now - now.tmod 60)

end Cron
end Inac
