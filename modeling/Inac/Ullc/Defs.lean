import Mathlib.Algebra.Ring.Int.Defs
import Mathlib.Logic.Function.Basic
import Inac.Err

/-!
# The ring buffer of `src/ullc.c`

One producer and any number of consumers share a ring of `slots` items. Two counters say how far
the producer is: `next_ptr`, the position it writes next, and `cursor`, the last position
committed. Each consumer has a record with the position it reads next. Positions only grow; a
position's item lives in slot `position % slots`.

The model is a step system. A thread's *program counter* says which shared access comes next, and
one step is one access: a read or a write of a shared word, or one atomic operation on it. Any
order of steps is an interleaving, so a run is a list of who moves. What a thread keeps in local
variables is in its program counter, under the source's names.

The producer here is any sequence of producers whose claim and commit do not overlap. Counters
stay below `2 ^ 63`, so they are integers; `%` is C's, which truncates.

Beside the shared memory the state records what happened, and no step reads it: `committed`, the
items committed so far, and for each consumer its initial cursor and the slots its calls of `get`
returned.
-/

namespace Inac
namespace Ullc

variable {δ : Type}

def int64Max : Int := 2 ^ 63 - 1  -- `INT64_MAX`

/-- `struct ina_ullc_rb_s`, the counters and what never changes. -/
structure Ring where
  numConsumers : Nat
  slots : Int
  cursor : Int
  nextPtr : Int
  overrunEnabled : Int

/-- `__ina_ullc_ring_create` on a new ring. -/
def ringCreate (slots : Int) (numConsumers : Nat) : Ring :=
  { numConsumers := numConsumers, slots := slots, cursor := -1, nextPtr := 0, overrunEnabled := -1 }

/-- `INA_ATOMIC_SWAP(&x, old, new)`: the value found, and the value left. -/
def atomicSwap (x old new : Int) : Int × Int := (x, if x = old then new else x)

def inaUllcOverrunEnable (r : Ring) : Except Err Unit × Ring :=
  let swap := atomicSwap r.overrunEnabled int64Max (-1)
  (if swap.1 = int64Max then .ok () else .error .operationFailed,
    { r with overrunEnabled := swap.2 })

def inaUllcOverrunDisable (r : Ring) : Except Err Unit × Ring :=
  let swap := atomicSwap r.overrunEnabled (-1) int64Max
  (if swap.1 = -1 then .ok () else .error .operationFailed,
    { r with overrunEnabled := swap.2 })

/-- `struct ina_ullc_cursor_s`, a consumer's record. -/
structure Cursor where
  alive : Bool
  cursor : Int
  deriving DecidableEq, Repr

/-! ## Program counters

Between two accesses a thread may be held up for any time. So what it has read is in its program
counter, and may be out of date when the next step is taken. -/

/-- The producer in `ina_ullc_producer_claim` and `ina_ullc_producer_commit`. -/
inductive ProdPc where
  | idle  -- between calls
  | position (slow : Int)  -- `slow_consumer` is read, `next_ptr` comes next
  | loop (slow like : Int)  -- at the `while` test
  | alive (i : Nat) (slow like : Int)  -- in the `for` loop, before `c_offset[i].alive`
  | cursor (i : Nat) (slow like : Int)  -- in the `for` loop, before `c_offset[i].cursor`
  | claimed (like : Int)  -- `claim` has returned the slot, `commit` is not called
  | commit (like : Int)  -- in `commit`, between the two increments
  deriving DecidableEq, Repr

/-- A consumer in `ina_ullc_consumer_new` and `ina_ullc_consumer_get`; `id` is its record. -/
inductive ConsPc where
  | scan (id : Nat)  -- before the swap of `cons[id].alive`
  | exceeded  -- `consumer_new` found no free record
  | load (id : Nat)  -- before the read of `ring->cursor`
  | swap (id : Nat) (v : Int)  -- before the swap of its own `cursor`
  | check (id : Nat)  -- before the test `cursor < 0`
  | zero (id : Nat)  -- before `cursor = 0`
  | ready (id : Nat)  -- between calls
  | wait (id : Nat) (waitFor : Int)  -- in `get`, `wait_for` is read, `ring->cursor` comes next
  | index (id : Nat)  -- in `get`, before its own `cursor` is read again for `idx`
  | bump (id : Nat) (idx : Int)  -- in `get`, before the increment
  deriving DecidableEq, Repr

/-- The record a consumer owns. -/
def ConsPc.owns : ConsPc → Option Nat
  | .scan _ => none
  | .exceeded => none
  | .load id => some id
  | .swap id _ => some id
  | .check id => some id
  | .zero id => some id
  | .ready id => some id
  | .wait id _ => some id
  | .index id => some id
  | .bump id _ => some id

/-- A consumer: its program counter, its cursor when `consumer_new` returned, and the slots its
    calls of `get` returned. -/
structure Consumer where
  pc : ConsPc
  start : Int
  got : List Int

/-- The shared memory, the threads, and the history of commits. -/
structure Sys (δ : Type) where
  ring : Ring
  cons : Nat → Cursor
  data : Int → δ
  prod : ProdPc
  thread : Nat → Consumer
  committed : List δ

/-- A new ring whose `overrun_enabled` is `overrun`, and consumers about to call `consumer_new`.
    Fresh shared memory is zero. -/
def Sys.init (slots : Int) (numConsumers : Nat) (overrun : Int) (data : Int → δ) : Sys δ :=
  { ring := { ringCreate slots numConsumers with overrunEnabled := overrun }
    cons := fun _ => ⟨false, 0⟩
    data := data
    prod := .idle
    thread := fun _ => ⟨.scan 0, 0, []⟩
    committed := [] }

/-! ## Steps

The three functions for the next access of each party have the source's statements as their cases,
in order. -/

/-- Who moves: the producer, the producer writing its claimed slot, or a consumer. -/
inductive Act (δ : Type) where
  | prod
  | fill (v : δ)
  | cons (t : Nat)
  deriving DecidableEq, Repr

/-- What a step returns to the caller: nothing, the slot of a claim, `NULL`, or the slot of an
    item. -/
inductive Out where
  | none
  | claimed (like : Int)
  | null
  | item (idx : Int)
  deriving DecidableEq, Repr

/-- The producer's next access. -/
def stepProd (s : Sys δ) : Out × Sys δ :=
  match s.prod with
  | .idle => (.none, { s with prod := .position s.ring.overrunEnabled })
  | .position slow => (.none, { s with prod := .loop slow (s.ring.nextPtr.tmod s.ring.slots) })
  | .loop slow like =>
    if slow > like then (.none, { s with prod := .alive 0 (-1) like })
    else (.claimed like, { s with prod := .claimed like })
  | .alive i slow like =>
    if i < s.ring.numConsumers then
      if (s.cons i).alive then (.none, { s with prod := .cursor i slow like })
      else (.none, { s with prod := .alive (i + 1) slow like })
    else (.none, { s with prod := .loop slow like })
  | .cursor i slow like =>
    let readCur := (s.cons i).cursor.tmod s.ring.slots
    (.none, { s with prod := .alive (i + 1) (max slow readCur) like })
  | .claimed like =>
    (.none, { s with ring := { s.ring with nextPtr := s.ring.nextPtr + 1 }, prod := .commit like })
  | .commit like =>
    (.none, { s with
      ring := { s.ring with cursor := s.ring.cursor + 1 }
      prod := .idle
      committed := s.committed ++ [s.data like] })

/-- Move a consumer to `pc`. -/
def Sys.goto (s : Sys δ) (t : Nat) (pc : ConsPc) : Sys δ :=
  { s with thread := Function.update s.thread t { s.thread t with pc := pc } }

/-- Store into a consumer's record. -/
def Sys.store (s : Sys δ) (id : Nat) (c : Cursor) : Sys δ :=
  { s with cons := Function.update s.cons id c }

/-- `consumer_new` returns: the consumer's initial cursor is the one its record holds. -/
def Sys.join (s : Sys δ) (t id : Nat) : Sys δ :=
  { s with thread := Function.update s.thread t ⟨.ready id, (s.cons id).cursor, []⟩ }

/-- Consumer `t`'s next access. -/
def stepCons (s : Sys δ) (t : Nat) : Out × Sys δ :=
  match (s.thread t).pc with
  | .scan id =>
    if id < s.ring.numConsumers then
      if (s.cons id).alive then (.none, s.goto t (.scan (id + 1)))
      else (.none, (s.store id { s.cons id with alive := true }).goto t (.load id))
    else (.none, s.goto t .exceeded)
  | .exceeded => (.none, s)
  | .load id => (.none, s.goto t (.swap id s.ring.cursor))
  | .swap id v =>
    (.none, (s.store id { s.cons id with cursor := (atomicSwap (s.cons id).cursor 0 v).2 }).goto t
      (.check id))
  | .check id =>
    if (s.cons id).cursor < 0 then (.none, s.goto t (.zero id)) else (.none, s.join t id)
  | .zero id => (.none, (s.store id { s.cons id with cursor := 0 }).join t id)
  | .ready id => (.none, s.goto t (.wait id (s.cons id).cursor))
  | .wait id waitFor =>
    if s.ring.cursor < waitFor then (.null, s.goto t (.ready id)) else (.none, s.goto t (.index id))
  | .index id => (.none, s.goto t (.bump id ((s.cons id).cursor.tmod s.ring.slots)))
  | .bump id idx =>
    (.item idx,
      { s.store id { s.cons id with cursor := (s.cons id).cursor + 1 } with
        thread := Function.update s.thread t
          { s.thread t with pc := .ready id, got := (s.thread t).got ++ [idx] } })

/-- One step. The producer may write its slot only between `claim` and `commit`. -/
def step (s : Sys δ) : Act δ → Out × Sys δ
  | .prod => stepProd s
  | .fill v =>
    match s.prod with
    | .claimed like => (.none, { s with data := Function.update s.data like v })
    | _ => (.none, s)
  | .cons t => stepCons s t

end Ullc
end Inac
