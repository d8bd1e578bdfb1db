import Mathlib.Logic.Function.Basic
import Inac.Err

/-!
# Flags and counters between processes (`src/ipc.c`)

A flags object is a word of 64 flags in shared memory with a reference count for each, and a lock
word around its updates. A counter object is one shared word. Any number of processes work on
them.

Both are step systems. A process's *program counter* says which access to the shared memory comes
next, and one step is one access: a read, a write or one compare-and-swap; a loop test is a step
of its own. Any order of steps is an interleaving, so a run is a list of who moves. What a process
keeps in local variables is in its program counter, under the source's names.

Most updates are `INA_ATOMIC_SWAP(&x, x, f(x))`: its two arguments read the word each on its own,
in an order C leaves open, and the swap comes after both. A step says which of the two reads is
made first.
-/

namespace Inac
namespace Ipc

/-- `INA_ATOMIC_SWAP(&x, old, new)`: the value found, and the value left. -/
def atomicSwap {α : Type} [DecidableEq α] (x old new : α) : α × α := (x, if x = old then new else x)

/-! ## `INA_ATOMIC_SWAP(&x, x, f(x))`

The two reads and the swap are three steps, between which anything may happen. -/

/-- Where a process is in the update of a word. -/
inductive Rmw where
  | start  -- before both reads
  | old (o : BitVec 64)  -- the value to compare with is read
  | base (b : BitVec 64)  -- the value `f` is applied to is read
  | both (o b : BitVec 64)  -- before the swap
  deriving DecidableEq, Repr

/-- The next access of an update of `x`; `none` is its end. -/
def Rmw.next (f : BitVec 64 → BitVec 64) (x : BitVec 64) (oldFirst : Bool) :
    Rmw → Option Rmw × BitVec 64
  | .start => (some (if oldFirst then .old x else .base x), x)
  | .old o => (some (.both o x), x)
  | .base b => (some (.both x b), x)
  | .both o b => (none, (atomicSwap x o (f b)).2)

/-! ## Flags

The bits are changed in the loops of the source, one by one, between taking the lock and giving it
back. -/

def ipcFlagsMax : Nat := 64  -- `INA_IPC_FLAGS_MAX`

/-- A call of `ina_ipc_flags_set`, `ina_ipc_flags_unset` or `ina_ipc_flags_clear`. -/
inductive FlagsCall where
  | set (value : BitVec 64)
  | unset (value : BitVec 64)
  | clear (value : BitVec 64)
  deriving DecidableEq, Repr

/-- A process in a call. -/
inductive FlagsPc where
  | idle  -- between calls
  | enter (call : FlagsCall) (swaps : Nat)  -- in `__INA_ENTER_LOCK`, after so many swaps
  | setValue (value : BitVec 64) (r : Rmw)  -- `set`, in the swap of `v`
  | setRef (value : BitVec 64) (j : Nat)  -- `set`, at the loop test
  | setStore (value : BitVec 64) (j : Nat) (n : BitVec 32)  -- `set`, `c_ref[j]` is read as `n`
  | unsetRef (value : BitVec 64) (j : Nat)  -- `unset`, at the loop test and `c_ref[j] > 0`
  | unsetLoad (value : BitVec 64) (j : Nat)  -- `unset`, before the read in `--c_ref[j]`
  | unsetStore (value : BitVec 64) (j : Nat) (n : BitVec 32)  -- `unset`, before its store
  | unsetValue (value : BitVec 64) (j : Nat) (r : Rmw)  -- `unset`, in the swap of `v`
  | clearRef (value : BitVec 64) (j : Nat)  -- `clear`, at the loop test
  | clearValue (value : BitVec 64) (j : Nat) (r : Rmw)  -- `clear`, in the swap of `v`
  | clearStore (value : BitVec 64) (j : Nat)  -- `clear`, before `c_ref[j] = 0`
  | exit  -- before the swap of `__INA_EXIT_LOCK`
  deriving DecidableEq, Repr

/-- `(value & (1ULL << j)) >> j`. -/
def flagAt (value : BitVec 64) (j : Nat) : BitVec 64 := (value &&& (1#64 <<< j)) >>> j

/-- `(1ULL) << j | 0ULL`. -/
def flagMask (j : Nat) : BitVec 64 := (1#64 <<< j) ||| 0#64

/-- The first access after the lock is entered. -/
def FlagsCall.body : FlagsCall → FlagsPc
  | .set value => .setValue value .start
  | .unset value => .unsetRef value 0
  | .clear value => .clearRef value 0

section Flags
variable {ι : Type} [DecidableEq ι]

/-- `struct ina_ipc_flags_data_s` and the processes. -/
structure FlagsSys (ι : Type) where
  l : Int
  v : BitVec 64
  cRef : Nat → BitVec 32
  pc : ι → FlagsPc

/-- Fresh flags, or ones that nobody is working on. -/
def FlagsSys.quiet (v : BitVec 64) (cRef : Nat → BitVec 32) : FlagsSys ι :=
  { l := 0, v := v, cRef := cRef, pc := fun _ => .idle }

def FlagsSys.goto (s : FlagsSys ι) (p : ι) (pc : FlagsPc) : FlagsSys ι :=
  { s with pc := Function.update s.pc p pc }

/-- A step: a process calls a function, or makes its next access. -/
inductive FlagsAct (ι : Type) where
  | call (p : ι) (c : FlagsCall)
  | move (p : ι) (oldFirst : Bool)
  deriving DecidableEq, Repr

/-- The next access of process `p`, and what its call returns if this was the last. -/
def stepFlagsProc (s : FlagsSys ι) (p : ι) (oldFirst : Bool) :
    Option (Except Err Unit) × FlagsSys ι :=
  match s.pc p with
  | .idle => (none, s)
  | .enter call swaps =>
    let swap := atomicSwap s.l 0 1
    let s := { s with l := swap.2 }
    -- `while (0 == INA_ATOMIC_SWAP(..))`: the loop ends when the value found is not zero
    if swap.1 = 0 then (none, s.goto p (.enter call (swaps + 1))) else (none, s.goto p call.body)
  | .setValue value r =>
    let (r, v) := r.next (fun b => b ||| value) s.v oldFirst
    let s := { s with v := v }
    match r with
    | some r => (none, s.goto p (.setValue value r))
    | none => (none, s.goto p (.setRef value 0))
  | .setRef value j =>
    if j < ipcFlagsMax then
      if flagAt value j ≠ 0 then (none, s.goto p (.setStore value j (s.cRef j)))
      else (none, s.goto p (.setRef value (j + 1)))
    else (none, s.goto p .exit)
  | .setStore value j n =>
    (none, { s with cRef := Function.update s.cRef j (n + 1) }.goto p (.setRef value (j + 1)))
  | .unsetRef value j =>
    if j < ipcFlagsMax then
      if flagAt value j ≠ 0 ∧ s.cRef j ≠ 0 then (none, s.goto p (.unsetLoad value j))
      else (none, s.goto p (.unsetRef value (j + 1)))
    else (none, s.goto p .exit)
  | .unsetLoad value j => (none, s.goto p (.unsetStore value j (s.cRef j)))
  | .unsetStore value j n =>
    let s := { s with cRef := Function.update s.cRef j (n - 1) }
    if n - 1 = 0 then (none, s.goto p (.unsetValue value j .start))
    else (none, s.goto p (.unsetRef value (j + 1)))
  | .unsetValue value j r =>
    let (r, v) := r.next (fun b => b &&& ~~~ flagMask j) s.v oldFirst
    let s := { s with v := v }
    match r with
    | some r => (none, s.goto p (.unsetValue value j r))
    | none => (none, s.goto p (.unsetRef value (j + 1)))
  | .clearRef value j =>
    if j < ipcFlagsMax then
      if flagAt value j ≠ 0 then (none, s.goto p (.clearValue value j .start))
      else (none, s.goto p (.clearRef value (j + 1)))
    else (none, s.goto p .exit)
  | .clearValue value j r =>
    let (r, v) := r.next (fun b => b &&& ~~~ flagMask j) s.v oldFirst
    let s := { s with v := v }
    match r with
    | some r => (none, s.goto p (.clearValue value j r))
    | none => (none, s.goto p (.clearStore value j))
  | .clearStore value j =>
    (none, { s with cRef := Function.update s.cRef j 0 }.goto p (.clearRef value (j + 1)))
  | .exit => (some (.ok ()), { s with l := (atomicSwap s.l 1 0).2 }.goto p .idle)

def stepFlags (s : FlagsSys ι) : FlagsAct ι → Option (Except Err Unit) × FlagsSys ι
  | .call p c =>
    match s.pc p with
    | .idle => (none, s.goto p (.enter c 0))
    | _ => (none, s)
  | .move p oldFirst => stepFlagsProc s p oldFirst

end Flags

/-! ## Counters

There is no lock. An update is the two reads and the swap, and what is returned is read anew. -/

/-- A call of `ina_ipc_counter_increment` or `ina_ipc_counter_decrement`. -/
inductive CounterCall where
  | increment (value : BitVec 64)
  | decrement (value : BitVec 64)
  deriving DecidableEq, Repr

/-- The new value the call swaps in, from the value it read. -/
def CounterCall.apply : CounterCall → BitVec 64 → BitVec 64
  | .increment value, c => c + value
  | .decrement value, c => c - value

inductive CounterPc where
  | idle  -- between calls
  | update (call : CounterCall) (r : Rmw)  -- in the swap of `c`
  | result (call : CounterCall)  -- before the read of `c` that is returned
  deriving DecidableEq, Repr

section Counter
variable {ι : Type} [DecidableEq ι]

/-- `struct ina_ipc_counter_data_s`, the processes, and the calls made so far, which no step
    reads. -/
structure CounterSys (ι : Type) where
  c : BitVec 64
  pc : ι → CounterPc
  calls : List CounterCall

/-- A counter with a value, and nobody working on it. -/
def CounterSys.quiet (c : BitVec 64) : CounterSys ι :=
  { c := c, pc := fun _ => .idle, calls := [] }

def CounterSys.goto (s : CounterSys ι) (p : ι) (pc : CounterPc) : CounterSys ι :=
  { s with pc := Function.update s.pc p pc }

inductive CounterAct (ι : Type) where
  | call (p : ι) (c : CounterCall)
  | move (p : ι) (oldFirst : Bool)
  deriving DecidableEq, Repr

/-- The next access of process `p`, and what its call returns if this was the last. -/
def stepCounterProc (s : CounterSys ι) (p : ι) (oldFirst : Bool) :
    Option (BitVec 64) × CounterSys ι :=
  match s.pc p with
  | .idle => (none, s)
  | .update call r =>
    let (r, c) := r.next call.apply s.c oldFirst
    let s := { s with c := c }
    match r with
    | some r => (none, s.goto p (.update call r))
    | none => (none, s.goto p (.result call))
  | .result _ => (some s.c, s.goto p .idle)

def stepCounter (s : CounterSys ι) : CounterAct ι → Option (BitVec 64) × CounterSys ι
  | .call p c =>
    match s.pc p with
    | .idle => (none, { s with calls := s.calls ++ [c] }.goto p (.update c .start))
    | _ => (none, s)
  | .move p oldFirst => stepCounterProc s p oldFirst

end Counter

end Ipc
end Inac
