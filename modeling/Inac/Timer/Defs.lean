import Mathlib.Data.BitVec
import Mathlib.Logic.Function.Basic
import Inac.Lib.Run

/-!
# The timing wheels

`src/contribs/timerwheel/timeout.c`, as `src/src/timer.c` uses it: four wheels of sixty-four slots
(`WHEEL_NUM`, `WHEEL_LEN`), each slot a list of timeouts, a word for each wheel that says which of
its slots hold something, a queue of the timeouts that have expired, and the time of the last
update. Times are unsigned and wrap.

A timeout is a structure of the caller's and is known by its address; what the wheels read and
write of it is `Timeout`. Where its `pending` points is a list of the wheels or the queue. The
wheels are one array in memory, and `timeouts_del` finds the wheel and the slot of a list by its
index there, so a list of the wheels is its index.

The lists are tail queues; a tail queue is the list of what it links, in order.

A timeout is due at `expires`. On the lowest wheel a slot stands for one time, on the next one for
sixty-four of them, and so on; what is further ahead than all four wheels reach waits on the highest
one and is looked at once a turn. Nothing on the wheels is sorted: an update moves whole lists, and
each of their timeouts is then scheduled anew, which brings it to a lower wheel or into the queue.

The functions are translated with their loops as recursions on the number of rounds that are left
(`takeWheels`, `intLoop`) or on a fuel that the loop provably does not use up (`takeSlots`). All
words are `BitVec 64`, as an update is right for clocks that wrap.
-/

namespace Inac
namespace Timer

def wheelBit : Nat := 6
def wheelNum : Nat := 4
def wheelLen : Nat := 1 <<< wheelBit
def wheelMax : BitVec 64 := BitVec.ofNat 64 (wheelLen - 1)
def wheelMask : BitVec 64 := BitVec.ofNat 64 (wheelLen - 1)

/-- `TIMEOUT_MAX`. -/
def timeoutMax : BitVec 64 := (1#64 <<< (wheelBit * wheelNum)) - 1#64

/-- `TIMEOUT_mHZ`. -/
def timeoutMHz : BitVec 64 := 1000#64

/-- `TIMEOUT_INT`. -/
def timeoutInt : BitVec 32 := 0x01#32

/-- `TIMEOUT_ABS`. -/
def timeoutAbs : BitVec 32 := 0x02#32

/-! ## Words

`__builtin_ctzll`, the `fls` of `bitops.c` and its rotations. A rotation by more than sixty-three is
taken modulo sixty-four there, and the wheels never ask for one. -/

/-- `ctz`: the zeros below the lowest one. -/
def ctz (n : BitVec 64) : Nat := n.ctz.toNat

/-- `fls`: the place of the highest one, counted from one. -/
def fls (n : BitVec 64) : Nat := 64 - n.clz.toNat

def rotl (v : BitVec 64) (c : Nat) : BitVec 64 :=
  let c := c % 64
  if c = 0 then v else (v <<< c) ||| (v >>> (64 - c))

def rotr (v : BitVec 64) (c : Nat) : BitVec 64 :=
  let c := c % 64
  if c = 0 then v else (v >>> c) ||| (v <<< (64 - c))

/-! ## Data

A place is what `to->pending` may point to, so that `pending = NULL`, `pending == &T->expired` and
`pending == &T->wheel[w][s]` are three values of one type and cannot be mixed up. -/

abbrev Addr := Nat

/-- What the `pending` of a timeout points to. -/
inductive Place where
  | slot (index : Nat)
  | expired
  deriving DecidableEq, Repr

/-- `struct timeout`. `timeouts` says whether the pointer to the wheels is set. -/
structure Timeout where
  flags : BitVec 32
  interval : BitVec 64
  expires : BitVec 64
  timeouts : Bool
  pending : Option Place
  data : Nat
  deriving DecidableEq, Repr

/-- `struct timeouts`, with the timeouts in memory. -/
structure Timeouts where
  wheel : Nat → List Addr
  expired : List Addr
  pending : Nat → BitVec 64
  curtime : BitVec 64
  hertz : BitVec 64
  mem : Addr → Timeout

/-- `timeouts_init`. -/
def timeoutsInit (mem : Addr → Timeout) (hz : BitVec 64) : Timeouts :=
  { wheel := fun _ => []
    expired := []
    pending := fun _ => 0
    curtime := 0
    hertz := if hz ≠ 0 then hz else timeoutMHz
    mem }

namespace Timeouts

/-- A timeout changed in memory. -/
def edit (T : Timeouts) (a : Addr) (f : Timeout → Timeout) : Timeouts :=
  { T with mem := Function.update T.mem a (f (T.mem a)) }

/-- `TAILQ_INSERT_TAIL`. -/
def insertTail (T : Timeouts) (a : Addr) : Place → Timeouts
  | .slot index => { T with wheel := Function.update T.wheel index (T.wheel index ++ [a]) }
  | .expired => { T with expired := T.expired ++ [a] }

/-- `TAILQ_REMOVE`. -/
def remove (T : Timeouts) (a : Addr) : Place → Timeouts
  | .slot index => { T with wheel := Function.update T.wheel index ((T.wheel index).erase a) }
  | .expired => { T with expired := T.expired.erase a }

/-- `TAILQ_INIT`. -/
def empty (T : Timeouts) (index : Nat) : Timeouts :=
  { T with wheel := Function.update T.wheel index [] }

def setBit (T : Timeouts) (wheel slot : Nat) : Timeouts :=
  { T with pending := Function.update T.pending wheel (T.pending wheel ||| (1#64 <<< slot)) }

def clearBit (T : Timeouts) (wheel slot : Nat) : Timeouts :=
  { T with pending := Function.update T.pending wheel (T.pending wheel &&& ~~~(1#64 <<< slot)) }

end Timeouts

/-! ## Adding and removing -/

/-- `timeout_init`. -/
def timeoutInit (T : Timeouts) (a : Addr) (flags : BitVec 32) : Timeouts :=
  T.edit a fun _ =>
    { flags, interval := 0, expires := 0, timeouts := false, pending := none, data := 0 }

/-- `timeouts_del`, and `timeout_del`, which calls it with the wheels the timeout knows. -/
def timeoutsDel (T : Timeouts) (a : Addr) : Timeouts :=
  match (T.mem a).pending with
  | none => T
  | some .expired => (T.remove a .expired).edit a ({ · with pending := none, timeouts := false })
  | some (.slot index) =>
    let T := T.remove a (.slot index)
    let T := if T.wheel index = [] then T.clearBit (index / wheelLen) (index % wheelLen) else T
    T.edit a ({ · with pending := none, timeouts := false })

def timeoutRem (T : Timeouts) (a : Addr) : BitVec 64 := (T.mem a).expires - T.curtime

def timeoutWheel (timeout : BitVec 64) : Nat :=
  (fls (if timeout < timeoutMax then timeout else timeoutMax) - 1) / wheelBit

def timeoutSlot (wheel : Nat) (expires : BitVec 64) : Nat :=
  (wheelMask &&& ((expires >>> (wheel * wheelBit)) - if wheel = 0 then 0 else 1)).toNat

def timeoutsSched (T : Timeouts) (a : Addr) (expires : BitVec 64) : Timeouts :=
  let T := timeoutsDel T a
  let T := T.edit a ({ · with expires, timeouts := true })
  if T.curtime < expires then
    let rem := timeoutRem T a
    let wheel := timeoutWheel rem
    let slot := timeoutSlot wheel (T.mem a).expires
    let list := Place.slot (wheel * wheelLen + slot)
    let T := T.edit a ({ · with pending := some list })
    let T := T.insertTail a list
    T.setBit wheel slot
  else
    let T := T.edit a ({ · with pending := some .expired })
    T.insertTail a .expired

/-- `timeouts_readd`. A firing that was missed is not made up for: the timeout goes to the next
    multiple of its interval. -/
def timeoutsReadd (T : Timeouts) (a : Addr) : Timeouts :=
  let T := T.edit a fun t => { t with expires := t.expires + t.interval }
  let T :=
    if (T.mem a).expires ≤ T.curtime then
      let n := T.curtime - (T.mem a).expires
      let r := n % (T.mem a).interval
      T.edit a fun t => { t with expires := T.curtime + (t.interval - r) }
    else T
  timeoutsSched T a (T.mem a).expires

def timeoutsAdd (T : Timeouts) (a : Addr) (timeout : BitVec 64) : Timeouts :=
  let T :=
    if (T.mem a).flags &&& timeoutInt ≠ 0 then
      T.edit a ({ · with interval := if 1 > timeout then 1 else timeout })
    else T
  if (T.mem a).flags &&& timeoutAbs ≠ 0 then timeoutsSched T a timeout
  else timeoutsSched T a (T.curtime + timeout)

/-! ## The passing of time -/

/-- The slots of a wheel that an update from `oldtime` to `curtime` passes, as a bit field. -/
def expiring (oldtime curtime elapsed : BitVec 64) (wheel : Nat) : BitVec 64 :=
  if elapsed >>> (wheel * wheelBit) > wheelMax then ~~~0#64
  else
    let elapsed' := (wheelMask &&& (elapsed >>> (wheel * wheelBit))).toNat
    let oslot := (wheelMask &&& (oldtime >>> (wheel * wheelBit))).toNat
    let pending := rotl ((1#64 <<< elapsed') - 1#64) oslot
    let nslot := (wheelMask &&& (curtime >>> (wheel * wheelBit))).toNat
    let pending := pending ||| rotr (rotl ((1#64 <<< elapsed') - 1#64) nslot) elapsed'
    pending ||| (1#64 <<< nslot)

/-- The loop that moves the lists of a wheel's expiring slots to the end of `todo`, lowest slot
    first. Every round empties a slot, so `fuel` is their number at most. -/
def takeSlots (pending : BitVec 64) (wheel : Nat) :
    Nat → Timeouts × List Addr → Timeouts × List Addr
  | 0, s => s
  | fuel + 1, (T, todo) =>
    if pending &&& T.pending wheel = 0#64 then (T, todo)
    else
      let slot := ctz (pending &&& T.pending wheel)
      let index := wheel * wheelLen + slot
      let todo := todo ++ T.wheel index
      takeSlots pending wheel fuel ((T.empty index).clearBit wheel slot, todo)

/-- The loop over the wheels: `n` of them are left, and the next one is `wheel`. -/
def takeWheels (curtime : BitVec 64) : Nat → Nat → BitVec 64 →
    Timeouts × List Addr → Timeouts × List Addr
  | 0, _, _, s => s
  | n + 1, wheel, elapsed, (T, todo) =>
    let pending := expiring T.curtime curtime elapsed wheel
    let s := takeSlots pending wheel wheelLen (T, todo)
    -- a wheel that did not come round has not moved the next one
    if 0x1#64 &&& pending = 0#64 then s
    else
      let turn := BitVec.ofNat 64 (wheelLen <<< (wheel * wheelBit))
      takeWheels curtime n (wheel + 1) (if elapsed > turn then elapsed else turn) s

/-- The loop over `todo`. -/
def schedTodo : List Addr → Timeouts → Timeouts
  | [], T => T
  | a :: todo, T =>
    let T := T.edit a ({ · with pending := none })
    schedTodo todo (timeoutsSched T a (T.mem a).expires)

def timeoutsUpdate (T : Timeouts) (curtime : BitVec 64) : Timeouts :=
  let elapsed := curtime - T.curtime
  let (T, todo) := takeWheels curtime wheelNum 0 elapsed (T, [])
  schedTodo todo { T with curtime }

def timeoutsStep (T : Timeouts) (elapsed : BitVec 64) : Timeouts :=
  timeoutsUpdate T (T.curtime + elapsed)

/-! ## Questions

What the interface answers without a change. `timeouts_check` is part of the library and is
translated with all its reports: it is the library's own test of what is proved here of every run.
-/

def timeoutsPending (T : Timeouts) : Bool :=
  (List.range wheelNum).foldl (fun pending wheel => pending ||| T.pending wheel) 0#64 ≠ 0#64

def timeoutsExpired (T : Timeouts) : Bool := T.expired ≠ []

/-- The loop of `timeouts_int`: `n` wheels are left, and the next one is `wheel`. -/
def intLoop (T : Timeouts) : Nat → Nat → BitVec 64 → BitVec 64 → BitVec 64
  | 0, _, _, timeout => timeout
  | n + 1, wheel, relmask, timeout =>
    let timeout :=
      if T.pending wheel ≠ 0#64 then
        let slot := (wheelMask &&& (T.curtime >>> (wheel * wheelBit))).toNat
        let turns := ctz (rotr (T.pending wheel) slot) + if wheel = 0 then 0 else 1
        let timeout' := BitVec.ofNat 64 (turns <<< (wheel * wheelBit)) - (relmask &&& T.curtime)
        if timeout' < timeout then timeout' else timeout
      else timeout
    intLoop T n (wheel + 1) ((relmask <<< wheelBit) ||| wheelMask) timeout

def timeoutsInt (T : Timeouts) : BitVec 64 := intLoop T wheelNum 0 0#64 (~~~0#64)

def timeoutsTimeout (T : Timeouts) : BitVec 64 :=
  if T.expired ≠ [] then 0#64 else timeoutsInt T

/-- `timeouts_get`. -/
def timeoutsGet (T : Timeouts) : Option Addr × Timeouts :=
  match T.expired with
  | [] => (none, T)
  | a :: _ =>
    let T := T.remove a .expired
    let T := T.edit a ({ · with pending := none })
    if (T.mem a).flags &&& timeoutInt ≠ 0 ∧ (T.mem a).interval > 0 then (some a, timeoutsReadd T a)
    else (some a, T.edit a ({ · with timeouts := false }))

/-- `timeouts_min`. -/
def timeoutsMin (T : Timeouts) : Option Addr :=
  (List.range wheelNum).foldl (fun min i =>
    (List.range wheelLen).foldl (fun min j =>
      (T.wheel (i * wheelLen + j)).foldl (fun min a =>
        match min with
        | none => some a
        | some m => if (T.mem a).expires < (T.mem m).expires then some a else some m) min) min) none

/-- `timeouts_check`; an error is a `return 0` with its report. -/
def timeoutsCheck (T : Timeouts) : Except String Unit :=
  let softTimeout (timeout hard : BitVec 64) (a : Addr) : String :=
    "wrong soft timeout (soft:" ++ toString timeout.toNat ++ " > hard:" ++ toString hard.toNat ++
      ") (expires:" ++ toString (T.mem a).expires.toNat ++ "; curtime:" ++
      toString T.curtime.toNat ++ ")\n"
  let wrongTimeout (hard : BitVec 64) : String :=
    "wrong soft timeout (soft:" ++ toString (timeoutsTimeout T).toNat ++ " != hard:" ++
      toString hard.toNat ++ ")\n"
  match timeoutsMin T with
  | some a =>
    let hard := (T.mem a).expires - T.curtime
    if ¬ (T.mem a).expires > T.curtime then
      .error ("missed timeout (expires:" ++ toString (T.mem a).expires.toNat ++ " <= curtime:" ++
        toString T.curtime.toNat ++ ")\n")
    else if ¬ timeoutsInt T ≤ hard then .error (softTimeout (timeoutsInt T) hard a)
    else if ¬ timeoutsTimeout T ≤ hard then .error (softTimeout (timeoutsTimeout T) hard a)
    else .ok ()
  | none =>
    if T.expired ≠ [] then
      if timeoutsTimeout T = 0#64 then .ok () else .error (wrongTimeout 0#64)
    else if timeoutsTimeout T = ~~~0#64 then .ok () else .error (wrongTimeout (~~~0#64))

def timeoutPending (T : Timeouts) (a : Addr) : Bool :=
  match (T.mem a).pending with
  | some (.slot _) => true
  | _ => false

def timeoutExpired (T : Timeouts) (a : Addr) : Bool :=
  match (T.mem a).pending with
  | some .expired => true
  | _ => false

end Timer
end Inac
