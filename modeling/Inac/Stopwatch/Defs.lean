import Inac.Err
import Mathlib.Data.Vector.Basic

/-!
# The stopwatch (`src/stopwatch.c`)

A stopwatch has room for `max_stamps` stamps behind its head. `ina_stopwatch_stamp` takes the next
slot by adding one to a counter and asks afterwards whether there is such a slot, and
`ina_stopwatch_read_stamp` reads the stamp at an index, which it compares with the counter.

Times are doubles and clock values in the code, here a parameter: `Time` has what the code does with
them and no laws. An access outside of the slots is an outcome of its own.
-/

namespace Inac
namespace Stopwatch

/-- What the code does with times (`T`) and durations (`D`). -/
structure Time (T D : Type) where
  /-- A time and a duration of zero bytes. -/
  zero : T
  none : D
  /-- `duration == 0`. -/
  isNone : D → Bool
  /-- `ina_time_tsc_seconds_nanos` of a time into its own seconds and nanoseconds. -/
  tscSecondsNanos : T → T
  /-- The `ref` and `refhpet` of the first for those of the second. -/
  withRef : T → T → T
  /-- The seconds from the first to the second. -/
  elapsed : T → T → D

/-- `ina_stopwatch_ts_t`. -/
structure Ts (T D : Type) where
  stamp : T
  duration : D
  userData1 : List UInt8
  userData2 : List UInt8
  deriving DecidableEq, Repr

/-- `INA_STOPWATCH_MAX_USERDATA_LEN`. -/
def maxUserdataLen : Nat := 32

/-- A stamp of zero bytes. -/
def Ts.blank {T D : Type} (time : Time T D) : Ts T D where
  stamp := time.zero
  duration := time.none
  userData1 := List.replicate maxUserdataLen 0
  userData2 := List.replicate maxUserdataLen 0

/-- `ina_stopwatch_t` and its `tv`; the stamps lie in memory, 120 bytes each. `ts` is the index of
    the current one. -/
structure Watch (T D : Type) (maxStamps : Nat) where
  start : T
  duration : D
  nextStamp : Int
  stamps : Vector (Ts T D) maxStamps
  ts : Option Int
  fits : 120 * maxStamps < 2 ^ 64

variable {T D : Type} {m : Nat}

/-- `__INA_TIME_INC`, on 64 bits. -/
def timeInc (n : Int) : Int := (n + 1).bmod (2 ^ 64)

/-- `strncpy` of `len - 1` bytes and a NUL behind them. -/
def userData : Option (List UInt8) → List UInt8 → List UInt8
  | none, old => old
  | some s, _ => (s ++ List.replicate (maxUserdataLen - 1) 0).take (maxUserdataLen - 1) ++ [0]

/-- The slot at an index, if there is one. -/
def slot? (stamps : Vector (Ts T D) m) (i : Int) : Option (Ts T D) :=
  if 0 ≤ i then stamps[i.toNat]? else none

/-! ## The calls

The counter is taken first and compared afterwards, as in the source. -/

/-- `ina_stopwatch_start`; `clock` is what reading the clock makes of a time. -/
def inaStopwatchStart (time : Time T D) (start : Option T) (clock : T → T) (w : Watch T D m) :
    Watch T D m :=
  { w with
    duration := time.none
    nextStamp := 0
    stamps := Vector.replicate m (Ts.blank time)
    start := start.getD (clock w.start) }

/-- What a stamp call writes to its slot. -/
def Ts.write (clock : T → T) (userData1 userData2 : Option (List UInt8)) (ts : Ts T D) : Ts T D :=
  { ts with
    stamp := clock ts.stamp
    userData1 := userData userData1 ts.userData1
    userData2 := userData userData2 ts.userData2 }

/-- `ina_stopwatch_stamp`; `none` is a write outside of the slots. -/
def inaStopwatchStamp (clock : T → T) (userData1 userData2 : Option (List UInt8))
    (w : Watch T D m) : Option (Except Err Unit) × Watch T D m :=
  if m = 0 then (some (.error .stateInvalid), w)
  else
    let si := (w.nextStamp % 2 ^ 64).toNat
    let w := { w with nextStamp := timeInc w.nextStamp }
    if m < si then (some (.error .overflow), w)
    else
      match w.stamps[si]? with
      | none => (none, w)
      | some ts =>
        (some (.ok ()),
          { w with stamps := w.stamps.setIfInBounds si (ts.write clock userData1 userData2) })

/-- The duration of the stamp at `i`, from the start or from the stamp before, if not yet done. -/
def calcDuration (time : Time T D) (w : Watch T D m) (i : Int) (ts : Ts T D) : Watch T D m :=
  if time.isNone ts.duration = false then w
  else
    let start := if i = 0 then time.tscSecondsNanos w.start else w.start
    let stamp := time.tscSecondsNanos (time.withRef start ts.stamp)
    let before := if i = 0 then start else (slot? w.stamps (i - 1)).elim start Ts.stamp
    { w with
      start := start
      stamps := w.stamps.setIfInBounds i.toNat
        { ts with stamp := stamp, duration := time.elapsed before stamp } }

/-- What `ina_stopwatch_read_stamp` returns: with a success the index of `*ts`, and `*stamp_index` as
    it is left. -/
structure Read where
  rc : Except Err Int
  stampIndex : Int
  deriving DecidableEq

/-- `ina_stopwatch_read_stamp`; `none` is an access outside of the slots. -/
def inaStopwatchReadStamp (time : Time T D) (stampIndex : Int) (w : Watch T D m) :
    Option Read × Watch T D m :=
  let w := { w with ts := none }
  if m = 0 then (some ⟨.error .empty, stampIndex⟩, w)
  else if w.nextStamp ≤ stampIndex then (some ⟨.error .endOf, stampIndex⟩, w)
  else
    let stampIndex := if stampIndex = -1 then w.nextStamp else stampIndex
    match slot? w.stamps stampIndex with
    | none => (none, w)
    | some ts =>
      (some ⟨.ok stampIndex, stampIndex⟩,
        calcDuration time { w with ts := some stampIndex } stampIndex ts)

end Stopwatch
end Inac
