import Inac.Lib.Run
import Inac.Stopwatch.Defs

/-!
# The stamps of a stopwatch

From a start on, the counter is the number of the stamps accepted as long as there is room for them,
and they stand at the indexes from 0 on. Two things end this. The stamp after the last slot is not
refused: the counter is compared with `>`, and its index is `max_stamps`. And `-1`, which means the
last stamp, is read at the counter itself, the index of the next one; indexes below `-1` are not
refused either.
-/

namespace Inac
namespace Stopwatch

open Lib

variable {T D : Type} {m : Nat}

/-! ## Runs

Beside the stopwatch a run has the stamps that it has accepted, which no call reads. -/

/-- What a stamp call is given, and what the clock makes of a time. -/
structure Given (T : Type) where
  clock : T → T
  userData1 : Option (List UInt8)
  userData2 : Option (List UInt8)

inductive Call (T : Type) where
  | stamp (given : Given T)
  | readStamp (stampIndex : Int)

/-- What a call returns; `none` is an access outside of the slots. -/
inductive Ret where
  | stamp (rc : Option (Except Err Unit))
  | readStamp (read : Option Read)
  deriving DecidableEq

/-- A stopwatch and the stamps it has accepted since the start, in order. -/
structure Run (T D : Type) (m : Nat) where
  watch : Watch T D m
  accepted : List (Given T)

def step (time : Time T D) (s : Run T D m) : Call T → Ret × Run T D m
  | .stamp given =>
    let (rc, watch) := inaStopwatchStamp given.clock given.userData1 given.userData2 s.watch
    (.stamp rc, ⟨watch, if rc = some (.ok ()) then s.accepted ++ [given] else s.accepted⟩)
  | .readStamp stampIndex =>
    let (read, watch) := inaStopwatchReadStamp time stampIndex s.watch
    (.readStamp read, ⟨watch, s.accepted⟩)

/-! ## What the stamps are to be

The stamp accepted as the `i`-th is found at the index `i`, and at no other. -/

/-- A time that reading has settled some number of times. -/
def Settled (time : Time T D) : T → T → Prop :=
  Relation.ReflTransGen fun t t' => ∃ start, t' = time.tscSecondsNanos (time.withRef start t)

/-- The slot has the stamp that was given. -/
structure Holds (time : Time T D) (given : Given T) (ts : Ts T D) : Prop where
  stamp : Settled time (given.clock time.zero) ts.stamp
  userData1 : ts.userData1 = userData given.userData1 (Ts.blank time).userData1
  userData2 : ts.userData2 = userData given.userData2 (Ts.blank time).userData2

/-- The stamp accepted as the `i`-th is at index `i`, within the slots. -/
def InOrder (time : Time T D) (s : Run T D m) : Prop :=
  ∀ i given, s.accepted[i]? = some given →
    ∃ h : i < m, Holds time given (s.watch.stamps[i])

/-- What a call may return when `n` stamps have been accepted: no access outside of the slots, and a
    stamp only for its index or, if there is one, for `-1`, which is set to the index of the last. -/
def Answers (n : Nat) : Call T → Ret → Prop
  | .stamp _, .stamp rc => rc ≠ none
  | .readStamp i, .readStamp (some read) =>
    ∀ ts, read.rc = .ok ts →
      0 ≤ i ∧ i < n ∧ ts = i ∧ read.stampIndex = i ∨
      i = -1 ∧ 0 < n ∧ ts = n - 1 ∧ read.stampIndex = n - 1
  | _, _ => False

/-- A call is answered rightly, and the stamps are in order behind it. -/
def Right (time : Time T D) (s : Run T D m) (call : Call T) : Prop :=
  Answers s.accepted.length call (step time s call).1 ∧ InOrder time (step time s call).2

/-- What keeps a run right: the counter counts the stamps accepted, there is room for them, and
    behind them the slots are as the start left them. -/
structure Inv (time : Time T D) (s : Run T D m) : Prop where
  counter : s.watch.nextStamp = s.accepted.length
  room : s.accepted.length ≤ m
  order : InOrder time s
  blank : ∀ i (h : i < m), s.accepted.length ≤ i → s.watch.stamps[i] = Ts.blank time

theorem timeInc_eq {n : Nat} (h : 120 * n < 2 ^ 64) : timeInc n = (n + 1 : Nat) := by
  unfold timeInc
  rw [Int.bmod_eq_of_le (by omega) (by omega)]
  rfl

theorem slot?_eq (stamps : Vector (Ts T D) m) {i : Nat} (h : i < m) :
    slot? stamps i = some stamps[i] := by
  rw [slot?, if_pos (Int.natCast_nonneg i), Int.toNat_natCast, Vector.getElem?_eq_getElem h]

theorem slot?_none (stamps : Vector (Ts T D) m) {i : Int} (h : i < 0 ∨ m ≤ i) :
    slot? stamps i = none := by
  rw [slot?]
  split
  · rw [Vector.getElem?_eq_none]
    omega
  · rfl

/-! ## Accepting

As long as there is room the counter is the index of the next free slot. With all slots taken it is
the length, and the write goes there. -/

/-- With room left a stamp goes to the slot that the counter stands at. -/
theorem stamp_accepted {w : Watch T D m} {n : Nat} (hcounter : w.nextStamp = n) (hroom : n < m)
    (given : Given T) :
    inaStopwatchStamp given.clock given.userData1 given.userData2 w =
      (some (.ok ()), { w with
        nextStamp := (n + 1 : Nat)
        stamps := w.stamps.setIfInBounds n
          (w.stamps[n].write given.clock given.userData1 given.userData2) }) := by
  have hfits := w.fits
  have hm : m ≠ 0 := Nat.ne_of_gt (Nat.zero_lt_of_lt hroom)
  have hsi : ((n : Int) % 2 ^ 64).toNat = n := by omega
  have hinc : timeInc n = (n + 1 : Nat) := timeInc_eq (by omega)
  simp only [inaStopwatchStamp, if_neg hm, hcounter, hsi, hinc,
    if_neg (Nat.not_lt_of_lt hroom), Vector.getElem?_eq_getElem hroom]

/-- **Without room left the stamp goes behind the last slot.** -/
theorem stamp_overrun {w : Watch T D m} (hcounter : w.nextStamp = m) (hm : m ≠ 0)
    (given : Given T) :
    (inaStopwatchStamp given.clock given.userData1 given.userData2 w).1 = none := by
  have hfits := w.fits
  have hsi : ((m : Int) % 2 ^ 64).toNat = m := by omega
  simp only [inaStopwatchStamp, if_neg hm, hcounter, hsi, if_neg (Nat.lt_irrefl m),
    Vector.getElem?_eq_none (Nat.le_refl m)]

theorem holds_write (time : Time T D) (given : Given T) :
    Holds time given ((Ts.blank time).write given.clock given.userData1 given.userData2) :=
  ⟨.refl, rfl, rfl⟩

/-- A stamp accepted keeps the others in order. -/
theorem Inv.accept {time : Time T D} {s : Run T D m} (h : Inv time s)
    (hroom : s.accepted.length < m) (given : Given T) :
    Inv time ⟨{ s.watch with
      nextStamp := (s.accepted.length + 1 : Nat)
      stamps := s.watch.stamps.setIfInBounds s.accepted.length
        (s.watch.stamps[s.accepted.length].write given.clock given.userData1 given.userData2) },
      s.accepted ++ [given]⟩ := by
  refine ⟨by simp, by simpa using Nat.succ_le_of_lt hroom, ?_, ?_⟩
  · intro i other hother
    -- An earlier stamp, the new one, or none.
    rcases Nat.lt_trichotomy i s.accepted.length with hlt | rfl | hgt
    · rw [List.getElem?_append_left hlt] at hother
      obtain ⟨hi, hholds⟩ := h.order i other hother
      refine ⟨hi, ?_⟩
      rw [Vector.getElem_setIfInBounds, if_neg (Nat.ne_of_gt hlt)]
      exact hholds
    · rw [List.getElem?_concat_length, Option.some.injEq] at hother
      refine ⟨hroom, ?_⟩
      rw [Vector.getElem_setIfInBounds, if_pos rfl, h.blank _ hroom (Nat.le_refl _), ← hother]
      exact holds_write time given
    · rw [List.getElem?_eq_none (by simpa using Nat.succ_le_of_lt hgt)] at hother
      exact nomatch hother
  · intro i hi hle
    have hle' : s.accepted.length + 1 ≤ i := by simpa using hle
    rw [Vector.getElem_setIfInBounds, if_neg (Nat.ne_of_lt hle')]
    exact h.blank i hi (Nat.le_of_succ_le hle')

/-! ## Reading

A read settles the stamp and its duration in the slot, and changes nothing else. -/

theorem calcDuration_nextStamp (time : Time T D) (w : Watch T D m) (i : Int) (ts : Ts T D) :
    (calcDuration time w i ts).nextStamp = w.nextStamp := by
  unfold calcDuration
  split <;> rfl

/-- Only the slot that is read changes. -/
theorem calcDuration_other (time : Time T D) (w : Watch T D m) {i j : Nat} (hj : j < m)
    (hne : i ≠ j) (ts : Ts T D) : (calcDuration time w i ts).stamps[j] = w.stamps[j] := by
  unfold calcDuration
  split
  · rfl
  · rw [Int.toNat_natCast, Vector.getElem_setIfInBounds, if_neg hne]

/-- And it keeps its stamp. -/
theorem calcDuration_holds {time : Time T D} {w : Watch T D m} {i : Nat} (hi : i < m)
    {given : Given T} (h : Holds time given w.stamps[i]) :
    Holds time given (calcDuration time w i w.stamps[i]).stamps[i] := by
  unfold calcDuration
  split
  · exact h
  · rw [Int.toNat_natCast, Vector.getElem_setIfInBounds, if_pos rfl]
    exact ⟨h.stamp.tail ⟨_, rfl⟩, h.userData1, h.userData2⟩

/-- At and behind the counter there is nothing to read. -/
theorem readStamp_endOf (time : Time T D) {w : Watch T D m} {i : Int}
    (h : m = 0 ∨ w.nextStamp ≤ i) :
    ∃ e, inaStopwatchReadStamp time i w = (some ⟨.error e, i⟩, { w with ts := none }) := by
  unfold inaStopwatchReadStamp
  by_cases hm : m = 0
  · exact ⟨_, if_pos hm⟩
  · exact ⟨_, (if_neg hm).trans (if_pos (h.resolve_left hm))⟩

/-- Before the counter, the slot at the index is read, for `-1` the one at the counter. -/
theorem readStamp_slot (time : Time T D) {w : Watch T D m} {i : Int} (hm : m ≠ 0)
    (hlt : ¬ w.nextStamp ≤ i) :
    inaStopwatchReadStamp time i w =
      match slot? w.stamps (if i = -1 then w.nextStamp else i) with
      | none => (none, { w with ts := none })
      | some ts =>
        let j := if i = -1 then w.nextStamp else i
        (some ⟨.ok j, j⟩, calcDuration time { w with ts := some j } j ts) :=
  (if_neg hm).trans (if_neg hlt)

/-- A stamp accepted is read at its index. -/
theorem readStamp_ok (time : Time T D) {w : Watch T D m} {n i : Nat} (hcounter : w.nextStamp = n)
    (hlt : i < n) (hroom : i < m) :
    inaStopwatchReadStamp time i w =
      (some ⟨.ok i, i⟩, calcDuration time { w with ts := some (i : Int) } i w.stamps[i]) := by
  have hm : m ≠ 0 := Nat.ne_of_gt (Nat.zero_lt_of_lt hroom)
  have hindex : ¬ (i : Int) = -1 := by omega
  rw [readStamp_slot time hm (by omega), if_neg hindex, slot?_eq _ hroom]

/-- **`-1` is read at the counter**, and below there is no slot. -/
theorem readStamp_negative (time : Time T D) {w : Watch T D m} {n : Nat} (hcounter : w.nextStamp = n)
    (hm : m ≠ 0) {i : Int} (h : i < 0) :
    (inaStopwatchReadStamp time i w).1 = none ∨
      i = -1 ∧ (inaStopwatchReadStamp time i w).1 = some ⟨.ok n, n⟩ := by
  rw [readStamp_slot time hm (by omega)]
  by_cases hi : i = -1
  · rw [if_pos hi, hcounter]
    rcases Nat.lt_or_ge n m with hroom | hfull
    · rw [slot?_eq _ hroom]
      exact .inr ⟨hi, rfl⟩
    · rw [slot?_none _ (.inr (Int.ofNat_le.mpr hfull))]
      exact .inl rfl
  · rw [if_neg hi, slot?_none _ (.inl h)]
    exact .inl rfl

/-- A read of a stamp accepted keeps the stamps in order. -/
theorem Inv.read {time : Time T D} {s : Run T D m} (h : Inv time s) {i : Nat}
    (hlt : i < s.accepted.length) (hroom : i < m) :
    Inv time ⟨calcDuration time { s.watch with ts := some (i : Int) } i s.watch.stamps[i],
      s.accepted⟩ := by
  refine ⟨(calcDuration_nextStamp ..).trans h.counter, h.room, ?_, ?_⟩
  · intro j given hgiven
    obtain ⟨hj, hholds⟩ := h.order j given hgiven
    refine ⟨hj, ?_⟩
    rcases Decidable.em (i = j) with rfl | hne
    · exact calcDuration_holds (w := { s.watch with ts := some (i : Int) }) hj hholds
    · exact (calcDuration_other time { s.watch with ts := some (i : Int) } hj hne _) ▸ hholds
  · intro j hj hle
    have hne : i ≠ j := Nat.ne_of_lt (Nat.lt_of_lt_of_le hlt hle)
    exact (calcDuration_other time { s.watch with ts := some (i : Int) } hj hne _).trans
      (h.blank j hj hle)

/-! ## Steps

A stamp without room and a read at a negative index are the calls that are answered wrongly, unless
there is no slot at all. -/

/-- The calls that are answered wrongly. -/
def Bad (s : Run T D m) : Call T → Prop
  | .stamp _ => m ≠ 0 ∧ s.accepted.length = m
  | .readStamp i => m ≠ 0 ∧ i < 0

/-- Of a stopwatch with slots every stamp call counts. -/
def Call.isStamp : Call T → Bool
  | .stamp _ => true
  | .readStamp _ => false

theorem stamp_good {time : Time T D} {s : Run T D m} (h : Inv time s) (hm : m ≠ 0)
    (given : Given T) (hgood : ¬ Bad s (.stamp given)) :
    (step time s (.stamp given)).1 = .stamp (some (.ok ())) ∧
      (step time s (.stamp given)).2.accepted = s.accepted ++ [given] ∧
      Inv time (step time s (.stamp given)).2 := by
  have hroom : s.accepted.length < m :=
    Nat.lt_of_le_of_ne h.room fun hfull => hgood ⟨hm, hfull⟩
  rw [step, stamp_accepted h.counter hroom given]
  exact ⟨rfl, rfl, h.accept hroom given⟩

theorem read_good {time : Time T D} {s : Run T D m} (h : Inv time s) (i : Int)
    (hgood : ¬ Bad s (.readStamp i)) :
    Answers s.accepted.length (.readStamp i : Call T) (step time s (.readStamp i)).1 ∧
      (step time s (.readStamp i)).2.accepted = s.accepted ∧
      Inv time (step time s (.readStamp i)).2 := by
  by_cases hend : m = 0 ∨ s.watch.nextStamp ≤ i
  · obtain ⟨e, hread⟩ := readStamp_endOf time hend
    rw [step, hread]
    refine ⟨?_, rfl, h.counter, h.room, h.order, h.blank⟩
    intro ts hok
    exact nomatch hok
  · obtain ⟨hm, hlt⟩ := not_or.mp hend
    obtain ⟨k, rfl⟩ : ∃ k : Nat, i = k := by
      refine Int.eq_ofNat_of_zero_le (Int.not_lt.mp fun hneg => hgood ⟨hm, hneg⟩)
    rw [h.counter, Int.not_le, Int.ofNat_lt] at hlt
    have hroom := Nat.lt_of_lt_of_le hlt h.room
    rw [step, readStamp_ok time h.counter hlt hroom]
    refine ⟨?_, rfl, h.read hlt hroom⟩
    intro ts hok
    obtain rfl : (k : Int) = ts := Except.ok.inj hok
    exact .inl ⟨Int.natCast_nonneg k, Int.ofNat_lt.mpr hlt, rfl, rfl⟩

/-- Without slots nothing is accepted. -/
theorem stamp_refused {time : Time T D} {s : Run T D m} (h : Inv time s) (hm : m = 0)
    (given : Given T) :
    (step time s (.stamp given)).1 = .stamp (some (.error .stateInvalid)) ∧
      Inv time (step time s (.stamp given)).2 := by
  have hcall : inaStopwatchStamp given.clock given.userData1 given.userData2 s.watch =
      (some (.error .stateInvalid), s.watch) := if_pos hm
  rw [step, hcall]
  exact ⟨rfl, h⟩

theorem step_good {time : Time T D} {s : Run T D m} (h : Inv time s) (call : Call T)
    (hgood : ¬ Bad s call) :
    Answers s.accepted.length call (step time s call).1 ∧ Inv time (step time s call).2 := by
  cases call with
  | stamp given =>
    by_cases hm : m = 0
    · obtain ⟨hret, hnext⟩ := stamp_refused h hm given
      rw [hret]
      exact ⟨Option.some_ne_none _, hnext⟩
    · obtain ⟨hret, -, hnext⟩ := stamp_good h hm given hgood
      rw [hret]
      exact ⟨Option.some_ne_none _, hnext⟩
  | readStamp i =>
    obtain ⟨hret, -, hnext⟩ := read_good h i hgood
    exact ⟨hret, hnext⟩

theorem step_bad {time : Time T D} {s : Run T D m} (h : Inv time s) (call : Call T)
    (hbad : Bad s call) : ¬ Answers s.accepted.length call (step time s call).1 := by
  cases call with
  | stamp given =>
    obtain ⟨hm, hfull⟩ := hbad
    have hcounter : s.watch.nextStamp = m := by rw [h.counter, hfull]
    intro hanswers
    exact hanswers (stamp_overrun hcounter hm given)
  | readStamp i =>
    obtain ⟨hm, hneg⟩ := hbad
    have hret : (step time s (.readStamp i)).1 =
        .readStamp (inaStopwatchReadStamp time i s.watch).1 := rfl
    rw [hret]
    rcases readStamp_negative time h.counter hm hneg with hfault | ⟨-, hread⟩
    · rw [hfault]
      exact id
    · rw [hread]
      intro hanswers
      rcases hanswers _ rfl with ⟨hpos, -⟩ | ⟨-, -, hlast, -⟩
      · exact absurd hneg (Int.not_lt.mpr hpos)
      · omega

theorem right_iff {time : Time T D} {s : Run T D m} (h : Inv time s) (call : Call T) :
    Right time s call ↔ ¬ Bad s call := by
  constructor
  · intro hright hbad
    exact step_bad h call hbad hright.1
  · intro hgood
    obtain ⟨hanswers, hnext⟩ := step_good h call hgood
    exact ⟨hanswers, hnext.order⟩

/-! ## Runs after a start

A start clears the slots and the counter, so that the invariant holds. -/

/-- No call is bad while there is room for the stamps and no index is negative. -/
theorem never_bad_iff {time : Time T D} (hm : m ≠ 0) {calls : List (Call T)} {s : Run T D m}
    (h : Inv time s) :
    Never (step time) Bad s calls ↔
      s.accepted.length + calls.countP Call.isStamp ≤ m ∧
        ∀ i, .readStamp i ∈ calls → 0 ≤ i := by
  induction calls generalizing s with
  | nil => simpa [Never] using h.room
  | cons call calls ih =>
    rw [Never]
    by_cases hbad : Bad s call
    · refine ⟨fun hnever => absurd hbad hnever.1, ?_⟩
      rintro ⟨hroom, hreads⟩
      cases call with
      | stamp given =>
        rw [List.countP_cons_of_pos rfl, hbad.2] at hroom
        omega
      | readStamp i =>
        exact absurd hbad.2 (Int.not_lt.mpr (hreads i List.mem_cons_self))
    · rw [and_iff_right hbad, ih (step_good h call hbad).2]
      -- A good stamp takes one of the slots that are left, and a good read takes none.
      cases call with
      | stamp given =>
        obtain ⟨-, haccepted, -⟩ := stamp_good h hm given hbad
        rw [haccepted, List.countP_cons_of_pos rfl, List.length_append, List.length_singleton,
          Nat.add_assoc, Nat.add_comm 1]
        simp
      | readStamp i =>
        have hi : 0 ≤ i := Int.not_lt.mp fun hneg => hbad ⟨hm, hneg⟩
        obtain ⟨-, haccepted, -⟩ := read_good h i hbad
        rw [haccepted, List.countP_cons_of_neg (by simp [Call.isStamp])]
        simp [hi]

theorem never_bad_of_no_slots (time : Time T D) (hm : m = 0) (calls : List (Call T))
    (s : Run T D m) : Never (step time) Bad s calls := by
  induction calls generalizing s with
  | nil => trivial
  | cons call calls ih =>
    refine ⟨?_, ih _⟩
    cases call with
    | stamp given => exact fun hbad => hbad.1 hm
    | readStamp i => exact fun hbad => hbad.1 hm

theorem inv_start (time : Time T D) (start : Option T) (clock : T → T) (w : Watch T D m) :
    Inv time ⟨inaStopwatchStart time start clock w, []⟩ := by
  refine ⟨rfl, Nat.zero_le m, ?_, ?_⟩
  · intro i given hgiven
    exact nomatch hgiven
  · intro i hi _
    exact Vector.getElem_replicate ..

/-- **The stamps of a stopwatch after a start.** All calls are answered rightly exactly when there is
    no slot, or as many slots as stamp calls and no read at a negative index. -/
theorem stamps_right_iff (time : Time T D) (start : Option T) (clock : T → T) (w : Watch T D m)
    (calls : List (Call T)) :
    Along (step time) (Right time) ⟨inaStopwatchStart time start clock w, []⟩ calls ↔
      m = 0 ∨ calls.countP Call.isStamp ≤ m ∧ ∀ i, .readStamp i ∈ calls → 0 ≤ i := by
  have hany : Along (step time) (fun _ _ => True) ⟨inaStopwatchStart time start clock w, []⟩
      calls := along_iff_forall.mpr fun _ _ => trivial
  have hright := along_iff_never (I := Inv time) (C := fun _ _ => True) (P := Right time)
    (B := Bad) (fun s call _ hgood hs => (step_good hs call hgood).2)
    (fun s call _ hs => right_iff hs call) hany (inv_start time start clock w)
  rw [hright]
  by_cases hm : m = 0
  · exact ⟨fun _ => .inl hm, fun _ => never_bad_of_no_slots time hm calls _⟩
  · rw [never_bad_iff hm (inv_start time start clock w), or_iff_right hm, List.length_nil,
      Nat.zero_add]

/-- Times in ticks. -/
def ticks : Time Nat Nat where
  zero := 0
  none := 0
  isNone d := d == 0
  tscSecondsNanos t := t
  withRef _ t := t
  elapsed t t' := t' - t

/-- A stopwatch with two slots. -/
def twoSlots : Watch Nat Nat 2 where
  start := 0
  duration := 0
  nextStamp := 0
  stamps := Vector.replicate 2 (Ts.blank ticks)
  ts := none
  fits := by decide

/-- One stamp, and the read of the last one: the second slot is read. -/
theorem last_stamp_misread : ¬ ∀ (m : Nat) (time : Time Nat Nat) (start : Option Nat)
    (clock : Nat → Nat) (w : Watch Nat Nat m) (calls : List (Call Nat)),
    Along (step time) (Right time) ⟨inaStopwatchStart time start clock w, []⟩ calls := by
  intro h
  have hrun := h 2 ticks (some 0) id twoSlots
    [.stamp ⟨fun _ => 5, some [49], none⟩, .readStamp (-1)]
  have hread : (step ticks (step ticks ⟨inaStopwatchStart ticks (some 0) id twoSlots, []⟩
      (.stamp ⟨fun _ => 5, some [49], none⟩)).2 (.readStamp (-1))).1 =
      .readStamp (some ⟨.ok 1, 1⟩) := by
    decide
  have hanswers := hrun.2.1.1
  rw [hread] at hanswers
  rcases hanswers 1 rfl with ⟨hpos, -⟩ | ⟨-, -, hlast, -⟩
  · exact absurd hpos (by decide)
  · exact absurd hlast (by decide)

end Stopwatch
end Inac
