import Inac.Stopwatch.Stamps

/-!
# Walking over the stamps (`src/stopwatch.c`)

`ina_stopwatch_foreach_stamp` reads the stamp at its index and calls the callback on it, for as long
as reading succeeds and the callback does. The index is never advanced, so that it is the first stamp
every time.
-/

namespace Inac
namespace Stopwatch

variable {T D σ : Type} {m : Nat}

/-! ## The code

The loop is given fuel, since nothing in it gets smaller. -/

/-- A callback with a state of its own; it may change the stamp that it is given. -/
abbrev ForeachFn (σ T D : Type) : Type :=
  σ → Ts T D → Except Err Unit × σ × Ts T D

/-- A call of the callback: the index of the stamp, and what it returned. -/
structure Visit where
  ts : Int
  rc : Except Err Unit

/-- `while (INA_SUCCEED(ina_stopwatch_read_stamp(stopwatch, &index, &ts)))`; `none` is not being
    done within the fuel, or an access outside of the slots. -/
def foreachLoop (time : Time T D) (fn : ForeachFn σ T D) :
    Nat → Int → σ → Watch T D m → Option (List Visit × σ × Watch T D m)
  | 0, _, _, _ => none
  | fuel + 1, index, st, w =>
    match inaStopwatchReadStamp time index w with
    | (none, _) => none
    | (some ⟨.error _, _⟩, w) => some ([], st, w)
    | (some ⟨.ok ts, index⟩, w) => do
      let stamp ← slot? w.stamps ts
      let (rc, st, stamp) := fn st stamp
      let w := { w with stamps := w.stamps.setIfInBounds ts.toNat stamp }
      match rc with
      | .error e => some ([⟨ts, .error e⟩], st, w)
      | .ok () =>
        (foreachLoop time fn fuel index st w).map fun (visits, rest) => (⟨ts, .ok ()⟩ :: visits, rest)

/-- `ina_stopwatch_foreach_stamp`, with the calls it makes; it returns `INA_SUCCESS`. -/
def inaStopwatchForeachStamp (time : Time T D) (fn : ForeachFn σ T D) (fuel : Nat) (st : σ)
    (w : Watch T D m) : Option (List Visit × σ × Watch T D m) :=
  foreachLoop time fn fuel 0 st w

/-! ## The walk

What it should be, and that each turn of it is the first one again. -/

/-- The callback is called on the stamps from the first on in order, each once, and all `n` of them
    unless a call fails, which is the last one then. -/
structure Visited (n : Nat) (visits : List Visit) : Prop where
  inOrder : visits.map Visit.ts = (List.range visits.length).map Int.ofNat
  within : visits.length ≤ n
  goesOn : ∀ v ∈ visits.dropLast, v.rc = .ok ()
  early : visits.length < n → ∃ v e, visits.getLast? = some v ∧ v.rc = .error e

/-- The walk comes to an end and is as it should be. -/
def ForeachRight (time : Time T D) (fn : ForeachFn σ T D) (n : Nat) (st : σ) (w : Watch T D m) :
    Prop :=
  ∃ fuel visits st' w', inaStopwatchForeachStamp time fn fuel st w = some (visits, st', w') ∧
    Visited n visits

/-- The callback fails on the first stamp, as the first read leaves it. -/
def FailsAtOnce (time : Time T D) (fn : ForeachFn σ T D) (st : σ) (w : Watch T D m) : Prop :=
  ∃ ts e, slot? (inaStopwatchReadStamp time 0 w).2.stamps 0 = some ts ∧ (fn st ts).1 = .error e

/-- One turn of the loop, on the first stamp. -/
theorem foreachLoop_turn (time : Time T D) (fn : ForeachFn σ T D) {n : Nat} (hpos : 0 < n)
    (hroom : n ≤ m) (fuel : Nat) (st : σ) {w : Watch T D m} (hcounter : w.nextStamp = n) :
    ∃ (ts : Ts T D) (w' : Watch T D m), w'.nextStamp = n ∧
      slot? (inaStopwatchReadStamp time 0 w).2.stamps 0 = some ts ∧
      foreachLoop time fn (fuel + 1) 0 st w =
        match (fn st ts).1 with
        | .error e => some ([⟨0, .error e⟩], (fn st ts).2.1, w')
        | .ok () =>
          (foreachLoop time fn fuel 0 (fn st ts).2.1 w').map fun r => (⟨0, .ok ()⟩ :: r.1, r.2) := by
  have hslot : 0 < m := Nat.lt_of_lt_of_le hpos hroom
  obtain ⟨w₁, hread, hnext⟩ : ∃ w₁ : Watch T D m,
      inaStopwatchReadStamp time 0 w = (some ⟨.ok 0, 0⟩, w₁) ∧ w₁.nextStamp = n :=
    ⟨_, readStamp_ok time hcounter hpos hslot, (calcDuration_nextStamp ..).trans hcounter⟩
  have hstamp : slot? w₁.stamps 0 = some w₁.stamps[0] := slot?_eq w₁.stamps hslot
  refine ⟨w₁.stamps[0],
    { w₁ with stamps := w₁.stamps.setIfInBounds 0 (fn st w₁.stamps[0]).2.2 }, hnext, ?_, ?_⟩
  · rw [hread]
    exact hstamp
  · rw [foreachLoop, hread]
    simp only [hstamp, Option.bind_eq_bind, Option.bind_some]
    rfl

/-- **The first stamp again and again**, until a call fails. -/
theorem foreachLoop_visits (time : Time T D) (fn : ForeachFn σ T D) {n : Nat} (hpos : 0 < n)
    (hroom : n ≤ m) {fuel : Nat} {st : σ} {w : Watch T D m} {visits : List Visit} {st' : σ}
    {w' : Watch T D m} (hcounter : w.nextStamp = n)
    (hloop : foreachLoop time fn fuel 0 st w = some (visits, st', w')) :
    visits ≠ [] ∧ (∀ v ∈ visits, v.ts = 0) ∧ (visits.length = 1 → FailsAtOnce time fn st w) := by
  induction fuel generalizing st w visits st' w' with
  | zero => exact nomatch hloop
  | succ fuel ih =>
    obtain ⟨ts, w₁, hnext, hstamp, hturn⟩ :=
      foreachLoop_turn time fn hpos hroom fuel st hcounter
    rw [hturn] at hloop
    -- The callback ends the walk, or the next turn is one on the same stamp.
    cases hrc : (fn st ts).1 with
    | error e =>
      rw [hrc] at hloop
      obtain ⟨rfl, -⟩ := Prod.mk.inj (Option.some.inj hloop)
      refine ⟨List.cons_ne_nil _ _, ?_, fun _ => ⟨ts, e, hstamp, hrc⟩⟩
      intro v hv
      rw [List.mem_singleton.mp hv]
    | ok u =>
      rw [hrc] at hloop
      obtain ⟨⟨rest, st₂, w₂⟩, hrest, hvisits⟩ := Option.map_eq_some_iff.mp hloop
      obtain ⟨rfl, -⟩ := Prod.mk.inj hvisits
      obtain ⟨hne, hzero, -⟩ := ih hnext hrest
      refine ⟨List.cons_ne_nil _ _, ?_, ?_⟩
      · intro v hv
        rcases List.mem_cons.mp hv with rfl | hv
        · rfl
        · exact hzero v hv
      · intro hlen
        exact absurd (List.length_eq_zero_iff.mp (Nat.succ.inj hlen)) hne

/-- Only a walk of one call has the first stamp once. -/
theorem Visited.length_eq_one {n : Nat} {visits : List Visit} (h : Visited n visits)
    (hne : visits ≠ []) (hzero : ∀ v ∈ visits, v.ts = 0) : visits.length = 1 := by
  have hpos := List.length_pos_iff.mpr hne
  by_contra hmore
  have hsecond : 1 < visits.length := by omega
  have hts := congrArg (·[1]?) h.inOrder
  simp only [List.getElem?_map, List.getElem?_range hsecond, List.getElem?_eq_getElem hsecond,
    Option.map_some, hzero _ (List.getElem_mem hsecond)] at hts
  exact absurd hts (by decide)

/-- **The walk is right when there is no stamp or the first call fails**, and never else. -/
theorem foreach_right_iff (time : Time T D) (fn : ForeachFn σ T D) (st : σ) {n : Nat}
    {w : Watch T D m} (hcounter : w.nextStamp = n) (hroom : n ≤ m) :
    ForeachRight time fn n st w ↔ n = 0 ∨ FailsAtOnce time fn st w := by
  rcases Nat.eq_zero_or_pos n with rfl | hpos
  · obtain ⟨e, hread⟩ := readStamp_endOf time (w := w) (i := 0) (.inr (Int.le_of_eq hcounter))
    refine ⟨fun _ => .inl rfl, fun _ => ⟨1, [], st, { w with ts := none }, ?_, ?_⟩⟩
    · rw [inaStopwatchForeachStamp, foreachLoop, hread]
    · exact ⟨rfl, Nat.le_refl 0, nofun, nofun⟩
  · rw [or_iff_right (Nat.ne_of_gt hpos)]
    constructor
    · rintro ⟨fuel, visits, st', w', hrun, hvisited⟩
      obtain ⟨hne, hzero, hfails⟩ := foreachLoop_visits time fn hpos hroom hcounter hrun
      exact hfails (hvisited.length_eq_one hne hzero)
    · rintro ⟨ts, e, hstamp, hrc⟩
      obtain ⟨ts', w', -, hstamp', hturn⟩ := foreachLoop_turn time fn hpos hroom 0 st hcounter
      obtain rfl : ts = ts' := Option.some.inj (hstamp.symm.trans hstamp')
      rw [hrc] at hturn
      refine ⟨1, [⟨0, .error e⟩], _, w', hturn, rfl, hpos, nofun, ?_⟩
      exact fun _ => ⟨_, e, rfl, rfl⟩

/-- A callback that refuses the first stamp of one. -/
theorem foreach_right_iff_refused :
    ForeachRight ticks (fun (st : Unit) ts => (.error .invalid, st, ts)) 1 ()
      { twoSlots with nextStamp := 1 } := by
  refine (foreach_right_iff ticks _ () (w := { twoSlots with nextStamp := 1 }) rfl
    (by decide)).mpr (.inr ?_)
  exact ⟨_, .invalid, rfl, rfl⟩

/-- One stamp, and a callback that always succeeds: the walk does not end. -/
theorem foreach_never_ends : ¬ ∀ (m n : Nat) (time : Time Nat Nat) (fn : ForeachFn Unit Nat Nat)
    (st : Unit) (w : Watch Nat Nat m), w.nextStamp = n → n ≤ m → ForeachRight time fn n st w := by
  intro h
  obtain ⟨fuel, visits, st', w', hrun, hvisited⟩ := h 2 1 ticks (fun st ts => (.ok (), st, ts)) ()
    { twoSlots with nextStamp := 1 } rfl (by decide)
  obtain ⟨hne, hzero, hfails⟩ := foreachLoop_visits ticks _ (n := 1) Nat.one_pos (by decide)
    rfl hrun
  obtain ⟨ts, e, -, hrc⟩ := hfails (hvisited.length_eq_one hne hzero)
  exact nomatch hrc

end Stopwatch
end Inac
