import Inac.Lib.Buf
import Inac.Lib.Grid

/-!
# Recording and reporting a benchmark (`src/bench.c`)

`ina_bench_run` walks a pointer through one array of results: one slot for every iteration of every
repetition of every series, those of the warm-up included. The report computes the place of a value
from the numbers of its series, its repetition and its iteration, and the array is sized by a third
formula, in which the warm-up does not occur.

A `double` is its bit pattern: what is reported without aggregation is what was recorded. `int`
arithmetic that overflows is undefined, and so is a write outside of the array.

So the report can only be right where the three formulas agree (`Agree`). The proof has a list of
the values in the order in which they are recorded, the slot of each in that list, and the index
that the report computes; they are the same number for every cell in few benchmarks only.
-/

namespace Inac
namespace Bench

open Lib

/-! ## The numbers of a benchmark

Each is an `int`, and only that of the warm-up may be zero. -/

/-- `__INA_MAX_SERIES`. -/
def maxSeries : Nat := 64

/-- The number of series of a benchmark, and the three counts that are given for all of them. -/
structure Counts where
  series : Nat
  xrepeat : Nat
  xiter : Nat
  xwarmupIter : Nat
  series_mem : 1 ≤ series ∧ series ≤ maxSeries
  xrepeat_mem : 1 ≤ xrepeat ∧ xrepeat < 2 ^ 31
  xiter_mem : 1 ≤ xiter ∧ xiter < 2 ^ 31
  xwarmupIter_lt : xwarmupIter < 2 ^ 31

/-- The value of an `int` expression. -/
def int (x : Nat) : Option Nat := if x < 2 ^ 31 then some x else none

/-- `__xiter+__xwarmup_iter`, the bound of the loops on both sides. -/
def iterations (c : Counts) : Option Nat := int (c.xiter + c.xwarmupIter)

/-! ## Recording

Three nested loops, with one pointer that only goes forward. -/

/-- What a series sets in an iteration of a repetition. -/
abbrev Recorded := Nat → Nat → Nat → UInt64

/-- `__results`, where nothing was written yet is `none`, and the distance of `__current_result`
    from it. -/
structure Results where
  results : List (Option UInt64)
  currentResult : Nat
  deriving DecidableEq, Repr

/-- `sizeof(double) * __xiter * __xrepeat * __INA_MAX_SERIES` bytes, in `size_t`. -/
def alloc (c : Counts) : Results :=
  ⟨List.replicate (8 * c.xiter * c.xrepeat * maxSeries % 2 ^ 64 / 8) none, 0⟩

/-- `ina_bench_set_value`. -/
def setValue (s : Results) (value : UInt64) : Option Results :=
  (store s.results s.currentResult [some value]).map fun results => { s with results := results }

/-- One iteration: the benchmark sets its value, and the pointer moves on. -/
def runIteration (s : Results) (value : UInt64) : Option Results :=
  (setValue s value).map fun s => { s with currentResult := s.currentResult + 1 }

/-- The loop over the iterations of a repetition. -/
def runRepetition (c : Counts) (values : Nat → UInt64) (s : Results) : Option Results :=
  (iterations c).bind fun n => (List.range n).foldlM (fun s ic => runIteration s (values ic)) s

/-- The loop over the repetitions of a series. -/
def runSeries (c : Counts) (values : Nat → Nat → UInt64) (s : Results) : Option Results :=
  (List.range c.xrepeat).foldlM (fun s rc => runRepetition c (values rc) s) s

/-- `ina_bench_run` for the series of one benchmark. -/
def benchRun (c : Counts) (values : Recorded) : Option Results :=
  (List.range c.series).foldlM (fun s i => runSeries c (values i) s) (alloc c)

/-! ## Reporting

The three loops of the report, which go over repetitions, iterations and series. -/

/-- `(i*xiter)+(xiter*k)+j`. -/
def index (c : Counts) (k j i : Nat) : Option Nat := do
  let a ← int (i * c.xiter)
  let b ← int (c.xiter * k)
  let ab ← int (a + b)
  int (ab + j)

/-- `result[index]`; `none` when that is no value. -/
def cell (c : Counts) (results : List (Option UInt64)) (k j i : Nat) : Option UInt64 :=
  (index c k j i).bind fun x => results[x]?.join

/-- The repetition and the iteration of each line of the report, `n` the bound of the loop. -/
def lines (c : Counts) (n : Nat) : List (Nat × Nat) :=
  (List.range c.xrepeat).flatMap fun k =>
    ((List.range n).filter fun j => ¬ j < c.xwarmupIter).map fun j => (k, j)

/-- `__ina_write_report` with `aggregate` 0: the cells of each line. -/
def writeReport (c : Counts) (results : List (Option UInt64)) :
    Option (List (List (Option UInt64))) :=
  (iterations c).map fun n => (lines c n).map fun l =>
    (List.range c.series).map fun i => cell c results l.1 l.2 i

/-! ## What the report should show

In each line the value that each series has recorded for it. -/

/-- The line of each repetition and iteration shows what each series recorded there. -/
def table (c : Counts) (n : Nat) (values : Recorded) : List (List (Option UInt64)) :=
  (lines c n).map fun l => (List.range c.series).map fun i => some (values i l.1 l.2)

/-- All values are recorded inside of the array, and the report shows each in its cell. -/
def Reported (c : Counts) (values : Recorded) : Prop :=
  ∃ n s, iterations c = some n ∧ benchRun c values = some s ∧
    writeReport c s.results = some (table c n values)

/-- When the three formulas agree: without a warm-up, for one series or one repetition, as long as
    an `int` counts the slots; with one, for one series of one repetition, up to 63 iterations of
    warm-up for each iteration. -/
def Agree (c : Counts) : Prop :=
  c.xiter + c.xwarmupIter < 2 ^ 31 ∧
    ((c.xwarmupIter = 0 ∧ (c.series = 1 ∨ c.xrepeat = 1) ∧
        c.series * c.xrepeat * c.xiter ≤ 2 ^ 31) ∨
      (c.series = 1 ∧ c.xrepeat = 1 ∧ c.xwarmupIter ≤ 63 * c.xiter))

/-! ## The order of the writes

The nested loops write the values in their order, so the slot of a value is its place in the order.
-/

/-- What is recorded, in order. -/
def inOrder (c : Counts) (n : Nat) (values : Recorded) : List UInt64 :=
  (List.range c.series).flatMap fun i => (List.range c.xrepeat).flatMap fun k =>
    (List.range n).map fun j => values i k j

/-- Where the series `i` records iteration `j` of its repetition `k`. -/
def slot (c : Counts) (n k j i : Nat) : Nat := i * (c.xrepeat * n) + (k * n + j)

theorem foldlM_flatMap {σ α β : Type} (g : σ → β → Option σ) (f : α → List β) (l : List α)
    (s : σ) : (l.flatMap f).foldlM g s = l.foldlM (fun s a => (f a).foldlM g s) s := by
  induction l generalizing s with
  | nil => rfl
  | cons a l ih =>
    rw [List.flatMap_cons, List.foldlM_append, List.foldlM_cons]
    exact congrArg _ (funext ih)

/-- The nested loops are one loop over the values in order. -/
theorem benchRun_eq {c : Counts} {n : Nat} (hn : iterations c = some n) (values : Recorded) :
    benchRun c values = (inOrder c n values).foldlM runIteration (alloc c) := by
  simp only [benchRun, runSeries, runRepetition, hn, Option.bind_some, inOrder, foldlM_flatMap,
    List.foldlM_map]

/-- A loop that records fills the slots in front of the pointer, and needs as many as it records. -/
theorem foldlM_runIteration (vs : List UInt64) (front rest : List (Option UInt64)) :
    vs.foldlM runIteration ⟨front ++ rest, front.length⟩ =
      if vs.length ≤ rest.length then
        some ⟨front ++ vs.map some ++ rest.drop vs.length, front.length + vs.length⟩
      else none := by
  induction vs generalizing front rest with
  | nil => simp
  | cons v vs ih =>
    -- No slot is left, or the value goes to the next one.
    cases rest with
    | nil =>
      simp only [List.foldlM_cons, runIteration, setValue, List.append_nil, store_singleton_end]
      rfl
    | cons r rest =>
      have hstep : runIteration ⟨front ++ r :: rest, front.length⟩ v =
          some ⟨(front ++ [some v]) ++ rest, (front ++ [some v]).length⟩ := by
        simp only [runIteration, setValue, store_singleton]
        simp
      rw [List.foldlM_cons, hstep, Option.bind_eq_bind, Option.bind_some, ih]
      simp [Nat.add_assoc, Nat.add_comm 1]

theorem length_inOrder (c : Counts) (n : Nat) (values : Recorded) :
    (inOrder c n values).length = c.series * (c.xrepeat * n) :=
  length_flatMap_range fun _ _ => length_flatMap_range fun _ _ => by simp

theorem inOrder_slot {c : Counts} {n i k j : Nat} (values : Recorded) (hi : i < c.series)
    (hk : k < c.xrepeat) (hj : j < n) :
    (inOrder c n values)[slot c n k j i]? = some (values i k j) := by
  have hinner : ∀ i' k' : Nat, ((List.range n).map fun j => values i' k' j).length = n :=
    fun i' k' => by simp
  have hbelow : k * n + j < c.xrepeat * n := by
    calc k * n + j < k * n + n := Nat.add_lt_add_left hj _
      _ = (k + 1) * n := (Nat.succ_mul k n).symm
      _ ≤ c.xrepeat * n := Nat.mul_le_mul_right n hk
  rw [inOrder, slot, getElem?_flatMap_range (fun _ _ => length_flatMap_range fun _ _ => hinner _ _)
    hi hbelow, getElem?_flatMap_range (fun _ _ => hinner _ _) hk hj]
  simp [hj]

/-! ## The cells

A cell is right for all values only if the index is the slot of the value. This is shown with a
benchmark that records one value different from all the others. -/

/-- The length of the array. -/
def room (c : Counts) : Nat := 8 * c.xiter * c.xrepeat * maxSeries % 2 ^ 64 / 8

/-- The run is defined exactly when there is a slot for every value. -/
theorem benchRun_iff {c : Counts} {n : Nat} (hn : iterations c = some n) (values : Recorded)
    (s : Results) :
    benchRun c values = some s ↔ c.series * (c.xrepeat * n) ≤ room c ∧
      s = ⟨(inOrder c n values).map some ++
        List.replicate (room c - c.series * (c.xrepeat * n)) none, c.series * (c.xrepeat * n)⟩ := by
  have h := foldlM_runIteration (inOrder c n values) [] (List.replicate (room c) none)
  simp only [List.nil_append, List.length_nil, Nat.zero_add, List.length_replicate,
    length_inOrder, List.drop_replicate] at h
  rw [benchRun_eq hn]
  by_cases hroom : c.series * (c.xrepeat * n) ≤ room c
  · rw [if_pos hroom] at h
    rw [show alloc c = ⟨List.replicate (room c) none, 0⟩ from rfl, h]
    simp [hroom, eq_comm]
  · rw [if_neg hroom] at h
    rw [show alloc c = ⟨List.replicate (room c) none, 0⟩ from rfl, h]
    simp [hroom]

/-- A cell shows the value its place in the order has. -/
theorem cell_eq (c : Counts) (vs : List UInt64) (m k j i : Nat) :
    cell c (vs.map some ++ List.replicate m none) k j i = (index c k j i).bind (vs[·]?) := by
  unfold cell
  congr 1
  funext x
  by_cases hx : x < vs.length
  · rw [List.getElem?_append_left (by simpa using hx)]
    simp [hx]
  · rw [List.getElem?_append_right (by simpa using hx)]
    simp only [List.length_map, List.getElem?_replicate, List.getElem?_eq_none (Nat.not_lt.mp hx)]
    split <;> rfl

theorem mem_lines {c : Counts} {n k j : Nat} :
    (k, j) ∈ lines c n ↔ k < c.xrepeat ∧ c.xwarmupIter ≤ j ∧ j < n := by
  simp [lines, and_comm]

/-- A report is right when every cell of it is. -/
theorem reported_iff (c : Counts) (values : Recorded) :
    Reported c values ↔ ∃ n, iterations c = some n ∧ c.series * (c.xrepeat * n) ≤ room c ∧
      ∀ k j i, (k, j) ∈ lines c n → i < c.series →
        (index c k j i).bind ((inOrder c n values)[·]?) = some (values i k j) := by
  unfold Reported
  refine exists_congr fun n => ?_
  constructor
  · rintro ⟨s, hn, hrun, hreport⟩
    obtain ⟨hroom, rfl⟩ := (benchRun_iff hn values s).mp hrun
    refine ⟨hn, hroom, fun k j i hline hi => ?_⟩
    simp only [writeReport, hn, Option.map_some, table, Option.some.injEq,
      List.map_inj_left, List.mem_range, cell_eq] at hreport
    exact hreport (k, j) hline i hi
  · rintro ⟨hn, hroom, hcells⟩
    refine ⟨_, hn, (benchRun_iff hn values _).mpr ⟨hroom, rfl⟩, ?_⟩
    simp only [writeReport, hn, Option.map_some, table, Option.some.injEq,
      List.map_inj_left, List.mem_range, cell_eq]
    exact fun l hline i hi => hcells l.1 l.2 i hline hi

/-- The value of one slot alone. -/
def only (i k j : Nat) : Recorded := fun i' k' j' => if (i', k', j') = (i, k, j) then 1 else 0

/-- A place that has the value of every slot `(k, j, i)` is that slot. -/
theorem eq_slot {c : Counts} {n k j i x : Nat}
    (h : (inOrder c n (only i k j))[x]? = some 1) : x = slot c n k j i := by
  have hx : x < c.series * (c.xrepeat * n) := by
    rw [← length_inOrder c n (only i k j)]
    exact (List.getElem?_eq_some_iff.mp h).1
  obtain ⟨i', y, hi, hy, rfl⟩ := exists_row hx
  obtain ⟨k', j', hk, hj, rfl⟩ := exists_row hy
  have hvalue := inOrder_slot (only i k j) hi hk hj
  rw [slot, h] at hvalue
  by_cases heq : (i', k', j') = (i, k, j)
  · cases heq
    rfl
  · simp [only, heq] at hvalue

/-- All reports are right when there is room and the index is always the slot. -/
theorem all_reported_iff (c : Counts) :
    (∀ values, Reported c values) ↔ ∃ n, iterations c = some n ∧
      c.series * (c.xrepeat * n) ≤ room c ∧
      ∀ k j i, (k, j) ∈ lines c n → i < c.series → index c k j i = some (slot c n k j i) := by
  constructor
  · intro h
    obtain ⟨n, hn, hroom, -⟩ := (reported_iff c (only 0 0 0)).mp (h _)
    refine ⟨n, hn, hroom, fun k j i hline hi => ?_⟩
    obtain ⟨n', hn', -, hcells⟩ := (reported_iff c (only i k j)).mp (h _)
    obtain rfl : n = n' := Option.some.inj (hn.symm.trans hn')
    have hcell := hcells k j i hline hi
    obtain ⟨x, hx, hvalue⟩ := Option.bind_eq_some_iff.mp hcell
    have hslot : x = slot c n k j i := eq_slot (by simpa [only] using hvalue)
    rw [hx, hslot]
  · rintro ⟨n, hn, hroom, hindex⟩ values
    refine (reported_iff c values).mpr ⟨n, hn, hroom, fun k j i hline hi => ?_⟩
    obtain ⟨hk, -, hj⟩ := mem_lines.mp hline
    rw [hindex k j i hline hi, Option.bind_some]
    exact inOrder_slot values hi hk hj

/-! ## The numbers

When the index is the slot, in terms of the counts. -/

theorem int_eq_some {x y : Nat} : int x = some y ↔ x < 2 ^ 31 ∧ x = y := by
  unfold int
  split <;> simp_all

theorem index_eq_some {c : Counts} {k j i x : Nat} :
    index c k j i = some x ↔
      i * c.xiter + c.xiter * k + j < 2 ^ 31 ∧ i * c.xiter + c.xiter * k + j = x := by
  simp only [index, Option.bind_eq_bind, Option.bind_eq_some_iff, int_eq_some]
  constructor
  · rintro ⟨_, ⟨-, rfl⟩, _, ⟨-, rfl⟩, _, ⟨-, rfl⟩, h⟩
    exact h
  · rintro ⟨hlt, rfl⟩
    exact ⟨_, ⟨by omega, rfl⟩, _, ⟨by omega, rfl⟩, _, ⟨by omega, rfl⟩, hlt, rfl⟩

/-- The array has 64 slots for each iteration as long as its size in bytes does not wrap. -/
theorem room_eq {c : Counts} (h : c.xrepeat * c.xiter ≤ 2 ^ 31) :
    room c = 64 * (c.xrepeat * c.xiter) := by
  have hbytes : 8 * c.xiter * c.xrepeat * maxSeries = 8 * (64 * (c.xrepeat * c.xiter)) := by
    rw [Nat.mul_assoc 8, Nat.mul_comm c.xiter, Nat.mul_assoc, Nat.mul_comm _ maxSeries, maxSeries]
  rw [room, hbytes, Nat.mod_eq_of_lt (by omega), Nat.mul_div_cancel_left _ (by decide)]

/-- Where the index is the slot for all cells. -/
def IndexIsSlot (c : Counts) (n : Nat) : Prop :=
  ∀ k j i, (k, j) ∈ lines c n → i < c.series →
    i * c.xiter + c.xiter * k + j < 2 ^ 31 ∧ i * c.xiter + c.xiter * k + j = slot c n k j i

theorem lt_of_mem {m n k j : Nat} (hk : k < m) (hj : j < n) : n * k + j < m * n := by
  calc n * k + j < n * k + n := Nat.add_lt_add_left hj _
    _ = (k + 1) * n := by rw [Nat.succ_mul, Nat.mul_comm]
    _ ≤ m * n := Nat.mul_le_mul_right n hk

/-- One series or one repetition, with no warm-up counted in. -/
theorem agree_plain {c : Counts} (hone : c.series = 1 ∨ c.xrepeat = 1)
    (hint : c.series * c.xrepeat * c.xiter ≤ 2 ^ 31) :
    c.series * (c.xrepeat * c.xiter) ≤ room c ∧ IndexIsSlot c c.xiter := by
  have hle : c.xrepeat * c.xiter ≤ c.series * c.xrepeat * c.xiter := by
    rw [Nat.mul_assoc]
    exact Nat.le_mul_of_pos_left _ c.series_mem.1
  constructor
  · rw [room_eq (Nat.le_trans hle hint)]
    exact Nat.mul_le_mul_right _ c.series_mem.2
  · intro k j i hline hi
    obtain ⟨hk, -, hj⟩ := mem_lines.mp hline
    rcases hone with hseries | hrepeat
    · obtain rfl : i = 0 := by omega
      rw [hseries, Nat.one_mul] at hint
      have hlt := lt_of_mem hk hj
      simp only [slot, Nat.zero_mul, Nat.zero_add, Nat.mul_comm k]
      exact ⟨Nat.lt_of_lt_of_le hlt hint, trivial⟩
    · obtain rfl : k = 0 := by omega
      rw [hrepeat, Nat.mul_one] at hint
      have hlt := lt_of_mem hi hj
      simp only [slot, hrepeat, Nat.one_mul, Nat.mul_zero, Nat.zero_mul, Nat.add_zero,
        Nat.zero_add, Nat.mul_comm i]
      exact ⟨Nat.lt_of_lt_of_le hlt hint, trivial⟩

/-- One series of one repetition. -/
theorem agree_single {c : Counts} (hseries : c.series = 1) (hrepeat : c.xrepeat = 1)
    (hint : c.xiter + c.xwarmupIter < 2 ^ 31) :
    (c.series * (c.xrepeat * (c.xiter + c.xwarmupIter)) ≤ room c ↔
        c.xwarmupIter ≤ 63 * c.xiter) ∧
      IndexIsSlot c (c.xiter + c.xwarmupIter) := by
  constructor
  · rw [room_eq (by rw [hrepeat, Nat.one_mul]; omega), hseries, hrepeat]
    omega
  · intro k j i hline hi
    obtain ⟨hk, -, hj⟩ := mem_lines.mp hline
    obtain rfl : i = 0 := by omega
    obtain rfl : k = 0 := by omega
    simp only [slot, Nat.zero_mul, Nat.mul_zero, Nat.zero_add, and_true]
    omega

/-- What two repetitions and what two series have to do with the warm-up. -/
theorem warmup_of_indexIsSlot {c : Counts} (h : IndexIsSlot c (c.xiter + c.xwarmupIter)) :
    (2 ≤ c.xrepeat → c.xwarmupIter = 0) ∧
      (2 ≤ c.series → c.xrepeat = 1 ∧ c.xwarmupIter = 0) := by
  have hiter := c.xiter_mem.1
  constructor
  · intro hrepeat
    have hcell := (h 1 c.xwarmupIter 0 (mem_lines.mpr ⟨by omega, by omega, by omega⟩)
      c.series_mem.1).2
    simp only [slot] at hcell
    omega
  · intro hseries
    have hcell := (h 0 c.xwarmupIter 1 (mem_lines.mpr ⟨c.xrepeat_mem.1, by omega, by omega⟩)
      hseries).2
    simp only [slot, Nat.one_mul, Nat.mul_zero, Nat.zero_mul, Nat.add_zero, Nat.zero_add] at hcell
    have hone : c.xrepeat = 1 := by
      refine Nat.le_antisymm (Nat.not_lt.mp fun htwo => ?_) c.xrepeat_mem.1
      have := Nat.mul_le_mul_right (c.xiter + c.xwarmupIter) htwo
      omega
    rw [hone] at hcell
    exact ⟨hone, by omega⟩

/-- The index of the last cell is an `int`. -/
theorem int_of_indexIsSlot {c : Counts} (h : IndexIsSlot c c.xiter) (hwarm : c.xwarmupIter = 0)
    (hone : c.series = 1 ∨ c.xrepeat = 1) : c.series * c.xrepeat * c.xiter ≤ 2 ^ 31 := by
  have hiter := c.xiter_mem.1
  have hrepeat := c.xrepeat_mem.1
  have hseries := c.series_mem.1
  have hline : (c.xrepeat - 1, c.xiter - 1) ∈ lines c c.xiter :=
    mem_lines.mpr ⟨by omega, by omega, by omega⟩
  have hlast := (h _ _ (c.series - 1) hline (by omega)).1
  -- With one series the last cell is that of the last repetition, with one repetition that of the
  -- last series.
  rcases hone with hseries | hrepeat
  · rw [hseries] at hlast
    rw [hseries, Nat.one_mul]
    rw [Nat.mul_sub, Nat.mul_comm c.xiter] at hlast
    have := Nat.le_mul_of_pos_left c.xiter hrepeat
    omega
  · rw [hrepeat] at hlast
    rw [hrepeat, Nat.mul_one]
    rw [Nat.sub_mul] at hlast
    have := Nat.le_mul_of_pos_left c.xiter hseries
    omega

/-- **Which benchmarks are reported rightly**, whatever is recorded. -/
theorem all_reported_iff_agree (c : Counts) : (∀ values, Reported c values) ↔ Agree c := by
  have hindex : ∀ n, (∀ k j i, (k, j) ∈ lines c n → i < c.series →
      index c k j i = some (slot c n k j i)) ↔ IndexIsSlot c n := fun n => by
    simp only [index_eq_some, IndexIsSlot]
  simp only [all_reported_iff, hindex, iterations, int_eq_some, Agree]
  constructor
  · rintro ⟨_, ⟨hint, rfl⟩, hroom, hslots⟩
    obtain ⟨hrepeats, hseries⟩ := warmup_of_indexIsSlot hslots
    refine ⟨hint, ?_⟩
    -- One series of one repetition has its own bound; all others have no warm-up.
    by_cases hsingle : c.series = 1 ∧ c.xrepeat = 1
    · exact .inr ⟨hsingle.1, hsingle.2,
        (agree_single hsingle.1 hsingle.2 hint).1.mp hroom⟩
    · have hrange := c.series_mem.1
      have hrange' := c.xrepeat_mem.1
      have hwarm : c.xwarmupIter = 0 := by
        by_cases htwo : 2 ≤ c.xrepeat
        · exact hrepeats htwo
        · exact (hseries (by omega)).2
      have hone : c.series = 1 ∨ c.xrepeat = 1 := by
        by_cases htwo : 2 ≤ c.series
        · exact .inr (hseries htwo).1
        · exact .inl (by omega)
      rw [hwarm, Nat.add_zero] at hslots
      exact .inl ⟨hwarm, hone, int_of_indexIsSlot hslots hwarm hone⟩
  · rintro ⟨hint, ⟨hwarm, hone, hbound⟩ | ⟨hseries, hrepeat, hwarm⟩⟩
    · refine ⟨_, ⟨hint, rfl⟩, ?_⟩
      rw [hwarm, Nat.add_zero]
      exact agree_plain hone hbound
    · obtain ⟨hroom, hslots⟩ := agree_single hseries hrepeat hint
      exact ⟨_, ⟨hint, rfl⟩, hroom.mpr hwarm, hslots⟩

/-- Two series with two repetitions of one iteration each. -/
def twoByTwo : Counts where
  series := 2
  xrepeat := 2
  xiter := 1
  xwarmupIter := 0
  series_mem := by decide
  xrepeat_mem := by decide
  xiter_mem := by decide
  xwarmupIter_lt := by decide

/-- The second series is reported one repetition too early: its first cell shows the second
    repetition of the first series. -/
theorem second_series_misreported :
    ¬ Reported twoByTwo (fun i k _ => if i = 0 ∧ k = 1 then 7 else 5) := by
  rw [reported_iff]
  rintro ⟨n, hn, -, hcells⟩
  obtain rfl : n = 1 := (Option.some.inj hn).symm
  have hcell := hcells 0 0 1 (by decide) (by decide)
  revert hcell
  decide

end Bench
end Inac
