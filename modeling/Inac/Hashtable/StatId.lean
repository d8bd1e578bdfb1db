import Mathlib.Data.List.Basic
import Mathlib.Data.List.Nodup
import Inac.Lib.Run

/-!
# The ids of tables with statistics

A table made with `INA_HASHTABLE_CF_STAT` gets an id of 1..16, under which it reports its events.
The ids in use are marked in the array `__hashtable_id`: `__ina_set_hashtable_id` takes the first
entry that is not marked, and **entry `id - 1`** is the mark of `id`. `ina_hashtable_free` clears
**entry `id`**. So a table that is freed leaves its own mark behind and clears the mark of the next
id, or, with id 16, writes behind the array; a table without statistics has id 0 and clears the mark
of id 1. The scan reads the entry before it compares the index with the length, so over a full array
it reads the entry behind the last.

Nothing else of a table matters here. How far `ina_hashtable_new` gets is a parameter (`Fate`): it
gives up in four places, and they treat the array in different ways.
-/

namespace Inac
namespace StatId

open Lib

def maxStatTables : Nat := 16  -- `INA_HASHTABLE_MAX_STAT_TABLES`

/-- What `ina_hashtable_free` needs of a table: `cf & INA_HASHTABLE_CF_STAT`, and `id`. -/
structure Tab where
  stat : Bool
  id : Nat
  deriving DecidableEq, Repr

/-- `__hashtable_id`, an entry being zero or not, and the tables that are not freed yet. -/
structure Registry where
  marks : List Bool
  live : List Tab
  deriving DecidableEq, Repr

/-- The program starts with no table and no mark. -/
def start : Registry := ⟨List.replicate maxStatTables false, []⟩

/-- How far `ina_hashtable_new` gets. The bucket array always fits into a pool that has just been
    made for it. -/
inductive Fate where
  | noTable  -- no memory for the table, or its key type is not known
  | noPool  -- `ina_mempool_new` fails
  | noProducer  -- `INA_ULLC_PRODUCER_NEW` fails, for a table with statistics
  | noClock  -- `ina_time_tsc_new` fails, for a table with statistics
  | done
  deriving DecidableEq, Repr

inductive Call where
  | new (stat : Bool) (fate : Fate)
  | free (i : Nat)  -- of the `i`-th table that is not freed yet
  deriving DecidableEq, Repr

/-- How a call ends. -/
inductive Made where
  | ok
  | refused  -- `INA_ERR_EXCEEDED`
  | failed
  deriving DecidableEq, Repr

/-- The outcome of a call, and the entries of `__hashtable_id` it reads or writes. -/
structure Result where
  made : Made
  accesses : List Nat
  deriving DecidableEq, Repr

/-- The loop of `__ina_set_hashtable_id`, with the entries from `id` on. It stops at the end
    whatever stands behind the array. -/
def scanIds : List Bool → Nat → Nat
  | [], id => id
  | m :: rest, id => if m then scanIds rest (id + 1) else id

/-- `__ina_set_hashtable_id`: the id, if there is one, the marks, and the entries accessed. -/
def inaSetHashtableId (marks : List Bool) : Option Nat × List Bool × List Nat :=
  let id := scanIds marks 0
  let read := List.range (id + 1)
  if id + 1 > maxStatTables then (none, marks, read)
  else (some (id + 1), marks.set id true, read ++ [id])

def inaHashtableNew (s : Registry) (stat : Bool) (fate : Fate) : Result × Registry :=
  match fate, stat with
  | .noTable, _ => (⟨.failed, []⟩, s)
  -- the table is freed before it has an id
  | .noPool, _ => (⟨.failed, [0]⟩, { s with marks := s.marks.set 0 false })
  | _, false => (⟨.ok, []⟩, { s with live := s.live ++ [⟨false, 0⟩] })
  | fate, true =>
    match inaSetHashtableId s.marks with
    | (none, marks, acc) => (⟨.refused, acc ++ [0]⟩, { s with marks := marks.set 0 false })
    | (some id, marks, acc) =>
      match fate with
      | .noProducer => (⟨.failed, acc ++ [id]⟩, { s with marks := marks.set id false })
      | .noClock => (⟨.failed, acc⟩, { s with marks := marks })
      | _ => (⟨.ok, acc⟩, { marks := marks, live := s.live ++ [⟨true, id⟩] })

/-- `ina_hashtable_free`; with a pointer that is `NULL` it does nothing. -/
def inaHashtableFree (s : Registry) (i : Nat) : Result × Registry :=
  match s.live[i]? with
  | none => (⟨.ok, []⟩, s)
  | some t => (⟨.ok, [t.id]⟩, { marks := s.marks.set t.id false, live := s.live.eraseIdx i })

def step (s : Registry) : Call → Result × Registry
  | .new stat fate => inaHashtableNew s stat fate
  | .free i => inaHashtableFree s i

/-! ## What the array is for

Ids are to be distinct and in range, a call is to stay inside the array, and a table is refused an
id only if all are in use. -/

/-- The ids of the live tables with statistics. -/
def Registry.ids (s : Registry) : List Nat := (s.live.filter Tab.stat).map Tab.id

structure IdsOk (s : Registry) : Prop where
  distinct : s.ids.Nodup
  range : ∀ id ∈ s.ids, 1 ≤ id ∧ id ≤ maxStatTables

/-- A call stays inside the array, and refuses a table only if all ids are in use. -/
structure CallOk (s : Registry) (c : Call) : Prop where
  inside : ∀ i ∈ (step s c).1.accesses, i < maxStatTables
  refused : (step s c).1.made = .refused → s.ids.length = maxStatTables

/-! ## Where it goes wrong

Two things on the state before a call: it would clear an entry that is not to be cleared, or it
would look for an id where all entries are marked, though perhaps by tables that are long gone. -/

/-- Entry `i` is behind the array, or the mark of a live table. -/
def Registry.NotToClear (s : Registry) (i : Nat) : Prop := maxStatTables ≤ i ∨ i + 1 ∈ s.ids

instance (s : Registry) (i : Nat) : Decidable (s.NotToClear i) :=
  inferInstanceAs (Decidable (_ ∨ _))

/-- All entries are marked. -/
def Registry.Full (s : Registry) : Prop := ∀ m ∈ s.marks, m = true

instance (s : Registry) : Decidable s.Full := inferInstanceAs (Decidable (∀ m ∈ s.marks, m = true))

/-- The call clears an entry it must not clear, or looks for an id where all are marked. -/
def Misplaced (s : Registry) : Call → Prop
  | .new _ .noTable => False
  | .new _ .noPool => s.NotToClear 0
  | .new false _ => False
  | .new true .noProducer => s.Full ∨ s.NotToClear (scanIds s.marks 0 + 1)
  | .new true _ => s.Full
  | .free i => ∃ t ∈ s.live[i]?, s.NotToClear t.id

/-! ## The scan -/

theorem scanIds_spec (marks : List Bool) (id : Nat) (h : ¬ ∀ m ∈ marks, m = true) :
    ∃ k, scanIds marks id = id + k ∧ marks[k]? = some false := by
  induction marks generalizing id with
  | nil => exact absurd (by simp) h
  | cons m rest ih =>
    rw [scanIds]
    cases m with
    | false => exact ⟨0, rfl, rfl⟩
    | true =>
      have hrest : ¬ ∀ m ∈ rest, m = true := by
        intro hall
        refine h fun m hm => ?_
        rcases List.mem_cons.mp hm with rfl | hm
        · rfl
        · exact hall m hm
      obtain ⟨k, hk, hfalse⟩ := ih (id + 1) hrest
      refine ⟨k + 1, ?_, hfalse⟩
      rw [if_pos rfl, hk, Nat.add_assoc, Nat.add_comm 1 k]

/-! ## The invariant

Marks that belong to nobody may be left behind (`Marked` says nothing of them), and they cost ids
but do no other harm. -/

/-- The ids are distinct and in range, and the mark of each is set. -/
structure Marked (s : Registry) : Prop extends IdsOk s where
  length : s.marks.length = maxStatTables
  marked : ∀ id ∈ s.ids, s.marks[id - 1]? = some true

theorem Marked.start : Marked start := by
  refine ⟨⟨?_, ?_⟩, List.length_replicate, ?_⟩
  · exact List.nodup_nil
  · exact fun id hid => absurd hid List.not_mem_nil
  · exact fun id hid => absurd hid List.not_mem_nil

/-- With a free entry there is an id to be had, and it is nobody's. -/
theorem Marked.setId {s : Registry} (h : Marked s) (hfull : ¬ s.Full) :
    ∃ k, k < maxStatTables ∧ scanIds s.marks 0 = k ∧ k + 1 ∉ s.ids ∧
      inaSetHashtableId s.marks =
        (some (k + 1), s.marks.set k true, List.range (k + 1) ++ [k]) := by
  obtain ⟨k, hk, hfalse⟩ := scanIds_spec s.marks 0 hfull
  rw [Nat.zero_add] at hk
  have hlt : k < maxStatTables := h.length ▸ (List.getElem?_eq_some_iff.mp hfalse).1
  refine ⟨k, hlt, hk, ?_, ?_⟩
  · intro hid
    have hmark := h.marked (k + 1) hid
    rw [Nat.add_sub_cancel, hfalse] at hmark
    exact Bool.noConfusion (Option.some.inj hmark)
  · rw [inaSetHashtableId, hk]
    exact if_neg (Nat.not_lt.mpr hlt)

/-- Clearing an entry that is not to be kept. -/
theorem Marked.clear {s : Registry} (h : Marked s) {i : Nat} (hi : ¬ s.NotToClear i) :
    Marked { s with marks := s.marks.set i false } := by
  refine ⟨⟨h.distinct, h.range⟩, ?_, ?_⟩
  · rw [List.length_set]
    exact h.length
  · intro id hid
    obtain ⟨hpos, -⟩ := h.range id hid
    have hne : i ≠ id - 1 := by
      rintro rfl
      exact hi (.inr (by rw [Nat.sub_add_cancel hpos]; exact hid))
    rw [List.getElem?_set_ne hne]
    exact h.marked id hid

theorem Marked.mark {s : Registry} (h : Marked s) (k : Nat) :
    Marked { s with marks := s.marks.set k true } := by
  refine ⟨⟨h.distinct, h.range⟩, ?_, ?_⟩
  · rw [List.length_set]
    exact h.length
  · intro id hid
    have hmark := h.marked id hid
    by_cases hk : k = id - 1
    · subst hk
      rw [List.getElem?_set_self (List.getElem?_eq_some_iff.mp hmark).1]
    · rw [List.getElem?_set_ne hk]
      exact hmark

/-- A live table goes; the ids that stay keep their marks. -/
theorem Marked.drop {s : Registry} (h : Marked s) (i : Nat) :
    Marked { s with live := s.live.eraseIdx i } := by
  have hsub : (({ s with live := s.live.eraseIdx i } : Registry).ids).Sublist s.ids :=
    ((List.eraseIdx_sublist s.live i).filter Tab.stat).map Tab.id
  exact ⟨⟨h.distinct.sublist hsub, fun id hid => h.range id (hsub.subset hid)⟩, h.length,
    fun id hid => h.marked id (hsub.subset hid)⟩

theorem ids_append (s : Registry) (t : Tab) :
    ({ s with live := s.live ++ [t] } : Registry).ids =
      s.ids ++ if t.stat then [t.id] else [] := by
  rw [Registry.ids, List.filter_append, List.map_append]
  cases hstat : t.stat <;> simp [hstat, Registry.ids]

theorem Marked.addPlain {s : Registry} (h : Marked s) :
    Marked { s with live := s.live ++ [⟨false, 0⟩] } := by
  have hids := ids_append s ⟨false, 0⟩
  rw [if_neg Bool.false_ne_true, List.append_nil] at hids
  exact ⟨⟨by rw [hids]; exact h.distinct, by rw [hids]; exact h.range⟩, h.length,
    by rw [hids]; exact h.marked⟩

/-- A table with statistics comes, under an id that is marked and nobody else's. -/
theorem Marked.addStat {s : Registry} (h : Marked s) {k : Nat} (hk : k < maxStatTables)
    (hnew : k + 1 ∉ s.ids) (hmark : s.marks[k]? = some true) :
    Marked { s with live := s.live ++ [⟨true, k + 1⟩] } := by
  have hids := ids_append s ⟨true, k + 1⟩
  rw [if_pos rfl] at hids
  have hmem : ∀ id ∈ s.ids ++ [k + 1], id ∈ s.ids ∨ id = k + 1 := by
    intro id hid
    rcases List.mem_append.mp hid with hid | hid
    · exact .inl hid
    · exact .inr (List.mem_singleton.mp hid)
  refine ⟨⟨?_, ?_⟩, h.length, ?_⟩
  · rw [hids, List.nodup_append_comm]
    exact List.nodup_cons.mpr ⟨hnew, h.distinct⟩
  · rw [hids]
    intro id hid
    rcases hmem id hid with hid | rfl
    · exact h.range id hid
    · exact ⟨Nat.le_add_left 1 k, hk⟩
  · rw [hids]
    intro id hid
    rcases hmem id hid with hid | rfl
    · exact h.marked id hid
    · exact hmark

/-! ## One call

The places in which `ina_hashtable_new` gives up are cases of their own, as each leaves the marks in
another way: without a table nothing is cleared, without a pool the entry 0, without a producer the
entry behind the one that was marked, and without a clock the mark stays. -/

theorem lt_of_not_notToClear {s : Registry} {i : Nat} (h : ¬ s.NotToClear i) :
    i < maxStatTables := Nat.lt_of_not_le fun hle => h (.inl hle)

/-- A call that accesses these entries and is not a refusal. -/
theorem CallOk.of {s : Registry} {c : Call} {made : Made} {acc : List Nat} {s' : Registry}
    (hstep : step s c = (⟨made, acc⟩, s')) (hmade : made ≠ .refused)
    (hacc : ∀ i ∈ acc, i < maxStatTables) : CallOk s c := by
  refine ⟨?_, ?_⟩
  · rw [hstep]
    exact hacc
  · rw [hstep]
    exact fun hr => absurd hr hmade

theorem range_inside {k : Nat} (hk : k < maxStatTables) :
    ∀ i ∈ List.range (k + 1) ++ [k], i < maxStatTables := by
  intro i hi
  rcases List.mem_append.mp hi with hi | hi
  · exact Nat.lt_of_lt_of_le (List.mem_range.mp hi) hk
  · rw [List.mem_singleton.mp hi]
    exact hk

theorem new_stat_ok {s : Registry} (h : Marked s) {fate : Fate} (hfull : ¬ s.Full)
    (hearly : fate ≠ .noTable ∧ fate ≠ .noPool)
    (hprod : fate = .noProducer → ¬ s.NotToClear (scanIds s.marks 0 + 1)) :
    CallOk s (.new true fate) ∧ Marked (step s (.new true fate)).2 := by
  -- The first entry that is free, with the id that belongs to it.
  obtain ⟨k, hk, hscan, hnew, hset⟩ := h.setId hfull
  have hlen : k < s.marks.length := h.length.symm ▸ hk
  have hinside := range_inside hk
  cases fate with
  | noTable => exact absurd rfl hearly.1
  | noPool => exact absurd rfl hearly.2
  -- The table that could not be made is freed, which clears the entry behind its own.
  | noProducer =>
    have hstep : step s (.new true .noProducer) =
        (⟨.failed, List.range (k + 1) ++ [k] ++ [k + 1]⟩,
          { s with marks := (s.marks.set k true).set (k + 1) false }) := by
      simp only [step, inaHashtableNew, hset]
    have hclear := hprod rfl
    rw [hscan] at hclear
    constructor
    · refine CallOk.of hstep Made.noConfusion fun i hi => ?_
      rcases List.mem_append.mp hi with hi | hi
      · exact hinside i hi
      · rw [List.mem_singleton.mp hi]
        exact lt_of_not_notToClear hclear
    · rw [hstep]
      exact (h.mark k).clear hclear
  | noClock =>
    have hstep : step s (.new true .noClock) =
        (⟨.failed, List.range (k + 1) ++ [k]⟩, { s with marks := s.marks.set k true }) := by
      simp only [step, inaHashtableNew, hset]
    refine ⟨CallOk.of hstep Made.noConfusion hinside, ?_⟩
    rw [hstep]
    exact h.mark k
  | done =>
    have hstep : step s (.new true .done) =
        (⟨.ok, List.range (k + 1) ++ [k]⟩,
          { marks := s.marks.set k true, live := s.live ++ [⟨true, k + 1⟩] }) := by
      simp only [step, inaHashtableNew, hset]
    refine ⟨CallOk.of hstep Made.noConfusion hinside, ?_⟩
    rw [hstep]
    exact (h.mark k).addStat hk hnew (List.getElem?_set_self hlen)

theorem step_ok {s : Registry} {c : Call} (hc : ¬ Misplaced s c) (h : Marked s) :
    CallOk s c ∧ Marked (step s c).2 := by
  have hnone : ∀ i ∈ ([] : List Nat), i < maxStatTables :=
    fun i hi => absurd hi List.not_mem_nil
  cases c with
  | new stat fate =>
    cases fate with
    | noTable => exact ⟨CallOk.of rfl Made.noConfusion hnone, h⟩
    | noPool =>
      refine ⟨CallOk.of rfl Made.noConfusion fun i hi => ?_, h.clear hc⟩
      rw [List.mem_singleton.mp hi]
      exact lt_of_not_notToClear hc
    | noProducer =>
      cases stat with
      | false => exact ⟨CallOk.of rfl Made.noConfusion hnone, h.addPlain⟩
      | true =>
        obtain ⟨hfull, hclear⟩ := not_or.mp hc
        exact new_stat_ok h hfull ⟨Fate.noConfusion, Fate.noConfusion⟩ fun _ => hclear
    | noClock =>
      cases stat with
      | false => exact ⟨CallOk.of rfl Made.noConfusion hnone, h.addPlain⟩
      | true => exact new_stat_ok h hc ⟨Fate.noConfusion, Fate.noConfusion⟩ Fate.noConfusion
    | done =>
      cases stat with
      | false => exact ⟨CallOk.of rfl Made.noConfusion hnone, h.addPlain⟩
      | true => exact new_stat_ok h hc ⟨Fate.noConfusion, Fate.noConfusion⟩ Fate.noConfusion
  | free i =>
    cases hi : s.live[i]? with
    | none =>
      have hstep : step s (.free i) = (⟨.ok, []⟩, s) := by
        simp only [step, inaHashtableFree, hi]
      refine ⟨CallOk.of hstep Made.noConfusion hnone, ?_⟩
      rw [hstep]
      exact h
    | some t =>
      have hstep : step s (.free i) = (⟨.ok, [t.id]⟩,
          { marks := s.marks.set t.id false, live := s.live.eraseIdx i }) := by
        simp only [step, inaHashtableFree, hi]
      -- Freeing clears the entry of the next id, which by `Misplaced` is nobody's.
      have hclear : ¬ s.NotToClear t.id := fun hbad => hc ⟨t, hi, hbad⟩
      constructor
      · refine CallOk.of hstep Made.noConfusion fun j hj => ?_
        rw [List.mem_singleton.mp hj]
        exact lt_of_not_notToClear hclear
      · rw [hstep]
        exact (h.clear hclear).drop i

/-! ## Runs -/

/-- **Ids are right in every run that clears no mark of a live table and never finds the array
    full.** In all its states the ids of the live tables with statistics are distinct and of
    1..16; all its calls stay inside the array, and refuse a table only if 16 are live. -/
theorem stat_ids_run (calls : List Call) (hcalls : Never step Misplaced start calls) :
    Always step IdsOk start calls ∧ Along step CallOk start calls := by
  constructor
  · intro pre hpre
    have hall : Always step Marked start calls :=
      always_of_never (I := Marked) (fun s c hc h => (step_ok hc h).2) hcalls Marked.start
    exact (hall pre hpre).toIdsOk
  · exact along_of_never (A := fun _ => True) (fun s c _ hc h => step_ok hc h)
      (fun _ _ => trivial) hcalls Marked.start

/-- Two tables with statistics, a plain one freed before they are made, and the last one freed
    first. -/
theorem stat_ids_run_nested :
    Never step Misplaced start [.new false .done, .free 0, .new true .done, .new true .done,
      .free 1] ∧
      IdsOk (exec step start [.new false .done, .free 0, .new true .done, .new true .done,
        .free 1]) := by
  have hcalls : Never step Misplaced start [.new false .done, .free 0, .new true .done,
      .new true .done, .free 1] := by
    refine ⟨id, ?_, ?_, ?_, ?_, trivial⟩
    · rintro ⟨t, ht, hbad⟩
      obtain rfl : (⟨false, 0⟩ : Tab) = t := Option.some.inj ht
      revert hbad
      decide
    · show ¬ Registry.Full _
      decide
    · show ¬ Registry.Full _
      decide
    · rintro ⟨t, ht, hbad⟩
      obtain rfl : (⟨true, 2⟩ : Tab) = t := Option.some.inj ht
      revert hbad
      decide
  exact ⟨hcalls, (stat_ids_run _ hcalls).1 _ List.prefix_rfl⟩

/-- A plain table is freed while a table with statistics is live, and the next table with
    statistics gets the same id. -/
theorem stat_ids_collide :
    (exec step start [.new true .done, .new false .done, .free 1, .new true .done]).ids = [1, 1] ∧
      ¬ Always step IdsOk start [.new true .done, .new false .done, .free 1, .new true .done] := by
  have hids : (exec step start [.new true .done, .new false .done, .free 1,
      .new true .done]).ids = [1, 1] := by decide
  refine ⟨hids, ?_⟩
  intro hall
  have hdistinct := (hall _ List.prefix_rfl).distinct
  rw [hids] at hdistinct
  exact (List.nodup_cons.mp hdistinct).1 List.mem_cons_self

end StatId
end Inac
