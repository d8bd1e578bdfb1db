import Inac.Hashtable.Traverse
import Inac.LinkedList.Recycle

/-!
# A list from a hash table

`ina_list_new_from_hashtable` makes a list and has `ina_hashtable_foreach_arg` call `__ina_add_data`
on the table's data, with the list as argument. The callback takes the **argument first** and the
data second, as `ina_foreach_arg_fn_t` says; `ina_hashtable_foreach_arg` passes the data first and
the argument second. So every datum of the table is taken for a list, and the new list is inserted
into it as data. Where the datum is no list, there is no telling what is written; the model ends
with a fault. Nothing is inserted into the new list but itself, for a datum that happens to be its
address, so it is right for a table that holds nothing, and by accident (`from_table_right_iff`).
-/

namespace Inac
namespace LinkedList

open Lib

/-! ## The code

A datum may be a list or may not be, so a `void *` says which of the two it is. The model stops
where a datum that is none is used as a list. -/

/-- A `void *`: the address of a list, or of something else. -/
inductive Ptr where
  | list (l : Nat)
  | other (a : Nat)
  deriving DecidableEq, Repr

section Code
variable {δ : Type}

/-- `ina_list_new`, the list's memory being at `l`. When there is no pool for it, the list is freed
    again. -/
def inaListNewAt (newPool : Nat → Bool) (m : Mem δ) (l : Nat) (nomalloc : Bool) : Out × Mem δ :=
  let m : Mem δ :=
    { m with
      heap := m.heap.modify l fun _ =>
        { head := none, count := 0, maxRecyclable := listDefaultSize, firstFree := [],
          lastFree := 0 }
      nomalloc := Function.update m.nomalloc l nomalloc
      pooled := Function.update m.pooled l false }
  -- the list is empty, so that a resize copies nothing and needs no fuel
  if nomalloc then (.rc (.ok ()), m) else inaListResize newPool 0 m l 0 listDefaultSize

/-- `ina_list_insert_tail_data`. -/
def inaListInsertTailData (m : Mem δ) (l : Nat) (data : Option δ) : Out × Mem δ :=
  match inaListNodeNew m l with
  | (.node (some n), m) =>
    let r := inaListInsertTail (m.heap.setData n data) l (some n)
    (r.1, { m with heap := r.2 })
  | (_, m) => (.fault, m)

end Code

/-- `__ina_add_data`. -/
def inaAddData (arg data : Ptr) (m : Mem Ptr) : Out × Mem Ptr :=
  match arg with
  | .list l => inaListInsertTailData m l (some data)
  | .other _ => (.fault, m)

/-- `__ina_add_data` as a callback. After a fault there is no memory, and nothing more is done. -/
def addDataFn (arg data : Ptr) : Option (Mem Ptr) → Except Err (Option (Mem Ptr))
  | none => .ok none
  | some m =>
    match inaAddData arg data m with
    | (.rc (.ok ()), m) => .ok (some m)
    | (.rc (.error e), _) => .error e
    | _ => .ok none

/-- `(size_t)ht->count`. -/
def tableCount (ht : Hashtable.Table Ptr) : Nat := (ht.count % 2 ^ 64).toNat

/-- `ina_list_new_from_hashtable`, the list's memory being at `l`. -/
def inaListNewFromHashtable (newPool : Nat → Bool) (m : Mem Ptr) (ht : Hashtable.Table Ptr)
    (l : Nat) : Out × Mem Ptr :=
  match inaListNewAt newPool m l false with
  | (.rc (.ok ()), m) =>
    match inaListResize newPool 0 m l (tableCount ht) 0 with
    | (.rc (.ok ()), m) =>
      match Hashtable.inaHashtableForeachArg ht addDataFn (.list l) (some m) with
      | .ok (some m) => (.rc (.ok ()), m)
      | .ok none => (.fault, m)
      | .error e => (.rc (.error e), m)
    | failed => failed
  | failed => failed

/-- The call returns an error, or it succeeds with a list of the table's data, in the order of
    `ina_hashtable_foreach`, and as many as there are live keys. -/
def FromTableRight (newPool : Nat → Bool) (m : Mem Ptr) (ht : Hashtable.Table Ptr) (l : Nat) :
    Prop :=
  (inaListNewFromHashtable newPool m ht l).1.Failed ∨
  (inaListNewFromHashtable newPool m ht l).1 = .rc (.ok ()) ∧
    ((inaListNewFromHashtable newPool m ht l).2.heap.list l).count = ht.yields.length ∧
    ∃ cells, WellFormed (inaListNewFromHashtable newPool m ht l).2.heap l cells ∧
      cells.map Cell.data = ht.yields.map some

/-! ## The new list

It has no nodes, whatever there was in its memory, and neither has its recycle array. -/

section NewList
variable {δ : Type} {newPool : Nat → Bool} {m : Mem δ} {l : Nat}

/-- List `l` has no nodes, in its chain or to recycle. -/
structure Blank (m : Mem δ) (l : Nat) : Prop where
  head : (m.heap.list l).head = none
  count : (m.heap.list l).count = 0
  lastFree : (m.heap.list l).lastFree = 0
  malloc : m.nomalloc l = false

theorem Blank.setPool (hb : Blank m l) (max : Nat) :
    Blank (setPool m l max) l ∧ (LinkedList.setPool m l max).pooled l = true := by
  have hlist : (LinkedList.setPool m l max).heap.list l =
      { m.heap.list l with
        maxRecyclable := max, firstFree := recycleArray max, lastFree := 0 } :=
    Function.update_self _ _ _
  refine ⟨⟨?_, ?_, ?_, hb.malloc⟩, Function.update_self _ _ _⟩
  · rw [hlist]
    exact hb.head
  · rw [hlist]
    exact hb.count
  · rw [hlist]

/-- A resize of a list without nodes finds nothing to copy. -/
theorem Blank.resize (hb : Blank m l) {minNodes : Nat} (max : Nat)
    (hpool : newPool (poolSize 0 minNodes) = true) :
    ∃ m', inaListResize newPool 0 m l minNodes max = (.rc (.ok ()), m') ∧ Blank m' l ∧
      m'.pooled l = true := by
  rw [inaListResize, if_neg (by rw [hb.malloc]; exact Bool.false_ne_true), hb.count, if_pos hpool,
    hb.head]
  cases hmp : m.pooled l with
  | false => exact ⟨_, rfl, hb.setPool max⟩
  | true =>
    refine ⟨_, rfl, ?_⟩
    apply Blank.setPool
    refine ⟨?_, ?_, ?_, hb.malloc⟩
    · rw [Heap.modify_list, Function.update_self]
    · rw [Heap.modify_list, Function.update_self]
      exact hb.count
    · rw [Heap.modify_list, Function.update_self]
      exact hb.lastFree

theorem Blank.resize_fails (hb : Blank m l) {minNodes : Nat} (max : Nat)
    (hpool : newPool (poolSize 0 minNodes) = false) :
    inaListResize newPool 0 m l minNodes max = (.rc (.error .outOfMemory), m) := by
  rw [inaListResize, if_neg (by rw [hb.malloc]; exact Bool.false_ne_true), hb.count, if_neg]
  rw [hpool]
  exact Bool.false_ne_true

/-- `ina_list_new` resizes a list without nodes. -/
theorem newAt_eq (newPool : Nat → Bool) (m : Mem δ) (l : Nat) :
    ∃ m', Blank m' l ∧
      inaListNewAt newPool m l false = inaListResize newPool 0 m' l 0 listDefaultSize := by
  rw [inaListNewAt, if_neg Bool.false_ne_true]
  refine ⟨_, ⟨?_, ?_, ?_, Function.update_self _ _ _⟩, rfl⟩
  · rw [Heap.modify_list, Function.update_self]
  · rw [Heap.modify_list, Function.update_self]
  · rw [Heap.modify_list, Function.update_self]

theorem Blank.ok (hb : Blank m l) : (⟨m, [], []⟩ : Tracked δ).Ok l [] :=
  .blank hb.head hb.count hb.lastFree fun _ hn => absurd hn List.not_mem_nil

/-- `ina_list_insert_tail_data` on a list with a pool and nothing to recycle. -/
theorem Tracked.Ok.insertTailData {used : List Nat} {cells : List (Cell δ)}
    (ht : (⟨m, used, cells⟩ : Tracked δ).Ok l []) (hpool : m.pooled l = true) (d : Option δ) :
    ∃ m', inaListInsertTailData m l d = (.rc (.ok ()), m') ∧ m'.pooled l = true ∧
      (⟨m', m.top :: used, cells ++ [⟨m.top, d⟩]⟩ : Tracked δ).Ok l [] := by
  have hlast : ¬ (m.heap.list l).lastFree ≠ 0 := not_not.mpr ht.stacked.last
  have hnew : inaListNodeNew m l = (.node (some m.top), { m with top := m.top + 1 }) := by
    rw [inaListNodeNew, if_neg hlast, if_pos hpool]
  have hok := ht.handOut (m := { m with top := m.top + 1 }) (n := m.top) ht.holds
    (Nat.le_succ _) (Nat.lt_succ_self _) ht.stacked List.nodup_nil
    fun x hx => absurd hx List.not_mem_nil
  have hfresh : m.top ∉ nodes cells := fun hmem => Nat.lt_irrefl _ (ht.low _ (ht.owned _ hmem))
  obtain ⟨hout, hnext⟩ := hok.insert List.mem_cons_self hfresh d
  refine ⟨{ m with heap := (linkTail (m.heap.setData m.top d) l m.top).2, top := m.top + 1 }, ?_,
    hpool, hnext⟩
  rw [inaListInsertTailData, hnew]
  exact Prod.ext hout rfl

end NewList

/-! ## How many nodes the callback inserts into one list

The number of nodes of a list is all that is looked at. It grows with every datum that is this list,
and with no other. -/

section Counted
variable {δ : Type} (l k : Nat)

theorem linkTail_count (h : Heap δ) (n : Nat) :
    ((linkTail h k n).2.list l).count = (h.list l).count + if k = l then 1 else 0 := by
  rw [linkTail_list]
  by_cases hk : k = l
  · subst hk
    rw [Function.update_self, if_pos rfl]
  · rw [Function.update_of_ne (Ne.symm hk), if_neg hk, Nat.add_zero]

theorem linkTail_out (h : Heap δ) (n : Nat) :
    (linkTail h k n).1 = .fault ∨ (linkTail h k n).1 = .rc (.ok ()) := by
  unfold linkTail
  dsimp only
  split
  · split
    · exact .inr rfl
    · exact .inl rfl
  · exact .inr rfl

theorem nodeNew_count (m : Mem δ) :
    ((inaListNodeNew m k).2.heap.list l).count = (m.heap.list l).count := by
  unfold inaListNodeNew
  split
  · split
    · rfl
    · by_cases hk : l = k
      · subst hk
        simp
      · simp [Function.update_of_ne hk]
  · split <;> rfl

/-- An insertion into list `k` faults, or counts one node more there. -/
theorem insertTailData_count (m : Mem δ) (d : Option δ) :
    (inaListInsertTailData m k d).1 = .fault ∨
    (inaListInsertTailData m k d).1 = .rc (.ok ()) ∧
      ((inaListInsertTailData m k d).2.heap.list l).count =
        (m.heap.list l).count + if k = l then 1 else 0 := by
  have hnew := nodeNew_count l k m
  unfold inaListInsertTailData
  cases hgot : inaListNodeNew m k with
  | mk g m' =>
    rw [hgot] at hnew
    rcases g with (_ | n) | _ | _
    · exact .inl rfl
    · rcases linkTail_out k (m'.heap.setData n d) n with hout | hout
      · exact .inl hout
      · refine .inr ⟨hout, ?_⟩
        rw [← hnew]
        exact linkTail_count l k _ n
    · exact .inl rfl
    · exact .inl rfl

end Counted

theorem addDataFn_some {arg data : Ptr} {m m' : Mem Ptr}
    (hadd : inaAddData arg data m = (.rc (.ok ()), m')) :
    addDataFn arg data (some m) = .ok (some m') := by
  rw [addDataFn, hadd]

/-- The callback never returns an error: it faults, or it has inserted into the list that its first
    argument is. -/
theorem addDataFn_count (l : Nat) (arg data : Ptr) (m : Mem Ptr) :
    addDataFn arg data (some m) = .ok none ∨
    ∃ m', addDataFn arg data (some m) = .ok (some m') ∧
      (m'.heap.list l).count = (m.heap.list l).count + if arg = .list l then 1 else 0 := by
  cases arg with
  | other a => exact .inl rfl
  | list k =>
    cases hadd : inaAddData (.list k) data m with
    | mk o m' =>
      have hcount := insertTailData_count l k m (some data)
      rw [show inaListInsertTailData m k (some data) = (o, m') from hadd] at hcount
      rcases hcount with rfl | ⟨rfl, hcount⟩
      · left
        rw [addDataFn, hadd]
      · refine .inr ⟨m', addDataFn_some hadd, ?_⟩
        simpa only [Ptr.list.injEq] using hcount

theorem walk_none (ds : List Ptr) (data : Ptr) :
    ds.foldlM (fun s d => addDataFn d data s) none = .ok none := by
  induction ds with
  | nil => rfl
  | cons d ds ih =>
    rw [List.foldlM_cons]
    exact ih

/-- The walk over the data `ds` faults, or the new list has a node more for each datum that is the
    new list. -/
theorem walk_count (l : Nat) (ds : List Ptr) (m : Mem Ptr) :
    ds.foldlM (fun s d => addDataFn d (.list l) s) (some m) = .ok none ∨
    ∃ m', ds.foldlM (fun s d => addDataFn d (.list l) s) (some m) = .ok (some m') ∧
      (m'.heap.list l).count = (m.heap.list l).count + ds.count (.list l) := by
  induction ds generalizing m with
  | nil => exact .inr ⟨m, rfl, rfl⟩
  | cons d ds ih =>
    rw [List.foldlM_cons]
    rcases addDataFn_count l d (.list l) m with hadd | ⟨m₁, hadd, hcount⟩
    · rw [hadd]
      exact .inl (walk_none ds _)
    · rw [hadd]
      rcases ih m₁ with hwalk | ⟨m', hwalk, hrest⟩
      · exact .inl hwalk
      · refine .inr ⟨m', hwalk, ?_⟩
        rw [hrest, hcount, List.count_cons, Nat.add_assoc, Nat.add_comm (if d = _ then 1 else 0)]
        simp only [beq_iff_eq]

/-- The walk over data that are all the new list itself inserts each. -/
theorem walk_self (l n : Nat) {m : Mem Ptr} {used : List Nat} {cells : List (Cell Ptr)}
    (hok : (⟨m, used, cells⟩ : Tracked Ptr).Ok l []) (hpool : m.pooled l = true) :
    ∃ m' cells',
      (List.replicate n (Ptr.list l)).foldlM (fun s d => addDataFn d (.list l) s) (some m) =
        .ok (some m') ∧ Holds m'.heap l cells' ∧
      cells'.map Cell.data = cells.map Cell.data ++ List.replicate n (some (.list l)) := by
  induction n generalizing m used cells with
  | zero => exact ⟨m, cells, rfl, hok.holds, (List.append_nil _).symm⟩
  | succ n ih =>
    obtain ⟨m₁, hrun, hpool₁, hok₁⟩ := hok.insertTailData hpool (some (.list l))
    obtain ⟨m', cells', hwalk, hholds, hdata⟩ := ih hok₁ hpool₁
    refine ⟨m', cells', ?_, hholds, ?_⟩
    · have hadd : inaAddData (.list l) (.list l) m = (.rc (.ok ()), m₁) := hrun
      rw [List.replicate_succ, List.foldlM_cons, addDataFn_some hadd]
      exact hwalk
    · rw [hdata, List.map_append, List.append_assoc, List.replicate_succ]
      rfl

/-! ## The whole call

The list is made, and the table's data are walked over. -/

/-- With pools to be had, the call is the walk on a list without nodes. -/
theorem newFromHashtable_eq {newPool : Nat → Bool} (m : Mem Ptr) (ht : Hashtable.Table Ptr)
    (l : Nat) (hnew : newPool (poolSize 0 0) = true)
    (hresize : newPool (poolSize 0 (tableCount ht)) = true) :
    ∃ m', Blank m' l ∧ m'.pooled l = true ∧ inaListNewFromHashtable newPool m ht l =
      match ht.yields.foldlM (fun s d => addDataFn d (.list l) s) (some m') with
      | .ok (some m) => (.rc (.ok ()), m)
      | .ok none => (.fault, m')
      | .error e => (.rc (.error e), m') := by
  obtain ⟨m₀, hb₀, heq⟩ := newAt_eq newPool m l
  obtain ⟨m₁, hrun₁, hb₁, -⟩ := hb₀.resize listDefaultSize hnew
  obtain ⟨m₂, hrun₂, hb₂, hpool₂⟩ := hb₁.resize 0 hresize
  refine ⟨m₂, hb₂, hpool₂, ?_⟩
  simp only [inaListNewFromHashtable, heq, hrun₁, hrun₂, Hashtable.inaHashtableForeachArg,
    Hashtable.foreach_foldlM]

/-- Without one of its two pools the call returns an error. -/
theorem newFromHashtable_fails {newPool : Nat → Bool} (m : Mem Ptr) (ht : Hashtable.Table Ptr)
    (l : Nat)
    (hpool : newPool (poolSize 0 0) = false ∨ newPool (poolSize 0 (tableCount ht)) = false) :
    (inaListNewFromHashtable newPool m ht l).1.Failed := by
  obtain ⟨m₀, hb₀, heq⟩ := newAt_eq newPool m l
  refine ⟨.outOfMemory, ?_⟩
  cases hnew : newPool (poolSize 0 0) with
  | false =>
    simp only [inaListNewFromHashtable, heq, hb₀.resize_fails listDefaultSize hnew]
  | true =>
    obtain ⟨m₁, hrun₁, hb₁, -⟩ := hb₀.resize listDefaultSize hnew
    have hresize := hpool.resolve_left (by rw [hnew]; exact Bool.true_eq_false_eq_False)
    simp only [inaListNewFromHashtable, heq, hrun₁, hb₁.resize_fails 0 hresize]

/-- **The new list is right only by accident.** For every table and memory and wherever the new
    list's memory is: if `ina_list_new_from_hashtable` succeeds, the list holds the table's data in
    order, and nothing else goes wrong, exactly when one of its two pools cannot be had, or the
    table holds nothing but the address of the new list, which a table without data does. -/
theorem from_table_right_iff (newPool : Nat → Bool) (m : Mem Ptr) (ht : Hashtable.Table Ptr)
    (l : Nat) :
    FromTableRight newPool m ht l ↔
      newPool (poolSize 0 0) = false ∨ newPool (poolSize 0 (tableCount ht)) = false ∨
        ∀ d ∈ ht.yields, d = .list l := by
  by_cases hpool : newPool (poolSize 0 0) = true ∧ newPool (poolSize 0 (tableCount ht)) = true
  · obtain ⟨m₀, hb, hmp, hrun⟩ := newFromHashtable_eq m ht l hpool.1 hpool.2
    rw [hpool.1, hpool.2, FromTableRight, hrun]
    simp only [Bool.true_eq_false, false_or]
    constructor
    · intro hright
      -- the new list counts only the data that are itself, and it should count them all
      rcases walk_count l ht.yields m₀ with hwalk | ⟨m', hwalk, hcount⟩
      · rw [hwalk] at hright
        rcases hright with ⟨e, he⟩ | ⟨hout, -⟩
        · cases he
        · cases hout
      · rw [hwalk] at hright
        rcases hright with ⟨e, he⟩ | ⟨-, hlength, -⟩
        · cases he
        · rw [hb.count, Nat.zero_add, hlength] at hcount
          intro d hd
          exact (List.count_eq_length.mp hcount.symm d hd).symm
    · intro hself
      obtain ⟨m', cells, hwalk, hholds, hdata⟩ := walk_self l ht.yields.length hb.ok hmp
      rw [← List.eq_replicate_of_mem hself] at hwalk
      have hdata' : cells.map Cell.data = ht.yields.map some := by
        rw [hdata, List.eq_replicate_of_mem hself, List.map_replicate, List.length_replicate]
        rfl
      rw [hwalk]
      refine .inr ⟨rfl, ?_, cells, hholds.wellFormed, hdata'⟩
      rw [hholds.count, ← List.length_map Cell.data, hdata', List.length_map]
  · have hfail : newPool (poolSize 0 0) = false ∨
        newPool (poolSize 0 (tableCount ht)) = false := by
      rcases not_and_or.mp hpool with hnew | hresize
      · exact .inl (Bool.eq_false_iff.mpr hnew)
      · exact .inr (Bool.eq_false_iff.mpr hresize)
    constructor
    · intro _
      rcases hfail with hnew | hresize
      · exact .inl hnew
      · exact .inr (.inl hresize)
    · intro _
      exact .inl (newFromHashtable_fails m ht l hfail)

/-- A table with one datum, which is an empty list: the call succeeds, the new list is empty, and
    the other one holds it. -/
theorem from_table_leaves_empty :
    let m : Mem Ptr := ⟨⟨fun _ => none, fun _ => none, fun _ => none, fun _ => inaListNew false⟩,
      fun _ => false, fun _ => true, 0⟩
    ∃ ht₀ : Hashtable.Table Ptr,
      Hashtable.inaHashtableNew .int32 (.hash32 fun _ _ => 0) 1 0 = .ok ht₀ ∧
      let ht := exec (Hashtable.step (Hashtable.intKey (w := 32))) ht₀ [.set 1 (some (.list 1))]
      let r := inaListNewFromHashtable (fun _ => true) m ht 0
      ht.yields = [.list 1] ∧ r.1 = .rc (.ok ()) ∧ (r.2.heap.list 0).head = none ∧
        (r.2.heap.list 1).head = some 0 ∧ r.2.heap.data 0 = some (.list 0) ∧
        ¬ FromTableRight (fun _ => true) m ht 0 := by
  refine ⟨_, rfl, rfl, rfl, rfl, rfl, rfl, ?_⟩
  rintro (⟨e, he⟩ | ⟨-, hcount, -⟩)
  · cases he
  · exact absurd hcount Nat.zero_ne_one

end LinkedList
end Inac
