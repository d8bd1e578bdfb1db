import Inac.LinkedList.Resize

/-!
# Recycled nodes

`ina_list_node_free` puts a node into the recycle array and `ina_list_node_new` takes the last one
out again. The array is a stack whose first slot is never used: `last_free` counts the nodes on it,
and node number `i` is in slot `i`. So an array for `max_recyclable` nodes has room for one less,
and the bound that `ina_list_node_free` tests, `last_free < max_recyclable`, lets the last one be
stored behind the array. A list made with `INA_LIST_CF_NOMALLOC` has the bound and no array.

`used` are the nodes that are handed out and not freed since. The calls work inside the array and
hand out no used node twice exactly in the runs in which no node is freed where the array has no
slot for it (`recycle_right_iff`).
-/

namespace Inac
namespace LinkedList

open Lib

variable {δ : Type}

/-! ## The code

A node comes from the recycle array, or from the pool. A list without either has no node to give. -/

/-- How `ina_list_node_new` ends. -/
inductive Got where
  | node (n : Option Nat)
  | outside  -- it reads outside the recycle array
  | noPool  -- it takes a node from a pool that is `NULL`
  deriving DecidableEq, Repr

/-- `first_free[i]`, if the array has that slot. -/
def InaList.slot (r : InaList) (i : Int) : Option (Option Nat) :=
  if 0 ≤ i then r.firstFree[i.toNat]? else none

def inaListNodeNew (m : Mem δ) (l : Nat) : Got × Mem δ :=
  if (m.heap.list l).lastFree ≠ 0 then
    match (m.heap.list l).slot (m.heap.list l).lastFree with
    | none => (.outside, m)
    | some node =>
      (.node node, { m with
        heap := m.heap.modify l fun r => { r with lastFree := r.lastFree - 1 } })
  else if m.pooled l then (.node (some m.top), { m with top := m.top + 1 })
  else (.noPool, m)

/-- How a list is made: with defaults, then resized for so many nodes to recycle, or without
    memory of its own. -/
inductive Config where
  | default
  | resized (maxRecyclable : Nat)
  | nomalloc
  deriving DecidableEq, Repr

/-- The list as it is made. -/
def Config.list : Config → InaList
  | .default => inaListNew false
  | .resized max =>
    { inaListNew false with maxRecyclable := max, firstFree := recycleArray max }
  | .nomalloc => inaListNew true

/-! ## Runs on one list

The nodes that are handed out are noted beside the memory, and the calls are judged by them. -/

/-- The calls, and insertions, which put nodes where `ina_list_remove_data` finds them. -/
inductive NodeOp (δ : Type) where
  | nodeNew
  | nodeFree (n : Nat)
  | insertTail (n : Nat) (data : Option δ)
  | removeData (data : Option δ)

inductive NodeOut where
  | got (g : Got)
  | done (o : Out)

/-- Memory, the nodes that are handed out, and what the list holds. -/
structure Tracked (δ : Type) where
  mem : Mem δ
  used : List Nat
  cells : List (Cell δ)

/-- A list that has just been made; the nodes `used` are those of its caller. -/
def Config.start (c : Config) (h : Heap δ) (l top : Nat) (used : List Nat) : Tracked δ :=
  { mem :=
      { heap := h.modify l fun _ => c.list
        nomalloc := fun _ => c = .nomalloc
        pooled := fun _ => c ≠ .nomalloc
        top := top }
    used := used
    cells := [] }

section Steps
variable [DecidableEq δ]

/-- The node that `ina_list_remove_data` takes out and frees. -/
def freedNode (cells : List (Cell δ)) : Option δ → Option Nat
  | none => none
  | some d => (cells.find? fun c => c.data = some d).map Cell.node

def nodeStep (fuel l : Nat) (t : Tracked δ) : NodeOp δ → NodeOut × Tracked δ
  | .nodeNew =>
    let r := inaListNodeNew t.mem l
    (.got r.1, { t with
      mem := r.2
      used := match r.1 with
        | .node (some n) => n :: t.used
        | _ => t.used })
  | .nodeFree n =>
    let r := inaListNodeFree t.mem.heap l n
    (.done r.1, { t with mem := { t.mem with heap := r.2 }, used := t.used.filter (· ≠ n) })
  | .insertTail n d =>
    let r := inaListInsertTail (t.mem.heap.setData n d) l (some n)
    (.done r.1, { t with mem := { t.mem with heap := r.2 }, cells := t.cells ++ [⟨n, d⟩] })
  | .removeData d =>
    let r := inaListRemoveData fuel t.mem.heap l d
    let freed := freedNode t.cells d
    (.done r.1,
      { mem := { t.mem with heap := r.2 }
        used := t.used.filter fun n => freed ≠ some n
        cells := t.cells.eraseP fun c => freed = some c.node })

/-- What a caller owes: it frees and inserts nodes that are its own and not in the list. -/
def NodeAllowed (fuel : Nat) (t : Tracked δ) : NodeOp δ → Prop
  | .nodeNew => True
  | .nodeFree n => n ∈ t.used ∧ n ∉ nodes t.cells
  | .insertTail n _ => n ∈ t.used ∧ n ∉ nodes t.cells
  | .removeData _ => t.cells.length ≤ fuel

/-- The call stays inside the recycle array, and hands out no used node. -/
structure NodeRight (fuel l : Nat) (t : Tracked δ) (op : NodeOp δ) : Prop where
  read : (nodeStep fuel l t op).1 ≠ .got .outside
  written : (nodeStep fuel l t op).1 ≠ .done .fault
  fresh : ∀ n, (nodeStep fuel l t op).1 = .got (.node (some n)) → n ∉ t.used

/-- A node is freed, and the recycle array, which is not full by its bound, has no slot for it. -/
def Overflows (l : Nat) (t : Tracked δ) : NodeOp δ → Prop
  | .nodeFree _ => ¬ (t.mem.heap.list l).TakesNode
  | .removeData d => freedNode t.cells d ≠ none ∧ ¬ (t.mem.heap.list l).TakesNode
  | _ => False

end Steps

/-! ## The stack in the array

`Stacked`: the slots from the second one on, as far as `last_free` goes, hold the nodes of the
stack. -/

/-- The nodes `st` are on the stack, the last on top: `st[i]` is in slot `i + 1`. -/
structure Stacked (r : InaList) (st : List Nat) : Prop where
  last : r.lastFree = st.length
  slots : r.firstFree.tail.take st.length = st.map some

theorem Stacked.nil {r : InaList} (h : r.lastFree = 0) : Stacked r [] := ⟨h, rfl⟩

theorem Stacked.slot_top {r : InaList} {st : List Nat} {n : Nat} (h : Stacked r (st ++ [n])) :
    r.slot r.lastFree = some (some n) := by
  have hlast : r.lastFree = (st.length + 1 : Nat) := by
    rw [h.last, List.length_append]
    rfl
  have hget := congrArg (fun slots => slots[st.length]?) h.slots
  rw [InaList.slot, hlast, if_pos (Int.natCast_nonneg _), Int.toNat_natCast]
  simpa [List.getElem?_take, List.getElem?_tail] using hget

theorem Stacked.pop {r : InaList} {st : List Nat} {n : Nat} (h : Stacked r (st ++ [n])) :
    Stacked { r with lastFree := r.lastFree - 1 } st := by
  refine ⟨?_, ?_⟩
  · show r.lastFree - 1 = _
    rw [h.last, List.length_append, List.length_singleton]
    omega
  · have hslots := congrArg (List.take st.length) h.slots
    have hleft : ((st ++ [n]).map some).take st.length = st.map some := by
      rw [List.map_append]
      exact List.take_left' (List.length_map _)
    rw [List.take_take, List.length_append, Nat.min_eq_left (Nat.le_add_right _ _),
      hleft] at hslots
    exact hslots

theorem Stacked.push {r : InaList} {st : List Nat} (h : Stacked r st) (hroom : r.Room) (n : Nat) :
    Stacked { r with
      lastFree := r.lastFree + 1
      firstFree := r.firstFree.set (r.lastFree + 1).toNat (some n) } (st ++ [n]) := by
  obtain ⟨-, hlt⟩ := hroom
  rw [h.last] at hlt
  have hindex : (r.lastFree + 1).toNat = st.length + 1 := by
    rw [h.last]
    omega
  -- The slot that nothing is ever stored in.
  obtain ⟨x, rest, hcons⟩ : ∃ x rest, r.firstFree = x :: rest :=
    List.exists_cons_of_length_pos (by omega)
  have hslots := h.slots
  rw [hcons, List.length_cons] at hlt
  rw [hcons, List.tail_cons] at hslots
  refine ⟨?_, ?_⟩
  · show r.lastFree + 1 = _
    rw [h.last, List.length_append]
    rfl
  · show ((r.firstFree.set (r.lastFree + 1).toNat (some n)).tail).take _ = _
    rw [hindex, hcons, List.set_cons_succ, List.tail_cons, List.length_append,
      List.length_singleton, List.take_add_one, List.take_set_of_le (Nat.le_refl _), hslots,
      List.getElem?_set_self (by omega), List.map_append]
    rfl

theorem Stacked.congr {r r' : InaList} {st : List Nat} (h : Stacked r st)
    (hsame : r'.firstFree = r.firstFree ∧ r'.lastFree = r.lastFree) : Stacked r' st :=
  ⟨hsame.2.trans h.last, by rw [hsame.1]; exact h.slots⟩

theorem linkTail_recycle (h : Heap δ) (l n : Nat) :
    ((linkTail h l n).2.list l).firstFree = (h.list l).firstFree ∧
      ((linkTail h l n).2.list l).lastFree = (h.list l).lastFree := by
  rw [linkTail_list, Function.update_self]
  exact ⟨rfl, rfl⟩

theorem unlink_recycle (h : Heap δ) (l n : Nat) :
    ((unlink h l n).2.list l).firstFree = (h.list l).firstFree ∧
      ((unlink h l n).2.list l).lastFree = (h.list l).lastFree := by
  obtain ⟨head, count, hlist⟩ := unlink_list h l n
  rw [hlist, Function.update_self]
  exact ⟨rfl, rfl⟩

/-- A node that fits goes on top of the stack, or nowhere where the bound is reached. -/
theorem nodeFree_stacked {h : Heap δ} {l : Nat} {st : List Nat} (hs : Stacked (h.list l) st)
    (ht : (h.list l).TakesNode) (n : Nat) :
    Stacked ((inaListNodeFree h l n).2.list l) (st ++ [n]) ∨
      Stacked ((inaListNodeFree h l n).2.list l) st := by
  unfold inaListNodeFree
  by_cases hlast : (h.list l).lastFree < toInt32 (h.list l).maxRecyclable
  · left
    have hroom := ht hlast
    rw [if_pos hlast, if_pos hroom, Heap.modify_list, Function.update_self]
    exact hs.push hroom n
  · right
    rw [if_neg hlast]
    exact hs

/-! ## The invariant

A node is in use, on the stack, or not handed out yet; and those in the list are in use. -/

/-- The list holds its cells, whose nodes are used, and the nodes on the stack are not used and
    stand there once. -/
structure Tracked.Ok (t : Tracked δ) (l : Nat) (st : List Nat) : Prop where
  holds : Holds t.mem.heap l t.cells
  owned : ∀ n ∈ nodes t.cells, n ∈ t.used
  low : ∀ n ∈ t.used, n < t.mem.top
  stacked : Stacked (t.mem.heap.list l) st
  distinct : st.Nodup
  apart : ∀ n ∈ st, n ∉ t.used ∧ n < t.mem.top

/-- A used node that is not in the list is freed. -/
theorem Tracked.Ok.free {t : Tracked δ} {l : Nat} {st : List Nat} (ht : t.Ok l st) {n : Nat}
    (hn : n ∈ t.used) (hcells : n ∉ nodes t.cells) (htakes : (t.mem.heap.list l).TakesNode) :
    ∃ st', ({ t with
      mem := { t.mem with heap := (inaListNodeFree t.mem.heap l n).2 }
      used := t.used.filter (· ≠ n) } : Tracked δ).Ok l st' := by
  have hkeep : ∀ x, x ∈ t.used.filter (· ≠ n) ↔ x ∈ t.used ∧ x ≠ n := by
    intro x
    rw [List.mem_filter, decide_eq_true_iff]
  have howned : ∀ x ∈ nodes t.cells, x ∈ t.used.filter (· ≠ n) :=
    fun x hx => (hkeep x).mpr ⟨ht.owned x hx, ne_of_mem_of_not_mem hx hcells⟩
  have hlow : ∀ x ∈ t.used.filter (· ≠ n), x < t.mem.top :=
    fun x hx => ht.low x ((hkeep x).mp hx).1
  have hapart : ∀ x ∈ st, x ∉ t.used.filter (· ≠ n) ∧ x < t.mem.top :=
    fun x hx => ⟨fun hmem => (ht.apart x hx).1 ((hkeep x).mp hmem).1, (ht.apart x hx).2⟩
  -- It goes on the stack, or the list keeps no more nodes and it is forgotten.
  rcases nodeFree_stacked ht.stacked htakes n with hst | hst
  · have hnew : n ∉ st := fun hmem => (ht.apart n hmem).1 hn
    refine ⟨st ++ [n], nodeFree_holds ht.holds, howned, hlow, hst, ?_, ?_⟩
    · rw [List.nodup_append_comm]
      exact List.nodup_cons.mpr ⟨hnew, ht.distinct⟩
    · intro x hx
      rcases List.mem_append.mp hx with hx | hx
      · exact hapart x hx
      · obtain rfl := List.mem_singleton.mp hx
        exact ⟨fun hmem => ((hkeep x).mp hmem).2 rfl, ht.low x hn⟩
  · exact ⟨st, nodeFree_holds ht.holds, howned, hlow, hst, ht.distinct, hapart⟩

/-- A node is taken out of the list, and stays in use. -/
theorem Tracked.Ok.unlink {t : Tracked δ} {l : Nat} {st : List Nat} (ht : t.Ok l st) {n : Nat}
    (hn : n ∈ nodes t.cells) :
    ({ t with
      mem := { t.mem with heap := (LinkedList.unlink t.mem.heap l n).2 }
      cells := t.cells.eraseP fun c => c.node = n } : Tracked δ).Ok l st :=
  ⟨(unlink_spec ht.holds hn).holds, fun x hx => ht.owned x (mem_nodes_eraseP hx), ht.low,
    ht.stacked.congr (unlink_recycle _ _ _), ht.distinct, ht.apart⟩

theorem not_mem_nodes_eraseP {cells : List (Cell δ)} (hnodup : (nodes cells).Nodup) {n : Nat}
    (hn : n ∈ nodes cells) : n ∉ nodes (cells.eraseP fun c => c.node = n) := by
  obtain ⟨c, hc, rfl⟩ := List.mem_map.mp hn
  obtain ⟨as, bs, rfl⟩ := List.append_of_mem hc
  rw [eraseP_node hnodup]
  rw [nodes_append] at hnodup ⊢
  exact (List.nodup_middle.mp hnodup).notMem

/-- A used node goes into the list. -/
theorem Tracked.Ok.insert {t : Tracked δ} {l : Nat} {st : List Nat} (ht : t.Ok l st) {n : Nat}
    (hn : n ∈ t.used) (hcells : n ∉ nodes t.cells) (d : Option δ) :
    (linkTail (t.mem.heap.setData n d) l n).1 = .rc (.ok ()) ∧
    ({ t with
      mem := { t.mem with heap := (linkTail (t.mem.heap.setData n d) l n).2 }
      cells := t.cells ++ [⟨n, d⟩] } : Tracked δ).Ok l st := by
  have hset : SameBut [] [n] t.mem.heap (t.mem.heap.setData n d) :=
    (SameBut.refl [] [n] t.mem.heap).setData List.mem_cons_self d
  -- Its data are written first. It is in no list, so that disturbs nothing.
  have hholds : Holds (t.mem.heap.setData n d) l t.cells := by
    refine ht.holds.frame hset List.not_mem_nil fun x hx hxn => ?_
    obtain rfl := List.mem_singleton.mp hxn
    exact hcells hx
  have hdone := linkTail_spec hholds hcells
  have hcellsHold := hdone.holds
  rw [Heap.setData_data, Function.update_self] at hcellsHold
  refine ⟨hdone.out, hcellsHold, ?_, ht.low, ?_, ht.distinct, ht.apart⟩
  · intro x hx
    rw [nodes_append] at hx
    rcases List.mem_append.mp hx with hx | hx
    · exact ht.owned x hx
    · obtain rfl := List.mem_singleton.mp hx
      exact hn
  · exact Stacked.congr (r := (t.mem.heap.setData n d).list l) ht.stacked
      (linkTail_recycle _ _ _)

/-- A node that is not used is handed out. -/
theorem Tracked.Ok.handOut {t : Tracked δ} {l : Nat} {st ss : List Nat} (ht : t.Ok l st)
    {m : Mem δ} {n : Nat} (hholds : Holds m.heap l t.cells) (htop : t.mem.top ≤ m.top)
    (hn : n < m.top) (hst : Stacked (m.heap.list l) ss) (hnodup : ss.Nodup)
    (hss : ∀ x ∈ ss, x ∈ st ∧ x ≠ n) :
    ({ t with mem := m, used := n :: t.used } : Tracked δ).Ok l ss := by
  refine ⟨hholds, fun x hx => List.mem_cons_of_mem n (ht.owned x hx), ?_, hst, hnodup, ?_⟩
  · intro x hx
    rcases List.mem_cons.mp hx with rfl | hx
    · exact hn
    · exact Nat.lt_of_lt_of_le (ht.low x hx) htop
  · intro x hx
    obtain ⟨hxst, hne⟩ := hss x hx
    refine ⟨?_, Nat.lt_of_lt_of_le (ht.apart x hxst).2 htop⟩
    intro hmem
    rcases List.mem_cons.mp hmem with rfl | hmem
    · exact hne rfl
    · exact (ht.apart x hxst).1 hmem

/-- A list without nodes, and with nothing on the stack. -/
theorem Tracked.Ok.blank {m : Mem δ} {l : Nat} {used : List Nat}
    (hhead : (m.heap.list l).head = none) (hcount : (m.heap.list l).count = 0)
    (hlast : (m.heap.list l).lastFree = 0) (hused : ∀ n ∈ used, n < m.top) :
    (⟨m, used, []⟩ : Tracked δ).Ok l [] :=
  ⟨⟨hhead, hcount, looped_nil, fun _ hc => absurd hc List.not_mem_nil⟩,
    fun _ hn => absurd hn List.not_mem_nil, hused, Stacked.nil hlast, List.nodup_nil,
    fun _ hn => absurd hn List.not_mem_nil⟩

theorem Config.start_ok (c : Config) (h : Heap δ) (l top : Nat) {used : List Nat}
    (hused : ∀ n ∈ used, n < top) : (c.start h l top used).Ok l [] := by
  have hlist : ((c.start h l top used).mem.heap.list l) = c.list := Function.update_self _ _ _
  have hhead : ((c.start h l top used).mem.heap.list l).head = none := by
    rw [hlist]
    cases c <;> rfl
  have hcount : ((c.start h l top used).mem.heap.list l).count = 0 := by
    rw [hlist]
    cases c <;> rfl
  have hlast : ((c.start h l top used).mem.heap.list l).lastFree = 0 := by
    rw [hlist]
    cases c <;> rfl
  exact Tracked.Ok.blank hhead hcount hlast hused

/-! ## One call

By the call, with the node that a removal frees as a case of its own. -/

section Runs
variable [DecidableEq δ] {fuel l : Nat} {t : Tracked δ} {st : List Nat}

theorem NodeRight.got {op : NodeOp δ} {g : Got} {t' : Tracked δ}
    (hstep : nodeStep fuel l t op = (.got g, t')) (hread : g ≠ .outside)
    (hfresh : ∀ n, g = .node (some n) → n ∉ t.used) : NodeRight fuel l t op := by
  refine ⟨?_, ?_, ?_⟩
  · rw [hstep]
    exact fun heq => hread (NodeOut.got.inj heq)
  · rw [hstep]
    exact NodeOut.noConfusion
  · rw [hstep]
    exact fun n hn => hfresh n (NodeOut.got.inj hn)

theorem NodeRight.done {op : NodeOp δ} {r : Except Err Unit} {t' : Tracked δ}
    (hstep : nodeStep fuel l t op = (.done (.rc r), t')) : NodeRight fuel l t op := by
  refine ⟨?_, ?_, ?_⟩
  · rw [hstep]
    exact NodeOut.noConfusion
  · rw [hstep]
    exact fun heq => Out.noConfusion (NodeOut.done.inj heq)
  · rw [hstep]
    exact fun n hn => NodeOut.noConfusion hn

/-- `ina_list_node_new` with a node to hand out, which is not used. -/
theorem nodeNew_right (fuel : Nat) {m : Mem δ} {n : Nat}
    (hnew : inaListNodeNew t.mem l = (.node (some n), m)) (hn : n ∉ t.used) :
    NodeRight fuel l t .nodeNew ∧
      (nodeStep fuel l t .nodeNew).2 = { t with mem := m, used := n :: t.used } := by
  have hstep : nodeStep fuel l t .nodeNew =
      (.got (.node (some n)), { t with mem := m, used := n :: t.used }) := by
    simp only [nodeStep, hnew]
  refine ⟨NodeRight.got hstep Got.noConfusion ?_, by rw [hstep]⟩
  intro x hx
  cases hx
  exact hn

theorem Tracked.Ok.nodeNew (fuel : Nat) (ht : t.Ok l st) :
    NodeRight fuel l t .nodeNew ∧ ∃ st', (nodeStep fuel l t .nodeNew).2.Ok l st' := by
  rcases List.eq_nil_or_concat st with rfl | ⟨ss, n, rfl⟩
  · -- nothing is recycled, and the pool, if there is one, has another node
    have hlast : ¬ (t.mem.heap.list l).lastFree ≠ 0 := not_not.mpr ht.stacked.last
    cases hpool : t.mem.pooled l with
    | true =>
      have hnew : inaListNodeNew t.mem l =
          (.node (some t.mem.top), { t.mem with top := t.mem.top + 1 }) := by
        rw [inaListNodeNew, if_neg hlast, if_pos hpool]
      obtain ⟨hright, hnext⟩ := nodeNew_right fuel hnew
        fun hmem => Nat.lt_irrefl _ (ht.low _ hmem)
      refine ⟨hright, [], ?_⟩
      rw [hnext]
      exact ht.handOut ht.holds (Nat.le_succ _) (Nat.lt_succ_self _) ht.stacked List.nodup_nil
        fun x hx => absurd hx List.not_mem_nil
    | false =>
      have hnew : inaListNodeNew t.mem l = (.noPool, t.mem) := by
        rw [inaListNodeNew, if_neg hlast, if_neg (by rw [hpool]; exact Bool.false_ne_true)]
      have hstep : nodeStep fuel l t .nodeNew = (.got .noPool, t) := by
        simp only [nodeStep, hnew]
      exact ⟨NodeRight.got hstep Got.noConfusion fun x hx => Got.noConfusion hx, [],
        by rw [hstep]; exact ht⟩
  · rw [List.concat_eq_append] at ht
    have hlast : (t.mem.heap.list l).lastFree ≠ 0 := by
      rw [ht.stacked.last, List.length_append, List.length_singleton]
      omega
    have hnew : inaListNodeNew t.mem l = (.node (some n), { t.mem with
        heap := t.mem.heap.modify l fun r => { r with lastFree := r.lastFree - 1 } }) := by
      rw [inaListNodeNew, if_pos hlast, ht.stacked.slot_top]
    have htop : n ∈ ss ++ [n] := List.mem_append_right ss List.mem_cons_self
    obtain ⟨hright, hnext⟩ := nodeNew_right fuel hnew (ht.apart n htop).1
    have hpop : Stacked ((t.mem.heap.modify l fun r =>
        { r with lastFree := r.lastFree - 1 }).list l) ss := by
      rw [Heap.modify_list, Function.update_self]
      exact ht.stacked.pop
    refine ⟨hright, ss, ?_⟩
    rw [hnext]
    refine ht.handOut (ht.holds.setRecycle l _ _ _) (Nat.le_refl _)
      (ht.apart n htop).2 hpop (List.nodup_append.mp ht.distinct).1
      fun x hx => ⟨List.mem_append_left _ hx, ?_⟩
    exact ne_of_mem_of_not_mem hx (last_not_mem ht.distinct)

/-- `ina_list_remove_data` that frees nothing. -/
theorem nodeStep_removeData_none {d : Option δ} {r : Except Err Unit}
    (hfreed : freedNode t.cells d = none)
    (hrun : inaListRemoveData fuel t.mem.heap l d = (.rc r, t.mem.heap)) :
    nodeStep fuel l t (.removeData d) = (.done (.rc r), t) := by
  have hused : (t.used.filter fun n => (none : Option Nat) ≠ some n) = t.used := by simp
  have hcells : (t.cells.eraseP fun c => (none : Option Nat) = some c.node) = t.cells :=
    List.eraseP_of_forall_not (by simp)
  simp only [nodeStep, hrun, hfreed, hused, hcells]

/-- `ina_list_remove_data` that takes out a node and frees it. -/
theorem nodeStep_removeData_some {d : Option δ} {n : Nat}
    (hfreed : freedNode t.cells d = some n)
    (hrun : inaListRemoveData fuel t.mem.heap l d =
      inaListNodeFree (LinkedList.unlink t.mem.heap l n).2 l n) :
    nodeStep fuel l t (.removeData d) =
      (.done (inaListNodeFree (LinkedList.unlink t.mem.heap l n).2 l n).1,
        { mem := { t.mem with
            heap := (inaListNodeFree (LinkedList.unlink t.mem.heap l n).2 l n).2 }
          used := t.used.filter (· ≠ n)
          cells := t.cells.eraseP fun c => c.node = n }) := by
  have hused : (t.used.filter fun x => some n ≠ some x) = t.used.filter (· ≠ n) := by
    refine List.filter_congr fun x _ => ?_
    rw [decide_eq_decide, ne_eq, ne_eq, Option.some.injEq, eq_comm]
  have hcells : (t.cells.eraseP fun c => some n = some c.node) =
      t.cells.eraseP fun c => c.node = n := by
    refine congrArg (fun p => t.cells.eraseP p) (funext fun c => ?_)
    rw [decide_eq_decide, Option.some.injEq, eq_comm]
  simp only [nodeStep, hrun, hfreed, hused, hcells]

/-- `ina_list_remove_data`, by what it frees. -/
theorem Tracked.Ok.removeData (ht : t.Ok l st) (hfuel : t.cells.length ≤ fuel) (d : Option δ) :
    (freedNode t.cells d = none ∧
      ∃ r, nodeStep fuel l t (.removeData d) = (.done (.rc r), t)) ∨
    ∃ n ∈ nodes t.cells, freedNode t.cells d = some n ∧
      inaListRemoveData fuel t.mem.heap l d =
        inaListNodeFree (LinkedList.unlink t.mem.heap l n).2 l n := by
  cases d with
  | none => exact .inl ⟨rfl, _, nodeStep_removeData_none rfl rfl⟩
  | some d =>
    have hseek := seekData_eq (d := d) ht.holds.looped.visits ht.holds.data hfuel
    rw [← ht.holds.head] at hseek
    -- No node holds the datum, or the first that does is taken out and freed.
    cases hfind : t.cells.find? (fun c => c.data = some d) with
    | none =>
      have hfreed : freedNode t.cells (some d) = none := by
        rw [freedNode, hfind]
        rfl
      refine .inl ⟨hfreed, .error .notExists, nodeStep_removeData_none hfreed ?_⟩
      simp only [inaListRemoveData, hseek, hfind, Option.map_none]
    | some c =>
      have hmem : c.node ∈ nodes t.cells :=
        List.mem_map_of_mem (List.mem_of_find?_eq_some hfind)
      refine .inr ⟨c.node, hmem, by rw [freedNode, hfind]; rfl, ?_⟩
      have hout := (unlink_spec ht.holds hmem).out
      simp only [inaListRemoveData, hseek, hfind, Option.map_some, removeFound]
      cases hu : LinkedList.unlink t.mem.heap l c.node with
      | mk o h' =>
        rw [hu] at hout
        obtain rfl : o = .rc (.ok ()) := hout
        rfl

/-- A call that frees a node stores it inside the array exactly when it takes the node. -/
theorem freeing_right_iff {op : NodeOp δ} {h : Heap δ} {n : Nat} {t' : Tracked δ}
    (hstep : nodeStep fuel l t op = (.done (inaListNodeFree h l n).1, t')) :
    NodeRight fuel l t op ↔ (h.list l).TakesNode := by
  constructor
  · intro hright
    by_contra htakes
    have hwritten := hright.written
    rw [hstep, nodeFree_out, if_neg htakes] at hwritten
    exact hwritten rfl
  · intro htakes
    rw [nodeFree_out, if_pos htakes] at hstep
    exact NodeRight.done hstep

/-- **One call**: it is right exactly if it does not overflow, and then it keeps the invariant. -/
theorem Tracked.Ok.step {op : NodeOp δ} (ht : t.Ok l st) (hop : NodeAllowed fuel t op) :
    (NodeRight fuel l t op ↔ ¬ Overflows l t op) ∧
      (¬ Overflows l t op → ∃ st', (nodeStep fuel l t op).2.Ok l st') := by
  cases op with
  | nodeNew =>
    obtain ⟨hright, hnext⟩ := ht.nodeNew fuel
    exact ⟨⟨fun _ => id, fun _ => hright⟩, fun _ => hnext⟩
  | nodeFree n =>
    constructor
    · rw [freeing_right_iff (h := t.mem.heap) (n := n) rfl, Overflows, not_not]
    · intro hover
      exact ht.free hop.1 hop.2 (not_not.mp hover)
  | insertTail n d =>
    obtain ⟨hout, hnext⟩ := ht.insert hop.1 hop.2 d
    have hstep : nodeStep fuel l t (.insertTail n d) =
        (.done (.rc (.ok ())), (nodeStep fuel l t (.insertTail n d)).2) :=
      Prod.ext (congrArg NodeOut.done hout) rfl
    exact ⟨⟨fun _ => id, fun _ => NodeRight.done hstep⟩, fun _ => ⟨st, hnext⟩⟩
  | removeData d =>
    rcases ht.removeData hop d with ⟨hnone, r, hstep⟩ | ⟨n, hn, hfreed, hrun⟩
    · exact ⟨⟨fun _ hover => hover.1 hnone, fun _ => NodeRight.done hstep⟩,
        fun _ => ⟨st, by rw [hstep]; exact ht⟩⟩
    · -- the node is taken out of the list and freed as one that is not in it
      have hnodup := ht.holds.looped.nodup
      have hsame : ((LinkedList.unlink t.mem.heap l n).2.list l).TakesNode ↔
          (t.mem.heap.list l).TakesNode := unlink_takesNode
      have hstep := nodeStep_removeData_some hfreed hrun
      constructor
      · rw [freeing_right_iff hstep, hsame, Overflows, hfreed, not_and, not_not]
        exact ⟨fun h _ => h, fun h => h (Option.some_ne_none n)⟩
      · intro hover
        have htakes : (t.mem.heap.list l).TakesNode := by
          by_contra htakes
          exact hover ⟨by rw [hfreed]; exact Option.some_ne_none n, htakes⟩
        rw [hstep]
        exact (ht.unlink hn).free (ht.owned n hn) (not_mem_nodes_eraseP hnodup hn)
          (hsame.mpr htakes)

/-! ## Runs

A node that is freed where there is no slot for it is stored outside the array, and that is the only
way for a call to go wrong. -/

/-- **Recycling is right exactly while the array has room.** For every way to make a list, whatever
    nodes its caller has of its own, and every run of calls: all of them stay inside the recycle
    array and hand out no node that is in use, exactly when no node is freed where the bound lets
    it be recycled and the array has no slot left for it. -/
theorem recycle_right_iff (c : Config) (h : Heap δ) (l top : Nat) (used : List Nat)
    (hused : ∀ n ∈ used, n < top) (fuel : Nat) (ops : List (NodeOp δ))
    (hok : Along (nodeStep fuel l) (NodeAllowed fuel) (c.start h l top used) ops) :
    Along (nodeStep fuel l) (NodeRight fuel l) (c.start h l top used) ops ↔
      Never (nodeStep fuel l) (Overflows l) (c.start h l top used) ops := by
  refine along_iff_never (I := fun t => ∃ st, t.Ok l st) ?_ ?_ hok
    ⟨[], c.start_ok h l top hused⟩
  · rintro t op hop hover ⟨st, ht⟩
    exact (ht.step hop).2 hover
  · rintro t op hop ⟨st, ht⟩
    exact (ht.step hop).1

end Runs

/-- Two nodes are taken, one is freed and taken again. -/
theorem recycle_right_run :
    let h : Heap Nat := ⟨fun _ => none, fun _ => none, fun _ => none, fun _ => inaListNew false⟩
    let ops : List (NodeOp Nat) := [.nodeNew, .nodeNew, .nodeFree 0, .nodeNew]
    Along (nodeStep 0 0) (NodeAllowed 0) ((Config.resized 2).start h 0 0 []) ops ∧
      Along (nodeStep 0 0) (NodeRight 0 0) ((Config.resized 2).start h 0 0 []) ops := by
  intro h ops
  have hok : Along (nodeStep 0 0) (NodeAllowed 0) ((Config.resized 2).start h 0 0 []) ops := by
    refine ⟨trivial, trivial, ⟨?_, List.not_mem_nil⟩, trivial, trivial⟩
    show 0 ∈ [1, 0]
    decide
  have hnever : Never (nodeStep 0 0) (Overflows 0) ((Config.resized 2).start h 0 0 []) ops := by
    refine ⟨id, id, not_not.mpr ?_, id, trivial⟩
    show InaList.TakesNode ⟨none, 0, 2, [none, none], 0⟩
    decide
  exact ⟨hok, (recycle_right_iff (.resized 2) h 0 0 [] (fun _ hn => absurd hn List.not_mem_nil) 0
    ops hok).mpr hnever⟩

/-- An array for two nodes has no slot for the second, and a list without memory of its own has
    none at all. -/
theorem recycle_overflows :
    let h : Heap Nat := ⟨fun _ => none, fun _ => none, fun _ => none, fun _ => inaListNew false⟩
    let ops : List (NodeOp Nat) := [.nodeNew, .nodeNew, .nodeFree 0, .nodeFree 1]
    (Along (nodeStep 0 0) (NodeAllowed 0) ((Config.resized 2).start h 0 0 []) ops ∧
      ¬ Along (nodeStep 0 0) (NodeRight 0 0) ((Config.resized 2).start h 0 0 []) ops) ∧
    ¬ NodeRight 0 0 (Config.nomalloc.start h 0 1 [0]) (.nodeFree 0) := by
  intro h ops
  refine ⟨⟨⟨trivial, trivial, ⟨?_, List.not_mem_nil⟩, ⟨?_, List.not_mem_nil⟩, trivial⟩, ?_⟩, ?_⟩
  · show 0 ∈ [1, 0]
    decide
  · show 1 ∈ [1]
    decide
  · rintro ⟨-, -, -, hright, -⟩
    exact hright.written rfl
  · intro hright
    exact hright.written rfl

end LinkedList
end Inac
