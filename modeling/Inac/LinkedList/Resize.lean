import Inac.LinkedList.Sort

/-!
# Lists with a pool, and resizing one

A list that is not made with `INA_LIST_CF_NOMALLOC` has a pool for its nodes. `ina_list_resize`
gives it another one: it copies the nodes into the new pool, links the copies, and frees the old
pool; and it replaces the recycle array. The copies get their `next`, their data, and the copy
before them as `prev`; the first copy has none before it and gets `NULL`, and the tail is never put
there. So what is copied has no tail (`resize_keeps_list_iff`). A list whose pool went to another
list with `ina_list_concat` is not copied, and stays as it was.

Pools are abstract here: the addresses of the nodes below `top` have been handed out, and a pool
hands out the next one. `newPool` says for which sizes `ina_mempool_new` succeeds.
-/

namespace Inac
namespace LinkedList

open Lib

variable {δ : Type}

/-! ## The code

The copies are made one by one while the old chain is walked over. The old nodes are left as they
are. -/

/-- The lists with the fields that concern their pools. -/
structure Mem (δ : Type) where
  heap : Heap δ
  nomalloc : Nat → Bool  -- `list->cf & INA_LIST_CF_NOMALLOC`
  pooled : Nat → Bool  -- `list->mp != NULL`
  top : Nat

def sizeofNode : Nat := 24  -- `sizeof(ina_list_node_t)`

def sizeofPtr : Nat := 8  -- `sizeof(void*)`

/-- The size of the pool that `ina_list_resize` asks for. -/
def poolSize (count minNodes : Nat) : Nat :=
  let minNodes := if minNodes = 0 then listDefaultSize else minNodes
  let minNodes := if minNodes < count then count else minNodes
  sizeofNode * minNodes % 2 ^ 64

/-- The recycle array of `ina_list_resize`, with the slots there is memory for. -/
def recycleArray (maxRecyclable : Nat) : List (Option Nat) :=
  if maxRecyclable ≠ 0 then
    List.replicate (sizeofPtr * maxRecyclable % 2 ^ 64 / sizeofPtr) none
  else []

/-- The loop's body on node `n`, whose copy is `new`. -/
def copyNode (h : Heap δ) (n : Nat) (newTail : Option Nat) (new : Nat) : Heap δ :=
  let h := h.setNext new none
  let h := h.setPrev new newTail
  let h := h.setData new (h.data n)
  match newTail with
  | some t => h.setNext t (some new)
  | none => h

/-- The loop of `ina_list_resize`: memory, the new head, and the first address not taken; none
    when it does not end within the fuel. -/
def copyLoop : Nat → Heap δ → Option Nat → Option Nat → Option Nat → Nat →
    Option (Heap δ × Option Nat × Nat)
  | _, h, none, newHead, _, top => some (h, newHead, top)
  | 0, _, some _, _, _, _ => none
  | fuel + 1, h, some next, newHead, newTail, top =>
    let h := copyNode h next newTail top
    let newHead := if newTail.isSome then newHead else some top
    copyLoop fuel h (h.next next) newHead (some top) (top + 1)

/-- The assignments at the end of `ina_list_resize`. -/
def setPool (m : Mem δ) (l maxRecyclable : Nat) : Mem δ :=
  { m with
    heap := m.heap.modify l fun r =>
      { r with maxRecyclable := maxRecyclable, firstFree := recycleArray maxRecyclable,
               lastFree := 0 }
    pooled := Function.update m.pooled l true }

def inaListResize (newPool : Nat → Bool) (fuel : Nat) (m : Mem δ) (l minNodes maxRecyclable : Nat) :
    Out × Mem δ :=
  if m.nomalloc l then (.rc (.error .operationInvalid), m)
  else if newPool (poolSize (m.heap.list l).count minNodes) then
    if m.pooled l then
      match copyLoop fuel m.heap (m.heap.list l).head none none m.top with
      | none => (.hang, m)
      | some (h, newHead, top) =>
        (.rc (.ok ()), setPool { m with heap := h.modify l fun r => { r with head := newHead }
                                        top := top } l maxRecyclable)
    else (.rc (.ok ()), setPool m l maxRecyclable)
  else (.rc (.error .outOfMemory), m)

/-! ## The copies

The addresses of the copies are consecutive, so the new chain is a range. -/

section Copy
variable {h : Heap δ} {n new : Nat}

theorem copyNode_data (newTail : Option Nat) :
    (copyNode h n newTail new).data = Function.update h.data new (h.data n) := by
  cases newTail <;> rfl

theorem copyNode_prev (newTail : Option Nat) :
    (copyNode h n newTail new).prev = Function.update h.prev new newTail := by
  cases newTail <;> rfl

theorem copyNode_list (newTail : Option Nat) : (copyNode h n newTail new).list = h.list := by
  cases newTail <;> rfl

theorem copyNode_next {newTail : Option Nat} {x : Nat} (hnew : x ≠ new) (ht : newTail ≠ some x) :
    (copyNode h n newTail new).next x = h.next x := by
  cases newTail with
  | none => exact Function.update_of_ne hnew _ _
  | some t =>
    have hxt : x ≠ t := fun e => ht (e ▸ rfl)
    exact (Function.update_of_ne hxt _ _).trans (Function.update_of_ne hnew _ _)

/-- The copy is linked behind those made before it. -/
theorem copyNode_visits {base k : Nat}
    (hv : Visits h.next (List.range' base k).head? (List.range' base k)) :
    Visits (copyNode h n (List.range' base k).getLast? (base + k)).next (some base)
      (List.range' base (k + 1)) := by
  have hfresh : base + k ∉ List.range' base k := by
    rw [List.mem_range'_1]
    exact fun hmem => Nat.lt_irrefl _ hmem.2
  cases k with
  | zero =>
    refine .node base [] ?_
    show Visits _ (Function.update h.next base none base) []
    rw [Function.update_self]
    exact .null
  | succ k =>
    -- The new copy comes behind the last one that was made, and ends the chain.
    have hcopies : List.range' base (k + 1) = List.range' base k ++ [base + k] :=
      List.range'_1_concat
    have hlast : base + k ∉ List.range' base k := by
      rw [List.mem_range'_1]
      exact fun hmem => Nat.lt_irrefl _ hmem.2
    have hframe := hv.frame hfresh none
    rw [List.range'_succ, List.head?_cons, ← List.range'_succ] at hframe
    rw [List.range'_1_concat (n := k + 1), hcopies, List.getLast?_concat]
    rw [hcopies] at hframe
    exact hframe.link hlast (by omega) (Function.update_self _ _ _)

end Copy

/-- `h'` is `h` with copies of the nodes `xs` at the addresses from `top` on. -/
structure Copied (h h' : Heap δ) (xs : List Nat) (top : Nat) : Prop where
  list : h'.list = h.list
  data : (List.range' top xs.length).map h'.data = xs.map h.data
  oldData : ∀ x, x < top → h'.data x = h.data x
  oldPrev : ∀ x, x < top → h'.prev x = h.prev x

theorem Copied.nil (h : Heap δ) (top : Nat) : Copied h h [] top :=
  ⟨rfl, rfl, fun _ _ => rfl, fun _ _ => rfl⟩

theorem Copied.cons {h h' : Heap δ} {n : Nat} {xs : List Nat} {top : Nat} {newTail : Option Nat}
    (hc : Copied (copyNode h n newTail top) h' xs (top + 1)) (hxs : ∀ x ∈ xs, x < top) :
    Copied h h' (n :: xs) top := by
  refine ⟨?_, ?_, ?_, ?_⟩
  · rw [hc.list, copyNode_list]
  · have hrest : xs.map (copyNode h n newTail top).data = xs.map h.data := by
      refine List.map_congr_left fun x hx => ?_
      rw [copyNode_data, Function.update_of_ne (Nat.ne_of_lt (hxs x hx))]
    rw [List.length_cons, List.range'_succ, List.map_cons, List.map_cons, hc.data, hrest,
      hc.oldData top (Nat.lt_succ_self top), copyNode_data, Function.update_self]
  · intro x hx
    rw [hc.oldData x (Nat.lt_succ_of_lt hx), copyNode_data,
      Function.update_of_ne (Nat.ne_of_lt hx)]
  · intro x hx
    rw [hc.oldPrev x (Nat.lt_succ_of_lt hx), copyNode_prev,
      Function.update_of_ne (Nat.ne_of_lt hx)]

theorem range'_getLast?_succ (base k : Nat) :
    (List.range' base (k + 1)).getLast? = some (base + k) := by
  rw [List.range'_1_concat, List.getLast?_concat]

/-- The first copy that is made stays the first one. -/
theorem range'_head?_succ (base k : Nat) :
    (if (List.range' base k).getLast?.isSome then (List.range' base k).head?
      else some (base + k)) = (List.range' base (k + 1)).head? := by
  cases k with
  | zero => rfl
  | succ k =>
    rw [range'_getLast?_succ, List.range'_succ, List.range'_succ]
    rfl

/-- The loop, with `k` copies made: they are a chain, and it goes on with the nodes `xs`. -/
theorem copyLoop_spec (base : Nat) {xs : List Nat} {h : Heap δ} {start : Option Nat}
    {k fuel : Nat} (hv : Visits h.next start xs) (hlow : ∀ x ∈ xs, x < base)
    (hcopies : Visits h.next (List.range' base k).head? (List.range' base k))
    (hfuel : xs.length ≤ fuel) :
    ∃ h', copyLoop fuel h start (List.range' base k).head? (List.range' base k).getLast?
        (base + k) = some (h', (List.range' base (k + xs.length)).head?, base + (k + xs.length)) ∧
      Visits h'.next (List.range' base (k + xs.length)).head?
        (List.range' base (k + xs.length)) ∧
      Copied h h' xs (base + k) ∧
      (xs ≠ [] → h'.prev (base + k) = (List.range' base k).getLast?) := by
  induction xs generalizing h start k fuel with
  | nil =>
    obtain rfl : start = none := hv.head
    refine ⟨h, ?_, hcopies, Copied.nil h _, fun hne => absurd rfl hne⟩
    cases fuel <;> rfl
  | cons n xs ih =>
    obtain rfl : start = some n := hv.head
    obtain ⟨fuel, rfl⟩ : ∃ f, fuel = f + 1 := Nat.exists_eq_add_one.mpr
      (Nat.lt_of_lt_of_le (Nat.succ_pos _) hfuel)
    have hlow' : ∀ x ∈ n :: xs, x < base + k :=
      fun x hx => Nat.lt_of_lt_of_le (hlow x hx) (Nat.le_add_right base k)
    -- the copy's links are not those of a node that is still to be copied
    have hold : ∀ x ∈ n :: xs,
        (copyNode h n (List.range' base k).getLast? (base + k)).next x = h.next x := by
      intro x hx
      refine copyNode_next (Nat.ne_of_lt (hlow' x hx)) fun hlast => ?_
      have hge := (List.mem_range'_1.mp (List.mem_of_mem_getLast? hlast)).1
      exact absurd (hlow x hx) (Nat.not_lt.mpr hge)
    have hv' := hv.rest.congr fun x hx => hold x (List.mem_cons_of_mem n hx)
    have hcopies' := copyNode_visits (n := n) hcopies
    rw [show some base = (List.range' base (k + 1)).head? by rw [List.range'_succ]; rfl]
      at hcopies'
    obtain ⟨h', hrun, hchain, hcopied, -⟩ := ih hv'
      (fun x hx => hlow x (List.mem_cons_of_mem n hx)) hcopies' (Nat.le_of_succ_le_succ hfuel)
    rw [range'_getLast?_succ, ← Nat.add_assoc] at hrun
    have hsum : k + (n :: xs).length = k + 1 + xs.length := by
      rw [List.length_cons]
      omega
    refine ⟨h', ?_, ?_, hcopied.cons fun x hx => hlow' x (List.mem_cons_of_mem n hx), ?_⟩
    · rw [copyLoop, range'_head?_succ, hold n List.mem_cons_self, hrun, hsum]
    · rw [hsum]
      exact hchain
    · intro _
      rw [hcopied.oldPrev (base + k) (Nat.lt_succ_self _), copyNode_prev, Function.update_self]

/-! ## `ina_list_resize`

A list without a pool keeps its nodes. One that has a pool gets copies, of which the first has no
`prev`. -/

/-- **What a resize leaves** of a list with a pool: a chain of copies with the same data, and no
    `prev` in the first. -/
theorem resize_copies {newPool : Nat → Bool} {fuel : Nat} {m : Mem δ} {l : Nat}
    {cells : List (Cell δ)} (hw : WellFormed m.heap l cells)
    (htop : ∀ n ∈ nodes cells, n < m.top) (hfuel : cells.length ≤ fuel) (minNodes max : Nat)
    (hmalloc : m.nomalloc l = false)
    (hpool : newPool (poolSize (m.heap.list l).count minNodes) = true)
    (hmp : m.pooled l = true) :
    ∃ m', inaListResize newPool fuel m l minNodes max = (.rc (.ok ()), m') ∧
      Chain m'.heap l (cellsOf m'.heap.data (List.range' m.top cells.length)) ∧
      (List.range' m.top cells.length).map m'.heap.data = cells.map Cell.data ∧
      (m'.heap.list l).count = cells.length ∧ (cells ≠ [] → m'.heap.prev m.top = none) := by
  have hlen : (nodes cells).length = cells.length := List.length_map _
  have hfuel' : (nodes cells).length ≤ fuel := Nat.le_trans (Nat.le_of_eq hlen) hfuel
  -- The loop over all nodes, with no copy made yet.
  obtain ⟨h', hrun, hchain, hcopied, hprev⟩ :=
    copyLoop_spec m.top (k := 0) hw.visits htop .null hfuel'
  have hdata := hcopied.data
  have hcells : (nodes cells).map m.heap.data = cells.map Cell.data := by
    rw [nodes, List.map_map]
    exact List.map_congr_left hw.data
  rw [Nat.zero_add, hlen] at hrun hchain
  rw [hcells, hlen] at hdata
  refine ⟨setPool { m with heap := h'.modify l fun r =>
      { r with head := (List.range' m.top cells.length).head? }, top := m.top + cells.length } l
    max, ?_, ⟨?_, ?_⟩, hdata, ?_, ?_⟩
  · rw [inaListResize, if_neg (by rw [hmalloc]; exact Bool.false_ne_true), if_pos hpool,
      if_pos hmp]
    have hrun' : copyLoop fuel m.heap (m.heap.list l).head none none m.top =
        some (h', (List.range' m.top cells.length).head?, m.top + cells.length) := hrun
    rw [hrun']
  · rw [nodes_cellsOf]
    simp only [setPool, Heap.modify_list, Heap.modify_next, Function.update_self]
    exact hchain
  · intro c hc
    obtain ⟨n, -, rfl⟩ := List.mem_map.mp hc
    rfl
  · simp only [setPool, Heap.modify_list, Function.update_self, hcopied.list]
    rw [hw.count, hlen]
  · intro hne
    exact hprev fun hnil => hne (List.map_eq_nil_iff.mp hnil)

/-- Only the recycle array and the pool change. -/
theorem WellFormed.setPool {m : Mem δ} {l : Nat} {cells : List (Cell δ)}
    (hw : WellFormed m.heap l cells) (max : Nat) :
    WellFormed (setPool m l max).heap l cells :=
  (hw.holds.setRecycle l max (recycleArray max) 0).wellFormed

/-- A resize that succeeds has found a pool. -/
theorem resize_succeeds {newPool : Nat → Bool} {fuel : Nat} {m : Mem δ} {l minNodes max : Nat}
    (hout : (inaListResize newPool fuel m l minNodes max).1 = .rc (.ok ())) :
    m.nomalloc l = false ∧ newPool (poolSize (m.heap.list l).count minNodes) = true := by
  constructor
  · by_contra hmalloc
    rw [inaListResize, if_pos (Bool.of_not_eq_false hmalloc)] at hout
    cases hout
  · by_contra hpool
    rw [inaListResize, if_neg hpool] at hout
    split at hout
    · cases hout
    · cases hout

/-- Without a pool of its own the list keeps its nodes. -/
theorem resize_unpooled {newPool : Nat → Bool} {fuel : Nat} {m : Mem δ} {l minNodes max : Nat}
    (hmp : m.pooled l = false)
    (hout : (inaListResize newPool fuel m l minNodes max).1 = .rc (.ok ())) :
    (inaListResize newPool fuel m l minNodes max).2 = setPool m l max := by
  obtain ⟨hmalloc, hpool⟩ := resize_succeeds hout
  rw [inaListResize, hmalloc, hmp, if_neg Bool.false_ne_true, if_pos hpool,
    if_neg Bool.false_ne_true]

/-- The call succeeds, for a list that has nodes and a pool. -/
def CopiesNodes (newPool : Nat → Bool) (m : Mem δ) (l minNodes : Nat) : Prop :=
  m.nomalloc l = false ∧ newPool (poolSize (m.heap.list l).count minNodes) = true ∧
    m.pooled l = true ∧ (m.heap.list l).head ≠ none

/-- **A resize keeps the list exactly where it copies nothing.** For every well-formed list, all
    numbers of nodes and whatever pools can be had: if `ina_list_resize` succeeds, the list is well
    formed with the same data, so that insertions at the end and removals do what they should, if
    and only if it is not a list with nodes and a pool. -/
theorem resize_keeps_list_iff (newPool : Nat → Bool) (fuel : Nat) (m : Mem δ) (l : Nat)
    (cells : List (Cell δ)) (hw : WellFormed m.heap l cells)
    (htop : ∀ n ∈ nodes cells, n < m.top) (hfuel : cells.length ≤ fuel) (minNodes max : Nat) :
    ((inaListResize newPool fuel m l minNodes max).1 = .rc (.ok ()) →
      ∃ cells', cells'.map Cell.data = cells.map Cell.data ∧
        Usable (inaListResize newPool fuel m l minNodes max).2.heap l cells') ↔
      ¬ CopiesNodes newPool m l minNodes := by
  constructor
  · rintro hkeeps ⟨hmalloc, hpool, hmp, hhead⟩
    have hne : cells ≠ [] := by
      rintro rfl
      exact hhead hw.visits.head
    obtain ⟨m', hrun, hchain, -, -, hprev⟩ :=
      resize_copies hw htop hfuel minNodes max hmalloc hpool hmp
    rw [hrun] at hkeeps
    obtain ⟨cells', -, husable⟩ := hkeeps rfl
    -- the head is the first copy, which has no `prev`
    have hlist : (m'.heap.list l).head = some m.top := by
      rw [hchain.visits.head, nodes_cellsOf]
      obtain ⟨n, hn⟩ := Nat.exists_eq_add_one.mpr (List.length_pos_iff.mpr hne)
      rw [hn, List.range'_succ]
      rfl
    exact husable.wellFormed.prev_head hlist (hprev hne)
  · intro hcopies hout
    cases hmp : m.pooled l with
    | false =>
      rw [resize_unpooled hmp hout]
      exact ⟨cells, rfl, (hw.setPool max).usable⟩
    | true =>
      obtain ⟨hmalloc, hpool⟩ := resize_succeeds hout
      -- there is nothing to copy
      have hhead : (m.heap.list l).head = none := by
        by_contra hhead
        exact hcopies ⟨hmalloc, hpool, hmp, hhead⟩
      obtain rfl : cells = [] := by
        rw [hw.visits.head] at hhead
        exact List.map_eq_nil_iff.mp (List.head?_eq_none_iff.mp hhead)
      obtain ⟨m', hrun, hchain, -, hcount, -⟩ :=
        resize_copies hw htop hfuel minNodes max hmalloc hpool hmp
      rw [hrun]
      exact ⟨[], rfl, (wellFormed_nil hchain.visits.head hcount).usable⟩

/-- A list of two nodes without a pool is resized, and a third node inserted. -/
theorem resize_keeps_unpooled_list :
    let m : Mem Nat := ⟨twoNodes 5 3, fun _ => false, fun _ => false, 3⟩
    (∀ n ∈ nodes [⟨1, some 5⟩, (⟨2, some 3⟩ : Cell Nat)], n < m.top) ∧
      ∃ cells' : List (Cell Nat), cells'.map Cell.data = [some 5, some 3] ∧
        Usable (inaListResize (fun _ => true) 2 m 0 0 4).2.heap 0 cells' := by
  intro m
  have htop : ∀ n ∈ nodes [⟨1, some 5⟩, (⟨2, some 3⟩ : Cell Nat)], n < m.top := by
    show ∀ n ∈ [1, 2], n < 3
    decide
  refine ⟨htop, ?_⟩
  exact (resize_keeps_list_iff (fun _ => true) 2 m 0 _ (wellFormed_twoNodes 5 3) htop
    (Nat.le_refl 2) 0 4).mpr (fun hcopies => Bool.false_ne_true hcopies.2.2.1) rfl

/-- A list of two nodes with a pool is resized; its head has no `prev` then, and the next insertion
    writes through it. -/
theorem resize_loses_tail :
    let m : Mem Nat := ⟨twoNodes 5 3, fun _ => false, fun _ => true, 3⟩
    let m' := (inaListResize (fun _ => true) 2 m 0 0 0).2
    WellFormed m.heap 0 [⟨1, some 5⟩, ⟨2, some 3⟩] ∧
      (inaListResize (fun _ => true) 2 m 0 0 0).1 = .rc (.ok ()) ∧
      (∀ cells, ¬ WellFormed m'.heap 0 cells) ∧
      (inaListInsertTail m'.heap 0 (some 5)).1 = .fault := by
  intro m m'
  refine ⟨wellFormed_twoNodes 5 3, rfl, ?_, rfl⟩
  intro cells hw
  exact hw.prev_head (x := 3) rfl rfl

end LinkedList
end Inac
