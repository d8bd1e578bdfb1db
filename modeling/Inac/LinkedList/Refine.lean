import Inac.LinkedList.Defs
import Inac.Lib.Links

/-!
# Lists refine sequences

`Refines h s` says that in memory `h` each list holds the sequence `s` gives it: its chain is laid
out as `Lib.Looped` says, `count` is the length, the nodes hold the data, and no node is in two
lists. Each operation takes related states to related states and returns what `spec` returns, with
one exception that has nothing to do with the chain: a node that `ina_list_remove_data` has taken
out goes to the recycle array, and where the array has no slot left for it the store is a fault.
-/

namespace Inac
namespace LinkedList

open Lib

variable {δ : Type}

/-! ## The relation

Each list by itself, and that no two share a node. -/

/-- List `l` holds the cells, in this order. -/
structure Holds (h : Heap δ) (l : Nat) (cells : List (Cell δ)) : Prop where
  head : (h.list l).head = (nodes cells).head?
  count : (h.list l).count = cells.length
  looped : Looped h.next h.prev (nodes cells)
  data : ∀ c ∈ cells, h.data c.node = c.data

structure Refines (h : Heap δ) (s : Nat → List (Cell δ)) : Prop where
  holds : ∀ l, Holds h l (s l)
  apart : ∀ l k, l ≠ k → ∀ n ∈ nodes (s l), n ∉ nodes (s k)

/-! ## Frames

A call touches the nodes of its list, or one that is in no list. The other lists are carried along
by `Refines.set`. -/

/-- `h'` is `h` but for the lists `ls` and the nodes `xs`. -/
structure SameBut (ls xs : List Nat) (h h' : Heap δ) : Prop where
  list : ∀ k, k ∉ ls → h'.list k = h.list k
  next : ∀ x, x ∉ xs → h'.next x = h.next x
  prev : ∀ x, x ∉ xs → h'.prev x = h.prev x
  data : ∀ x, x ∉ xs → h'.data x = h.data x

theorem SameBut.refl (ls xs : List Nat) (h : Heap δ) : SameBut ls xs h h :=
  ⟨fun _ _ => rfl, fun _ _ => rfl, fun _ _ => rfl, fun _ _ => rfl⟩

section Writes
variable {ls xs : List Nat} {h h' : Heap δ} {n : Nat}

theorem SameBut.setNext (hs : SameBut ls xs h h') (hn : n ∈ xs) (v : Option Nat) :
    SameBut ls xs h (h'.setNext n v) :=
  ⟨hs.list, fun x hx => (Function.update_of_ne (ne_of_mem_of_not_mem hn hx).symm _ _).trans
    (hs.next x hx), hs.prev, hs.data⟩

theorem SameBut.setPrev (hs : SameBut ls xs h h') (hn : n ∈ xs) (v : Option Nat) :
    SameBut ls xs h (h'.setPrev n v) :=
  ⟨hs.list, hs.next, fun x hx => (Function.update_of_ne
    (ne_of_mem_of_not_mem hn hx).symm _ _).trans (hs.prev x hx), hs.data⟩

theorem SameBut.setData (hs : SameBut ls xs h h') (hn : n ∈ xs) (v : Option δ) :
    SameBut ls xs h (h'.setData n v) :=
  ⟨hs.list, hs.next, hs.prev, fun x hx => (Function.update_of_ne
    (ne_of_mem_of_not_mem hn hx).symm _ _).trans (hs.data x hx)⟩

theorem SameBut.modify (hs : SameBut ls xs h h') {l : Nat} (hl : l ∈ ls)
    (f : InaList → InaList) : SameBut ls xs h (h'.modify l f) :=
  ⟨fun k hk => (Function.update_of_ne (ne_of_mem_of_not_mem hl hk).symm _ _).trans (hs.list k hk),
    hs.next, hs.prev, hs.data⟩

end Writes

/-- Another list is held as before, if none of its nodes is among those that changed. -/
theorem Holds.frame {ls xs : List Nat} {h h' : Heap δ} {k : Nat} {cells : List (Cell δ)}
    (hh : Holds h k cells) (hs : SameBut ls xs h h') (hk : k ∉ ls)
    (hxs : ∀ x ∈ nodes cells, x ∉ xs) : Holds h' k cells := by
  refine ⟨?_, ?_, ?_, ?_⟩
  · rw [hs.list k hk]; exact hh.head
  · rw [hs.list k hk]; exact hh.count
  · exact hh.looped.congr (fun x hx => hs.next x (hxs x hx)) (fun x hx => hs.prev x (hxs x hx))
  · intro c hc
    rw [hs.data c.node (hxs c.node (List.mem_map_of_mem hc))]
    exact hh.data c hc

/-- One list changes, on nodes that are its own or nobody's. -/
theorem Refines.set {h h' : Heap δ} {s : Nat → List (Cell δ)} (hr : Refines h s) {l : Nat}
    {xs : List Nat} {cells : List (Cell δ)} (hs : SameBut [l] xs h h') (hh : Holds h' l cells)
    (hxs : ∀ k, k ≠ l → ∀ x ∈ nodes (s k), x ∉ xs)
    (hcells : ∀ k, k ≠ l → ∀ x ∈ nodes cells, x ∉ nodes (s k)) :
    Refines h' (Function.update s l cells) := by
  constructor
  · intro k
    by_cases hk : k = l
    · rw [hk, Function.update_self]; exact hh
    · rw [Function.update_of_ne hk]
      exact (hr.holds k).frame hs (by simpa using hk) (hxs k hk)
  · -- Two lists, of which at most one has changed.
    intro k k' hne n hn
    by_cases hk : k = l
    · rw [hk, Function.update_self] at hn
      rw [Function.update_of_ne (by rw [← hk]; exact hne.symm)]
      exact hcells k' (by rw [← hk]; exact hne.symm) n hn
    · rw [Function.update_of_ne hk] at hn
      by_cases hk' : k' = l
      · rw [hk', Function.update_self]
        exact fun hmem => hcells k hk n hmem hn
      · rw [Function.update_of_ne hk']
        exact hr.apart k k' hne n hn

/-! ## `ina_list_insert_tail`

A lemma for each branch, and one for the function. -/

/-- What a call has done: it returned, list `l` holds the new cells, and nothing but the list and
    the nodes `xs` has changed. -/
structure Done (h : Heap δ) (l : Nat) (xs : List Nat) (cells : List (Cell δ))
    (r : Out × Heap δ) : Prop where
  out : r.1 = .rc (.ok ())
  holds : Holds r.2 l cells
  frame : SameBut [l] xs h r.2

theorem Done.intro {h h' : Heap δ} {l : Nat} {xs : List Nat} {cells : List (Cell δ)}
    (hh : Holds h' l cells) (hs : SameBut [l] xs h h') :
    Done h l xs cells (.rc (.ok ()), h') := ⟨rfl, hh, hs⟩

/-- What an insertion does to the list records. -/
theorem linkTail_list (h : Heap δ) (l n : Nat) :
    (linkTail h l n).2.list = Function.update h.list l
      { h.list l with head := (h.list l).head.or (some n), count := (h.list l).count + 1 } := by
  cases hhead : (h.list l).head with
  | none =>
    simp only [linkTail, Heap.modify_list, Heap.setNext_list, Heap.setPrev_list,
      Function.update_self, Function.update_idem, hhead]
    rfl
  | some x =>
    have hlist : (h.modify l fun r => { r with count := r.count + 1 }).list =
        Function.update h.list l
          { h.list l with head := (some x).or (some n), count := (h.list l).count + 1 } := by
      rw [Option.some_or, ← hhead]
      rfl
    simp only [linkTail, Heap.modify_list, Function.update_self, hhead]
    split
    · exact hlist
    · exact hlist

/-- The first node of a list. -/
theorem linkTail_nil {h : Heap δ} {l n : Nat} (hh : Holds h l []) :
    Done h l [n] [⟨n, h.data n⟩] (linkTail h l n) := by
  have hhead : (h.list l).head = none := hh.head
  have hcount : (h.list l).count = 0 := hh.count
  simp only [linkTail, Heap.modify_list, Function.update_self, hhead]
  refine Done.intro ⟨?_, ?_, ?_, ?_⟩ ?_
  · simp [nodes]
  · simp [hcount]
  · exact looped_singleton (Function.update_self _ _ _) (Function.update_self _ _ _)
  · simp
  · have hframe := (SameBut.refl [l] [n] h).modify List.mem_cons_self
      (fun r => { r with count := r.count + 1 })
    exact ((hframe.setPrev List.mem_cons_self (some n)).setNext List.mem_cons_self none).modify
      List.mem_cons_self (fun r => { r with head := some n })

/-- A further node goes behind the last one. -/
theorem linkTail_cons {h : Heap δ} {l n : Nat} {c : Cell δ} {cs : List (Cell δ)}
    (hh : Holds h l (c :: cs)) (hn : n ∉ nodes (c :: cs)) :
    Done h l (n :: nodes (c :: cs)) (c :: cs ++ [⟨n, h.data n⟩]) (linkTail h l n) := by
  have hhead : (h.list l).head = some c.node := hh.head
  obtain ⟨z, hz⟩ := exists_getLast? c.node (nodes cs)
  have hzmem : z ∈ nodes (c :: cs) := List.mem_of_mem_getLast? hz
  have hne : n ≠ c.node := fun e => hn (e ▸ List.mem_cons_self)
  -- The head's `prev` is the tail, which the new node comes behind.
  have hprev : h.prev c.node = some z := hh.looped.prev_head.trans hz
  simp only [linkTail, Heap.modify_list, Function.update_self, hhead, Heap.modify_prev,
    Heap.setPrev_prev, Heap.setNext_prev, Function.update_of_ne hne, hprev]
  refine Done.intro ⟨?_, ?_, ?_, ?_⟩ ?_
  · simp [nodes, hhead]
  · simp [hh.count]
  · have hnodes : nodes (c :: cs ++ [⟨n, h.data n⟩]) = c.node :: nodes cs ++ [n] := by
      simp [nodes]
    rw [hnodes]
    exact hh.looped.snoc hz hn
  · intro e he
    rcases List.mem_append.mp he with he | he
    · exact hh.data e he
    · obtain rfl := List.mem_singleton.mp he
      rfl
  · have hframe := (SameBut.refl [l] (n :: nodes (c :: cs)) h).modify List.mem_cons_self
      (fun r => { r with count := r.count + 1 })
    exact (((hframe.setPrev List.mem_cons_self (some z)).setPrev
      (List.mem_cons_of_mem n List.mem_cons_self) (some n)).setNext List.mem_cons_self
      none).setNext (List.mem_cons_of_mem n hzmem) (some n)

/-- **`ina_list_insert_tail`** appends a cell. -/
theorem linkTail_spec {h : Heap δ} {l n : Nat} {cells : List (Cell δ)}
    (hh : Holds h l cells) (hn : n ∉ nodes cells) :
    Done h l (n :: nodes cells) (cells ++ [⟨n, h.data n⟩]) (linkTail h l n) := by
  cases cells with
  | nil => exact linkTail_nil hh
  | cons c cs => exact linkTail_cons hh hn

/-! ## `ina_list_remove`

The node may be alone, at the head, at the end or between two others. -/

theorem eraseP_split {as bs : List (Cell δ)} {c : Cell δ} {p : Cell δ → Bool}
    (has : ∀ a ∈ as, ¬ p a = true) (hc : p c = true) : (as ++ c :: bs).eraseP p = as ++ bs := by
  rw [List.eraseP_append_right _ has, List.eraseP_cons_of_pos hc]

/-- Nodes are in a sequence once, so erasing by the address takes out the cell itself. -/
theorem eraseP_node {as bs : List (Cell δ)} {c : Cell δ} (hnodup : (nodes (as ++ c :: bs)).Nodup) :
    ((as ++ c :: bs).eraseP fun e => e.node = c.node) = as ++ bs := by
  refine eraseP_split ?_ (decide_eq_true rfl)
  intro a ha he
  rw [nodes, List.map_append, List.nodup_append] at hnodup
  exact hnodup.2.2 a.node (List.mem_map_of_mem ha) c.node List.mem_cons_self
    (of_decide_eq_true he)

theorem nodes_append (as bs : List (Cell δ)) : nodes (as ++ bs) = nodes as ++ nodes bs :=
  List.map_append

/-- A removal touches nothing of the list records but a head and a count. -/
theorem unlink_list (h : Heap δ) (l n : Nat) : ∃ head count,
    (unlink h l n).2.list = Function.update h.list l
      { h.list l with head := head, count := count } := by
  have hself : h.list = Function.update h.list l
      { h.list l with head := (h.list l).head, count := (h.list l).count } :=
    (Function.update_eq_self l h.list).symm
  unfold unlink
  dsimp only
  split
  · exact ⟨_, _, hself⟩
  · split
    · exact ⟨_, _, rfl⟩
    · split
      · exact ⟨_, _, hself⟩
      · exact ⟨_, _, rfl⟩

/-- The four places of a node: it is the only one, the first, the last, or stands between others. -/
theorem unlink_only {h : Heap δ} {l : Nat} {c : Cell δ} (hh : Holds h l [c]) :
    Done h l [c.node] [] (unlink h l c.node) := by
  have hhead : (h.list l).head = some c.node := hh.head
  have hcount : (h.list l).count = 1 := hh.count
  have hnext : h.next c.node = none := hh.looped.next_head
  simp only [unlink, hnext, Option.none_or, hhead, if_true, Heap.setPrev_next]
  refine Done.intro ⟨?_, ?_, looped_nil, ?_⟩ ?_
  · simp [nodes]
  · simp [hcount]
  · simp
  · exact ((SameBut.refl [l] [c.node] h).setPrev List.mem_cons_self _).modify List.mem_cons_self _

theorem unlink_head {h : Heap δ} {l : Nat} {c b : Cell δ} {bs : List (Cell δ)}
    (hh : Holds h l (c :: b :: bs)) :
    Done h l (nodes (c :: b :: bs)) (b :: bs) (unlink h l c.node) := by
  have hhead : (h.list l).head = some c.node := hh.head
  have hnext : h.next c.node = some b.node := hh.looped.next_head
  simp only [unlink, hnext, Option.some_or, hhead, if_true, Heap.setPrev_next]
  refine Done.intro ⟨?_, ?_, ?_, ?_⟩ ?_
  · simp [nodes]
  · simp [hh.count]
  · exact hh.looped.remove_head
  · exact fun e he => hh.data e (List.mem_cons_of_mem c he)
  · exact ((SameBut.refl [l] (nodes (c :: b :: bs)) h).setPrev
      (List.mem_cons_of_mem _ List.mem_cons_self) _).modify List.mem_cons_self _

theorem unlink_last {h : Heap δ} {l : Nat} {x c : Cell δ} {xs : List (Cell δ)}
    (hh : Holds h l (x :: xs ++ [c])) :
    Done h l (nodes (x :: xs ++ [c])) (x :: xs) (unlink h l c.node) := by
  have hnodes : nodes (x :: xs ++ [c]) = nodes (x :: xs) ++ [c.node] := nodes_append _ _
  have hhead : (h.list l).head = some x.node := hh.head
  have hloop := hh.looped
  rw [hnodes] at hloop
  have hnext : h.next c.node = none := hloop.next_at
  have hne : ¬ some x.node = some c.node := by
    intro e
    exact last_not_mem hloop.nodup (Option.some.inj e ▸ List.mem_cons_self)
  -- The node before the last one is the tail from now on, and the head is told.
  obtain ⟨as, a, has⟩ : ∃ as a, nodes (x :: xs) = as ++ [a] := by
    rcases List.eq_nil_or_concat (nodes (x :: xs)) with hnil | ⟨as, a, has⟩
    · exact absurd hnil (List.cons_ne_nil _ _)
    · exact ⟨as, a, by rw [has, List.concat_eq_append]⟩
  have hprev : h.prev c.node = some a := by
    rw [has] at hloop
    exact hloop.prev_at
  have hcx : c.node ≠ x.node := fun e => hne (by rw [e])
  simp only [unlink, hnext, Option.none_or, hhead, if_neg hne, Heap.setPrev_next,
    Heap.setPrev_prev, Function.update_of_ne hcx, hprev]
  refine Done.intro ⟨?_, ?_, ?_, ?_⟩ ?_
  · simp [nodes, hhead]
  · simp [hh.count]
  · exact hloop.remove_last has
  · exact fun e he => hh.data e (List.mem_append_left _ he)
  · have ha : a ∈ nodes (x :: xs ++ [c]) := by
      rw [hnodes, has]; simp
    exact (((SameBut.refl [l] (nodes (x :: xs ++ [c])) h).setPrev List.mem_cons_self _).setNext
      ha _).modify List.mem_cons_self _

theorem unlink_inner {h : Heap δ} {l : Nat} {a c b : Cell δ} {as bs : List (Cell δ)}
    (hh : Holds h l (as ++ [a] ++ c :: b :: bs)) :
    Done h l (nodes (as ++ [a] ++ c :: b :: bs)) (as ++ [a] ++ b :: bs) (unlink h l c.node) := by
  have hnodes : nodes (as ++ [a] ++ c :: b :: bs) =
      nodes as ++ [a.node] ++ c.node :: b.node :: nodes bs := by simp [nodes]
  have hloop := hh.looped
  rw [hnodes] at hloop
  have hnext : h.next c.node = some b.node := hloop.next_at
  have hprev : h.prev c.node = some a.node := hloop.prev_at
  obtain ⟨-, hback, hdisj⟩ := List.nodup_append.mp hloop.nodup
  have hcb : c.node ≠ b.node := by
    intro e
    exact (List.nodup_cons.mp hback).1 (e ▸ List.mem_cons_self)
  -- the head is in front of `c`, so it is another node
  have hne : ¬ (h.list l).head = some c.node := by
    intro e
    rw [hh.head, hnodes, List.head?_append] at e
    have hmem : c.node ∈ nodes as ++ [a.node] := by
      cases hd : (nodes as ++ [a.node]).head? with
      | none => simp at hd
      | some v =>
        rw [hd, Option.some_or, Option.some.injEq] at e
        exact e ▸ List.mem_of_mem_head? hd
    exact hdisj c.node hmem c.node List.mem_cons_self rfl
  simp only [unlink, hnext, Option.some_or, if_neg hne, Heap.setPrev_next, Heap.setPrev_prev,
    Function.update_of_ne hcb, hprev]
  refine Done.intro ⟨?_, ?_, ?_, ?_⟩ ?_
  · have hsame : (nodes (as ++ [a] ++ b :: bs)).head? = (h.list l).head := by
      rw [hh.head, nodes_append, nodes_append, List.head?_append, List.head?_append]
      cases as <;> simp [nodes]
    rw [hsame, Heap.modify_list, Function.update_self]
    rfl
  · simp [hh.count]
  · have hnodes' : nodes (as ++ [a] ++ b :: bs) =
        nodes as ++ [a.node] ++ b.node :: nodes bs := by simp [nodes]
    rw [hnodes']
    exact hloop.remove_inner
  · intro e he
    refine hh.data e ?_
    rcases List.mem_append.mp he with he | he
    · exact List.mem_append_left _ he
    · exact List.mem_append_right _ (List.mem_cons_of_mem c he)
  · have ha : a.node ∈ nodes (as ++ [a] ++ c :: b :: bs) := by simp [nodes]
    have hb : b.node ∈ nodes (as ++ [a] ++ c :: b :: bs) := by simp [nodes]
    exact (((SameBut.refl [l] _ h).setPrev hb _).setNext ha _).modify List.mem_cons_self _

/-- **`ina_list_remove`** takes out the cell of the node. -/
theorem unlink_spec {h : Heap δ} {l n : Nat} {cells : List (Cell δ)} (hh : Holds h l cells)
    (hn : n ∈ nodes cells) :
    Done h l (nodes cells) (cells.eraseP fun c => c.node = n) (unlink h l n) := by
  obtain ⟨c, hc, rfl⟩ := List.mem_map.mp hn
  obtain ⟨as, bs, rfl⟩ := List.append_of_mem hc
  rw [eraseP_node hh.looped.nodup]
  rcases List.eq_nil_or_concat as with rfl | ⟨as, a, rfl⟩
  · cases bs with
    | nil => exact unlink_only hh
    | cons b bs => exact unlink_head hh
  · rw [List.concat_eq_append] at hh ⊢
    cases bs with
    | nil =>
      rw [List.append_nil]
      cases as with
      | nil => exact unlink_last hh
      | cons x xs => exact unlink_last hh
    | cons b bs => exact unlink_inner hh

/-! ## `ina_list_remove_data`

The node is unlinked before it is freed, so what becomes of the second step does not change what the
list holds. -/

/-- The recycle array has a slot for the node, or takes no more nodes. -/
def InaList.TakesNode (l : InaList) : Prop := l.lastFree < toInt32 l.maxRecyclable → l.Room

instance (l : InaList) : Decidable l.TakesNode := inferInstanceAs (Decidable (_ → _))

theorem unlink_takesNode {h : Heap δ} {l n : Nat} :
    ((unlink h l n).2.list l).TakesNode ↔ (h.list l).TakesNode := by
  obtain ⟨head, count, hlist⟩ := unlink_list h l n
  rw [hlist, Function.update_self]
  exact Iff.rfl

theorem nodeFree_out {h : Heap δ} {l n : Nat} : (inaListNodeFree h l n).1 =
    if (h.list l).TakesNode then .rc (.ok ()) else .fault := by
  unfold inaListNodeFree InaList.TakesNode
  by_cases hlast : (h.list l).lastFree < toInt32 (h.list l).maxRecyclable
  · by_cases hroom : (h.list l).Room <;> simp [hlast, hroom]
  · simp [hlast]

/-- What is recycled has nothing to do with what a list holds. -/
theorem Holds.setRecycle {h : Heap δ} {k : Nat} {cells : List (Cell δ)} (hh : Holds h k cells)
    (l max : Nat) (free : List (Option Nat)) (last : Int) :
    Holds (h.modify l fun r =>
      { r with maxRecyclable := max, firstFree := free, lastFree := last }) k cells := by
  by_cases hk : k = l
  · subst hk
    refine ⟨?_, ?_, hh.looped, hh.data⟩
    · rw [Heap.modify_list, Function.update_self]
      exact hh.head
    · rw [Heap.modify_list, Function.update_self]
      exact hh.count
  · refine ⟨?_, ?_, hh.looped, hh.data⟩
    · rw [Heap.modify_list, Function.update_of_ne hk]
      exact hh.head
    · rw [Heap.modify_list, Function.update_of_ne hk]
      exact hh.count

/-- Freeing a node changes no list, only the nodes that are kept for later. -/
theorem nodeFree_holds {h : Heap δ} {l n k : Nat} {cells : List (Cell δ)}
    (hh : Holds h k cells) : Holds (inaListNodeFree h l n).2 k cells := by
  unfold inaListNodeFree
  split
  · split
    · exact hh.setRecycle l _ _ _
    · exact hh
  · exact hh

section RemoveData
variable [DecidableEq δ]

/-- The walk finds the first cell with the data, and needs no more steps than there are cells. -/
theorem seekData_eq {h : Heap δ} {d : δ} {cells : List (Cell δ)} {fuel : Nat} {p : Option Nat}
    (hp : Visits h.next p (nodes cells)) (hdata : ∀ c ∈ cells, h.data c.node = c.data)
    (hfuel : cells.length ≤ fuel) :
    seekData h d fuel p = some ((cells.find? fun c => c.data = some d).map Cell.node) := by
  induction cells generalizing fuel p with
  | nil =>
    cases hp
    cases fuel <;> rfl
  | cons c cs ih =>
    obtain - | ⟨-, -, hrest⟩ := hp
    cases fuel with
    | zero => exact absurd hfuel (by simp)
    | succ fuel =>
      rw [seekData, hdata c List.mem_cons_self]
      by_cases hc : c.data = some d
      · rw [if_pos hc, List.find?_cons_of_pos]
        · rfl
        · exact decide_eq_true hc
      · rw [if_neg hc, List.find?_cons_of_neg (by simpa using hc)]
        exact ih hrest (fun e he => hdata e (List.mem_cons_of_mem c he))
          (by simpa using hfuel)

end RemoveData

/-! ## `ina_list_concat`

Each of the two heads has its tail at hand, so no list is walked over. -/

/-- Onto an empty list the other one is taken over as it is. -/
theorem concatHeads_nil {h : Heap δ} {dest src : Nat} {y : Cell δ} {ys : List (Cell δ)}
    (hd : Holds h dest []) (hs : Holds h src (y :: ys)) :
    Done h dest (nodes (y :: ys)) (y :: ys) (concatHeads h dest src y.node) := by
  have hhead : (h.list dest).head = none := hd.head
  simp only [concatHeads, hhead]
  refine Done.intro ⟨?_, ?_, hs.looped, hs.data⟩ ?_
  · simp [nodes]
  · simp [hs.count]
  · exact (SameBut.refl [dest] (nodes (y :: ys)) h).modify List.mem_cons_self _

/-- Else the last node of the one is linked to the first of the other. -/
theorem concatHeads_cons {h : Heap δ} {dest src : Nat} {x y : Cell δ} {xs ys : List (Cell δ)}
    (hd : Holds h dest (x :: xs)) (hs : Holds h src (y :: ys))
    (hapart : ∀ a ∈ nodes (x :: xs), a ∉ nodes (y :: ys)) :
    Done h dest (nodes (x :: xs) ++ nodes (y :: ys)) (x :: xs ++ y :: ys)
      (concatHeads h dest src y.node) := by
  have hhead : (h.list dest).head = some x.node := hd.head
  obtain ⟨z, hz⟩ := exists_getLast? x.node (nodes xs)
  obtain ⟨w, hw⟩ := exists_getLast? y.node (nodes ys)
  -- The two tails.
  have hprevx : h.prev x.node = some z := hd.looped.prev_head.trans hz
  have hprevy : h.prev y.node = some w := hs.looped.prev_head.trans hw
  simp only [concatHeads, hhead, hprevx, hprevy]
  refine Done.intro ⟨?_, ?_, ?_, ?_⟩ ?_
  · simp [nodes, hhead]
  · simp only [Heap.modify_list, Heap.setNext_list, Heap.setPrev_list, Function.update_self,
      hd.count, hs.count, List.length_append]
  · rw [nodes_append]
    exact hd.looped.append hs.looped hz hw hapart
  · intro e he
    rcases List.mem_append.mp he with he | he
    · exact hd.data e he
    · exact hs.data e he
  · have hx : x.node ∈ nodes (x :: xs) ++ nodes (y :: ys) := by simp [nodes]
    have hy : y.node ∈ nodes (x :: xs) ++ nodes (y :: ys) := by simp [nodes]
    have hz' : z ∈ nodes (x :: xs) ++ nodes (y :: ys) :=
      List.mem_append_left _ (List.mem_of_mem_getLast? hz)
    exact ((((SameBut.refl [dest] _ h).setPrev hx (some w)).setPrev hy (some z)).setNext hz'
      (some y.node)).modify List.mem_cons_self _

/-- **`ina_list_concat`** appends the cells of the other list. -/
theorem concatHeads_spec {h : Heap δ} {dest src : Nat} {xs : List (Cell δ)} {y : Cell δ}
    {ys : List (Cell δ)} (hd : Holds h dest xs) (hs : Holds h src (y :: ys))
    (hapart : ∀ a ∈ nodes xs, a ∉ nodes (y :: ys)) :
    Done h dest (nodes xs ++ nodes (y :: ys)) (xs ++ y :: ys)
      (concatHeads h dest src y.node) := by
  cases xs with
  | nil => exact concatHeads_nil hd hs
  | cons x xs => exact concatHeads_cons hd hs hapart

end LinkedList
end Inac
