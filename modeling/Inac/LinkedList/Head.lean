import Inac.LinkedList.Run

/-!
# Insertion at the head

`ina_list_insert_head` on a list with nodes links the new node in front of the head and makes it the
head's `prev`, but never assigns `list->head`. So the list still begins where it did: the new node
is counted and not in the list, and the tail, which the head's `prev` held, is overwritten. On an
empty list the code is that of `ina_list_insert_tail`, and right.
-/

namespace Inac
namespace LinkedList

open Lib

variable {δ : Type}

/-! ## The code

An insertion at the head as it stands in the source, and the calls that a caller may mix it with. -/

/-- `ina_list_insert_head` of a node. -/
def linkHead (h : Heap δ) (l n : Nat) : Out × Heap δ :=
  let h := h.modify l fun r => { r with count := r.count + 1 }
  match (h.list l).head with
  | some head =>
    let h := h.setPrev n (h.prev head)
    let h := h.setPrev head (some n)
    (.rc (.ok ()), h.setNext n (some head))
  | none =>
    let h := h.setPrev n (some n)
    let h := h.setNext n none
    (.rc (.ok ()), h.modify l fun r => { r with head := some n })

def inaListInsertHead (h : Heap δ) (l : Nat) (node : Option Nat) : Out × Heap δ :=
  match node with
  | none => (.rc (.error .invalidArgument), h)
  | some n => linkHead h l n

/-- A call; as in `Op`, the caller puts the data into the node it inserts. -/
inductive EndOp (δ : Type) where
  | insertHead (l n : Nat) (data : Option δ)
  | insertTail (l n : Nat) (data : Option δ)
  | remove (l n : Nat)

def endStep (h : Heap δ) : EndOp δ → Out × Heap δ
  | .insertHead l n d => inaListInsertHead (h.setData n d) l (some n)
  | .insertTail l n d => inaListInsertTail (h.setData n d) l (some n)
  | .remove l n => inaListRemove h l (some n)

/-! ## What the calls are for

As in `Inac.LinkedList.Defs`, with the new node in front. -/

def endSpec (s : Nat → List (Cell δ)) : EndOp δ → Out × (Nat → List (Cell δ))
  | .insertHead l n d => (.rc (.ok ()), Function.update s l (⟨n, d⟩ :: s l))
  | .insertTail l n d => (.rc (.ok ()), Function.update s l (s l ++ [⟨n, d⟩]))
  | .remove l n => (.rc (.ok ()), Function.update s l ((s l).eraseP fun c => c.node = n))

/-- What a caller owes, as in `Allowed`. -/
def EndAllowed (s : Nat → List (Cell δ)) : EndOp δ → Prop
  | .insertHead _ n _ => ∀ k, n ∉ nodes (s k)
  | .insertTail _ n _ => ∀ k, n ∉ nodes (s k)
  | .remove l n => n ∈ nodes (s l)

/-- The call returns, and leaves every list well formed with the sequence it should have. -/
def EndRight (hs : Heap δ × (Nat → List (Cell δ))) (op : EndOp δ) : Prop :=
  (endStep hs.1 op).1 = .rc (.ok ()) ∧
    ∀ l, WellFormed (endStep hs.1 op).2 l ((endSpec hs.2 op).2 l)

/-- The call inserts at the head of a list that has nodes. -/
def BeforeNodes (h : Heap δ) : EndOp δ → Prop
  | .insertHead l _ _ => (h.list l).head ≠ none
  | _ => False

/-! ## One call

On an empty list both ends are the same. On any other the record keeps its head, while the sequence
that is meant begins with the new node. -/

theorem linkHead_empty {h : Heap δ} {l n : Nat} (hhead : (h.list l).head = none) :
    linkHead h l n = linkTail h l n := by
  simp only [linkHead, linkTail, Heap.modify_list, Function.update_self, hhead]

/-- The list keeps its head. -/
theorem linkHead_head {h : Heap δ} {l n : Nat} (hhead : (h.list l).head ≠ none) :
    ((linkHead h l n).2.list l).head = (h.list l).head := by
  obtain ⟨x, hx⟩ := Option.ne_none_iff_exists'.mp hhead
  simp only [linkHead, Heap.modify_list, Function.update_self, hx, Heap.setNext_list,
    Heap.setPrev_list]

theorem endStep_refines {h : Heap δ} {s : Nat → List (Cell δ)} {op : EndOp δ}
    (hok : EndAllowed s op) (hbad : ¬ BeforeNodes h op) (hr : Refines h s) :
    (endStep h op).1 = .rc (.ok ()) ∧ Refines (endStep h op).2 (endSpec s op).2 := by
  cases op with
  | insertHead l n d =>
    have hhead : (h.list l).head = none := not_not.mp hbad
    have hnil : s l = [] := by
      have hnodes := (hr.holds l).head
      rw [hhead] at hnodes
      exact List.map_eq_nil_iff.mp (List.head?_eq_none_iff.mp hnodes.symm)
    have hspec : (endSpec s (.insertHead l n d)).2 =
        Function.update s l (s l ++ [⟨n, d⟩]) := by
      rw [endSpec, hnil]
      rfl
    have hstep : endStep h (.insertHead l n d) = linkTail (h.setData n d) l n :=
      linkHead_empty hhead
    rw [hspec, hstep]
    exact hr.linkTail d hok
  | insertTail l n d => exact hr.linkTail d hok
  | remove l n => exact hr.unlink hok

theorem not_endRight {h : Heap δ} {s : Nat → List (Cell δ)} {op : EndOp δ}
    (hok : EndAllowed s op) (hbad : BeforeNodes h op) (hr : Refines h s) :
    ¬ EndRight (h, s) op := by
  cases op with
  | insertTail l n d => exact absurd hbad id
  | remove l n => exact absurd hbad id
  | insertHead l n d =>
    rintro ⟨-, hall⟩
    have hvisits := (hall l).visits
    have hspec : (endSpec s (.insertHead l n d)).2 l = ⟨n, d⟩ :: s l := Function.update_self _ _ _
    have hhead : ((linkHead (h.setData n d) l n).2.list l).head = (h.list l).head :=
      linkHead_head hbad
    have hfirst : (h.list l).head = some n := by
      rw [← hhead]
      rw [hspec] at hvisits
      exact hvisits.head
    -- so the node that is inserted would be in the list already
    rw [(hr.holds l).head] at hfirst
    exact hok l (List.mem_of_mem_head? hfirst)

/-! ## Runs

Up to the first insertion in front of nodes the lists are in order, and after it they are not. -/

/-- **Insertion at the head is right exactly on empty lists.** Along every run of insertions at the
    head and at the tail and of removals, from well-formed lists, each call leaves every list well
    formed and with the sequence it should have exactly when no call inserts at the head of a list
    that has nodes. -/
theorem insert_head_run_iff (h : Heap δ) (s : Nat → List (Cell δ))
    (hw : ∀ l, WellFormed h l (s l)) (hapart : ∀ l k, l ≠ k → ∀ n ∈ nodes (s l), n ∉ nodes (s k))
    (ops : List (EndOp δ)) (hok : Along endSpec EndAllowed s ops) :
    Along (both endStep endSpec) EndRight (h, s) ops ↔ Never endStep BeforeNodes h ops := by
  have hnever : Never (both endStep endSpec) (fun hs op => BeforeNodes hs.1 op) (h, s) ops ↔
      Never endStep BeforeNodes h ops := never_both (h, s) ops
  rw [← hnever]
  refine along_iff_never (I := fun hs => Refines hs.1 hs.2)
    (C := fun hs op => EndAllowed hs.2 op) ?_ ?_ ((along_both_right _ _).mpr hok)
    ⟨fun l => (hw l).holds, hapart⟩
  · intro hs op hc hbad hr
    exact (endStep_refines hc hbad hr).2
  · intro hs op hc hr
    constructor
    · intro hright hbad
      exact not_endRight hc hbad hr hright
    · intro hbad
      obtain ⟨hout, hr'⟩ := endStep_refines hc hbad hr
      exact ⟨hout, fun l => (hr'.holds l).wellFormed⟩

/-- A node at the head of an empty list, one behind it, and the first taken out again. -/
theorem insert_head_run_first :
    let h : Heap Nat := ⟨fun _ => none, fun _ => none, fun _ => none, fun _ => inaListNew false⟩
    let ops : List (EndOp Nat) :=
      [.insertHead 0 1 (some 5), .insertTail 0 2 (some 6), .remove 0 1]
    Along endSpec EndAllowed (fun _ => []) ops ∧
      Along (both endStep endSpec) EndRight (h, fun _ => []) ops := by
  intro h ops
  have hok : Along endSpec EndAllowed (fun _ => []) ops := by
    refine ⟨?_, ?_, ?_, trivial⟩
    · intro k
      simp [nodes]
    · intro k
      by_cases hk : k = 0 <;> simp [endSpec, nodes, hk]
    · simp [EndAllowed, endSpec, nodes]
  have hnever : Never endStep BeforeNodes h ops := ⟨fun hbad => hbad rfl, id, id, trivial⟩
  refine ⟨hok, ?_⟩
  exact (insert_head_run_iff h (fun _ => []) (fun l => wellFormed_nil rfl rfl)
    (fun _ _ _ n hn => absurd hn List.not_mem_nil) ops hok).mpr hnever

/-- The second node is inserted at the head, and the list begins with the first. -/
theorem insert_head_not_first :
    let h : Heap Nat := ⟨fun _ => none, fun _ => none, fun _ => none, fun _ => inaListNew false⟩
    let ops : List (EndOp Nat) := [.insertTail 0 1 (some 5), .insertHead 0 2 (some 6)]
    Along endSpec EndAllowed (fun _ => []) ops ∧
      ((exec endStep h ops).list 0).head = some 1 ∧
      ¬ Along (both endStep endSpec) EndRight (h, fun _ => []) ops := by
  intro h ops
  refine ⟨⟨?_, ?_, trivial⟩, rfl, ?_⟩
  · intro k
    simp [nodes]
  · intro k
    by_cases hk : k = 0 <;> simp [endSpec, nodes, hk]
  · rintro ⟨-, hright, -⟩
    have hhead : some 1 = some 2 := (hright.2 0).visits.head
    cases hhead

end LinkedList
end Inac
