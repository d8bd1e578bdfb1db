import Inac.LinkedList.Run

/-!
# The tail, and popping

`ina_list_tail` returns the head. `ina_list_pop_data` reads the head's data and takes nothing out
of the list, so every call reads the same node; it returns the thread's last error, whatever call
that is from, and on an empty list it reads through `NULL`.

A caller who puts data in at the end and pops it wants a queue (`Queues`). What the code gives is the
first datum, as often as it is asked for, and the list keeps it (`popStep_heap`).
-/

namespace Inac
namespace LinkedList

open Lib

variable {δ : Type}

/-! ## The code

Pops are called with what `ina_err_get_rc` will return, as the function asks for it. -/

/-- `ina_list_head`, for a `node` that is not `NULL`. -/
def inaListHead (h : Heap δ) (l : Nat) : Option Nat := (h.list l).head

/-- `ina_list_tail`, for a `node` that is not `NULL`. -/
def inaListTail (h : Heap δ) (l : Nat) : Except Err (Option Nat) :=
  match (h.list l).head with
  | none => .error .empty
  | some head => .ok (some head)

/-- How `ina_list_pop_data` ends: with `*data` and a return code, or reading through `NULL`. -/
inductive Popped (δ : Type) where
  | data (d : Option δ) (rc : Except Err Unit)
  | fault
  deriving DecidableEq

/-- `ina_list_pop_data`; `err` is what `ina_err_get_rc()` returns in the calling thread. -/
def inaListPopData (err : Except Err Unit) (l : Nat) (h : Heap δ) : Popped δ × Heap δ :=
  match inaListHead h l with
  | some node => (.data (h.data node) err, h)
  | none => (.fault, h)

/-- `ina_list_insert_tail` of nodes with data, in order. -/
def insertAll (h : Heap δ) (l : Nat) (cells : List (Cell δ)) : Heap δ :=
  cells.foldl (fun h c => (inaListInsertTail (h.setData c.node c.data) l (some c.node)).2) h

/-- One pop of a run. -/
def popStep (err : Except Err Unit) (l : Nat) (h : Heap δ) (_ : Unit) : Popped δ × Heap δ :=
  inaListPopData err l h

/-! ## What the calls are for

The four things a queue does. -/

/-- The list works as a queue of the cells: the tail is the last one, they are popped in order, a
    further pop fails, and then the list is empty. -/
structure Queues (err : Except Err Unit) (h : Heap δ) (l : Nat) (cells : List (Cell δ)) :
    Prop where
  tail : inaListTail h l = .ok (nodes cells).getLast?
  order : outs (popStep err l) h (List.replicate cells.length ()) =
    cells.map fun c => .data c.data (.ok ())
  further : ∃ e d, (popStep err l (exec (popStep err l) h (List.replicate cells.length ())) ()).1 =
    .data d (.error e)
  empty : inaListHead (exec (popStep err l) h (List.replicate cells.length ())) l = none

/-! ## What the code gives

A pop writes nothing to memory. So two of them cannot differ, and one cannot empty the list. -/

theorem insertAll_holds {h : Heap δ} {l : Nat} {cells : List (Cell δ)} :
    ∀ {old : List (Cell δ)}, Holds h l old → (nodes (old ++ cells)).Nodup →
      Holds (insertAll h l cells) l (old ++ cells) := by
  induction cells generalizing h with
  | nil => intro old hh _; rw [List.append_nil]; exact hh
  | cons c cells ih =>
    intro old hh hnodup
    have hsplit : old ++ c :: cells = (old ++ [c]) ++ cells := by simp
    have hc : c.node ∉ nodes old := by
      intro hmem
      rw [nodes, List.map_append, List.map_cons] at hnodup
      exact (List.nodup_append.mp hnodup).2.2 c.node hmem c.node List.mem_cons_self rfl
    have hset : SameBut [] [c.node] h (h.setData c.node c.data) :=
      (SameBut.refl [] [c.node] h).setData List.mem_cons_self c.data
    have hh' : Holds (h.setData c.node c.data) l old := by
      refine hh.frame hset List.not_mem_nil ?_
      intro x hx hxc
      rw [List.mem_singleton.mp hxc] at hx
      exact hc hx
    have hdone := (linkTail_spec hh' hc).holds
    rw [Heap.setData_data, Function.update_self] at hdone
    rw [hsplit] at hnodup ⊢
    exact ih hdone hnodup

/-- A pop leaves the memory as it is. -/
theorem popStep_heap (err : Except Err Unit) (l : Nat) (h : Heap δ) (i : Unit) :
    (popStep err l h i).2 = h := by
  rw [popStep, inaListPopData]
  split <;> rfl

theorem exec_popStep (err : Except Err Unit) (l : Nat) (h : Heap δ) (is : List Unit) :
    exec (popStep err l) h is = h := by
  induction is with
  | nil => rfl
  | cons i is ih => rw [exec_cons, popStep_heap]; exact ih

/-- **No list is a queue.** However many data are inserted at the tail of an empty list, popping
    does not give them back in order and leave the list empty. -/
theorem list_never_queues (err : Except Err Unit) (h : Heap δ) (l : Nat)
    (hhead : (h.list l).head = none) (hcount : (h.list l).count = 0) (cells : List (Cell δ))
    (hne : cells ≠ []) (hnodup : (nodes cells).Nodup) :
    ¬ Queues err (insertAll h l cells) l cells := by
  have hh : Holds (insertAll h l cells) l cells :=
    insertAll_holds (wellFormed_nil hhead hcount).holds hnodup
  intro hq
  have hempty := hq.empty
  rw [exec_popStep, inaListHead, hh.head] at hempty
  exact hne (List.map_eq_nil_iff.mp (List.head?_eq_none_iff.mp hempty))

/-- One datum: it is popped, and the list still has it. -/
theorem list_never_queues_one :
    ¬ Queues (.ok ())
      (insertAll ⟨fun _ => none, fun _ => none, fun _ => none, fun _ => inaListNew false⟩ 0
        [⟨1, some 5⟩]) 0 [(⟨1, some 5⟩ : Cell Nat)] :=
  list_never_queues (.ok ()) _ 0 rfl rfl _ (List.cons_ne_nil _ _) (List.nodup_singleton _)

/-- Two data at the tail: the tail is the first node, and two pops give the first datum twice. -/
theorem list_pops_first_twice :
    let h : Heap Nat := insertAll
      ⟨fun _ => none, fun _ => none, fun _ => none, fun _ => inaListNew false⟩ 0
      [⟨1, some 5⟩, ⟨2, some 6⟩]
    inaListTail h 0 = .ok (some 1) ∧
      outs (popStep (.ok ()) 0) h [(), ()] = [.data (some 5) (.ok ()), .data (some 5) (.ok ())] ∧
      ¬ Queues (.ok ()) h 0 [⟨1, some 5⟩, ⟨2, some 6⟩] := by
  intro h
  refine ⟨rfl, rfl, ?_⟩
  intro hq
  have htail : some 1 = some 2 := Except.ok.inj hq.tail
  cases htail

end LinkedList
end Inac
