import Mathlib.Algebra.Ring.Nat
import Mathlib.Algebra.Ring.Int.Defs
import Mathlib.Logic.Function.Basic
import Inac.Err
import Inac.Lib.Run

/-!
# Linked lists (`src/list.c`)

A list is a record with the head of a chain of nodes. A node links to its successor and to its
predecessor; the head has no predecessor, and its `prev` holds the tail instead. Nodes belong to
the caller or to a list's pool, and a list may take over the nodes of another one.

Memory is the nodes, each field a function of the node's address, and the list records. `NULL` is
`none`. The nodes of a list are distinct objects in memory, so `count` does not wrap and is a
`Nat`. A store through `NULL`, or past the end of the recycle array, is the outcome `fault`; a walk
takes fuel, and `hang` is a walk that ran out of it. Which pool a node's memory comes from decides
nothing here, so the pools are left out.
-/

namespace Inac
namespace LinkedList

variable {δ : Type}

/-! ## Memory

A field is a function on all addresses, so that nodes which are in no list, or in the list of
somebody else, are written to like any others. -/

/-- `struct ina_list_s`. `firstFree` is the recycle array with its allocated slots; it is empty
    where the pointer is `NULL`. -/
structure InaList where
  head : Option Nat
  count : Nat
  maxRecyclable : Nat
  firstFree : List (Option Nat)
  lastFree : Int
  deriving DecidableEq, Repr

/-- The nodes (`struct ina_list_node_s`, field by field) and the lists. -/
structure Heap (δ : Type) where
  next : Nat → Option Nat
  prev : Nat → Option Nat
  data : Nat → Option δ
  list : Nat → InaList

/-- How a call ends. -/
inductive Out where
  | rc (r : Except Err Unit)  -- it returns
  | fault  -- it stores where there is no memory of its own
  | hang  -- it does not return

/-- `node->next = v`. -/
def Heap.setNext (h : Heap δ) (n : Nat) (v : Option Nat) : Heap δ :=
  { h with next := Function.update h.next n v }

/-- `node->prev = v`. -/
def Heap.setPrev (h : Heap δ) (n : Nat) (v : Option Nat) : Heap δ :=
  { h with prev := Function.update h.prev n v }

/-- `node->data = d`. -/
def Heap.setData (h : Heap δ) (n : Nat) (d : Option δ) : Heap δ :=
  { h with data := Function.update h.data n d }

/-- Assign to fields of one list record. -/
def Heap.modify (h : Heap δ) (l : Nat) (f : InaList → InaList) : Heap δ :=
  { h with list := Function.update h.list l (f (h.list l)) }

section Fields
variable (h : Heap δ) (n l : Nat) (v : Option Nat) (d : Option δ) (f : InaList → InaList)

@[simp] theorem Heap.setNext_next : (h.setNext n v).next = Function.update h.next n v := rfl
@[simp] theorem Heap.setNext_prev : (h.setNext n v).prev = h.prev := rfl
@[simp] theorem Heap.setNext_data : (h.setNext n v).data = h.data := rfl
@[simp] theorem Heap.setNext_list : (h.setNext n v).list = h.list := rfl

@[simp] theorem Heap.setPrev_next : (h.setPrev n v).next = h.next := rfl
@[simp] theorem Heap.setPrev_prev : (h.setPrev n v).prev = Function.update h.prev n v := rfl
@[simp] theorem Heap.setPrev_data : (h.setPrev n v).data = h.data := rfl
@[simp] theorem Heap.setPrev_list : (h.setPrev n v).list = h.list := rfl

@[simp] theorem Heap.setData_next : (h.setData n d).next = h.next := rfl
@[simp] theorem Heap.setData_prev : (h.setData n d).prev = h.prev := rfl
@[simp] theorem Heap.setData_data : (h.setData n d).data = Function.update h.data n d := rfl
@[simp] theorem Heap.setData_list : (h.setData n d).list = h.list := rfl

@[simp] theorem Heap.modify_next : (h.modify l f).next = h.next := rfl
@[simp] theorem Heap.modify_prev : (h.modify l f).prev = h.prev := rfl
@[simp] theorem Heap.modify_data : (h.modify l f).data = h.data := rfl
@[simp] theorem Heap.modify_list : (h.modify l f).list = Function.update h.list l (f (h.list l)) := rfl

end Fields

/-! ## Recycled nodes

Slot 0 of the recycle array is never used. Both numbers that are compared are taken as `int`. -/

def listDefaultSize : Nat := 256  -- `INA_LIST_DEFAULT_SIZE`

/-- `ina_list_new`; with `INA_LIST_CF_NOMALLOC` no recycle array is allocated. -/
def inaListNew (nomalloc : Bool) : InaList :=
  { head := none, count := 0, maxRecyclable := listDefaultSize,
    firstFree := if nomalloc then [] else List.replicate listDefaultSize none, lastFree := 0 }

/-- `(int) n` for a `size_t`. -/
def toInt32 (n : Nat) : Int :=
  if n % 2 ^ 32 < 2 ^ 31 then (n % 2 ^ 32 : Nat) else (n % 2 ^ 32 : Nat) - 2 ^ 32

/-- The slot after `last_free` is one of the recycle array. -/
def InaList.Room (l : InaList) : Prop :=
  0 ≤ l.lastFree + 1 ∧ l.lastFree + 1 < (l.firstFree.length : Int)

instance (l : InaList) : Decidable l.Room := inferInstanceAs (Decidable (_ ∧ _))

/-- `ina_list_node_free` of a node. -/
def inaListNodeFree (h : Heap δ) (l n : Nat) : Out × Heap δ :=
  if (h.list l).lastFree < toInt32 (h.list l).maxRecyclable then
    if (h.list l).Room then
      (.rc (.ok ()), h.modify l fun r =>
        { r with lastFree := r.lastFree + 1,
                 firstFree := r.firstFree.set (r.lastFree + 1).toNat (some n) })
    else (.fault, h)
  else (.rc (.ok ()), h)

/-! ## The operations

Each in the branches of its source. Of an empty list, a node alone and a node at either end they
take different ones. -/

/-- `ina_list_insert_tail` of a node. -/
def linkTail (h : Heap δ) (l n : Nat) : Out × Heap δ :=
  let h := h.modify l fun r => { r with count := r.count + 1 }
  match (h.list l).head with
  | some head =>
    let h := h.setPrev n (h.prev head)
    let h := h.setPrev head (some n)
    let h := h.setNext n none
    match h.prev n with
    | some p => (.rc (.ok ()), h.setNext p (some n))
    | none => (.fault, h)
  | none =>
    let h := h.setPrev n (some n)
    let h := h.setNext n none
    (.rc (.ok ()), h.modify l fun r => { r with head := some n })

def inaListInsertTail (h : Heap δ) (l : Nat) (node : Option Nat) : Out × Heap δ :=
  match node with
  | none => (.rc (.error .invalidArgument), h)
  | some n => linkTail h l n

/-- `ina_list_remove` of a node. -/
def unlink (h : Heap δ) (l n : Nat) : Out × Heap δ :=
  let head := (h.list l).head
  -- the node whose `prev` is stored to: `node->next`, or `head` where that is `NULL`
  match (h.next n).or head with
  | none => (.fault, h)
  | some q =>
    let h := h.setPrev q (h.prev n)
    if head = some n then
      (.rc (.ok ()), h.modify l fun r => { r with head := h.next n, count := r.count - 1 })
    else
      match h.prev n with
      | none => (.fault, h)
      | some p =>
        let h := h.setNext p (h.next n)
        (.rc (.ok ()), h.modify l fun r => { r with count := r.count - 1 })

def inaListRemove (h : Heap δ) (l : Nat) (node : Option Nat) : Out × Heap δ :=
  match node with
  | none => (.rc (.error .invalidArgument), h)
  | some n => unlink h l n

section RemoveData
variable [DecidableEq δ]

/-- The loop of `ina_list_remove_data`: the first node from here on that holds `d`, or the end of
    the list. -/
def seekData (h : Heap δ) (d : δ) : Nat → Option Nat → Option (Option Nat)
  | _, none => some none
  | 0, some _ => none
  | fuel + 1, some n => if h.data n = some d then some (some n) else seekData h d fuel (h.next n)

/-- The loop's body on the node found. -/
def removeFound (h : Heap δ) (l n : Nat) : Out × Heap δ :=
  match unlink h l n with
  | (.rc _, h) => inaListNodeFree h l n
  | failed => failed

def inaListRemoveData (fuel : Nat) (h : Heap δ) (l : Nat) (data : Option δ) : Out × Heap δ :=
  match data with
  | none => (.rc (.error .invalidArgument), h)
  | some d =>
    match seekData h d fuel (h.list l).head with
    | none => (.hang, h)
    | some none => (.rc (.error .notExists), h)
    | some (some n) => removeFound h l n

end RemoveData

/-- The two branches of `ina_list_concat`, for a source whose head is `sh`. -/
def concatHeads (h : Heap δ) (dest src sh : Nat) : Out × Heap δ :=
  match (h.list dest).head with
  | none =>
    (.rc (.ok ()), h.modify dest fun r => { r with head := some sh, count := (h.list src).count })
  | some dh =>
    let destTail := h.prev dh
    let h := h.setPrev dh (h.prev sh)
    let h := h.setPrev sh destTail
    match destTail with
    | none => (.fault, h)
    | some t =>
      let h := h.setNext t (some sh)
      (.rc (.ok ()), h.modify dest fun r => { r with count := r.count + (h.list src).count })

def inaListConcat (h : Heap δ) (dest : Nat) (src : Option Nat) : Out × Heap δ :=
  match src with
  | none => (.rc (.ok ()), h)
  | some s =>
    match (h.list s).head with
    | none => (.rc (.ok ()), h)
    | some sh =>
      match concatHeads h dest s sh with
      | (.rc r, h) => (.rc r, h.modify s fun r => { r with head := none, count := 0 })
      | failed => failed

/-! ## Runs -/

/-- A call. The caller puts `data` into a node before it inserts it, as `ina_list_insert_tail_data`
    does. -/
inductive Op (δ : Type) where
  | insertTail (l n : Nat) (data : Option δ)
  | remove (l n : Nat)
  | removeData (l : Nat) (data : Option δ)
  | concat (dest src : Nat)

variable [DecidableEq δ]

def step (fuel : Nat) (h : Heap δ) : Op δ → Out × Heap δ
  | .insertTail l n d => inaListInsertTail (h.setData n d) l (some n)
  | .remove l n => inaListRemove h l (some n)
  | .removeData l d => inaListRemoveData fuel h l d
  | .concat dest src => inaListConcat h dest (some src)

/-! ## The sequences the lists stand for

What a list is to a caller: nodes with their data, in order. -/

/-- A node of a list and its data. -/
structure Cell (δ : Type) where
  node : Nat
  data : Option δ
  deriving DecidableEq, Repr

/-- The node addresses of a sequence. -/
def nodes (cells : List (Cell δ)) : List Nat := cells.map Cell.node

/-- Deletion of the first cell that holds `data`. -/
def deleteData (cells : List (Cell δ)) (data : Option δ) : List (Cell δ) :=
  cells.eraseP fun c => c.data = data

/-- What the calls are for: every list is a sequence of cells. -/
def spec (s : Nat → List (Cell δ)) : Op δ → Out × (Nat → List (Cell δ))
  | .insertTail l n d => (.rc (.ok ()), Function.update s l (s l ++ [⟨n, d⟩]))
  | .remove l n => (.rc (.ok ()), Function.update s l ((s l).eraseP fun c => c.node = n))
  | .removeData _ none => (.rc (.error .invalidArgument), s)
  | .removeData l (some d) =>
    if some d ∈ (s l).map Cell.data then
      (.rc (.ok ()), Function.update s l (deleteData (s l) (some d)))
    else (.rc (.error .notExists), s)
  | .concat dest src =>
    (.rc (.ok ()), Function.update (Function.update s dest (s dest ++ s src)) src [])

end LinkedList
end Inac
