import Inac.Hashtable.Count

/-!
# The iterator

An iterator is a bucket and a node of it, and the count of the table when it was made. Each
`ina_hashtable_iter_next` goes on from there to the next node with data. On a table that stays as it
is, the iterator returns what `ina_hashtable_foreach` passes to its callback, in the same order.

The code keeps a pointer to a node and a bucket. Both are indices here, and the node is `none` where
the pointer is `NULL`, which is so for a bucket whose array was never allocated. `Iter.ahead` says
what an iterator has not returned yet, and is all that the proofs look at.
-/

namespace Inac
namespace Hashtable

variable {δ : Type}

/-- `struct ina_hashtable_iter_s` on a table: the pointers are indices, and `node` is `none` for
    `NULL`. -/
structure Iter where
  bucket : Nat
  node : Option Nat
  checksum : Int
  deriving DecidableEq, Repr

/-- `bucket->nodes` as a pointer to its first node. -/
def Bucket.first (b : Bucket δ) : Option Nat := if b.nodes = [] then none else some 0

/-- `ina_hashtable_iter_reset`, which `ina_hashtable_iter_new` calls. -/
def inaHashtableIterReset (ht : Table δ) : Iter := ⟨0, (ht.bucketAt 0).first, ht.count⟩

/-- The inner loop from node `j` on: the data, and the node after it. -/
def iterNodes : List (Node δ) → Nat → Option (δ × Nat)
  | [], _ => none
  | next :: rest, j =>
    match next.data with
    | some d => some (d, j + 1)
    | none => iterNodes rest (j + 1)

/-- The outer loop over the buckets that are left, from bucket `i` on: the data, and the new bucket
    and node. -/
def iterBuckets (ht : Table δ) : Nat → Nat → Option Nat → Option δ × Nat × Option Nat
  | 0, i, node => (none, i, node)
  | left + 1, i, node =>
    match node.bind fun j => iterNodes ((ht.bucketAt i).used.drop j) j with
    | some (d, j) => (some d, i, some j)
    | none => iterBuckets ht left (i + 1) (ht.bucketAt (i + 1)).first

def inaHashtableIterNext (ht : Table δ) (iter : Iter) : Except Err δ × Iter :=
  if iter.checksum ≠ ht.count then (.error .stateInvalid, iter)
  else
    match iterBuckets ht (ht.capacity - iter.bucket) iter.bucket iter.node with
    | (some d, i, node) => (.ok d, { iter with bucket := i, node := node })
    | (none, i, node) => (.error .endOf, { iter with bucket := i, node := node })

/-- What `ina_hashtable_iter_next` returns, call after call, until it reports the end. -/
inductive Iterates (ht : Table δ) : Iter → List δ → Prop where
  | done {iter : Iter} (h : (inaHashtableIterNext ht iter).1 = .error .endOf) :
      Iterates ht iter []
  | more {iter iter' : Iter} {d : δ} {l : List δ}
      (h : inaHashtableIterNext ht iter = (.ok d, iter')) (hl : Iterates ht iter' l) :
      Iterates ht iter (d :: l)

theorem Iterates.unique {ht : Table δ} {iter : Iter} {l l' : List δ} (h : Iterates ht iter l)
    (h' : Iterates ht iter l') : l = l' := by
  induction h generalizing l' with
  | done hend =>
    cases h' with
    | done => rfl
    | more hnext _ => rw [hnext] at hend; cases hend
  | more hnext _ ih =>
    cases h' with
    | done hend => rw [hnext] at hend; cases hend
    | more hnext' hl' =>
      cases hnext.symm.trans hnext'
      rw [ih hl']

/-! ## What is left

The loops are recursions on the nodes and on the buckets that are left, as the code compares the
bucket with `capacity`. -/

/-- The data from a node of a bucket on. -/
def Bucket.dataFrom (b : Bucket δ) (node : Option Nat) : List δ :=
  node.elim [] fun j => dataOf (b.used.drop j)

/-- The data from a node of bucket `i` on, over the buckets that are left. -/
def Table.ahead (ht : Table δ) : Nat → Nat → Option Nat → List δ
  | 0, _, _ => []
  | left + 1, i, node =>
    (ht.bucketAt i).dataFrom node ++ ahead ht left (i + 1) (ht.bucketAt (i + 1)).first

theorem Bucket.dataFrom_first (b : Bucket δ) : b.dataFrom b.first = dataOf b.used := by
  rw [Bucket.dataFrom, Bucket.first]
  by_cases hnil : b.nodes = []
  · rw [if_pos hnil, Bucket.used, hnil, List.take_nil]
    rfl
  · rw [if_neg hnil]
    rfl

theorem iterNodes_spec (nodes : List (Node δ)) (j : Nat) :
    match iterNodes nodes j with
    | none => dataOf nodes = []
    | some (d, j') => j < j' ∧ dataOf nodes = d :: dataOf (nodes.drop (j' - j)) := by
  induction nodes generalizing j with
  | nil => rfl
  | cons n rest ih =>
    rw [iterNodes]
    cases hd : n.data with
    | some d => exact ⟨Nat.lt_succ_self j, by simp [dataOf, hd]⟩
    | none =>
      have hdata : dataOf (n :: rest) = dataOf rest := by simp [dataOf, hd]
      have hrest := ih (j + 1)
      dsimp only
      rw [hdata]
      cases hnext : iterNodes rest (j + 1) with
      | none => rw [hnext] at hrest; exact hrest
      | some p =>
        rw [hnext] at hrest
        obtain ⟨hlt, heq⟩ := hrest
        refine ⟨by omega, ?_⟩
        obtain ⟨k, hk⟩ : ∃ k, p.2 - j = k + 1 := ⟨p.2 - j - 1, by omega⟩
        rw [heq, hk, List.drop_succ_cons, show p.2 - (j + 1) = k by omega]

theorem dataFrom_spec (b : Bucket δ) (node : Option Nat) :
    match node.bind fun j => iterNodes (b.used.drop j) j with
    | none => b.dataFrom node = []
    | some (d, j) => b.dataFrom node = d :: b.dataFrom (some j) := by
  cases node with
  | none => rfl
  | some j =>
    have hnodes := iterNodes_spec (b.used.drop j) j
    rw [Option.bind_some]
    cases hnext : iterNodes (b.used.drop j) j with
    | none => rw [hnext] at hnodes; exact hnodes
    | some p =>
      rw [hnext] at hnodes
      obtain ⟨hlt, heq⟩ := hnodes
      rw [List.drop_drop, Nat.add_sub_of_le (Nat.le_of_lt hlt)] at heq
      exact heq

/-- The loops take the first of the data that is ahead. -/
theorem iterBuckets_spec (ht : Table δ) (left i : Nat) (node : Option Nat) :
    match iterBuckets ht left i node with
    | (none, _, _) => ht.ahead left i node = []
    | (some d, i', node') => i ≤ i' ∧ i' ≤ i + left ∧
        ht.ahead left i node = d :: ht.ahead (i + left - i') i' node' := by
  induction left generalizing i node with
  | zero => rfl
  | succ left ih =>
    have hfrom := dataFrom_spec (ht.bucketAt i) node
    rw [iterBuckets, Table.ahead]
    -- The bucket has something left from the node on, or the next one is looked at from its first
    -- node.
    cases hnext : node.bind fun j => iterNodes ((ht.bucketAt i).used.drop j) j with
    | some p =>
      rw [hnext] at hfrom
      refine ⟨Nat.le_refl i, Nat.le_add_right i _, ?_⟩
      rw [hfrom, Nat.add_sub_cancel_left, Table.ahead, List.cons_append]
    | none =>
      rw [hnext] at hfrom
      have hrest := ih (i + 1) (ht.bucketAt (i + 1)).first
      dsimp only
      rw [hfrom, List.nil_append]
      cases hout : iterBuckets ht left (i + 1) (ht.bucketAt (i + 1)).first with
      | mk data place =>
        rw [hout] at hrest
        cases data with
        | none => exact hrest
        | some d =>
          obtain ⟨hle, hle', heq⟩ := hrest
          refine ⟨by omega, by omega, ?_⟩
          rw [heq, Nat.add_right_comm, Nat.add_assoc]

/-- The data that the iterator has not returned yet. -/
def Iter.ahead (iter : Iter) (ht : Table δ) : List δ :=
  ht.ahead (ht.capacity - iter.bucket) iter.bucket iter.node

/-- One step: the end, or the first of the data that is ahead. -/
theorem iterNext_spec {ht : Table δ} {iter : Iter} (hsum : iter.checksum = ht.count)
    (hle : iter.bucket ≤ ht.capacity) :
    iter.ahead ht = [] ∧ (inaHashtableIterNext ht iter).1 = .error .endOf ∨
      ∃ d iter', inaHashtableIterNext ht iter = (.ok d, iter') ∧
        iter.ahead ht = d :: iter'.ahead ht ∧ iter'.checksum = ht.count ∧
        iter'.bucket ≤ ht.capacity := by
  have hspec := iterBuckets_spec ht (ht.capacity - iter.bucket) iter.bucket iter.node
  rw [inaHashtableIterNext, if_neg (not_not.mpr hsum), Iter.ahead]
  cases hout : iterBuckets ht (ht.capacity - iter.bucket) iter.bucket iter.node with
  | mk data place =>
    rw [hout] at hspec
    cases data with
    | none => exact .inl ⟨hspec, rfl⟩
    | some d =>
      obtain ⟨-, hle', heq⟩ := hspec
      rw [Nat.add_sub_of_le hle] at hle' heq
      exact .inr ⟨d, _, rfl, heq, hsum, hle'⟩

/-- **On a table that stays as it is, the iterator returns what is ahead of it.** -/
theorem iterates_ahead {ht : Table δ} {iter : Iter} (hsum : iter.checksum = ht.count)
    (hle : iter.bucket ≤ ht.capacity) : Iterates ht iter (iter.ahead ht) := by
  generalize hl : iter.ahead ht = l
  induction l generalizing iter with
  | nil =>
    rcases iterNext_spec hsum hle with ⟨-, hend⟩ | ⟨d, iter', -, hahead, -, -⟩
    · exact .done hend
    · rw [hl] at hahead
      cases hahead
  | cons d l ih =>
    rcases iterNext_spec hsum hle with ⟨hnil, -⟩ | ⟨d', iter', hnext, hahead, hsum', hle'⟩
    · rw [hl] at hnil
      cases hnil
    · rw [hl] at hahead
      obtain ⟨rfl, hrest⟩ := List.cons.inj hahead
      exact .more hnext (ih hsum' hle' hrest.symm)

theorem ahead_first (ht : Table δ) (left i : Nat) (h : i + left ≤ ht.buckets.length) :
    ht.ahead left i (ht.bucketAt i).first =
      ((ht.buckets.drop i).take left).flatMap fun b => dataOf b.used := by
  induction left generalizing i with
  | zero => rfl
  | succ left ih =>
    have hi : i < ht.buckets.length := by omega
    have hbucket : ht.bucketAt i = ht.buckets[i] := by simp [Table.bucketAt, hi]
    rw [Table.ahead, Bucket.dataFrom_first, ih (i + 1) (by omega), List.drop_eq_getElem_cons hi,
      List.take_succ_cons, List.flatMap_cons, hbucket]

/-- **From the start the iterator returns the data that `ina_hashtable_foreach` passes on.** -/
theorem Table.Ok.iterates {ht : Table δ} (h : ht.Ok) :
    Iterates ht (inaHashtableIterReset ht) ht.yields := by
  have hahead : (inaHashtableIterReset ht).ahead ht = ht.yields := by
    rw [Table.yields_eq]
    exact ahead_first ht ht.capacity 0 (by have := h.length; omega)
  rw [← hahead]
  exact iterates_ahead rfl (Nat.zero_le _)

end Hashtable
end Inac
