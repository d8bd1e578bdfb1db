import Inac.Mempool.Env

/-!
# Walks over a chain of any shape

`ina_mempool_info`, `ina_mempool_reset` and `ina_mempool_clear` follow `child` from the root. What
each of them does depends only on the list of chunks this meets (`Visits`), whatever made the chain:
`info` sums over the list, and the other two change each chunk on it.
-/

namespace Inac
namespace Mempool

open Lib

/-- The chain of a pool, of structures that are there. -/
structure Heap.IsChain (h : Heap) (pool : Nat) (xs : List Nat) : Prop where
  visits : Visits h.child (some pool) xs
  lt : ∀ x ∈ xs, x < h.count

theorem Heap.IsChain.length_le {h : Heap} {pool : Nat} {xs : List Nat} (hc : h.IsChain pool xs) :
    xs.length ≤ h.count := by
  have hsub : xs ⊆ List.range h.count := fun x hx => List.mem_range.mpr (hc.lt x hx)
  have hlen := (List.subperm_of_subset hc.visits.nodup hsub).length_le
  rwa [List.length_range] at hlen

theorem Heap.IsChain.mem_root {h : Heap} {pool : Nat} {xs : List Nat} (hc : h.IsChain pool xs) :
    pool ∈ xs := by
  obtain ⟨ys, rfl⟩ := List.head?_eq_some_iff.mp hc.visits.head.symm
  exact List.mem_cons_self

/-- The chain from any chunk of it on. -/
theorem Heap.IsChain.drop {h : Heap} {pool c : Nat} {xs : List Nat} (hc : h.IsChain pool xs)
    (hmem : c ∈ xs) : ∃ ys, h.IsChain c ys ∧ ys ⊆ xs := by
  obtain ⟨as, bs, rfl⟩ := List.append_of_mem hmem
  have hsub : c :: bs ⊆ as ++ c :: bs := List.subset_append_right ..
  exact ⟨c :: bs, ⟨hc.visits.suffix, fun x hx => hc.lt x (hsub hx)⟩, hsub⟩

/-! ## `ina_mempool_info` -/

/-- Sizes of the chunks on a list. -/
def Heap.sizes (h : Heap) (xs : List Nat) : Nat := (xs.map fun i => (h.pool i).size).sum

/-- Bytes taken of the chunks on a list. -/
def Heap.taken (h : Heap) (xs : List Nat) : Nat := (xs.map fun i => (h.pool i).used).sum

theorem infoLoop_visits {h : Heap} :
    ∀ {xs : List Nat} {start : Option Nat} {fuel : Nat} (info : Info),
      Visits h.child start xs → xs.length ≤ fuel →
      infoLoop h fuel start info = some
        { size := info.size + h.sizes xs
          used := info.used + h.taken xs
          children := info.children + xs.length
          cf := info.cf } := by
  intro xs
  induction xs with
  | nil =>
    intro start fuel info hv _
    obtain rfl : start = none := hv.head
    rw [infoLoop.eq_def]
    rfl
  | cons x xs ih =>
    intro start fuel info hv hfuel
    -- One chunk is counted, and the rest of the chain is the list's rest.
    obtain rfl : start = some x := hv.head
    obtain ⟨fuel, rfl⟩ : ∃ k, fuel = k + 1 :=
      Nat.exists_eq_add_one_of_ne_zero (Nat.ne_of_gt (Nat.lt_of_lt_of_le (Nat.succ_pos _) hfuel))
    have hrest : Visits h.child (h.pool x).child xs := hv.rest
    rw [infoLoop, ih _ hrest (Nat.le_of_succ_le_succ hfuel)]
    simp only [Heap.sizes, Heap.taken, Pool.used, List.map_cons, List.sum_cons, List.length_cons,
      Option.some.injEq, Info.mk.injEq, and_true]
    omega

/-- **`ina_mempool_info`** sums over the chain. -/
theorem Heap.IsChain.info {h : Heap} {pool : Nat} {xs : List Nat} (hc : h.IsChain pool xs) :
    inaMempoolInfo h pool = some ⟨h.sizes xs, h.taken xs, xs.length - 1, (h.pool pool).cf⟩ := by
  rw [inaMempoolInfo, infoLoop_visits _ hc.visits hc.length_le]
  simp

/-! ## `ina_mempool_reset` and `ina_mempool_clear` -/

/-- Every chunk on a list is changed. -/
def Heap.onAll (h : Heap) (f : Pool → Pool) (xs : List Nat) : Heap :=
  { h with pool := fun i => if i ∈ xs then f (h.pool i) else h.pool i }

theorem Heap.onAll_pool (h : Heap) (f : Pool → Pool) (xs : List Nat) (i : Nat) :
    (h.onAll f xs).pool i = if i ∈ xs then f (h.pool i) else h.pool i := rfl

theorem Heap.modify_onAll (h : Heap) (f : Pool → Pool) {x : Nat} {xs : List Nat} (hx : x ∉ xs) :
    (h.modify x f).onAll f xs = h.onAll f (x :: xs) := by
  simp only [Heap.onAll, Heap.modify, Heap.mk.injEq, true_and, and_true]
  funext i
  by_cases hi : i = x
  · subst hi
    simp [hx]
  · simp [hi]

/-- A sweep that keeps the links changes the chunks on the chain, and only those. -/
theorem sweep_visits {f : Pool → Pool} (hf : ∀ q, (f q).child = q.child) :
    ∀ {xs : List Nat} {start : Option Nat} {fuel : Nat} {h : Heap},
      Visits h.child start xs → xs.length ≤ fuel →
      sweep f fuel start h = some (h.onAll f xs) := by
  intro xs
  induction xs with
  | nil =>
    intro start fuel h hv _
    obtain rfl : start = none := hv.head
    rw [sweep.eq_def]
    simp [Heap.onAll]
  | cons x xs ih =>
    intro start fuel h hv hfuel
    obtain rfl : start = some x := hv.head
    obtain ⟨fuel, rfl⟩ : ∃ k, fuel = k + 1 :=
      Nat.exists_eq_add_one_of_ne_zero (Nat.ne_of_gt (Nat.lt_of_lt_of_le (Nat.succ_pos _) hfuel))
    have hx : x ∉ xs := (List.nodup_cons.mp hv.nodup).1
    -- No chunk on a chain that ends is its own child.
    have hnext : (if (h.pool x).child ≠ some x then (h.pool x).child else some x) =
        (h.pool x).child := by
      split
      · rfl
      · rename_i hself
        exact (not_not.mp hself).symm
    -- The links are kept, so the walk meets the same chunks.
    have hrest : Visits (h.modify x f).child (h.pool x).child xs := by
      rw [Heap.modify_child (hf _)]
      exact hv.rest
    simp only [sweep, hnext]
    rw [ih hrest (Nat.le_of_succ_le_succ hfuel), Heap.modify_onAll h f hx]

/-- What `reset` does to a chunk. -/
def Pool.reset (q : Pool) : Pool := { q with pos := 0 }

/-- What `clear` does to a chunk. -/
def Pool.clear (q : Pool) : Pool :=
  { q with pos := 0, m := fun o => if o < q.size then 0 else q.m o }

/-- **`ina_mempool_reset`.** -/
theorem Heap.IsChain.reset {h : Heap} {pool : Nat} {xs : List Nat} (hc : h.IsChain pool xs) :
    inaMempoolReset h pool = some ((h.onAll Pool.reset xs).setCurrent pool pool) := by
  have hsweep := sweep_visits (f := Pool.reset) (fun _ => rfl) hc.visits hc.length_le
  unfold Pool.reset at hsweep
  rw [inaMempoolReset, hsweep]
  rfl

/-- **`ina_mempool_clear`.** -/
theorem Heap.IsChain.clear {h : Heap} {pool : Nat} {xs : List Nat} (hc : h.IsChain pool xs) :
    inaMempoolClear h pool = some ((h.onAll Pool.clear xs).setCurrent pool pool) := by
  have hsweep := sweep_visits (f := Pool.clear) (fun _ => rfl) hc.visits hc.length_le
  unfold Pool.clear at hsweep
  rw [inaMempoolClear, hsweep]
  rfl

theorem Heap.Linked.isChain {h : Heap} (hl : h.Linked) {pool : Nat} (hpool : pool < h.count) :
    ∃ xs, h.IsChain pool xs := by
  obtain ⟨xs, hv, -, hall⟩ := hl.visits h.count hpool (Nat.le_add_right ..)
  exact ⟨xs, hv, hall⟩

/-- `reset` returns, and keeps chains forward. -/
theorem Heap.Linked.reset {h : Heap} (hl : h.Linked) {pool : Nat} (hpool : pool < h.count) :
    ∃ h', inaMempoolReset h pool = some h' ∧ h'.Linked ∧ h'.count = h.count := by
  obtain ⟨xs, hc⟩ := hl.isChain hpool
  have hsame : ∀ i, ((h.onAll Pool.reset xs).pool i).child = (h.pool i).child ∧
      ((h.onAll Pool.reset xs).pool i).current = (h.pool i).current := by
    intro i
    rw [Heap.onAll_pool]
    split <;> exact ⟨rfl, rfl⟩
  have hall : (h.onAll Pool.reset xs).Linked := by
    refine ⟨fun i hi c hc' => ?_, fun i hi => ?_⟩
    · rw [(hsame i).1] at hc'
      exact hl.child i hi c hc'
    · rw [(hsame i).2]
      exact hl.current i hi
  exact ⟨_, hc.reset, hall.setCurrent pool hpool, rfl⟩

end Mempool
end Inac
