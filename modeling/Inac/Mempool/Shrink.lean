import Inac.Mempool.Align
import Inac.Mempool.Chain

/-!
# `ina_mempool_shrink`

The function is to leave so many child chunks and no more, and to report the pool it leaves. Its
loop walks the chain from the root and gives chunks back while more are left than asked for; but it
begins with the root, so the first thing to go is the pool itself, and `pool->end` is read again on
the next round. It gives nothing back at all when something was taken from the root's back, and it
never unlinks a chunk. What it reports was found before the loop.

So it does what it is for exactly when there is nothing to do (`shrinks_iff`).

A structure that was given back is noted here, and `stray` is an access to one.

Whether a round gives its chunk back is asked of `end` and `size` of the root, so the answer is the
same in every round. If they are equal, the first chunk to go is the root, and another round that
has one to give back reads it. If they are not, every chunk is rewound and none is freed.
-/

namespace Inac
namespace Mempool

open Lib

/-! ## The function -/

/-- How the loop ends: with these structures given back, by an access to one of them, or not at
    all. -/
inductive ShrinkEnd where
  | done (freed : List Nat) (h : Heap)
  | stray
  | hang

/-- The loop of `ina_mempool_shrink`. A shared chunk is unmapped and any other's bytes are freed;
    the structure is freed either way. -/
def shrinkLoop (pool chunks : Nat) : Nat → Option Nat → Nat → List Nat → Heap → ShrinkEnd
  | _, none, _, freed, h => .done freed h
  | 0, some _, _, _, _ => .hang
  | fuel + 1, some pn, c, freed, h =>
    if pn ∈ freed then .stray
    else
      let next := if (h.pool pn).child ≠ some pn then (h.pool pn).child else some pn
      -- `c > chunks && pool->end == pool->size` reads the root only if more chunks are left
      if c > chunks ∧ pool ∈ freed then .stray
      else if c > chunks ∧ (h.pool pool).endPos = (h.pool pool).size then
        shrinkLoop pool chunks fuel next (subSz c 1) (pn :: freed) h
      else
        shrinkLoop pool chunks fuel next (subSz c 1) freed (h.modify pn fun q => { q with pos := 0 })

/-- `ina_mempool_shrink`, and what it stores in `info`. -/
def inaMempoolShrink (h : Heap) (pool chunks : Nat) : ShrinkEnd × Option Info :=
  match inaMempoolInfo h pool with
  | none => (.hang, none)
  | some info =>
    if info.children ≤ chunks then (.done [] h, some info)
    else (shrinkLoop pool chunks h.count (some pool) info.children [] h, some info)

/-- What shrinking to `chunks` child chunks is: as many are left as there were, or `chunks`; the
    root, its chain and `current` were not given back; and `info` describes the pool that is
    left. -/
def Shrinks (h : Heap) (pool chunks : Nat) : Prop :=
  ∃ freed h' info xs ys,
    inaMempoolShrink h pool chunks = (.done freed h', some info) ∧
    h.IsChain pool xs ∧ h'.IsChain pool ys ∧
    ys.length - 1 = min (xs.length - 1) chunks ∧
    (∀ y ∈ ys, y ∉ freed) ∧ (h'.pool pool).current ∉ freed ∧
    inaMempoolInfo h' pool = some info

/-! ## What the loop does

Two rules for what a round may do, which differ in what they assume of the root. -/

/-- What a round keeps, whether it gives a chunk back or rewinds it, the loop keeps. -/
theorem shrinkLoop_keeps {pool chunks : Nat} {I : List Nat → Heap → Prop}
    (hfree : ∀ freed h i, I freed h → (h.pool pool).endPos = (h.pool pool).size → I (i :: freed) h)
    (hrewind : ∀ freed h i, I freed h → I freed (h.modify i fun q => { q with pos := 0 })) :
    ∀ {fuel : Nat} {pn : Option Nat} {c : Nat} {freed freed' : List Nat} {h h' : Heap},
      I freed h → shrinkLoop pool chunks fuel pn c freed h = .done freed' h' → I freed' h' := by
  intro fuel
  induction fuel with
  | zero =>
    intro pn c freed freed' h h' hi hloop
    cases pn with
    | none =>
      obtain ⟨rfl, rfl⟩ := ShrinkEnd.done.inj hloop
      exact hi
    | some i => cases hloop
  | succ fuel ih =>
    intro pn c freed freed' h h' hi hloop
    cases pn with
    | none =>
      obtain ⟨rfl, rfl⟩ := ShrinkEnd.done.inj hloop
      exact hi
    | some i =>
      rw [shrinkLoop] at hloop
      split at hloop
      · cases hloop
      · dsimp only at hloop
        split at hloop
        · cases hloop
        · split at hloop
          · -- A chunk is given back; else it is rewound.
            rename_i hround
            exact ih (hfree freed h i hi hround.2) hloop
          · exact ih (hrewind freed h i hi) hloop

/-- What was given back stays so. -/
theorem shrinkLoop_freed {pool chunks fuel c x : Nat} {pn : Option Nat} {freed freed' : List Nat}
    {h h' : Heap} (hx : x ∈ freed)
    (hloop : shrinkLoop pool chunks fuel pn c freed h = .done freed' h') : x ∈ freed' :=
  shrinkLoop_keeps (I := fun freed _ => x ∈ freed) (fun _ _ i hx _ => List.mem_cons_of_mem i hx)
    (fun _ _ _ hx => hx) hx hloop

/-- With something taken from the root's back, the loop keeps the chain. -/
theorem shrinkLoop_kept {pool chunks fuel c : Nat} {pn : Option Nat} {freed freed' : List Nat}
    {h h' : Heap} (hend : (h.pool pool).endPos ≠ (h.pool pool).size)
    (hloop : shrinkLoop pool chunks fuel pn c freed h = .done freed' h') : h'.child = h.child := by
  have hkept := shrinkLoop_keeps
    (I := fun _ g => (g.pool pool).endPos ≠ (g.pool pool).size ∧ g.child = h.child)
    (fun _ _ _ hi hround => absurd hround hi.1) (fun _ g i hi => ⟨?_, ?_⟩) ⟨hend, rfl⟩ hloop
  · exact hkept.2
  · rw [Heap.modify_pool]
    split <;> exact hi.1
  · rw [Heap.modify_child rfl]
    exact hi.2

/-! ## When it shrinks -/

/-- **`ina_mempool_shrink`** does what it is for exactly when no chunk is to go. -/
theorem shrinks_iff {h : Heap} {pool : Nat} {xs : List Nat} (hc : h.IsChain pool xs) (chunks : Nat) :
    Shrinks h pool chunks ↔ xs.length - 1 ≤ chunks := by
  constructor
  · rintro ⟨freed, h', info, xs', ys, hshrink, hxs', hys, hlen, hfreed, -, -⟩
    obtain rfl := hc.visits.unique hxs'.visits
    by_contra hmore
    obtain ⟨n, hn⟩ : ∃ n, h.count = n + 1 :=
      Nat.exists_eq_add_one_of_ne_zero (Nat.ne_of_gt (Nat.zero_lt_of_lt (hc.lt pool hc.mem_root)))
    simp only [inaMempoolShrink, hc.info, if_neg hmore, Prod.mk.injEq] at hshrink
    obtain ⟨hloop, -⟩ := hshrink
    by_cases hend : (h.pool pool).endPos = (h.pool pool).size
    · -- the root is the first to go
      have hgt : xs.length - 1 > chunks := Nat.lt_of_not_le hmore
      rw [hn, shrinkLoop, if_neg List.not_mem_nil, if_neg fun hc => List.not_mem_nil hc.2,
        if_pos ⟨hgt, hend⟩] at hloop
      exact hfreed pool hys.mem_root (shrinkLoop_freed List.mem_cons_self hloop)
    · -- none goes
      have hsame := shrinkLoop_kept hend hloop
      have hys' : Visits h.child (some pool) ys := hsame ▸ hys.visits
      obtain rfl := hc.visits.unique hys'
      omega
  · intro hle
    refine ⟨[], h, _, xs, xs, ?_, hc, hc, (Nat.min_eq_left hle).symm, fun y _ => List.not_mem_nil,
      List.not_mem_nil, hc.info⟩
    simp only [inaMempoolShrink, hc.info, if_pos hle]

/-- Two child chunks, and as many may stay. -/
theorem shrinks_iff_nothing_to_go :
    ∃ h, exec (allocStep .ample) (Env.ample.start (fun _ _ => 0) 1024 memDynamic)
        [.dalloc 600 16, .dalloc 600 16, .dalloc 600 16] = some h ∧
      h.IsChain 0 [0, 1, 2] ∧ Shrinks h 0 2 := by
  have hc : ∀ h, exec (allocStep .ample) (Env.ample.start (fun _ _ => 0) 1024 memDynamic)
      [.dalloc 600 16, .dalloc 600 16, .dalloc 600 16] = some h → h.IsChain 0 [0, 1, 2] := by
    intro h hrun
    obtain rfl := Option.some.inj hrun
    exact ⟨.node 0 _ (.node 1 _ (.node 2 _ .null)), by decide⟩
  exact ⟨_, rfl, hc _ rfl, (shrinks_iff (hc _ rfl) 2).mpr (by decide)⟩

/-- Two child chunks, none to stay: the root is given back, and read in the next round. -/
theorem shrink_reads_freed_root :
    ∃ h, exec (allocStep .ample) (Env.ample.start (fun _ _ => 0) 1024 memDynamic)
        [.dalloc 600 16, .dalloc 600 16, .dalloc 600 16] = some h ∧
      inaMempoolShrink h 0 0 = (.stray, some ⟨3072, 1824, 2, memDynamic⟩) ∧ ¬ Shrinks h 0 0 := by
  refine ⟨_, rfl, rfl, ?_⟩
  rintro ⟨freed, h', info, xs, ys, hshrink, -⟩
  cases hshrink

end Mempool
end Inac
