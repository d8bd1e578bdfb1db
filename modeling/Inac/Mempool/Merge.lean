import Inac.Mempool.Align
import Inac.Mempool.Chain

/-!
# Several pools, and what a chain loses

A caller holds pools and gives up a pool it merges into another. Each pool it holds has its chain
of chunks, no two chains meet, and `current` is on the chain: that is all the allocators, `reset`,
`clear` and `merge` need to work on a chain, and all of them keep it (`Pools.Ok`).

They do not all keep the chunks. `nalloc` and `ralloc` store a new chunk in `current->child` without
a look at what is there, and after a `reset` there may be the rest of the chain. `merge` puts the
source behind the destination's first chunk and overwrites the source's `child` with what was there,
so the source's own chunks go. `Loses` is the condition on a call, and a run keeps every chunk
exactly when no call of it meets the condition.

Bytes are of no concern here: that `ralloc` may write past a chunk is in `Inac.Mempool.Ralloc`.
-/

namespace Inac
namespace Mempool

open Lib

/-! ## `ina_mempool_merge` -/

def inaMempoolMerge (h : Heap) (dest src : Nat) : Except Err Unit × Heap :=
  if src = dest then (.ok (), h)
  else if (h.pool dest).cf &&& memShared ≠ 0 ∨ (h.pool src).cf &&& memShared ≠ 0 then
    (.error .operationInvalid, h)
  else
    let firstChild := (h.pool dest).child
    let h := h.modify src fun q => { q with parent := some dest }
    let h := h.modify dest fun q => { q with child := some src }
    (.ok (), h.modify src fun q => { q with child := firstChild })

/-! ## The caller's side

A pool that has been merged is no longer held, and calls on pools that are not held are not made. A
call that stores through `NULL` ends the run. -/

/-- The pools a caller holds. -/
structure Pools where
  heap : Heap
  live : List Nat

inductive Call where
  | new (size : Nat) (cf : UInt32)
  | dalloc (pool size alignment : Nat)
  | nalloc (pool size alignment : Nat)
  | ralloc (pool : Nat) (old : Ptr) (oldSize newSize alignment : Nat)
  | reset (pool : Nat)
  | clear (pool : Nat)
  | merge (dest src : Nat)
  deriving DecidableEq, Repr

/-- The pools a call is made on. -/
def Call.pools : Call → List Nat
  | .new _ _ => []
  | .dalloc pool _ _ => [pool]
  | .nalloc pool _ _ => [pool]
  | .ralloc pool _ _ _ _ => [pool]
  | .reset pool => [pool]
  | .clear pool => [pool]
  | .merge dest src => [dest, src]

/-- What a call gives back. -/
inductive Reply where
  | pool (i : Nat)
  | ret (r : Ret)
  | rc (r : Except Err Unit)
  | hang
  | none  -- the caller holds no such pool, or the program is down

/-- An allocation, in the pools' heap. -/
def Pools.alloc (s : Pools) : Ret × Heap → Reply × Option Pools
  | (.hang, _) => (.hang, none)
  | (.fault, _) => (.ret .fault, none)
  | (ret, h) => (.ret ret, some { s with heap := h })

/-- `reset` and `clear`. -/
def Pools.walk (s : Pools) : Option Heap → Reply × Option Pools
  | some h => (.rc (.ok ()), some { s with heap := h })
  | none => (.hang, none)

/-- After a merge the source is not to be used any more. -/
def Pools.merge (s : Pools) (dest src : Nat) : Reply × Option Pools :=
  match inaMempoolMerge s.heap dest src with
  | (.ok _, h) => (.rc (.ok ()), some ⟨h, if src = dest then s.live else s.live.erase src⟩)
  | (.error e, h) => (.rc (.error e), some ⟨h, s.live⟩)

/-- A call. -/
def Pools.perform (E : Env) (s : Pools) : Call → Reply × Option Pools
  | .new size cf =>
    match E.inaMempoolNew s.heap size cf with
    | .pool i h => (.pool i, some ⟨h, i :: s.live⟩)
    | .failed e => (.rc (.error e), some s)
    | .fault => (.ret .fault, none)
  | .dalloc pool size alignment => s.alloc (E.dallocAligned s.heap pool size alignment)
  | .nalloc pool size alignment => s.alloc (E.nallocAligned s.heap pool size alignment)
  | .ralloc pool old oldSize newSize alignment =>
    s.alloc (E.rallocAligned s.heap pool old oldSize newSize alignment)
  | .reset pool => s.walk (inaMempoolReset s.heap pool)
  | .clear pool => s.walk (inaMempoolClear s.heap pool)
  | .merge dest src => s.merge dest src

/-- One call of a caller that uses only pools it holds. -/
def callStep (E : Env) : Option Pools → Call → Reply × Option Pools
  | none, _ => (.none, none)
  | some s, call => if ∀ p ∈ call.pools, p ∈ s.live then s.perform E call else (.none, some s)

/-! ## No chunk is lost

What a caller can see of it is `ina_mempool_info`: the totals it reports of a pool are those of all
its chunks. -/

/-- A pool has its chunks still, and `info` reports no less. -/
def Keeps (h h' : Heap) (p : Nat) : Prop :=
  ∃ xs ys i i', h.IsChain p xs ∧ h'.IsChain p ys ∧ xs ⊆ ys ∧
    inaMempoolInfo h p = some i ∧ inaMempoolInfo h' p = some i' ∧
    i.size ≤ i'.size ∧ i.children ≤ i'.children

/-- `info` reports the sums of two pools, and the source as one more child. -/
def Joins (h h' : Heap) (dest src : Nat) : Prop :=
  ∃ i j k, inaMempoolInfo h dest = some i ∧ inaMempoolInfo h src = some j ∧
    inaMempoolInfo h' dest = some k ∧
    k.size = i.size + j.size ∧ k.children = i.children + j.children + 1

/-- The merge is one of two pools, neither shared. -/
def Merges (s : Pools) (dest src : Nat) : Prop :=
  dest ∈ s.live ∧ src ∈ s.live ∧ src ≠ dest ∧
    (s.heap.pool dest).cf &&& memShared = 0 ∧ (s.heap.pool src).cf &&& memShared = 0

/-- A call loses no chunk: pools that are held before and after keep theirs, and a merge joins. -/
def NoneLost (E : Env) (s : Option Pools) (call : Call) : Prop :=
  ∀ t, s = some t →
    (callStep E s call).1 ≠ .hang ∧
    ∀ t', (callStep E s call).2 = some t' →
      (∀ p ∈ t.live, p ∈ t'.live → Keeps t.heap t'.heap p) ∧
      ∀ dest src, call = .merge dest src → Merges t dest src → Joins t.heap t'.heap dest src

/-! ## The condition

It is about the heap before the call: whether it will add a chunk, and whether any stand behind
`current`. -/

/-- `nalloc` of `n` bytes adds a chunk. -/
def Env.NallocGrows (E : Env) (h : Heap) (pool n : Nat) : Prop :=
  n ≤ (h.pool pool).endPos ∧ (h.pool (h.pool pool).current).Full n ∧
    (h.pool pool).cf &&& memDynamic ≠ 0 ∧ E.Grants (h.pool pool) n

/-- The root has no room for a block of `old` bytes that is to have `new`. -/
def Pool.Lacks (p : Pool) (pool : Nat) (q : Ptr) (old new : Nat) : Prop :=
  if p.pos ≥ old ∧ Ptr.mk pool (subSz p.pos old) = q then
    ¬ subSz (addSz p.pos new) old ≤ p.endPos
  else ¬ new ≤ old ∧ ¬ (addSz p.pos new ≥ p.pos ∧ addSz p.pos new ≤ p.endPos)

/-- `ralloc` of a block of `old` bytes to `new` adds a chunk. -/
def Env.RallocGrows (E : Env) (h : Heap) (pool : Nat) (q : Ptr) (old new : Nat) : Prop :=
  old ≤ (h.pool pool).endPos ∧ (h.pool pool).Lacks pool q old new ∧
    (h.pool pool).cf &&& memDynamic ≠ 0 ∧ E.Grants (h.pool pool) new

/-- There are chunks behind `current`. -/
def Behind (h : Heap) (pool : Nat) : Prop := h.child (h.pool pool).current ≠ none

/-- The call loses chunks: an `nalloc` or `ralloc` adds a chunk where chunks stand behind `current`,
    or the source of a merge has child chunks. -/
def Loses (E : Env) : Option Pools → Call → Prop
  | some s, .nalloc pool size alignment =>
    pool ∈ s.live ∧ E.NallocGrows s.heap pool (memAlignN size alignment) ∧ Behind s.heap pool
  | some s, .ralloc pool old oldSize newSize alignment =>
    pool ∈ s.live ∧ E.RallocGrows s.heap pool old (memAlignN oldSize alignment)
      (memAlignN newSize alignment) ∧ Behind s.heap pool
  | some s, .merge dest src => Merges s dest src ∧ s.heap.child src ≠ none
  | _, _ => False

/-! ## What a call does to the chains

Two things are possible. Either all links are what they were (`Moved`), or one chunk has been made
and linked behind another (`Grown`). -/

/-- Nothing but positions, bytes and the pool's `current` has changed. -/
structure Moved (h h' : Heap) (p : Nat) : Prop where
  count : h'.count = h.count
  child : h'.child = h.child
  size : ∀ i, (h'.pool i).size = (h.pool i).size
  current : ∀ i, i ≠ p → (h'.pool i).current = (h.pool i).current

/-- A chunk was linked behind `z` and is the pool's `current`. -/
structure Grown (h h' : Heap) (p z : Nat) : Prop where
  count : h'.count = h.count + 1
  child : ∀ i < h.count, h'.child i = if i = z then some h.count else h.child i
  last : h'.child h.count = none
  size : ∀ i < h.count, (h'.pool i).size = (h.pool i).size
  current : ∀ i < h.count, i ≠ p → (h'.pool i).current = (h.pool i).current
  new : (h'.pool p).current = h.count

/-- The pool's structure, and no other, has another `current`, position or bytes. -/
theorem Moved.setCurrent (h : Heap) (p c : Nat) : Moved h (h.setCurrent p c) p := by
  refine ⟨rfl, Heap.setCurrent_child .., fun i => ?_, fun i hi => ?_⟩ <;> rw [Heap.setCurrent_pool]
  exact if_neg hi

/-- An assignment that keeps what chains are made of. -/
def Tame (f : Pool → Pool) : Prop :=
  ∀ q, (f q).child = q.child ∧ (f q).size = q.size ∧ (f q).current = q.current

theorem Tame.moved {f : Pool → Pool} (hf : Tame f) (h : Heap) (p c : Nat) :
    Moved h (h.modify c f) p ∧ ((h.modify c f).pool p).current = (h.pool p).current := by
  have hcur : ∀ i, ((h.modify c f).pool i).current = (h.pool i).current := by
    intro i
    rw [Heap.modify_pool]
    split
    · exact (hf _).2.2
    · rfl
  refine ⟨⟨rfl, Heap.modify_child (hf _).1, fun i => ?_, fun i _ => hcur i⟩, hcur p⟩
  rw [Heap.modify_pool]
  split
  · exact (hf _).2.1
  · rfl

theorem tame_pos (g : Pool → Nat) : Tame fun q => { q with pos := g q } := fun _ => ⟨rfl, rfl, rfl⟩

theorem tame_endPos (g : Pool → Nat) : Tame fun q => { q with endPos := g q } := fun _ =>
  ⟨rfl, rfl, rfl⟩

theorem tame_m (g : Pool → Nat → UInt8) : Tame fun q => { q with m := g q } := fun _ =>
  ⟨rfl, rfl, rfl⟩

theorem Moved.trans {h h' h'' : Heap} {p : Nat} (hm : Moved h h' p) (hm' : Moved h' h'' p) :
    Moved h h'' p :=
  ⟨hm'.count.trans hm.count, hm'.child.trans hm.child, fun i => (hm'.size i).trans (hm.size i),
    fun i hi => (hm'.current i hi).trans (hm.current i hi)⟩

theorem Grown.after {h g h' : Heap} {p z : Nat} (hm : Moved h g p) (hg : Grown g h' p z) :
    Grown h h' p z := by
  obtain ⟨hcount, hchild, hlast, hsize, hcur, hnew⟩ := hg
  rw [hm.count] at hcount hchild hlast hsize hcur hnew
  refine ⟨hcount, fun i hi => ?_, hlast, fun i hi => ?_, fun i hi hne => ?_, hnew⟩
  · rw [hchild i hi, hm.child]
  · exact (hsize i hi).trans (hm.size i)
  · exact (hcur i hi hne).trans (hm.current i hne)

theorem Grown.then {h g h' : Heap} {p z : Nat} (hg : Grown h g p z) (hm : Moved g h' p)
    (hcur : (h'.pool p).current = (g.pool p).current) : Grown h h' p z :=
  ⟨hm.count.trans hg.count, fun i hi => by rw [hm.child]; exact hg.child i hi,
    by rw [hm.child]; exact hg.last, fun i hi => (hm.size i).trans (hg.size i hi),
    fun i hi hne => (hm.current i hne).trans (hg.current i hi hne), hcur.trans hg.new⟩

theorem Added.grown {h h' : Heap} {p n : Nat} (hp : p < h.count) (ha : Added h p n h') :
    Grown h h' p (h.pool p).current := by
  refine ⟨ha.count, fun i hi => ?_, ha.child, fun i hi => ?_, fun i hi hne => ?_, ?_⟩
  · rw [Heap.child, ha.old i hi]
    rfl
  · rw [ha.old i hi]
  · rw [ha.old i hi]
    exact if_neg hne
  · rw [ha.old p hp]
    exact if_pos rfl

/-- The chunks `dalloc` looks at are on the chain, and the last of them is the chain's. -/
theorem Heap.IsChain.candidates {h : Heap} {p : Nat} {xs : List Nat} (hc : h.IsChain p xs)
    (hcur : (h.pool p).current ∈ xs) :
    h.candidates p ⊆ xs ∧ ∀ z, (h.pool p).cf &&& memDynamic ≠ 0 →
      (h.candidates p).getLast? = some z → h.child z = none := by
  obtain ⟨ys, hys, hsub⟩ := hc.drop hcur
  by_cases hdyn : (h.pool p).cf &&& memDynamic ≠ 0
  · have hcand : h.candidates p = ys := by
      rw [Heap.candidates, if_pos hdyn, Heap.chain_visits hys.visits hys.length_le]
    rw [hcand]
    exact ⟨hsub, fun z _ hz => hys.visits.last hz⟩
  · have hcand : h.candidates p = [(h.pool p).current] := if_neg hdyn
    rw [hcand]
    exact ⟨by simpa using hcur, fun z hd => absurd hd hdyn⟩

/-- **`dalloc`** serves from the chain, or adds a chunk behind its last. -/
theorem Env.Dallocs.effect {E : Env} {h : Heap} {p n : Nat} {r : Ret × Heap} {xs : List Nat}
    (hd : E.Dallocs h p n r) (hp : p < h.count) (hc : h.IsChain p xs)
    (hcur : (h.pool p).current ∈ xs) :
    (Moved h r.2 p ∧ (r.2.pool p).current ∈ xs) ∨
      ∃ z ∈ xs, h.child z = none ∧ Grown h r.2 p z := by
  obtain ⟨hsub, hlast⟩ := hc.candidates hcur
  -- The four ways in which `dalloc` ends; only one of them adds a chunk, and that is the end of the
  -- chain.
  cases hd with
  | served c hroom hlt =>
    obtain ⟨hmoved, hsame⟩ := (tame_pos fun q => addSz q.pos n).moved (h.setCurrent p c) p c
    refine Or.inl ⟨(Moved.setCurrent h p c).trans hmoved, ?_⟩
    dsimp only
    rw [hsame, Heap.setCurrent_pool, if_pos rfl]
    exact hsub (Heap.roomy_mem hroom).1
  | grown z h' hfull hdyn hgrant hz hlt hadd =>
    refine Or.inr ⟨z, hsub (List.mem_of_getLast? hz), hlast z hdyn hz, ?_⟩
    obtain ⟨hmoved, hsame⟩ := (tame_pos fun q => addSz q.pos n).moved h' p h.count
    have hp' : p < (h.setCurrent p z).count := hp
    have hgrown := hadd.grown hp'
    rw [Heap.setCurrent_pool, if_pos rfl] at hgrown
    exact (hgrown.after (.setCurrent h p z)).then hmoved hsame
  | refused z hfull hdyn hgrant hz hlt =>
    refine Or.inl ⟨.setCurrent h p z, ?_⟩
    dsimp only
    rw [Heap.setCurrent_pool, if_pos rfl]
    exact hsub (List.mem_of_getLast? hz)
  | full hfull hfix => exact Or.inl ⟨⟨rfl, rfl, fun _ => rfl, fun _ _ => rfl⟩, hcur⟩

theorem Moved.refl (h : Heap) (p : Nat) : Moved h h p :=
  ⟨rfl, rfl, fun _ => rfl, fun _ _ => rfl⟩

/-- What `nalloc` and `ralloc` do: they add a chunk behind the current one when `grows` says so, and
    otherwise keep the chain and `current`. -/
inductive Effect (h : Heap) (p : Nat) (grows : Prop) : Ret × Heap → Prop where
  | moved (ret : Ret) (h' : Heap) (hno : ¬ grows) (hret : ret ≠ .hang) (hm : Moved h h' p)
      (hcur : (h'.pool p).current = (h.pool p).current) : Effect h p grows (ret, h')
  | grown (q : Ptr) (h' : Heap) (hgr : grows) (hg : Grown h h' p (h.pool p).current) :
      Effect h p grows (.ok q, h')

theorem Effect.stays {h : Heap} {p : Nat} {grows : Prop} (hno : ¬ grows) {ret : Ret}
    (hret : ret ≠ .hang) : Effect h p grows (ret, h) := .moved ret h hno hret (.refl h p) rfl

/-- **`nalloc`** serves from the current chunk, or adds a chunk behind it. -/
theorem Env.Nallocs.effect {E : Env} {h : Heap} {p n : Nat} {r : Ret × Heap}
    (hd : E.Nallocs h p n r) (hp : p < h.count) : Effect h p (E.NallocGrows h p n) r := by
  cases hd with
  | bogus hend => exact .stays (fun hg => absurd hg.1 (Nat.not_le.mpr hend)) Ret.noConfusion
  | served hend hroom =>
    obtain ⟨hmoved, hsame⟩ := (tame_endPos fun q => subSz q.endPos n).moved h p (h.pool p).current
    exact .moved _ _ (fun hg => hroom hg.2.1) Ret.noConfusion hmoved hsame
  | grown h' hend hfull hdyn hgrant hadd =>
    obtain ⟨hmoved, hsame⟩ := (tame_endPos fun q => subSz q.endPos n).moved h' p h.count
    exact .grown _ _ ⟨hend, hfull, hdyn, hgrant⟩ ((hadd.grown hp).then hmoved hsame)
  | refused hend hfull hdyn hgrant => exact .stays (fun hg => hgrant hg.2.2.2) Ret.noConfusion
  | full hend hfull hfix => exact .stays (fun hg => hfix hg.2.2.1) Ret.noConfusion

theorem memSet_moved (h : Heap) (p : Nat) (q : Ptr) (v : UInt8) (n : Nat) :
    Moved h (h.memSet q v n) p ∧ ((h.memSet q v n).pool p).current = (h.pool p).current :=
  (tame_m fun r o => if q.off ≤ o ∧ o < q.off + n then v else r.m o).moved h p q.chunk

theorem moveToPos_moved (h : Heap) (p : Nat) (q : Ptr) (old new : Nat) :
    Moved h (moveToPos h p q old new).2 p ∧
      ((moveToPos h p q old new).2.pool p).current = (h.pool p).current := by
  obtain ⟨hcpy, hcur⟩ := (tame_m fun r o =>
    if (h.pool p).pos ≤ o ∧ o < (h.pool p).pos + old then
      (h.pool q.chunk).m (q.off + (o - (h.pool p).pos)) else r.m o).moved h p p
  obtain ⟨hpos, hcur'⟩ := (tame_pos fun r => addSz r.pos new).moved
    (h.memCpy ⟨p, (h.pool p).pos⟩ q old) p p
  exact ⟨hcpy.trans hpos, hcur'.trans hcur⟩

section Ralloc

variable (E : Env) {h : Heap} {p : Nat} (hp : p < h.count) (hcur : (h.pool p).current < h.count)
  {q : Ptr} {old new : Nat}
include hp hcur

/-- The two exits of `ralloc` that add a chunk to a dynamic pool. -/
theorem Env.rallocGrow_effect (hend : old ≤ (h.pool p).endPos)
    (hlacks : (h.pool p).Lacks p q old new) (e : Err) :
    Effect h p (E.RallocGrows h p q old new)
      (if (h.pool p).cf &&& memDynamic ≠ 0 then
        E.grown h p new fun g => moveToPos g p q old new else (.null e, h)) := by
  by_cases hdyn : (h.pool p).cf &&& memDynamic ≠ 0
  · rw [if_pos hdyn]
    rcases E.addChunk_cases hp hcur new with ⟨hg, h', heq, hadd⟩ | ⟨hg, ⟨heq, -⟩ | ⟨e, heq, -⟩⟩
    · obtain ⟨hmoved, hsame⟩ := moveToPos_moved h' p q old new
      simp only [Env.grown, heq]
      exact .grown _ _ ⟨hend, hlacks, hdyn, hg⟩ ((hadd.grown hp).then hmoved hsame)
    all_goals
      simp only [Env.grown, heq]
      exact .stays (fun hgr => hg hgr.2.2.2) Ret.noConfusion
  · rw [if_neg hdyn]
    exact .stays (fun hgr => hdyn hgr.2.2.1) Ret.noConfusion

/-- **`ralloc`** works on the root's chunk, or adds a chunk behind the current one. -/
theorem Env.rallocAligned_effect (oldSize newSize alignment : Nat) :
    Effect h p
      (E.RallocGrows h p q (memAlignN oldSize alignment) (memAlignN newSize alignment))
      (E.rallocAligned h p q oldSize newSize alignment) := by
  rw [Env.rallocAligned]
  generalize memAlignN oldSize alignment = old
  generalize memAlignN newSize alignment = new
  dsimp only
  by_cases hend : (h.pool p).endPos < old
  · rw [if_pos hend]
    exact .stays (fun hgr => absurd hgr.1 (Nat.not_le.mpr hend)) Ret.noConfusion
  rw [if_neg hend]
  have hle : old ≤ (h.pool p).endPos := Nat.le_of_not_lt hend
  -- The exits of the source in their order: the block was the last one allocated, or it was not.
  by_cases hlast : (h.pool p).pos ≥ old ∧ Ptr.mk p (subSz (h.pool p).pos old) = q
  · have hlacks : (h.pool p).Lacks p q old new ↔
        ¬ subSz (addSz (h.pool p).pos new) old ≤ (h.pool p).endPos := by
      rw [Pool.Lacks, if_pos hlast]
    rw [if_pos hlast]
    by_cases hfits : subSz (addSz (h.pool p).pos new) old ≤ (h.pool p).endPos
    · have hno : ¬ E.RallocGrows h p q old new := fun hgr => hlacks.mp hgr.2.1 hfits
      obtain ⟨hmoved, hsame⟩ := (tame_pos fun q => addSz q.pos (subSz new old)).moved h p p
      rw [if_pos hfits]
      split
      · obtain ⟨hset, hsame'⟩ := memSet_moved
          (h.modify p fun q => { q with pos := addSz q.pos (subSz new old) }) p
          ⟨p, ((h.modify p fun q => { q with pos := addSz q.pos (subSz new old) }).pool p).pos⟩ 0
          (subSz old new)
        exact .moved _ _ hno Ret.noConfusion (hmoved.trans hset) (hsame'.trans hsame)
      · exact .moved _ _ hno Ret.noConfusion hmoved hsame
    · rw [if_neg hfits]
      exact E.rallocGrow_effect hp hcur hle (hlacks.mpr hfits) _
  · have hlacks : (h.pool p).Lacks p q old new ↔ ¬ new ≤ old ∧
        ¬ (addSz (h.pool p).pos new ≥ (h.pool p).pos ∧
          addSz (h.pool p).pos new ≤ (h.pool p).endPos) := by
      rw [Pool.Lacks, if_neg hlast]
    rw [if_neg hlast]
    -- A block that shrinks stays where it is.
    by_cases hshrink : new ≤ old
    · rw [if_pos hshrink]
      exact .stays (fun hgr => (hlacks.mp hgr.2.1).1 hshrink) Ret.noConfusion
    rw [if_neg hshrink]
    by_cases hfits : addSz (h.pool p).pos new ≥ (h.pool p).pos ∧
        addSz (h.pool p).pos new ≤ (h.pool p).endPos
    · rw [if_pos hfits]
      obtain ⟨hmoved, hsame⟩ := moveToPos_moved h p q old new
      exact .moved _ _ (fun hgr => (hlacks.mp hgr.2.1).2 hfits) Ret.noConfusion hmoved hsame
    · rw [if_neg hfits]
      exact E.rallocGrow_effect hp hcur hle (hlacks.mpr ⟨hshrink, hfits⟩) _

end Ralloc

/-! ## The invariant

Who owns a chunk is a function on structures, so two chains cannot share one. -/

/-- The pool's chain is `xs`, its `current` is on it, and all of it is the pool's own. -/
structure Heap.Owns (h : Heap) (owner : Nat → Nat) (p : Nat) (xs : List Nat) : Prop where
  chain : h.IsChain p xs
  current : (h.pool p).current ∈ xs
  own : ∀ x ∈ xs, owner x = p

/-- What a caller's pools keep: no chunk has two owners. -/
structure Pools.Ok (s : Pools) : Prop where
  nodup : s.live.Nodup
  owned : ∃ owner, ∀ p ∈ s.live, ∃ xs, s.heap.Owns owner p xs

/-- A chain that has only grown is kept. -/
theorem keeps_of_sublist {h h' : Heap} {p : Nat} {xs ys : List Nat} (hx : h.IsChain p xs)
    (hy : h'.IsChain p ys) (hsub : xs.Sublist ys)
    (hsize : ∀ x ∈ xs, (h'.pool x).size = (h.pool x).size) : Keeps h h' p := by
  refine ⟨xs, ys, _, _, hx, hy, hsub.subset, hx.info, hy.info, ?_, ?_⟩
  · have hsame : h.sizes xs = h'.sizes xs := by
      rw [Heap.sizes, Heap.sizes, List.map_congr_left hsize]
    show h.sizes xs ≤ h'.sizes ys
    rw [hsame]
    exact (hsub.map _).sum_le_sum fun _ _ => Nat.zero_le _
  · exact Nat.sub_le_sub_right hsub.length_le 1

theorem Moved.chain {h h' : Heap} {p q : Nat} {xs : List Nat} (hm : Moved h h' p) :
    h'.IsChain q xs ↔ h.IsChain q xs := by
  constructor
  · intro hc
    exact ⟨hm.child ▸ hc.visits, fun x hx => hm.count ▸ hc.lt x hx⟩
  · intro hc
    exact ⟨hm.child.symm ▸ hc.visits, fun x hx => hm.count.symm ▸ hc.lt x hx⟩

/-- A call that keeps the chains keeps the invariant and the chunks. -/
theorem Pools.Ok.moved {s : Pools} (hs : s.Ok) {p : Nat} {h' : Heap} (hm : Moved s.heap h' p)
    (hcur : p ∈ s.live → ∀ xs, s.heap.IsChain p xs → (h'.pool p).current ∈ xs) :
    Pools.Ok { s with heap := h' } ∧ ∀ q ∈ s.live, Keeps s.heap h' q := by
  obtain ⟨owner, hown⟩ := hs.owned
  refine ⟨⟨hs.nodup, owner, fun q hq => ?_⟩, fun q hq => ?_⟩
  · obtain ⟨ys, hy⟩ := hown q hq
    refine ⟨ys, hm.chain.mpr hy.chain, ?_, hy.own⟩
    by_cases he : q = p
    · subst he
      exact hcur hq ys hy.chain
    · rw [hm.current q he]
      exact hy.current
  · obtain ⟨ys, hy⟩ := hown q hq
    exact keeps_of_sublist hy.chain (hm.chain.mpr hy.chain) (List.Sublist.refl ys)
      fun x _ => hm.size x

theorem mem_relinked {as bs : List Nat} {z n x : Nat} (hx : x ∈ as ++ [z] ++ [n]) (hne : x ≠ n) :
    x ∈ as ++ z :: bs := by
  simp only [List.mem_append, List.mem_singleton] at hx
  rcases hx with (hx | rfl) | rfl
  · exact List.mem_append_left _ hx
  · exact List.mem_append_right _ List.mem_cons_self
  · exact absurd rfl hne

/-- A chunk behind `z` cuts off what was there. -/
theorem Grown.chain {h h' : Heap} {p z : Nat} {as bs : List Nat} (hg : Grown h h' p z)
    (hc : h.IsChain p (as ++ z :: bs)) : h'.IsChain p (as ++ [z] ++ [h.count]) := by
  have hfresh : h.count ∉ as ++ z :: bs := fun hmem => Nat.lt_irrefl _ (hc.lt _ hmem)
  have hz : h.count ≠ z := fun he => hfresh (by simp [he])
  have hlink := (hc.visits.frame hfresh none).relink hz (Function.update_self ..)
  constructor
  · refine hlink.congr fun x hx => ?_
    by_cases hnew : x = h.count
    · rw [hnew, hg.last, Function.update_of_ne hz, Function.update_self]
    · rw [hg.child x (hc.lt x (mem_relinked hx hnew))]
      by_cases he : x = z
      · rw [if_pos he, he, Function.update_self]
      · rw [if_neg he, Function.update_of_ne he, Function.update_of_ne hnew]
  · intro x hx
    rw [hg.count]
    by_cases hnew : x = h.count
    · exact hnew ▸ Nat.lt_succ_self _
    · exact Nat.lt_succ_of_lt (hc.lt x (mem_relinked hx hnew))

theorem Grown.other {h h' : Heap} {p z q : Nat} {ys : List Nat} (hg : Grown h h' p z)
    (hc : h.IsChain q ys) (hz : z ∉ ys) : h'.IsChain q ys := by
  refine ⟨hc.visits.congr fun x hx => ?_, fun x hx => ?_⟩
  · rw [hg.child x (hc.lt x hx), if_neg (ne_of_mem_of_not_mem hx hz)]
  · rw [hg.count]
    exact Nat.lt_succ_of_lt (hc.lt x hx)

section Grow

variable {s : Pools} {owner : Nat → Nat} (hown : ∀ p ∈ s.live, ∃ xs, s.heap.Owns owner p xs)
  {p : Nat} (hp : p ∈ s.live) {xs : List Nat} (hc : s.heap.IsChain p xs)
include hown hp hc

theorem own_of_chain {x : Nat} (hx : x ∈ xs) : owner x = p := by
  obtain ⟨xs', hxs⟩ := hown p hp
  obtain rfl := hxs.chain.visits.unique hc.visits
  exact hxs.own x hx

theorem not_mem_other {x q : Nat} (hx : x ∈ xs) (hne : q ≠ p) {ys : List Nat}
    (hy : s.heap.Owns owner q ys) : x ∉ ys := fun hmem =>
  hne ((hy.own x hmem).symm.trans (own_of_chain hown hp hc hx))

end Grow

/-- **A chunk behind another** keeps the invariant, … -/
theorem Pools.Ok.grown {s : Pools} (hs : s.Ok) {p z : Nat} {h' : Heap} {as bs : List Nat}
    (hp : p ∈ s.live) (hc : s.heap.IsChain p (as ++ z :: bs)) (hg : Grown s.heap h' p z) :
    Pools.Ok { s with heap := h' } := by
  obtain ⟨owner, hown⟩ := hs.owned
  refine ⟨hs.nodup, Function.update owner s.heap.count p, fun q hq => ?_⟩
  by_cases he : q = p
  · subst he
    refine ⟨_, hg.chain hc, ?_, fun x hx => ?_⟩
    · rw [hg.new]
      simp
    · by_cases hnew : x = s.heap.count
      · rw [hnew, Function.update_self]
      · rw [Function.update_of_ne hnew]
        exact own_of_chain hown hp hc (mem_relinked hx hnew)
  · obtain ⟨ys, hy⟩ := hown q hq
    have hz : z ∉ ys := not_mem_other hown hp hc (by simp) he hy
    refine ⟨ys, hg.other hy.chain hz, ?_, fun x hx => ?_⟩
    · rw [hg.current q (hy.chain.lt q hy.chain.mem_root) he]
      exact hy.current
    · rw [Function.update_of_ne (Nat.ne_of_lt (hy.chain.lt x hx))]
      exact hy.own x hx

/-- … and the chunks exactly when nothing stood there. -/
theorem Pools.Ok.grown_keeps {s : Pools} (hs : s.Ok) {p z : Nat} {h' : Heap} {as bs : List Nat}
    (hp : p ∈ s.live) (hc : s.heap.IsChain p (as ++ z :: bs)) (hg : Grown s.heap h' p z) :
    (∀ q ∈ s.live, Keeps s.heap h' q) ↔ s.heap.child z = none := by
  have hnext : s.heap.child z = bs.head? := hc.visits.suffix.next_eq
  rw [hnext, List.head?_eq_none_iff]
  constructor
  · intro hkeeps
    obtain ⟨xs, ys, i, i', hx, hy, hsub, -⟩ := hkeeps p hp
    obtain rfl := hx.visits.unique hc.visits
    obtain rfl := hy.visits.unique (hg.chain hc).visits
    cases bs with
    | nil => rfl
    | cons b bs =>
      -- `b` stood behind `z`, so it is neither before it nor new
      have hnodup := List.nodup_append.mp hc.visits.nodup
      have hb : b ∈ as ++ [z] := by
        have hmem : b ∈ as ++ [z] ++ [s.heap.count] := hsub (by simp)
        rcases List.mem_append.mp hmem with hmem | hnew
        · exact hmem
        · have hlt := hc.lt b (by simp)
          rw [List.mem_singleton.mp hnew] at hlt
          exact absurd hlt (Nat.lt_irrefl _)
      rcases List.mem_append.mp hb with hb | hb
      · exact absurd rfl (hnodup.2.2 b hb b (by simp))
      · have hz := (List.nodup_cons.mp hnodup.2.1).1
        rw [← List.mem_singleton.mp hb] at hz
        exact absurd List.mem_cons_self hz
  · rintro rfl q hq
    by_cases he : q = p
    · subst he
      exact keeps_of_sublist hc (hg.chain hc) (List.sublist_append_left ..)
        fun x hx => hg.size x (hc.lt x hx)
    · obtain ⟨owner, hown⟩ := hs.owned
      obtain ⟨ys, hy⟩ := hown q hq
      have hz : z ∉ ys := not_mem_other hown hp hc (by simp) he hy
      exact keeps_of_sublist hy.chain (hg.other hy.chain hz) (List.Sublist.refl ys)
        fun x hx => hg.size x (hy.chain.lt x hx)

/-! ## Merging, and a new pool

The source's first chunk comes behind the destination's, and the destination's other chunks come
behind that. What was behind the source's first chunk is in no chain any more. -/

/-- What a merge of two pools does to the links. -/
structure Spliced (h h' : Heap) (dest src : Nat) : Prop where
  count : h'.count = h.count
  child : ∀ i, h'.child i =
    if i = src then h.child dest else if i = dest then some src else h.child i
  size : ∀ i, (h'.pool i).size = (h.pool i).size
  current : ∀ i, (h'.pool i).current = (h.pool i).current

theorem inaMempoolMerge_spliced {h : Heap} {dest src : Nat} (hne : src ≠ dest)
    (hd : (h.pool dest).cf &&& memShared = 0) (hs : (h.pool src).cf &&& memShared = 0) :
    ∃ h', inaMempoolMerge h dest src = (.ok (), h') ∧ Spliced h h' dest src := by
  have hshared : ¬ ((h.pool dest).cf &&& memShared ≠ 0 ∨ (h.pool src).cf &&& memShared ≠ 0) := by
    simp [hd, hs]
  simp only [inaMempoolMerge, if_neg hne, if_neg hshared]
  refine ⟨_, rfl, rfl, fun i => ?_, fun i => ?_, fun i => ?_⟩
  · simp only [Heap.child, Heap.modify_pool]
    split_ifs <;> rfl
  · simp only [Heap.modify_pool]
    split_ifs <;> rfl
  · simp only [Heap.modify_pool]
    split_ifs <;> rfl

theorem Spliced.chain {h h' : Heap} {dest src : Nat} {rest ss : List Nat}
    (hm : Spliced h h' dest src) (hne : src ≠ dest) (hd : h.IsChain dest (dest :: rest))
    (hs : h.IsChain src ss) (hsrc : src ∉ rest) : h'.IsChain dest (dest :: src :: rest) := by
  have hdest : dest ∉ rest := (List.nodup_cons.mp hd.visits.nodup).1
  constructor
  · refine .node dest _ ?_
    rw [hm.child, if_neg hne.symm, if_pos rfl]
    refine .node src _ ?_
    rw [hm.child, if_pos rfl]
    refine hd.visits.rest.congr fun x hx => ?_
    rw [hm.child, if_neg (ne_of_mem_of_not_mem hx hsrc), if_neg (ne_of_mem_of_not_mem hx hdest)]
  · intro x hx
    rw [hm.count]
    rcases List.mem_cons.mp hx with rfl | hx
    · exact hd.lt x List.mem_cons_self
    · rcases List.mem_cons.mp hx with rfl | hx
      · exact hs.lt x hs.mem_root
      · exact hd.lt x (List.mem_cons_of_mem dest hx)

theorem Spliced.other {h h' : Heap} {dest src q : Nat} {ys : List Nat} (hm : Spliced h h' dest src)
    (hc : h.IsChain q ys) (hd : dest ∉ ys) (hs : src ∉ ys) : h'.IsChain q ys := by
  refine ⟨hc.visits.congr fun x hx => ?_, fun x hx => by rw [hm.count]; exact hc.lt x hx⟩
  rw [hm.child, if_neg (ne_of_mem_of_not_mem hx hs), if_neg (ne_of_mem_of_not_mem hx hd)]

theorem Heap.IsChain.cons {h : Heap} {p : Nat} {xs : List Nat} (hc : h.IsChain p xs) :
    ∃ rest, xs = p :: rest ∧ (h.child p = none ↔ rest = []) := by
  obtain ⟨rest, rfl⟩ := List.head?_eq_some_iff.mp hc.visits.head.symm
  refine ⟨rest, rfl, ?_⟩
  rw [hc.visits.next_eq, List.head?_eq_none_iff]

/-- The merged chain has one chunk of the source: the sums are right exactly when there were no
    others. -/
theorem Spliced.joins_iff {h h' : Heap} {dest src : Nat} {rest ss : List Nat}
    (hm : Spliced h h' dest src) (hd : h.IsChain dest (dest :: rest)) (hs : h.IsChain src ss)
    (hd' : h'.IsChain dest (dest :: src :: rest)) : Joins h h' dest src ↔ h.child src = none := by
  obtain ⟨tail, rfl, htail⟩ := hs.cons
  have hsizes : ∀ l, h'.sizes l = h.sizes l := fun l => by
    rw [Heap.sizes, Heap.sizes, List.map_congr_left fun x _ => hm.size x]
  have hinfo := hd'.info
  rw [hsizes] at hinfo
  rw [htail]
  constructor
  · rintro ⟨i, j, k, hi, hj, hk, -, hsum⟩
    obtain rfl := Option.some.inj (hd.info.symm.trans hi)
    obtain rfl := Option.some.inj (hs.info.symm.trans hj)
    obtain rfl := Option.some.inj (hinfo.symm.trans hk)
    simp only [List.length_cons] at hsum
    exact List.length_eq_zero_iff.mp (by omega)
  · rintro rfl
    refine ⟨_, _, _, hd.info, hs.info, hinfo, ?_, ?_⟩
    · simp only [Heap.sizes, List.map_cons, List.sum_cons, List.map_nil, List.sum_nil]
      omega
    · simp only [List.length_cons, List.length_nil]
      omega

/-- The chunk of the source has a new owner. -/
theorem Spliced.owns {h h' : Heap} {dest src : Nat} {rest ss : List Nat} {owner : Nat → Nat}
    (hm : Spliced h h' dest src) (hd : h.Owns owner dest (dest :: rest)) (hs : h.Owns owner src ss)
    (hd' : h'.IsChain dest (dest :: src :: rest)) :
    h'.Owns (fun x => if owner x = src then dest else owner x) dest (dest :: src :: rest) := by
  refine ⟨hd', ?_, fun x hmem => ?_⟩
  · rw [hm.current]
    rcases List.mem_cons.mp hd.current with hc | hc
    · rw [hc]; exact List.mem_cons_self
    · exact List.mem_cons_of_mem _ (List.mem_cons_of_mem _ hc)
  · by_cases hxs : owner x = src
    · exact if_pos hxs
    · rw [if_neg hxs]
      rcases List.mem_cons.mp hmem with rfl | hmem
      · exact hd.own x List.mem_cons_self
      · rcases List.mem_cons.mp hmem with rfl | hmem
        · exact absurd (hs.own x hs.chain.mem_root) hxs
        · exact hd.own x (List.mem_cons_of_mem _ hmem)

/-- **A merge** keeps the invariant and the chunks of the pools that are left, and joins exactly
    when the source has no child. -/
theorem Pools.Ok.merged {s : Pools} (hs : s.Ok) {dest src : Nat} (hmerge : Merges s dest src) :
    ∃ h', inaMempoolMerge s.heap dest src = (.ok (), h') ∧
      Pools.Ok ⟨h', s.live.erase src⟩ ∧
      (∀ q ∈ s.live, q ∈ s.live.erase src → Keeps s.heap h' q) ∧
      (Joins s.heap h' dest src ↔ s.heap.child src = none) := by
  obtain ⟨hdest, hsrc, hne, hcfd, hcfs⟩ := hmerge
  obtain ⟨h', heq, hm⟩ := inaMempoolMerge_spliced hne hcfd hcfs
  obtain ⟨owner, hown⟩ := hs.owned
  obtain ⟨xs, hx⟩ := hown dest hdest
  obtain ⟨ss, hss⟩ := hown src hsrc
  obtain ⟨rest, rfl, -⟩ := hx.chain.cons
  -- The source has another owner, so it is on no other chain.
  have hnot : src ∉ dest :: rest :=
    not_mem_other hown hsrc hss.chain hss.chain.mem_root hne.symm hx
  have hchain := hm.chain hne hx.chain hss.chain fun h => hnot (List.mem_cons_of_mem dest h)
  have hother : ∀ q ∈ s.live, q ≠ dest → q ≠ src → ∀ ys, s.heap.Owns owner q ys →
      h'.IsChain q ys := fun q _ hqd hqs ys hy =>
    hm.other hy.chain (not_mem_other hown hdest hx.chain List.mem_cons_self hqd hy)
      (not_mem_other hown hsrc hss.chain hss.chain.mem_root hqs hy)
  have hleft : ∀ q ∈ s.live.erase src, q ≠ src ∧ q ∈ s.live := fun q hq =>
    (hs.nodup.mem_erase_iff).mp hq
  refine ⟨h', heq, ⟨hs.nodup.erase src, fun x => if owner x = src then dest else owner x,
    fun q hq => ?_⟩, fun q hq hq' => ?_, ?_⟩
  · -- The destination owns the merged chain, and the other pools keep theirs.
    obtain ⟨hqs, hq⟩ := hleft q hq
    by_cases he : q = dest
    · subst he
      exact ⟨_, hm.owns hx hss hchain⟩
    · obtain ⟨ys, hy⟩ := hown q hq
      refine ⟨ys, hother q hq he hqs ys hy, by rw [hm.current]; exact hy.current, fun x hmem => ?_⟩
      rw [hy.own x hmem, if_neg hqs]
  · obtain ⟨hqs, -⟩ := hleft q hq'
    by_cases he : q = dest
    · subst he
      exact keeps_of_sublist hx.chain hchain ((List.sublist_cons_self src rest).cons_cons q)
        fun x _ => hm.size x
    · obtain ⟨ys, hy⟩ := hown q hq
      exact keeps_of_sublist hy.chain (hother q hq he hqs ys hy) (List.Sublist.refl ys)
        fun x _ => hm.size x
  · exact hm.joins_iff hx.chain hss.chain hchain

/-- **A new pool** is a chain of its own. -/
theorem Pools.Ok.created {s : Pools} (hs : s.Ok) {size : Nat} {cf : UInt32} {h' : Heap}
    (hnew : Created s.heap size cf h') :
    Pools.Ok ⟨h', s.heap.count :: s.live⟩ ∧ ∀ q ∈ s.live, Keeps s.heap h' q := by
  obtain ⟨owner, hown⟩ := hs.owned
  -- A structure that is new is on no chain there was.
  have hother : ∀ q ys, s.heap.IsChain q ys → h'.IsChain q ys := fun q ys hy =>
    ⟨hy.visits.congr fun x hx => by rw [Heap.child, hnew.old x (hy.lt x hx)]; rfl,
      fun x hx => by rw [hnew.count]; exact Nat.lt_succ_of_lt (hy.lt x hx)⟩
  have hlt : ∀ q ∈ s.live, q < s.heap.count := fun q hq => by
    obtain ⟨ys, hy⟩ := hown q hq
    exact hy.chain.lt q hy.chain.mem_root
  refine ⟨⟨?_, Function.update owner s.heap.count s.heap.count, fun q hq => ?_⟩, fun q hq => ?_⟩
  · exact List.nodup_cons.mpr ⟨fun hmem => Nat.lt_irrefl _ (hlt _ hmem), hs.nodup⟩
  · rcases List.mem_cons.mp hq with rfl | hq
    · refine ⟨[s.heap.count], ⟨.node _ _ ?_, fun x hx => ?_⟩, ?_, fun x hx => ?_⟩
      · rw [Heap.child, hnew.child]
        exact .null
      · rw [List.mem_singleton.mp hx, hnew.count]
        exact Nat.lt_succ_self _
      · rw [hnew.current]
        exact List.mem_singleton_self _
      · rw [List.mem_singleton.mp hx, Function.update_self]
    · obtain ⟨ys, hy⟩ := hown q hq
      refine ⟨ys, hother q ys hy.chain, ?_, fun x hx => ?_⟩
      · rw [hnew.old q (hlt q hq)]
        exact hy.current
      · rw [Function.update_of_ne (Nat.ne_of_lt (hy.chain.lt x hx))]
        exact hy.own x hx
  · obtain ⟨ys, hy⟩ := hown q hq
    exact keeps_of_sublist hy.chain (hother q ys hy.chain) (List.Sublist.refl ys)
      fun x hx => by rw [hnew.old x (hy.chain.lt x hx)]

/-! ## One call

The three allocators, the walks and the merge each have a lemma, and `callStep_sound` chooses among
them. -/

/-- What is to be shown of a call: the invariant after it, and that it loses nothing exactly when it
    does not meet the condition. -/
structure CallSound (E : Env) (s : Pools) (call : Call) : Prop where
  ok : ∀ t, (callStep E (some s) call).2 = some t → t.Ok
  lost : NoneLost E (some s) call ↔ ¬ Loses E (some s) call

theorem CallSound.down {E : Env} {s : Pools} {call : Call} {reply : Reply}
    (hstep : callStep E (some s) call = (reply, none)) (hreply : reply ≠ .hang)
    (hno : ¬ Loses E (some s) call) : CallSound E s call := by
  refine ⟨fun t ht => ?_, fun _ => hno, fun _ t ht => ?_⟩
  · rw [hstep] at ht
    cases ht
  · rw [hstep]
    exact ⟨hreply, fun t' ht' => by cases ht'⟩

theorem CallSound.returns {E : Env} {s t : Pools} {call : Call} {reply : Reply}
    (hstep : callStep E (some s) call = (reply, some t)) (hreply : reply ≠ .hang) (hok : t.Ok)
    (hlost : ((∀ p ∈ s.live, p ∈ t.live → Keeps s.heap t.heap p) ∧
      ∀ dest src, call = .merge dest src → Merges s dest src → Joins s.heap t.heap dest src) ↔
        ¬ Loses E (some s) call) : CallSound E s call := by
  refine ⟨fun t' ht => ?_, ?_⟩
  · rw [hstep] at ht
    obtain rfl := Option.some.inj ht
    exact hok
  · rw [← hlost, NoneLost]
    constructor
    · intro h
      exact (h s rfl).2 t (by rw [hstep])
    · rintro h s' hs'
      obtain rfl := Option.some.inj hs'
      rw [hstep]
      refine ⟨hreply, fun t' ht => ?_⟩
      obtain rfl := Option.some.inj ht
      exact h

/-- A call that is no merge, keeps all pools and loses nothing. -/
theorem CallSound.keeps {E : Env} {s : Pools} {call : Call} {reply : Reply} {h' : Heap}
    {live : List Nat} (hstep : callStep E (some s) call = (reply, some ⟨h', live⟩))
    (hreply : reply ≠ .hang) (hok : Pools.Ok ⟨h', live⟩) (hkeeps : ∀ q ∈ s.live, Keeps s.heap h' q)
    (hcall : ∀ dest src, call = .merge dest src → ¬ Merges s dest src)
    (hno : ¬ Loses E (some s) call) : CallSound E s call :=
  .returns hstep hreply hok ⟨fun _ => hno, fun _ => ⟨fun p hp _ => hkeeps p hp,
    fun dest src heq hm => absurd hm (hcall dest src heq)⟩⟩

theorem Pools.alloc_cases (s : Pools) {ret : Ret} (hret : ret ≠ .hang) (h : Heap) :
    s.alloc (ret, h) = (.ret .fault, none) ∨ s.alloc (ret, h) = (.ret ret, some { s with heap := h }) := by
  cases ret with
  | ok q => exact Or.inr rfl
  | null e => exact Or.inr rfl
  | fault => exact Or.inl rfl
  | hang => exact absurd rfl hret

theorem Effect.sound {E : Env} {s : Pools} (hs : s.Ok) {call : Call} {p : Nat} (hp : p ∈ s.live)
    {grows : Prop} {r : Ret × Heap} (he : Effect s.heap p grows r)
    (hstep : callStep E (some s) call = s.alloc r)
    (hloses : Loses E (some s) call ↔ p ∈ s.live ∧ grows ∧ Behind s.heap p)
    (hcall : ∀ dest src, call = .merge dest src → ¬ Merges s dest src) : CallSound E s call := by
  obtain ⟨owner, hown⟩ := hs.owned
  obtain ⟨xs, hx⟩ := hown p hp
  cases he with
  -- All chains are as they were, so nothing is lost, and the call does not grow.
  | moved ret h' hno hret hm hcur =>
    have hno' : ¬ Loses E (some s) call := fun hl => hno (hloses.mp hl).2.1
    rcases s.alloc_cases hret h' with heq | heq
    · exact .down (hstep.trans heq) Reply.noConfusion hno'
    · obtain ⟨hok, hkeeps⟩ := hs.moved hm fun _ ys hy => by
        obtain rfl := hy.visits.unique hx.chain.visits
        rw [hcur]
        exact hx.current
      exact .keeps (hstep.trans heq) Reply.noConfusion hok hkeeps hcall hno'
  -- A chunk comes behind `current`: what stood there is lost, if anything did.
  | grown q h' hgr hg =>
    obtain ⟨as, bs, rfl⟩ := List.append_of_mem hx.current
    have hkeeps := hs.grown_keeps hp hx.chain hg
    refine .returns hstep Reply.noConfusion (hs.grown hp hx.chain hg) ?_
    rw [hloses, Behind, not_and_or, not_and_or]
    constructor
    · rintro ⟨hall, -⟩
      exact Or.inr (Or.inr (not_not.mpr (hkeeps.mp fun q hq => hall q hq hq)))
    · intro hno
      rcases hno with hno | hno | hno
      · exact absurd hp hno
      · exact absurd hgr hno
      · exact ⟨fun q hq _ => hkeeps.mpr (not_not.mp hno) q hq,
          fun dest src heq hm => absurd hm (hcall dest src heq)⟩

theorem onAll_moved (h : Heap) (p : Nat) {f : Pool → Pool} (hf : Tame f) (xs : List Nat) :
    Moved h ((h.onAll f xs).setCurrent p p) p := by
  have hpool : Moved h (h.onAll f xs) p := by
    refine ⟨rfl, funext fun i => ?_, fun i => ?_, fun i _ => ?_⟩
    · simp only [Heap.child, Heap.onAll_pool]
      split
      · exact (hf _).1
      · rfl
    · rw [Heap.onAll_pool]
      split
      · exact (hf _).2.1
      · rfl
    · rw [Heap.onAll_pool]
      split
      · exact (hf _).2.2
      · rfl
  exact hpool.trans (.setCurrent _ p p)

/-- **`reset` and `clear`** keep every chain. -/
theorem sound_walk {E : Env} {s : Pools} (hs : s.Ok) {call : Call} {p : Nat} (hp : p ∈ s.live)
    {f : Pool → Pool} (hf : Tame f) {r : Option Heap}
    (hr : ∀ xs, s.heap.IsChain p xs → r = some ((s.heap.onAll f xs).setCurrent p p))
    (hstep : callStep E (some s) call = s.walk r)
    (hcall : ∀ dest src, call = .merge dest src → ¬ Merges s dest src)
    (hno : ¬ Loses E (some s) call) : CallSound E s call := by
  obtain ⟨owner, hown⟩ := hs.owned
  obtain ⟨xs, hx⟩ := hown p hp
  obtain ⟨hok, hkeeps⟩ := hs.moved (onAll_moved s.heap p hf xs) fun _ ys hy => by
    rw [Heap.setCurrent_pool, if_pos rfl]
    exact hy.mem_root
  rw [hr xs hx.chain] at hstep
  exact .keeps hstep Reply.noConfusion hok hkeeps hcall hno

theorem Pools.Ok.keeps_self {s : Pools} (hs : s.Ok) : ∀ q ∈ s.live, Keeps s.heap s.heap q := by
  obtain ⟨owner, hown⟩ := hs.owned
  intro q hq
  obtain ⟨ys, hy⟩ := hown q hq
  exact keeps_of_sublist hy.chain hy.chain (List.Sublist.refl ys) fun _ _ => rfl

/-- A caller that does not hold the pools of a call makes none. -/
theorem sound_unheld {E : Env} {s : Pools} (hs : s.Ok) {call : Call}
    (hheld : ¬ ∀ p ∈ call.pools, p ∈ s.live) : CallSound E s call := by
  have hstep : callStep E (some s) call = (.none, some s) := if_neg hheld
  refine .keeps hstep Reply.noConfusion hs hs.keeps_self ?_ ?_
  · rintro dest src rfl hm
    refine hheld fun p hp => ?_
    simp only [Call.pools, List.mem_cons, List.not_mem_nil, or_false] at hp
    rcases hp with rfl | rfl
    · exact hm.1
    · exact hm.2.1
  · intro hl
    refine hheld fun p hp => ?_
    cases call with
    | nalloc pool size alignment => rw [List.mem_singleton.mp hp]; exact hl.1
    | ralloc pool old oldSize newSize alignment => rw [List.mem_singleton.mp hp]; exact hl.1
    | merge dest src =>
      simp only [Call.pools, List.mem_cons, List.not_mem_nil, or_false] at hp
      rcases hp with rfl | rfl
      · exact hl.1.1
      · exact hl.1.2.1
    | _ => exact hl.elim

theorem sound_dalloc {E : Env} {s : Pools} (hs : s.Ok) {pool : Nat} (hp : pool ∈ s.live)
    (size alignment : Nat)
    (hstep : callStep E (some s) (.dalloc pool size alignment) =
      s.alloc (E.dallocAligned s.heap pool size alignment)) :
    CallSound E s (.dalloc pool size alignment) := by
  obtain ⟨owner, hown⟩ := hs.owned
  obtain ⟨xs, hx⟩ := hown pool hp
  have hlt := hx.chain.lt pool hx.chain.mem_root
  obtain ⟨ys, hys, -⟩ := hx.chain.drop hx.current
  have hd := E.dallocAligned_visits hlt hys.visits hys.length_le hys.lt size alignment
  have hret : (E.dallocAligned s.heap pool size alignment).1 ≠ .hang := by
    generalize E.dallocAligned s.heap pool size alignment = r at hd
    cases hd with
    | refused z hfull hdyn hgrant hz hlt =>
      rw [Env.refusal]
      split <;> exact Ret.noConfusion
    | _ => exact Ret.noConfusion
  -- `dalloc` is not in the condition: where it adds a chunk it does so at the end.
  have hno : ¬ Loses E (some s) (.dalloc pool size alignment) := id
  have heffect := hd.effect hlt hx.chain hx.current
  generalize E.dallocAligned s.heap pool size alignment = r at hstep hret heffect
  obtain ⟨ret, h'⟩ := r
  rcases s.alloc_cases hret h' with heq | heq
  · exact .down (hstep.trans heq) Reply.noConfusion hno
  · rcases heffect with ⟨hm, hcur⟩ | ⟨z, hz, hlast, hg⟩
    · obtain ⟨hok, hkeeps⟩ := hs.moved hm fun _ ys hy => by
        obtain rfl := hy.visits.unique hx.chain.visits
        exact hcur
      exact .keeps (hstep.trans heq) Reply.noConfusion hok hkeeps (fun _ _ h => Call.noConfusion h) hno
    · obtain ⟨as, bs, rfl⟩ := List.append_of_mem hz
      exact .keeps (hstep.trans heq) Reply.noConfusion (hs.grown hp hx.chain hg)
        ((hs.grown_keeps hp hx.chain hg).mpr hlast) (fun _ _ h => Call.noConfusion h) hno

theorem sound_merge {E : Env} {s : Pools} (hs : s.Ok) {dest src : Nat} (hdest : dest ∈ s.live)
    (hsrc : src ∈ s.live)
    (hstep : callStep E (some s) (.merge dest src) = s.merge dest src) :
    CallSound E s (.merge dest src) := by
  by_cases hm : Merges s dest src
  · obtain ⟨h', heq, hok, hkeeps, hjoins⟩ := hs.merged hm
    simp only [Pools.merge, heq, if_neg hm.2.2.1] at hstep
    refine .returns hstep Reply.noConfusion hok ?_
    simp only [Loses, hm, true_and, ne_eq, not_not, ← hjoins]
    constructor
    · intro h
      exact h.2 dest src rfl hm
    · intro hj
      refine ⟨hkeeps, fun d r heq _ => ?_⟩
      obtain ⟨rfl, rfl⟩ := Call.merge.inj heq
      exact hj
  · -- A merge that is refused leaves everything as it is.
    have hsame : ∃ reply, s.merge dest src = (reply, some s) ∧ reply ≠ .hang := by
      simp only [Pools.merge, inaMempoolMerge]
      by_cases hne : src = dest
      · simp only [if_pos hne]
        exact ⟨_, rfl, Reply.noConfusion⟩
      · by_cases hshared : (s.heap.pool dest).cf &&& memShared ≠ 0 ∨
            (s.heap.pool src).cf &&& memShared ≠ 0
        · simp only [if_neg hne, if_pos hshared]
          exact ⟨_, rfl, Reply.noConfusion⟩
        · simp only [ne_eq, not_or, not_not] at hshared
          exact absurd ⟨hdest, hsrc, hne, hshared⟩ hm
    obtain ⟨reply, heq, hreply⟩ := hsame
    refine .keeps (hstep.trans heq) hreply hs hs.keeps_self ?_ fun hl => hm hl.1
    intro d r heq
    obtain ⟨rfl, rfl⟩ := Call.merge.inj heq
    exact hm

/-- **One call.** -/
theorem callStep_sound (E : Env) {s : Pools} (hs : s.Ok) (call : Call) : CallSound E s call := by
  by_cases hheld : ∀ p ∈ call.pools, p ∈ s.live
  · obtain ⟨owner, hown⟩ := hs.owned
    have hstep : callStep E (some s) call = s.perform E call := if_pos hheld
    have hlt : ∀ p ∈ s.live, p < s.heap.count ∧ (s.heap.pool p).current < s.heap.count := by
      intro p hp
      obtain ⟨xs, hx⟩ := hown p hp
      exact ⟨hx.chain.lt p hx.chain.mem_root, hx.chain.lt _ hx.current⟩
    cases call with
    | new size cf =>
      have hnone : ∀ dest src, Call.new size cf = .merge dest src → ¬ Merges s dest src :=
        fun _ _ h => Call.noConfusion h
      rcases E.inaMempoolNew_cases s.heap size cf with ⟨-, h', heq, hnew⟩ | ⟨-, heq⟩
      · obtain ⟨hok, hkeeps⟩ := hs.created hnew
        simp only [Pools.perform, heq] at hstep
        exact .keeps hstep Reply.noConfusion hok hkeeps hnone id
      · by_cases hf : E.Faults size cf
        · simp only [Pools.perform, heq, if_pos hf] at hstep
          exact .down hstep Reply.noConfusion id
        · simp only [Pools.perform, heq, if_neg hf] at hstep
          exact .keeps hstep Reply.noConfusion hs hs.keeps_self hnone id
    | dalloc pool size alignment =>
      exact sound_dalloc hs (hheld pool List.mem_cons_self) size alignment hstep
    | nalloc pool size alignment =>
      have hp := hheld pool List.mem_cons_self
      have hd := E.nallocAligned_nallocs (hlt pool hp).1 (hlt pool hp).2 size alignment
      exact (hd.effect (hlt pool hp).1).sound hs hp hstep Iff.rfl fun _ _ h => Call.noConfusion h
    | ralloc pool old oldSize newSize alignment =>
      have hp := hheld pool List.mem_cons_self
      exact (E.rallocAligned_effect (hlt pool hp).1 (hlt pool hp).2 oldSize newSize alignment).sound
        hs hp hstep Iff.rfl fun _ _ h => Call.noConfusion h
    | reset pool =>
      exact sound_walk hs (hheld pool List.mem_cons_self) (f := Pool.reset)
        (fun _ => ⟨rfl, rfl, rfl⟩) (fun _ hc => hc.reset) hstep (fun _ _ h => Call.noConfusion h) id
    | clear pool =>
      exact sound_walk hs (hheld pool List.mem_cons_self) (f := Pool.clear)
        (fun _ => ⟨rfl, rfl, rfl⟩) (fun _ hc => hc.clear) hstep (fun _ _ h => Call.noConfusion h) id
    | merge dest src =>
      exact sound_merge hs (hheld dest List.mem_cons_self)
        (hheld src (List.mem_cons_of_mem dest List.mem_cons_self)) hstep
  · exact sound_unheld hs hheld

/-! ## Runs -/

/-- A caller that holds no pool yet. -/
def Pools.empty (junk : Nat → Nat → UInt8) : Pools := ⟨⟨0, fun _ => default, junk⟩, []⟩

/-- **No chunk is lost exactly when no call loses one.** In every history of calls on any number of
    pools, every call keeps all chunks, reports totals that have not fallen and joins what it merges
    if and only if no call meets the condition of `Loses`. -/
theorem chunks_kept_iff_none_lost (E : Env) (junk : Nat → Nat → UInt8) (calls : List Call) :
    Along (callStep E) (NoneLost E) (some (Pools.empty junk)) calls ↔
      Never (callStep E) (Loses E) (some (Pools.empty junk)) calls := by
  refine along_iff_never (I := fun s => ∀ t, s = some t → t.Ok) (C := fun _ _ => True) ?_ ?_
    (along_iff_forall.mpr fun _ _ => trivial) ?_
  · intro s call _ _ hs t ht
    cases s with
    | none => cases ht
    | some s => exact (callStep_sound E (hs s rfl) call).ok t ht
  · intro s call _ hs
    cases s with
    | none => exact ⟨fun _ => id, fun _ t ht => by cases ht⟩
    | some s => exact (callStep_sound E (hs s rfl) call).lost
  · rintro t ht
    obtain rfl := Option.some.inj ht
    exact ⟨List.nodup_nil, id, fun p hp => absurd hp List.not_mem_nil⟩

-- After a `reset`, an `nalloc` that does not fit in the root cuts off the chunk behind it.
example :
    let run := exec (callStep .ample) (some (Pools.empty fun _ _ => 0))
    (run [.new 1024 memDynamic, .dalloc 0 600 16, .dalloc 0 3000 16, .reset 0,
        .dalloc 0 600 16]).bind (fun s => inaMempoolInfo s.heap 0) =
      some ⟨4032, 608, 1, memDynamic⟩ ∧
    (run [.new 1024 memDynamic, .dalloc 0 600 16, .dalloc 0 3000 16, .reset 0,
        .dalloc 0 600 16, .nalloc 0 600 16]).bind (fun s => inaMempoolInfo s.heap 0) =
      some ⟨2048, 1216, 1, memDynamic⟩ := by
  decide +kernel

/-- A source with a child chunk: the destination has 2048 bytes then and one child, where the sums
    are 3072 bytes and two. -/
theorem merge_drops_child :
    ∃ s t, exec (callStep .ample) (some (Pools.empty fun _ _ => 0))
        [.new 1024 memDynamic, .new 1024 memDynamic, .dalloc 1 600 16, .dalloc 1 600 16] = some s ∧
      (callStep .ample (some s) (.merge 0 1)).2 = some t ∧
      inaMempoolInfo s.heap 0 = some ⟨1024, 0, 0, memDynamic⟩ ∧
      inaMempoolInfo s.heap 1 = some ⟨2048, 1216, 1, memDynamic⟩ ∧
      inaMempoolInfo t.heap 0 = some ⟨2048, 608, 1, memDynamic⟩ ∧
      ¬ Along (callStep .ample) (NoneLost .ample) (some (Pools.empty fun _ _ => 0))
        [.new 1024 memDynamic, .new 1024 memDynamic, .dalloc 1 600 16, .dalloc 1 600 16,
          .merge 0 1] := by
  refine ⟨_, _, rfl, rfl, rfl, rfl, rfl, ?_⟩
  rintro ⟨-, -, -, -, hlost, -⟩
  obtain ⟨i, j, k, hi, hj, hk, hsize, -⟩ :=
    ((hlost _ rfl).2 _ rfl).2 0 1 rfl ⟨by decide, by decide, by decide, by decide, by decide⟩
  obtain rfl := Option.some.inj hi
  obtain rfl := Option.some.inj hj
  obtain rfl := Option.some.inj hk
  exact absurd hsize (by decide)

end Mempool
end Inac
