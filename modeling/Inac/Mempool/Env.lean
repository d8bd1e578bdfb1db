import Inac.Lib.Links
import Inac.Mempool.Run

/-!
# Pools where memory can run out, and shared pools

`Inac.Mempool.Defs` has `ina_mem_alloc` never fail and leaves shared pools out. Here are the same
functions with both. `Env` is what stands behind a pool: for which sizes `ina_mem_alloc` gives
memory, and what `__ina_shm_open` returns.

Where memory is refused the three allocators part. `ina_mempool_new` fills the chunk with zeros
before it looks whether it got one, so in a pool with zero filling a refusal is a store through
`NULL`. Otherwise `dalloc` returns `NULL`, having moved `current` to the end of the chain on its way
there, and `nalloc` and `ralloc` store to the chunk they did not get.

A shared pool keeps a reference count in front: its first eight bytes are taken.

`Env.dalloc_visits` is what the `retry` loop does, for a chain of any shape: the first chunk with
room serves, and where none has room the chain grows behind its last one.

What the three functions do is said three times by an inductive predicate (`Env.Dallocs`,
`Env.Nallocs`, and the effect of `ralloc` in `Inac.Mempool.Merge`), with a constructor for every way
in which they end and its condition. The results about sizes, alignment, replays and chains all take
the functions from there.
-/

namespace Inac
namespace Mempool

open Lib

def memShared : UInt32 := 32  -- `INA_MEM_SHARED`

/-- `sizeof(ina_mempool_t)`. -/
def poolBytes : Nat := 80

/-- What stands behind the pools. -/
structure Env where
  mem : Nat → Bool
  shm : Nat → Except Err Unit

/-- How `ina_mempool_new` ends: with a pool, with an error and `*pool` set to `NULL`, or storing
    through `NULL`. -/
inductive Made where
  | pool (i : Nat) (h : Heap)
  | failed (e : Err)
  | fault

/-- How an allocation ends. -/
inductive Ret where
  | ok (p : Ptr)
  | null (e : Err)
  | fault  -- it stores through `NULL`
  | hang  -- it does not return
  deriving DecidableEq, Repr

/-! ## Creating a pool

A shared pool begins behind its reference count. `__ina_shm_open` may find a segment that others
have written to, so what it holds is a parameter. -/

/-- What `__ina_shm_open` does to the structure: the segment has room for the reference count, and
    `pos` stands behind it. The segment holds what others have written there. -/
def Pool.shmOpen (q : Pool) (segment : Nat → UInt8) : Pool :=
  { q with
    size := memAlign (addSz q.size 8)
    endPos := memAlign (addSz q.size 8)
    pos := addSz q.pos 8
    m := segment }

/-- `ina_mempool_new`. -/
def Env.inaMempoolNew (E : Env) (h : Heap) (size : Nat) (cf : UInt32) : Made :=
  let new := Mempool.inaMempoolNew h size cf
  let bytes := (new.2.pool new.1).size
  if E.mem poolBytes then
    if cf &&& memShared ≠ 0 then
      let h := new.2.modify new.1 fun q => q.shmOpen (h.junk new.1)
      if (h.pool new.1).size = 0 then .failed .operationFailed
      else
        match E.shm (h.pool new.1).size with
        | .ok _ => .pool new.1 h
        | .error e => .failed e
    -- `ina_mem_alloc(0)` is `NULL`
    else if bytes ≠ 0 ∧ E.mem bytes then .pool new.1 new.2
    else if cf &&& memNoZeroFill = 0 ∧ bytes ≠ 0 then .fault
    else .failed .outOfMemory
  else .failed .outOfMemory

/-- Make structure `new` the child of `c`, and current. -/
def linkChunk (h : Heap) (pool c new : Nat) : Heap :=
  let h := h.modify c fun q => { q with child := some new }
  let h := h.modify new fun q => { q with parent := some c }
  h.modify pool fun q => { q with current := new }

/-- The growth step of the three allocators. -/
def Env.addChunk (E : Env) (h : Heap) (pool size : Nat) : Made :=
  let p := h.pool pool
  match E.inaMempoolNew h (chunkSize p size) (p.cf ||| memChild) with
  | .pool i h => .pool i (linkChunk h pool p.current i)
  | .failed e => .failed e
  | .fault => .fault

/-! ## Allocation

As in `Inac.Mempool.Defs`, with the growth step as one more thing that may fail. Only `dalloc` asks
how it ended. -/

/-- What the code after a growth step returns, in terms of the result. -/
def Ret.of : Except Err Ptr × Heap → Ret × Heap
  | (.ok p, h) => (.ok p, h)
  | (.error e, h) => (.null e, h)

/-- The `retry` loop of `ina_mempool_dalloc_aligned`. -/
def Env.dallocRetry (E : Env) (pool size : Nat) : Nat → Heap → Ret × Heap
  | 0, h => (.hang, h)
  | fuel + 1, h =>
    let p := h.pool pool
    if (h.pool p.current).Full size then
      if p.cf &&& memDynamic ≠ 0 then
        match (h.pool p.current).child with
        | some c => E.dallocRetry pool size fuel (h.modify pool fun q => { q with current := c })
        | none =>
          match E.addChunk h pool size with
          | .pool _ h => Ret.of (takeFront h pool size)
          | .failed e => (.null e, h)
          | .fault => (.fault, h)
      else (.null .poolFull, h)
    else Ret.of (takeFront h pool size)

/-- `ina_mempool_dalloc_aligned`. -/
def Env.dallocAligned (E : Env) (h : Heap) (pool size alignment : Nat) : Ret × Heap :=
  E.dallocRetry pool (memAlignN size alignment) h.count h

/-- A growth step whose result is not looked at: `child` is `NULL` when there is no chunk, and the
    next statement stores through it. -/
def Env.grown (E : Env) (h : Heap) (pool size : Nat) (rest : Heap → Except Err Ptr × Heap) :
    Ret × Heap :=
  match E.addChunk h pool size with
  | .pool _ h => Ret.of (rest h)
  | .failed _ => (.fault, h)
  | .fault => (.fault, h)

/-- `ina_mempool_nalloc_aligned`. -/
def Env.nallocAligned (E : Env) (h : Heap) (pool size alignment : Nat) : Ret × Heap :=
  let size := memAlignN size alignment
  let p := h.pool pool
  -- bogus request
  if p.endPos < size then (.null .sizeInvalid, h)
  else if (h.pool p.current).Full size then
    if p.cf &&& memDynamic ≠ 0 then E.grown h pool size fun h => takeBack h pool size
    else (.null .poolFull, h)
  else Ret.of (takeBack h pool size)

/-- `ina_mempool_ralloc_aligned`. -/
def Env.rallocAligned (E : Env) (h : Heap) (pool : Nat) (old : Ptr)
    (oldSize newSize alignment : Nat) : Ret × Heap :=
  let newSize := memAlignN newSize alignment
  let oldSize := memAlignN oldSize alignment
  let p := h.pool pool
  -- bogus request
  if p.endPos < oldSize then (.null .sizeInvalid, h)
  -- was the previous allocation - optimize!
  else if p.pos ≥ oldSize ∧ Ptr.mk pool (subSz p.pos oldSize) = old then
    -- fits
    if subSz (addSz p.pos newSize) oldSize ≤ p.endPos then
      let h := h.modify pool fun q => { q with pos := addSz q.pos (subSz newSize oldSize) }
      -- shrinking - zero again!
      if newSize < oldSize then
        (.ok old, h.memSet ⟨pool, (h.pool pool).pos⟩ 0 (subSz oldSize newSize))
      else (.ok old, h)
    -- does not fit
    else if p.cf &&& memDynamic ≠ 0 then
      E.grown h pool newSize fun h => moveToPos h pool old oldSize newSize
    else (.null .outOfMemory, h)
  -- cannot shrink, we need to move
  else if newSize ≤ oldSize then (.ok old, h)
  -- fits
  else if addSz p.pos newSize ≥ p.pos ∧ addSz p.pos newSize ≤ p.endPos then
    Ret.of (moveToPos h pool old oldSize newSize)
  else if p.cf &&& memDynamic ≠ 0 then
    E.grown h pool newSize fun h => moveToPos h pool old oldSize newSize
  else (.null .poolFull, h)

/-! ## What a new structure is like

`Created` names the fields of the structure, for a shared pool and for one that is not, so that
nothing needs to ask again which of the two it was. -/

/-- Bytes for a pool of `size`, as `ina_mempool_new` rounds them. -/
def newBytes (size : Nat) : Nat := memAlign (max size memMinPoolSize)

/-- The size of a new pool; a shared one has room for the reference count. -/
def newEnd (size : Nat) (cf : UInt32) : Nat :=
  if cf &&& memShared ≠ 0 then memAlign (addSz (newBytes size) 8) else newBytes size

/-- Where the first block of a new pool stands. -/
def newPos (cf : UInt32) : Nat := if cf &&& memShared ≠ 0 then 8 else 0

/-- What a new pool holds. -/
def newFill (h : Heap) (cf : UInt32) : Nat → UInt8 :=
  if cf &&& memShared = 0 ∧ cf &&& memNoZeroFill = 0 then fun _ => 0 else h.junk h.count

/-- A pool is to be had. -/
def Env.Gives (E : Env) (size : Nat) (cf : UInt32) : Prop :=
  E.mem poolBytes ∧ newEnd size cf ≠ 0 ∧
    if cf &&& memShared ≠ 0 then E.shm (newEnd size cf) = .ok () else E.mem (newEnd size cf)

/-- Creating a pool stores through `NULL`: the memory is refused, and is to be filled with zeros. -/
def Env.Faults (E : Env) (size : Nat) (cf : UInt32) : Prop :=
  ¬ E.Gives size cf ∧ E.mem poolBytes ∧ cf &&& memShared = 0 ∧ cf &&& memNoZeroFill = 0 ∧
    newEnd size cf ≠ 0

instance (E : Env) (size : Nat) (cf : UInt32) : Decidable (E.Gives size cf) := by
  unfold Env.Gives
  infer_instance

instance (E : Env) (size : Nat) (cf : UInt32) : Decidable (E.Faults size cf) :=
  inferInstanceAs (Decidable (_ ∧ _))

/-- The error a pool that is not to be had is reported with. -/
def Env.newErr (E : Env) (size : Nat) (cf : UInt32) : Err :=
  if E.mem poolBytes ∧ cf &&& memShared ≠ 0 then
    if newEnd size cf = 0 then .operationFailed
    else
      match E.shm (newEnd size cf) with
      | .ok _ => .operationFailed
      | .error e => e
  else .outOfMemory

/-- What creating a pool does: one more structure, with these fields. -/
structure Created (h : Heap) (size : Nat) (cf : UInt32) (h' : Heap) : Prop where
  count : h'.count = h.count + 1
  old : ∀ i < h.count, h'.pool i = h.pool i
  flags : (h'.pool h.count).cf = cf
  pos : (h'.pool h.count).pos = newPos cf
  endPos : (h'.pool h.count).endPos = newEnd size cf
  size : (h'.pool h.count).size = newEnd size cf
  m : (h'.pool h.count).m = newFill h cf
  current : (h'.pool h.count).current = h.count
  child : (h'.pool h.count).child = none

theorem Created.heap {h : Heap} {size : Nat} {cf : UInt32} (hs : ¬ cf &&& memShared ≠ 0) :
    Created h size cf (inaMempoolNew h size cf).2 := by
  obtain ⟨hpos, hend, hsize, hcur, hchild⟩ := inaMempoolNew_pool h size cf
  refine ⟨rfl, fun i hi => Function.update_of_ne (Nat.ne_of_lt hi) .., ?_, ?_, ?_, ?_, ?_, hcur,
    hchild⟩
  · simp [inaMempoolNew]
  · rw [hpos, newPos, if_neg hs]
  · rw [hend, newEnd, if_neg hs]; rfl
  · rw [hsize, newEnd, if_neg hs]; rfl
  · simp only [ne_eq, not_not] at hs
    simp [inaMempoolNew, newFill, hs]

theorem Created.shm {h : Heap} {size : Nat} {cf : UInt32} (hs : cf &&& memShared ≠ 0) :
    Created h size cf
      ((inaMempoolNew h size cf).2.modify h.count fun q => q.shmOpen (h.junk h.count)) := by
  obtain ⟨hpos, hend, hsize, hcur, hchild⟩ := inaMempoolNew_pool h size cf
  refine ⟨rfl, fun i hi => ?_, ?_, ?_, ?_, ?_, ?_, ?_, ?_⟩
  · rw [Heap.modify_pool_ne _ _ (Nat.ne_of_lt hi)]
    exact Function.update_of_ne (Nat.ne_of_lt hi) ..
  all_goals simp only [Heap.modify_pool_self, Pool.shmOpen]
  · simp [inaMempoolNew]
  · rw [hpos, newPos, if_pos hs]; rfl
  · rw [hsize, newEnd, if_pos hs]; rfl
  · rw [hsize, newEnd, if_pos hs]; rfl
  · rw [newFill, if_neg fun hc => hs hc.1]
  · exact hcur
  · exact hchild

/-- **`ina_mempool_new`** makes a pool when one is to be had, and otherwise fails; with zero filling
    it may fail by a store through `NULL`. -/
theorem Env.inaMempoolNew_cases (E : Env) (h : Heap) (size : Nat) (cf : UInt32) :
    (E.Gives size cf ∧
      ∃ h', E.inaMempoolNew h size cf = .pool h.count h' ∧ Created h size cf h') ∨
    (¬ E.Gives size cf ∧ E.inaMempoolNew h size cf =
      if E.Faults size cf then .fault else .failed (E.newErr size cf)) := by
  have hbytes : ((Mempool.inaMempoolNew h size cf).2.pool h.count).size = newBytes size :=
    (inaMempoolNew_pool h size cf).2.2.1
  have hfst : (Mempool.inaMempoolNew h size cf).1 = h.count := rfl
  -- Memory for the structure, a size that is not zero, and a chunk or a segment of that size.
  by_cases hg : E.Gives size cf
  · refine Or.inl ⟨hg, ?_⟩
    obtain ⟨hmem, hz, hgive⟩ := hg
    simp only [Env.inaMempoolNew, hfst, hbytes, if_pos hmem]
    by_cases hs : cf &&& memShared ≠ 0
    · have hcreated : Created h size cf _ := Created.shm hs
      rw [if_pos hs] at hgive
      simp only [if_pos hs, hcreated.size, if_neg hz, hgive]
      exact ⟨_, rfl, hcreated⟩
    · have hend : newEnd size cf = newBytes size := if_neg hs
      rw [if_neg hs] at hgive
      simp only [if_neg hs, ← hend, if_pos (And.intro hz hgive)]
      exact ⟨_, rfl, Created.heap hs⟩
  · refine Or.inr ⟨hg, ?_⟩
    simp only [Env.inaMempoolNew, Env.Faults, Env.newErr, hfst, hbytes, hg]
    by_cases hmem : E.mem poolBytes
    · by_cases hs : cf &&& memShared ≠ 0
      · -- A shared pool has no chunk to fill, so there is no store through `NULL`.
        have hcreated : Created h size cf _ := Created.shm hs
        have hnofault : ¬ (¬ False ∧ E.mem poolBytes = true ∧ cf &&& memShared = 0 ∧
            cf &&& memNoZeroFill = 0 ∧ newEnd size cf ≠ 0) := fun hf => hs hf.2.2.1
        simp only [if_pos hmem, if_pos hs, hcreated.size, if_neg hnofault,
          if_pos (And.intro hmem hs)]
        by_cases hz : newEnd size cf = 0
        · simp only [if_pos hz]
        · simp only [if_neg hz]
          cases hshm : E.shm (newEnd size cf) with
          | ok u => exact absurd ⟨hmem, hz, by rw [if_pos hs]; exact hshm⟩ hg
          | error e => rfl
      · have hend : newEnd size cf = newBytes size := if_neg hs
        have hno : ¬ (newEnd size cf ≠ 0 ∧ E.mem (newEnd size cf) = true) := fun hgive =>
          hg ⟨hmem, hgive.1, by rw [if_neg hs]; exact hgive.2⟩
        simp only [ne_eq, not_not] at hs
        simp [hmem, hs, ← hend, hno]
    · simp [hmem]

/-! ## A new chunk

The flags of a chunk are those of its pool and `INA_MEM_CHILD`, which decides nothing: a chunk is
created like a pool of the pool's own flags. -/

/-- The size of a chunk made for a request. -/
def chunkEnd (p : Pool) (size : Nat) : Nat := newEnd (chunkSize p size) p.cf

/-- Where a new chunk's first block stands. -/
def firstPos (p : Pool) : Nat := newPos p.cf

/-- A chunk is to be had for the request. -/
def Env.Grants (E : Env) (p : Pool) (size : Nat) : Prop := E.Gives (chunkSize p size) p.cf

instance (E : Env) (p : Pool) (size : Nat) : Decidable (E.Grants p size) :=
  inferInstanceAs (Decidable (E.Gives _ _))

/-- What a growth step that succeeds does. -/
structure Added (h : Heap) (pool size : Nat) (h' : Heap) : Prop where
  count : h'.count = h.count + 1
  old : ∀ i < h.count, h'.pool i =
    { h.pool i with
      child := if i = (h.pool pool).current then some h.count else (h.pool i).child
      current := if i = pool then h.count else (h.pool i).current }
  pos : (h'.pool h.count).pos = firstPos (h.pool pool)
  endPos : (h'.pool h.count).endPos = chunkEnd (h.pool pool) size
  size : (h'.pool h.count).size = chunkEnd (h.pool pool) size
  m : (h'.pool h.count).m = newFill h (h.pool pool).cf
  child : (h'.pool h.count).child = none
  current : (h'.pool h.count).current = h.count

/-- `INA_MEM_CHILD` hides no other flag. -/
theorem child_and {flag : UInt32} (hflag : memChild &&& flag = 0) (cf : UInt32) :
    (cf ||| memChild) &&& flag = cf &&& flag := by
  have hnat : memChild.toNat &&& flag.toNat = 0 := by
    rw [← UInt32.toNat_and, hflag]
    rfl
  rw [← UInt32.toNat_inj]
  simp only [UInt32.toNat_and, UInt32.toNat_or, Nat.and_or_distrib_right, hnat, Nat.or_zero]

theorem shared_child (cf : UInt32) : (cf ||| memChild) &&& memShared = cf &&& memShared :=
  child_and (by decide) cf

theorem noZeroFill_child (cf : UInt32) :
    (cf ||| memChild) &&& memNoZeroFill = cf &&& memNoZeroFill :=
  child_and (by decide) cf

theorem newEnd_child (size : Nat) (cf : UInt32) :
    newEnd size (cf ||| memChild) = newEnd size cf := by
  simp only [newEnd, shared_child]

theorem linkChunk_old (h : Heap) {pool c new i : Nat} (hi : i ≠ new) :
    (linkChunk h pool c new).pool i =
      { h.pool i with
        child := if i = c then some new else (h.pool i).child
        current := if i = pool then new else (h.pool i).current } := by
  simp only [linkChunk, Heap.modify_pool, hi, if_false]
  split_ifs <;> rfl

theorem linkChunk_new (h : Heap) {pool c new : Nat} (hpool : new ≠ pool) (hc : new ≠ c) :
    (linkChunk h pool c new).pool new = { h.pool new with parent := some c } := by
  simp only [linkChunk, Heap.modify_pool, hpool, hc, if_false, if_true]

theorem Created.added {h g : Heap} {pool size : Nat} (hpool : pool < h.count)
    (hcur : (h.pool pool).current < h.count)
    (hg : Created h (chunkSize (h.pool pool) size) ((h.pool pool).cf ||| memChild) g) :
    Added h pool size (linkChunk g pool (h.pool pool).current h.count) := by
  have hnew := linkChunk_new g (Nat.ne_of_gt hpool) (Nat.ne_of_gt hcur)
  refine ⟨hg.count, fun i hi => ?_, ?_, ?_, ?_, ?_, ?_, ?_⟩
  · rw [linkChunk_old g (Nat.ne_of_lt hi), hg.old i hi]
  all_goals rw [hnew]
  · simp only [hg.pos, newPos, firstPos, shared_child]
  · simp only [hg.endPos, newEnd_child, chunkEnd]
  · simp only [hg.size, newEnd_child, chunkEnd]
  · simp only [hg.m, newFill, shared_child, noZeroFill_child]
  · exact hg.child
  · exact hg.current

/-- What `dalloc` returns when no chunk is to be had. -/
def Env.refusal (E : Env) (p : Pool) (size : Nat) : Ret :=
  if E.Faults (chunkSize p size) p.cf then .fault else .null (E.newErr (chunkSize p size) p.cf)

theorem Env.refusal_ne_ok (E : Env) (p : Pool) (size : Nat) (q : Ptr) :
    E.refusal p size ≠ .ok q := by
  rw [Env.refusal]
  split <;> exact Ret.noConfusion

/-- **A growth step** adds a chunk when one is to be had, and otherwise fails. -/
theorem Env.addChunk_cases (E : Env) {h : Heap} {pool : Nat} (hpool : pool < h.count)
    (hcur : (h.pool pool).current < h.count) (size : Nat) :
    (E.Grants (h.pool pool) size ∧
      ∃ h', E.addChunk h pool size = .pool h.count h' ∧ Added h pool size h') ∨
    (¬ E.Grants (h.pool pool) size ∧
      (E.addChunk h pool size = .fault ∧ E.refusal (h.pool pool) size = .fault ∨
        ∃ e, E.addChunk h pool size = .failed e ∧ E.refusal (h.pool pool) size = .null e)) := by
  have hgrants : E.Gives (chunkSize (h.pool pool) size) ((h.pool pool).cf ||| memChild) ↔
      E.Grants (h.pool pool) size := by
    simp only [Env.Grants, Env.Gives, newEnd_child, shared_child]
  -- `INA_MEM_CHILD` has no part in how the creation ends.
  have hfaults : E.Faults (chunkSize (h.pool pool) size) ((h.pool pool).cf ||| memChild) ↔
      E.Faults (chunkSize (h.pool pool) size) (h.pool pool).cf := by
    simp only [Env.Faults, hgrants, Env.Grants, newEnd_child, shared_child, noZeroFill_child]
  have herr : E.newErr (chunkSize (h.pool pool) size) ((h.pool pool).cf ||| memChild) =
      E.newErr (chunkSize (h.pool pool) size) (h.pool pool).cf := by
    simp only [Env.newErr, newEnd_child, shared_child]
  rcases E.inaMempoolNew_cases h (chunkSize (h.pool pool) size) ((h.pool pool).cf ||| memChild)
    with ⟨hg, g, heq, hcreated⟩ | ⟨hg, heq⟩
  · exact Or.inl ⟨hgrants.mp hg, _, by simp only [Env.addChunk, heq], hcreated.added hpool hcur⟩
  · refine Or.inr ⟨fun hg' => hg (hgrants.mpr hg'), ?_⟩
    rw [herr] at heq
    by_cases hf : E.Faults (chunkSize (h.pool pool) size) (h.pool pool).cf
    · rw [if_pos (hfaults.mpr hf)] at heq
      exact Or.inl ⟨by simp only [Env.addChunk, heq], if_pos hf⟩
    · rw [if_neg fun hf' => hf (hfaults.mp hf')] at heq
      exact Or.inr ⟨_, by simp only [Env.addChunk, heq], if_neg hf⟩

/-! ## A new chunk is large enough

The size is rounded twice, and each time it may wrap. What wraps comes to zero, and a chunk of no
bytes is not to be had; so the one there is has enough. -/

theorem memAlignN_lt (n a : Nat) : memAlignN n a < 2 ^ 64 :=
  Nat.lt_of_le_of_lt Nat.and_le_left (Nat.mod_lt _ (Nat.two_pow_pos 64))

/-- Rounding that wraps gives nothing. -/
theorem memAlignN_wraps {n k : Nat} (hk : k < 64) (hn : n < 2 ^ 64)
    (hwrap : 2 ^ 64 ≤ n + (2 ^ k - 1)) : memAlignN n (2 ^ k) = 0 := by
  have hpow : 2 ^ k < 2 ^ 64 := Nat.pow_lt_pow_right (by decide) hk
  have hsum : addSz n (2 ^ k - 1) = n + (2 ^ k - 1) - 2 ^ 64 := by
    rw [addSz, Nat.mod_eq_sub_mod hwrap, Nat.mod_eq_of_lt (by omega)]
  have hlt : addSz n (2 ^ k - 1) < 2 ^ 64 := Nat.mod_lt _ (Nat.two_pow_pos 64)
  rw [memAlignN, and_high_mask hlt (Nat.le_of_lt hk), hsum, Nat.div_eq_of_lt (by omega), Nat.zero_mul]

theorem memAlign_wraps {n : Nat} (hn : n < 2 ^ 64) (hwrap : 2 ^ 64 ≤ n + 15) : memAlign n = 0 :=
  memAlignN_wraps (k := 4) (by decide) hn hwrap

/-- Rounding that gives something gave enough. -/
theorem le_memAlign_of_ne {n : Nat} (hn : n < 2 ^ 64) (hne : memAlign n ≠ 0) :
    n ≤ memAlign n ∧ n + 15 < 2 ^ 64 := by
  have hfits : n + 15 < 2 ^ 64 := by
    by_contra hwrap
    exact hne (memAlign_wraps hn (Nat.le_of_not_lt hwrap))
  exact ⟨le_memAlign hfits, hfits⟩

/-- A pool that is not shared and has bytes has as many as asked for, and so has a shared one, behind
    its reference count, if the size did not wrap before that was added. -/
theorem le_newEnd {size : Nat} {cf : UInt32} (hsize : size < 2 ^ 64) (hne : newEnd size cf ≠ 0)
    (hs : cf &&& memShared = 0 ∨ size + 15 < 2 ^ 64) :
    newPos cf + size ≤ newEnd size cf ∧ newEnd size cf + 15 < 2 ^ 64 := by
  have hmin : memMinPoolSize = 1024 := rfl
  have hmax : max size memMinPoolSize < 2 ^ 64 := by omega
  have hle : size ≤ max size memMinPoolSize := Nat.le_max_left ..
  by_cases hshared : cf &&& memShared = 0
  · rw [newEnd, if_neg (not_not.mpr hshared), newBytes] at hne ⊢
    rw [newPos, if_neg (not_not.mpr hshared), Nat.zero_add]
    exact ⟨Nat.le_trans hle (le_memAlign_of_ne hmax hne).1, memAlign_add_lt _⟩
  · have hfits : max size memMinPoolSize + 15 < 2 ^ 64 := by
      have := hs.resolve_left hshared
      omega
    have hbytes : max size memMinPoolSize ≤ newBytes size := le_memAlign hfits
    have hlt : newBytes size + 15 < 2 ^ 64 := memAlign_add_lt _
    rw [newEnd, if_pos hshared, addSz_of_lt (by omega)] at hne ⊢
    rw [newPos, if_pos hshared]
    have hround := (le_memAlign_of_ne (by omega) hne).1
    exact ⟨by omega, memAlign_add_lt _⟩

/-- **A chunk that is to be had** is large enough for its request. -/
theorem le_chunkEnd {p : Pool} (hp : p.Ok) {n : Nat} (hn : n < 2 ^ 64) (hne : chunkEnd p n ≠ 0)
    (hs : p.cf &&& memShared = 0 ∨ n + 15 < 2 ^ 64) :
    firstPos p + n ≤ chunkEnd p n ∧ chunkEnd p n + 15 < 2 ^ 64 := by
  have hask : chunkSize p n < 2 ^ 64 := by
    have := hp.size_lt
    rw [chunkSize]
    split <;> omega
  obtain ⟨hfits, hlt⟩ := le_newEnd hask hne (hs.imp_right (chunkSize_add_lt hp))
  exact ⟨Nat.le_trans (Nat.add_le_add_left (le_chunkSize p n) _) hfits, hlt⟩

/-! ## The chain

`dalloc` moves `current` while it looks for room. The heaps of its rounds differ in nothing else,
which is why the loop can be followed without them (`Env.serve`). -/

/-- The chain's link. -/
def Heap.child (h : Heap) (i : Nat) : Option Nat := (h.pool i).child

/-- `pool->current = c`. -/
def Heap.setCurrent (h : Heap) (pool c : Nat) : Heap :=
  h.modify pool fun q => { q with current := c }

theorem Heap.modify_child {h : Heap} {i : Nat} {f : Pool → Pool}
    (hf : (f (h.pool i)).child = (h.pool i).child) : (h.modify i f).child = h.child := by
  funext j
  rw [Heap.child, Heap.child, Heap.modify_pool]
  split
  · rename_i hj
    rw [hj, hf]
  · rfl

theorem Heap.setCurrent_pool (h : Heap) (pool c i : Nat) :
    (h.setCurrent pool c).pool i =
      { h.pool i with current := if i = pool then c else (h.pool i).current } := by
  rw [Heap.setCurrent, Heap.modify_pool]
  split <;> rfl

@[simp] theorem Heap.setCurrent_child (h : Heap) (pool c : Nat) :
    (h.setCurrent pool c).child = h.child := Heap.modify_child rfl

@[simp] theorem Heap.setCurrent_count (h : Heap) (pool c : Nat) :
    (h.setCurrent pool c).count = h.count := rfl

theorem Heap.setCurrent_setCurrent (h : Heap) (pool c d : Nat) :
    (h.setCurrent pool c).setCurrent pool d = h.setCurrent pool d := by
  simp only [Heap.setCurrent, Heap.modify, Function.update_self, Function.update_idem]

theorem Heap.setCurrent_self {h : Heap} {pool c : Nat} (hc : (h.pool pool).current = c) :
    h.setCurrent pool c = h := by
  have hp : ({ h.pool pool with current := c } : Pool) = h.pool pool := by rw [← hc]
  simp only [Heap.setCurrent, Heap.modify, hp, Function.update_eq_self]

theorem Heap.setCurrent_full (h : Heap) (pool c i size : Nat) :
    ((h.setCurrent pool c).pool i).Full size ↔ (h.pool i).Full size := by
  rw [Heap.setCurrent_pool]
  exact Iff.rfl

/-- The first chunk of `xs` with room. -/
def Heap.roomy (h : Heap) (size : Nat) (xs : List Nat) : Option Nat :=
  xs.find? fun c => ¬ (h.pool c).Full size

theorem Heap.setCurrent_roomy (h : Heap) (pool c size : Nat) (xs : List Nat) :
    (h.setCurrent pool c).roomy size xs = h.roomy size xs := by
  simp only [Heap.roomy, Heap.setCurrent_full]

/-- What `dalloc` does in a dynamic pool whose chain is `xs` from `current` on. -/
def Env.serve (E : Env) (h : Heap) (pool size : Nat) (xs : List Nat) : Ret × Heap :=
  match h.roomy size xs, xs.getLast? with
  | some c, _ => Ret.of (takeFront (h.setCurrent pool c) pool size)
  | none, some z =>
    match E.addChunk (h.setCurrent pool z) pool size with
    | .pool _ h => Ret.of (takeFront h pool size)
    | .failed e => (.null e, h.setCurrent pool z)
    | .fault => (.fault, h.setCurrent pool z)
  | none, none => (.hang, h)

/-- **The `retry` loop.** In a dynamic pool it goes to the first chunk with room, or behind the
    last chunk. -/
theorem Env.dalloc_visits (E : Env) {pool size : Nat} :
    ∀ (xs : List Nat) (fuel : Nat) {h : Heap}, (h.pool pool).cf &&& memDynamic ≠ 0 →
      Visits h.child (some (h.pool pool).current) xs → xs.length ≤ fuel →
      E.dallocRetry pool size fuel h = E.serve h pool size xs := by
  intro xs
  induction xs with
  | nil => intro fuel h _ hv; cases hv
  | cons x xs ih =>
    intro fuel h hdyn hv hfuel
    obtain ⟨fuel, rfl⟩ : ∃ k, fuel = k + 1 :=
      Nat.exists_eq_add_one_of_ne_zero (Nat.ne_of_gt (Nat.lt_of_lt_of_le (Nat.succ_pos _) hfuel))
    have hcur : (h.pool pool).current = x := Option.some.inj hv.head
    rw [Env.dallocRetry, hcur]
    by_cases hf : (h.pool x).Full size
    · rw [if_pos hf, if_pos hdyn]
      have hnext : (h.pool x).child = xs.head? := hv.next_eq
      cases xs with
      | nil =>
        have hroomy : h.roomy size [x] = none := by simp [Heap.roomy, hf]
        rw [List.head?_nil] at hnext
        simp only [hnext, Env.serve, hroomy, List.getLast?_singleton, Heap.setCurrent_self hcur]
      | cons y ys =>
        rw [List.head?_cons] at hnext
        have hroomy : h.roomy size (x :: y :: ys) = h.roomy size (y :: ys) := by
          simp [Heap.roomy, hf]
        have hset : ((h.setCurrent pool y).pool pool).current = y := by
          rw [Heap.setCurrent_pool, if_pos rfl]
        have hrest : Visits (h.setCurrent pool y).child
            (some ((h.setCurrent pool y).pool pool).current) (y :: ys) := by
          rw [hset, Heap.setCurrent_child, ← hnext]
          exact hv.rest
        have hdyn' : ((h.setCurrent pool y).pool pool).cf &&& memDynamic ≠ 0 := by
          rw [Heap.setCurrent_pool]
          exact hdyn
        simp only [hnext]
        refine (ih fuel hdyn' hrest (Nat.le_of_succ_le_succ hfuel)).trans ?_
        simp only [Env.serve, hroomy, Heap.setCurrent_roomy, List.getLast?_cons_cons,
          Heap.setCurrent_setCurrent]
        -- the two differ where the chain is empty, and it is not
        split
        · rfl
        · rfl
        · rename_i hlast
          exact absurd (List.getLast?_eq_none_iff.mp hlast) (List.cons_ne_nil y ys)
    · have hroomy : h.roomy size (x :: xs) = some x := by simp [Heap.roomy, hf]
      rw [if_neg hf]
      simp only [Env.serve, hroomy, Heap.setCurrent_self hcur]

theorem Env.dalloc_fixed (E : Env) {pool size fuel : Nat} {h : Heap}
    (hfix : ¬ (h.pool pool).cf &&& memDynamic ≠ 0) (hfuel : 0 < fuel) :
    E.dallocRetry pool size fuel h =
      if (h.pool (h.pool pool).current).Full size then (.null .poolFull, h)
      else Ret.of (takeFront h pool size) := by
  obtain ⟨fuel, rfl⟩ := Nat.exists_eq_add_one_of_ne_zero (Nat.ne_of_gt hfuel)
  rw [Env.dallocRetry]
  simp only [if_neg hfix]

/-! ## Chains that point forward

A structure is linked when it is made and never to one that is older. So every chain ends, whatever
the order of the calls was, and the fuel of the walks is enough. -/

/-- Children come later, and `current` is a structure: all that a walk needs to end. -/
structure Heap.Linked (h : Heap) : Prop where
  child : ∀ i < h.count, ∀ c, (h.pool i).child = some c → i < c ∧ c < h.count
  current : ∀ i < h.count, (h.pool i).current < h.count

/-- Every chain ends. -/
theorem Heap.Linked.visits {h : Heap} (hl : h.Linked) :
    ∀ (k : Nat) {i : Nat}, i < h.count → h.count ≤ k + i →
      ∃ xs, Visits h.child (some i) xs ∧ xs.length ≤ k ∧ ∀ x ∈ xs, x < h.count := by
  intro k
  induction k with
  | zero => intro i hi hk; omega
  | succ k ih =>
    intro i hi hk
    -- The last chunk of the chain, or one with another behind it that came later.
    cases hchild : (h.pool i).child with
    | none =>
      refine ⟨[i], .node i [] ?_, Nat.le_add_left 1 k, ?_⟩
      · rw [Heap.child, hchild]; exact .null
      · intro x hx
        rw [List.mem_singleton.mp hx]
        exact hi
    | some c =>
      obtain ⟨hup, hc⟩ := hl.child i hi c hchild
      obtain ⟨xs, hv, hlen, hall⟩ := ih hc (by omega)
      refine ⟨i :: xs, .node i xs ?_, Nat.succ_le_succ hlen, ?_⟩
      · rw [Heap.child, hchild]; exact hv
      · intro x hx
        rcases List.mem_cons.mp hx with rfl | hx
        · exact hi
        · exact hall x hx

theorem Heap.Linked.modify {h : Heap} (hl : h.Linked) {i : Nat} {f : Pool → Pool}
    (hchild : (f (h.pool i)).child = (h.pool i).child)
    (hcur : i < h.count → (f (h.pool i)).current < h.count) : (h.modify i f).Linked where
  child j hj := Heap.modify_forall
    (P := fun j p => ∀ c, p.child = some c → j < c ∧ c < h.count)
    (fun hp c hc => hp c (hchild.symm.trans hc)) (hl.child j hj)
  current j hj := Heap.modify_forall (P := fun j p => j < h.count → p.current < h.count)
    (fun _ hj => hcur hj) (fun hj => hl.current j hj) hj

theorem Heap.Linked.setCurrent {h : Heap} (hl : h.Linked) (pool : Nat) {c : Nat}
    (hc : c < h.count) : (h.setCurrent pool c).Linked := hl.modify rfl fun _ => hc

theorem Added.linked {h h' : Heap} {pool size : Nat} (hl : h.Linked)
    (ha : Added h pool size h') : h'.Linked := by
  refine ⟨fun i hi c hc => ?_, fun i hi => ?_⟩ <;> rw [ha.count] at hi ⊢ <;>
    rcases Nat.lt_succ_iff_lt_or_eq.mp hi with hi | rfl
  · rw [ha.old i hi] at hc
    revert hc
    simp only
    split
    · intro hc
      obtain rfl := Option.some.inj hc
      exact ⟨hi, Nat.lt_succ_self _⟩
    · intro hc
      exact ⟨(hl.child i hi c hc).1, Nat.lt_succ_of_lt (hl.child i hi c hc).2⟩
  · rw [ha.child] at hc
    cases hc
  · rw [ha.old i hi]
    simp only
    split
    · exact Nat.lt_succ_self _
    · exact Nat.lt_succ_of_lt (hl.current i hi)
  · rw [ha.current]
    exact Nat.lt_succ_self _

/-- The chunks from a link on, as far as the fuel goes. -/
def Heap.chain (h : Heap) : Nat → Option Nat → List Nat
  | 0, _ => []
  | _ + 1, none => []
  | fuel + 1, some c => c :: h.chain fuel (h.child c)

theorem Heap.chain_visits {h : Heap} {xs : List Nat} :
    ∀ {start : Option Nat} {fuel : Nat}, Visits h.child start xs → xs.length ≤ fuel →
      h.chain fuel start = xs := by
  induction xs with
  | nil =>
    intro start fuel hv _
    obtain rfl : start = none := hv.head
    cases fuel <;> rfl
  | cons x xs ih =>
    intro start fuel hv hfuel
    obtain rfl : start = some x := hv.head
    obtain ⟨fuel, rfl⟩ : ∃ k, fuel = k + 1 :=
      Nat.exists_eq_add_one_of_ne_zero (Nat.ne_of_gt (Nat.lt_of_lt_of_le (Nat.succ_pos _) hfuel))
    rw [Heap.chain, ih hv.rest (Nat.le_of_succ_le_succ hfuel)]

/-- The chunks `dalloc` may serve a request from, as they stand. -/
def Heap.candidates (h : Heap) (pool : Nat) : List Nat :=
  if (h.pool pool).cf &&& memDynamic ≠ 0 then h.chain h.count (some (h.pool pool).current)
  else [(h.pool pool).current]

/-- What `dalloc` of `n` bytes does, by where it finds room. -/
inductive Env.Dallocs (E : Env) (h : Heap) (pool n : Nat) : Ret × Heap → Prop where
  | served (c : Nat) (hroom : h.roomy n (h.candidates pool) = some c) (hc : c < h.count) :
      E.Dallocs h pool n (.ok ⟨c, (h.pool c).pos⟩,
        (h.setCurrent pool c).modify c fun q => { q with pos := addSz q.pos n })
  | grown (z : Nat) (h' : Heap) (hfull : h.roomy n (h.candidates pool) = none)
      (hdyn : (h.pool pool).cf &&& memDynamic ≠ 0) (hgrant : E.Grants (h.pool pool) n)
      (hz : (h.candidates pool).getLast? = some z) (hlt : z < h.count)
      (hadd : Added (h.setCurrent pool z) pool n h') :
      E.Dallocs h pool n (.ok ⟨h.count, firstPos (h.pool pool)⟩,
        h'.modify h.count fun q => { q with pos := addSz q.pos n })
  | refused (z : Nat) (hfull : h.roomy n (h.candidates pool) = none)
      (hdyn : (h.pool pool).cf &&& memDynamic ≠ 0) (hgrant : ¬ E.Grants (h.pool pool) n)
      (hz : (h.candidates pool).getLast? = some z) (hlt : z < h.count) :
      E.Dallocs h pool n (E.refusal (h.pool pool) n, h.setCurrent pool z)
  | full (hfull : h.roomy n (h.candidates pool) = none)
      (hfix : ¬ (h.pool pool).cf &&& memDynamic ≠ 0) : E.Dallocs h pool n (.null .poolFull, h)

theorem Heap.roomy_mem {h : Heap} {n c : Nat} {xs : List Nat} (hr : h.roomy n xs = some c) :
    c ∈ xs ∧ ¬ (h.pool c).Full n :=
  ⟨List.mem_of_find?_eq_some hr, by simpa using List.find?_some hr⟩

theorem takeFront_setCurrent (h : Heap) (pool c n : Nat) :
    takeFront (h.setCurrent pool c) pool n = (.ok ⟨c, (h.pool c).pos⟩,
      (h.setCurrent pool c).modify c fun q => { q with pos := addSz q.pos n }) := by
  have hcur : ((h.setCurrent pool c).pool pool).current = c := by
    rw [Heap.setCurrent_pool, if_pos rfl]
  have hpos : ((h.setCurrent pool c).pool c).pos = (h.pool c).pos := by
    rw [Heap.setCurrent_pool]
  simp only [takeFront, hcur, hpos]

/-- What the new chunk is like, in terms of the heap before `current` was moved. -/
theorem Added.fields {h h' : Heap} {pool z n : Nat} (ha : Added (h.setCurrent pool z) pool n h') :
    (h'.pool h.count).pos = firstPos (h.pool pool) ∧
    (h'.pool h.count).endPos = chunkEnd (h.pool pool) n ∧
    (h'.pool h.count).size = chunkEnd (h.pool pool) n ∧
    (h'.pool h.count).m = newFill h (h.pool pool).cf := by
  have hroot : (h.setCurrent pool z).pool pool = { h.pool pool with current := z } := by
    rw [Heap.setCurrent_pool, if_pos rfl]
  obtain ⟨-, -, hpos, hend, hsize, hm, -, -⟩ := ha
  rw [hroot] at hpos hend hsize hm
  exact ⟨hpos, hend, hsize, hm⟩

theorem Added.takeFront {h h' : Heap} {pool z n : Nat} (hpool : pool < h.count)
    (ha : Added (h.setCurrent pool z) pool n h') :
    takeFront h' pool n = (.ok ⟨h.count, firstPos (h.pool pool)⟩,
      h'.modify h.count fun q => { q with pos := addSz q.pos n }) := by
  have hcur : (h'.pool pool).current = h.count := by
    rw [ha.old pool hpool]
    exact if_pos rfl
  simp only [Mempool.takeFront, hcur, ha.fields.1]

/-- Behind the last chunk, all of them full: a new one, or a refusal. -/
theorem Env.addChunk_dallocs (E : Env) {h : Heap} {pool n z : Nat} (hpool : pool < h.count)
    (hdyn : (h.pool pool).cf &&& memDynamic ≠ 0) (hfull : h.roomy n (h.candidates pool) = none)
    (hz : (h.candidates pool).getLast? = some z) (hlt : z < h.count) :
    E.Dallocs h pool n (match E.addChunk (h.setCurrent pool z) pool n with
      | .pool _ h => Ret.of (Mempool.takeFront h pool n)
      | .failed e => (.null e, h.setCurrent pool z)
      | .fault => (.fault, h.setCurrent pool z)) := by
  -- The walk has moved `current` of the root to the last chunk, and has changed nothing that a
  -- chunk is made by.
  have hroot : (h.setCurrent pool z).pool pool = { h.pool pool with current := z } := by
    rw [Heap.setCurrent_pool, if_pos rfl]
  have hpool' : pool < (h.setCurrent pool z).count := hpool
  have hcur' : ((h.setCurrent pool z).pool pool).current < (h.setCurrent pool z).count := by
    rw [hroot]
    exact hlt
  have hgrants : E.Grants ((h.setCurrent pool z).pool pool) n ↔ E.Grants (h.pool pool) n := by
    rw [hroot]
    exact Iff.rfl
  have hrefusal : E.refusal ((h.setCurrent pool z).pool pool) n = E.refusal (h.pool pool) n := by
    rw [hroot]
    rfl
  rcases E.addChunk_cases hpool' hcur' n with
    ⟨hg, h', heq, hadd⟩ | ⟨hg, ⟨heq, href⟩ | ⟨e, heq, href⟩⟩
  · simp only [heq, hadd.takeFront hpool]
    exact .grown z h' hfull hdyn (hgrants.mp hg) hz hlt hadd
  all_goals
    simp only [heq]
    rw [← href, hrefusal]
    exact .refused z hfull hdyn (fun hg' => hg (hgrants.mpr hg')) hz hlt

/-- **One `dalloc`**, where the chain from `current` on is `xs`. -/
theorem Env.dallocAligned_visits (E : Env) {h : Heap} {pool : Nat} (hpool : pool < h.count)
    {xs : List Nat} (hv : Visits h.child (some (h.pool pool).current) xs)
    (hlen : xs.length ≤ h.count) (hall : ∀ x ∈ xs, x < h.count) (size alignment : Nat) :
    E.Dallocs h pool (memAlignN size alignment) (E.dallocAligned h pool size alignment) := by
  generalize hn : memAlignN size alignment = n
  rw [Env.dallocAligned, hn]
  by_cases hdyn : (h.pool pool).cf &&& memDynamic ≠ 0
  · -- All of the chain from `current` on is looked at.
    have hcand : h.candidates pool = xs := by
      rw [Heap.candidates, if_pos hdyn, Heap.chain_visits hv hlen]
    rw [E.dalloc_visits xs h.count hdyn hv hlen, Env.serve]
    cases hroom : h.roomy n xs with
    | some c =>
      simp only [takeFront_setCurrent]
      exact .served c (hcand ▸ hroom) (hall c (Heap.roomy_mem hroom).1)
    | none =>
      have hne : xs ≠ [] := by rintro rfl; cases hv
      have hlast := List.getLast?_eq_getLast_of_ne_nil hne
      have hz : xs.getLast hne < h.count := hall _ (List.getLast_mem hne)
      simp only [hlast]
      exact E.addChunk_dallocs hpool hdyn (hcand ▸ hroom) (hcand ▸ hlast) hz
  · -- A pool that is not dynamic has one chunk.
    have hcand : h.candidates pool = [(h.pool pool).current] := if_neg hdyn
    rw [E.dalloc_fixed hdyn (Nat.zero_lt_of_lt hpool)]
    split
    · rename_i hf
      exact .full (by rw [hcand]; simp [Heap.roomy, hf]) hdyn
    · rename_i hf
      have hroom : h.roomy n (h.candidates pool) = some (h.pool pool).current := by
        rw [hcand]
        simp [Heap.roomy, hf]
      have hcur : (h.pool pool).current < h.count := by
        obtain ⟨ys, rfl⟩ := List.head?_eq_some_iff.mp hv.head.symm
        exact hall _ List.mem_cons_self
      have hserved : E.Dallocs h pool n _ := .served (h.pool pool).current hroom hcur
      rw [Heap.setCurrent_self rfl] at hserved
      exact hserved

/-- **One `dalloc`**, from any heap whose chains point forward. -/
theorem Env.dallocAligned_dallocs (E : Env) {h : Heap} (hl : h.Linked) {pool : Nat}
    (hpool : pool < h.count) (size alignment : Nat) :
    E.Dallocs h pool (memAlignN size alignment) (E.dallocAligned h pool size alignment) := by
  obtain ⟨xs, hv, hlen, hall⟩ :=
    hl.visits h.count (hl.current pool hpool) (Nat.le_add_right ..)
  exact E.dallocAligned_visits hpool hv hlen hall size alignment

/-- What `nalloc` of `n` bytes does. -/
inductive Env.Nallocs (E : Env) (h : Heap) (pool n : Nat) : Ret × Heap → Prop where
  | bogus (hend : (h.pool pool).endPos < n) : E.Nallocs h pool n (.null .sizeInvalid, h)
  | served (hend : n ≤ (h.pool pool).endPos) (hroom : ¬ (h.pool (h.pool pool).current).Full n) :
      E.Nallocs h pool n
        (.ok ⟨(h.pool pool).current, subSz (h.pool (h.pool pool).current).endPos n⟩,
          h.modify (h.pool pool).current fun q => { q with endPos := subSz q.endPos n })
  | grown (h' : Heap) (hend : n ≤ (h.pool pool).endPos)
      (hfull : (h.pool (h.pool pool).current).Full n)
      (hdyn : (h.pool pool).cf &&& memDynamic ≠ 0) (hgrant : E.Grants (h.pool pool) n)
      (hadd : Added h pool n h') :
      E.Nallocs h pool n (.ok ⟨h.count, subSz (chunkEnd (h.pool pool) n) n⟩,
        h'.modify h.count fun q => { q with endPos := subSz q.endPos n })
  | refused (hend : n ≤ (h.pool pool).endPos) (hfull : (h.pool (h.pool pool).current).Full n)
      (hdyn : (h.pool pool).cf &&& memDynamic ≠ 0) (hgrant : ¬ E.Grants (h.pool pool) n) :
      E.Nallocs h pool n (.fault, h)
  | full (hend : n ≤ (h.pool pool).endPos) (hfull : (h.pool (h.pool pool).current).Full n)
      (hfix : ¬ (h.pool pool).cf &&& memDynamic ≠ 0) : E.Nallocs h pool n (.null .poolFull, h)

/-- **One `nalloc`.** -/
theorem Env.nallocAligned_nallocs (E : Env) {h : Heap} {pool : Nat} (hpool : pool < h.count)
    (hcur : (h.pool pool).current < h.count) (size alignment : Nat) :
    E.Nallocs h pool (memAlignN size alignment) (E.nallocAligned h pool size alignment) := by
  generalize hn : memAlignN size alignment = n
  rw [Env.nallocAligned, hn]
  -- The root is asked for its size, though it need not be the chunk that is taken from.
  by_cases hend : (h.pool pool).endPos < n
  · simp only [if_pos hend]
    exact .bogus hend
  · simp only [if_neg hend]
    rw [Nat.not_lt] at hend
    by_cases hfull : (h.pool (h.pool pool).current).Full n
    · rw [if_pos hfull]
      by_cases hdyn : (h.pool pool).cf &&& memDynamic ≠ 0
      · rw [if_pos hdyn, Env.grown]
        rcases E.addChunk_cases hpool hcur n with
          ⟨hg, h', heq, hadd⟩ | ⟨hg, ⟨heq, -⟩ | ⟨e, heq, -⟩⟩
        · have hcur' : (h'.pool pool).current = h.count := by
            rw [hadd.old pool hpool]
            exact if_pos rfl
          simp only [heq, takeBack, hcur', hadd.endPos]
          exact .grown h' hend hfull hdyn hg hadd
        · simp only [heq]
          exact .refused hend hfull hdyn hg
        · simp only [heq]
          exact .refused hend hfull hdyn hg
      · rw [if_neg hdyn]
        exact .full hend hfull hdyn
    · rw [if_neg hfull]
      exact .served hend hfull

/-- Moving `pos` or `end` keeps chains forward. -/
theorem Heap.Linked.take {h : Heap} (hl : h.Linked) (i : Nat) {f : Pool → Pool}
    (hchild : ∀ q, (f q).child = q.child) (hcur : ∀ q, (f q).current = q.current) :
    (h.modify i f).Linked :=
  hl.modify (hchild _) fun hi => by rw [hcur]; exact hl.current i hi

theorem Env.Dallocs.linked {E : Env} {h : Heap} {pool n : Nat} {r : Ret × Heap}
    (hd : E.Dallocs h pool n r) (hl : h.Linked) : r.2.Linked ∧ h.count ≤ r.2.count := by
  cases hd with
  | served c hroom hc =>
    refine ⟨?_, Nat.le_refl _⟩
    dsimp only
    exact (hl.setCurrent pool hc).take c (fun _ => rfl) fun _ => rfl
  | grown z h' _ _ _ _ hz hadd =>
    constructor
    · dsimp only
      exact (hadd.linked (hl.setCurrent pool hz)).take _ (fun _ => rfl) fun _ => rfl
    · show h.count ≤ h'.count
      rw [hadd.count]
      exact Nat.le_succ _
  | refused z _ _ _ _ hz => exact ⟨hl.setCurrent pool hz, Nat.le_refl _⟩
  | full _ _ => exact ⟨hl, Nat.le_refl _⟩

theorem Env.Nallocs.linked {E : Env} {h : Heap} {pool n : Nat} {r : Ret × Heap}
    (hd : E.Nallocs h pool n r) (hl : h.Linked) : r.2.Linked ∧ h.count ≤ r.2.count := by
  cases hd with
  | bogus _ => exact ⟨hl, Nat.le_refl _⟩
  | served _ _ =>
    refine ⟨?_, Nat.le_refl _⟩
    dsimp only
    exact hl.take _ (fun _ => rfl) fun _ => rfl
  | grown h' _ _ _ _ hadd =>
    constructor
    · dsimp only
      exact (hadd.linked hl).take _ (fun _ => rfl) fun _ => rfl
    · show h.count ≤ h'.count
      rw [hadd.count]
      exact Nat.le_succ _
  | refused _ _ _ _ => exact ⟨hl, Nat.le_refl _⟩
  | full _ _ _ => exact ⟨hl, Nat.le_refl _⟩

theorem Heap.Linked.memSet {h : Heap} (hl : h.Linked) (p : Ptr) (v : UInt8) (n : Nat) :
    (h.memSet p v n).Linked := by
  rw [Heap.memSet]
  exact hl.take _ (fun _ => rfl) fun _ => rfl

theorem Heap.Linked.moveToPos {h : Heap} (hl : h.Linked) (pool : Nat) (old : Ptr)
    (oldSize newSize : Nat) :
    (Ret.of (moveToPos h pool old oldSize newSize)).2.Linked ∧
      (Ret.of (moveToPos h pool old oldSize newSize)).2.count = h.count := by
  rw [Mempool.moveToPos, Heap.memCpy, Ret.of]
  refine ⟨?_, rfl⟩
  dsimp only
  refine Heap.Linked.take ?_ _ (fun _ => rfl) fun _ => rfl
  exact hl.take _ (fun _ => rfl) fun _ => rfl

/-- **One `ralloc`** keeps chains forward, by whatever exit. -/
theorem Env.rallocAligned_linked (E : Env) {h : Heap} (hl : h.Linked) {pool : Nat}
    (hpool : pool < h.count) (old : Ptr) (oldSize newSize alignment : Nat) :
    (E.rallocAligned h pool old oldSize newSize alignment).2.Linked ∧
      h.count ≤ (E.rallocAligned h pool old oldSize newSize alignment).2.count := by
  -- Two of its exits are the growth step, followed by the same copy.
  have hgrown : ∀ n n',
      (E.grown h pool n' fun h => moveToPos h pool old n n').2.Linked ∧
        h.count ≤ (E.grown h pool n' fun h => moveToPos h pool old n n').2.count := by
    intro n n'
    rw [Env.grown]
    rcases E.addChunk_cases hpool (hl.current pool hpool) n' with
      ⟨-, g, heq, hadd⟩ | ⟨-, ⟨heq, -⟩ | ⟨e, heq, -⟩⟩ <;> simp only [heq]
    · obtain ⟨hlinked, hcount⟩ := (hadd.linked hl).moveToPos pool old n n'
      rw [hcount, hadd.count]
      exact ⟨hlinked, Nat.le_succ _⟩
    · exact ⟨hl, Nat.le_refl _⟩
    · exact ⟨hl, Nat.le_refl _⟩
  have hpos : ∀ n, (h.modify pool fun q => { q with pos := addSz q.pos n }).Linked := fun n =>
    hl.take _ (fun _ => rfl) fun _ => rfl
  simp only [Env.rallocAligned]
  split_ifs
  · exact ⟨hl, Nat.le_refl _⟩
  · exact ⟨(hpos _).memSet _ _ _, Nat.le_refl _⟩
  · exact ⟨hpos _, Nat.le_refl _⟩
  · exact hgrown _ _
  · exact ⟨hl, Nat.le_refl _⟩
  · exact ⟨hl, Nat.le_refl _⟩
  · obtain ⟨hlinked, hcount⟩ := hl.moveToPos pool old _ _
    exact ⟨hlinked, Nat.le_of_eq hcount.symm⟩
  · exact hgrown _ _
  · exact ⟨hl, Nat.le_refl _⟩

end Mempool
end Inac
