import Mathlib.Algebra.Ring.Nat
import Mathlib.Logic.Function.Basic
import Inac.Err
import Inac.Lib.Blocks

/-!
# Memory pools (`src/memory.c`)

A pool is a chain of `ina_mempool_s` structures, each the owner of one chunk of bytes. `dalloc`
takes from a chunk's front (`pos` grows), `nalloc` from its back (`end` shrinks), and `ralloc`
resizes a `dalloc` block. The caller holds the *root* of the chain; its `current` points at the
chunk allocations are taken from, and a dynamic pool adds a chunk when that one is full.

The heap is the family of all structures ever allocated, numbered in the order of their
allocation, and a pool pointer is a number below `count`. Pools here are not shared ones, so a
chunk is what `ina_mem_alloc` returned and never moves, and `ina_mem_alloc` does not fail. The
label and the shared-memory handle, which then decide nothing, are left out.
-/

namespace Inac
namespace Mempool

/-! ## `size_t`

The sums of the source are taken in `size_t`, and several of its tests are on sums that have wrapped
already. So they are not sums of numbers here. -/

/-- `a + b` in `size_t`. -/
def addSz (a b : Nat) : Nat := (a + b) % 2 ^ 64

/-- `a - b` in `size_t`. -/
def subSz (a b : Nat) : Nat := (a + (2 ^ 64 - b)) % 2 ^ 64

/-- `INA_MEM_ALIGN_N(n,a)`: `(n+((a)-1)) & (~((a)-1))`. -/
def memAlignN (n a : Nat) : Nat := addSz n (a - 1) &&& (2 ^ 64 - 1 - (a - 1))

/-- `INA_MEM_ALIGN_SIZE`, two pointers. -/
def memAlignSize : Nat := 16

/-- `INA_MEM_ALIGN(n)`. -/
def memAlign (n : Nat) : Nat := memAlignN n memAlignSize

def memMinPoolSize : Nat := 1024  -- `INA_MEM_MIN_POOL_SIZE`

/-! ## Creation flags

Those that an allocation looks at, or that a pool hands on to its chunks. -/

def memDynamic : UInt32 := 1  -- `INA_MEM_DYNAMIC`
def memAutosize : UInt32 := 2  -- `INA_MEM_AUTOSIZE`
def memBestfit : UInt32 := 4  -- `INA_MEM_BESTFIT`
def memChild : UInt32 := 8  -- `INA_MEM_CHILD`
def memNoZeroFill : UInt32 := 512  -- `INA_MEM_NOZEROFILL`

/-! ## The heap

A chunk is a function from offsets to bytes, so that a store behind its end is one like any other:
whether a write stays inside is a question to ask and not a case of the model. -/

/-- `struct ina_mempool_s`. `endPos` is the source's `end`. -/
structure Pool where
  cf : UInt32
  size : Nat
  pos : Nat
  endPos : Nat
  alignment : Nat
  m : Nat → UInt8
  current : Nat
  parent : Option Nat
  child : Option Nat
  deriving Inhabited

/-- All pool structures, in the order of their allocation. `junk` is what fresh memory holds
    before anything is written to it. -/
structure Heap where
  count : Nat
  pool : Nat → Pool
  junk : Nat → Nat → UInt8

/-- A pointer into a chunk: `&pool->m[off]`. -/
structure Ptr where
  chunk : Nat
  off : Nat
  deriving DecidableEq, Repr

/-- Assign to fields of one structure. -/
def Heap.modify (h : Heap) (i : Nat) (f : Pool → Pool) : Heap :=
  { h with pool := Function.update h.pool i (f (h.pool i)) }

/-- `memset(p, v, n)`. -/
def Heap.memSet (h : Heap) (p : Ptr) (v : UInt8) (n : Nat) : Heap :=
  h.modify p.chunk fun q =>
    { q with m := fun o => if p.off ≤ o ∧ o < p.off + n then v else q.m o }

/-- `memcpy(dst, src, n)`. -/
def Heap.memCpy (h : Heap) (dst src : Ptr) (n : Nat) : Heap :=
  h.modify dst.chunk fun q =>
    { q with m := fun o =>
        if dst.off ≤ o ∧ o < dst.off + n then (h.pool src.chunk).m (src.off + (o - dst.off))
        else q.m o }

/-! ## Creating a pool

A chunk is made by the same function as a pool, with one more flag. It has a `current` of its own,
which nobody looks at. -/

/-- `ina_mempool_new`: the new pool's pointer and the heap that holds it. -/
def inaMempoolNew (h : Heap) (size : Nat) (cf : UInt32) : Nat × Heap :=
  let size := if size < memMinPoolSize then memMinPoolSize else size
  let size := memAlign size
  let pool : Pool :=
    { cf := cf
      size := size
      pos := 0
      endPos := size
      alignment := if cf ^^^ memBestfit ≠ 0 then memAlignSize else 1
      m := if cf &&& memNoZeroFill = 0 then fun _ => 0 else h.junk h.count
      current := h.count
      parent := none
      child := none }
  (h.count, { h with count := h.count + 1, pool := Function.update h.pool h.count pool })

/-- `nsize`, the size a new chunk is asked for. -/
def chunkSize (p : Pool) (size : Nat) : Nat :=
  if p.cf &&& memAutosize ≠ 0 ∨ size > p.size then size else p.size

/-- The growth step `dalloc`, `nalloc` and `ralloc` share, word for word: create a chunk as
    `pool->current->child` and make it current. Whatever `child` pointed at before is
    overwritten. -/
def addChunk (h : Heap) (pool size : Nat) : Heap :=
  let p := h.pool pool
  let new := inaMempoolNew h (chunkSize p size) (p.cf ||| memChild)
  let h := new.2.modify p.current fun q => { q with child := some new.1 }
  let h := h.modify new.1 fun q => { q with parent := some p.current }
  h.modify pool fun q => { q with current := new.1 }

/-! ## Allocation

The three allocators and their growth step, in the order of the source. Each ends by a pointer or an
error, with the heap. -/

/-- The test before every allocation: `pos + size > end`, or the sum wrapped. -/
def Pool.Full (c : Pool) (size : Nat) : Prop :=
  addSz c.pos size > c.endPos ∨ addSz c.pos size < c.pos

instance (c : Pool) (size : Nat) : Decidable (c.Full size) :=
  inferInstanceAs (Decidable (_ ∨ _))

/-- `ret = &pool->current->m[pool->current->pos]; pool->current->pos += size;` -/
def takeFront (h : Heap) (pool size : Nat) : Except Err Ptr × Heap :=
  let c := (h.pool pool).current
  (.ok ⟨c, (h.pool c).pos⟩, h.modify c fun q => { q with pos := addSz q.pos size })

/-- `ret = &pool->current->m[pool->current->end - size]; pool->current->end -= size;` -/
def takeBack (h : Heap) (pool size : Nat) : Except Err Ptr × Heap :=
  let c := (h.pool pool).current
  (.ok ⟨c, subSz (h.pool c).endPos size⟩,
    h.modify c fun q => { q with endPos := subSz q.endPos size })

/-- The `retry` loop of `ina_mempool_dalloc_aligned`; `none` when it does not end within the
    fuel. -/
def dallocRetry (pool size : Nat) : Nat → Heap → Option (Except Err Ptr × Heap)
  | 0, _ => none
  | fuel + 1, h =>
    let p := h.pool pool
    if (h.pool p.current).Full size then
      if p.cf &&& memDynamic ≠ 0 then
        match (h.pool p.current).child with
        | some c => dallocRetry pool size fuel (h.modify pool fun q => { q with current := c })
        | none => some (takeFront (addChunk h pool size) pool size)
      else some (.error .poolFull, h)
    else some (takeFront h pool size)

/-- `ina_mempool_dalloc_aligned`. The loop follows `child` pointers, so it meets a structure at
    most once. -/
def inaMempoolDallocAligned (h : Heap) (pool size alignment : Nat) :
    Option (Except Err Ptr × Heap) :=
  dallocRetry pool (memAlignN size alignment) h.count h

/-- `ina_mempool_nalloc_aligned`. It does not look at `child` before it adds a chunk. -/
def inaMempoolNallocAligned (h : Heap) (pool size alignment : Nat) : Except Err Ptr × Heap :=
  let size := memAlignN size alignment
  let p := h.pool pool
  -- bogus request
  if p.endPos < size then (.error .sizeInvalid, h)
  else if (h.pool p.current).Full size then
    if p.cf &&& memDynamic ≠ 0 then takeBack (addChunk h pool size) pool size
    else (.error .poolFull, h)
  else takeBack h pool size

/-- `ret = &pool->m[pool->pos]; memcpy(ret, old, old_size); pool->pos += new_size;`, the end of
    three of `ralloc`'s exits. The chunk is the root's. -/
def moveToPos (h : Heap) (pool : Nat) (old : Ptr) (oldSize newSize : Nat) :
    Except Err Ptr × Heap :=
  let ret : Ptr := ⟨pool, (h.pool pool).pos⟩
  let h := h.memCpy ret old oldSize
  (.ok ret, h.modify pool fun q => { q with pos := addSz q.pos newSize })

def inaMempoolRallocAligned (h : Heap) (pool : Nat) (old : Ptr) (oldSize newSize alignment : Nat) :
    Except Err Ptr × Heap :=
  let newSize := memAlignN newSize alignment
  let oldSize := memAlignN oldSize alignment
  let p := h.pool pool
  -- bogus request
  if p.endPos < oldSize then (.error .sizeInvalid, h)
  -- was the previous allocation - optimize!
  else if p.pos ≥ oldSize ∧ Ptr.mk pool (subSz p.pos oldSize) = old then
    -- fits
    if subSz (addSz p.pos newSize) oldSize ≤ p.endPos then
      let h := h.modify pool fun q => { q with pos := addSz q.pos (subSz newSize oldSize) }
      -- shrinking - zero again!
      if newSize < oldSize then
        (.ok old, h.memSet ⟨pool, (h.pool pool).pos⟩ 0 (subSz oldSize newSize))
      else (.ok old, h)
    -- does not fit
    else if p.cf &&& memDynamic ≠ 0 then
      moveToPos (addChunk h pool newSize) pool old oldSize newSize
    else (.error .outOfMemory, h)
  -- cannot shrink, we need to move
  else if newSize ≤ oldSize then (.ok old, h)
  -- fits
  else if addSz p.pos newSize ≥ p.pos ∧ addSz p.pos newSize ≤ p.endPos then
    moveToPos h pool old oldSize newSize
  else if p.cf &&& memDynamic ≠ 0 then
    moveToPos (addChunk h pool newSize) pool old oldSize newSize
  else (.error .poolFull, h)

/-! ## Walks over the chain

`clear` and `reset` go on to `child`, and stop if it is the structure they are at. -/

/-- The `while (pn != NULL)` loop of `clear` and `reset`, with what it does to each chunk. A
    structure that is its own child holds the loop for ever. -/
def sweep (f : Pool → Pool) : Nat → Option Nat → Heap → Option Heap
  | _, none, h => some h
  | 0, some _, _ => none
  | fuel + 1, some pn, h =>
    let next := if (h.pool pn).child ≠ some pn then (h.pool pn).child else some pn
    sweep f fuel next (h.modify pn f)

def inaMempoolReset (h : Heap) (pool : Nat) : Option Heap :=
  (sweep (fun q => { q with pos := 0 }) h.count (some pool) h).map fun h =>
    h.modify pool fun q => { q with current := pool }

def inaMempoolClear (h : Heap) (pool : Nat) : Option Heap :=
  (sweep (fun q => { q with pos := 0, m := fun o => if o < q.size then 0 else q.m o })
    h.count (some pool) h).map fun h =>
    h.modify pool fun q => { q with current := pool }

/-- `ina_mempool_info_t`. -/
structure Info where
  size : Nat
  used : Nat
  children : Nat
  cf : UInt32
  deriving DecidableEq, Repr

/-- The loop of `ina_mempool_info`. The chunks it sums over stand in one address space, so the
    sums do not wrap. -/
def infoLoop (h : Heap) : Nat → Option Nat → Info → Option Info
  | _, none, info => some info
  | 0, some _, _ => none
  | fuel + 1, some pm, info =>
    let q := h.pool pm
    infoLoop h fuel q.child
      { info with
        size := info.size + q.size
        used := info.used + (q.pos + (q.size - q.endPos))
        children := info.children + 1 }

def inaMempoolInfo (h : Heap) (pool : Nat) : Option Info :=
  (infoLoop h h.count (some pool) ⟨0, 0, 0, (h.pool pool).cf⟩).map fun info =>
    { info with children := info.children - 1 }

end Mempool
end Inac
