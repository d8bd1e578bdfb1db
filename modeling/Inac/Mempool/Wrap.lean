import Inac.Mempool.Align

/-!
# Sizes that wrap

A request goes through up to three layers before it reaches `malloc`. `dalloc` rounds it up to its
alignment, `ina_mempool_new` rounds a chunk's size up and a shared pool adds a reference count to
it, and `ina_mem_alloc_aligned` adds slack for the alignment and a word in front. Each sum is one of
`size_t`.

The middle layer is safe by accident: a size that wraps there is zero, and `ina_mem_alloc` of zero
bytes is `NULL`; only a shared pool adds to that zero before anyone looks. The other two are not. A
`dalloc` size that wraps is a request for nothing, which any chunk can serve, and
`ina_mem_alloc_aligned` asks `malloc` for what is left of the sum.

`malloc` is a parameter, with no law but that its blocks lie in the address space and so do not
wrap. A large request may well be served by it, if what is left of the sum is small.
-/

namespace Inac
namespace Mempool

open Lib

/-! ## `ina_mem_alloc_aligned`

The block has a word in front of the pointer for its own start, so the pointer is the first multiple
of the alignment that leaves room for it. -/

/-- `malloc`: the address of a block of so many bytes, which lies in the address space, or
    `NULL`. -/
structure Malloc where
  addr : Nat → Option Nat
  fits : ∀ n p, addr n = some p → p + n ≤ 2 ^ 64

/-- What `ina_mem_alloc_aligned` returns, and the block of `malloc` it is in. -/
structure Given where
  base : Nat
  bytes : Nat
  ptr : Nat
  deriving DecidableEq, Repr

/-- The sum that `malloc` is asked for. -/
def mallocBytes (alignment size : Nat) : Nat := addSz (subSz (addSz size alignment) 1) 8

def inaMemAllocAligned (M : Malloc) (alignment size : Nat) : Option Given :=
  -- same behavior as in c-runtime
  if size = 0 then none
  else if alignment = 0 then none
  else
    (M.addr (mallocBytes alignment size)).map fun p =>
      ⟨p, mallocBytes alignment size,
        subSz (addSz (addSz p 8) alignment) 1 &&& (2 ^ 64 - 1 - (alignment - 1))⟩

/-- `ina_mem_alloc`. -/
def inaMemAlloc (M : Malloc) (size : Nat) : Option Given := inaMemAllocAligned M 8 size

/-- There are `size` bytes from the pointer on in the block, and a word in front of it. -/
def Given.Holds (g : Given) (size : Nat) : Prop :=
  g.base + 8 ≤ g.ptr ∧ g.ptr + size ≤ g.base + g.bytes

/-- `ina_mem_alloc_aligned` fails, or gives all that was asked for. -/
def AllocFull (M : Malloc) (alignment size : Nat) : Prop :=
  ∀ g, inaMemAllocAligned M alignment size = some g → g.Holds size

theorem mallocBytes_eq (alignment size : Nat) :
    mallocBytes alignment size = (size + alignment + 7) % 2 ^ 64 := by
  rw [mallocBytes, addSz, subSz, addSz]
  omega

theorem given_ptr {k p : Nat} (hk : k ≤ 64) (hp : p + (2 ^ k + 7) < 2 ^ 64) :
    p + 8 ≤ subSz (addSz (addSz p 8) (2 ^ k)) 1 &&& (2 ^ 64 - 1 - (2 ^ k - 1)) ∧
      subSz (addSz (addSz p 8) (2 ^ k)) 1 &&& (2 ^ 64 - 1 - (2 ^ k - 1)) ≤ p + (2 ^ k + 7) := by
  have hpos : 0 < 2 ^ k := Nat.two_pow_pos k
  have hsum : subSz (addSz (addSz p 8) (2 ^ k)) 1 = p + (2 ^ k + 7) := by
    rw [subSz, addSz, addSz]
    omega
  rw [hsum, and_high_mask hp hk]
  have hdiv := Nat.div_add_mod (p + (2 ^ k + 7)) (2 ^ k)
  have hmod := Nat.mod_lt (p + (2 ^ k + 7)) hpos
  rw [Nat.mul_comm] at hdiv
  omega

/-- **`ina_mem_alloc_aligned`** is right exactly when the sum does not wrap, or when `malloc`
    refuses what is left of it. -/
theorem allocFull_iff (M : Malloc) {k : Nat} (hk : k < 64) {size : Nat} (hsize : size < 2 ^ 64) :
    AllocFull M (2 ^ k) size ↔
      size = 0 ∨ size + 2 ^ k + 7 < 2 ^ 64 ∨ M.addr (size + 2 ^ k + 7 - 2 ^ 64) = none := by
  have hpos : 0 < 2 ^ k := Nat.two_pow_pos k
  have hpow : 2 ^ k ≤ 2 ^ 63 := Nat.pow_le_pow_right (by decide) (by omega)
  by_cases hzero : size = 0
  · refine ⟨fun _ => Or.inl hzero, fun _ g hg => ?_⟩
    rw [inaMemAllocAligned, if_pos hzero] at hg
    cases hg
  have hmap : inaMemAllocAligned M (2 ^ k) size = _ :=
    (if_neg hzero).trans (if_neg (Nat.ne_of_gt hpos))
  rw [AllocFull, hmap, or_iff_right hzero]
  -- The sum stands for itself, or it has lost `2 ^ 64`.
  by_cases hwrap : size + 2 ^ k + 7 < 2 ^ 64
  · have hbytes : mallocBytes (2 ^ k) size = size + 2 ^ k + 7 := by
      rw [mallocBytes_eq, Nat.mod_eq_of_lt hwrap]
    refine ⟨fun _ => Or.inl hwrap, fun _ g hg => ?_⟩
    obtain ⟨p, hp, rfl⟩ := Option.map_eq_some_iff.mp hg
    have hfits := M.fits _ p hp
    rw [hbytes] at hfits ⊢
    obtain ⟨hlo, hhi⟩ := given_ptr (Nat.le_of_lt hk) (show p + (2 ^ k + 7) < 2 ^ 64 by omega)
    refine ⟨hlo, ?_⟩
    dsimp only
    omega
  · have hbytes : mallocBytes (2 ^ k) size = size + 2 ^ k + 7 - 2 ^ 64 := by
      rw [mallocBytes_eq, Nat.mod_eq_sub_mod (Nat.le_of_not_lt hwrap),
        Nat.mod_eq_of_lt (by omega)]
    rw [hbytes]
    constructor
    · -- What `malloc` was asked for is less than the size, so the block cannot hold it.
      intro hfull
      refine Or.inr (Option.eq_none_iff_forall_not_mem.mpr fun p hp => ?_)
      obtain ⟨hlo, hhi⟩ := hfull _ (Option.map_eq_some_iff.mpr ⟨p, hp, rfl⟩)
      dsimp only at hlo hhi
      omega
    · intro hnone g hg
      obtain ⟨p, hp, -⟩ := Option.map_eq_some_iff.mp hg
      rw [hnone.resolve_left hwrap] at hp
      cases hp

/-- `ina_mem_alloc` is right for every size a chunk can have. -/
theorem inaMemAlloc_holds (M : Malloc) {size : Nat} (hsize : size + 15 < 2 ^ 64) {g : Given}
    (hg : inaMemAlloc M size = some g) : g.Holds size :=
  (allocFull_iff M (k := 3) (by decide) (by omega)).mpr (Or.inr (Or.inl hsize)) g hg

/-! ## `ina_mempool_new` -/

/-- Pools on top of `malloc`. -/
def Malloc.env (M : Malloc) (shm : Nat → Except Err Unit) : Env :=
  ⟨fun n => (inaMemAlloc M n).isSome, shm⟩

/-- `ina_mempool_new` fails, or makes a pool with room for all that was asked for, and unless the
    pool is shared its chunk is in a block of `malloc`. -/
def NewFull (M : Malloc) (shm : Nat → Except Err Unit) (h : Heap) (size : Nat) (cf : UInt32) :
    Prop :=
  ∀ i h', (M.env shm).inaMempoolNew h size cf = .pool i h' →
    (h'.pool i).pos + size ≤ (h'.pool i).endPos ∧
    (cf &&& memShared = 0 →
      ∃ g, inaMemAlloc M (h'.pool i).size = some g ∧ g.Holds (h'.pool i).size)

/-- The size wraps, and a shared pool is made of what is left. -/
def NewWraps (E : Env) (size : Nat) (cf : UInt32) : Prop :=
  cf &&& memShared ≠ 0 ∧ 2 ^ 64 ≤ size + 15 ∧ E.Gives size cf

theorem newEnd_wraps {size : Nat} {cf : UInt32} (hs : cf &&& memShared ≠ 0) (hsize : size < 2 ^ 64)
    (hwrap : 2 ^ 64 ≤ size + 15) : newEnd size cf = 16 := by
  have hmin : memMinPoolSize = 1024 := rfl
  have hmax : max size memMinPoolSize = size := by omega
  rw [newEnd, if_pos hs, newBytes, hmax, memAlign_wraps hsize hwrap]
  rfl

/-- **`ina_mempool_new`** is right unless a shared pool's size wraps. -/
theorem newFull_iff (M : Malloc) (shm : Nat → Except Err Unit) (h : Heap) {size : Nat}
    (hsize : size < 2 ^ 64) (cf : UInt32) :
    NewFull M shm h size cf ↔ ¬ NewWraps (M.env shm) size cf := by
  rcases (M.env shm).inaMempoolNew_cases h size cf with ⟨hg, h', heq, hnew⟩ | ⟨hg, heq⟩
  · -- What a pool is to have, as a condition on its first chunk.
    have hiff : NewFull M shm h size cf ↔
        newPos cf + size ≤ newEnd size cf ∧ (cf &&& memShared = 0 →
          ∃ g, inaMemAlloc M (newEnd size cf) = some g ∧ g.Holds (newEnd size cf)) := by
      constructor
      · intro hfull
        have hroot := hfull h.count h' heq
        rw [hnew.pos, hnew.endPos, hnew.size] at hroot
        exact hroot
      · intro hfull i g hmade
        obtain ⟨rfl, rfl⟩ := Made.pool.inj (heq.symm.trans hmade)
        rw [hnew.pos, hnew.endPos, hnew.size]
        exact hfull
    rw [hiff, NewWraps]
    constructor
    · rintro ⟨hroom, -⟩ ⟨hs, hwrap, -⟩
      rw [newEnd_wraps hs hsize hwrap] at hroom
      omega
    · intro hno
      -- Only a shared pool's size may wrap and leave bytes to be had.
      have hwrap : cf &&& memShared = 0 ∨ size + 15 < 2 ^ 64 := by
        by_contra hc
        rw [not_or] at hc
        exact hno ⟨hc.1, Nat.le_of_not_lt hc.2, hg⟩
      obtain ⟨hroom, hlt⟩ := le_newEnd hsize hg.2.1 hwrap
      refine ⟨hroom, fun hs => ?_⟩
      have hmem : (inaMemAlloc M (newEnd size cf)).isSome := by
        have hgive := hg.2.2
        rw [if_neg (not_not.mpr hs)] at hgive
        exact hgive
      obtain ⟨g, hg⟩ := Option.isSome_iff_exists.mp hmem
      exact ⟨g, hg, inaMemAlloc_holds M hlt hg⟩
  · refine ⟨fun _ hw => hg hw.2.2, fun _ i h' hmade => ?_⟩
    rw [heq] at hmade
    split at hmade <;> cases hmade

/-! ## `ina_mempool_dalloc_aligned`

By the ways in which it ends (`Env.Dallocs`). A block that is served is as large as the rounded
size, so the question is what the rounding has left of it. -/

/-- Unless the pool is shared, a chunk is in a block of `malloc`. -/
def InBlock (M : Malloc) (h : Heap) (c : Nat) : Prop :=
  (h.pool 0).cf &&& memShared = 0 →
    ∃ g, inaMemAlloc M (h.pool c).size = some g ∧ g.Holds (h.pool c).size

/-- A `dalloc` block has room for all that was asked for, in front of `pos`, of `end` and of the end
    of the chunk. -/
def DallocFull (M : Malloc) (shm : Nat → Except Err Unit) (s : Option Heap) : Req → Prop
  | .dalloc size alignment =>
    ∀ p h', allocStep (M.env shm) s (.dalloc size alignment) = (.ok p, some h') →
      p.off + size ≤ (h'.pool p.chunk).pos ∧ (h'.pool p.chunk).pos ≤ (h'.pool p.chunk).endPos ∧
      (h'.pool p.chunk).endPos ≤ (h'.pool p.chunk).size ∧ InBlock M h' p.chunk
  | .nalloc _ _ => True

/-- The size wraps when it is rounded up, or when a chunk of a shared pool is made for it. -/
def DallocWraps (E : Env) : Option Heap → Req → Prop
  | some h, .dalloc size alignment =>
    2 ^ 64 ≤ size + (alignment - 1) ∨
      (h.roomy (memAlignN size alignment) (h.candidates 0) = none ∧
        (h.pool 0).cf &&& memDynamic ≠ 0 ∧ (h.pool 0).cf &&& memShared ≠ 0 ∧
        2 ^ 64 ≤ memAlignN size alignment + 15 ∧ E.Grants (h.pool 0) (memAlignN size alignment))
  | _, _ => False

/-- Requests: sizes a `size_t` holds, and powers of two for alignments. -/
def Req.Fits (r : Req) : Prop :=
  r.Valid ∧ match r with
    | .dalloc size _ => size < 2 ^ 64
    | .nalloc size _ => size < 2 ^ 64

theorem Added.ok {h h' : Heap} {pool n : Nat} (hok : h.Ok) (ha : Added h pool n h')
    (hfits : firstPos (h.pool pool) ≤ chunkEnd (h.pool pool) n)
    (hlt : chunkEnd (h.pool pool) n + 15 < 2 ^ 64) : h'.Ok := by
  obtain ⟨hchild, hcur⟩ := ha.linked ⟨hok.child, hok.current⟩
  refine ⟨fun i hi => ?_, hchild, hcur⟩
  rw [ha.count] at hi
  rcases Nat.lt_succ_iff_lt_or_eq.mp hi with hi | rfl
  · rw [ha.old i hi]
    exact ⟨(hok.pool i hi).pos_le, (hok.pool i hi).end_le, (hok.pool i hi).size_lt⟩
  · exact ⟨by rw [ha.pos, ha.endPos]; exact hfits, by rw [ha.endPos, ha.size],
      by rw [ha.size]; exact hlt⟩

theorem Heap.Ok.setCurrent {h : Heap} (hok : h.Ok) (pool : Nat) {c : Nat} (hc : c < h.count) :
    (h.setCurrent pool c).Ok :=
  hok.modify (fun hp => ⟨hp.1, hp.2, hp.3⟩) (fun _ hch => Or.inl hch) (Or.inr hc)

/-- The heap is ok, and a block that was given has `n` bytes in front of `pos`. -/
def GivesAll (n : Nat) (r : Ret × Heap) : Prop :=
  r.2.Ok ∧ ∀ p, r.1 = .ok p → p.off + n ≤ (r.2.pool p.chunk).pos ∧ p.chunk < r.2.count

/-- Taking from the front of a chunk with room. -/
theorem Heap.Ok.front {h : Heap} (hok : h.Ok) {c n : Nat} (hc : c < h.count)
    (hfit : (h.pool c).pos + n ≤ (h.pool c).endPos) :
    GivesAll n (.ok ⟨c, (h.pool c).pos⟩, h.modify c fun q => { q with pos := addSz q.pos n }) := by
  have hp := hok.pool c hc
  have hlt := hp.size_lt
  have hend := hp.end_le
  have hsum : addSz (h.pool c).pos n = (h.pool c).pos + n := addSz_of_lt (by omega)
  constructor
  · dsimp only
    refine hok.modify_pos (fun _ => ⟨?_, hend, hlt⟩) rfl rfl
    dsimp only
    rw [hsum]
    exact hfit
  · intro p hret
    obtain rfl := Ret.ok.inj hret
    dsimp only
    rw [Heap.modify_pool_self]
    exact ⟨Nat.le_of_eq hsum.symm, hc⟩

/-- **A `dalloc`** of `n` bytes gives all, unless a chunk of a shared pool wraps. -/
theorem Env.Dallocs.holds {E : Env} {h : Heap} {n : Nat} {r : Ret × Heap} (hd : E.Dallocs h 0 n r)
    (hok : h.Ok) (hroot : 0 < h.count) (hn : n < 2 ^ 64)
    (hno : ¬ (h.roomy n (h.candidates 0) = none ∧ (h.pool 0).cf &&& memDynamic ≠ 0 ∧
      (h.pool 0).cf &&& memShared ≠ 0 ∧ 2 ^ 64 ≤ n + 15 ∧ E.Grants (h.pool 0) n)) :
    GivesAll n r := by
  cases hd with
  | served c hroom hc =>
    have hp := hok.pool c hc
    have hlt := hp.size_lt
    have hend := hp.end_le
    -- The chunk had room for the rounded size.
    have hfit : (h.pool c).pos + n ≤ (h.pool c).endPos := by
      have hfull := (Heap.roomy_mem hroom).2
      rw [Pool.full_iff n hp.pos_le (by omega) hn] at hfull
      omega
    have hgives := (hok.setCurrent 0 hc).front hc (n := n) (by
      rw [Heap.setCurrent_pool]
      exact hfit)
    rw [Heap.setCurrent_pool] at hgives
    exact hgives
  | grown z h' hfull hdyn hgrant hz hlt hadd =>
    -- The size of the new chunk did not wrap, unless it is a shared one.
    have hwrap : (h.pool 0).cf &&& memShared = 0 ∨ n + 15 < 2 ^ 64 := by
      by_contra hc
      rw [not_or] at hc
      exact hno ⟨hfull, hdyn, hc.1, Nat.le_of_not_lt hc.2, hgrant⟩
    obtain ⟨hfits, hbound⟩ := le_chunkEnd (hok.pool 0 hroot) hn hgrant.2.1 hwrap
    have hroot' : (h.setCurrent 0 z).pool 0 = { h.pool 0 with current := z } := by
      rw [Heap.setCurrent_pool]
      rfl
    obtain ⟨hpos, hend, -, -⟩ := hadd.fields
    have hok' : h'.Ok := hadd.ok (hok.setCurrent 0 hlt)
      (by rw [hroot']; exact Nat.le_trans (Nat.le_add_right ..) hfits)
      (by rw [hroot']; exact hbound)
    have hcount : h.count < h'.count := by
      rw [hadd.count]
      exact Nat.lt_succ_self _
    have hgives := hok'.front hcount (n := n) (by rw [hpos, hend]; exact hfits)
    rw [hpos] at hgives
    exact hgives
  | refused z hfull hdyn hgrant hz hlt =>
    exact ⟨hok.setCurrent 0 hlt, fun p hret => absurd hret (E.refusal_ne_ok _ _ p)⟩
  | full hfull hfix => exact ⟨hok, fun p hret => by cases hret⟩

/-- **An `nalloc`** keeps the invariant: it asks for no chunk that could wrap, since it refuses what
    is larger than the root. -/
theorem Env.Nallocs.ok {E : Env} {h : Heap} {n : Nat} {r : Ret × Heap} (hd : E.Nallocs h 0 n r)
    (hok : h.Ok) (hroot : 0 < h.count) : r.2.Ok := by
  have hback : ∀ {g : Heap} {c : Nat}, g.Ok → c < g.count →
      (g.pool c).pos + n ≤ (g.pool c).endPos →
      (g.modify c fun q => { q with endPos := subSz q.endPos n }).Ok := by
    intro g c hg hc hfit
    have hp := hg.pool c hc
    have hlt := hp.size_lt
    have hend := hp.end_le
    have hdiff : subSz (g.pool c).endPos n = (g.pool c).endPos - n :=
      subSz_of_le (by omega) (by omega)
    refine hg.modify_pos (fun _ => ⟨?_, ?_, hlt⟩) rfl rfl <;> dsimp only <;> rw [hdiff] <;> omega
  -- What is not larger than the root is far from the end of `size_t`.
  have hsmall : n ≤ (h.pool 0).endPos → n + 15 < 2 ^ 64 := fun hle => by
    have hp := hok.pool 0 hroot
    have hlt := hp.size_lt
    have hend := hp.end_le
    omega
  cases hd with
  | bogus hend => exact hok
  | served hend hroom =>
    have hc := hok.current 0 hroot
    have hp := hok.pool _ hc
    have hlt := hp.size_lt
    have hle := hp.end_le
    have hn := hsmall hend
    rw [Pool.full_iff n hp.pos_le (by omega) (by omega)] at hroom
    exact hback hok hc (by omega)
  | grown h' hend hfull hdyn hgrant hadd =>
    have hn := hsmall hend
    obtain ⟨hfits, hbound⟩ :=
      le_chunkEnd (hok.pool 0 hroot) (by omega) hgrant.2.1 (Or.inr hn)
    have hok' := hadd.ok hok (Nat.le_trans (Nat.le_add_right ..) hfits) hbound
    exact hback hok' (by rw [hadd.count]; exact Nat.lt_succ_self _)
      (by rw [hadd.pos, hadd.endPos]; exact hfits)
  | refused hend hfull hdyn hgrant => exact hok
  | full hend hfull hfix => exact hok

/-! Every chunk was given by `ina_mem_alloc`. -/

/-- Unless the pool is shared, memory was given for every chunk. -/
def Heap.Backed (E : Env) (h : Heap) : Prop :=
  (h.pool 0).cf &&& memShared = 0 → ∀ i < h.count, E.mem (h.pool i).size

theorem Heap.Backed.modify {E : Env} {h : Heap} (hb : h.Backed E) (i : Nat) {f : Pool → Pool}
    (hcf : ∀ q, (f q).cf = q.cf) (hsize : ∀ q, (f q).size = q.size) : (h.modify i f).Backed E := by
  intro hs j hj
  have hroot : ((h.modify i f).pool 0).cf = (h.pool 0).cf :=
    Heap.modify_forall (P := fun j p => p.cf = (h.pool j).cf) (fun _ => hcf _) rfl
  have hsame : ((h.modify i f).pool j).size = (h.pool j).size :=
    Heap.modify_forall (P := fun j p => p.size = (h.pool j).size) (fun _ => hsize _) rfl
  rw [hroot] at hs
  rw [hsame]
  exact hb hs j hj

theorem Added.backed {E : Env} {h h' : Heap} {n : Nat} (hroot : 0 < h.count)
    (ha : Added h 0 n h') (hb : h.Backed E) (hgrant : E.Grants (h.pool 0) n) : h'.Backed E := by
  intro hs i hi
  rw [ha.old 0 hroot] at hs
  rw [ha.count] at hi
  rcases Nat.lt_succ_iff_lt_or_eq.mp hi with hi | rfl
  · rw [ha.old i hi]
    exact hb hs i hi
  · have hmem := hgrant.2.2
    rw [if_neg (not_not.mpr hs)] at hmem
    rw [ha.size]
    exact hmem

theorem Env.Dallocs.backed {E : Env} {h : Heap} {n : Nat} {r : Ret × Heap} (hd : E.Dallocs h 0 n r)
    (hroot : 0 < h.count) (hb : h.Backed E) : r.2.Backed E := by
  have hset : ∀ c, (h.setCurrent 0 c).Backed E := fun c =>
    hb.modify 0 (fun _ => rfl) fun _ => rfl
  cases hd with
  | served c hroom hc =>
    dsimp only
    exact (hset c).modify c (fun _ => rfl) fun _ => rfl
  | grown z h' hfull hdyn hgrant hz hlt hadd =>
    have hgrant' : E.Grants ((h.setCurrent 0 z).pool 0) n := by
      rw [Heap.setCurrent_pool]
      exact hgrant
    have hroot' : 0 < (h.setCurrent 0 z).count := hroot
    dsimp only
    exact (hadd.backed hroot' (hset z) hgrant').modify _ (fun _ => rfl) fun _ => rfl
  | refused z hfull hdyn hgrant hz hlt => exact hset z
  | full hfull hfix => exact hb

theorem Env.Nallocs.backed {E : Env} {h : Heap} {n : Nat} {r : Ret × Heap} (hd : E.Nallocs h 0 n r)
    (hroot : 0 < h.count) (hb : h.Backed E) : r.2.Backed E := by
  cases hd with
  | bogus hend => exact hb
  | served hend hroom =>
    dsimp only
    exact hb.modify _ (fun _ => rfl) fun _ => rfl
  | grown h' hend hfull hdyn hgrant hadd =>
    dsimp only
    exact (hadd.backed hroot hb hgrant).modify _ (fun _ => rfl) fun _ => rfl
  | refused hend hfull hdyn hgrant => exact hb
  | full hend hfull hfix => exact hb

/-- A chunk for which memory was given is in a block of `malloc`. -/
theorem Heap.Backed.inBlock {M : Malloc} {shm : Nat → Except Err Unit} {h : Heap}
    (hb : h.Backed (M.env shm)) (hok : h.Ok) {c : Nat} (hc : c < h.count) : InBlock M h c := by
  intro hs
  obtain ⟨g, hg⟩ := Option.isSome_iff_exists.mp (hb hs c hc)
  exact ⟨g, hg, inaMemAlloc_holds M (hok.pool c hc).size_lt hg⟩

theorem Heap.current_candidate {h : Heap} (pool : Nat) (hcount : 0 < h.count) :
    (h.pool pool).current ∈ h.candidates pool := by
  rw [Heap.candidates]
  split
  · obtain ⟨k, hk⟩ := Nat.exists_eq_add_one_of_ne_zero (Nat.ne_of_gt hcount)
    rw [hk, Heap.chain]
    exact List.mem_cons_self
  · exact List.mem_singleton_self _

/-- A request for nothing is served. -/
theorem Heap.roomy_zero {h : Heap} (hok : h.Ok) (hroot : 0 < h.count) :
    h.roomy 0 (h.candidates 0) ≠ none := by
  intro hnone
  have hfull := List.find?_eq_none.mp hnone _ (h.current_candidate 0 hroot)
  have hp := hok.pool _ (hok.current 0 hroot)
  have hlt := hp.size_lt
  have hend := hp.end_le
  have hpos := hp.pos_le
  simp only [Pool.full_iff 0 hpos (by omega) (by omega), decide_eq_true_eq, not_not] at hfull
  omega

section Dalloc

variable (M : Malloc) (shm : Nat → Except Err Unit) {h : Heap} (hok : h.Ok) (hroot : 0 < h.count)
  {k size : Nat} (hk : k < 64) (hsize : size < 2 ^ 64)
include hok hroot hk hsize

/-- A size that wraps when it is rounded is served with nothing. -/
theorem not_full_of_round (hwrap : 2 ^ 64 ≤ size + (2 ^ k - 1)) :
    ¬ DallocFull M shm (some h) (.dalloc size (2 ^ k)) := by
  have hpow : 2 ^ k < 2 ^ 64 := Nat.pow_lt_pow_right (by decide) hk
  have hd := (M.env shm).dallocAligned_dallocs ⟨hok.child, hok.current⟩ hroot size (2 ^ k)
  rw [memAlignN_wraps hk hsize hwrap] at hd
  intro hfull
  simp only [DallocFull, allocStep] at hfull
  generalize (M.env shm).dallocAligned h 0 size (2 ^ k) = r at hd hfull
  cases hd with
  | served c hroom hc =>
    have hp := hok.pool c hc
    have hlt := hp.size_lt
    have hend := hp.end_le
    have hpos := hp.pos_le
    have hroom' := (hfull _ _ rfl).1
    dsimp only at hroom'
    rw [Heap.modify_pool_self, Heap.setCurrent_pool] at hroom'
    have hsum : addSz (h.pool c).pos 0 = (h.pool c).pos := addSz_of_lt (by omega)
    dsimp only at hroom'
    rw [hsum] at hroom'
    omega
  | grown z h' hnone => exact Heap.roomy_zero hok hroot hnone
  | refused z hnone => exact Heap.roomy_zero hok hroot hnone
  | full hnone => exact Heap.roomy_zero hok hroot hnone

/-- A chunk of a shared pool for a size that wraps has sixteen bytes. -/
theorem not_full_of_chunk (hround : size + (2 ^ k - 1) < 2 ^ 64)
    (hwrap : h.roomy (memAlignN size (2 ^ k)) (h.candidates 0) = none ∧
        (h.pool 0).cf &&& memDynamic ≠ 0 ∧ (h.pool 0).cf &&& memShared ≠ 0 ∧
        2 ^ 64 ≤ memAlignN size (2 ^ k) + 15 ∧
        (M.env shm).Grants (h.pool 0) (memAlignN size (2 ^ k))) :
    ¬ DallocFull M shm (some h) (.dalloc size (2 ^ k)) := by
  obtain ⟨hnone, hdyn, hshared, hlarge, hgrant⟩ := hwrap
  have hd := (M.env shm).dallocAligned_dallocs ⟨hok.child, hok.current⟩ hroot size (2 ^ k)
  -- a multiple of the alignment that near to the end of `size_t` has a small alignment
  have hbig : 2 ^ 64 - 32 < size := by
    have hn := memAlignN_lt size (2 ^ k)
    have hpow : 2 ^ k ∣ 2 ^ 64 := Nat.pow_dvd_pow 2 (Nat.le_of_lt hk)
    have hdvd := Nat.dvd_sub hpow (dvd_memAlignN (Nat.le_of_lt hk) size)
    have hle := Nat.le_of_dvd (by omega) hdvd
    have hup : memAlignN size (2 ^ k) ≤ size + (2 ^ k - 1) := by
      rw [memAlignN_eq hround]
      exact Nat.div_mul_le_self ..
    omega
  intro hfull
  simp only [DallocFull, allocStep] at hfull
  generalize hn : memAlignN size (2 ^ k) = n at *
  generalize (M.env shm).dallocAligned h 0 size (2 ^ k) = r at hd hfull
  cases hd with
  | served c hroom hc =>
    rw [hnone] at hroom
    cases hroom
  | grown z h' _ _ _ hz hlt hadd =>
    have hsize16 : (h'.pool h.count).endPos = 16 := by
      have hask : chunkSize (h.pool 0) n = n := by
        have hp := (hok.pool 0 hroot).size_lt
        rw [chunkSize, if_pos (Or.inr (by omega))]
      have hn64 : n < 2 ^ 64 := hn ▸ memAlignN_lt size (2 ^ k)
      rw [hadd.fields.2.1, chunkEnd, hask, newEnd_wraps hshared hn64 hlarge]
    have hroom := hfull _ _ rfl
    dsimp only at hroom
    rw [Heap.modify_pool_self] at hroom
    dsimp only at hroom
    omega
  | refused z _ _ hno => exact absurd hgrant hno
  | full _ hfix => exact absurd hdyn hfix

/-- **`dalloc`** is right unless its size wraps. -/
theorem dallocFull_iff (hb : h.Backed (M.env shm)) :
    DallocFull M shm (some h) (.dalloc size (2 ^ k)) ↔
      ¬ DallocWraps (M.env shm) (some h) (.dalloc size (2 ^ k)) := by
  constructor
  · intro hfull hwrap
    by_cases hround : 2 ^ 64 ≤ size + (2 ^ k - 1)
    · exact not_full_of_round M shm hok hroot hk hsize hround hfull
    · exact not_full_of_chunk M shm hok hroot hk hsize (Nat.lt_of_not_le hround)
        (hwrap.resolve_left hround) hfull
  · intro hno p h' hstep
    obtain ⟨hround, hchunk⟩ := not_or.mp hno
    have hd := (M.env shm).dallocAligned_dallocs ⟨hok.child, hok.current⟩ hroot size (2 ^ k)
    obtain ⟨hok', hroom⟩ := hd.holds hok hroot (memAlignN_lt size (2 ^ k)) hchunk
    have hb' := hd.backed hroot hb
    obtain rfl := Ret.next_some (congrArg Prod.snd hstep)
    obtain ⟨hpos, hlt⟩ := hroom p (Ret.next_ok.mp (congrArg Prod.fst hstep))
    have hle : size ≤ memAlignN size (2 ^ k) := le_memAlignN (Nat.lt_of_not_le hround)
    have hp := hok'.pool p.chunk hlt
    exact ⟨Nat.le_trans (Nat.add_le_add_left hle _) hpos, hp.pos_le, hp.end_le,
      hb'.inBlock hok' hlt⟩

end Dalloc

/-! ## Runs

Allocations keep the heap in order whatever the sizes are; a size that wraps gives a block that is
too small, and no more. -/

/-- What runs keep: the heap is ok, the root is there, and memory was given for every chunk. -/
def Kept (E : Env) (s : Option Heap) : Prop :=
  ∀ h, s = some h → h.Ok ∧ 0 < h.count ∧ h.Backed E

/-- A new pool is ok, also one whose size wrapped. -/
theorem Env.start_kept (E : Env) (junk : Nat → Nat → UInt8) (size : Nat) (cf : UInt32) :
    Kept E (E.start junk size cf) := by
  intro h hs
  obtain ⟨hgives, hnew⟩ := E.start_created hs
  obtain ⟨hlinked, hroot⟩ := E.start_sound junk size cf h hs
  have hcount : h.count = 1 := hnew.count
  have hzero : ∀ i < h.count, i = 0 := by omega
  have hflags : (h.pool 0).cf = cf := hnew.flags
  have hpos : (h.pool 0).pos = newPos cf := hnew.pos
  have hend : (h.pool 0).endPos = newEnd size cf := hnew.endPos
  have hsize : (h.pool 0).size = newEnd size cf := hnew.size
  refine ⟨⟨fun i hi => ?_, hlinked.child, hlinked.current⟩, hroot, fun hs i hi => ?_⟩ <;>
    obtain rfl := hzero i hi
  on_goal 2 =>
    have hmem := hgives.2.2
    rw [hflags] at hs
    rw [if_neg (not_not.mpr hs), ← hsize] at hmem
    exact hmem
  have hround : ∃ x, newEnd size cf = memAlign x := by
    rw [newEnd]
    split
    · exact ⟨_, rfl⟩
    · exact ⟨_, rfl⟩
  obtain ⟨x, hx⟩ := hround
  refine ⟨?_, by rw [hend, hsize], by rw [hsize, hx]; exact memAlign_add_lt x⟩
  -- sixteen bytes at least, and the reference count takes eight
  have hdvd : 2 ^ 4 ∣ newEnd size cf := hx ▸ dvd_memAlignN (k := 4) (by decide) x
  have hsixteen := Nat.le_of_dvd (Nat.pos_of_ne_zero hgives.2.1) hdvd
  have height : newPos cf ≤ 8 := by
    rw [newPos]
    split <;> omega
  rw [hpos, hend]
  omega

theorem Kept.step {E : Env} {s : Option Heap} (hs : Kept E s) {r : Req}
    (hno : ¬ DallocWraps E s r) : Kept E (allocStep E s r).2 := by
  intro h' heq
  cases s with
  | none => cases heq
  | some h =>
    obtain ⟨hok, hroot, hb⟩ := hs h rfl
    have hl : h.Linked := ⟨hok.child, hok.current⟩
    cases r with
    | dalloc size alignment =>
      obtain rfl := Ret.next_some heq
      have hd := E.dallocAligned_dallocs hl hroot size alignment
      exact ⟨(hd.holds hok hroot (memAlignN_lt size alignment) (not_or.mp hno).2).1,
        Nat.lt_of_lt_of_le hroot (hd.linked hl).2, hd.backed hroot hb⟩
    | nalloc size alignment =>
      obtain rfl := Ret.next_some heq
      have hd := E.nallocAligned_nallocs hroot (hl.current 0 hroot) size alignment
      exact ⟨hd.ok hok hroot, Nat.lt_of_lt_of_le hroot (hd.linked hl).2, hd.backed hroot hb⟩

theorem dallocFull_iff_of_kept {M : Malloc} {shm : Nat → Except Err Unit} {s : Option Heap}
    (hs : Kept (M.env shm) s) {r : Req} (hr : r.Fits) :
    DallocFull M shm s r ↔ ¬ DallocWraps (M.env shm) s r := by
  cases r with
  | nalloc size alignment =>
    refine ⟨fun _ => ?_, fun _ => trivial⟩
    cases s <;> exact id
  | dalloc size alignment =>
    cases s with
    | none => exact ⟨fun _ => id, fun _ p h' hp => by cases hp⟩
    | some h =>
      obtain ⟨hok, hroot, hb⟩ := hs h rfl
      obtain ⟨⟨k, hk, rfl⟩, hsize⟩ : (∃ k < 64, alignment = 2 ^ k) ∧ size < 2 ^ 64 := hr
      exact dallocFull_iff M shm hok hroot hk hsize hb

/-- A machine of four gigabytes: a larger request is refused. -/
def Malloc.small : Malloc where
  addr n := if n ≤ 2 ^ 32 then some 4096 else none
  fits n p hp := by
    split at hp
    · obtain rfl := Option.some.inj hp
      omega
    · cases hp

end Mempool
end Inac
