import Mathlib.Algebra.BigOperators.Group.Finset.Basic
import Mathlib.Algebra.BigOperators.Intervals
import Mathlib.Algebra.Order.BigOperators.Group.Finset
import Inac.Lib.Run
import Inac.Mempool.Inv

/-!
# Runs of one pool

The caller's side of a pool is a ledger of the blocks it was handed: `nalloc` blocks stay in it
for good, `dalloc` blocks until the next `reset` or `clear`. A run is any sequence of calls on the
root of a fresh pool, with the caller writing to its blocks in between, and the ledger is kept
beside the heap so that a run's states speak of the live blocks.

`Sys.Ok` is the invariant of runs. `ralloc` is part of the machine but not of this file's results:
one of its exits breaks the invariant, and `Inac.Mempool.Ralloc` says which.
-/

namespace Inac
namespace Mempool

open Lib

/-- A pool and the blocks its caller holds. The pool is structure `0`. -/
structure Sys where
  heap : Heap
  live : List Block

/-- The system right after `ina_mempool_new(size, label, cf, &pool)`. -/
def Sys.new (junk : Nat → Nat → UInt8) (size : Nat) (cf : UInt32) : Sys :=
  ⟨(inaMempoolNew ⟨0, fun _ => default, junk⟩ size cf).2, []⟩

/-- The calls of a run. `ralloc` and `write` name a live block by its place in the ledger. -/
inductive Op where
  | dalloc (size alignment : Nat)
  | nalloc (size alignment : Nat)
  | ralloc (i oldSize newSize alignment : Nat)
  | reset
  | clear
  | write (i off : Nat) (v : UInt8)
  deriving DecidableEq, Repr

/-- What a call returns: a block, `NULL` with the error set, nothing of interest, or it never
    returns. -/
inductive Out where
  | block (s : Span Nat)
  | null (e : Err)
  | done
  | hang
  deriving DecidableEq, Repr

/-- Bytes handed out by a call. -/
def Out.len : Out → Nat
  | .block s => s.len
  | _ => 0

/-- An allocation of `size` bytes enters the ledger. -/
def Sys.serve (live : List Block) (kind : Kind) (size : Nat) : Except Err Ptr × Heap → Out × Sys
  | (.ok p, h) => (.block ⟨p.chunk, p.off, size⟩, ⟨h, ⟨kind, ⟨p.chunk, p.off, size⟩⟩ :: live⟩)
  | (.error e, h) => (.null e, ⟨h, live⟩)

/-- A resized block replaces the old one in the ledger; on `NULL` the caller keeps the old one. -/
def Sys.resize (s : Sys) (i size : Nat) : Except Err Ptr × Heap → Out × Sys
  | (.ok p, h) => Sys.serve (s.live.eraseIdx i) .dalloc size (.ok p, h)
  | (.error e, h) => (.null e, ⟨h, s.live⟩)

/-- After `reset` or `clear` only `nalloc` blocks are live. -/
def Sys.free (s : Sys) : Option Heap → Out × Sys
  | some h => (.done, ⟨h, s.live.filter fun b => b.kind = .nalloc⟩)
  | none => (.hang, s)

/-- One call on the root. -/
def step (s : Sys) : Op → Out × Sys
  | .dalloc size alignment =>
    match inaMempoolDallocAligned s.heap 0 size alignment with
    | some r => Sys.serve s.live .dalloc (memAlignN size alignment) r
    | none => (.hang, s)
  | .nalloc size alignment =>
    Sys.serve s.live .nalloc (memAlignN size alignment)
      (inaMempoolNallocAligned s.heap 0 size alignment)
  | .ralloc i oldSize newSize alignment =>
    match s.live[i]? with
    | some b =>
      s.resize i (memAlignN newSize alignment)
        (inaMempoolRallocAligned s.heap 0 ⟨b.span.region, b.span.off⟩ oldSize newSize alignment)
    | none => (.done, s)
  | .reset => s.free (inaMempoolReset s.heap 0)
  | .clear => s.free (inaMempoolClear s.heap 0)
  | .write i off v =>
    match s.live[i]? with
    | some b =>
      if off < b.span.len then
        (.done, ⟨s.heap.memSet ⟨b.span.region, b.span.off + off⟩ v 1, s.live⟩)
      else (.done, s)
    | none => (.done, s)

/-! ## The invariant of runs

The heap is ok, and the ledger is a list of blocks that are ok and apart from one another. -/

/-- The invariant: every structure and every live block is ok, and the blocks are apart. -/
structure Sys.Ok (s : Sys) : Prop where
  heap : s.heap.Ok
  root : 0 < s.heap.count
  live : ∀ b ∈ s.live, b.Ok s.heap
  apart : AllApart (s.live.map Block.span)

theorem Sys.new_ok (junk : Nat → Nat → UInt8) (size : Nat) (cf : UInt32) :
    (Sys.new junk size cf).Ok := by
  have hempty : Heap.Ok ⟨0, fun _ => default, junk⟩ :=
    ⟨fun _ hi => absurd hi (Nat.not_lt_zero _), fun _ hi => absurd hi (Nat.not_lt_zero _),
      fun _ hi => absurd hi (Nat.not_lt_zero _)⟩
  exact ⟨hempty.new size cf, Nat.one_pos, fun _ hb => absurd hb List.not_mem_nil, allApart_nil⟩

/-- The invariant survives an allocation. `live` may have lost blocks since `h`. -/
theorem Sys.Ok.serve {s : Sys} (hs : s.Ok) {live : List Block} (hsub : live.Sublist s.live)
    {kind : Kind} {size : Nat} {r : Except Err Ptr × Heap} (hr : Serves kind size s.heap r) :
    (Sys.serve live kind size r).2.Ok := by
  have hroot : 0 < r.2.count := Nat.lt_of_lt_of_le hs.root hr.grows.count
  have hlive : ∀ b ∈ live, b.Ok s.heap := fun b hb => hs.live b (hsub.subset hb)
  have hapart : AllApart (live.map Block.span) := hs.apart.sublist (hsub.map _)
  obtain ⟨res, h'⟩ := r
  cases res with
  | error e => exact ⟨hr.ok, hroot, fun b hb => (hlive b hb).grows hr.grows, hapart⟩
  | ok p =>
    have hfresh := hr.fresh p rfl
    refine ⟨hr.ok, hroot, ?_, hapart.cons ?_⟩
    · intro b hb
      rcases List.mem_cons.mp hb with rfl | hb
      · exact hfresh.ok
      · exact (hlive b hb).grows hr.grows
    · intro t ht
      obtain ⟨b, hb, rfl⟩ := List.mem_map.mp ht
      exact hfresh.apart b (hlive b hb)

theorem Sys.Ok.free {s : Sys} (hs : s.Ok) {h' : Heap} (hf : Frees s.heap h') :
    (s.free (some h')).2.Ok := by
  refine ⟨hf.ok, Nat.lt_of_lt_of_eq hs.root hf.count.symm, ?_, hs.apart.sublist (List.filter_sublist.map _)⟩
  intro b hb
  obtain ⟨hmem, hk⟩ := List.mem_filter.mp hb
  exact hf.keeps b (hs.live b hmem) (by simpa using hk)

/-! ## One call

An allocation adds a fresh block to the ledger, and `reset` and `clear` take the `dalloc` blocks
out. -/

/-- A request whose rounding wraps nowhere: neither to the alignment, a power of two, nor to the
    chunk size `ina_mempool_new` rounds a chunk of that size to. -/
def Request (size alignment : Nat) : Prop :=
  (∃ k, alignment = 2 ^ k) ∧ size + (alignment - 1) < 2 ^ 64 ∧
    memAlignN size alignment + 15 < 2 ^ 64

/-- Allocation calls. -/
def Op.Allocates : Op → Prop
  | .dalloc size alignment => Request size alignment
  | .nalloc size alignment => Request size alignment
  | _ => False

/-- Calls other than `ralloc`. -/
def Op.Plain : Op → Prop
  | .dalloc size alignment => Request size alignment
  | .nalloc size alignment => Request size alignment
  | .reset => True
  | .clear => True
  | _ => False

theorem step_dalloc {s : Sys} (hs : s.Ok) {size alignment : Nat} (hr : Request size alignment) :
    ∃ r, Serves .dalloc (memAlignN size alignment) s.heap r ∧
      inaMempoolDallocAligned s.heap 0 size alignment = some r ∧
      step s (.dalloc size alignment) = Sys.serve s.live .dalloc (memAlignN size alignment) r := by
  obtain ⟨r, heq, hserves⟩ := inaMempoolDallocAligned_serves hs.heap hs.root hr.2.2
  exact ⟨r, hserves, heq, by rw [step, heq]⟩

theorem Sys.serve_ne_hang (live : List Block) (kind : Kind) (size : Nat)
    (r : Except Err Ptr × Heap) : (Sys.serve live kind size r).1 ≠ .hang := by
  obtain ⟨_ | _, h'⟩ := r <;> exact Out.noConfusion

/-- **One call** that is not `ralloc` keeps the invariant and returns. -/
theorem step_ok {s : Sys} (hs : s.Ok) (op : Op) (hop : op.Plain) :
    (step s op).2.Ok ∧ (step s op).1 ≠ .hang := by
  cases op with
  | dalloc size alignment =>
    obtain ⟨r, hserves, -, hstep⟩ := step_dalloc hs hop
    rw [hstep]
    exact ⟨hs.serve (List.Sublist.refl _) hserves, Sys.serve_ne_hang _ _ _ _⟩
  | nalloc size alignment =>
    exact ⟨hs.serve (List.Sublist.refl _) (inaMempoolNallocAligned_serves hs.heap hs.root hop.2.2),
      Sys.serve_ne_hang _ _ _ _⟩
  | reset =>
    obtain ⟨h', heq, hf⟩ := inaMempoolReset_frees hs.heap hs.root
    simp only [step, heq]
    exact ⟨hs.free hf, by simp [Sys.free]⟩
  | clear =>
    obtain ⟨h', heq, hf⟩ := inaMempoolClear_frees hs.heap hs.root
    simp only [step, heq]
    exact ⟨hs.free hf, by simp [Sys.free]⟩
  | ralloc i oldSize newSize alignment => exact hop.elim
  | write i off v => exact hop.elim

/-! ## What `ina_mempool_info` reports

Before the first `reset` the chain runs through all structures in the order of their allocation
and `current` is its last one, so no chunk is skipped by the sums and none is lost. After a
`reset` an `nalloc` that does not fit cuts the rest of the chain off. -/

/-- What a chunk adds to `used`. -/
def Pool.used (p : Pool) : Nat := p.pos + (p.size - p.endPos)

/-- Bytes taken, over all structures. -/
def Heap.used (h : Heap) : Nat := ∑ i ∈ Finset.range h.count, (h.pool i).used

/-- Chunk sizes, over all structures. -/
def Heap.total (h : Heap) : Nat := ∑ i ∈ Finset.range h.count, (h.pool i).size

/-- Every structure's child is the next one, and the last is current. -/
structure Heap.Linear (h : Heap) : Prop where
  child : ∀ i < h.count, (h.pool i).child = if i + 1 < h.count then some (i + 1) else none
  current : (h.pool 0).current + 1 = h.count

theorem infoLoop_linear {h : Heap} (hl : h.Linear) :
    ∀ (fuel i : Nat) (info : Info), i < h.count → h.count ≤ fuel + i →
      infoLoop h fuel (some i) info = some
        { size := info.size + ∑ j ∈ Finset.Ico i h.count, (h.pool j).size
          used := info.used + ∑ j ∈ Finset.Ico i h.count, (h.pool j).used
          children := info.children + (h.count - i)
          cf := info.cf } := by
  intro fuel
  induction fuel with
  | zero => intro i info hi hfuel; omega
  | succ fuel ih =>
    intro i info hi hfuel
    rw [infoLoop, hl.child i hi, Finset.sum_eq_sum_Ico_succ_bot hi, Finset.sum_eq_sum_Ico_succ_bot hi]
    by_cases hnext : i + 1 < h.count
    · rw [if_pos hnext, ih (i + 1) _ hnext (by omega)]
      simp only [Pool.used, Option.some.injEq, Info.mk.injEq]
      refine ⟨?_, ?_, ?_, trivial⟩ <;> omega
    · rw [if_neg hnext, Finset.Ico_eq_empty (by omega), infoLoop]
      simp only [Pool.used, Finset.sum_empty, Option.some.injEq, Info.mk.injEq]
      refine ⟨?_, ?_, ?_, trivial⟩ <;> omega

/-- **`ina_mempool_info`** on an unbroken chain reports the sums over all chunks. -/
theorem inaMempoolInfo_linear {h : Heap} (hl : h.Linear) :
    inaMempoolInfo h 0 = some ⟨h.total, h.used, h.count - 1, (h.pool 0).cf⟩ := by
  have hroot : 0 < h.count := by have := hl.current; omega
  rw [inaMempoolInfo, infoLoop_linear hl h.count 0 _ hroot (Nat.le_refl _)]
  simp [Heap.total, Heap.used]

theorem Heap.sum_modify {h : Heap} {c : Nat} (hc : c < h.count) (f : Pool → Pool) (g : Pool → Nat) :
    (∑ i ∈ Finset.range h.count, g ((h.modify c f).pool i)) + g (h.pool c) =
      (∑ i ∈ Finset.range h.count, g (h.pool i)) + g (f (h.pool c)) := by
  have hmem : c ∈ Finset.range h.count := Finset.mem_range.mpr hc
  have hrest : ∑ i ∈ (Finset.range h.count).erase c, g ((h.modify c f).pool i) =
      ∑ i ∈ (Finset.range h.count).erase c, g (h.pool i) :=
    Finset.sum_congr rfl fun i hi => by rw [Heap.modify_pool_ne h f (Finset.ne_of_mem_erase hi)]
  rw [← Finset.add_sum_erase _ _ hmem, ← Finset.add_sum_erase _ _ hmem, hrest,
    Heap.modify_pool_self]
  omega

/-- An allocation on an unbroken chain leaves it unbroken, and `used` has grown by what it
    handed out. -/
structure Books (size : Nat) (h : Heap) (r : Except Err Ptr × Heap) : Prop where
  linear : r.2.Linear
  used : r.2.used = h.used + (match r.1 with | .ok _ => size | .error _ => 0)

theorem Heap.Linear.modify {h : Heap} (hl : h.Linear) {i : Nat} {f : Pool → Pool}
    (hchild : (f (h.pool i)).child = (h.pool i).child)
    (hcur : (f (h.pool i)).current = (h.pool i).current) : (h.modify i f).Linear where
  child j hj := Heap.modify_forall
    (P := fun j p => p.child = if j + 1 < h.count then some (j + 1) else none)
    (fun hp => hchild.trans hp) (hl.child j hj)
  current := Heap.modify_forall (P := fun j p => j = 0 → p.current + 1 = h.count)
    (fun hp hi => by rw [hcur]; exact hp hi) (fun _ => hl.current) rfl

theorem takeFront_books {h : Heap} (hok : h.Ok) (hl : h.Linear) {size c : Nat}
    (hcur : (h.pool 0).current = c) (hfit : (h.pool c).pos + size ≤ (h.pool c).endPos) :
    Books size h (takeFront h 0 size) := by
  have hc : c < h.count := by have := hl.current; omega
  have hp := hok.pool c hc
  have hlt := hp.size_lt
  have hsum : addSz (h.pool c).pos size = (h.pool c).pos + size :=
    addSz_of_lt (by have := hp.end_le; omega)
  subst hcur
  constructor
  · simp only [takeFront]
    exact hl.modify rfl rfl
  · have hmod := Heap.sum_modify hc (fun q => { q with pos := addSz q.pos size }) Pool.used
    simp only [Pool.used, hsum] at hmod
    simp only [takeFront, Heap.used, Pool.used, Heap.modify_count]
    omega

theorem takeBack_books {h : Heap} (hok : h.Ok) (hl : h.Linear) {size c : Nat}
    (hcur : (h.pool 0).current = c) (hfit : (h.pool c).pos + size ≤ (h.pool c).endPos) :
    Books size h (takeBack h 0 size) := by
  have hc : c < h.count := by have := hl.current; omega
  have hp := hok.pool c hc
  have hend := hp.end_le
  have hlt := hp.size_lt
  have hdiff : subSz (h.pool c).endPos size = (h.pool c).endPos - size :=
    subSz_of_le (by omega) (by omega)
  subst hcur
  constructor
  · simp only [takeBack]
    exact hl.modify rfl rfl
  · have hmod := Heap.sum_modify hc (fun q => { q with endPos := subSz q.endPos size }) Pool.used
    simp only [Pool.used, hdiff] at hmod
    simp only [takeBack, Heap.used, Pool.used, Heap.modify_count]
    omega

theorem addChunk_linear {h : Heap} (hl : h.Linear) (size : Nat) :
    (addChunk h 0 size).Linear := by
  have hcur := hl.current
  have hcount : (addChunk h 0 size).count = h.count + 1 := rfl
  refine ⟨fun i hi => ?_, ?_⟩
  · rw [hcount] at hi ⊢
    rcases Nat.lt_succ_iff_lt_or_eq.mp hi with hi | rfl
    · rw [addChunk_pool hi, if_pos (Nat.succ_lt_succ hi)]
      by_cases hlast : i = (h.pool 0).current
      · simp only [if_pos hlast]
        rw [hlast, hcur]
      · simp only [if_neg hlast, hl.child i hi]
        exact if_pos (by omega)
    · rw [if_neg (Nat.lt_irrefl _)]
      exact (addChunk_last size (by omega) (by omega)).2.2.2
  · rw [addChunk_pool (by omega), hcount]
    simp

theorem addChunk_used {h : Heap} (hl : h.Linear) (size : Nat) :
    (addChunk h 0 size).used = h.used := by
  have hcur := hl.current
  have hlast : (h.pool 0).current < h.count := by omega
  have hold : ∑ i ∈ Finset.range h.count, ((addChunk h 0 size).pool i).used = h.used :=
    Finset.sum_congr rfl fun i hi => by
      rw [addChunk_pool (Finset.mem_range.mp hi)]; rfl
  obtain ⟨hpos, hend, hsize, -⟩ := addChunk_last size (Nat.zero_lt_of_lt hlast) hlast
  rw [Heap.used, show (addChunk h 0 size).count = h.count + 1 from rfl, Finset.sum_range_succ,
    hold, Pool.used, hpos, hend, hsize, Nat.sub_self]
  rfl

theorem Books.after_addChunk {h : Heap} (hl : h.Linear) {size : Nat} {r : Except Err Ptr × Heap}
    (hr : Books size (addChunk h 0 size) r) : Books size h r :=
  ⟨hr.linear, by rw [hr.used, addChunk_used hl]⟩

theorem inaMempoolDallocAligned_books {h : Heap} (hok : h.Ok) (hl : h.Linear)
    {size alignment : Nat} (hsize : memAlignN size alignment + 15 < 2 ^ 64)
    {r : Except Err Ptr × Heap} (hr : inaMempoolDallocAligned h 0 size alignment = some r) :
    Books (memAlignN size alignment) h r := by
  have hcur := hl.current
  have hlast : (h.pool 0).current < h.count := by omega
  have hp := hok.pool _ hlast
  have hlt := hp.size_lt
  have hfull := Pool.full_iff (memAlignN size alignment) hp.pos_le
    (Nat.lt_of_le_of_lt hp.end_le (by omega)) (by omega)
  have hchild : (h.pool (h.pool 0).current).child = none := by
    rw [hl.child _ hlast, if_neg (by omega)]
  rw [inaMempoolDallocAligned, ← hcur, dallocRetry] at hr
  by_cases hf : (h.pool (h.pool 0).current).Full (memAlignN size alignment)
  · by_cases hdyn : (h.pool 0).cf &&& memDynamic ≠ 0
    · simp only [if_pos hf, if_pos hdyn, hchild, Option.some.injEq] at hr
      have hadd := addChunk_adds hok (Nat.zero_lt_of_lt hlast) hsize
      subst hr
      refine (takeFront_books hadd.ok (addChunk_linear hl _) hadd.current ?_).after_addChunk hl
      rw [hadd.pos, Nat.zero_add]; exact hadd.fits
    · simp only [if_pos hf, if_neg hdyn, Option.some.injEq] at hr
      subst hr
      exact ⟨hl, rfl⟩
  · simp only [if_neg hf, Option.some.injEq] at hr
    subst hr
    exact takeFront_books hok hl rfl (Nat.le_of_not_lt fun hlt => hf (hfull.mpr hlt))

theorem inaMempoolNallocAligned_books {h : Heap} (hok : h.Ok) (hl : h.Linear)
    {size alignment : Nat} (hsize : memAlignN size alignment + 15 < 2 ^ 64) :
    Books (memAlignN size alignment) h (inaMempoolNallocAligned h 0 size alignment) := by
  have hcur := hl.current
  have hlast : (h.pool 0).current < h.count := by omega
  have hp := hok.pool _ hlast
  have hlt := hp.size_lt
  have hfull := Pool.full_iff (memAlignN size alignment) hp.pos_le
    (Nat.lt_of_le_of_lt hp.end_le (by omega)) (by omega)
  unfold inaMempoolNallocAligned
  by_cases hbogus : (h.pool 0).endPos < memAlignN size alignment
  · simp only [if_pos hbogus]
    exact ⟨hl, rfl⟩
  · simp only [if_neg hbogus]
    by_cases hf : (h.pool (h.pool 0).current).Full (memAlignN size alignment)
    · rw [if_pos hf]
      by_cases hdyn : (h.pool 0).cf &&& memDynamic ≠ 0
      · rw [if_pos hdyn]
        have hadd := addChunk_adds hok (Nat.zero_lt_of_lt hlast) hsize
        refine (takeBack_books hadd.ok (addChunk_linear hl _) hadd.current ?_).after_addChunk hl
        rw [hadd.pos, Nat.zero_add]; exact hadd.fits
      · rw [if_neg hdyn]
        exact ⟨hl, rfl⟩
    · rw [if_neg hf]
      exact takeBack_books hok hl rfl (Nat.le_of_not_lt fun hlt => hf (hfull.mpr hlt))

/-! ## Runs -/

theorem Sys.new_linear (junk : Nat → Nat → UInt8) (size : Nat) (cf : UInt32) :
    (Sys.new junk size cf).heap.Linear ∧ (Sys.new junk size cf).heap.used = 0 := by
  obtain ⟨hpos, hend, hsize, hcur, hchild⟩ :=
    inaMempoolNew_pool ⟨0, fun _ => default, junk⟩ size cf
  have hcount : (Sys.new junk size cf).heap.count = 1 := rfl
  refine ⟨⟨fun i hi => ?_, ?_⟩, ?_⟩
  · rw [hcount] at hi ⊢
    obtain rfl : i = 0 := by omega
    exact hchild
  · rw [hcount]
    exact congrArg (· + 1) hcur
  · rw [Heap.used, hcount, Finset.sum_range_one, Pool.used]
    show ((inaMempoolNew ⟨0, fun _ => default, junk⟩ size cf).2.pool 0).pos + _ = 0
    rw [hpos]
    show 0 + (((inaMempoolNew ⟨0, fun _ => default, junk⟩ size cf).2.pool 0).size -
      ((inaMempoolNew ⟨0, fun _ => default, junk⟩ size cf).2.pool 0).endPos) = 0
    rw [hend, hsize, Nat.sub_self]

/-- The ledger's side of `Books`: what a call hands out is what `used` grows by. -/
theorem Books.serve {size : Nat} {h : Heap} {r : Except Err Ptr × Heap} (hr : Books size h r)
    (live : List Block) (kind : Kind) :
    (Sys.serve live kind size r).2.heap.Linear ∧
      (Sys.serve live kind size r).2.heap.used =
        h.used + (Sys.serve live kind size r).1.len := by
  obtain ⟨_ | p, h'⟩ := r <;> exact ⟨hr.linear, hr.used⟩

theorem step_books {s : Sys} (hs : s.Ok) (hl : s.heap.Linear) {op : Op} (hop : op.Allocates) :
    (step s op).2.heap.Linear ∧
      (step s op).2.heap.used = s.heap.used + (step s op).1.len := by
  cases op with
  | dalloc size alignment =>
    obtain ⟨r, -, heq, hstep⟩ := step_dalloc hs hop
    rw [hstep]
    exact (inaMempoolDallocAligned_books hs.heap hl hop.2.2 heq).serve ..
  | nalloc size alignment =>
    exact (inaMempoolNallocAligned_books hs.heap hl hop.2.2).serve ..
  | reset => exact hop.elim
  | clear => exact hop.elim
  | ralloc i oldSize newSize alignment => exact hop.elim
  | write i off v => exact hop.elim

theorem Op.Allocates.plain {op : Op} (h : op.Allocates) : op.Plain := by
  cases op with
  | dalloc size alignment => exact h
  | nalloc size alignment => exact h
  | _ => exact h.elim

theorem run_books {ops : List Op} (hops : ∀ op ∈ ops, op.Allocates) {s : Sys} (hs : s.Ok)
    (hl : s.heap.Linear) :
    (exec step s ops).heap.Linear ∧
      (exec step s ops).heap.used = s.heap.used + ((outs step s ops).map Out.len).sum := by
  induction ops generalizing s with
  | nil => exact ⟨hl, rfl⟩
  | cons op ops ih =>
    have hop := hops op List.mem_cons_self
    obtain ⟨hl', hused⟩ := step_books hs hl hop
    obtain ⟨hlast, hsum⟩ := ih (fun o ho => hops o (List.mem_cons_of_mem op ho))
      (step_ok hs op hop.plain).1 hl'
    refine ⟨hlast, ?_⟩
    rw [exec_cons, hsum, hused, outs, List.map_cons, List.sum_cons, Nat.add_assoc]

/-- What a caller of the pool relies on: `pos ≤ end ≤ size` in every chunk, every live block
    wholly inside one chunk, and no byte in two live blocks. -/
structure Sys.Safe (s : Sys) : Prop where
  bounds : ∀ i < s.heap.count,
    (s.heap.pool i).pos ≤ (s.heap.pool i).endPos ∧ (s.heap.pool i).endPos ≤ (s.heap.pool i).size
  inside : ∀ b ∈ s.live, b.Inside s.heap
  apart : AllApart (s.live.map Block.span)

theorem Sys.Ok.safe {s : Sys} (hs : s.Ok) : s.Safe :=
  ⟨fun i hi => ⟨(hs.heap.pool i hi).pos_le, (hs.heap.pool i hi).end_le⟩,
    fun b hb => (hs.live b hb).inside, hs.apart⟩

/-- **A pool hands out disjoint blocks.** In every run of `dalloc`, `nalloc`, `reset` and `clear`
    on a new pool every call returns and every state is safe; and after a run of allocations
    alone, `ina_mempool_info` reports as used what the run handed out, and as size the sum of the
    chunk sizes. -/
theorem pool_runs_safe (junk : Nat → Nat → UInt8) (size : Nat) (cf : UInt32) {ops : List Op}
    (hops : ∀ op ∈ ops, op.Plain) :
    (∀ o ∈ outs step (Sys.new junk size cf) ops, o ≠ .hang) ∧
    Always step Sys.Safe (Sys.new junk size cf) ops ∧
    ((∀ op ∈ ops, op.Allocates) →
      ∃ info, inaMempoolInfo (exec step (Sys.new junk size cf) ops).heap 0 = some info ∧
        info.used = ((outs step (Sys.new junk size cf) ops).map Out.len).sum ∧
        info.size = (exec step (Sys.new junk size cf) ops).heap.total) := by
  have hnew := Sys.new_ok junk size cf
  refine ⟨outs_forall (I := Sys.Ok) (fun s op hop hs => step_ok hs op hop) hops hnew, ?_, ?_⟩
  · intro pre hpre
    have hpre' : ∀ op ∈ pre, op.Plain := fun op hop => hops op (hpre.subset hop)
    have hok : (exec step (Sys.new junk size cf) pre).Ok :=
      exec_invariant (I := Sys.Ok) (fun s op hop hs => (step_ok hs op hop).1) hpre' hnew
    exact hok.safe
  · intro halloc
    obtain ⟨hl, hzero⟩ := Sys.new_linear junk size cf
    obtain ⟨hlin, hused⟩ := run_books halloc hnew hl
    refine ⟨_, inaMempoolInfo_linear hlin, ?_, rfl⟩
    show (exec step (Sys.new junk size cf) ops).heap.used = _
    rw [hused, hzero, Nat.zero_add]

/-- A dynamic pool of the least size, and a run that grows it twice and resets it. -/
theorem pool_runs_safe_grown :
    Always step Sys.Safe (Sys.new (fun _ _ => 0) 1024 memDynamic)
      [.dalloc 1000 16, .nalloc 600 16, .reset, .dalloc 1024 8] := by
  have hreq : ∀ op ∈ [Op.dalloc 1000 16, .nalloc 600 16, .reset, .dalloc 1024 8], op.Plain := by
    intro op hop
    simp only [List.mem_cons, List.not_mem_nil, or_false] at hop
    rcases hop with rfl | rfl | rfl | rfl
    · exact ⟨⟨4, rfl⟩, by decide, by decide⟩
    · exact ⟨⟨4, rfl⟩, by decide, by decide⟩
    · exact trivial
    · exact ⟨⟨3, rfl⟩, by decide, by decide⟩
  exact (pool_runs_safe (fun _ _ => 0) 1024 memDynamic hreq).2.1

end Mempool
end Inac
