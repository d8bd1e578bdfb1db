import Mathlib.Data.Nat.Bitwise
import Inac.Mempool.Defs

/-!
# The pool invariant, and one step of each operation

`Heap.Ok` says what every structure keeps: `pos ≤ end ≤ size`, and `child` pointing forward in
allocation order, which is why every walk over a chain ends. `Block.Ok` says where a live block
stands: a `dalloc` block below its chunk's `pos`, an `nalloc` block above its `end`. Only this and
`pos ≤ end` keep blocks from either side apart, and a block that is not empty needs no more.

No allocation moves `pos` down or `end` up (`Heap.Grows`), so what held of a block keeps holding,
and each allocation has one thing to prove: its own block is new (`Fresh`).
-/

namespace Inac
namespace Mempool

open Lib

/-! ## `size_t` without wrap

The invariant keeps every place in a chunk fifteen below the end of `size_t`, so the sums of the
allocators are those of numbers. -/

theorem addSz_of_lt {a b : Nat} (h : a + b < 2 ^ 64) : addSz a b = a + b := Nat.mod_eq_of_lt h

theorem subSz_of_le {a b : Nat} (hab : b ≤ a) (ha : a < 2 ^ 64) : subSz a b = a - b := by
  have hsum : a + (2 ^ 64 - b) = (a - b) + 2 ^ 64 := by omega
  rw [subSz, hsum, Nat.add_mod_right, Nat.mod_eq_of_lt (by omega)]

/-- A mask without its low bits rounds down. -/
theorem and_high_mask {x k : Nat} (hx : x < 2 ^ 64) (hk : k ≤ 64) :
    x &&& (2 ^ 64 - 1 - (2 ^ k - 1)) = x / 2 ^ k * 2 ^ k := by
  have hmask : 2 ^ 64 - 1 - (2 ^ k - 1) = (2 ^ (64 - k) - 1) * 2 ^ k := by
    have hpow : 2 ^ 64 = 2 ^ (64 - k) * 2 ^ k := by rw [← Nat.pow_add, Nat.sub_add_cancel hk]
    have hpos : 0 < 2 ^ k := Nat.two_pow_pos k
    rw [Nat.sub_mul, ← hpow, Nat.one_mul]
    omega
  apply Nat.eq_of_testBit_eq
  intro j
  rw [hmask, Nat.testBit_and, Nat.testBit_mul_two_pow, Nat.testBit_mul_two_pow,
    Nat.testBit_two_pow_sub_one, Nat.testBit_div_two_pow]
  by_cases hkj : k ≤ j
  · rw [Nat.sub_add_cancel hkj]
    by_cases hj : j < 64
    · simp [hkj, show j - k < 64 - k by omega]
    · have hbit : x.testBit j = false :=
        Nat.testBit_lt_two_pow (Nat.lt_of_lt_of_le hx (Nat.pow_le_pow_right (by omega) (by omega)))
      simp [hbit]
  · simp [hkj]

/-- **`INA_MEM_ALIGN_N` rounds up** to a multiple of a power of two, when it does not wrap. -/
theorem memAlignN_eq {n k : Nat} (h : n + (2 ^ k - 1) < 2 ^ 64) :
    memAlignN n (2 ^ k) = (n + (2 ^ k - 1)) / 2 ^ k * 2 ^ k := by
  have hk : k ≤ 64 := by
    by_contra hc
    have := Nat.pow_le_pow_right (n := 2) (by omega) (show 65 ≤ k by omega)
    omega
  rw [memAlignN, addSz_of_lt h, and_high_mask h hk]

/-- Rounding up does not make less of a size, as long as the sum does not wrap. -/
theorem le_memAlignN {n k : Nat} (h : n + (2 ^ k - 1) < 2 ^ 64) : n ≤ memAlignN n (2 ^ k) := by
  have hpos : 0 < 2 ^ k := Nat.two_pow_pos k
  have hdiv := Nat.div_add_mod (n + (2 ^ k - 1)) (2 ^ k)
  have hmod := Nat.mod_lt (n + (2 ^ k - 1)) hpos
  rw [memAlignN_eq h, Nat.mul_comm]
  omega

theorem memAlign_add_lt (n : Nat) : memAlign n + 15 < 2 ^ 64 := by
  have hle : memAlign n ≤ 2 ^ 64 - 1 - (memAlignSize - 1) := Nat.and_le_right
  have hmask : 2 ^ 64 - 1 - (memAlignSize - 1) = 2 ^ 64 - 16 := rfl
  omega

theorem le_memAlign {n : Nat} (h : n + 15 < 2 ^ 64) : n ≤ memAlign n :=
  le_memAlignN (k := 4) h

/-- The test for room, without the subtraction. -/
theorem Pool.full_iff {c : Pool} (size : Nat) (hpos : c.pos ≤ c.endPos)
    (hend : c.endPos < 2 ^ 64) (hsize : size < 2 ^ 64) : c.Full size ↔ c.endPos < c.pos + size := by
  unfold Pool.Full
  by_cases hwrap : c.pos + size < 2 ^ 64
  · rw [addSz_of_lt hwrap]
    omega
  · -- a wrapped sum is below `pos`, which the second half of the test catches
    have hsum : addSz c.pos size = c.pos + size - 2 ^ 64 := by
      rw [addSz, Nat.mod_eq_sub_mod (by omega), Nat.mod_eq_of_lt (by omega)]
    rw [hsum]
    omega

/-! ## Assignments to one structure

The simp set of the module. -/

@[simp] theorem Heap.modify_count (h : Heap) (i : Nat) (f : Pool → Pool) :
    (h.modify i f).count = h.count := rfl

@[simp] theorem Heap.modify_pool_self (h : Heap) (i : Nat) (f : Pool → Pool) :
    (h.modify i f).pool i = f (h.pool i) := Function.update_self ..

theorem Heap.modify_pool (h : Heap) (i j : Nat) (f : Pool → Pool) :
    (h.modify i f).pool j = if j = i then f (h.pool j) else h.pool j := by
  by_cases hij : j = i
  · rw [if_pos hij, hij, Heap.modify_pool_self]
  · rw [if_neg hij]; exact Function.update_of_ne hij ..

theorem Heap.modify_pool_ne (h : Heap) {i j : Nat} (f : Pool → Pool) (hij : j ≠ i) :
    (h.modify i f).pool j = h.pool j := Function.update_of_ne hij ..

/-- What one assignment preserves for its structure holds of all. -/
theorem Heap.modify_forall {h : Heap} {i : Nat} {f : Pool → Pool} {P : Nat → Pool → Prop}
    (hf : P i (h.pool i) → P i (f (h.pool i))) {j : Nat} (hj : P j (h.pool j)) :
    P j ((h.modify i f).pool j) := by
  by_cases hij : j = i
  · subst hij
    rw [Heap.modify_pool_self]
    exact hf hj
  · rw [Heap.modify_pool_ne h f hij]
    exact hj

/-! ## The invariant -/

/-- What holds of a structure by itself. A chunk's size is a multiple of sixteen, so it stays
    fifteen below the end of `size_t`. -/
structure Pool.Ok (p : Pool) : Prop where
  pos_le : p.pos ≤ p.endPos
  end_le : p.endPos ≤ p.size
  size_lt : p.size + 15 < 2 ^ 64

/-- What holds of the heap: every structure is ok, children come later, and `current` is a
    structure. -/
structure Heap.Ok (h : Heap) : Prop where
  pool : ∀ i < h.count, (h.pool i).Ok
  child : ∀ i < h.count, ∀ c, (h.pool i).child = some c → i < c ∧ c < h.count
  current : ∀ i < h.count, (h.pool i).current < h.count

/-- Which side of a chunk a block was taken from. -/
inductive Kind where
  | dalloc
  | nalloc
  deriving DecidableEq, Repr

/-- A block handed out: its side, and its bytes. -/
structure Block where
  kind : Kind
  span : Span Nat
  deriving DecidableEq, Repr

/-- The side of the chunk a block that is not empty stands on. -/
def Block.Beside (b : Block) (p : Pool) : Prop :=
  match b.kind with
  | .dalloc => b.span.off + b.span.len ≤ p.pos
  | .nalloc => p.endPos ≤ b.span.off

/-- The block lies wholly inside one chunk. -/
def Block.Inside (h : Heap) (b : Block) : Prop :=
  b.span.region < h.count ∧ b.span.off + b.span.len ≤ (h.pool b.span.region).size

/-- What holds of a live block. -/
structure Block.Ok (h : Heap) (b : Block) : Prop where
  inside : b.Inside h
  beside : b.span.len = 0 ∨ b.Beside (h.pool b.span.region)

/-- What no allocation undoes: structures stay, sizes are fixed, `pos` grows and `end` shrinks. -/
structure Heap.Grows (h h' : Heap) : Prop where
  count : h.count ≤ h'.count
  size : ∀ i < h.count, (h'.pool i).size = (h.pool i).size
  pos : ∀ i < h.count, (h.pool i).pos ≤ (h'.pool i).pos
  endPos : ∀ i < h.count, (h'.pool i).endPos ≤ (h.pool i).endPos

theorem Heap.Grows.refl (h : Heap) : h.Grows h :=
  ⟨Nat.le_refl _, fun _ _ => rfl, fun _ _ => Nat.le_refl _, fun _ _ => Nat.le_refl _⟩

theorem Heap.Grows.trans {h h' h'' : Heap} (h₁ : h.Grows h') (h₂ : h'.Grows h'') :
    h.Grows h'' where
  count := Nat.le_trans h₁.count h₂.count
  size i hi := (h₂.size i (Nat.lt_of_lt_of_le hi h₁.count)).trans (h₁.size i hi)
  pos i hi := Nat.le_trans (h₁.pos i hi) (h₂.pos i (Nat.lt_of_lt_of_le hi h₁.count))
  endPos i hi := Nat.le_trans (h₂.endPos i (Nat.lt_of_lt_of_le hi h₁.count)) (h₁.endPos i hi)

/-- An assignment that only takes from a structure. -/
theorem Heap.Grows.modify {h : Heap} {i : Nat} {f : Pool → Pool}
    (hsize : (f (h.pool i)).size = (h.pool i).size) (hpos : (h.pool i).pos ≤ (f (h.pool i)).pos)
    (hend : (f (h.pool i)).endPos ≤ (h.pool i).endPos) : h.Grows (h.modify i f) where
  count := Nat.le_refl _
  size _ _ := Heap.modify_forall (P := fun j p => p.size = (h.pool j).size) (fun _ => hsize) rfl
  pos _ _ := Heap.modify_forall (P := fun j p => (h.pool j).pos ≤ p.pos) (fun _ => hpos)
    (Nat.le_refl _)
  endPos _ _ := Heap.modify_forall (P := fun j p => p.endPos ≤ (h.pool j).endPos) (fun _ => hend)
    (Nat.le_refl _)

/-- A block stays inside, whatever is allocated behind it. -/
theorem Block.Inside.grows {h h' : Heap} {b : Block} (hb : b.Inside h) (hg : h.Grows h') :
    b.Inside h' :=
  ⟨Nat.lt_of_lt_of_le hb.1 hg.count, by rw [hg.size _ hb.1]; exact hb.2⟩

/-- And it stays beside what is free. -/
theorem Block.Ok.grows {h h' : Heap} {b : Block} (hb : b.Ok h) (hg : h.Grows h') : b.Ok h' := by
  refine ⟨hb.inside.grows hg, hb.beside.imp_right fun hside => ?_⟩
  have hpos := hg.pos _ hb.inside.1
  have hend := hg.endPos _ hb.inside.1
  unfold Block.Beside at hside ⊢
  cases hk : b.kind with
  | dalloc => rw [hk] at hside; exact Nat.le_trans hside hpos
  | nalloc => rw [hk] at hside; exact Nat.le_trans hend hside

/-! ## Apart from every live block -/

/-- Bytes between `pos` and `end` belong to no live block. -/
theorem Block.Ok.apart_free {h : Heap} {b : Block} (hb : b.Ok h) {s : Span Nat}
    (hlo : (h.pool s.region).pos ≤ s.off)
    (hhi : s.off + s.len ≤ (h.pool s.region).endPos) : s.Apart b.span := by
  rw [Span.apart_iff]
  by_cases hr : s.region = b.span.region
  · rcases hb.beside with hlen | hside
    · exact Or.inr (Or.inr (Or.inl hlen))
    · unfold Block.Beside at hside
      rw [hr] at hlo hhi
      cases hk : b.kind with
      | dalloc => rw [hk] at hside; exact Or.inr (Or.inr (Or.inr (Or.inr (by omega))))
      | nalloc => rw [hk] at hside; exact Or.inr (Or.inr (Or.inr (Or.inl (by omega))))
  · exact Or.inl hr

/-- A block that was not there before: it is a live block now, apart from all earlier ones. -/
structure Fresh (kind : Kind) (h h' : Heap) (s : Span Nat) : Prop where
  ok : Block.Ok h' ⟨kind, s⟩
  apart : ∀ b : Block, b.Ok h → s.Apart b.span

/-- **What an allocation does**: it keeps the invariant, undoes nothing, and the block it returns,
    if it returns one, is fresh. -/
structure Serves (kind : Kind) (size : Nat) (h : Heap) (r : Except Err Ptr × Heap) : Prop where
  ok : r.2.Ok
  grows : h.Grows r.2
  fresh : ∀ p, r.1 = .ok p → Fresh kind h r.2 ⟨p.chunk, p.off, size⟩

/-- A request that fails has changed nothing. -/
theorem Serves.error {kind : Kind} {size : Nat} {h : Heap} (hok : h.Ok) (e : Err) :
    Serves kind size h (.error e, h) :=
  ⟨hok, Heap.Grows.refl h, fun _ hp => by simp at hp⟩

/-- It may be served after other steps that only take memory. -/
theorem Serves.after {kind : Kind} {size : Nat} {h h' : Heap} {r : Except Err Ptr × Heap}
    (hg : h.Grows h') (hr : Serves kind size h' r) : Serves kind size h r :=
  ⟨hr.ok, hg.trans hr.grows, fun p hp =>
    ⟨(hr.fresh p hp).ok, fun b hb => (hr.fresh p hp).apart b (hb.grows hg)⟩⟩

/-! ## Taking from either side -/

/-- An assignment to one structure keeps the invariant when it keeps what the invariant says of
    that structure. -/
theorem Heap.Ok.modify {h : Heap} (hok : h.Ok) {i : Nat} {f : Pool → Pool}
    (hf : (h.pool i).Ok → (f (h.pool i)).Ok)
    (hchild : ∀ c, (f (h.pool i)).child = some c →
      (h.pool i).child = some c ∨ i < c ∧ c < h.count)
    (hcur : (f (h.pool i)).current = (h.pool i).current ∨ (f (h.pool i)).current < h.count) :
    (h.modify i f).Ok where
  pool j hj := Heap.modify_forall (P := fun _ p => p.Ok) hf (hok.pool j hj)
  child j hj := Heap.modify_forall
    (P := fun j p => ∀ c, p.child = some c → j < c ∧ c < h.count)
    (fun hp c hc => (hchild c hc).elim (hp c) id) (hok.child j hj)
  current j hj := Heap.modify_forall (P := fun _ p => p.current < h.count)
    (fun hp => by
      rcases hcur with hc | hc
      · rw [hc]; exact hp
      · exact hc) (hok.current j hj)

/-- The common case: only `pos`, `end` or the bytes are assigned. -/
theorem Heap.Ok.modify_pos {h : Heap} (hok : h.Ok) {i : Nat} {f : Pool → Pool}
    (hf : (h.pool i).Ok → (f (h.pool i)).Ok) (hchild : (f (h.pool i)).child = (h.pool i).child)
    (hcur : (f (h.pool i)).current = (h.pool i).current) : (h.modify i f).Ok :=
  hok.modify hf (fun _ hc => Or.inl (hchild.symm.trans hc)) (Or.inl hcur)

/-- From the front, for `dalloc`. -/
theorem takeFront_serves {h : Heap} (hok : h.Ok) {pool size c : Nat} (hc : c < h.count)
    (hcur : (h.pool pool).current = c) (hfit : (h.pool c).pos + size ≤ (h.pool c).endPos) :
    Serves .dalloc size h (takeFront h pool size) := by
  -- The block is the first `size` bytes of what was free, and `pos` goes behind them.
  subst hcur
  have hp := hok.pool _ hc
  have hin := Nat.le_trans hfit hp.end_le
  have hlt := hp.size_lt
  have hsum := addSz_of_lt (Nat.lt_of_le_of_lt hin (by omega))
  constructor
  · simp only [takeFront]
    refine hok.modify_pos (fun _ => ⟨?_, hp.end_le, hp.size_lt⟩) rfl rfl
    simp only [hsum]
    exact hfit
  · simp only [takeFront]
    refine Heap.Grows.modify rfl ?_ (Nat.le_refl _)
    simp only [hsum]
    exact Nat.le_add_right ..
  · intro p hret
    cases hret
    refine ⟨⟨⟨hc, ?_⟩, Or.inr ?_⟩, fun b hb => hb.apart_free (Nat.le_refl _) hfit⟩
    · simp only [takeFront, Heap.modify_pool_self]
      exact hin
    · simp only [takeFront, Block.Beside, Heap.modify_pool_self]
      exact Nat.le_of_eq hsum.symm

/-- From the back, for `nalloc`. -/
theorem takeBack_serves {h : Heap} (hok : h.Ok) {pool size c : Nat} (hc : c < h.count)
    (hcur : (h.pool pool).current = c) (hfit : (h.pool c).pos + size ≤ (h.pool c).endPos) :
    Serves .nalloc size h (takeBack h pool size) := by
  -- The block is the last `size` bytes of what was free, and `end` goes before them.
  subst hcur
  have hp := hok.pool _ hc
  have hend := hp.end_le
  have hlt := hp.size_lt
  have hdiff := subSz_of_le (b := size) (by omega) (Nat.lt_of_le_of_lt hend (by omega))
  constructor
  · simp only [takeBack]
    refine hok.modify_pos (fun _ => ⟨?_, ?_, hp.size_lt⟩) rfl rfl <;> simp only [hdiff] <;> omega
  · simp only [takeBack]
    refine Heap.Grows.modify rfl (Nat.le_refl _) ?_
    simp only [hdiff]
    exact Nat.sub_le ..
  · intro p hret
    cases hret
    refine ⟨⟨⟨hc, ?_⟩, Or.inr ?_⟩, fun b hb => hb.apart_free ?_ ?_⟩
    · simp only [takeBack, Heap.modify_pool_self, hdiff]
      omega
    · simp only [takeBack, Block.Beside, Heap.modify_pool_self]
      exact Nat.le_refl _
    · simp only [hdiff]; omega
    · simp only [hdiff]; omega

/-! ## Adding a chunk

The three assignments of the growth step one after the other: the new structure, its link from the
current chunk, and `current`. -/

/-- The structure of a new pool. -/
theorem inaMempoolNew_pool (h : Heap) (size : Nat) (cf : UInt32) :
    ((inaMempoolNew h size cf).2.pool h.count).pos = 0 ∧
    ((inaMempoolNew h size cf).2.pool h.count).endPos = memAlign (max size memMinPoolSize) ∧
    ((inaMempoolNew h size cf).2.pool h.count).size = memAlign (max size memMinPoolSize) ∧
    ((inaMempoolNew h size cf).2.pool h.count).current = h.count ∧
    ((inaMempoolNew h size cf).2.pool h.count).child = none := by
  have hmax : (if size < memMinPoolSize then memMinPoolSize else size) =
      max size memMinPoolSize := by
    by_cases hs : size < memMinPoolSize
    · rw [if_pos hs, Nat.max_eq_right (Nat.le_of_lt hs)]
    · rw [if_neg hs, Nat.max_eq_left (Nat.le_of_not_lt hs)]
  simp [inaMempoolNew, hmax]

theorem Heap.Ok.new {h : Heap} (hok : h.Ok) (size : Nat) (cf : UInt32) :
    (inaMempoolNew h size cf).2.Ok := by
  obtain ⟨hpos, hend, hsize, hcur, hchild⟩ := inaMempoolNew_pool h size cf
  have hcount : (inaMempoolNew h size cf).2.count = h.count + 1 := rfl
  have hsame : ∀ i < h.count, (inaMempoolNew h size cf).2.pool i = h.pool i := fun i hi =>
    Function.update_of_ne (Nat.ne_of_lt hi) ..
  have hcases : ∀ i < h.count + 1, i < h.count ∨ i = h.count := by omega
  refine ⟨fun i hi => ?_, fun i hi c hc => ?_, fun i hi => ?_⟩
  · rcases hcases i hi with hi | rfl
    · rw [hsame i hi]; exact hok.pool i hi
    · refine ⟨by rw [hpos]; exact Nat.zero_le _, by rw [hend, hsize], ?_⟩
      rw [hsize]; exact memAlign_add_lt _
  · rcases hcases i hi with hi | rfl
    · rw [hsame i hi] at hc
      exact ⟨(hok.child i hi c hc).1, Nat.lt_succ_of_lt (hok.child i hi c hc).2⟩
    · rw [hchild] at hc; simp at hc
  · rcases hcases i hi with hi | rfl
    · rw [hsame i hi, hcount]; exact Nat.lt_succ_of_lt (hok.current i hi)
    · rw [hcur]; exact Nat.lt_succ_self _

/-- A new chunk is large enough for the request that it is made for. -/
theorem le_chunkSize (p : Pool) (size : Nat) : size ≤ chunkSize p size := by
  unfold chunkSize
  split
  · exact Nat.le_refl _
  · rename_i hc
    simp only [not_or, Nat.not_lt] at hc
    exact hc.2

theorem chunkSize_add_lt {p : Pool} (hp : p.Ok) {size : Nat} (hsize : size + 15 < 2 ^ 64) :
    chunkSize p size + 15 < 2 ^ 64 := by
  unfold chunkSize
  split
  · exact hsize
  · exact hp.size_lt

/-- The structures there were keep everything but the links: the new one is the child of the current
    one, and is the current one then. -/
theorem addChunk_pool {h : Heap} {pool size i : Nat} (hi : i < h.count) :
    (addChunk h pool size).pool i =
      { h.pool i with
        child := if i = (h.pool pool).current then some h.count else (h.pool i).child
        current := if i = pool then h.count else (h.pool i).current } := by
  have hne : i ≠ h.count := Nat.ne_of_lt hi
  simp only [addChunk, Heap.modify_pool, inaMempoolNew, hne, if_false,
    Function.update_of_ne hne]
  split_ifs <;> rfl

/-- The new structure is empty. -/
theorem addChunk_last {h : Heap} {pool : Nat} (size : Nat) (hpool : pool < h.count)
    (hcur : (h.pool pool).current < h.count) :
    ((addChunk h pool size).pool h.count).pos = 0 ∧
    ((addChunk h pool size).pool h.count).endPos =
      memAlign (max (chunkSize (h.pool pool) size) memMinPoolSize) ∧
    ((addChunk h pool size).pool h.count).size =
      memAlign (max (chunkSize (h.pool pool) size) memMinPoolSize) ∧
    ((addChunk h pool size).pool h.count).child = none := by
  obtain ⟨hpos, hend, hsize, -, hchild⟩ :=
    inaMempoolNew_pool h (chunkSize (h.pool pool) size) ((h.pool pool).cf ||| memChild)
  rw [addChunk, Heap.modify_pool_ne _ _ (Nat.ne_of_gt hpool)]
  simp only [inaMempoolNew, Heap.modify_pool_self]
  rw [Heap.modify_pool_ne _ _ (Nat.ne_of_gt hcur)]
  exact ⟨hpos, hend, hsize, hchild⟩

/-- What adding a chunk does: the new chunk is the last structure, empty, current, and large
    enough for the request. -/
structure Adds (pool size : Nat) (h h' : Heap) : Prop where
  ok : h'.Ok
  grows : h.Grows h'
  count : h'.count = h.count + 1
  current : (h'.pool pool).current = h.count
  pos : (h'.pool h.count).pos = 0
  fits : size ≤ (h'.pool h.count).endPos

/-- A chunk that was added is the last structure, and has room. -/
theorem addChunk_adds {h : Heap} (hok : h.Ok) {pool size : Nat} (hpool : pool < h.count)
    (hsize : size + 15 < 2 ^ 64) : Adds pool size h (addChunk h pool size) := by
  -- The invariant holds with a structure more, and then through the three assignments.
  have hnew := hok.new (chunkSize (h.pool pool) size) ((h.pool pool).cf ||| memChild)
  have hcur := hok.current pool hpool
  obtain ⟨hpos, hend, -, -⟩ := addChunk_last size hpool hcur
  have hlast : h.count < h.count + 1 := Nat.lt_succ_self _
  refine ⟨?_, ?_, rfl, ?_, hpos, ?_⟩
  · unfold addChunk
    refine Heap.Ok.modify ?_ (fun hp => ⟨hp.1, hp.2, hp.3⟩) (fun _ hc => Or.inl hc) (Or.inr hlast)
    refine Heap.Ok.modify_pos ?_ (fun hp => ⟨hp.1, hp.2, hp.3⟩) rfl rfl
    refine hnew.modify (fun hp => ⟨hp.1, hp.2, hp.3⟩) (fun c hc => ?_) (Or.inl rfl)
    obtain rfl : h.count = c := Option.some.inj hc
    exact Or.inr ⟨hcur, hlast⟩
  · refine ⟨Nat.le_succ _, fun i hi => ?_, fun i hi => ?_, fun i hi => ?_⟩ <;>
      rw [addChunk_pool hi]
  · rw [addChunk_pool hpool]
    exact if_pos rfl
  · have hmin : memMinPoolSize = 1024 := rfl
    have hask := chunkSize_add_lt (hok.pool pool hpool) hsize
    -- The size asked for, the least size of a pool, and the rounding.
    calc size ≤ chunkSize (h.pool pool) size := le_chunkSize _ _
      _ ≤ max (chunkSize (h.pool pool) size) memMinPoolSize := Nat.le_max_left ..
      _ ≤ memAlign (max (chunkSize (h.pool pool) size) memMinPoolSize) :=
          le_memAlign (by omega)
      _ = _ := hend.symm

/-! ## `dalloc` and `nalloc` -/

/-- **One `dalloc`.** From any chunk of the chain on, the loop ends and serves the request. The
    walk goes up in allocation order, so the structures left above `current` bound it. -/
theorem dallocRetry_serves {pool size : Nat} (hsize : size + 15 < 2 ^ 64) :
    ∀ (fuel : Nat) {h : Heap}, h.Ok → pool < h.count → h.count ≤ fuel + (h.pool pool).current →
      ∃ r, dallocRetry pool size fuel h = some r ∧ Serves .dalloc size h r := by
  intro fuel
  induction fuel with
  | zero =>
    intro h hok hpool hfuel
    have := hok.current pool hpool
    omega
  | succ fuel ih =>
    intro h hok hpool hfuel
    have hcur := hok.current pool hpool
    have hp := hok.pool _ hcur
    have hlt := hp.size_lt
    have hfull := Pool.full_iff size hp.pos_le (Nat.lt_of_le_of_lt hp.end_le (by omega))
      (by omega)
    rw [dallocRetry]
    by_cases hf : (h.pool (h.pool pool).current).Full size
    · simp only [if_pos hf]
      by_cases hdyn : (h.pool pool).cf &&& memDynamic ≠ 0
      · rw [if_pos hdyn]
        cases hchild : (h.pool (h.pool pool).current).child with
        -- `current` moves on to the child, and there is one structure less ahead of it.
        | some c =>
          obtain ⟨hup, hc⟩ := hok.child _ hcur c hchild
          have hgrow : h.Grows (h.modify pool fun q => { q with current := c }) :=
            Heap.Grows.modify rfl (Nat.le_refl _) (Nat.le_refl _)
          have hok' : (h.modify pool fun q => { q with current := c }).Ok :=
            hok.modify (fun hp => ⟨hp.1, hp.2, hp.3⟩) (fun _ h => Or.inl h) (Or.inr hc)
          have hfuel' : h.count ≤
              fuel + ((h.modify pool fun q => { q with current := c }).pool pool).current := by
            rw [Heap.modify_pool_self]
            show h.count ≤ fuel + c
            omega
          obtain ⟨r, hr, hserves⟩ := ih hok' hpool hfuel'
          exact ⟨r, hr, hserves.after hgrow⟩
        -- The end of the chain: the new chunk has room.
        | none =>
          have hadd := addChunk_adds hok hpool hsize
          refine ⟨_, rfl, (takeFront_serves hadd.ok ?_ hadd.current ?_).after hadd.grows⟩
          · rw [hadd.count]; exact Nat.lt_succ_self _
          · rw [hadd.pos, Nat.zero_add]; exact hadd.fits
      · rw [if_neg hdyn]
        exact ⟨_, rfl, Serves.error hok _⟩
    · simp only [if_neg hf]
      exact ⟨_, rfl, takeFront_serves hok hcur rfl (Nat.le_of_not_lt fun hlt => hf (hfull.mpr hlt))⟩

/-- **`ina_mempool_dalloc_aligned`** is served. -/
theorem inaMempoolDallocAligned_serves {h : Heap} (hok : h.Ok) {pool : Nat} (hpool : pool < h.count)
    {size alignment : Nat} (hsize : memAlignN size alignment + 15 < 2 ^ 64) :
    ∃ r, inaMempoolDallocAligned h pool size alignment = some r ∧
      Serves .dalloc (memAlignN size alignment) h r :=
  dallocRetry_serves hsize h.count hok hpool (Nat.le_add_right ..)

/-- **One `nalloc`.** -/
theorem inaMempoolNallocAligned_serves {h : Heap} (hok : h.Ok) {pool : Nat} (hpool : pool < h.count)
    {size alignment : Nat} (hsize : memAlignN size alignment + 15 < 2 ^ 64) :
    Serves .nalloc (memAlignN size alignment) h (inaMempoolNallocAligned h pool size alignment) := by
  have hcur := hok.current pool hpool
  have hp := hok.pool _ hcur
  have hlt := hp.size_lt
  have hfull := Pool.full_iff (memAlignN size alignment) hp.pos_le
    (Nat.lt_of_le_of_lt hp.end_le (by omega)) (by omega)
  unfold inaMempoolNallocAligned
  by_cases hbogus : (h.pool pool).endPos < memAlignN size alignment
  · simp only [if_pos hbogus]
    exact Serves.error hok _
  · simp only [if_neg hbogus]
    by_cases hf : (h.pool (h.pool pool).current).Full (memAlignN size alignment)
    · rw [if_pos hf]
      by_cases hdyn : (h.pool pool).cf &&& memDynamic ≠ 0
      · rw [if_pos hdyn]
        have hadd := addChunk_adds hok hpool hsize
        refine (takeBack_serves hadd.ok ?_ hadd.current ?_).after hadd.grows
        · rw [hadd.count]; exact Nat.lt_succ_self _
        · rw [hadd.pos, Nat.zero_add]; exact hadd.fits
      · rw [if_neg hdyn]
        exact Serves.error hok _
    · rw [if_neg hf]
      exact takeBack_serves hok hcur rfl (Nat.le_of_not_lt fun hlt => hf (hfull.mpr hlt))

/-! ## `reset` and `clear`

Both only move `pos` down, so the blocks from the back of a chunk are not touched by it. -/

/-- What a sweep may do to a structure: move `pos` down, and change the bytes. -/
structure Pool.Rewinds (p p' : Pool) : Prop where
  size : p'.size = p.size
  endPos : p'.endPos = p.endPos
  pos : p'.pos ≤ p.pos
  child : p'.child = p.child
  current : p'.current = p.current

theorem Pool.Rewinds.trans {p p' p'' : Pool} (h₁ : p.Rewinds p') (h₂ : p'.Rewinds p'') :
    p.Rewinds p'' :=
  ⟨h₂.size.trans h₁.size, h₂.endPos.trans h₁.endPos, Nat.le_trans h₂.pos h₁.pos,
    h₂.child.trans h₁.child, h₂.current.trans h₁.current⟩

theorem Pool.Rewinds.refl (p : Pool) : p.Rewinds p := ⟨rfl, rfl, Nat.le_refl _, rfl, rfl⟩

/-- What a sweep does to the heap. -/
def Heap.Rewinds (h h' : Heap) : Prop :=
  h'.count = h.count ∧ ∀ i, (h.pool i).Rewinds (h'.pool i)

/-- A heap whose structures went back to an earlier position is in order. -/
theorem Heap.Ok.rewinds {h h' : Heap} (hok : h.Ok) (hr : h.Rewinds h') : h'.Ok := by
  obtain ⟨hcount, hr⟩ := hr
  refine ⟨fun i hi => ?_, fun i hi c hc => ?_, fun i hi => ?_⟩ <;> rw [hcount] at hi
  · have hp := hok.pool i hi
    refine ⟨?_, ?_, ?_⟩
    · rw [(hr i).endPos]; exact Nat.le_trans (hr i).pos hp.pos_le
    · rw [(hr i).endPos, (hr i).size]; exact hp.end_le
    · rw [(hr i).size]; exact hp.size_lt
  · rw [(hr i).child] at hc
    rw [hcount]
    exact hok.child i hi c hc
  · rw [(hr i).current, hcount]
    exact hok.current i hi

/-- A sweep ends, since `child` points forward, and only rewinds. -/
theorem sweep_rewinds {f : Pool → Pool} (hf : ∀ p : Pool, p.Rewinds (f p)) :
    ∀ (fuel : Nat) (pn : Option Nat) {h : Heap}, h.Ok →
      (∀ i, pn = some i → i < h.count ∧ h.count ≤ fuel + i) →
      ∃ h', sweep f fuel pn h = some h' ∧ h.Rewinds h' := by
  intro fuel
  induction fuel with
  | zero =>
    intro pn h _ hpn
    cases pn with
    | none => exact ⟨h, by rw [sweep], rfl, fun i => Pool.Rewinds.refl _⟩
    | some i => have := hpn i rfl; omega
  | succ fuel ih =>
    intro pn h hok hpn
    cases pn with
    | none => exact ⟨h, by rw [sweep], rfl, fun i => Pool.Rewinds.refl _⟩
    | some i =>
      obtain ⟨hi, hfuel⟩ := hpn i rfl
      -- A child came later, so it is not the structure itself.
      have hself : (h.pool i).child ≠ some i := fun hc => Nat.lt_irrefl i (hok.child i hi i hc).1
      have hstep : h.Rewinds (h.modify i f) := ⟨rfl, fun j =>
        Heap.modify_forall (P := fun j p => (h.pool j).Rewinds p) (fun _ => hf _)
          (Pool.Rewinds.refl _)⟩
      obtain ⟨h', hsweep, hcount, hrest⟩ := ih (h.pool i).child (hok.rewinds hstep) (by
        intro c hc
        have hlt := hok.child i hi c hc
        exact ⟨hlt.2, by show h.count ≤ fuel + c; omega⟩)
      refine ⟨h', ?_, hcount, fun j => (hstep.2 j).trans (hrest j)⟩
      rw [sweep]
      simp only [if_pos hself]
      exact hsweep

/-- A block from the back is not touched by that. -/
theorem Block.Ok.rewinds {h h' : Heap} {b : Block} (hb : b.Ok h) (hk : b.kind = .nalloc)
    (hr : h.Rewinds h') : b.Ok h' := by
  refine ⟨⟨?_, ?_⟩, hb.beside.imp_right fun hside => ?_⟩
  · rw [hr.1]; exact hb.inside.1
  · rw [(hr.2 _).size]; exact hb.inside.2
  · unfold Block.Beside at hside ⊢
    rw [hk] at hside ⊢
    exact Nat.le_trans (Nat.le_of_eq (hr.2 _).endPos) hside

/-- What `reset` and `clear` do: they end, keep the invariant and every `nalloc` block. -/
structure Frees (h h' : Heap) : Prop where
  ok : h'.Ok
  count : h'.count = h.count
  keeps : ∀ b : Block, b.Ok h → b.kind = .nalloc → b.Ok h'

theorem Frees.of_rewinds {h h' : Heap} (hok : h.Ok) (hr : h.Rewinds h') {pool : Nat}
    (hpool : pool < h.count) : Frees h (h'.modify pool fun q => { q with current := pool }) where
  ok := (hok.rewinds hr).modify (fun hp => ⟨hp.1, hp.2, hp.3⟩) (fun _ h => Or.inl h)
    (Or.inr (by rw [hr.1]; exact hpool))
  count := hr.1
  keeps _ hb hk := (hb.rewinds hk hr).grows
    (Heap.Grows.modify rfl (Nat.le_refl _) (Nat.le_refl _))

/-- **`ina_mempool_reset`** frees the blocks from the front. -/
theorem inaMempoolReset_frees {h : Heap} (hok : h.Ok) {pool : Nat} (hpool : pool < h.count) :
    ∃ h', inaMempoolReset h pool = some h' ∧ Frees h h' := by
  obtain ⟨h', hsweep, hr⟩ := sweep_rewinds (f := fun q => { q with pos := 0 })
    (fun p => ⟨rfl, rfl, Nat.zero_le _, rfl, rfl⟩) h.count (some pool) hok (by
      intro i hi
      obtain rfl := Option.some.inj hi
      exact ⟨hpool, Nat.le_add_right ..⟩)
  exact ⟨_, by rw [inaMempoolReset, hsweep]; rfl, Frees.of_rewinds hok hr hpool⟩

theorem inaMempoolClear_frees {h : Heap} (hok : h.Ok) {pool : Nat} (hpool : pool < h.count) :
    ∃ h', inaMempoolClear h pool = some h' ∧ Frees h h' := by
  obtain ⟨h', hsweep, hr⟩ := sweep_rewinds
    (f := fun q => { q with pos := 0, m := fun o => if o < q.size then 0 else q.m o })
    (fun p => ⟨rfl, rfl, Nat.zero_le _, rfl, rfl⟩) h.count (some pool) hok (by
      intro i hi
      obtain rfl := Option.some.inj hi
      exact ⟨hpool, Nat.le_add_right ..⟩)
  exact ⟨_, by rw [inaMempoolClear, hsweep]; rfl, Frees.of_rewinds hok hr hpool⟩

end Mempool
end Inac
