import Inac.Mempool.Run

/-!
# `ina_mempool_ralloc_aligned`

`ralloc` decides by the root's `pos` alone, although the block may stand in any chunk. It resizes
in place the block that ends at the root's `pos`, keeps any other block that shrinks, and copies a
block that grows to the root's `pos`, if it fits there. All of that is sound (`Exits.resized`),
also for a block of another chunk.

What is left is a dynamic pool whose root has no room. There the code adds a chunk, and then
copies the block to the **root's** `pos` anyway: the new chunk stays empty and `pos` passes `end`.
`NewChunk` is the condition on the call under which that exit is taken, and
`ralloc_right_iff_no_new_chunk` says that every other call of every run is right.

The exits of the source are the constructors of `Exits`. That a call takes one of them is a matter
of the tests (`ralloc_exits`), and that each of them is sound one of where the other blocks stand
(`Resized`): the last block of the root has nothing behind it but blocks from the back, so it may
grow up to `end`, and a block that is moved goes where an allocation would go.
-/

namespace Inac
namespace Mempool

open Lib

/-! ## The exits

The tests are on sums that may wrap. A caller that asks for no more than `size_t` can count from
`pos` on makes none of them wrap. -/

/-- The block ends at the root's `pos`: the previous allocation from the root. -/
def Block.Last (b : Block) (root : Pool) : Prop :=
  b.span.region = 0 ∧ b.span.off + b.span.len = root.pos

instance (b : Block) (root : Pool) : Decidable (b.Last root) :=
  inferInstanceAs (Decidable (_ ∧ _))

/-- The condition of the two exits that add a chunk, for a block resized to `new` bytes. -/
def NewChunk (root : Pool) (b : Block) (new : Nat) : Prop :=
  root.cf &&& memDynamic ≠ 0 ∧ b.span.len ≤ root.endPos ∧
    ((b.Last root ∧ root.endPos < b.span.off + new) ∨
      (¬ b.Last root ∧ b.span.len < new ∧ root.endPos < root.pos + new))

instance (root : Pool) (b : Block) (new : Nat) : Decidable (NewChunk root b new) :=
  inferInstanceAs (Decidable (_ ∧ _))

/-- The heap after an assignment to the root's `pos` and to bytes of its chunk. -/
structure RootAt (h h' : Heap) (pos : Nat) : Prop where
  count : h'.count = h.count
  other : ∀ i, i ≠ 0 → h'.pool i = h.pool i
  size : (h'.pool 0).size = (h.pool 0).size
  endPos : (h'.pool 0).endPos = (h.pool 0).endPos
  child : (h'.pool 0).child = (h.pool 0).child
  current : (h'.pool 0).current = (h.pool 0).current
  pos : (h'.pool 0).pos = pos

/-- The first `n` bytes at `q` in `h'` are those at `p` in `h`. -/
def SameBytes (h h' : Heap) (p q : Ptr) (n : Nat) : Prop :=
  ∀ j < n, (h'.pool q.chunk).m (q.off + j) = (h.pool p.chunk).m (p.off + j)

/-- **The exits of `ralloc`**, for a block of `old` bytes at `p` resized to `new` bytes: fail,
    resize in place, keep, move to the root's `pos`, and the exit that adds a chunk. -/
inductive Exits (h : Heap) (b : Block) (new : Nat) : Except Err Ptr × Heap → Prop
  | fail (e : Err) : Exits h b new (.error e, h)
  | inPlace (h' : Heap) : b.Last (h.pool 0) → b.span.off + new ≤ (h.pool 0).endPos →
      RootAt h h' (b.span.off + new) →
      SameBytes h h' ⟨b.span.region, b.span.off⟩ ⟨b.span.region, b.span.off⟩
        (min b.span.len new) →
      Exits h b new (.ok ⟨b.span.region, b.span.off⟩, h')
  | keep : new ≤ b.span.len → Exits h b new (.ok ⟨b.span.region, b.span.off⟩, h)
  | move (h' : Heap) : b.span.len ≤ new → (h.pool 0).pos + new ≤ (h.pool 0).endPos →
      RootAt h h' ((h.pool 0).pos + new) →
      SameBytes h h' ⟨b.span.region, b.span.off⟩ ⟨0, (h.pool 0).pos⟩ b.span.len →
      Exits h b new (.ok ⟨0, (h.pool 0).pos⟩, h')

theorem moveToPos_rootAt (h : Heap) (old : Ptr) (oldSize : Nat) {newSize : Nat}
    (hwrap : (h.pool 0).pos + newSize < 2 ^ 64) :
    RootAt h (moveToPos h 0 old oldSize newSize).2 ((h.pool 0).pos + newSize) := by
  refine ⟨rfl, fun i hi => ?_, ?_, ?_, ?_, ?_, ?_⟩
  · simp only [moveToPos, Heap.memCpy, Heap.modify_pool_ne _ _ hi]
  all_goals simp only [moveToPos, Heap.memCpy, Heap.modify_pool_self]
  exact addSz_of_lt hwrap

theorem moveToPos_bytes (h : Heap) (old : Ptr) (oldSize newSize : Nat) :
    SameBytes h (moveToPos h 0 old oldSize newSize).2 old ⟨0, (h.pool 0).pos⟩ oldSize := by
  intro j hj
  simp only [moveToPos, Heap.memCpy, Heap.modify_pool_self]
  rw [if_pos ⟨Nat.le_add_right .., by omega⟩, Nat.add_sub_cancel_left]

/-- `pool->pos += new_size - old_size`, where the difference may be negative. -/
theorem addSz_subSz {pos new old : Nat} (hold : old ≤ pos) (hwrap : pos + new < 2 ^ 64) :
    addSz pos (subSz new old) = pos + new - old := by
  have hsum : pos + (new + (2 ^ 64 - old)) = (pos + new - old) + 2 ^ 64 := by omega
  rw [addSz, subSz, Nat.add_mod_mod, hsum, Nat.add_mod_right, Nat.mod_eq_of_lt (by omega)]

/-- The pointer test of the source finds exactly the last block. -/
theorem Block.last_iff {b : Block} {root : Pool} (hpos : root.pos < 2 ^ 64) :
    (root.pos ≥ b.span.len ∧
      Ptr.mk 0 (subSz root.pos b.span.len) = ⟨b.span.region, b.span.off⟩) ↔ b.Last root := by
  rw [Ptr.mk.injEq, Block.Last]
  constructor
  · rintro ⟨hle, hr, hoff⟩
    rw [subSz_of_le hle hpos] at hoff
    exact ⟨hr.symm, by omega⟩
  · rintro ⟨hr, hend⟩
    have hle : b.span.len ≤ root.pos := by omega
    refine ⟨hle, hr.symm, ?_⟩
    rw [subSz_of_le hle hpos]
    omega

/-- The in-place exit: `pos` follows the block's end, and a block that shrinks is zeroed behind
    its new end. -/
theorem inPlace_exits {h : Heap} {b : Block} {new : Nat} (hlast : b.Last (h.pool 0))
    (hfit : b.span.off + new ≤ (h.pool 0).endPos) (hwrap : (h.pool 0).pos + new < 2 ^ 64) :
    let h₁ := h.modify 0 fun q => { q with pos := addSz q.pos (subSz new b.span.len) }
    Exits h b new (if new < b.span.len then
        (.ok ⟨b.span.region, b.span.off⟩,
          h₁.memSet ⟨0, (h₁.pool 0).pos⟩ 0 (subSz b.span.len new))
      else (.ok ⟨b.span.region, b.span.off⟩, h₁)) := by
  intro h₁
  obtain ⟨hr, hend⟩ := hlast
  have hnewpos : addSz (h.pool 0).pos (subSz new b.span.len) = b.span.off + new := by
    rw [addSz_subSz (by omega) hwrap]; omega
  have hroot : RootAt h h₁ (b.span.off + new) := by
    refine ⟨rfl, fun i hi => Heap.modify_pool_ne _ _ hi, ?_, ?_, ?_, ?_, ?_⟩
    all_goals simp only [h₁, Heap.modify_pool_self]
    exact hnewpos
  have hbytes : ∀ i, (h₁.pool i).m = (h.pool i).m := fun i =>
    Heap.modify_forall (P := fun i p => p.m = (h.pool i).m) (fun _ => rfl) rfl
  split
  · refine Exits.inPlace _ ⟨hr, hend⟩ hfit ?_ ?_
    · refine ⟨rfl, fun i hi => ?_, ?_, ?_, ?_, ?_, ?_⟩
      · rw [Heap.memSet, Heap.modify_pool_ne _ _ hi]; exact hroot.other i hi
      all_goals simp only [Heap.memSet, Heap.modify_pool_self]
      exacts [hroot.size, hroot.endPos, hroot.child, hroot.current, hroot.pos]
    · -- the zeroed bytes start behind the new end
      intro j hj
      simp only [hr, Heap.memSet, Heap.modify_pool_self, hroot.pos]
      rw [if_neg (by omega), hbytes]
  · refine Exits.inPlace _ ⟨hr, hend⟩ hfit hroot ?_
    intro j _
    rw [hbytes]

/-- Unless the call takes the exit that adds a chunk, it takes one of the others. -/
theorem ralloc_exits {h : Heap} {b : Block} {oldSize newSize alignment : Nat}
    (hlen : memAlignN oldSize alignment = b.span.len)
    (hwrap : (h.pool 0).pos + memAlignN newSize alignment < 2 ^ 64)
    (hnew : ¬ NewChunk (h.pool 0) b (memAlignN newSize alignment)) :
    Exits h b (memAlignN newSize alignment)
      (inaMempoolRallocAligned h 0 ⟨b.span.region, b.span.off⟩ oldSize newSize alignment) := by
  have hpos : (h.pool 0).pos < 2 ^ 64 := by omega
  simp only [inaMempoolRallocAligned, hlen, Block.last_iff hpos]
  generalize memAlignN newSize alignment = new at hwrap hnew ⊢
  by_cases hbogus : (h.pool 0).endPos < b.span.len
  · rw [if_pos hbogus]
    exact Exits.fail _
  rw [if_neg hbogus]
  by_cases hlast : b.Last (h.pool 0)
  · rw [if_pos hlast]
    -- The end that the block would get, if it is resized where it is.
    have hsub : subSz (addSz (h.pool 0).pos new) b.span.len = b.span.off + new := by
      have := hlast.2
      rw [addSz_of_lt hwrap, subSz_of_le (by omega) hwrap]
      omega
    rw [hsub]
    by_cases hfit : b.span.off + new ≤ (h.pool 0).endPos
    · rw [if_pos hfit]
      exact inPlace_exits hlast hfit hwrap
    · rw [if_neg hfit]
      by_cases hdyn : (h.pool 0).cf &&& memDynamic ≠ 0
      · -- A dynamic pool adds a chunk here, which is excluded.
        exact absurd ⟨hdyn, by omega, Or.inl ⟨hlast, by omega⟩⟩ hnew
      · rw [if_neg hdyn]
        exact Exits.fail _
  · rw [if_neg hlast]
    by_cases hkeep : new ≤ b.span.len
    · rw [if_pos hkeep]
      exact Exits.keep hkeep
    · rw [if_neg hkeep, addSz_of_lt hwrap]
      by_cases hfit : (h.pool 0).pos + new ≤ (h.pool 0).endPos
      · rw [if_pos ⟨Nat.le_add_right .., hfit⟩]
        exact Exits.move _ (by omega) hfit (moveToPos_rootAt h _ _ hwrap) (moveToPos_bytes h _ _ _)
      · rw [if_neg (fun hc => hfit hc.2)]
        by_cases hdyn : (h.pool 0).cf &&& memDynamic ≠ 0
        · exact absurd ⟨hdyn, by omega, Or.inr ⟨hlast, by omega, by omega⟩⟩ hnew
        · rw [if_neg hdyn]
          exact Exits.fail _

theorem ralloc_newChunk {h : Heap} (hroot : 0 < h.count) {b : Block}
    {oldSize newSize alignment : Nat} (hlen : memAlignN oldSize alignment = b.span.len)
    (hwrap : (h.pool 0).pos + memAlignN newSize alignment < 2 ^ 64)
    (hnew : NewChunk (h.pool 0) b (memAlignN newSize alignment)) :
    ∃ p h', inaMempoolRallocAligned h 0 ⟨b.span.region, b.span.off⟩ oldSize newSize alignment =
        (.ok p, h') ∧ 0 < h'.count ∧ (h'.pool 0).endPos < (h'.pool 0).pos := by
  have hpos : (h.pool 0).pos < 2 ^ 64 := by omega
  -- Whichever of the two exits it is, a chunk is added and the block copied to the root's `pos`.
  have heq : inaMempoolRallocAligned h 0 ⟨b.span.region, b.span.off⟩ oldSize newSize alignment =
      moveToPos (addChunk h 0 (memAlignN newSize alignment)) 0 ⟨b.span.region, b.span.off⟩
        b.span.len (memAlignN newSize alignment) := by
    simp only [inaMempoolRallocAligned, hlen, Block.last_iff hpos]
    generalize memAlignN newSize alignment = new at hwrap hnew ⊢
    obtain ⟨hdyn, hbogus, hcase⟩ := hnew
    rw [if_neg (Nat.not_lt.mpr hbogus)]
    rcases hcase with ⟨hlast, hfull⟩ | ⟨hlast, hgrow, hfull⟩
    · have hend := hlast.2
      rw [if_pos hlast, addSz_of_lt hwrap, subSz_of_le (by omega) hwrap, if_neg (by omega),
        if_pos hdyn]
    · rw [if_neg hlast, if_neg (Nat.not_le.mpr hgrow), addSz_of_lt hwrap,
        if_neg (fun hc => Nat.not_le.mpr hfull hc.2), if_pos hdyn]
  generalize memAlignN newSize alignment = new at hwrap hnew heq
  -- The new chunk has moved neither `pos` nor `end` of the root, so there still is no room.
  have hold : ((addChunk h 0 new).pool 0).pos = (h.pool 0).pos ∧
      ((addChunk h 0 new).pool 0).endPos = (h.pool 0).endPos := by
    rw [addChunk_pool hroot]; exact ⟨rfl, rfl⟩
  have hwrap' : ((addChunk h 0 new).pool 0).pos + new < 2 ^ 64 := by rw [hold.1]; exact hwrap
  have hat := moveToPos_rootAt (addChunk h 0 new) ⟨b.span.region, b.span.off⟩ b.span.len hwrap'
  refine ⟨_, (moveToPos (addChunk h 0 new) 0 ⟨b.span.region, b.span.off⟩ b.span.len new).2, heq,
    Nat.succ_pos _, ?_⟩
  rw [hat.pos, hat.endPos, hold.1, hold.2]
  rcases hnew.2.2 with ⟨hlast, hfull⟩ | ⟨-, -, hfull⟩
  · have := hlast.2; omega
  · exact hfull

/-! ## The invariant through the other exits

Only the root is written to, and only its `pos` has changed. `Sys.Ok.replace` takes the resized
block into the ledger; what is left to show each time is that the others are apart from it. -/

theorem RootAt.heap_ok {h h' : Heap} {pos : Nat} (hat : RootAt h h' pos) (hok : h.Ok)
    (hroot : 0 < h.count) (hpos : pos ≤ (h.pool 0).endPos) : h'.Ok := by
  have hp := hok.pool 0 hroot
  refine ⟨fun i hi => ?_, fun i hi => ?_, fun i hi => ?_⟩ <;> rw [hat.count] at hi
  · by_cases hz : i = 0
    · subst hz
      exact ⟨by rw [hat.pos, hat.endPos]; exact hpos, by rw [hat.endPos, hat.size]; exact hp.end_le,
        by rw [hat.size]; exact hp.size_lt⟩
    · rw [hat.other i hz]; exact hok.pool i hi
  · rw [hat.count]
    by_cases hz : i = 0
    · subst hz; rw [hat.child]; exact hok.child 0 hi
    · rw [hat.other i hz]; exact hok.child i hi
  · rw [hat.count]
    by_cases hz : i = 0
    · subst hz; rw [hat.current]; exact hok.current 0 hi
    · rw [hat.other i hz]; exact hok.current i hi

theorem RootAt.inside {h h' : Heap} {pos : Nat} (hat : RootAt h h' pos) {b : Block}
    (hb : b.Inside h) : b.Inside h' := by
  refine ⟨by rw [hat.count]; exact hb.1, ?_⟩
  by_cases hz : b.span.region = 0
  · rw [hz, hat.size, ← hz]; exact hb.2
  · rw [hat.other _ hz]; exact hb.2

/-- A live block stays where it is beside the root's new `pos`, if it ended below it. -/
theorem RootAt.block_ok {h h' : Heap} {pos : Nat} (hat : RootAt h h' pos) {b : Block}
    (hb : b.Ok h)
    (hbelow : b.kind = .dalloc → b.span.region = 0 → b.span.len ≠ 0 →
      b.span.off + b.span.len ≤ pos) : b.Ok h' := by
  refine ⟨hat.inside hb.inside, ?_⟩
  by_cases hlen : b.span.len = 0
  · exact Or.inl hlen
  refine Or.inr ?_
  have hside := hb.beside.resolve_left hlen
  by_cases hz : b.span.region = 0
  · unfold Block.Beside at hside ⊢
    cases hk : b.kind with
    | dalloc => simp only [hz, hat.pos]; exact hbelow hk hz hlen
    | nalloc => rw [hk, hz] at hside; simp only [hz, hat.endPos]; exact hside
  · rw [hat.other _ hz]; exact hside

/-- What holds of the other blocks when the last block of the root is taken out: in the root they
    end below it, or stand above `end`. -/
theorem Block.Ok.below_last {h : Heap} {b c : Block} (hc : c.Ok h) (hlast : b.Last (h.pool 0))
    (hlen : b.span.len ≠ 0) (hapart : b.span.Apart c.span) (hk : c.kind = .dalloc)
    (hz : c.span.region = 0) (hclen : c.span.len ≠ 0) :
    c.span.off + c.span.len ≤ b.span.off := by
  have hside := hc.beside.resolve_left hclen
  unfold Block.Beside at hside
  rw [hk, hz] at hside
  have hend := hlast.2
  have hpos : c.span.off + c.span.len ≤ (h.pool 0).pos := hside
  rcases Span.apart_iff.mp hapart with hr | hl | hl | hbc | hcb
  · exact absurd (hlast.1.trans hz.symm) hr
  · exact absurd hl hlen
  · exact absurd hl hclen
  · omega
  · exact hcb

/-- What a sound exit leaves: the invariant with the block replaced, and its bytes kept. -/
structure Resized (s : Sys) (i : Nat) (b : Block) (new : Nat) (p : Ptr) (h' : Heap) : Prop where
  next : Sys.Ok ⟨h', ⟨.dalloc, ⟨p.chunk, p.off, new⟩⟩ :: s.live.eraseIdx i⟩
  bytes : SameBytes s.heap h' ⟨b.span.region, b.span.off⟩ p (min b.span.len new)

/-- Replacing a block needs of the new one only that it is ok and apart from the rest. -/
theorem Sys.Ok.replace {s : Sys} (hs : s.Ok) {i : Nat} {h' : Heap} (hok : h'.Ok)
    (hcount : h'.count = s.heap.count) (hrest : ∀ c ∈ s.live.eraseIdx i, c.Ok h')
    {t : Span Nat} (ht : Block.Ok h' ⟨.dalloc, t⟩)
    (hapart : ∀ c ∈ s.live.eraseIdx i, t.Apart c.span) :
    Sys.Ok ⟨h', ⟨.dalloc, t⟩ :: s.live.eraseIdx i⟩ := by
  refine ⟨hok, Nat.lt_of_lt_of_eq hs.root hcount.symm, ?_, ?_⟩
  · intro c hc
    rcases List.mem_cons.mp hc with rfl | hc
    · exact ht
    · exact hrest c hc
  · refine AllApart.cons ?_ (hs.apart.sublist ((List.eraseIdx_sublist ..).map _))
    intro u hu
    obtain ⟨c, hc, rfl⟩ := List.mem_map.mp hu
    exact hapart c hc

section Exits

variable {s : Sys} (hs : s.Ok) {i new : Nat} {b : Block} (hi : s.live[i]? = some b)
include hs hi

theorem rest_apart : ∀ c ∈ s.live.eraseIdx i, c.Ok s.heap ∧ b.span.Apart c.span := by
  intro c hc
  refine ⟨hs.live c ((List.eraseIdx_sublist ..).subset hc), ?_⟩
  have hmap : (s.live.map Block.span)[i]? = some b.span := by rw [List.getElem?_map, hi]; rfl
  refine hs.apart.eraseIdx hmap c.span ?_
  rw [List.eraseIdx_map]
  exact List.mem_map_of_mem hc

theorem resized_keep (hk : b.kind = .dalloc) (hlen : b.span.len ≠ 0) (hkeep : new ≤ b.span.len) :
    Resized s i b new ⟨b.span.region, b.span.off⟩ s.heap := by
  have hrest := rest_apart hs hi
  have hb := hs.live b (List.mem_of_getElem? hi)
  refine ⟨hs.replace hs.heap rfl (fun c hc => (hrest c hc).1) ⟨⟨hb.inside.1, ?_⟩, ?_⟩ ?_,
    fun _ _ => rfl⟩
  · exact Nat.le_trans (Nat.add_le_add_left hkeep _) hb.inside.2
  · have hside := hb.beside.resolve_left hlen
    unfold Block.Beside at hside
    rw [hk] at hside
    exact Or.inr (Nat.le_trans (Nat.add_le_add_left hkeep _) hside)
  · -- a block that gives up its end stays apart from the others
    intro c hc r o hr
    exact (hrest c hc).2 r o ⟨hr.1, hr.2.1, Nat.lt_of_lt_of_le hr.2.2 (Nat.add_le_add_left hkeep _)⟩

theorem resized_inPlace (hlen : b.span.len ≠ 0) {h' : Heap} (hlast : b.Last (s.heap.pool 0))
    (hfit : b.span.off + new ≤ (s.heap.pool 0).endPos) (hat : RootAt s.heap h' (b.span.off + new))
    (hbytes : SameBytes s.heap h' ⟨b.span.region, b.span.off⟩ ⟨b.span.region, b.span.off⟩
      (min b.span.len new)) :
    Resized s i b new ⟨b.span.region, b.span.off⟩ h' := by
  have hrest := rest_apart hs hi
  have hp := hs.heap.pool 0 hs.root
  -- The other blocks of the root's front end before this one begins.
  have hbelow : ∀ c ∈ s.live.eraseIdx i, c.kind = .dalloc → c.span.region = 0 →
      c.span.len ≠ 0 → c.span.off + c.span.len ≤ b.span.off := fun c hc hck hz hcl =>
    (hrest c hc).1.below_last hlast hlen (hrest c hc).2 hck hz hcl
  have hrest' : ∀ c ∈ s.live.eraseIdx i, c.Ok h' := fun c hc =>
    hat.block_ok (hrest c hc).1 fun hck hz hcl =>
      Nat.le_trans (hbelow c hc hck hz hcl) (Nat.le_add_right ..)
  refine ⟨hs.replace (hat.heap_ok hs.heap hs.root hfit) hat.count hrest' ⟨?_, ?_⟩ ?_, hbytes⟩
  · refine hat.inside ⟨by show b.span.region < _; rw [hlast.1]; exact hs.root, ?_⟩
    show b.span.off + new ≤ (s.heap.pool b.span.region).size
    rw [hlast.1]
    exact Nat.le_trans hfit hp.end_le
  · refine Or.inr ?_
    show b.span.off + new ≤ (h'.pool b.span.region).pos
    rw [hlast.1, hat.pos]
  · intro c hc
    rw [Span.apart_iff]
    by_cases hz : c.span.region = 0
    · by_cases hcl : c.span.len = 0
      · exact Or.inr (Or.inr (Or.inl hcl))
      have hside := (hrest c hc).1.beside.resolve_left hcl
      unfold Block.Beside at hside
      -- A block from the front is before it, and one from the back is behind `end`.
      cases hck : c.kind with
      | dalloc => exact Or.inr (Or.inr (Or.inr (Or.inr (hbelow c hc hck hz hcl))))
      | nalloc =>
        rw [hck, hz] at hside
        exact Or.inr (Or.inr (Or.inr (Or.inl (Nat.le_trans hfit hside))))
    · exact Or.inl fun hr => hz (hr.symm.trans hlast.1)

theorem resized_move {h' : Heap} (hgrow : b.span.len ≤ new)
    (hfit : (s.heap.pool 0).pos + new ≤ (s.heap.pool 0).endPos)
    (hat : RootAt s.heap h' ((s.heap.pool 0).pos + new))
    (hbytes : SameBytes s.heap h' ⟨b.span.region, b.span.off⟩ ⟨0, (s.heap.pool 0).pos⟩
      b.span.len) :
    Resized s i b new ⟨0, (s.heap.pool 0).pos⟩ h' := by
  have hrest := rest_apart hs hi
  have hp := hs.heap.pool 0 hs.root
  have hrest' : ∀ c ∈ s.live.eraseIdx i, c.Ok h' := by
    intro c hc
    refine hat.block_ok (hrest c hc).1 fun hck hz hcl => ?_
    have hside := (hrest c hc).1.beside.resolve_left hcl
    unfold Block.Beside at hside
    rw [hck, hz] at hside
    exact Nat.le_trans hside (Nat.le_add_right ..)
  refine ⟨hs.replace (hat.heap_ok hs.heap hs.root hfit) hat.count hrest' ⟨?_, ?_⟩ ?_, ?_⟩
  · exact hat.inside ⟨hs.root, Nat.le_trans hfit hp.end_le⟩
  · refine Or.inr ?_
    show (s.heap.pool 0).pos + new ≤ (h'.pool 0).pos
    rw [hat.pos]
  · intro c hc
    exact (hrest c hc).1.apart_free (Nat.le_refl _) hfit
  · rw [Nat.min_eq_left hgrow]
    exact hbytes

/-- **Every other exit is sound.** -/
theorem Exits.resized (hk : b.kind = .dalloc) (hlen : b.span.len ≠ 0) {p : Ptr} {h' : Heap}
    (he : Exits s.heap b new (.ok p, h')) : Resized s i b new p h' := by
  cases he with
  | inPlace _ hlast hfit hat hbytes => exact resized_inPlace hs hi hlen hlast hfit hat hbytes
  | keep hkeep => exact resized_keep hs hi hk hlen hkeep
  | move _ hgrow hfit hat hbytes => exact resized_move hs hi hgrow hfit hat hbytes

end Exits

/-! ## Runs with `ralloc`

Up to the first call that adds a chunk for a block all states are right, and the state behind that
call is not. -/

/-- The calls a caller may make: requests that wrap nowhere, and `ralloc` only on a live `dalloc`
    block, with its size. -/
def Valid (s : Sys) : Op → Prop
  | .dalloc size alignment => Request size alignment
  | .nalloc size alignment => Request size alignment
  | .ralloc i oldSize newSize alignment =>
    ∃ b, s.live[i]? = some b ∧ b.kind = .dalloc ∧ memAlignN oldSize alignment = b.span.len ∧
      0 < oldSize ∧ oldSize + (alignment - 1) < 2 ^ 64 ∧
      0 < newSize ∧ Request newSize alignment ∧
      (s.heap.pool 0).pos + memAlignN newSize alignment < 2 ^ 64
  | _ => True

/-- What a caller of `ralloc` relies on when it gets a block: its bytes lie in one chunk and in no
    other live block, it starts with the bytes of the old one, and no chunk's `pos` has passed its
    `end`. -/
def RallocRight (s : Sys) : Op → Prop
  | .ralloc i oldSize newSize alignment =>
    ∀ b t, s.live[i]? = some b → (step s (.ralloc i oldSize newSize alignment)).1 = .block t →
      let h' := (step s (.ralloc i oldSize newSize alignment)).2.heap
      newSize ≤ t.len ∧ Block.Inside h' ⟨.dalloc, t⟩ ∧
      (∀ c ∈ s.live.eraseIdx i, t.Apart c.span) ∧
      SameBytes s.heap h' ⟨b.span.region, b.span.off⟩ ⟨t.region, t.off⟩ (min b.span.len t.len) ∧
      ∀ k < h'.count, (h'.pool k).pos ≤ (h'.pool k).endPos
  | _ => True

/-- The call is a `ralloc` that takes the exit that adds a chunk. -/
def TakesNewChunk (s : Sys) : Op → Prop
  | .ralloc i _ newSize alignment =>
    ∃ b, s.live[i]? = some b ∧ NewChunk (s.heap.pool 0) b (memAlignN newSize alignment)
  | _ => False

theorem step_write_ok {s : Sys} (hs : s.Ok) (i off : Nat) (v : UInt8) :
    (step s (.write i off v)).2.Ok := by
  have hset : ∀ p : Ptr, Sys.Ok ⟨s.heap.memSet p v 1, s.live⟩ := by
    intro p
    have hgrow : s.heap.Grows (s.heap.memSet p v 1) :=
      Heap.Grows.modify rfl (Nat.le_refl _) (Nat.le_refl _)
    have hok : (s.heap.memSet p v 1).Ok :=
      hs.heap.modify_pos (fun hp => ⟨hp.1, hp.2, hp.3⟩) rfl rfl
    exact ⟨hok, hs.root, fun b hb => (hs.live b hb).grows hgrow, hs.apart⟩
  rw [step]
  split
  · split
    · exact hset _
    · exact hs
  · exact hs

/-- The two facts about one `ralloc`: it is right exactly when it adds no chunk, and then the
    invariant goes on. -/
theorem step_ralloc {s : Sys} (hs : s.Ok) {i oldSize newSize alignment : Nat}
    (hv : Valid s (.ralloc i oldSize newSize alignment)) :
    (RallocRight s (.ralloc i oldSize newSize alignment) ↔
      ¬ TakesNewChunk s (.ralloc i oldSize newSize alignment)) ∧
    (¬ TakesNewChunk s (.ralloc i oldSize newSize alignment) →
      (step s (.ralloc i oldSize newSize alignment)).2.Ok) := by
  obtain ⟨b, hi, hk, hlen, hold, holdwrap, hnewpos, ⟨⟨k, rfl⟩, hnewwrap, -⟩, hwrap⟩ := hv
  have hlen0 : b.span.len ≠ 0 := by
    have := le_memAlignN holdwrap
    omega
  have hbad : TakesNewChunk s (.ralloc i oldSize newSize (2 ^ k)) ↔
      NewChunk (s.heap.pool 0) b (memAlignN newSize (2 ^ k)) := by
    constructor
    · rintro ⟨b', hi', hn⟩
      obtain rfl : b = b' := Option.some.inj (hi.symm.trans hi')
      exact hn
    · exact fun hn => ⟨b, hi, hn⟩
  have hstep : step s (.ralloc i oldSize newSize (2 ^ k)) =
      s.resize i (memAlignN newSize (2 ^ k)) (inaMempoolRallocAligned s.heap 0
        ⟨b.span.region, b.span.off⟩ oldSize newSize (2 ^ k)) := by
    simp only [step, hi]
  rw [hbad]
  by_cases hn : NewChunk (s.heap.pool 0) b (memAlignN newSize (2 ^ k))
  · -- the root's `pos` is beyond its `end`, so the last part of the property fails
    refine ⟨⟨fun hright => ?_, fun h => absurd hn h⟩, fun h => absurd hn h⟩
    obtain ⟨p, h', hr, hcount, hpos⟩ := ralloc_newChunk hs.root hlen hwrap hn
    rw [RallocRight, hstep, hr] at hright
    obtain ⟨-, -, -, -, hall⟩ := hright b _ hi rfl
    exact absurd (hall 0 hcount) (Nat.not_le.mpr hpos)
  · have hexits := ralloc_exits hlen hwrap hn
    rw [RallocRight, hstep]
    generalize inaMempoolRallocAligned s.heap 0 ⟨b.span.region, b.span.off⟩ oldSize newSize
      (2 ^ k) = r at hexits
    obtain ⟨e | p, h'⟩ := r
    · cases hexits
      exact ⟨⟨fun _ => hn, fun _ _ _ _ hout => Out.noConfusion hout⟩, fun _ => hs⟩
    · obtain ⟨hnext, hbytes⟩ := hexits.resized hs hi hk hlen0
      refine ⟨⟨fun _ => hn, fun _ b' t hi' hout => ?_⟩, fun _ => hnext⟩
      obtain rfl : b = b' := Option.some.inj (hi.symm.trans hi')
      obtain rfl := Out.block.inj hout
      refine ⟨le_memAlignN hnewwrap, (hnext.live _ List.mem_cons_self).inside, ?_, hbytes,
        fun k hk => (hnext.heap.pool k hk).pos_le⟩
      intro c hc
      exact (List.pairwise_cons.mp hnext.apart).1 c.span (List.mem_map_of_mem hc)

theorem step_valid {s : Sys} (hs : s.Ok) {op : Op} (hv : Valid s op) :
    (RallocRight s op ↔ ¬ TakesNewChunk s op) ∧
      (¬ TakesNewChunk s op → (step s op).2.Ok) := by
  have htriv : ∀ {P : Prop}, P → ((True ↔ ¬ False) ∧ (¬ False → P)) := fun hp =>
    ⟨⟨fun _ => id, fun _ => trivial⟩, fun _ => hp⟩
  cases op with
  | dalloc size alignment => exact htriv (step_ok hs (.dalloc size alignment) hv).1
  | nalloc size alignment => exact htriv (step_ok hs (.nalloc size alignment) hv).1
  | reset => exact htriv (step_ok hs .reset trivial).1
  | clear => exact htriv (step_ok hs .clear trivial).1
  | write i off v => exact htriv (step_write_ok hs i off v)
  | ralloc i oldSize newSize alignment => exact step_ralloc hs hv

/-- **`ralloc` is right exactly when it adds no chunk.** In every run of valid calls on a new
    pool, every `ralloc` is right if and only if none of them takes the exit that adds a chunk. -/
theorem ralloc_right_iff_no_new_chunk (junk : Nat → Nat → UInt8) (size : Nat) (cf : UInt32)
    {ops : List Op} (hv : Along step Valid (Sys.new junk size cf) ops) :
    Along step RallocRight (Sys.new junk size cf) ops ↔
      Never step TakesNewChunk (Sys.new junk size cf) ops :=
  along_iff_never (I := Sys.Ok) (fun _ _ hop hbad hs => (step_valid hs hop).2 hbad)
    (fun _ _ hop hs => (step_valid hs hop).1) hv (Sys.new_ok junk size cf)

/-- A run with a block moved behind its neighbour, shrunk and grown in place. -/
theorem ralloc_right_iff_no_new_chunk_moved :
    Along step RallocRight (Sys.new (fun _ _ => 0) 1024 memDynamic)
      [.dalloc 64 16, .dalloc 32 16, .ralloc 1 64 128 16, .ralloc 0 128 48 16] := by
  have hv : Along step Valid (Sys.new (fun _ _ => 0) 1024 memDynamic)
      [.dalloc 64 16, .dalloc 32 16, .ralloc 1 64 128 16, .ralloc 0 128 48 16] := by
    refine ⟨⟨⟨4, rfl⟩, by decide, by decide⟩, ⟨⟨4, rfl⟩, by decide, by decide⟩, ?_, ?_, trivial⟩
    · exact ⟨⟨.dalloc, ⟨0, 0, 64⟩⟩, rfl, rfl, rfl, by decide, by decide, by decide,
        ⟨⟨4, rfl⟩, by decide, by decide⟩, by decide⟩
    · exact ⟨⟨.dalloc, ⟨0, 96, 128⟩⟩, rfl, rfl, rfl, by decide, by decide, by decide,
        ⟨⟨4, rfl⟩, by decide, by decide⟩, by decide⟩
  refine (ralloc_right_iff_no_new_chunk (fun _ _ => 0) 1024 memDynamic hv).mpr ?_
  refine ⟨id, id, ?_, ?_, trivial⟩
  · rintro ⟨b, hb, hn⟩
    obtain rfl : (⟨.dalloc, ⟨0, 0, 64⟩⟩ : Block) = b := Option.some.inj hb
    revert hn
    decide
  · rintro ⟨b, hb, hn⟩
    obtain rfl : (⟨.dalloc, ⟨0, 96, 128⟩⟩ : Block) = b := Option.some.inj hb
    revert hn
    decide

/-- The calls of the source's own test `realloc_dynamic`: the third one leaves `pos` at 11264 in a
    chunk of 4096 bytes. -/
theorem ralloc_overruns_root :
    Along step Valid (Sys.new (fun _ _ => 0) 4096 memDynamic)
      [.dalloc 1024 16, .ralloc 0 1024 2048 16, .ralloc 0 2048 9216 16] ∧
    ¬ Along step RallocRight (Sys.new (fun _ _ => 0) 4096 memDynamic)
      [.dalloc 1024 16, .ralloc 0 1024 2048 16, .ralloc 0 2048 9216 16] := by
  refine ⟨⟨⟨⟨4, rfl⟩, by decide, by decide⟩, ?_, ?_, trivial⟩, ?_⟩
  · exact ⟨⟨.dalloc, ⟨0, 0, 1024⟩⟩, rfl, rfl, rfl, by decide, by decide, by decide,
      ⟨⟨4, rfl⟩, by decide, by decide⟩, by decide⟩
  · exact ⟨⟨.dalloc, ⟨0, 0, 2048⟩⟩, rfl, rfl, rfl, by decide, by decide, by decide,
      ⟨⟨4, rfl⟩, by decide, by decide⟩, by decide⟩
  · rintro ⟨-, -, hright, -⟩
    obtain ⟨-, -, -, -, hall⟩ := hright ⟨.dalloc, ⟨0, 0, 2048⟩⟩ ⟨0, 2048, 9216⟩ rfl rfl
    exact absurd (hall 0 (by decide)) (by decide)

end Mempool
end Inac
