import Inac.Memory.Defs

/-!
# Blocks that grow and shrink

`ina_mem_realloc` rounds the region's new address as `ina_mem_alloc` did the old one. Regions are
aligned to a word, so the block is a word behind either, and what `realloc` kept of the region is
what the block had.

The size that `realloc` is asked for is a sum of `size_t`. For the fifteen largest sizes it wraps,
and the region is too small for the block.
-/

namespace Inac
namespace Memory

open Lib Mempool

/-- A block: its place, its size, and the memory. -/
structure Block extends Given where
  size : Nat
  mem : Mem

/-- A call of `ina_mem_realloc`: the new size, the memory it finds, and what `realloc` does. -/
structure Call where
  nb : Nat
  mem : Mem
  lib : Stdlib

/-- The region's address, as the call reads it. -/
def Call.region (c : Call) (b : Block) : Nat := loadPtr c.mem (subSz b.ptr 8)

/-- What `realloc` answers. -/
def Call.answer (c : Call) (b : Block) : Nat × Mem :=
  c.lib.realloc (c.region b) (mallocBytes 8 c.nb) c.mem

/-- The block after the call. -/
def realloc (b : Block) (c : Call) : Unit × Block :=
  let r := inaMemRealloc c.lib c.mem b.ptr c.nb
  ((), ⟨⟨(c.answer b).1, mallocBytes 8 c.nb, r.ptr⟩, c.nb, r.mem⟩)

/-- The word in front of the block has not been touched, and `realloc` gives a region at an aligned
    address, with the bytes of the old one as far as both go. -/
structure Succeeds (b : Block) (c : Call) : Prop where
  nb_pos : 0 < c.nb
  nb_lt : c.nb < 2 ^ 64
  header : c.region b = loadPtr b.mem (subSz b.ptr 8)
  aligned : 8 ∣ (c.answer b).1
  nonnull : (c.answer b).1 ≠ 0
  fits : (c.answer b).1 + mallocBytes 8 c.nb ≤ 2 ^ 64
  kept : ∀ i < min b.bytes (mallocBytes 8 c.nb),
    (c.answer b).2 ((c.answer b).1 + i) = c.mem (c.region b + i)

/-- The call lays the block out anew, with the bytes it had. -/
structure Right (b : Block) (c : Call) : Prop where
  layout : Layout 8 (realloc b c).2.toGiven c.nb (realloc b c).2.mem
  content : readBytes (realloc b c).2.mem (realloc b c).2.ptr (min b.size c.nb) =
    readBytes c.mem b.ptr (min b.size c.nb)

/-! ## One call

A region at a multiple of eight has its block one word behind its beginning, before the call and
after it, so `realloc` has moved the bytes to where they belong. -/

/-- A block laid out in a region that is aligned itself. -/
structure Sound (b : Block) : Prop where
  layout : Layout 8 b.toGiven b.size b.mem
  aligned : 8 ∣ b.base
  ptr : b.ptr = b.base + 8
  fits : b.base + b.bytes ≤ 2 ^ 64

theorem Layout.sound {g : Given} {size : Nat} {mem : Mem} (h : Layout 8 g size mem)
    (hdvd : 8 ∣ g.base) (hptr : g.ptr = g.base + 8) (hfits : g.base + g.bytes ≤ 2 ^ 64) :
    Sound ⟨g, size, mem⟩ := ⟨h, hdvd, hptr, hfits⟩

section Step

variable {b : Block} {c : Call} (hc : Succeeds b c)
include hc

theorem Succeeds.realloc_eq : (realloc b c).2 =
    ⟨⟨(c.answer b).1, mallocBytes 8 c.nb, alignedPtr (c.answer b).1 8⟩, c.nb,
      storePtr (c.answer b).2 (subSz (alignedPtr (c.answer b).1 8) 8) (c.answer b).1⟩ := by
  simp only [realloc, inaMemRealloc, if_neg (Nat.ne_of_gt hc.nb_pos)]
  rfl

/-- A size whose sum does not wrap has room behind the word. -/
theorem Succeeds.sound (hsum : c.nb + 15 < 2 ^ 64) : Sound (realloc b c).2 := by
  have hbytes : mallocBytes 8 c.nb = c.nb + 15 := by
    rw [mallocBytes_eq, Nat.mod_eq_of_lt hsum]
  have hfits := hc.fits
  have hpos := hc.nb_pos
  rw [hbytes] at hfits
  have hptr := alignedPtr_of_dvd hc.aligned (show (c.answer b).1 + 15 < 2 ^ 64 by omega)
  have hword : subSz ((c.answer b).1 + 8) 8 = (c.answer b).1 := by
    rw [subSz_of_le (by omega) (by omega), Nat.add_sub_cancel]
  rw [hc.realloc_eq, hptr, hbytes, hword]
  refine Layout.sound ⟨?_, ⟨Nat.le_refl _, ?_⟩, ?_⟩ hc.aligned rfl hfits
  · exact (Nat.dvd_add_iff_left (Nat.dvd_refl 8)).mp hc.aligned
  · dsimp only
    omega
  · rw [hword]
    exact loadPtr_storePtr _ (by omega)

/-- What was in the block is in it. -/
theorem Succeeds.content (hb : Sound b) (hsum : c.nb + 15 < 2 ^ 64) :
    readBytes (realloc b c).2.mem (realloc b c).2.ptr (min b.size c.nb) =
      readBytes c.mem b.ptr (min b.size c.nb) := by
  have hsound := hc.sound hsum
  have hbytes : mallocBytes 8 c.nb = c.nb + 15 := by
    rw [mallocBytes_eq, Nat.mod_eq_of_lt hsum]
  have hregion : c.region b = b.base := hc.header.trans hb.layout.header
  have hroom := hb.layout.holds.2
  have hfits := hsound.fits
  have hptr := hsound.ptr
  rw [hb.ptr] at hroom ⊢
  rw [hptr]
  refine readBytes_congr fun i hi => ?_
  have hkept := hc.kept (8 + i) (by rw [hbytes]; omega)
  rw [hregion] at hkept
  rw [hc.realloc_eq] at hptr hfits ⊢
  dsimp only at hptr hfits ⊢
  rw [hbytes] at hfits
  have hword : subSz (alignedPtr (c.answer b).1 8) 8 = (c.answer b).1 := by
    rw [hptr, subSz_of_le (by omega) (by omega), Nat.add_sub_cancel]
  rw [hword, storePtr_apart _ (by omega), Nat.add_assoc, hkept, Nat.add_assoc]

/-- A size whose sum wraps does not fit into what is left of the sum. -/
theorem Succeeds.not_right (hwrap : ¬ c.nb + 15 < 2 ^ 64) : ¬ Right b c := by
  intro hright
  obtain ⟨hlo, hhi⟩ := hright.layout.holds
  have hfits := hc.fits
  have hnonnull := hc.nonnull
  have hdvd := hc.aligned
  rw [hc.realloc_eq] at hlo hhi
  dsimp only at hlo hhi
  omega

/-- **A call is right exactly when the sum does not wrap.** -/
theorem Succeeds.right_iff (hb : Sound b) : Right b c ↔ ¬ 2 ^ 64 ≤ c.nb + 15 := by
  rw [Nat.not_le]
  refine ⟨fun hright => ?_, fun hsum => ⟨(hc.sound hsum).layout, hc.content hb hsum⟩⟩
  by_contra hwrap
  exact hc.not_right hwrap hright

end Step

/-! ## Sequences of calls -/

/-- **Blocks and sequences of `ina_mem_realloc`.** What `ina_mem_alloc_aligned` gives is laid out in
    its region; and from a block of `ina_mem_alloc` on, successful calls all keep the layout and the
    bytes exactly when no size is among the fifteen largest. -/
theorem alloc_realloc_layout (M : Malloc) :
    (∀ k, 3 ≤ k → k < 64 → ∀ size, 0 < size → size + 2 ^ k + 7 < 2 ^ 64 → ∀ mem g mem',
      inaMemAllocAlignedIn M (2 ^ k) size mem = some (g, mem') → Layout (2 ^ k) g size mem') ∧
    (∀ size, 0 < size → size + 15 < 2 ^ 64 → ∀ mem g mem',
      inaMemAllocAlignedIn M 8 size mem = some (g, mem') → 8 ∣ g.base →
      ∀ calls, Along realloc Succeeds ⟨g, size, mem'⟩ calls →
        (Along realloc Right ⟨g, size, mem'⟩ calls ↔ ∀ c ∈ calls, c.nb + 15 < 2 ^ 64)) := by
  constructor
  · intro k _ hk size hsize hsum mem g mem' hg
    exact inaMemAllocAlignedIn_layout hsize hsum hg hk
  · intro size hsize hsum mem g mem' hg hdvd calls hcalls
    have hlayout : Layout 8 g size mem' :=
      inaMemAllocAlignedIn_layout (k := 3) hsize hsum hg (by decide)
    have hplaced : Placed 8 size g :=
      inaMemAllocAlignedIn_placed (k := 3) hsize hsum hg
    have hfits := hplaced.fits
    rw [hplaced.bytes] at hfits
    have hptr := hplaced.ptr.trans (alignedPtr_of_dvd hdvd (by omega))
    have hsound := hlayout.sound hdvd hptr hplaced.fits
    rw [along_iff_never (I := Sound) (B := fun _ c => 2 ^ 64 ≤ c.nb + 15)
      (fun b c hc hno _ => hc.sound (Nat.lt_of_not_le hno)) (fun b c hc hb => hc.right_iff hb)
      hcalls hsound, never_iff_forall]
    exact forall₂_congr fun c _ => Nat.not_le

/-- A library that moves every region by a page. -/
def Stdlib.moving : Stdlib where
  realloc p _ mem := (p + 4096, fun x => mem (x - 4096))
  free _ mem := mem

/-- A block of 100 bytes in a region of 115. -/
def Block.hundred : Block := ⟨⟨4096, 115, 4104⟩, 100, storePtr (fun _ => 0) 4096 4096⟩

theorem hundred_region (nb : Nat) (lib : Stdlib) :
    Call.region ⟨nb, Block.hundred.mem, lib⟩ .hundred = 4096 :=
  loadPtr_storePtr _ (by decide)

theorem hundred_succeeds {nb : Nat} (hpos : 0 < nb) (hlt : nb < 2 ^ 64)
    (hfits : 8192 + mallocBytes 8 nb ≤ 2 ^ 64) :
    Succeeds .hundred ⟨nb, Block.hundred.mem, .moving⟩ := by
  have hregion := hundred_region nb .moving
  have haddr : (Call.answer ⟨nb, Block.hundred.mem, .moving⟩ .hundred).1 = 8192 :=
    congrArg (· + 4096) hregion
  refine ⟨hpos, hlt, rfl, ?_, ?_, ?_, fun i _ => ?_⟩
  · rw [haddr]
    decide
  · rw [haddr]
    decide
  · rw [haddr]
    exact hfits
  · rw [haddr, hregion]
    have hback : 8192 + i - 4096 = 4096 + i := by omega
    simp only [Call.answer, Stdlib.moving, hback]

/-- Two blocks, and one of them made larger. -/
theorem alloc_realloc_layout_small :
    Layout (2 ^ 4) ⟨4096, 123, 4112⟩ 100 (storePtr (fun _ => 0) 4104 4096) ∧
      Along realloc Right .hundred [⟨200, Block.hundred.mem, .moving⟩] := by
  obtain ⟨halloc, hrealloc⟩ := alloc_realloc_layout .small
  constructor
  · exact halloc 4 (by decide) (by decide) 100 (by decide) (by decide) (fun _ => 0) _ _ rfl
  · refine (hrealloc 100 (by decide) (by decide) (fun _ => 0) _ _ rfl (by decide) _ ?_).mpr ?_
    · exact ⟨hundred_succeeds (by decide) (by decide) (by decide), trivial⟩
    · simp

/-- The largest size there is: `realloc` succeeds with 14 bytes for it. -/
theorem largest_realloc_short :
    Succeeds .hundred ⟨2 ^ 64 - 1, Block.hundred.mem, .moving⟩ ∧
      ¬ Right .hundred ⟨2 ^ 64 - 1, Block.hundred.mem, .moving⟩ := by
  have hsucc : Succeeds .hundred ⟨2 ^ 64 - 1, Block.hundred.mem, .moving⟩ :=
    hundred_succeeds (by decide) (by decide) (by decide)
  exact ⟨hsucc, hsucc.not_right (by decide)⟩

end Memory
end Inac
