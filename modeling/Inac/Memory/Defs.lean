import Inac.Lib.Bytes
import Inac.Lib.Run
import Inac.Mempool.Wrap

/-!
# Blocks and what is in them (`src/memory.c`)

A block is in a region of `malloc`: the first multiple of the alignment that leaves room for a word
in front, and in that word the region's address. `ina_mem_realloc` finds the region there, has it
changed, and computes the block's place anew.

It does not look at what `realloc` answers. `NULL` is rounded like any other address, to 8, and is
stored at 0.
-/

namespace Inac
namespace Memory

open Lib Mempool

/-! ## The code

Sums of `size_t` wrap, as in `Inac.Mempool.Wrap`. -/

/-- The bytes of the address space. -/
abbrev Mem := Nat → UInt8

/-- `realloc` and `free`, with what they leave of the memory. `realloc` answers with an address, 0
    for `NULL`. -/
structure Stdlib where
  realloc : Nat → Nat → Mem → Nat × Mem
  free : Nat → Mem → Mem

/-- What a function returns, the memory it leaves, and the addresses of the words it wrote. -/
structure Result where
  ptr : Nat
  mem : Mem
  written : List Nat

def loadPtr (mem : Mem) (a : Nat) : Nat := readWord mem 8 a

def storePtr (mem : Mem) (a p : Nat) : Mem := putBytes mem a (wordBytes 8 p)

/-- `((size_t)p + sizeof(void*) + alignment - 1) & ~(alignment - 1)`. -/
def alignedPtr (p alignment : Nat) : Nat :=
  subSz (addSz (addSz p 8) alignment) 1 &&& (2 ^ 64 - 1 - (alignment - 1))

/-- `ina_mem_alloc_aligned` with the word it writes. -/
def inaMemAllocAlignedIn (M : Malloc) (alignment size : Nat) (mem : Mem) : Option (Given × Mem) :=
  (inaMemAllocAligned M alignment size).map fun g =>
    (g, storePtr mem (subSz g.ptr 8) g.base)

/-- `ina_mem_realloc`. -/
def inaMemRealloc (L : Stdlib) (mem : Mem) (ptr nb : Nat) : Result :=
  let p := loadPtr mem (subSz ptr 8)
  if nb = 0 then ⟨0, L.free p mem, []⟩
  else
    let r := L.realloc p (mallocBytes 8 nb) mem
    let ptr := alignedPtr r.1 8
    ⟨ptr, storePtr r.2 (subSz ptr 8) r.1, [subSz ptr 8]⟩

/-! ## Layouts

What a block of any alignment has, and that `ina_mem_alloc_aligned` gives it. -/

/-- A block of `size` bytes in its region: aligned, with its bytes and the word in front inside, and
    the region's address in that word. -/
structure Layout (alignment : Nat) (g : Given) (size : Nat) (mem : Mem) : Prop where
  aligned : alignment ∣ g.ptr
  holds : g.Holds size
  header : loadPtr mem (subSz g.ptr 8) = g.base

theorem loadPtr_storePtr (mem : Mem) {a p : Nat} (hp : p < 2 ^ 64) :
    loadPtr (storePtr mem a p) a = p := by
  rw [loadPtr, storePtr, readWord_putBytes, Nat.mod_eq_of_lt hp]

/-- A stored pointer is where it is, and nothing else has changed. -/
theorem storePtr_apart (mem : Mem) {a p x : Nat} (hx : a + 8 ≤ x) : storePtr mem a p x = mem x :=
  putBytes_of_le mem (by rw [wordBytes_length]; exact hx)

theorem alignedPtr_dvd {k p : Nat} (hk : k ≤ 64) (hp : p + (2 ^ k + 7) < 2 ^ 64) :
    2 ^ k ∣ alignedPtr p (2 ^ k) := by
  have hpos : 0 < 2 ^ k := Nat.two_pow_pos k
  have hsum : subSz (addSz (addSz p 8) (2 ^ k)) 1 = p + (2 ^ k + 7) := by
    rw [subSz, addSz, addSz]
    omega
  rw [alignedPtr, hsum, and_high_mask hp hk]
  exact Nat.dvd_mul_left ..

/-- Behind an address that is aligned itself the block is one word on. -/
theorem alignedPtr_of_dvd {p : Nat} (hdvd : 8 ∣ p) (hp : p + 15 < 2 ^ 64) :
    alignedPtr p 8 = p + 8 := by
  have hsum : subSz (addSz (addSz p 8) 8) 1 = p + 15 := by
    rw [subSz, addSz, addSz]
    omega
  have hmask : p + 15 &&& (2 ^ 64 - 1 - (8 - 1)) = (p + 15) / 8 * 8 :=
    and_high_mask (k := 3) hp (by decide)
  obtain ⟨n, rfl⟩ := hdvd
  rw [alignedPtr, hsum, hmask]
  omega

/-- What `ina_mem_alloc_aligned` gives for sums that do not wrap. -/
structure Placed (alignment size : Nat) (g : Given) : Prop where
  bytes : g.bytes = size + alignment + 7
  ptr : g.ptr = alignedPtr g.base alignment
  fits : g.base + g.bytes ≤ 2 ^ 64

section Alloc

variable {M : Malloc} {k size : Nat} (hsize : 0 < size)
  (hsum : size + 2 ^ k + 7 < 2 ^ 64) {mem mem' : Mem} {g : Given}
  (hg : inaMemAllocAlignedIn M (2 ^ k) size mem = some (g, mem'))
include hsize hsum hg

theorem inaMemAllocAlignedIn_placed : Placed (2 ^ k) size g := by
  have hmap : inaMemAllocAligned M (2 ^ k) size = _ :=
    (if_neg (Nat.ne_of_gt hsize)).trans (if_neg (Nat.ne_of_gt (Nat.two_pow_pos k)))
  rw [inaMemAllocAlignedIn, hmap, Option.map_map, Option.map_eq_some_iff] at hg
  obtain ⟨p, hp, heq⟩ := hg
  obtain ⟨rfl, -⟩ := Prod.mk.inj heq
  exact ⟨by rw [mallocBytes_eq, Nat.mod_eq_of_lt hsum], rfl, M.fits _ p hp⟩

/-- **`ina_mem_alloc_aligned`** lays its block out in its region. -/
theorem inaMemAllocAlignedIn_layout (hk : k < 64) : Layout (2 ^ k) g size mem' := by
  have hpos := Nat.two_pow_pos k
  have hplaced := inaMemAllocAlignedIn_placed hsize hsum hg
  have hfits := hplaced.fits
  rw [hplaced.bytes] at hfits
  obtain ⟨g, hgiven, heq⟩ := Option.map_eq_some_iff.mp hg
  obtain ⟨rfl, rfl⟩ := Prod.mk.inj heq
  have hholds := (allocFull_iff M hk (by omega)).mpr (Or.inr (Or.inl hsum)) g hgiven
  refine ⟨?_, hholds, loadPtr_storePtr _ (by omega)⟩
  rw [hplaced.ptr]
  exact alignedPtr_dvd (Nat.le_of_lt hk) (by omega)

end Alloc

end Memory
end Inac
