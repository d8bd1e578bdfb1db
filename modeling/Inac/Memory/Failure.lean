import Inac.Memory.Defs
import Inac.Str.Defs

/-!
# When `realloc` fails

`ina_mem_realloc` is to return `NULL` then. It rounds the `NULL` it got and returns 8, after it has
stored the `NULL` in the word at 0.

A string that grows has its new size written into the header before the memory is asked for, and
whether it was given is not looked at: the append goes on at the address it got.
-/

namespace Inac
namespace Memory

open Lib Mempool

/-! ## Strings in memory (`src/string.c`)

Only what an append reads and writes of the header: the size and the length. -/

/-- `hdr->size` without the mark of a pool. -/
def hdrSize (mem : Mem) (hdr : Nat) : Nat := readU32 mem hdr &&& (2 ^ 31 - 1)

def hdrLen (mem : Mem) (hdr : Nat) : Nat := readU32 mem (hdr + 4)

/-- The test of `__ina_ensure_size`. -/
def lacks (mem : Mem) (hdr len : Nat) : Prop :=
  ¬ (hdrSize mem hdr + 2 ^ 64 - hdrLen mem hdr - 1) % 2 ^ 64 > len

instance (mem : Mem) (hdr len : Nat) : Decidable (lacks mem hdr len) :=
  inferInstanceAs (Decidable (¬ _))

/-- `hdr->size = newlen + 1`. -/
def recordSize (mem : Mem) (hdr len : Nat) : Mem :=
  let newlen := hdrLen mem hdr + len
  let newlen := if newlen < Str.maxPrealloc then newlen * 2 else newlen + Str.maxPrealloc
  putBytes mem hdr (u32Bytes (newlen + 1))

/-- The size `__ina_ensure_size` asks for. -/
def growBytes (mem : Mem) (hdr len : Nat) : Nat := 8 + readU32 (recordSize mem hdr len) hdr

/-- `__ina_ensure_size`. -/
def ensureSize (L : Stdlib) (mem : Mem) (hdr len : Nat) : Result :=
  if lacks mem hdr len then
    inaMemRealloc L (recordSize mem hdr len) hdr (growBytes mem hdr len)
  else ⟨hdr, mem, []⟩

/-- `ina_str_ncat`, with the bytes of `src`. -/
def inaStrNcat (L : Stdlib) (mem : Mem) (dest : Nat) (src : List UInt8) : Nat × Mem :=
  let r := ensureSize L mem (subSz dest 8) src.length
  let len := hdrLen r.mem r.ptr + src.length
  let mem := putBytes r.mem (r.ptr + 8 + hdrLen r.mem r.ptr) src
  let mem := putBytes mem (r.ptr + 4) (u32Bytes len)
  (r.ptr + 8, putBytes mem (r.ptr + 8 + hdrLen mem r.ptr) [0])

/-! ## What is documented

`NULL` for a request that fails, and a string only in a block that has room for it. -/

/-- `realloc` answers `NULL` to the call that `ina_mem_realloc` makes. -/
def Fails (L : Stdlib) (mem : Mem) (ptr nb : Nat) : Prop :=
  L.realloc (loadPtr mem (subSz ptr 8)) (mallocBytes 8 nb) mem = (0, mem)

/-- A call that fails returns `NULL` and has done nothing. -/
structure FailureRight (L : Stdlib) (mem : Mem) (ptr nb : Nat) : Prop where
  null : (inaMemRealloc L mem ptr nb).ptr = 0
  silent : (inaMemRealloc L mem ptr nb).written = []
  unchanged : (inaMemRealloc L mem ptr nb).mem = mem

/-- A string is reported only in the block of `size` bytes at `ptr`, and with no more in its header
    than the block has. -/
def Reported (ptr size : Nat) (r : Nat × Mem) : Prop :=
  r.1 = 0 ∨ (r.1 = ptr + 8 ∧ readU32 r.2 ptr + 8 ≤ size)

/-! ## What happens

`NULL` rounded up to the next block is 8, and the word in front of it is at 0. -/

/-- **A call that fails** stores a word at 0 and returns 8. -/
theorem Fails.realloc_eq {L : Stdlib} {mem : Mem} {ptr nb : Nat} (h : Fails L mem ptr nb)
    (hnb : 0 < nb) : inaMemRealloc L mem ptr nb = ⟨8, storePtr mem 0 0, [0]⟩ := by
  have hfail : L.realloc (loadPtr mem (subSz ptr 8)) (mallocBytes 8 nb) mem = (0, mem) := h
  have height : alignedPtr 0 8 = 8 := alignedPtr_of_dvd (Nat.dvd_zero 8) (by decide)
  have hzero : subSz 8 8 = 0 := by decide
  simp only [inaMemRealloc, if_neg (Nat.ne_of_gt hnb), hfail, height, hzero]

theorem Fails.ensureSize_eq {L : Stdlib} {mem : Mem} {hdr len : Nat}
    (h : Fails L (recordSize mem hdr len) hdr (growBytes mem hdr len)) (hlacks : lacks mem hdr len) :
    ensureSize L mem hdr len = ⟨8, storePtr (recordSize mem hdr len) 0 0, [0]⟩ := by
  rw [ensureSize, if_pos hlacks, h.realloc_eq (Nat.add_pos_left (by decide) _)]

/-- **No call that fails is right.** Whatever block it is for and whatever size it asks for,
    `ina_mem_realloc` returns no `NULL` and writes, and an append whose growth fails reports a
    string that is in no block. -/
theorem realloc_failure_unnoticed (L : Stdlib) (mem : Mem) :
    (∀ ptr nb, 0 < nb → Fails L mem ptr nb → ¬ FailureRight L mem ptr nb) ∧
    (∀ M size mem₀ g mem₁, 0 < size → size + 15 < 2 ^ 64 →
      inaMemAllocAlignedIn M 8 size mem₀ = some (g, mem₁) → 0 < g.base →
      ∀ src, lacks mem g.ptr src.length →
        Fails L (recordSize mem g.ptr src.length) g.ptr (growBytes mem g.ptr src.length) →
        ¬ Reported g.ptr size (inaStrNcat L mem (g.ptr + 8) src)) := by
  constructor
  · intro ptr nb hnb hfail hright
    have hnull := hright.null
    rw [hfail.realloc_eq hnb] at hnull
    exact absurd hnull (Nat.succ_ne_zero 7)
  · intro M size mem₀ g mem₁ hsize hsum hg hbase src hlacks hfail hreported
    have hplaced := inaMemAllocAlignedIn_placed (k := 3) hsize hsum hg
    have hlayout := inaMemAllocAlignedIn_layout (k := 3) hsize hsum hg (by decide)
    have hfits := hplaced.fits
    have hlo := hlayout.holds.1
    have hhi := hlayout.holds.2
    have hhdr : subSz (g.ptr + 8) 8 = g.ptr := by
      rw [subSz]
      omega
    -- The append goes on with the header at 8, so the string it reports is at 16.
    have hptr : (inaStrNcat L mem (g.ptr + 8) src).1 = 16 := by
      rw [inaStrNcat, hhdr, hfail.ensureSize_eq hlacks]
    rcases hreported with hnull | ⟨hdest, -⟩
    · exact absurd (hptr.symm.trans hnull) (by decide)
    · have := hptr.symm.trans hdest
      omega

/-- A library without memory. -/
def Stdlib.refusing : Stdlib where
  realloc _ _ mem := (0, mem)
  free _ mem := mem

/-- A block of 100 bytes that cannot grow, and a string of one byte in it. -/
theorem realloc_failure_unnoticed_small :
    ¬ FailureRight .refusing (fun _ => 0) 4104 200 ∧
    ¬ Reported 4104 100
      (inaStrNcat .refusing (fun x => if x = 4104 then 1 else 0) 4112 [97]) := by
  constructor
  · exact (realloc_failure_unnoticed .refusing (fun _ => 0)).1 4104 200 (by decide) rfl
  · exact (realloc_failure_unnoticed .refusing (fun x => if x = 4104 then 1 else 0)).2 .small 100
      (fun _ => 0) ⟨4096, 115, 4104⟩ _ (by decide) (by decide) rfl (by decide) [97] (by decide) rfl

/-- The block of 100 bytes that `malloc` gave, and what becomes of the pointer to it. -/
theorem refused_realloc_not_null :
    inaMemAllocAlignedIn .small 8 100 (fun _ => 0) =
        some (⟨4096, 115, 4104⟩, storePtr (fun _ => 0) 4096 4096) ∧
      (inaMemRealloc .refusing (storePtr (fun _ => 0) 4096 4096) 4104 200).ptr = 8 ∧
      ¬ FailureRight .refusing (storePtr (fun _ => 0) 4096 4096) 4104 200 := by
  have height : (inaMemRealloc .refusing (storePtr (fun _ => 0) 4096 4096) 4104 200).ptr = 8 := rfl
  refine ⟨rfl, height, fun hright => ?_⟩
  exact absurd (height.symm.trans hright.null) (by decide)

end Memory
end Inac
