import Inac.Str.Pooled
import Inac.Str.Refine

/-!
# `ina_str_substr`

`__ina_str_substr_internal` computes `(end - start) + 1` before it clamps `end` to the string. The
sum wraps for one pair of arguments, the whole range of `size_t`, and zero is also what it uses for
an empty selection: the call that asks for everything gets nothing.

The two variants differ in one more place. `data + start` is computed for every `start`, and the
pool variant refuses a `NULL` block where the one on the heap takes it for an empty one.

The length is treated in `Inac.Str.Pooled`, which needs it for the variant in a pool
(`strSubstrInternal_eq`). Both variants are then the copy of a block.
-/

namespace Inac
namespace Str

open Mempool (Env Heap addSz subSz)

def inaStrSubstr (junk : Nat → UInt8) (str : Source) (start stop : Nat) : Option Hdr :=
  inaStrNewFromblk junk (str.block start) (strSubstrInternal start stop str.bytes.length)

/-- The bytes at the positions from `start` to `stop`, as far as there are any. -/
def substr (bs : List UInt8) (start stop : Nat) : List UInt8 :=
  if stop < start ∨ bs.length ≤ start then []
  else (bs.drop start).take (min stop (bs.length - 1) - start + 1)

/-- `ina_str_substr` gives them. -/
def HeapSubstr (junk : Nat → UInt8) (str : Source) (start stop : Nat) : Prop :=
  ∃ hdr, inaStrSubstr junk str start stop = some hdr ∧
    hdr.len = (substr str.bytes start stop).length ∧
    hdr.data.take hdr.len = substr str.bytes start stop

/-- A pool with room for them gives them. -/
def PoolSubstr (E : Env) (h : Heap) (pool : Nat) (str : Source) (start stop : Nat) : Prop :=
  ∀ hdr h',
    inaMempoolDalloc E h pool (addSz (addSz (substr str.bytes start stop).length 1) 8) =
      (.ok hdr, h') →
    ∃ h'', inaStrSubstrUsingPool E h str start stop (some pool) = (.ok hdr, h'') ∧
      Content h'' hdr (substr str.bytes start stop)

/-- Everything is asked for, of a string that has something. -/
def AsksAll (str : Source) (start stop : Nat) : Prop :=
  str.bytes ≠ [] ∧ start = 0 ∧ stop = 2 ^ 64 - 1

theorem substr_length (bs : List UInt8) (start stop : Nat) :
    (substr bs start stop).length =
      if stop < start ∨ bs.length ≤ start then 0 else min stop (bs.length - 1) - start + 1 := by
  rw [substr]
  split
  · rfl
  · rw [List.length_take, List.length_drop]
    omega

theorem range_wraps_iff {start stop : Nat} (hle : start ≤ stop) (hstop : stop < 2 ^ 64) :
    addSz (subSz stop start) 1 = 0 ↔ start = 0 ∧ stop = 2 ^ 64 - 1 := by
  rw [Mempool.subSz_of_le hle hstop, addSz]
  omega

theorem take_substr_length (bs : List UInt8) (start stop : Nat) :
    (bs.drop start).take (substr bs start stop).length = substr bs start stop := by
  rw [substr_length, substr]
  split
  · exact List.take_zero
  · rfl

section Substr

variable (str : Source) {start stop : Nat}

/-- The length is right unless everything is asked for. -/
theorem strSubstrInternal_length (hstop : stop < 2 ^ 64) (hall : ¬ AsksAll str start stop) :
    strSubstrInternal start stop str.bytes.length = (substr str.bytes start stop).length := by
  have hlen := str.len_lt
  rw [strSubstrInternal_eq start stop (by omega), substr_length]
  refine if_congr ?_ rfl rfl
  constructor
  · rintro (hzero | hlt | hwrap | hle)
    · exact Or.inr (hzero ▸ Nat.zero_le _)
    · exact Or.inl hlt
    · by_cases hle : start ≤ stop
      · obtain ⟨hs, he⟩ := (range_wraps_iff hle hstop).mp hwrap
        have hnil : str.bytes = [] := by
          by_contra hne
          exact hall ⟨hne, hs, he⟩
        exact Or.inr (by rw [hnil]; exact Nat.zero_le _)
      · exact Or.inl (Nat.lt_of_not_le hle)
    · exact Or.inr hle
  · rintro (hlt | hle)
    · exact Or.inr (Or.inl hlt)
    · exact Or.inr (Or.inr (Or.inr hle))

/-- A pointer that wraps to `NULL` is behind the string. -/
theorem Source.length_lt_of_null (hstart : start < 2 ^ 64) (hnull : addSz str.addr start = 0) :
    str.bytes.length < start := by
  have hpos := str.not_null
  have hfits := str.fits
  rw [addSz] at hnull
  omega

/-- What `ina_str_substr` makes of the length. -/
theorem inaStrSubstr_eq (junk : Nat → UInt8) (hstart : start < 2 ^ 64) (stop : Nat) :
    ∃ hdr, inaStrSubstr junk str start stop = some hdr ∧
      hdr.len = strSubstrInternal start stop str.bytes.length ∧
      hdr.data.take hdr.len =
        (str.bytes.drop start).take (strSubstrInternal start stop str.bytes.length) := by
  have hlen := str.len_lt
  have hle := strSubstrInternal_le start stop (Nat.lt_trans hlen (by decide))
  by_cases hnull : addSz str.addr start = 0
  · have hbehind := str.length_lt_of_null hstart hnull
    have hzero : strSubstrInternal start stop str.bytes.length = 0 := by omega
    rw [inaStrSubstr, Source.block, if_pos hnull, hzero, inaStrNewFromblk, inaStrNew_eq]
    exact ⟨_, rfl, rfl, rfl⟩
  · have hblk : strSubstrInternal start stop str.bytes.length ≤ (str.bytes.drop start).length := by
      rw [List.length_drop]
      exact hle
    have hmod : strSubstrInternal start stop str.bytes.length % 2 ^ 32 =
        strSubstrInternal start stop str.bytes.length := Nat.mod_eq_of_lt (by omega)
    rw [inaStrSubstr, Source.block, if_neg hnull, inaStrNewFromblk_eq junk hblk, hmod]
    refine ⟨_, rfl, rfl, ?_⟩
    exact List.take_left' (List.length_take_of_le hblk)

/-- **On the heap**, the bytes asked for unless that is everything. -/
theorem heapSubstr_iff (junk : Nat → UInt8) (hstart : start < 2 ^ 64) (hstop : stop < 2 ^ 64) :
    HeapSubstr junk str start stop ↔ ¬ AsksAll str start stop := by
  obtain ⟨hdr, heq, hlen, hbytes⟩ := inaStrSubstr_eq str junk hstart stop
  constructor
  · rintro ⟨hdr', heq', hlen', -⟩ ⟨hne, rfl, rfl⟩
    obtain rfl := Option.some.inj (heq.symm.trans heq')
    have hpos : 0 < str.bytes.length := List.length_pos_iff.mpr hne
    have hlt := str.len_lt
    rw [hlen, strSubstrInternal_eq _ _ (by omega), substr_length,
      if_pos (Or.inr (Or.inr (Or.inl (by decide)))), if_neg (by omega)] at hlen'
    omega
  · intro hall
    rw [strSubstrInternal_length str hstop hall] at hlen hbytes
    rw [take_substr_length] at hbytes
    exact ⟨hdr, heq, hlen, hbytes⟩

/-- **From a pool**, the bytes asked for unless that is everything or the block is `NULL`. -/
theorem poolSubstr_of (hstop : stop < 2 ^ 64) (hall : ¬ AsksAll str start stop)
    (hnull : addSz str.addr start ≠ 0) (E : Env) (h : Heap) (pool : Nat) :
    PoolSubstr E h pool str start stop := by
  intro hdr h' hd
  have hlt := str.len_lt
  have hlen := strSubstrInternal_length str hstop hall
  have hle := strSubstrInternal_le start stop (Nat.lt_trans hlt (by decide))
  have hblk : strSubstrInternal start stop str.bytes.length ≤ (str.bytes.drop start).length := by
    rw [List.length_drop]
    exact hle
  have hcopied : inaStrSubstrUsingPool E h str start stop (some pool) =
      copied E h pool (substr str.bytes start stop) := by
    rw [inaStrSubstrUsingPool, Source.block, if_neg hnull,
      inaStrNewFromblkUsingPool_eq E h pool hblk, hlen, take_substr_length]
  refine ⟨_, hcopied.trans (copied_ok hd), ?_, fun i hi => dataAt_strPut h' hdr hi⟩
  rw [inaStrLen_strPut, Nat.mod_eq_of_lt (by omega)]

/-- A pool with room refuses a `NULL` block. -/
theorem not_poolSubstr_of_null (hstart : start < 2 ^ 64) (hnull : addSz str.addr start = 0) :
    ∃ E h pool, ¬ PoolSubstr E h pool str start stop := by
  have hbehind := str.length_lt_of_null hstart hnull
  have hempty : substr str.bytes start stop = [] := if_pos (Or.inr (Nat.le_of_lt hbehind))
  obtain ⟨h, h', hd⟩ : ∃ h h', inaMempoolDalloc .ample h 0 (addSz (addSz 0 1) 8) =
      (.ok ⟨0, 0⟩, h') :=
    ⟨(Mempool.inaMempoolNew ⟨0, fun _ => default, fun _ _ => 0⟩ 1024 0).2, _, rfl⟩
  refine ⟨.ample, h, 0, fun hpool => ?_⟩
  rw [PoolSubstr, hempty] at hpool
  obtain ⟨h'', heq, -⟩ := hpool _ _ hd
  rw [inaStrSubstrUsingPool, Source.block, if_pos hnull, inaStrNewFromblkUsingPool] at heq
  cases heq

/-- **Substrings are right exactly when the range does not wrap.** For every string and every
    `start` and `end`: both variants give the bytes from `start` to `end` or to the end of the
    string, and none where there are none, if and only if it is not everything that is asked for
    and the pointer to the first byte does not wrap to `NULL`. -/
theorem substr_iff_range_fits (hstart : start < 2 ^ 64) (hstop : stop < 2 ^ 64) :
    ((∀ junk, HeapSubstr junk str start stop) ∧
      ∀ E h pool, PoolSubstr E h pool str start stop) ↔
    ¬ AsksAll str start stop ∧ addSz str.addr start ≠ 0 := by
  constructor
  · rintro ⟨hheap, hpool⟩
    refine ⟨(heapSubstr_iff str _ hstart hstop).mp (hheap fun _ => 0), fun hnull => ?_⟩
    obtain ⟨E, h, pool, hno⟩ := not_poolSubstr_of_null str hstart hnull
    exact hno (hpool E h pool)
  · rintro ⟨hall, hnull⟩
    exact ⟨fun junk => (heapSubstr_iff str junk hstart hstop).mpr hall,
      fun E h pool => poolSubstr_of str hstop hall hnull E h pool⟩

end Substr

/-- Five bytes at an address. -/
def Source.hello : Source := ⟨4096, [104, 101, 108, 108, 111], by decide, by decide, by decide⟩

/-- From the second byte to far behind the end. -/
theorem substr_iff_range_fits_tail :
    (∀ junk, HeapSubstr junk .hello 1 (2 ^ 64 - 1)) ∧
      ∀ E h pool, PoolSubstr E h pool .hello 1 (2 ^ 64 - 1) := by
  refine (substr_iff_range_fits .hello (by decide) (by decide)).mpr ⟨?_, by decide⟩
  rintro ⟨-, hstart, -⟩
  exact absurd hstart (by decide)

/-- From the first byte to far behind the end: nothing. -/
theorem whole_range_empty :
    inaStrSubstr (fun _ => 0) .hello 0 (2 ^ 64 - 1) = some ⟨1, 0, [0]⟩ ∧
      substr Source.hello.bytes 0 (2 ^ 64 - 1) = [104, 101, 108, 108, 111] ∧
      ¬ ∀ junk, HeapSubstr junk .hello 0 (2 ^ 64 - 1) := by
  refine ⟨by decide, by decide, fun hall => ?_⟩
  obtain ⟨hdr, heq, hlen, -⟩ := hall fun _ => 0
  have hempty : inaStrSubstr (fun _ => 0) .hello 0 (2 ^ 64 - 1) = some ⟨1, 0, [0]⟩ := by decide
  obtain rfl := Option.some.inj (hempty.symm.trans heq)
  exact absurd hlen (by decide)

end Str
end Inac
