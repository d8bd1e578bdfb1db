import Mathlib.Data.Nat.Bitwise
import Inac.Lib.Run
import Inac.Str.Defs

/-!
# Heap strings refine byte sequences

A header represents a byte sequence `s` when its buffer starts with `s` and a NUL, `len` is the
length of `s`, and `size` is the buffer's whole length (`Rep`). `__ina_ensure_size` leaves room for
the bytes asked for *and* the NUL, in each of its three ways (room enough, doubling, adding
512 KiB), and never a smaller buffer: it only allocates when the old size is at most one more than
what is asked for. Every operation that writes then does the same thing, bytes from some index on
and a NUL behind them (`Rep.write`).
-/

namespace Inac
namespace Str

open Lib

/-! ## C strings

The bytes up to the NUL. -/

theorem takeWhile_cstr {s : List UInt8} (hs : 0 ∉ s) (rest : List UInt8) :
    (s ++ 0 :: rest).takeWhile (· ≠ 0) = s := by
  rw [List.takeWhile_append_of_pos]
  · simp
  · intro x hx
    simp only [ne_eq, decide_not, Bool.not_eq_eq_eq_not, Bool.not_true, decide_eq_false_iff_not]
    rintro rfl
    exact hs hx

theorem strlen_cstr {s : List UInt8} (hs : 0 ∉ s) (rest : List UInt8) :
    strlen (s ++ 0 :: rest) = s.length := by
  rw [strlen, takeWhile_cstr hs]

/-! ## Representation

`Rep` has the fields of the header in terms of the sequence. All writes go through `Rep.write`, so
the bounds are looked at once. -/

/-- The header represents the byte sequence `s`. -/
structure Rep (h : Hdr) (s : List UInt8) : Prop where
  data : ∃ rest, h.data = s ++ 0 :: rest
  len : h.len = s.length
  size : h.size = h.data.length
  size_lt : h.size < 2 ^ 31

theorem Rep.len_lt {h : Hdr} {s : List UInt8} (hr : Rep h s) : h.len < h.data.length := by
  obtain ⟨rest, hdata⟩ := hr.data
  rw [hr.len, hdata, List.length_append, List.length_cons]
  omega

theorem Rep.take {h : Hdr} {s : List UInt8} (hr : Rep h s) {i : Nat} (hi : i ≤ s.length) :
    h.data.take i = s.take i := by
  obtain ⟨rest, hdata⟩ := hr.data
  rw [hdata, List.take_append_of_le_length hi]

/-- **Bytes and a NUL.** Writing `bs` from an index of the string on, and a NUL behind it, is in
    bounds when there is room for both, and leaves the string cut at the index with `bs`
    appended. -/
theorem Rep.write {h : Hdr} {s : List UInt8} (hr : Rep h s) (bs : List UInt8) {i : Nat}
    (hi : i ≤ s.length) (hroom : i + bs.length < h.size) :
    ∃ b data, store h.data i bs = some b ∧ store b (i + bs.length) [0] = some data ∧
      data.length = h.data.length ∧ Rep ⟨h.size, i + bs.length, data⟩ (s.take i ++ bs) := by
  have hroom' : i + bs.length < h.data.length := by rw [← hr.size]; exact hroom
  have hstore := store_store_singleton (0 : UInt8) hroom'
  rw [store_eq (Nat.le_of_lt hroom'), Option.bind_some] at hstore
  have hlen : (h.data.take i ++ bs ++ 0 :: h.data.drop (i + bs.length + 1)).length =
      h.data.length := by
    simp only [List.length_append, List.length_take, List.length_cons, List.length_drop]
    omega
  refine ⟨_, _, store_eq (Nat.le_of_lt hroom'), hstore, hlen,
    ⟨h.data.drop (i + bs.length + 1), ?_⟩, ?_, ?_, hr.size_lt⟩
  · rw [hr.take hi]
  · rw [List.length_append, List.length_take_of_le hi]
  · rw [hlen]; exact hr.size

/-! ## `__ina_ensure_size`

The test is `size - len - 1 > n`, which asks for one byte more than is needed. -/

theorem memRealloc_length (junk : Nat → UInt8) (buf : List UInt8) (n : Nat) :
    (memRealloc junk buf n).length = n := by
  rw [memRealloc, List.length_append, List.length_take, List.length_map, List.length_range]
  omega

theorem memRealloc_grow (junk : Nat → UInt8) {buf : List UInt8} {n : Nat} (h : buf.length ≤ n) :
    ∃ rest, memRealloc junk buf n = buf ++ rest := by
  rw [memRealloc, List.take_of_length_le h]
  exact ⟨_, rfl⟩

/-- What `__ina_ensure_size` gives: the same string, room for `n` more bytes and the NUL, and no
    smaller a buffer. -/
structure Ensures (h d : Hdr) (s : List UInt8) (n : Nat) : Prop where
  rep : Rep d s
  room : s.length + n < d.size
  grows : h.data.length ≤ d.data.length

/-- The length a buffer that grows is made for. -/
def grownLen (len n : Nat) : Nat :=
  if len + n < maxPrealloc then (len + n) * 2 else len + n + maxPrealloc

/-- It covers the old length and the request, and stays near them. -/
theorem grownLen_bounds (len n : Nat) :
    len + n ≤ grownLen len n ∧ grownLen len n ≤ len + n + maxPrealloc := by
  rw [grownLen]
  split <;> omega

/-- The bytes `__ina_ensure_size` finds unused. -/
theorem Rep.unused {h : Hdr} {s : List UInt8} (hr : Rep h s) :
    ((h.size &&& (2 ^ 31 - 1)) + 2 ^ 64 - h.len - 1) % 2 ^ 64 = h.size - h.len - 1 := by
  have hlen := hr.len_lt
  have hsize := hr.size
  have hlt := hr.size_lt
  rw [Nat.and_two_pow_sub_one_eq_mod, Nat.mod_eq_of_lt hlt]
  have hsum : h.size + 2 ^ 64 - h.len - 1 = h.size - h.len - 1 + 2 ^ 64 := by omega
  rw [hsum, Nat.add_mod_right, Nat.mod_eq_of_lt (by omega)]

/-- **`__ina_ensure_size`** does so when there is room, or when the new size leaves the top bit
    alone. -/
theorem ensureSize_ensures {h : Hdr} {s : List UInt8} (hr : Rep h s) (junk : Nat → UInt8) {n : Nat}
    (hn : h.size - h.len - 1 > n ∨ grownLen h.len n + 1 < 2 ^ 31) :
    Ensures h (ensureSize junk h n) s n := by
  have hlen := hr.len_lt
  have hsize := hr.size
  have hlt := hr.size_lt
  simp only [ensureSize, hr.unused]
  by_cases hroom : h.size - h.len - 1 > n
  · rw [if_pos hroom]
    refine ⟨hr, ?_, Nat.le_refl _⟩
    have := hr.len
    omega
  · rw [if_neg hroom]
    have hbounds := grownLen_bounds h.len n
    have hsmall := hn.resolve_left hroom
    rw [grownLen] at hbounds hsmall
    -- Twice the length that is needed, or half a megabyte more.
    generalize (if h.len + n < maxPrealloc then (h.len + n) * 2
      else h.len + n + maxPrealloc) = newlen at hbounds hsmall
    rw [Nat.mod_eq_of_lt (by omega)]
    have hle : h.data.length ≤ newlen + 1 := by omega
    obtain ⟨rest, hdata⟩ := memRealloc_grow junk hle
    have hcap := memRealloc_length junk h.data (newlen + 1)
    obtain ⟨rest', hdata'⟩ := hr.data
    refine ⟨⟨⟨rest' ++ rest, ?_⟩, hr.len, hcap.symm, hsmall⟩, ?_, ?_⟩
    · show memRealloc junk h.data (newlen + 1) = _
      rw [hdata, hdata', List.append_assoc, List.cons_append]
    · have := hr.len
      show s.length + n < newlen + 1
      omega
    · show h.data.length ≤ (memRealloc junk h.data (newlen + 1)).length
      rw [hcap]; exact hle

/-- Far below two gigabytes it always does. -/
theorem Rep.ensures {h : Hdr} {s : List UInt8} (hr : Rep h s) (junk : Nat → UInt8) {n : Nat}
    (hn : s.length + n < 2 ^ 30) : Ensures h (ensureSize junk h n) s n := by
  refine ensureSize_ensures hr junk (Or.inr ?_)
  have hbounds := grownLen_bounds h.len n
  have hmax : maxPrealloc = 2 ^ 19 := rfl
  have hlen := hr.len
  omega

/-! ## Construction -/

theorem memAlloc_length (junk : Nat → UInt8) (n : Nat) : (memAlloc junk n).length = n := by
  rw [memAlloc, List.length_map, List.length_range]

theorem inaStrNew_eq (junk : Nat → UInt8) (len : Nat) :
    inaStrNew junk len =
      some ⟨(len + 1) % 2 ^ 32, 0, 0 :: (memAlloc junk (len + 1)).drop 1⟩ := by
  have hroom : 0 + [(0 : UInt8)].length ≤ (memAlloc junk (len + 1)).length := by
    rw [memAlloc_length]; exact Nat.le_add_left 1 len
  rw [inaStrNew, store_eq hroom]
  rfl

/-- **`ina_str_new_fromblk`** of any length: the buffer is the block and a NUL, whatever the two
    32-bit fields say. -/
theorem inaStrNewFromblk_eq (junk : Nat → UInt8) {blk : List UInt8} {len : Nat}
    (hblk : len ≤ blk.length) :
    inaStrNewFromblk junk (some blk) len =
      some ⟨(len + 1) % 2 ^ 32, len % 2 ^ 32, blk.take len ++ [0]⟩ := by
  have hlen : (blk.take len).length = len := List.length_take_of_le hblk
  have hcap : (0 :: (memAlloc junk (len + 1)).drop 1).length = len + 1 := by
    rw [List.length_cons, List.length_drop, memAlloc_length]
    rfl
  have hroom : 0 + (blk.take len).length < (0 :: (memAlloc junk (len + 1)).drop 1).length := by
    omega
  have hwrite := store_store_singleton (0 : UInt8) hroom
  have hrest : (0 :: (memAlloc junk (len + 1)).drop 1).drop (0 + len + 1) = [] :=
    List.drop_of_length_le (by omega)
  rw [hlen, hrest, List.take_zero, List.nil_append, Nat.zero_add] at hwrite
  simp only [inaStrNewFromblk, inaStrNew_eq, Option.bind_eq_bind, Option.bind_some]
  by_cases hz : len > 0
  · rw [if_pos hz, memCpy, if_pos hblk, ← Option.bind_assoc, hwrite, Option.bind_some]
  · obtain rfl : len = 0 := by omega
    rw [List.take_zero, store_nil (Nat.zero_le _), Option.bind_some] at hwrite
    rw [if_neg hz, hwrite, Option.bind_some, List.take_zero]

theorem inaStrNew_rep (junk : Nat → UInt8) {len : Nat} (hlen : len < 2 ^ 30) :
    ∃ h, inaStrNew junk len = some h ∧ Rep h [] ∧ h.size = len + 1 := by
  rw [inaStrNew_eq, Nat.mod_eq_of_lt (by omega)]
  refine ⟨_, rfl, ⟨⟨(memAlloc junk (len + 1)).drop 1, rfl⟩, rfl, ?_, ?_⟩, rfl⟩
  · show len + 1 = (0 :: (memAlloc junk (len + 1)).drop 1).length
    rw [List.length_cons, List.length_drop, memAlloc_length]
    omega
  · show len + 1 < 2 ^ 31
    omega

theorem inaStrNew_fill (junk : Nat → UInt8) {len : Nat} (bs : List UInt8) (hlen : len < 2 ^ 30)
    (hbs : bs.length = len) :
    ∃ h b data, inaStrNew junk len = some h ∧ store h.data 0 bs = some b ∧
      store b len [0] = some data ∧ Rep ⟨h.size, len, data⟩ bs := by
  obtain ⟨h, hnew, hr, hsize⟩ := inaStrNew_rep junk hlen
  obtain ⟨b, data, hb, hd, -, hrep⟩ := hr.write bs (Nat.zero_le _) (by omega)
  rw [Nat.zero_add, hbs] at hd hrep
  exact ⟨h, b, data, hnew, hb, hd, hrep⟩

theorem inaStrNewFromblk_rep (junk : Nat → UInt8) {blk : List UInt8} {len : Nat}
    (hlen : len < 2 ^ 30) (hblk : len ≤ blk.length) :
    ∃ h, inaStrNewFromblk junk (some blk) len = some h ∧ Rep h (blk.take len) := by
  obtain ⟨h, b, data, hnew, hb, hd, hrep⟩ :=
    inaStrNew_fill junk _ hlen (List.length_take_of_le hblk)
  refine ⟨⟨h.size, len, data⟩, ?_, hrep⟩
  simp only [inaStrNewFromblk, hnew, Option.bind_eq_bind, Option.bind_some,
    Nat.mod_eq_of_lt (show len < 2 ^ 32 by omega)]
  by_cases hz : len > 0
  · simp only [if_pos hz, memCpy, if_pos hblk, hb, hd, Option.bind_some]
  · obtain rfl : len = 0 := by omega
    rw [List.take_zero, store_nil (Nat.zero_le _)] at hb
    rw [if_neg hz, Option.some.inj hb, hd, Option.bind_some]

theorem inaStrNewFromcstr_rep (junk : Nat → UInt8) {cstr : List UInt8}
    (hlen : strlen cstr < 2 ^ 30) :
    ∃ h, inaStrNewFromcstr junk (some cstr) = some h ∧ Rep h (cstr.takeWhile (· ≠ 0)) := by
  have hle : strlen cstr ≤ cstr.length := (List.takeWhile_prefix _).length_le
  have htake : cstr.take (strlen cstr) = cstr.takeWhile (· ≠ 0) :=
    (List.prefix_iff_eq_take.mp (List.takeWhile_prefix _)).symm
  obtain ⟨h, b, data, hnew, hb, hd, hrep⟩ :=
    inaStrNew_fill junk _ hlen (List.length_take_of_le hle)
  refine ⟨⟨h.size, strlen cstr, data⟩, ?_, htake ▸ hrep⟩
  simp only [inaStrNewFromcstr, hnew, Option.bind_eq_bind, Option.bind_some, memCpy, if_pos hle, hb,
    hd, Nat.mod_eq_of_lt (show strlen cstr < 2 ^ 32 by omega)]

theorem inaStrNewFromcstr_null (junk : Nat → UInt8) :
    ∃ h, inaStrNewFromcstr junk none = some h ∧ Rep h [] := by
  obtain ⟨h, b, data, hnew, hb, hd, hrep⟩ :=
    inaStrNew_fill junk [] (Nat.two_pow_pos 30) List.length_nil
  rw [store_nil (Nat.zero_le _)] at hb
  refine ⟨⟨h.size, 0, data⟩, ?_, hrep⟩
  simp only [inaStrNewFromcstr, hnew, Option.bind_eq_bind, Option.bind_some, Option.some.inj hb, hd,
    Nat.zero_mod]

/-! ## Operations

For each operation: where it writes, and that the room it has asked for is enough. -/

/-- What an operation gives: a string, and no smaller a buffer. -/
def Yields (h : Hdr) (r : Option Hdr) (s : List UInt8) : Prop :=
  ∃ h', r = some h' ∧ Rep h' s ∧ h.data.length ≤ h'.data.length

theorem Ensures.write {h d : Hdr} {s : List UInt8} {n : Nat} (he : Ensures h d s n)
    (bs : List UInt8) {i : Nat} (hi : i ≤ s.length) (hn : i + bs.length ≤ s.length + n) :
    ∃ b data, store d.data i bs = some b ∧ store b (i + bs.length) [0] = some data ∧
      Rep ⟨d.size, i + bs.length, data⟩ (s.take i ++ bs) ∧ h.data.length ≤ data.length := by
  obtain ⟨b, data, hb, hd, hcap, hrep⟩ := he.rep.write bs hi (Nat.lt_of_le_of_lt hn he.room)
  refine ⟨b, data, hb, hd, hrep, ?_⟩
  rw [hcap]; exact he.grows

theorem Ensures.lt {h d : Hdr} {s : List UInt8} {n : Nat} (he : Ensures h d s n) :
    s.length + n < 2 ^ 32 := by
  have hroom := he.room
  have hlt := he.rep.size_lt
  omega

theorem inaStrNcpy_yields {h : Hdr} {s src : List UInt8} {junk : Nat → UInt8} {n : Nat}
    (hens : Ensures h (ensureSize junk h n) s n) (hsrc : n ≤ src.length) :
    Yields h (inaStrNcpy junk h (some src) n) (src.take n) := by
  have hlen : (src.take n).length = n := List.length_take_of_le hsrc
  have hlt := hens.lt
  obtain ⟨b, data, hb, hd, hrep, hcap⟩ := hens.write (src.take n) (Nat.zero_le _) (by omega)
  rw [Nat.zero_add, hlen] at hd hrep
  refine ⟨⟨(ensureSize junk h n).size, n, data⟩, ?_, hrep, hcap⟩
  simp only [inaStrNcpy, memCpy, if_pos hsrc, Option.bind_eq_bind, hb, Option.bind_some, hd,
    Nat.mod_eq_of_lt (show n < 2 ^ 32 by omega)]

theorem inaStrNcat_yields {h : Hdr} {s src : List UInt8} {junk : Nat → UInt8} {n : Nat}
    (hens : Ensures h (ensureSize junk h n) s n) (hsrc : n ≤ src.length) :
    Yields h (inaStrNcat junk h (some src) n) (s ++ src.take n) := by
  have hlen : (src.take n).length = n := List.length_take_of_le hsrc
  obtain ⟨b, data, hb, hd, hrep, hcap⟩ := hens.write (src.take n) (Nat.le_refl _) (by rw [hlen])
  rw [hlen] at hd hrep
  rw [List.take_of_length_le (Nat.le_refl _)] at hrep
  refine ⟨⟨(ensureSize junk h n).size, s.length + n, data⟩, ?_, hrep, hcap⟩
  simp only [inaStrNcat, memCpy, if_pos hsrc, Option.bind_eq_bind, hens.rep.len, hb,
    Option.bind_some, Nat.mod_eq_of_lt hens.lt, hd]

theorem inaStrAppendChr_yields {h : Hdr} {s : List UInt8} {junk : Nat → UInt8}
    (hens : Ensures h (ensureSize junk h 1) s 1) (c : UInt8) :
    Yields h (inaStrAppendChr junk h c) (s ++ [c]) := by
  obtain ⟨b, data, hb, hd, hrep, hcap⟩ := hens.write [c] (Nat.le_refl _) (Nat.le_refl _)
  rw [List.length_singleton] at hd hrep
  rw [List.take_of_length_le (Nat.le_refl _)] at hrep
  refine ⟨⟨(ensureSize junk h 1).size, s.length + 1, data⟩, ?_, hrep, hcap⟩
  simp only [inaStrAppendChr, Option.bind_eq_bind, hens.rep.len, hb, Option.bind_some,
    Nat.mod_eq_of_lt hens.lt, hd]

theorem inaStrTruncate_yields {h : Hdr} {s : List UInt8} (hr : Rep h s) {pos : Nat}
    (hpos : pos ≤ s.length) : Yields h (inaStrTruncate h pos) (s.take pos) := by
  have hlen := hr.len_lt
  have hsize := hr.size
  have hlt := hr.size_lt
  have hslen := hr.len
  obtain ⟨b, data, hb, hd, hcap, hrep⟩ := hr.write [] hpos (by
    rw [List.length_nil]; omega)
  rw [store_nil (by omega)] at hb
  rw [List.length_nil, Nat.add_zero, ← Option.some.inj hb] at hd
  rw [List.length_nil, Nat.add_zero, List.append_nil] at hrep
  refine ⟨⟨h.size, pos, data⟩, ?_, hrep, Nat.le_of_eq hcap.symm⟩
  simp only [inaStrTruncate, hd, Option.map_some, Nat.mod_eq_of_lt (show pos < 2 ^ 32 by omega)]

end Str
end Inac
