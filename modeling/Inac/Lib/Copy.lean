import Inac.Lib.Buf
import Inac.Lib.Lz77

/-!
# Copies between bounded buffers

What has been put out so far is the beginning of a buffer, and behind it anything may stand: a copy
may write more than is wanted, as long as it stays inside. So what is said of a copy is which
beginning the buffer has afterwards.
-/

namespace Inac
namespace Lib

variable {α : Type}

/-- `n` elements from index `i` on; `none` when that goes past the end. -/
def load (buf : List α) (i n : Nat) : Option (List α) :=
  if i + n ≤ buf.length then some ((buf.drop i).take n) else none

theorem load_eq {buf : List α} {i n : Nat} (h : i + n ≤ buf.length) :
    load buf i n = some ((buf.drop i).take n) := if_pos h

theorem load_prefix {out buf : List α} {i n : Nat} (h : out <+: buf) (hn : i + n ≤ out.length) :
    load buf i n = some ((out.drop i).take n) := by
  obtain ⟨rest, rfl⟩ := h
  rw [load_eq (by rw [List.length_append]; omega), List.drop_append_of_le_length (by omega),
    List.take_append_of_le_length (by rw [List.length_drop]; omega)]

/-- **A write behind the beginning** makes it longer. -/
theorem store_prefix {out buf : List α} (bs : List α) {i : Nat} (h : out <+: buf)
    (hi : i = out.length) (hb : i + bs.length ≤ buf.length) :
    ∃ buf', store buf i bs = some buf' ∧ out ++ bs <+: buf' ∧ buf'.length = buf.length := by
  subst hi
  obtain ⟨rest, rfl⟩ := h
  refine ⟨_, store_eq hb, ?_, ?_⟩
  · rw [List.take_left, List.append_assoc]
    exact List.prefix_append_right_inj _ |>.mpr (List.prefix_append ..)
  · rw [List.take_left]
    simp only [List.length_append, List.length_drop] at hb ⊢
    omega

/-- `memcpy`: `n` elements of `buf` from `s` on, stored from `d` on into `dst`. -/
def memcpy (dst : List α) (d : Nat) (buf : List α) (s n : Nat) : Option (List α) :=
  (load buf s n).bind (store dst d)

theorem memcpy_prefix {out dst : List α} (buf : List α) {d : Nat} (s n : Nat) (h : out <+: dst)
    (hd : d = out.length) (hs : s + n ≤ buf.length) (hb : d + n ≤ dst.length) :
    ∃ dst', memcpy dst d buf s n = some dst' ∧ out ++ (buf.drop s).take n <+: dst' ∧
      dst'.length = dst.length := by
  rw [memcpy, load_eq hs, Option.bind_some]
  refine store_prefix _ h hd ?_
  rw [List.length_take, List.length_drop]
  omega

/-- **A block of the buffer itself** that ends in what has been put out. -/
theorem memcpy_copyBack [Inhabited α] {out buf : List α} {d s n : Nat} (h : out <+: buf)
    (hd : d = out.length) (hs : s + n ≤ out.length) (hb : d + n ≤ buf.length) :
    ∃ buf', memcpy buf d buf s n = some buf' ∧ copyBack (d - s) n out <+: buf' ∧
      buf'.length = buf.length := by
  subst hd
  rw [memcpy, load_prefix h hs, Option.bind_some, copyBack_block (by omega) (Nat.sub_le ..),
    Nat.sub_sub_self (by omega)]
  refine store_prefix _ h rfl ?_
  rw [List.length_take, List.length_drop]
  omega

end Lib
end Inac
