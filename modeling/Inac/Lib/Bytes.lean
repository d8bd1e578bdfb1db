import Mathlib.Algebra.Ring.Nat
import Mathlib.Data.List.GetD

/-!
# Memory as a function

Memory is a function from places to what they hold, so a store changes it at some places and
nowhere else, and a read is an application. What a development needs of stores is two facts: what
stands where something was stored, and that nothing else has changed. Words are stored with the
lowest byte first.
-/

namespace Inac
namespace Lib

variable {α : Type}

/-- The memory with `bs` stored from `o` on. -/
def putBytes (m : Nat → α) (o : Nat) (bs : List α) (x : Nat) : α :=
  if o ≤ x then bs.getD (x - o) (m x) else m x

theorem putBytes_nil (m : Nat → α) (o : Nat) : putBytes m o [] = m := by
  funext x
  rw [putBytes]
  split <;> rfl

theorem putBytes_at (m : Nat → α) (o : Nat) {bs : List α} {i : Nat} (hi : i < bs.length) :
    putBytes m o bs (o + i) = bs.get ⟨i, hi⟩ := by
  rw [putBytes, if_pos (Nat.le_add_right ..), Nat.add_sub_cancel_left,
    List.getD_eq_getElem _ _ hi]
  rfl

/-- In front of the bytes stored nothing has changed. -/
theorem putBytes_of_lt (m : Nat → α) {o x : Nat} (bs : List α) (hx : x < o) :
    putBytes m o bs x = m x :=
  if_neg (Nat.not_le.mpr hx)

/-- Nor has anything behind them. -/
theorem putBytes_of_le (m : Nat → α) {o x : Nat} {bs : List α} (hx : o + bs.length ≤ x) :
    putBytes m o bs x = m x := by
  rw [putBytes, if_pos (by omega)]
  exact List.getD_eq_default _ _ (by omega)

/-! ## Words

A word and its bytes, in both directions. -/

/-- A `uint32_t` in memory. -/
def u32Bytes (x : Nat) : List UInt8 :=
  [.ofNat x, .ofNat (x / 2 ^ 8), .ofNat (x / 2 ^ 16), .ofNat (x / 2 ^ 24)]

theorem u32Bytes_length (x : Nat) : (u32Bytes x).length = 4 := rfl

def readU32 (m : Nat → UInt8) (o : Nat) : Nat :=
  (m o).toNat + 2 ^ 8 * (m (o + 1)).toNat + 2 ^ 16 * (m (o + 2)).toNat +
    2 ^ 24 * (m (o + 3)).toNat

/-- **A word read back** is what is left of it in 32 bits. -/
theorem readU32_putBytes (m : Nat → UInt8) (o x : Nat) :
    readU32 (putBytes m o (u32Bytes x)) o = x % 2 ^ 32 := by
  have hbyte : ∀ {i : Nat} (hi : i < 4), putBytes m o (u32Bytes x) (o + i) =
      (u32Bytes x).get ⟨i, hi⟩ := fun hi => putBytes_at m o hi
  have hzero := hbyte (show 0 < 4 by decide)
  rw [Nat.add_zero] at hzero
  rw [readU32, hzero, hbyte (show 1 < 4 by decide), hbyte (show 2 < 4 by decide),
    hbyte (show 3 < 4 by decide)]
  simp only [u32Bytes, List.get_eq_getElem, List.getElem_cons_zero, List.getElem_cons_succ,
    UInt8.toNat_ofNat']
  omega

/-- The word of these bytes. -/
def wordOf : List UInt8 → Nat
  | [] => 0
  | b :: bs => b.toNat + 2 ^ 8 * wordOf bs

/-- The lowest `n` bytes of a word. -/
def wordBytes : Nat → Nat → List UInt8
  | 0, _ => []
  | n + 1, x => .ofNat x :: wordBytes n (x / 2 ^ 8)

theorem wordBytes_length (n x : Nat) : (wordBytes n x).length = n := by
  induction n generalizing x with
  | zero => rfl
  | succ n ih => rw [wordBytes, List.length_cons, ih]

theorem wordOf_wordBytes (n x : Nat) : wordOf (wordBytes n x) = x % 2 ^ (8 * n) := by
  induction n generalizing x with
  | zero => rw [Nat.mul_zero, Nat.pow_zero, Nat.mod_one]; rfl
  | succ n ih =>
    rw [wordBytes, wordOf, ih, UInt8.toNat_ofNat', Nat.mul_add_one, Nat.add_comm (8 * n),
      Nat.pow_add, Nat.mod_mul]

theorem wordBytes_wordOf (bs : List UInt8) : wordBytes bs.length (wordOf bs) = bs := by
  induction bs with
  | nil => rfl
  | cons b bs ih =>
    have hb : b.toNat < 2 ^ 8 := b.toNat_lt
    rw [List.length_cons, wordBytes, wordOf,
      Nat.add_mul_div_left _ _ (by decide), Nat.div_eq_of_lt hb, Nat.zero_add, ih]
    congr 1
    refine UInt8.toNat_inj.mp ?_
    rw [UInt8.toNat_ofNat', Nat.add_mul_mod_self_left, Nat.mod_eq_of_lt hb]

theorem wordOf_lt (bs : List UInt8) : wordOf bs < 2 ^ (8 * bs.length) := by
  rw [← wordBytes_wordOf bs, wordOf_wordBytes, wordBytes_length]
  exact Nat.mod_lt _ (Nat.two_pow_pos _)

/-- **The word tells the bytes**, if it is known how many there are. -/
theorem wordOf_inj {a b : List UInt8} (hlen : a.length = b.length) :
    wordOf a = wordOf b ↔ a = b := by
  constructor
  · intro h
    rw [← wordBytes_wordOf a, ← wordBytes_wordOf b, hlen, h]
  · rintro rfl
    rfl

/-- The same of a register that the bytes fit into. -/
theorem ofNat_wordOf_inj {w : Nat} {a b : List UInt8} (hlen : a.length = b.length)
    (hfit : 8 * a.length ≤ w) :
    BitVec.ofNat w (wordOf a) = BitVec.ofNat w (wordOf b) ↔ a = b := by
  have hlt : ∀ {v : List UInt8}, 8 * v.length ≤ w → wordOf v < 2 ^ w := fun hv =>
    Nat.lt_of_lt_of_le (wordOf_lt _) (Nat.pow_le_pow_right (by decide) hv)
  rw [← wordOf_inj hlen, ← BitVec.toNat_inj, BitVec.toNat_ofNat, BitVec.toNat_ofNat,
    Nat.mod_eq_of_lt (hlt hfit), Nat.mod_eq_of_lt (hlt (hlen ▸ hfit))]

/-- What is read at the front of different bytes differs, if no more is read than there is. -/
theorem ofNat_wordOf_front_ne {w n : Nat} {a b : List UInt8} (ha : a.length = n) (hb : b.length = n)
    (hfit : 8 * n ≤ w) (hne : a ≠ b) :
    BitVec.ofNat w (wordOf ((a.drop 0).take n)) ≠ BitVec.ofNat w (wordOf ((b.drop 0).take n)) := by
  rw [List.drop_zero, List.drop_zero, List.take_of_length_le (Nat.le_of_eq ha),
    List.take_of_length_le (Nat.le_of_eq hb)]
  exact fun heq => hne ((ofNat_wordOf_inj (ha.trans hb.symm) (ha ▸ hfit)).mp heq)

/-- `n` bytes of the memory. -/
def readBytes (m : Nat → α) (o n : Nat) : List α := (List.range n).map fun i => m (o + i)

theorem readBytes_congr {m m' : Nat → α} {o o' n : Nat} (h : ∀ i < n, m (o + i) = m' (o' + i)) :
    readBytes m o n = readBytes m' o' n :=
  List.map_congr_left fun i hi => h i (List.mem_range.mp hi)

/-- What was stored is read back. -/
theorem readBytes_putBytes (m : Nat → α) (o : Nat) (bs : List α) :
    readBytes (putBytes m o bs) o bs.length = bs := by
  refine List.ext_getElem (by rw [readBytes, List.length_map, List.length_range]) fun i h _ => ?_
  rw [readBytes, List.length_map, List.length_range] at h
  simp only [readBytes, List.getElem_map, List.getElem_range]
  exact putBytes_at m o h

/-- A word of `n` bytes in memory. -/
def readWord (m : Nat → UInt8) (n o : Nat) : Nat := wordOf (readBytes m o n)

theorem readWord_putBytes (m : Nat → UInt8) (n o x : Nat) :
    readWord (putBytes m o (wordBytes n x)) n o = x % 2 ^ (8 * n) := by
  have hread := readBytes_putBytes m o (wordBytes n x)
  rw [wordBytes_length] at hread
  rw [readWord, hread, wordOf_wordBytes]

end Lib
end Inac
