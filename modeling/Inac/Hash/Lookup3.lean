import Inac.Lib.Absorb
import Mathlib.Data.List.GetD
import Mathlib.Tactic.IntervalCases

/-!
# The lookup3 hashes (`src/hash.c`)

`ina_hash_32_lookup3` and `ina_hash_64_lookup3` add the input to three words, in blocks of twelve
bytes that are mixed in between, and the last block byte by byte in a `switch` that falls through.
The functions differ in where the seed goes and in how many of the three words they return.

No byte is read outside of the input, and what the `switch` adds is the last block with zeros behind
it (`lookup3Switch_eq`). So both are the same hash of the blocks, `lookup3`, and for a seed of 32
bits the one is the low half of the other (`lookup3_low_half`).
-/

namespace Inac
namespace Hash

open Lib

/-! ## The code

The three words and the two mixes are shared; what differs is the start and the end. -/

/-- The variables `a`, `b` and `c`. -/
structure Abc where
  a : BitVec 32
  b : BitVec 32
  c : BitVec 32
  deriving DecidableEq, Repr

def lookup3Rot (x : BitVec 32) (k : Nat) : BitVec 32 := (x <<< k) ||| (x >>> (32 - k))

/-- `__INA_HASH_LOOKUP3_MIX`. -/
def lookup3Mix (w : Abc) : Abc :=
  let ⟨a, b, c⟩ := w
  let a := a - c; let a := a ^^^ lookup3Rot c 4; let c := c + b
  let b := b - a; let b := b ^^^ lookup3Rot a 6; let a := a + c
  let c := c - b; let c := c ^^^ lookup3Rot b 8; let b := b + a
  let a := a - c; let a := a ^^^ lookup3Rot c 16; let c := c + b
  let b := b - a; let b := b ^^^ lookup3Rot a 19; let a := a + c
  let c := c - b; let c := c ^^^ lookup3Rot b 4; let b := b + a
  ⟨a, b, c⟩

/-- `__INA_HASH_LOOKUP3_FINAL`. -/
def lookup3Final (w : Abc) : Abc :=
  let ⟨a, b, c⟩ := w
  let c := c ^^^ b; let c := c - lookup3Rot b 14
  let a := a ^^^ c; let a := a - lookup3Rot c 11
  let b := b ^^^ a; let b := b - lookup3Rot a 25
  let c := c ^^^ b; let c := c - lookup3Rot b 16
  let a := a ^^^ c; let a := a - lookup3Rot c 4
  let b := b ^^^ a; let b := b - lookup3Rot a 14
  let c := c ^^^ b; let c := c - lookup3Rot b 24
  ⟨a, b, c⟩

/-- `(uint32_t)key[i]`, with no result outside of the input. -/
def readByte (key : List UInt8) (i : Nat) : Option (BitVec 32) :=
  key[i]?.map fun b => b.toBitVec.setWidth 32

/-- `__ina_hash_le_uint32_read(key + i)`. -/
def leUint32Read (key : List UInt8) (i : Nat) : Option (BitVec 32) := do
  return (← readByte key i) + (← readByte key (i + 1)) <<< 8 + (← readByte key (i + 2)) <<< 16 +
    (← readByte key (i + 3)) <<< 24

/-- The loop of both functions: the words, `key` and `size` behind it. -/
def lookup3Loop (w : Abc) (key : List UInt8) (size : Nat) : Option (Abc × List UInt8 × Nat) :=
  if size > 12 then do
    let a := w.a + (← leUint32Read key 0)
    let b := w.b + (← leUint32Read key 4)
    let c := w.c + (← leUint32Read key 8)
    lookup3Loop (lookup3Mix ⟨a, b, c⟩) (key.drop 12) (size - 12)
  else some (w, key, size)
termination_by size

/-- The cases 1 to 12 of the `switch` of both functions. The recursion is the fall-through. -/
def lookup3Switch (key : List UInt8) : Nat → Abc → Option Abc
  | 12, w => do
    let c := w.c + (← leUint32Read key 8)
    let b := w.b + (← leUint32Read key 4)
    let a := w.a + (← leUint32Read key 0)
    return ⟨a, b, c⟩
  | 11, w => do lookup3Switch key 10 { w with c := w.c + (← readByte key 10) <<< 16 }
  | 10, w => do lookup3Switch key 9 { w with c := w.c + (← readByte key 9) <<< 8 }
  | 9, w => do lookup3Switch key 8 { w with c := w.c + (← readByte key 8) }
  | 8, w => do
    let b := w.b + (← leUint32Read key 4)
    let a := w.a + (← leUint32Read key 0)
    return { w with a, b }
  | 7, w => do lookup3Switch key 6 { w with b := w.b + (← readByte key 6) <<< 16 }
  | 6, w => do lookup3Switch key 5 { w with b := w.b + (← readByte key 5) <<< 8 }
  | 5, w => do lookup3Switch key 4 { w with b := w.b + (← readByte key 4) }
  | 4, w => return { w with a := w.a + (← leUint32Read key 0) }
  | 3, w => do lookup3Switch key 2 { w with a := w.a + (← readByte key 2) <<< 16 }
  | 2, w => do lookup3Switch key 1 { w with a := w.a + (← readByte key 1) <<< 8 }
  | 1, w => return { w with a := w.a + (← readByte key 0) }
  | _, w => some w
termination_by size => size

def inaHash32Lookup3 (hash : BitVec 32) (data : List UInt8) (size : Nat) :
    Option (BitVec 32) := do
  let a := 0xdeadbeef#32 + BitVec.ofNat 32 size + hash
  let (w, key, size) ← lookup3Loop ⟨a, a, a⟩ data size
  if size = 0 then return w.c  -- used only when called with a zero length
  else
    let w := lookup3Final (← lookup3Switch key size w)
    return w.c

def inaHash64Lookup3 (hash : BitVec 64) (data : List UInt8) (size : Nat) :
    Option (BitVec 64) := do
  let a := ((0xdeadbeef#32 + BitVec.ofNat 32 size).setWidth 64 +
    (hash &&& 0xffffffff#64)).setWidth 32
  let c := (a.setWidth 64 + (hash >>> 32)).setWidth 32
  let (w, key, size) ← lookup3Loop ⟨a, a, c⟩ data size
  if size = 0 then  -- used only when called with a zero length
    return w.c.setWidth 64 + w.b.setWidth 64 <<< 32
  else
    let w := lookup3Final (← lookup3Switch key size w)
    return w.c.setWidth 64 + w.b.setWidth 64 <<< 32

/-! ## The hash of the blocks

The same without places in memory: a list is taken in by blocks of twelve, and the last block is
filled up with zeros. -/

/-- A byte of a block, or the zero behind it. -/
def byteAt (block : List UInt8) (i : Nat) : BitVec 32 := (block.getD i 0).toBitVec.setWidth 32

/-- Four bytes of a block, the lowest first. -/
def wordAt (block : List UInt8) (i : Nat) : BitVec 32 :=
  byteAt block i + byteAt block (i + 1) <<< 8 + byteAt block (i + 2) <<< 16 +
    byteAt block (i + 3) <<< 24

/-- A block is added to the words. -/
def Abc.add (w : Abc) (block : List UInt8) : Abc :=
  ⟨w.a + wordAt block 0, w.b + wordAt block 4, w.c + wordAt block 8⟩

/-- A block with others behind it is mixed in. -/
def lookup3Step (w : Abc) (block : List UInt8) : Abc := lookup3Mix (w.add block)

/-- What the data make of the words. -/
def lookup3 (w : Abc) (data : List UInt8) : Abc :=
  if data = [] then w
  else
    let (w, block) := absorb 12 lookup3Step w data
    lookup3Final (w.add block)

/-! ## What is read

The `switch` reads the bytes that are left and no others. -/

theorem byteAt_of_le {block : List UInt8} {i : Nat} (h : block.length ≤ i) :
    byteAt block i = 0#32 := by
  rw [byteAt, List.getD_eq_default _ _ h]
  rfl

theorem byteAt_take {key : List UInt8} {i n : Nat} (h : i < n) :
    byteAt (key.take n) i = byteAt key i := by
  rw [byteAt, byteAt, List.getD_eq_getElem?_getD, List.getD_eq_getElem?_getD,
    List.getElem?_take_of_lt h]

theorem wordAt_take {key : List UInt8} {i n : Nat} (h : i + 3 < n) :
    wordAt (key.take n) i = wordAt key i := by
  rw [wordAt, wordAt, byteAt_take (by omega), byteAt_take (by omega), byteAt_take (by omega),
    byteAt_take h]

theorem readByte_eq {key : List UInt8} {i : Nat} (h : i < key.length) :
    readByte key i = some (byteAt key i) := by
  rw [readByte, byteAt, List.getElem?_eq_getElem h, List.getD_eq_getElem _ _ h, Option.map_some]

theorem leUint32Read_eq {key : List UInt8} {i : Nat} (h : i + 3 < key.length) :
    leUint32Read key i = some (wordAt key i) := by
  rw [leUint32Read, readByte_eq (by omega), readByte_eq (by omega), readByte_eq (by omega),
    readByte_eq h]
  rfl

section Rest

variable {block : List UInt8} {i : Nat} (x : BitVec 32)

/-- A word of which a block has some bytes only is added byte by byte, the highest first. -/
theorem add_wordAt_none (h : block.length ≤ i) : x + wordAt block i = x := by
  rw [wordAt, byteAt_of_le h, byteAt_of_le (by omega), byteAt_of_le (by omega),
    byteAt_of_le (by omega)]
  simp

theorem add_wordAt_one (h : block.length = i + 1) :
    x + wordAt block i = x + byteAt block i := by
  rw [wordAt, byteAt_of_le (i := i + 1) (by omega), byteAt_of_le (i := i + 2) (by omega),
    byteAt_of_le (i := i + 3) (by omega)]
  simp

theorem add_wordAt_two (h : block.length = i + 2) :
    x + wordAt block i = x + byteAt block (i + 1) <<< 8 + byteAt block i := by
  rw [wordAt, byteAt_of_le (i := i + 2) (by omega), byteAt_of_le (i := i + 3) (by omega)]
  rw [BitVec.zero_shiftLeft, BitVec.zero_shiftLeft, BitVec.add_zero, BitVec.add_zero,
    BitVec.add_comm (byteAt block i), BitVec.add_assoc]

theorem add_wordAt_three (h : block.length = i + 3) :
    x + wordAt block i =
      x + byteAt block (i + 2) <<< 16 + byteAt block (i + 1) <<< 8 + byteAt block i := by
  rw [wordAt, byteAt_of_le (i := i + 3) (by omega)]
  rw [BitVec.zero_shiftLeft, BitVec.add_zero,
    BitVec.add_comm _ (byteAt block (i + 2) <<< 16), BitVec.add_comm (byteAt block i),
    BitVec.add_assoc, BitVec.add_assoc]

end Rest

/-! ## The code and the blocks

The loop goes on while there are more than twelve bytes, so the last block is left for the `switch`
even if it is whole. -/

/-- A turn of the loop. -/
theorem lookup3Step_take (w : Abc) (key : List UInt8) : lookup3Step w (key.take 12) =
    lookup3Mix ⟨w.a + wordAt key 0, w.b + wordAt key 4, w.c + wordAt key 8⟩ := by
  rw [lookup3Step, Abc.add, wordAt_take (by decide), wordAt_take (by decide), wordAt_take (by decide)]

/-- **The loop** takes in all blocks but the last. -/
theorem lookup3Loop_eq (w : Abc) (key : List UInt8) :
    lookup3Loop w key key.length =
      let (w, block) := absorb 12 lookup3Step w key
      some (w, block, block.length) := by
  fun_induction absorb 12 lookup3Step w key with
  | case1 w key h ih =>
    rw [lookup3Loop, if_pos h, leUint32Read_eq (by omega), leUint32Read_eq (by omega),
      leUint32Read_eq (by omega)]
    rw [lookup3Step_take, List.length_drop] at ih
    simp only [Option.bind_eq_bind, Option.bind_some, lookup3Step_take, ih]
  | case2 w key h => rw [lookup3Loop, if_neg h]

/-- **The `switch`** adds the last block with zeros behind it. -/
theorem lookup3Switch_eq (w : Abc) {key : List UInt8} (h : key.length ≤ 12) :
    lookup3Switch key key.length w = some (w.add key) := by
  generalize hn : key.length = n at h ⊢
  -- each case falls through to the whole words in front of it
  interval_cases n <;>
    simp (disch := omega) only [lookup3Switch, readByte_eq, leUint32Read_eq, Abc.add,
      add_wordAt_none, add_wordAt_one, add_wordAt_two, add_wordAt_three, Option.bind_eq_bind,
      Option.bind_some, Option.pure_def, Nat.reduceAdd]

/-- **From the loop on** both functions come to the hash of the blocks, whatever they return of the
    words. -/
theorem lookup3_run {β : Type} (f : Abc → β) (w : Abc) (data : List UInt8) :
    (do
      let (w, key, size) ← lookup3Loop w data data.length
      if size = 0 then return f w
      else
        let w := lookup3Final (← lookup3Switch key size w)
        return f w) = some (f (lookup3 w data)) := by
  have hlen : (absorb 12 lookup3Step w data).2.length ≤ 12 := absorb_length_le w data
  have hnil : (absorb 12 lookup3Step w data).2 = [] ↔ data = [] := absorb_eq_nil_iff w data
  rw [lookup3Loop_eq, lookup3]
  by_cases hdata : data = []
  · rw [if_pos hdata, hdata, absorb_last w (Nat.zero_le 12)]
    rfl
  · rw [if_neg hdata]
    generalize absorb 12 lookup3Step w data = r at *
    obtain ⟨w, block⟩ := r
    have hsize : block.length ≠ 0 := fun h => hdata (hnil.mp (List.length_eq_zero_iff.mp h))
    simp only [Option.bind_eq_bind, Option.bind_some, if_neg hsize, lookup3Switch_eq w hlen]
    rfl

/-! ## The functions

A seed of 32 bits goes into all three words in the same way in both functions, and the upper half of
a longer one is added to one of them. -/

/-- What the length and a seed of 32 bits start the words with. -/
def lookup3Start (hash : BitVec 32) (data : List UInt8) : BitVec 32 :=
  0xdeadbeef#32 + BitVec.ofNat 32 data.length + hash

/-- **`ina_hash_32_lookup3`** returns the last word. -/
theorem inaHash32Lookup3_eq (hash : BitVec 32) (data : List UInt8) :
    inaHash32Lookup3 hash data data.length =
      let a := lookup3Start hash data
      some (lookup3 ⟨a, a, a⟩ data).c :=
  lookup3_run Abc.c _ data

/-- **`ina_hash_64_lookup3`** returns the last two words, and starts the last one with the high half
    of the seed too. -/
theorem inaHash64Lookup3_eq (hash : BitVec 64) (data : List UInt8) :
    inaHash64Lookup3 hash data data.length =
      let a := lookup3Start (hash.setWidth 32) data
      let w := lookup3 ⟨a, a, a + (hash >>> 32).setWidth 32⟩ data
      some (w.c.setWidth 64 + w.b.setWidth 64 <<< 32) := by
  have hmask : (0xffffffff#64).setWidth 32 = BitVec.allOnes 32 := rfl
  have ha : ((0xdeadbeef#32 + BitVec.ofNat 32 data.length).setWidth 64 +
      (hash &&& 0xffffffff#64)).setWidth 32 = lookup3Start (hash.setWidth 32) data := by
    rw [BitVec.setWidth_add _ _ (by decide), BitVec.setWidth_setWidth_of_le _ (by decide),
      BitVec.setWidth_eq, BitVec.setWidth_and, hmask, BitVec.and_allOnes, lookup3Start]
  have hc : ∀ a : BitVec 32, (a.setWidth 64 + (hash >>> 32)).setWidth 32 =
      a + (hash >>> 32).setWidth 32 := by
    intro a
    rw [BitVec.setWidth_add _ _ (by decide), BitVec.setWidth_setWidth_of_le _ (by decide),
      BitVec.setWidth_eq]
  rw [inaHash64Lookup3, ha, hc]
  exact lookup3_run (fun w => w.c.setWidth 64 + w.b.setWidth 64 <<< 32) _ data

/-- **The hash of 32 bits is the low half of the one of 64 bits**, for every seed of 32 bits and all
    data, and both functions read nothing but the data. -/
theorem lookup3_low_half (seed : BitVec 32) (data : List UInt8) :
    ∃ hash, inaHash64Lookup3 (seed.setWidth 64) data data.length = some hash ∧
      inaHash32Lookup3 seed data data.length = some (hash.setWidth 32) := by
  have hseed : (seed.setWidth 64).setWidth 32 = seed := by
    rw [BitVec.setWidth_setWidth_of_le _ (by decide), BitVec.setWidth_eq]
  have hhigh : (seed.setWidth 64 >>> 32).setWidth 32 = 0#32 := by
    rw [← BitVec.setWidth_ushiftRight (by decide), BitVec.ushiftRight_eq_zero (by decide),
      BitVec.setWidth_zero, BitVec.setWidth_zero]
  have hlow : ∀ b c : BitVec 32, (c.setWidth 64 + b.setWidth 64 <<< 32).setWidth 32 = c := by
    intro b c
    rw [BitVec.setWidth_add _ _ (by decide), BitVec.setWidth_shiftLeft_of_le (by decide),
      BitVec.shiftLeft_eq_zero (by decide), BitVec.add_zero,
      BitVec.setWidth_setWidth_of_le _ (by decide), BitVec.setWidth_eq]
  refine ⟨_, inaHash64Lookup3_eq _ data, ?_⟩
  rw [inaHash32Lookup3_eq, hseed, hhigh, BitVec.add_zero, hlow]

end Hash
end Inac
