import Inac.Lib.Buf
import Inac.Lib.Bytes
import Inac.Lib.Mix
import Inac.Lib.Stream

/-!
# The hash xxHash of 32 bits (`contribs/xxhash/xxhash.c`)

Four lanes take in the data in stripes of sixteen bytes, a word each. What is behind the stripes is
mixed in word by word and then byte by byte. `XXH32_update` is given the data in pieces and keeps
what does not fill a stripe in a buffer; `XXH32_digest` then has what `XXH32` has of the whole
(`xxh32_pieces`), however long that is: the length is kept in 32 bits, but that a stripe was taken
in is kept apart.

Words are read with the lowest byte first. A place in the data is what is left of it from there on,
so a loop that goes on as long as there are sixteen bytes is `blocks 16`.
-/

namespace Inac
namespace Hash

open Lib
open Function

/-! ## The code

Four lanes, a buffer of sixteen bytes, and the length in 32 bits. -/

def xxhRotl32 (x : BitVec 32) (r : Nat) : BitVec 32 := (x <<< r) ||| (x >>> (32 - r))

def prime32x1 : BitVec 32 := 2654435761  -- `PRIME32_1`
def prime32x2 : BitVec 32 := 2246822519  -- `PRIME32_2`
def prime32x3 : BitVec 32 := 3266489917  -- `PRIME32_3`
def prime32x4 : BitVec 32 := 668265263  -- `PRIME32_4`
def prime32x5 : BitVec 32 := 374761393  -- `PRIME32_5`

def xxh32Round (seed input : BitVec 32) : BitVec 32 :=
  let seed := seed + input * prime32x2
  let seed := xxhRotl32 seed 13
  seed * prime32x1

/-- `XXH_get32bits(p + i)`. -/
def xxhGet32bits (p : List UInt8) (i : Nat) : BitVec 32 :=
  BitVec.ofNat 32 (wordOf ((p.drop i).take 4))

/-- The variables `v1` to `v4`. -/
structure Xxh32Lanes where
  v1 : BitVec 32
  v2 : BitVec 32
  v3 : BitVec 32
  v4 : BitVec 32
  deriving DecidableEq, Repr

def xxh32Start (seed : BitVec 32) : Xxh32Lanes where
  v1 := seed + prime32x1 + prime32x2
  v2 := seed + prime32x2
  v3 := seed + 0
  v4 := seed - prime32x1

/-- One round of the loop over the stripes. -/
def xxh32Stripe (v : Xxh32Lanes) (p : List UInt8) : Xxh32Lanes where
  v1 := xxh32Round v.v1 (xxhGet32bits p 0)
  v2 := xxh32Round v.v2 (xxhGet32bits p 4)
  v3 := xxh32Round v.v3 (xxhGet32bits p 8)
  v4 := xxh32Round v.v4 (xxhGet32bits p 12)

def xxh32Merge (v : Xxh32Lanes) : BitVec 32 :=
  xxhRotl32 v.v1 1 + xxhRotl32 v.v2 7 + xxhRotl32 v.v3 12 + xxhRotl32 v.v4 18

/-- One round of the loop over the words behind the stripes. -/
def xxh32Word (h32 : BitVec 32) (p : List UInt8) : BitVec 32 :=
  let h32 := h32 + xxhGet32bits p 0 * prime32x3
  xxhRotl32 h32 17 * prime32x4

/-- One round of the loop over the bytes behind the words. -/
def xxh32Byte (h32 : BitVec 32) (b : UInt8) : BitVec 32 :=
  let h32 := h32 + b.toBitVec.setWidth 32 * prime32x5
  xxhRotl32 h32 11 * prime32x1

def xxh32Avalanche (h32 : BitVec 32) : BitVec 32 :=
  let h32 := h32 ^^^ (h32 >>> 15)
  let h32 := h32 * prime32x2
  let h32 := h32 ^^^ (h32 >>> 13)
  let h32 := h32 * prime32x3
  h32 ^^^ (h32 >>> 16)

/-- What `XXH32_endian_align` and `XXH32_digest_endian` both end with. -/
def xxh32Tail (h32 : BitVec 32) (p : List UInt8) : BitVec 32 :=
  let hp := blocks 4 xxh32Word h32 p
  xxh32Avalanche (hp.2.foldl xxh32Byte hp.1)

def xxh32EndianAlign (input : List UInt8) (seed : BitVec 32) : BitVec 32 :=
  if 16 ≤ input.length then
    let vp := blocks 16 xxh32Stripe (xxh32Start seed) input
    xxh32Tail (xxh32Merge vp.1 + BitVec.ofNat 32 input.length) vp.2
  else xxh32Tail (seed + prime32x5 + BitVec.ofNat 32 input.length) input

def xxh32 (input : List UInt8) (seed : BitVec 32) : BitVec 32 := xxh32EndianAlign input seed

def inaHash32Xxhash (hash : BitVec 32) (data : List UInt8) : BitVec 32 := xxh32 data hash

/-- `XXH32_state_t`; `mem32` is the buffer of sixteen bytes. -/
structure Xxh32State where
  totalLen32 : BitVec 32
  largeLen : Bool
  v : Xxh32Lanes
  mem32 : List UInt8
  memsize : Nat

def xxh32Reset (seed : BitVec 32) : Xxh32State where
  totalLen32 := 0
  largeLen := false
  v := xxh32Start seed
  mem32 := List.replicate 16 0
  memsize := 0

/-- The part of `XXH32_update_endian` about data left from the call before: it is filled up to a
    stripe. The state, and what is left of the input. -/
def xxh32Fill (state : Xxh32State) (input : List UInt8) : Option (Xxh32State × List UInt8) :=
  if state.memsize ≠ 0 then do
    let mem32 ← store state.mem32 state.memsize (input.take (16 - state.memsize))
    return ({ state with v := xxh32Stripe state.v mem32, mem32 := mem32, memsize := 0 },
      input.drop (16 - state.memsize))
  else some (state, input)

/-- There is no result where it would write outside of the buffer. -/
def xxh32UpdateEndian (state : Xxh32State) (input : List UInt8) : Option Xxh32State :=
  let totalLen32 := state.totalLen32 + BitVec.ofNat 32 input.length
  let largeLen := state.largeLen || (decide (16 ≤ input.length) || decide (16 ≤ totalLen32.toNat))
  let state := { state with totalLen32 := totalLen32, largeLen := largeLen }
  if state.memsize + input.length < 16 then do
    let mem32 ← store state.mem32 state.memsize input
    return { state with mem32 := mem32, memsize := state.memsize + input.length }
  else do
    let (state, p) ← xxh32Fill state input
    let (v, p) := blocks 16 xxh32Stripe state.v p
    if p ≠ [] then
      let mem32 ← store state.mem32 0 p
      return { state with v := v, mem32 := mem32, memsize := p.length }
    else return { state with v := v }

def xxh32DigestEndian (state : Xxh32State) : BitVec 32 :=
  let p := state.mem32.take state.memsize
  let h32 := if state.largeLen then xxh32Merge state.v else state.v.v3 + prime32x5
  xxh32Tail (h32 + state.totalLen32) p

/-! ## Pieces

`Fed`: the lanes and the buffer are what the whole stripes of all the data, and the rest of it, have
left. -/

variable {seed : BitVec 32} {state : Xxh32State} {data input : List UInt8}

/-- The state after it has been given `data`. -/
structure Fed (seed : BitVec 32) (state : Xxh32State) (data : List UInt8) : Prop where
  total : state.totalLen32 = BitVec.ofNat 32 data.length
  large : state.largeLen = decide (16 ≤ data.length)
  room : state.mem32.length = 16
  short : state.memsize < 16
  kept : blocks 16 xxh32Stripe (xxh32Start seed) data = (state.v, state.mem32.take state.memsize)

theorem fed_reset (seed : BitVec 32) : Fed seed (xxh32Reset seed) [] :=
  ⟨rfl, rfl, rfl, Nat.zero_lt_succ 15, blocks_short _ (by decide)⟩

namespace Fed

theorem goesOn (h : Fed seed state data) (input : List UInt8) :
    blocks 16 xxh32Stripe (xxh32Start seed) (data ++ input) =
      blocks 16 xxh32Stripe state.v (state.mem32.take state.memsize ++ input) := by
  rw [← blocks_pieces, h.kept]

theorem length_kept (h : Fed seed state data) :
    (state.mem32.take state.memsize).length = state.memsize :=
  List.length_take_of_le (by rw [h.room]; exact Nat.le_of_lt h.short)

/-- The length may wrap, but not before a stripe was taken in. -/
theorem largeLen_eq (h : Fed seed state data) (input : List UInt8) :
    (state.largeLen || (decide (16 ≤ input.length) ||
      decide (16 ≤ (state.totalLen32 + BitVec.ofNat 32 input.length).toNat))) =
      decide (16 ≤ (data ++ input).length) := by
  rw [h.large, h.total, BitVec.toNat_add, BitVec.toNat_ofNat, BitVec.toNat_ofNat,
    List.length_append, ← Bool.decide_or, ← Bool.decide_or]
  exact decide_eq_decide.mpr (by omega)

theorem totalLen_eq (h : Fed seed state data) (input : List UInt8) :
    state.totalLen32 + BitVec.ofNat 32 input.length = BitVec.ofNat 32 (data ++ input).length := by
  rw [h.total, List.length_append, BitVec.ofNat_add]

/-- What does not fill a stripe is put behind what is there. -/
theorem append (h : Fed seed state data) (hfit : state.memsize + input.length < 16) :
    ∃ mem32, store state.mem32 state.memsize input = some mem32 ∧ mem32.length = 16 ∧
      mem32.take (state.memsize + input.length) = state.mem32.take state.memsize ++ input := by
  have hroom := h.room
  have hlen := h.length_kept
  refine ⟨_, store_eq (by omega), ?_, ?_⟩
  · rw [List.length_append, List.length_append, hlen, List.length_drop, hroom]
    omega
  · refine List.take_left' ?_
    rw [List.length_append, hlen]

/-- **The stripe that was begun.** -/
theorem fill (h : Fed seed state data) (hfull : 16 ≤ state.memsize + input.length)
    (totalLen32 : BitVec 32) (largeLen : Bool) :
    ∃ v mem32 p,
      xxh32Fill { state with totalLen32 := totalLen32, largeLen := largeLen } input =
        some (⟨totalLen32, largeLen, v, mem32, 0⟩, p) ∧ mem32.length = 16 ∧
      blocks 16 xxh32Stripe state.v (state.mem32.take state.memsize ++ input) =
        blocks 16 xxh32Stripe v p := by
  have hroom := h.room
  have hshort := h.short
  have hlen := h.length_kept
  simp only [xxh32Fill]
  split
  case isTrue hbegun =>
    have htake : (input.take (16 - state.memsize)).length = 16 - state.memsize :=
      List.length_take_of_le (by omega)
    -- What was kept and the front of the input are a stripe.
    have hstripe :
        (state.mem32.take state.memsize ++ input.take (16 - state.memsize)).length = 16 := by
      rw [List.length_append, hlen, htake]
      omega
    have hnone : state.mem32.drop (state.memsize + (16 - state.memsize)) = [] := by
      rw [Nat.add_sub_cancel' (Nat.le_of_lt hshort), ← hroom, List.drop_length]
    rw [store_eq (by omega), htake, hnone, List.append_nil]
    refine ⟨_, _, _, rfl, hstripe, ?_⟩
    rw [← blocks_cons _ _ hstripe, List.append_assoc, List.take_append_drop]
  case isFalse hempty =>
    have hzero : state.memsize = 0 := by omega
    refine ⟨state.v, state.mem32, input, ?_, hroom, ?_⟩
    · rw [← hzero]
    · rw [hzero, List.take_zero, List.nil_append]

/-- **A piece of the data.** -/
theorem update (h : Fed seed state data) (input : List UInt8) :
    ∃ state', xxh32UpdateEndian state input = some state' ∧ Fed seed state' (data ++ input) := by
  have htotal := h.totalLen_eq input
  have hlarge := htotal ▸ h.largeLen_eq input
  have hblocks := h.goesOn input
  simp only [xxh32UpdateEndian, htotal, hlarge]
  split
  case isTrue hfit =>
    obtain ⟨mem32, hstore, hroom, htake⟩ := h.append hfit
    rw [hstore, Option.bind_eq_bind, Option.bind_some]
    refine ⟨_, rfl, rfl, rfl, hroom, hfit, ?_⟩
    rw [hblocks, blocks_short, htake]
    rw [List.length_append, h.length_kept]
    exact hfit
  case isFalse hfull =>
    obtain ⟨v, mem32, p, hfill, hroom, hgo⟩ := h.fill (Nat.not_lt.mp hfull)
      (BitVec.ofNat 32 (data ++ input).length) (decide (16 ≤ (data ++ input).length))
    rw [hfill, Option.bind_eq_bind, Option.bind_some]
    rw [hgo] at hblocks
    have hshort : (blocks 16 xxh32Stripe v p).2.length < 16 := blocks_rest_lt ..
    generalize blocks 16 xxh32Stripe v p = s at hblocks hshort ⊢
    obtain ⟨v', rest⟩ := s
    change rest.length < 16 at hshort
    -- What is behind the last stripe is kept, if there is anything.
    by_cases hnone : rest = []
    · simp only [if_neg (not_not_intro hnone)]
      exact ⟨_, rfl, rfl, rfl, hroom, Nat.zero_lt_succ 15, by rw [hblocks, hnone, List.take_zero]⟩
    · simp only [if_pos hnone]
      rw [store_eq (by omega), Option.bind_eq_bind, Option.bind_some]
      refine ⟨_, rfl, rfl, rfl, ?_, hshort, ?_⟩
      · simp only [List.take_zero, List.nil_append, List.length_append, List.length_drop, hroom]
        omega
      · rw [hblocks, List.take_zero, List.nil_append, List.take_left]

theorem digest (h : Fed seed state data) : xxh32DigestEndian state = xxh32 data seed := by
  simp only [xxh32DigestEndian, h.large, h.total, decide_eq_true_eq, xxh32, xxh32EndianAlign]
  split
  case isTrue => rw [h.kept]
  case isFalse hshort =>
    have hkept := h.kept
    rw [blocks_short _ (Nat.not_le.mp hshort)] at hkept
    obtain ⟨hv, hrest⟩ := Prod.mk.inj hkept
    rw [← hrest, ← hv]
    show xxh32Tail (seed + 0 + prime32x5 + _) data = _
    rw [add_zero]

theorem pieces (h : Fed seed state data) (pieces : List (List UInt8)) :
    ∃ state', pieces.foldlM xxh32UpdateEndian state = some state' ∧
      Fed seed state' (data ++ pieces.flatten) := by
  induction pieces generalizing state data with
  | nil =>
    rw [List.flatten_nil, List.append_nil]
    exact ⟨state, rfl, h⟩
  | cons piece pieces ih =>
    obtain ⟨state₁, hupdate, h₁⟩ := h.update piece
    obtain ⟨state₂, hrest, h₂⟩ := ih h₁
    rw [List.append_assoc, ← List.flatten_cons] at h₂
    refine ⟨state₂, ?_, h₂⟩
    rw [List.foldlM_cons, hupdate]
    exact hrest

end Fed

/-- **Pieces of the data** give the hash of the whole, and no piece is written outside of the
    buffer. -/
theorem xxh32_pieces (seed : BitVec 32) (pieces : List (List UInt8)) :
    (pieces.foldlM xxh32UpdateEndian (xxh32Reset seed)).map xxh32DigestEndian =
      some (xxh32 pieces.flatten seed) := by
  obtain ⟨state, hfold, h⟩ := (fed_reset seed).pieces pieces
  rw [List.nil_append] at h
  rw [hfold, Option.map_some, h.digest]

/-! ## Data that is nearly the same

A stripe is four words in four lanes, and the step of a lane loses neither its state nor its word.
-/

theorem xxhRotl32_injective {r : Nat} (hr : r < 32) : Injective fun x => xxhRotl32 x r :=
  rotl_injective hr

theorem xxhGet32bits_ne {p q : List UInt8} (hlen : p.length = 4) (h : OneApart p q) :
    xxhGet32bits p 0 ≠ xxhGet32bits q 0 :=
  ofNat_wordOf_front_ne hlen (h.length_eq ▸ hlen) (by decide) h.ne

/-- Exactly one lane differs. -/
def OneLane (v v' : Xxh32Lanes) : Prop :=
  OneOf (· ≠ ·) (OneOf (· ≠ ·) (OneOf (· ≠ ·) (· ≠ ·))) (v.v1, v.v2, v.v3, v.v4)
    (v'.v1, v'.v2, v'.v3, v'.v4)

theorem xxh32Round_inj {seed seed' input input' : BitVec 32} :
    xxh32Round seed input = xxh32Round seed' input' ↔
      seed + input * prime32x2 = seed' + input' * prime32x2 := by
  have hmix : Injective fun x : BitVec 32 => xxhRotl32 x 13 * prime32x1 :=
    rotl_mul_injective (k := 13) (by decide) 1327217880 (by decide)
  exact hmix.eq_iff

theorem xxh32Round_seed (input : BitVec 32) : Injective fun seed => xxh32Round seed input :=
  fun _ _ heq => BitVec.add_left_inj _ |>.mp (xxh32Round_inj.mp heq)

theorem xxh32Round_input (seed : BitVec 32) : Injective fun input => xxh32Round seed input :=
  fun _ _ heq => mul_odd_injective (c := prime32x2) 1123411259 (by decide)
    (BitVec.add_right_inj _ |>.mp (xxh32Round_inj.mp heq))

theorem xxh32Round_separates :
    Separates 4 (· ≠ ·) fun v p => xxh32Round v (xxhGet32bits p 0) where
  state _ hne heq := hne (xxh32Round_seed _ heq)
  block hlen h heq := xxhGet32bits_ne hlen h (xxh32Round_input _ heq)

theorem xxh32Stripe_separates : Separates 16 OneLane xxh32Stripe := by
  have hlanes := xxh32Round_separates.pair <| xxh32Round_separates.pair <|
    xxh32Round_separates.pair xxh32Round_separates
  constructor
  · intro v v' w hlen h
    have hstate := hlanes.state hlen h
    simp only [xxhGet32bits, List.drop_drop, List.drop_zero, List.take_take, Nat.min_self] at hstate
    exact hstate
  · intro v w w' hlen h
    have hblock := hlanes.block (s := (v.v1, v.v2, v.v3, v.v4)) hlen h
    simp only [xxhGet32bits, List.drop_drop, List.drop_zero, List.take_take, Nat.min_self] at hblock
    exact hblock

/-- A sum shows a difference in one of its parts. -/
theorem rotl_add_ne {τ : Type} {S : τ → τ → Prop} {x x' : BitVec 32} {t t' : τ} {r : Nat}
    {g : τ → BitVec 32} (hr : r < 32) (hg : ∀ s t, S s t → g s ≠ g t)
    (h : OneOf (· ≠ ·) S (x, t) (x', t')) : xxhRotl32 x r + g t ≠ xxhRotl32 x' r + g t' := by
  rcases h with ⟨hne, heq⟩ | ⟨heq, hne⟩
  · change t = t' at heq
    rw [heq]
    exact fun hsum => hne (xxhRotl32_injective hr (BitVec.add_left_inj _ |>.mp hsum))
  · change x = x' at heq
    rw [heq]
    exact fun hsum => hg _ _ hne (BitVec.add_right_inj _ |>.mp hsum)

theorem xxh32Merge_ne {v v' : Xxh32Lanes} (h : OneLane v v') : xxh32Merge v ≠ xxh32Merge v' := by
  have h1 := rotl_add_ne (r := 1)
    (g := fun t : BitVec 32 × BitVec 32 × BitVec 32 =>
      xxhRotl32 t.1 7 + (xxhRotl32 t.2.1 12 + xxhRotl32 t.2.2 18)) (by decide)
    (fun s t hst => rotl_add_ne (r := 7)
      (g := fun t : BitVec 32 × BitVec 32 => xxhRotl32 t.1 12 + xxhRotl32 t.2 18) (by decide)
      (fun s t hst => rotl_add_ne (r := 12) (g := fun x => xxhRotl32 x 18) (by decide)
        (fun _ _ hne => (xxhRotl32_injective (by decide)).ne hne) hst) hst) h
  simp only [← add_assoc] at h1
  exact h1

theorem xxh32Avalanche_injective : Injective xxh32Avalanche :=
  laid_mul_injective (i := 15) (j := 13) (k := 16) (by decide) (by decide) (by decide)
    (b := prime32x2) (c := prime32x3) 1123411259 1633244958 (by decide) (by decide)

theorem xxh32Word_separates : Separates 4 (· ≠ ·) xxh32Word := by
  have hmix : Injective fun x : BitVec 32 => xxhRotl32 x 17 * prime32x4 :=
    rotl_mul_injective (k := 17) (by decide) 334132631 (by decide)
  constructor
  · intro s t w _ hne heq
    exact hne (BitVec.add_left_inj _ |>.mp (hmix heq))
  · intro s w w' hlen h heq
    exact xxhGet32bits_ne hlen h <| mul_odd_injective (c := prime32x3) 1633244958 (by decide)
      (BitVec.add_right_inj _ |>.mp (hmix heq))

theorem xxh32Tail_apart {p q : BitVec 32 × List UInt8} (h : Parted (· ≠ ·) p q) :
    xxh32Tail p.1 p.2 ≠ xxh32Tail q.1 q.2 := by
  have hmix : Injective fun x : BitVec 32 => xxhRotl32 x 11 * prime32x1 :=
    rotl_mul_injective (k := 11) (by decide) 1327217880 (by decide)
  have hstate : ∀ {s t : BitVec 32} (b : UInt8), s ≠ t → xxh32Byte s b ≠ xxh32Byte t b :=
    fun b hne heq => hne (BitVec.add_left_inj _ |>.mp (hmix heq))
  have hitem : ∀ (s : BitVec 32) {a b : UInt8}, a ≠ b → xxh32Byte s a ≠ xxh32Byte s b :=
    fun s a b hab heq => hab <| byte_setWidth_injective (w := 32) (by decide) <|
      mul_odd_injective (c := prime32x5) 187380696 (by decide)
        (BitVec.add_right_inj _ |>.mp (hmix heq))
  exact fun heq =>
    (h.blocks xxh32Word_separates).foldl hstate hitem (xxh32Avalanche_injective heq)

/-- **A difference in one byte** is one in the hash. -/
theorem xxh32_byte (seed : BitVec 32) {xs ys : List UInt8} (h : OneApart xs ys) :
    xxh32 xs seed ≠ xxh32 ys seed := by
  rw [xxh32, xxh32, xxh32EndianAlign, xxh32EndianAlign, h.length_eq]
  split
  case isTrue =>
    have hstripes : Parted OneLane (xxh32Start seed, xs) (xxh32Start seed, ys) := Or.inr ⟨rfl, h⟩
    have hsum : ∀ v v' : Xxh32Lanes, OneLane v v' → xxh32Merge v + BitVec.ofNat 32 ys.length ≠
        xxh32Merge v' + BitVec.ofNat 32 ys.length :=
      fun _ _ hone heq => xxh32Merge_ne hone (BitVec.add_left_inj _ |>.mp heq)
    have htail := xxh32Tail_apart <| (hstripes.blocks xxh32Stripe_separates).map
      (fun v => xxh32Merge v + BitVec.ofNat 32 ys.length) id hsum fun _ _ => id
    exact htail
  case isFalse => exact xxh32Tail_apart (p := (_, xs)) (q := (_, ys)) (Or.inr ⟨rfl, h⟩)

/-- Data that does not fill a stripe. -/
theorem inaHash32Xxhash_keen : Keen 16 inaHash32Xxhash :=
  keen_of_apart fun p q hshort h => by
    rw [inaHash32Xxhash, inaHash32Xxhash, xxh32, xxh32, xxh32EndianAlign, xxh32EndianAlign,
      ← h.length_eq, if_neg (Nat.not_le.mpr hshort), if_neg (Nat.not_le.mpr hshort)]
    have hsum : ∀ s t : BitVec 32, s ≠ t → s + prime32x5 + BitVec.ofNat 32 p.2.length ≠
        t + prime32x5 + BitVec.ofNat 32 p.2.length :=
      fun _ _ hne heq => hne <| BitVec.add_left_inj _ |>.mp <| BitVec.add_left_inj _ |>.mp heq
    have htail := xxh32Tail_apart <|
      h.map (fun s => s + prime32x5 + BitVec.ofNat 32 p.2.length) id hsum fun _ _ => id
    exact htail

end Hash
end Inac
