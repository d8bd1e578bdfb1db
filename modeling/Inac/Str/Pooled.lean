import Inac.Lib.Bytes
import Inac.Mempool.Align
import Inac.Mempool.Chain
import Inac.Str.Defs

/-!
# Strings in a pool

The `_using_pool` constructors take a string's bytes with `dalloc`, in front of them the header.
`ina_str_new_using_pool` writes the header and a NUL as the first byte, and the others copy the
content over that NUL and set `len`. None of them writes a NUL behind the content, as their
siblings on the heap do: there stands what the pool held before.

So whether a string ends where its `len` says is the pool's history. `Spoiled` reads it off the
pool a call meets, and that is exact in every run.
-/

namespace Inac
namespace Mempool

open Lib

/-! ## Bytes of a chunk -/

def Ptr.plus (p : Ptr) (n : Nat) : Ptr := ⟨p.chunk, p.off + n⟩

/-- Store `bs` at a pointer. -/
def Heap.put (h : Heap) (p : Ptr) (bs : List UInt8) : Heap :=
  h.modify p.chunk fun q => { q with m := putBytes q.m p.off bs }

theorem Heap.put_nil (h : Heap) (p : Ptr) : h.put p [] = h := by
  simp only [Heap.put, Heap.modify, putBytes_nil, Function.update_eq_self]

theorem Heap.Linked.put {h : Heap} (hl : h.Linked) (p : Ptr) (bs : List UInt8) :
    (h.put p bs).Linked :=
  hl.take _ (fun _ => rfl) fun _ => rfl

end Mempool

namespace Str

open Lib
open Mempool (Env Heap Ptr Ret Req addSz subSz memAlignN memDynamic newFill firstPos)

/-! ## The code

With the allocators of `Inac.Mempool.Env`: memory may be refused, and a chunk may hold what was
there before a `reset`. -/

/-- `ina_mempool_dalloc`. -/
def inaMempoolDalloc (E : Env) (h : Heap) (pool size : Nat) : Ret × Heap :=
  E.dallocAligned h pool size (h.pool pool).alignment

/-- `ina_str_new_using_pool`; the pointer is to the header. -/
def inaStrNewUsingPool (E : Env) (h : Heap) (len : Nat) (pool : Option Nat) : Ret × Heap :=
  match pool with
  | none => (.null .invalidArgument, h)
  | some pool =>
    match inaMempoolDalloc E h pool (addSz (addSz len 1) 8) with
    | (.ok hdr, h) =>
      let h := h.put hdr (u32Bytes (2 ^ 31 ||| addSz len 1))
      let h := h.put (hdr.plus 4) (u32Bytes 0)
      (.ok hdr, h.put (hdr.plus 8) [0])
    | failed => failed

/-- `ina_str_new_fromblk_using_pool`; `none` is `NULL`. -/
def inaStrNewFromblkUsingPool (E : Env) (h : Heap) (blk : Option (List UInt8)) (len : Nat)
    (pool : Option Nat) : Ret × Heap :=
  match blk, pool with
  | none, _ => (.null .invalidArgument, h)
  | some _, none => (.null .invalidArgument, h)
  | some blk, some pool =>
    match inaStrNewUsingPool E h len (some pool) with
    | (.ok hdr, h) =>
      let h := if len > 0 then h.put (hdr.plus 8) (blk.take len) else h
      (.ok hdr, h.put (hdr.plus 4) (u32Bytes len))
    | failed => failed

/-- `ina_str_new_fromcstr_using_pool`; `none` is `NULL`. -/
def inaStrNewFromcstrUsingPool (E : Env) (h : Heap) (cstr : Option (List UInt8))
    (pool : Option Nat) : Ret × Heap :=
  let len := match cstr with
    | some cstr => strlen cstr
    | none => 0
  match inaStrNewUsingPool E h len pool with
  | (.ok hdr, h) =>
    let h := match cstr with
      | some cstr => h.put (hdr.plus 8) (cstr.take len)
      | none => h
    (.ok hdr, h.put (hdr.plus 4) (u32Bytes len))
  | failed => failed

/-- `ina_str_dup_using_pool`; a `NULL` string gives `NULL`, with no error. -/
def inaStrDupUsingPool (E : Env) (h : Heap) (str : Option (List UInt8)) (pool : Option Nat) :
    Option (Ret × Heap) :=
  str.map fun str => inaStrNewFromcstrUsingPool E h (some str) pool

/-- `__ina_str_substr_internal`; `stop` is the source's `end`. -/
def strSubstrInternal (start stop len : Nat) : Nat :=
  if len = 0 then 0
  else
    let newlen := if start > stop then 0 else addSz (subSz stop start) 1
    if newlen ≠ 0 then
      if start ≥ len then 0
      else if stop ≥ len then
        let stop := subSz len 1
        if start > stop then 0 else addSz (subSz stop start) 1
      else newlen
    else newlen

/-- A string to read from: the address of its bytes, and the first `ina_str_len` of them. -/
structure Source where
  addr : Nat
  bytes : List UInt8
  not_null : 0 < addr
  fits : addr + bytes.length < 2 ^ 64
  len_lt : bytes.length < 2 ^ 32

/-- `data + start`: a pointer to the bytes from there on, `NULL` when it wraps to zero. -/
def Source.block (str : Source) (start : Nat) : Option (List UInt8) :=
  if addSz str.addr start = 0 then none else some (str.bytes.drop start)

def inaStrSubstrUsingPool (E : Env) (h : Heap) (str : Source) (start stop : Nat)
    (pool : Option Nat) : Ret × Heap :=
  inaStrNewFromblkUsingPool E h (str.block start) (strSubstrInternal start stop str.bytes.length)
    pool

/-! ## What a string in a pool is

It has two lengths, the `len` of its header and the one at which a reader finds the first NUL. -/

/-- `ina_str_len`. -/
def inaStrLen (h : Heap) (hdr : Ptr) : Nat := readU32 (h.pool hdr.chunk).m (hdr.off + 4)

/-- `data[i]`. -/
def dataAt (h : Heap) (hdr : Ptr) (i : Nat) : UInt8 := (h.pool hdr.chunk).m (hdr.off + 8 + i)

/-- The string's bytes are `bs`. -/
def Content (h : Heap) (hdr : Ptr) (bs : List UInt8) : Prop :=
  inaStrLen h hdr = bs.length ∧ ∀ i (hi : i < bs.length), dataAt h hdr i = bs.get ⟨i, hi⟩

/-- `strlen(str)` is `n`. -/
def CstrLen (h : Heap) (hdr : Ptr) (n : Nat) : Prop :=
  (∀ i < n, dataAt h hdr i ≠ 0) ∧ dataAt h hdr n = 0

/-- The content is `bs`, with a NUL behind it, and if it has no NUL of its own the C string is as
    long. -/
def Terminated (h : Heap) (hdr : Ptr) (bs : List UInt8) : Prop :=
  Content h hdr bs ∧ dataAt h hdr bs.length = 0 ∧ (0 ∉ bs → CstrLen h hdr (inaStrLen h hdr))

theorem terminated_iff {h : Heap} {hdr : Ptr} {bs : List UInt8} :
    Terminated h hdr bs ↔ Content h hdr bs ∧ dataAt h hdr bs.length = 0 := by
  constructor
  · intro ht
    exact ⟨ht.1, ht.2.1⟩
  · intro ⟨hc, hz⟩
    refine ⟨hc, hz, fun hno => ?_⟩
    rw [hc.1]
    refine ⟨fun i hi hzero => ?_, hz⟩
    rw [hc.2 i hi] at hzero
    exact hno (hzero ▸ List.get_mem ..)

/-! ## One call

The constructors come to one: a block of so many bytes is taken, and the header and the content are
copied there (`copied`). -/

/-- Everything a constructor stores at `hdr` for the content `bs`. -/
def strPut (h : Heap) (hdr : Ptr) (bs : List UInt8) : Heap :=
  let h := h.put hdr (u32Bytes (2 ^ 31 ||| addSz bs.length 1))
  let h := h.put (hdr.plus 4) (u32Bytes 0)
  let h := h.put (hdr.plus 8) [0]
  let h := h.put (hdr.plus 8) bs
  h.put (hdr.plus 4) (u32Bytes bs.length)

/-- What the four constructors have in common: take the bytes, store the content. -/
def copied (E : Env) (h : Heap) (pool : Nat) (bs : List UInt8) : Ret × Heap :=
  match inaMempoolDalloc E h pool (addSz (addSz bs.length 1) 8) with
  | (.ok hdr, h) => (.ok hdr, strPut h hdr bs)
  | failed => failed

theorem inaStrNewFromblkUsingPool_eq (E : Env) (h : Heap) (pool : Nat) {blk : List UInt8} {len : Nat}
    (hlen : len ≤ blk.length) :
    inaStrNewFromblkUsingPool E h (some blk) len (some pool) = copied E h pool (blk.take len) := by
  have hbs : (blk.take len).length = len := List.length_take_of_le hlen
  simp only [inaStrNewFromblkUsingPool, inaStrNewUsingPool, copied, strPut, hbs]
  generalize inaMempoolDalloc E h pool (addSz (addSz len 1) 8) = r
  obtain ⟨ret, h'⟩ := r
  cases ret with
  | ok hdr =>
    dsimp only
    by_cases hz : len > 0
    · rw [if_pos hz]
    · obtain rfl : len = 0 := Nat.eq_zero_of_not_pos hz
      rw [if_neg hz, List.take_zero, Heap.put_nil]
  | null e => rfl
  | fault => rfl
  | hang => rfl

/-- The bytes of a C string; `none` is `NULL`. -/
def cstrBytes : Option (List UInt8) → List UInt8
  | some cstr => cstr.takeWhile (· ≠ 0)
  | none => []

theorem inaStrNewFromcstrUsingPool_eq (E : Env) (h : Heap) (pool : Nat)
    (cstr : Option (List UInt8)) :
    inaStrNewFromcstrUsingPool E h cstr (some pool) = copied E h pool (cstrBytes cstr) := by
  cases cstr with
  | none =>
    simp only [inaStrNewFromcstrUsingPool, inaStrNewUsingPool, copied, strPut, cstrBytes,
      List.length_nil]
    generalize inaMempoolDalloc E h pool (addSz (addSz 0 1) 8) = r
    obtain ⟨ret, h'⟩ := r
    cases ret with
    | ok hdr =>
      dsimp only
      rw [Heap.put_nil]
    | null e => rfl
    | fault => rfl
    | hang => rfl
  | some cstr =>
    have htake : cstr.take (strlen cstr) = cstr.takeWhile (· ≠ 0) :=
      (List.prefix_iff_eq_take.mp (List.takeWhile_prefix _)).symm
    simp only [inaStrNewFromcstrUsingPool, inaStrNewUsingPool, copied, strPut, cstrBytes, htake]
    rw [← strlen]
    generalize inaMempoolDalloc E h pool (addSz (addSz (strlen cstr) 1) 8) = r
    obtain ⟨ret, h'⟩ := r
    cases ret <;> rfl

/-- The bytes of the chunk after all stores. -/
theorem strPut_m (h : Heap) (hdr : Ptr) (bs : List UInt8) :
    ((strPut h hdr bs).pool hdr.chunk).m =
      putBytes (putBytes (putBytes (putBytes (putBytes (h.pool hdr.chunk).m hdr.off
        (u32Bytes (2 ^ 31 ||| addSz bs.length 1))) (hdr.off + 4) (u32Bytes 0)) (hdr.off + 8) [0])
        (hdr.off + 8) bs) (hdr.off + 4) (u32Bytes bs.length) := by
  simp only [strPut, Heap.put, Ptr.plus, Heap.modify_pool_self]

theorem inaStrLen_strPut (h : Heap) (hdr : Ptr) (bs : List UInt8) :
    inaStrLen (strPut h hdr bs) hdr = bs.length % 2 ^ 32 := by
  rw [inaStrLen, strPut_m, readU32_putBytes]

theorem dataAt_strPut (h : Heap) (hdr : Ptr) {bs : List UInt8} {i : Nat} (hi : i < bs.length) :
    dataAt (strPut h hdr bs) hdr i = bs.get ⟨i, hi⟩ := by
  have hout : hdr.off + 4 + (u32Bytes bs.length).length ≤ hdr.off + 8 + i := by
    rw [u32Bytes_length]
    omega
  rw [dataAt, strPut_m, putBytes_of_le _ hout, putBytes_at _ _ hi]

/-- **Behind the content** stands what stood there before, unless the content is empty. -/
theorem dataAt_strPut_length (h : Heap) (hdr : Ptr) (bs : List UInt8) :
    dataAt (strPut h hdr bs) hdr bs.length = if bs = [] then 0 else dataAt h hdr bs.length := by
  have hhdr : ∀ x : Nat, hdr.off + 4 + (u32Bytes x).length ≤ hdr.off + 8 + bs.length := by
    intro x
    rw [u32Bytes_length]
    omega
  rw [dataAt, strPut_m, putBytes_of_le _ (hhdr _),
    putBytes_of_le _ (Nat.le_refl _)]
  by_cases hnil : bs = []
  · rw [if_pos hnil, hnil]
    exact putBytes_at _ _ (show 0 < [(0 : UInt8)].length by decide)
  · have hpos : 0 < bs.length := List.length_pos_iff.mpr hnil
    have hnul : hdr.off + 8 + [(0 : UInt8)].length ≤ hdr.off + 8 + bs.length := by
      rw [List.length_singleton]
      omega
    have hsize : hdr.off + (u32Bytes (2 ^ 31 ||| addSz bs.length 1)).length ≤
        hdr.off + 8 + bs.length := by
      rw [u32Bytes_length]
      omega
    rw [if_neg hnil, putBytes_of_le _ hnul, putBytes_of_le _ (hhdr _),
      putBytes_of_le _ hsize]
    rfl

/-- What a string with the content `bs` takes to be in order: a length that `len` can hold, and a
    NUL behind it, which is there already or is that of the empty string. -/
theorem terminated_strPut_iff (h : Heap) (hdr : Ptr) (bs : List UInt8) :
    Terminated (strPut h hdr bs) hdr bs ↔
      bs.length < 2 ^ 32 ∧ (bs = [] ∨ dataAt h hdr bs.length = 0) := by
  have hnul : dataAt (strPut h hdr bs) hdr bs.length = 0 ↔ bs = [] ∨ dataAt h hdr bs.length = 0 := by
    rw [dataAt_strPut_length]
    by_cases hnil : bs = []
    · simp [hnil]
    · simp [hnil]
  have hlen : bs.length % 2 ^ 32 = bs.length ↔ bs.length < 2 ^ 32 := by omega
  rw [terminated_iff, hnul, Content, inaStrLen_strPut, hlen]
  refine and_congr_left fun _ => and_iff_left ?_
  intro i hi
  exact dataAt_strPut h hdr hi

/-! ## Runs

The other calls on the pool are part of the run, as they are what leaves bytes behind. -/

/-- A call on a pool, or a write to its memory. -/
inductive PoolCall where
  | alloc (req : Req)
  | ralloc (old : Ptr) (oldSize newSize alignment : Nat)
  | write (p : Ptr) (v : UInt8)
  | reset
  | newFromblk (blk : Option (List UInt8)) (len : Nat)
  | newFromcstr (cstr : Option (List UInt8))
  | dup (str : Option (List UInt8))
  | substr (str : Source) (start stop : Nat)

inductive PoolReply where
  | ret (r : Ret)
  | null  -- `NULL`, with no error
  | done
  deriving DecidableEq, Repr

def PoolReply.of (r : Ret × Option Heap) : PoolReply × Option Heap := (.ret r.1, r.2)

/-- One call. The pool is structure `0`, as in the runs of `Inac.Mempool.Align`. -/
def poolStep (E : Env) (s : Option Heap) (call : PoolCall) : PoolReply × Option Heap :=
  match s with
  | none => (.ret .fault, none)
  | some h =>
    match call with
    | .alloc req => PoolReply.of (Mempool.allocStep E (some h) req)
    | .ralloc old oldSize newSize alignment =>
      PoolReply.of (Ret.next (E.rallocAligned h 0 old oldSize newSize alignment))
    | .write p v => (.done, some (h.put p [v]))
    | .reset => (.done, Mempool.inaMempoolReset h 0)
    | .newFromblk blk len => PoolReply.of (Ret.next (inaStrNewFromblkUsingPool E h blk len (some 0)))
    | .newFromcstr cstr => PoolReply.of (Ret.next (inaStrNewFromcstrUsingPool E h cstr (some 0)))
    | .dup str =>
      match inaStrDupUsingPool E h str (some 0) with
      | some r => PoolReply.of (Ret.next r)
      | none => (.null, some h)
    | .substr str start stop =>
      PoolReply.of (Ret.next (inaStrSubstrUsingPool E h str start stop (some 0)))

/-- The content a string is made for. -/
def PoolCall.content : PoolCall → Option (List UInt8)
  | .newFromblk blk len => blk.map (·.take len)
  | .newFromcstr cstr => some (cstrBytes cstr)
  | .dup str => str.map fun str => cstrBytes (some str)
  | .substr str start stop =>
    (str.block start).map (·.take (strSubstrInternal start stop str.bytes.length))
  | .alloc _ | .ralloc .. | .write .. | .reset => none

/-- A block holds the bytes asked for. -/
def PoolCall.Held : PoolCall → Prop
  | .newFromblk (some blk) len => len ≤ blk.length
  | _ => True

/-- A string that is returned is in order. -/
def Ordered (E : Env) (s : Option Heap) (call : PoolCall) : Prop :=
  ∀ bs hdr h', call.content = some bs → poolStep E s call = (.ret (.ok hdr), some h') →
    Terminated h' hdr bs

/-- The bytes at `off` are good for the content: `len` can hold its length, and a NUL stands where
    it ends, unless it is empty. -/
def Good (m : Nat → UInt8) (off : Nat) (bs : List UInt8) : Prop :=
  bs.length < 2 ^ 32 ∧ (bs = [] ∨ m (off + 8 + bs.length) = 0)

/-- What `dalloc` is asked for a content, rounded up. -/
def strTaken (h : Heap) (bs : List UInt8) : Nat :=
  memAlignN (addSz (addSz bs.length 1) 8) (h.pool 0).alignment

/-- The bytes the string gets are not good for it: those at `pos` of the first chunk from `current`
    on with room, or those of a new chunk. -/
def Spoils (E : Env) (h : Heap) (bs : List UInt8) : Prop :=
  match h.roomy (strTaken h bs) (h.candidates 0) with
  | some c => ¬ Good (h.pool c).m (h.pool c).pos bs
  | none => (h.pool 0).cf &&& memDynamic ≠ 0 ∧ E.Grants (h.pool 0) (strTaken h bs) ∧
      ¬ Good (newFill h (h.pool 0).cf) (firstPos (h.pool 0)) bs

def Spoiled (E : Env) (s : Option Heap) (call : PoolCall) : Prop :=
  ∃ h bs, s = some h ∧ call.content = some bs ∧ Spoils E h bs

/-- **`__ina_str_substr_internal`** gives the bytes from `start` to `stop` or to the end, and none
    where `(end - start) + 1` wraps. -/
theorem strSubstrInternal_eq (start stop : Nat) {len : Nat} (hlen : len < 2 ^ 64) :
    strSubstrInternal start stop len =
      if len = 0 ∨ stop < start ∨ addSz (subSz stop start) 1 = 0 ∨ len ≤ start then 0
      else min stop (len - 1) - start + 1 := by
  -- What is in the string does not wrap, so the length is the number of positions.
  have hsum : ∀ {a b : Nat}, b ≤ a → a < len → addSz (subSz a b) 1 = a - b + 1 := by
    intro a b hab ha
    rw [Mempool.subSz_of_le hab (by omega), Mempool.addSz_of_lt (by omega)]
  rw [strSubstrInternal]
  by_cases hzero : len = 0
  · rw [if_pos hzero, if_pos (Or.inl hzero)]
  by_cases hlt : stop < start
  · simp [hzero, hlt]
  by_cases hwrap : addSz (subSz stop start) 1 = 0
  · simp [hzero, hlt, hwrap]
  by_cases hstart : len ≤ start
  · simp [hstart]
  have hlast : subSz len 1 = len - 1 := Mempool.subSz_of_le (by omega) hlen
  simp only [gt_iff_lt, ne_eq, hwrap, not_false_eq_true, if_true, ge_iff_le, hlast, hzero, hlt,
    hstart, or_self, if_false]
  by_cases hstop : len ≤ stop
  · rw [if_pos hstop, if_neg (by omega), hsum (by omega) (by omega)]
    omega
  · rw [if_neg hstop, hsum (by omega) (by omega)]
    omega

theorem strSubstrInternal_le (start stop : Nat) {len : Nat} (hlen : len < 2 ^ 64) :
    strSubstrInternal start stop len ≤ len - start := by
  rw [strSubstrInternal_eq start stop hlen]
  split
  · exact Nat.zero_le _
  · omega

/-- **The constructors** copy their content. -/
theorem poolStep_copied (E : Env) {h : Heap} {call : PoolCall} {bs : List UInt8}
    (hheld : call.Held) (hcontent : call.content = some bs) :
    poolStep E (some h) call = PoolReply.of (Ret.next (copied E h 0 bs)) := by
  cases call with
  | newFromblk blk len =>
    obtain ⟨blk, rfl, rfl⟩ := Option.map_eq_some_iff.mp hcontent
    rw [← inaStrNewFromblkUsingPool_eq E h 0 hheld]
    rfl
  | newFromcstr cstr =>
    obtain rfl := Option.some.inj hcontent
    rw [← inaStrNewFromcstrUsingPool_eq]
    rfl
  | dup str =>
    obtain ⟨str, rfl, rfl⟩ := Option.map_eq_some_iff.mp hcontent
    rw [← inaStrNewFromcstrUsingPool_eq]
    rfl
  -- The block of a substring is what stands from its start on, and has the bytes that are taken.
  | substr str start stop =>
    obtain ⟨blk, hblk, rfl⟩ := Option.map_eq_some_iff.mp hcontent
    have hlen : strSubstrInternal start stop str.bytes.length ≤ blk.length := by
      rw [Source.block] at hblk
      split at hblk
      · cases hblk
      · rw [← Option.some.inj hblk, List.length_drop]
        exact strSubstrInternal_le start stop (Nat.lt_trans str.len_lt (by decide))
    rw [← inaStrNewFromblkUsingPool_eq E h 0 hlen, ← hblk]
    rfl
  | alloc req => cases hcontent
  | ralloc old oldSize newSize alignment => cases hcontent
  | write p v => cases hcontent
  | reset => cases hcontent

theorem copied_ok {E : Env} {h h' : Heap} {pool : Nat} {bs : List UInt8} {hdr : Ptr}
    (hd : inaMempoolDalloc E h pool (addSz (addSz bs.length 1) 8) = (.ok hdr, h')) :
    copied E h pool bs = (.ok hdr, strPut h' hdr bs) := by
  simp only [copied, hd]

theorem copied_failed {E : Env} {h : Heap} {pool : Nat} {bs : List UInt8} {r : Ret × Heap}
    (hd : inaMempoolDalloc E h pool (addSz (addSz bs.length 1) 8) = r)
    (hno : ∀ p, r.1 ≠ .ok p) : copied E h pool bs = r := by
  obtain ⟨ret, h'⟩ := r
  simp only [copied, hd]
  cases ret with
  | ok p => exact absurd rfl (hno p)
  | null e => rfl
  | fault => rfl
  | hang => rfl

/-- **One string** is in order exactly when its bytes are good for it. -/
theorem copied_iff (E : Env) {h : Heap} (hl : h.Linked) (hroot : 0 < h.count) (bs : List UInt8) :
    (∀ hdr h', copied E h 0 bs = (.ok hdr, h') → Terminated h' hdr bs) ↔ ¬ Spoils E h bs := by
  have hd := E.dallocAligned_dallocs hl hroot (addSz (addSz bs.length 1) 8) (h.pool 0).alignment
  rw [← strTaken] at hd
  -- a string that is returned is in order when the bytes it got are good
  have hgood : ∀ {hdr : Ptr} {h' : Heap} {m : Nat → UInt8} {off : Nat},
      inaMempoolDalloc E h 0 (addSz (addSz bs.length 1) 8) = (.ok hdr, h') →
      (h'.pool hdr.chunk).m = m → hdr.off = off →
      ((∀ hdr h', copied E h 0 bs = (.ok hdr, h') → Terminated h' hdr bs) ↔ Good m off bs) := by
    rintro hdr h' m off heq rfl rfl
    have hiff := terminated_strPut_iff h' hdr bs
    rw [copied_ok heq]
    constructor
    · intro hall
      exact hiff.mp (hall hdr _ rfl)
    · intro hg hdr' h'' hpair
      obtain ⟨hret, rfl⟩ := Prod.mk.inj hpair
      obtain rfl := Ret.ok.inj hret
      exact hiff.mpr hg
  have hnone : ∀ {r : Ret × Heap}, inaMempoolDalloc E h 0 (addSz (addSz bs.length 1) 8) = r →
      (∀ p, r.1 ≠ .ok p) → ∀ hdr h', copied E h 0 bs = (.ok hdr, h') → Terminated h' hdr bs := by
    intro r heq hno hdr h' hpair
    rw [copied_failed heq hno] at hpair
    exact absurd (congrArg Prod.fst hpair) (hno hdr)
  generalize hr : E.dallocAligned h 0 (addSz (addSz bs.length 1) 8) (h.pool 0).alignment = r at hd
  rw [← inaMempoolDalloc] at hr
  cases hd with
  | served c hroom hc =>
    rw [hgood hr rfl rfl]
    simp only [Spoils, hroom, not_not, Heap.modify_pool_self, Heap.setCurrent_pool]
  | grown z h' hfull hdyn hgrant hz hlt hadd =>
    rw [hgood hr rfl rfl]
    simp only [Spoils, hfull, Heap.modify_pool_self, hadd.fields.2.2.2]
    simp [hdyn, hgrant]
  | refused z hfull hdyn hgrant hz hlt =>
    have hno : ¬ Spoils E h bs := by
      simp only [Spoils, hfull]
      exact fun hs => hgrant hs.2.1
    exact iff_of_true (hnone hr (E.refusal_ne_ok _ _)) hno
  | full hfull hfix =>
    have hno : ¬ Spoils E h bs := by
      simp only [Spoils, hfull]
      exact fun hs => hfix hs.1
    exact iff_of_true (hnone hr fun p => Ret.noConfusion) hno

theorem copied_linked (E : Env) {h : Heap} (hl : h.Linked) {pool : Nat} (hpool : pool < h.count)
    (bs : List UInt8) :
    (copied E h pool bs).2.Linked ∧ h.count ≤ (copied E h pool bs).2.count := by
  have hd := (E.dallocAligned_dallocs hl hpool (addSz (addSz bs.length 1) 8)
    (h.pool pool).alignment).linked hl
  rw [← inaMempoolDalloc] at hd
  generalize hr : inaMempoolDalloc E h pool (addSz (addSz bs.length 1) 8) = r at hd
  obtain ⟨ret, h'⟩ := r
  cases ret with
  | ok hdr =>
    rw [copied_ok hr, strPut]
    exact ⟨((((hd.1.put _ _).put _ _).put _ _).put _ _).put _ _, hd.2⟩
  | null e =>
    rw [copied_failed hr fun p => Ret.noConfusion]
    exact hd
  | fault =>
    rw [copied_failed hr fun p => Ret.noConfusion]
    exact hd
  | hang =>
    rw [copied_failed hr fun p => Ret.noConfusion]
    exact hd

/-- Every call keeps chains forward. -/
theorem sound_poolStep {E : Env} {s : Option Heap} (hs : Mempool.Sound s) {call : PoolCall}
    (hheld : call.Held) : Mempool.Sound (poolStep E s call).2 := by
  cases s with
  | none => exact fun h heq => nomatch heq
  | some h =>
    obtain ⟨hl, hroot⟩ := hs h rfl
    -- Whatever is returned, the root is still there and the chains point forward.
    have hnext : ∀ {r : Ret × Heap}, r.2.Linked ∧ h.count ≤ r.2.count →
        Mempool.Sound (PoolReply.of (Ret.next r)).2 := by
      intro r hr h' heq
      obtain rfl := Ret.next_some heq
      exact ⟨hr.1, Nat.lt_of_lt_of_le hroot hr.2⟩
    have hsame : ∀ ret, Mempool.Sound (PoolReply.of (Ret.next (ret, h))).2 := fun ret =>
      hnext ⟨hl, Nat.le_refl _⟩
    cases hcontent : call.content with
    | some bs =>
      rw [poolStep_copied E hheld hcontent]
      exact hnext (copied_linked E hl hroot bs)
    | none =>
      cases call with
      | alloc req => exact hs.step E req
      | ralloc old oldSize newSize alignment =>
        exact hnext (E.rallocAligned_linked hl hroot old oldSize newSize alignment)
      | write p v =>
        intro h' heq
        obtain rfl := Option.some.inj heq
        exact ⟨hl.put p [v], hroot⟩
      | reset =>
        intro h' heq
        obtain ⟨h'', hreset, hl', hcount⟩ := hl.reset hroot
        obtain rfl := Option.some.inj (hreset.symm.trans heq)
        exact ⟨hl', hcount ▸ hroot⟩
      | newFromblk blk len =>
        obtain rfl := Option.map_eq_none_iff.mp hcontent
        exact hsame _
      | newFromcstr cstr => cases hcontent
      | dup str =>
        obtain rfl := Option.map_eq_none_iff.mp hcontent
        exact hs
      | substr str start stop =>
        have hblk : str.block start = none := Option.map_eq_none_iff.mp hcontent
        rw [poolStep]
        simp only [inaStrSubstrUsingPool, hblk, inaStrNewFromblkUsingPool]
        exact hsame _

theorem ordered_iff {E : Env} {s : Option Heap} (hs : Mempool.Sound s) {call : PoolCall}
    (hheld : call.Held) : Ordered E s call ↔ ¬ Spoiled E s call := by
  cases s with
  | none =>
    refine iff_of_true (fun bs hdr h' _ hstep => nomatch hstep) ?_
    rintro ⟨h, bs, hsome, -⟩
    cases hsome
  | some h =>
    obtain ⟨hl, hroot⟩ := hs h rfl
    cases hcontent : call.content with
    | none =>
      refine iff_of_true (fun bs hdr h' hbs => ?_) ?_
      · rw [hcontent] at hbs
        cases hbs
      · rintro ⟨h', bs, -, hbs, -⟩
        rw [hcontent] at hbs
        cases hbs
    | some bs =>
      -- Whether it will be spoiled is a question about the pool before the call.
      have hspoiled : Spoiled E (some h) call ↔ Spoils E h bs := by
        constructor
        · rintro ⟨h', bs', hsome, hbs, hsp⟩
          obtain rfl := Option.some.inj hsome
          obtain rfl := Option.some.inj (hcontent.symm.trans hbs)
          exact hsp
        · intro hsp
          exact ⟨h, bs, rfl, hcontent, hsp⟩
      -- Such a call is the copy of its content.
      have hstep : ∀ hdr h', poolStep E (some h) call = (.ret (.ok hdr), some h') ↔
          copied E h 0 bs = (.ok hdr, h') := by
        intro hdr h'
        rw [poolStep_copied E hheld hcontent, PoolReply.of]
        generalize copied E h 0 bs = r
        obtain ⟨ret, g⟩ := r
        cases ret <;> simp [Ret.next]
      rw [hspoiled, ← copied_iff E hl hroot bs]
      constructor
      · intro hord hdr h' hpair
        exact hord bs hdr h' hcontent ((hstep hdr h').mpr hpair)
      · intro hall bs' hdr h' hbs hpair
        obtain rfl := Option.some.inj (hcontent.symm.trans hbs)
        exact hall hdr h' ((hstep hdr h').mp hpair)

/-- **Pool strings end where they say exactly when the pool was clean there.** In every history of
    allocations, writes, resets and strings on a new pool of any kind, each string that is returned
    has its content, a NUL behind it and the length of its C string, if and only if no string is
    made where the bytes are not good for it. -/
theorem terminated_iff_never_spoiled (E : Env) (junk : Nat → Nat → UInt8) (size : Nat) (cf : UInt32)
    (calls : List PoolCall) (hheld : ∀ call ∈ calls, call.Held) :
    Along (poolStep E) (Ordered E) (E.start junk size cf) calls ↔
      Never (poolStep E) (Spoiled E) (E.start junk size cf) calls := by
  exact along_iff_never (I := Mempool.Sound) (fun _ _ hv _ hs => sound_poolStep hs hv)
    (fun _ _ hv hs => ordered_iff hs hv) (along_iff_forall.mpr hheld) (E.start_sound junk size cf)

/-- On a new pool that was filled with zeros. -/
theorem terminated_iff_never_spoiled_fresh :
    Along (poolStep .ample) (Ordered .ample) (Env.ample.start (fun _ _ => 7) 1024 0)
      [.alloc (.dalloc 16 16), .newFromblk (some [65, 66]) 2] := by
  have hheld : ∀ call ∈ [PoolCall.alloc (.dalloc 16 16), .newFromblk (some [65, 66]) 2],
      call.Held := by
    intro call hmem
    simp only [List.mem_cons, List.not_mem_nil, or_false] at hmem
    rcases hmem with rfl | rfl
    · exact trivial
    · exact Nat.le_refl 2
  refine (terminated_iff_never_spoiled .ample (fun _ _ => 7) 1024 0 _ hheld).mpr ⟨?_, ?_, trivial⟩
  · rintro ⟨h, bs, -, hbs, -⟩
    cases hbs
  · rintro ⟨h, bs, hsome, hbs, hsp⟩
    obtain rfl := Option.some.inj hsome
    obtain rfl := Option.some.inj hbs
    exact hsp ⟨by decide, Or.inr rfl⟩

/-- A block is written, the pool reset, and a string of two bytes made there: the third is not NUL. -/
theorem reset_pool_unterminated :
    (∀ call ∈ [PoolCall.alloc (.dalloc 16 16), .write ⟨0, 10⟩ 1, .reset,
      .newFromblk (some [65, 66]) 2], call.Held) ∧
    outs (poolStep .ample) (Env.ample.start (fun _ _ => 0) 1024 0)
        [.alloc (.dalloc 16 16), .write ⟨0, 10⟩ 1, .reset, .newFromblk (some [65, 66]) 2] =
      [.ret (.ok ⟨0, 0⟩), .done, .done, .ret (.ok ⟨0, 0⟩)] ∧
    ¬ Along (poolStep .ample) (Ordered .ample) (Env.ample.start (fun _ _ => 0) 1024 0)
        [.alloc (.dalloc 16 16), .write ⟨0, 10⟩ 1, .reset, .newFromblk (some [65, 66]) 2] := by
  refine ⟨?_, by decide, ?_⟩
  · intro call hmem
    simp only [List.mem_cons, List.not_mem_nil, or_false] at hmem
    rcases hmem with rfl | rfl | rfl | rfl
    · exact trivial
    · exact trivial
    · exact trivial
    · exact Nat.le_refl 2
  · rintro ⟨-, -, -, hord, -⟩
    have hnul := (hord [65, 66] ⟨0, 0⟩ _ rfl rfl).2.1
    revert hnul
    decide

end Str
end Inac
