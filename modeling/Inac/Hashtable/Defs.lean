import Mathlib.Algebra.Ring.Nat
import Mathlib.Data.List.Basic
import Inac.Err

/-!
# The hash table (`src/hashtable.c`)

A table is an array of buckets; a bucket is a growable array of nodes, scanned from its start.
Three details of the C code decide everything proved about it, so the model keeps them as they
are:

* a node's key is a **16-byte union**, and a key of `key_len` bytes is copied over its first
  `key_len` bytes only, so the bytes of an earlier occupant stay behind it;
* a probe compares `key_len` bytes **of the probe**, whatever length was stored;
* the scan stops at `bucket->count` nodes *or* at the first node whose `key.u32` is zero.

`remove` leaves the node in place with `data == NULL`. The `__ina_push_event` calls of the
statistics flag write to the monitor ring and read nothing back, so they, `bucket->hash` and the
`id` they report are not part of the table's state here.

Two things are taken to be as they are meant. A hash function is one of the **key's bytes**
(`HashFn`). All of the library's are, except the two of `crc_hw`, which also look at the address of
the bytes; they are functions of the bytes for keys at aligned addresses, which the integer entry
points pass, and for string keys only if the caller sees to it (`Inac.Hash.CrcHw` says how far they
depend on it). And the counters are unbounded, where the code has an `int32_t`: what is said here is
about tables of fewer than 2^31 nodes.

The functions are translated bucket by bucket: what a call does inside the bucket of its key is a
function on `Bucket`, and the call on the table replaces that bucket and moves the counter.
-/

namespace Inac
namespace Hashtable

/-- `ina_hashtable_key_type_t`, less the undefined one `ina_hashtable_new` refuses. -/
inductive KeyType where
  | int32 | uint32 | int64 | uint64 | str | ptr
  deriving DecidableEq, Repr

def maxKeyLen : Nat := 16  -- `INA_HASHTABLE_MAX_KEY_LEN`

def bucketSize : Nat := 32  -- `INA_HASHTABLE_BUCKET_SIZE`

/-- The `key_len` that `ina_hashtable_new` selects for a key type. -/
def KeyType.keyLen : KeyType → Nat
  | .int32 | .uint32 => 4
  | .int64 | .uint64 | .ptr => 8
  | .str => maxKeyLen

/-- `hash32_fn` or `hash64_fn`; exactly one is set, by the hash type. Both are called with
    seed 0 on the key's bytes, and these are all that the result may depend on. -/
inductive HashFn where
  | hash32 (fn : UInt32 → List UInt8 → UInt32)
  | hash64 (fn : UInt64 → List UInt8 → UInt64)

/-- `ina_hashtable_node_t`: the 16 bytes of the key union, and the `data` pointer
    (`none` for `NULL`). -/
structure Node (δ : Type) where
  key : List UInt8
  data : Option δ
  deriving DecidableEq, Repr

/-- A node of zero-filled memory, as `ina_mempool_dalloc` hands it out of the table's pool. -/
def Node.zero {δ : Type} : Node δ := ⟨List.replicate maxKeyLen 0, none⟩

/-- The low 32-bit word of a key: its first four bytes, little endian. -/
def lowWord (key : List UInt8) : Nat :=
  (key.take 4).foldr (fun b acc => b.toNat + 256 * acc) 0

/-- `key.u32`. -/
def Node.u32 {δ : Type} (n : Node δ) : Nat := lowWord n.key

/-- `0 == ina_mem_cmp(&next->key, key, key_len)`. -/
def Node.keyIs {δ : Type} (n : Node δ) (key : List UInt8) : Bool :=
  n.key.take key.length == key

/-- `ina_mem_cpy(&free->key, key, key_len)` and `free->data = data`. -/
def Node.store {δ : Type} (n : Node δ) (key : List UInt8) (d : δ) : Node δ :=
  ⟨key ++ n.key.drop key.length, some d⟩

/-- `ina_hashtable_bucket_t`. The node array is empty while the pointer is `NULL`, and holds
    `max + 1` nodes once it is allocated. -/
structure Bucket (δ : Type) where
  nodes : List (Node δ)
  count : Nat
  max : Nat
  free : Nat
  deriving DecidableEq, Repr

/-- A bucket of zero-filled memory. -/
def Bucket.zero {δ : Type} : Bucket δ := ⟨[], 0, 0, 0⟩

/-- `struct ina_hashtable_s`. -/
structure Table (δ : Type) where
  keyType : KeyType
  keyLen : Nat
  hashFn : HashFn
  capacity : Nat
  buckets : List (Bucket δ)
  count : Int

variable {δ : Type}

def cfPreallocated : Nat := 4  -- `INA_HASHTABLE_CF_PREALLOCATED`

/-- A bucket as `ina_hashtable_new` leaves it: untouched, or with its first nodes allocated. -/
def newBucket (cf : Nat) : Bucket δ :=
  if cf &&& cfPreallocated ≠ 0 then
    { nodes := List.replicate (bucketSize + 1) Node.zero, count := 0, max := bucketSize, free := 0 }
  else Bucket.zero

/-- `ina_hashtable_new`, the pool allocations succeeding. One bucket more than `capacity` is
    allocated; it is never hashed to and stays zero. -/
def inaHashtableNew (keyType : KeyType) (hashFn : HashFn) (capacity : Nat) (cf : Nat) :
    Except Err (Table δ) :=
  if capacity ≤ 2 ^ 31 - 1 then
    let cap := if capacity > 0 then capacity else 256
    .ok { keyType := keyType, keyLen := keyType.keyLen, hashFn := hashFn, capacity := cap,
          buckets := List.replicate cap (newBucket cf) ++ [Bucket.zero], count := 0 }
  else .error .invalidArgument

/-- `__ina_bucket`: the index of the key's bucket. -/
def HashFn.bucket (h : HashFn) (capacity : Nat) (key : List UInt8) : Nat :=
  match h with
  | .hash32 fn => (fn 0 key).toNat % capacity
  | .hash64 fn => (fn 0 key).toNat % capacity

/-- `__ina_bucket` on a table. -/
def Table.inaBucket (ht : Table δ) (key : List UInt8) : Nat :=
  ht.hashFn.bucket ht.capacity key

def Table.bucketAt (ht : Table δ) (i : Nat) : Bucket δ := ht.buckets.getD i Bucket.zero

def Table.setBucket (ht : Table δ) (i : Nat) (b : Bucket δ) : Table δ :=
  { ht with buckets := ht.buckets.set i b }

/-- The growth step at the head of `ina_hashtable_set`: when every slot is in use, a larger
    array of zeroed nodes takes over the first `max` nodes. -/
def Bucket.grow (b : Bucket δ) : Bucket δ :=
  if b.max = b.count then
    { b with nodes := b.nodes.take b.max ++
               List.replicate (b.max + bucketSize + 1 - (b.nodes.take b.max).length) Node.zero
             max := b.max + bucketSize }
  else b

/-- What the scan of `ina_hashtable_set` ends with: the node of the key, or none and the last
    node seen with `data == NULL`. -/
inductive SetScan where
  | found (j : Nat)
  | miss (free : Option Nat)
  deriving DecidableEq, Repr

/-- The scan of `ina_hashtable_set` from node `j` on. -/
def setScan (key : List UInt8) (count : Nat) :
    List (Node δ) → Nat → Option Nat → SetScan
  | [], _, free => .miss free
  | next :: rest, j, free =>
    if next.u32 ≠ 0 ∧ j < count then
      if next.keyIs key then .found j
      else setScan key count rest (j + 1) (if next.data.isNone then some j else free)
    else .miss free

/-- `ina_hashtable_set` inside the key's bucket: grow, scan, and overwrite the node of the key,
    a vacant node, or the node after the last one. Also returns what the call adds to
    `ht->count`. -/
def Bucket.set (b : Bucket δ) (key : List UInt8) (d : δ) : Bucket δ × Int :=
  let b := b.grow
  match setScan key b.count b.nodes 0 none with
  | .found j => ({ b with nodes := b.nodes.modify j fun n => { n with data := some d } }, 0)
  | .miss (some j) => ({ b with nodes := b.nodes.modify j (·.store key d) }, 1)
  | .miss none =>
    ({ b with nodes := b.nodes.modify b.count (·.store key d), count := b.count + 1 }, 1)

def inaHashtableSet (ht : Table δ) (key : List UInt8) (data : Option δ) :
    Except Err Unit × Table δ :=
  match data with
  | none => (.error .invalidArgument, ht)
  | some d =>
    let i := ht.inaBucket key
    let r := (ht.bucketAt i).set key d
    (.ok (), { ht.setBucket i r.1 with count := ht.count + r.2 })

/-- The scan that `ina_hashtable_get` and `ina_hashtable_remove` share, from node `j` on: the
    first node of the key that has data. -/
def liveScan (key : List UInt8) (count : Nat) : List (Node δ) → Nat → Option (Nat × δ)
  | [], _ => none
  | next :: rest, j =>
    if next.u32 ≠ 0 ∧ j < count then
      match next.data with
      | some d => if next.keyIs key then some (j, d) else liveScan key count rest (j + 1)
      | none => liveScan key count rest (j + 1)
    else none

def inaHashtableGet (ht : Table δ) (key : List UInt8) : Except Err δ :=
  let b := ht.bucketAt (ht.inaBucket key)
  match liveScan key b.count b.nodes 0 with
  | some (_, d) => .ok d
  | none => .error .notFound

/-- `ina_hashtable_remove` inside the key's bucket: the node's data goes to `NULL`, its key
    stays. -/
def Bucket.remove (b : Bucket δ) (key : List UInt8) : Option (δ × Bucket δ) :=
  match liveScan key b.count b.nodes 0 with
  | some (j, d) =>
    some (d, { b with nodes := b.nodes.modify j fun n => { n with data := none }
                      free := b.free + 1 })
  | none => none

def inaHashtableRemove (ht : Table δ) (key : List UInt8) : Except Err δ × Table δ :=
  let i := ht.inaBucket key
  match (ht.bucketAt i).remove key with
  | some (d, b) => (.ok d, { ht.setBucket i b with count := ht.count - 1 })
  | none => (.error .notFound, ht)

/-- `ina_hashtable_clear` inside one bucket: the counters go to zero, the nodes keep their
    bytes and their data. -/
def Bucket.clear (b : Bucket δ) : Bucket δ := { b with count := 0, free := 0 }

/-- `ina_hashtable_clear`, over the first `capacity` buckets. -/
def inaHashtableClear (ht : Table δ) : Table δ :=
  { ht with
    buckets := (ht.buckets.take ht.capacity).map Bucket.clear ++ ht.buckets.drop ht.capacity
    count := 0 }

/-- One node of `ina_hashtable_foreach`: a node with data is passed to the callback. -/
def foreachNodes {σ : Type} (fn : δ → σ → Except Err σ) : List (Node δ) → σ → Except Err σ
  | [], s => .ok s
  | n :: rest, s =>
    match n.data with
    | some d =>
      match fn d s with
      | .ok s' => foreachNodes fn rest s'
      | .error e => .error e
    | none => foreachNodes fn rest s

def foreachBuckets {σ : Type} (fn : δ → σ → Except Err σ) : List (Bucket δ) → σ → Except Err σ
  | [], s => .ok s
  | b :: rest, s =>
    match foreachNodes fn (b.nodes.take b.count) s with
    | .ok s' => foreachBuckets fn rest s'
    | .error e => .error e

/-- `ina_hashtable_foreach` (and `_arg`): the callback runs on the data of every bucket's first
    `count` nodes, in order, until it fails. -/
def inaHashtableForeach {σ : Type} (ht : Table δ) (fn : δ → σ → Except Err σ) (s : σ) :
    Except Err σ :=
  foreachBuckets fn (ht.buckets.take ht.capacity) s

/-! ## The typed entry points (`include/libinac/hashtable.h`)

The integer variants pass the address of the key and its size, so the bytes are the key's,
little endian; the string ones pass at most 16 characters. -/

/-- The first `n` bytes of `v`, little endian. -/
def leBytes : Nat → Nat → List UInt8
  | 0, _ => []
  | n + 1, v => UInt8.ofNat v :: leBytes n (v / 256)

/-- `ina_hashtable_set_u32` and `_i32` (`w = 32`), `_u64`, `_i64` and `_ptr` (`w = 64`) pass
    these bytes. -/
def intKey {w : Nat} (key : BitVec w) : List UInt8 := leBytes (w / 8) key.toNat

/-- `INA_MIN(INA_HASHTABLE_MAX_KEY_LEN, strlen(key))` bytes of a C string. -/
def strKey (key : List UInt8) : List UInt8 := (key.takeWhile (· ≠ 0)).take maxKeyLen

def inaHashtableSetStr (ht : Table δ) (key : List UInt8) (data : Option δ) :
    Except Err Unit × Table δ := inaHashtableSet ht (strKey key) data

def inaHashtableGetStr (ht : Table δ) (key : List UInt8) : Except Err δ :=
  inaHashtableGet ht (strKey key)

def inaHashtableRemoveStr (ht : Table δ) (key : List UInt8) : Except Err δ × Table δ :=
  inaHashtableRemove ht (strKey key)

end Hashtable
end Inac
