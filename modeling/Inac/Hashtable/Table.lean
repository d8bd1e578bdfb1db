import Inac.Hashtable.Inv
import Inac.Lib.Run

/-!
# The invariant of a table, and its operations as a machine

`Table.Inv K` lifts the bucket invariant to the whole table, for a set `K` of keys in use. The
operations become one machine `step`, over an encoding of the caller's keys to the bytes the
table is handed; `mapStep` is the machine a finite map would be, and the later files compare the
two.

Two levels of invariant are kept apart. `Table.Ok` has the bounds, which any call keeps with any
key; `Table.Inv K` adds that the keys in use can be told apart, and is kept as long as only those
are used. `step` is a total function, and its outcome is the return code with the data, so that a
run of calls is a list of outcomes and two machines can be compared by their outcomes alone
(`Inac.Lib.Run`).
-/

namespace Inac
namespace Hashtable

open Lib

variable {δ κ : Type}

/-- What a table answers a key with; `ina_hashtable_get` reports it (`inaHashtableGet_eq`). -/
def Table.read (ht : Table δ) (key : List UInt8) : Option δ :=
  (ht.bucketAt (ht.inaBucket key)).lookup key

/-- `get`'s return code for a reading. -/
def found (r : Option δ) : Except Err δ :=
  match r with
  | some d => .ok d
  | none => .error .notFound

/-- `ina_hashtable_get` returns what a table reads at the key. -/
theorem inaHashtableGet_read (ht : Table δ) (key : List UInt8) :
    inaHashtableGet ht key = found (ht.read key) := by
  rw [inaHashtableGet_eq]; rfl

/-- The keys of `K` that go to bucket `i`. -/
def keysAt (hashFn : HashFn) (capacity : Nat) (K : Set (List UInt8)) (i : Nat) :
    Set (List UInt8) := {k | k ∈ K ∧ hashFn.bucket capacity k = i}

/-- The table can tell the keys of `K` apart: no two in one bucket are one a prefix of the
    other. -/
def TellsApart (hashFn : HashFn) (capacity : Nat) (K : Set (List UInt8)) : Prop :=
  ∀ i, PrefixFree (keysAt hashFn capacity K i)

/-- The bounds of a table, which every call keeps whatever its key. -/
structure Table.Ok (ht : Table δ) : Prop where
  capacity_pos : 0 < ht.capacity
  length : ht.buckets.length = ht.capacity + 1
  bucket_ok : ∀ i, (ht.bucketAt i).Ok

/-- The representation invariant for the keys in `K`. -/
structure Table.Inv (K : Set (List UInt8)) (ht : Table δ) : Prop extends ht.Ok where
  apart : TellsApart ht.hashFn ht.capacity K
  unique : ∀ i, Slots.Unique Node.keyIs (keysAt ht.hashFn ht.capacity K i) (ht.bucketAt i).visible

theorem Table.Inv.bucket {K : Set (List UInt8)} {ht : Table δ} (h : ht.Inv K) (i : Nat) :
    (ht.bucketAt i).Inv (keysAt ht.hashFn ht.capacity K i) := ⟨h.bucket_ok i, h.unique i⟩

/-! ## Buckets of an updated table

A call changes the bucket its key is hashed to. Keys of other buckets do not see it. -/

theorem HashFn.bucket_lt (h : HashFn) {capacity : Nat} (hc : 0 < capacity) (key : List UInt8) :
    h.bucket capacity key < capacity := by
  cases h <;> exact Nat.mod_lt _ hc

theorem Table.Ok.bucket_lt {ht : Table δ} (h : ht.Ok) (key : List UInt8) :
    ht.inaBucket key < ht.buckets.length := by
  have := HashFn.bucket_lt ht.hashFn h.capacity_pos key
  rw [h.length]
  exact Nat.lt_succ_of_lt this

theorem Table.bucketAt_eq_getElem (ht : Table δ) {i : Nat} (hi : i < ht.buckets.length) :
    ht.bucketAt i = ht.buckets[i] := by
  rw [Table.bucketAt, List.getD_eq_getElem?_getD, List.getElem?_eq_getElem hi, Option.getD_some]

/-- Assigning one bucket leaves the others. -/
theorem Table.bucketAt_setBucket {ht : Table δ} {i : Nat} (hi : i < ht.buckets.length)
    (b : Bucket δ) (j : Nat) :
    (ht.setBucket i b).bucketAt j = if j = i then b else ht.bucketAt j := by
  unfold Table.bucketAt Table.setBucket
  simp only [List.getD_eq_getElem?_getD, List.getElem?_set]
  by_cases hj : j = i
  · subst hj; simp [hi]
  · simp [hj, Ne.symm hj]

theorem Table.bucketAt_clear (ht : Table δ) (j : Nat) :
    (inaHashtableClear ht).bucketAt j =
      if j < ht.capacity then (ht.bucketAt j).clear else ht.bucketAt j := by
  unfold Table.bucketAt inaHashtableClear
  simp only [List.getD_eq_getElem?_getD, List.getElem?_append, List.length_map,
    List.length_take, List.getElem?_map, List.getElem?_take, List.getElem?_drop]
  by_cases hl : ht.buckets.length ≤ j
  · -- Past the array both sides read the zero bucket, which clearing leaves alone.
    rw [if_neg (by omega), List.getElem?_eq_none (by omega), List.getElem?_eq_none hl]
    simp [Bucket.clear, Bucket.zero]
  · by_cases hj : j < ht.capacity
    · rw [if_pos (by omega), if_pos hj, if_pos hj, List.getElem?_eq_getElem (by omega)]
      rfl
    · rw [if_neg (by omega), if_neg hj, show ht.capacity + (j - min ht.capacity ht.buckets.length)
        = j by omega]

theorem Table.Ok.setBucket {ht : Table δ} (h : ht.Ok) {i : Nat} (hi : i < ht.buckets.length)
    {b : Bucket δ} {c : Int} (hb : b.Ok) :
    ({ ht.setBucket i b with count := c } : Table δ).Ok := by
  refine ⟨h.capacity_pos, ?_, fun j => ?_⟩
  · show (ht.buckets.set i b).length = _
    rw [List.length_set, h.length]; rfl
  · show ((ht.setBucket i b).bucketAt j).Ok
    rw [Table.bucketAt_setBucket hi]
    split
    · exact hb
    · exact h.bucket_ok j

theorem Table.Inv.setBucket {K : Set (List UInt8)} {ht : Table δ} (h : ht.Inv K) {i : Nat}
    (hi : i < ht.buckets.length) {b : Bucket δ} {c : Int}
    (hb : b.Inv (keysAt ht.hashFn ht.capacity K i)) :
    ({ ht.setBucket i b with count := c } : Table δ).Inv K := by
  refine ⟨h.toOk.setBucket hi hb.ok, h.apart, fun j => ?_⟩
  show Slots.Unique Node.keyIs _ ((ht.setBucket i b).bucketAt j).visible
  rw [Table.bucketAt_setBucket hi]
  by_cases hj : j = i
  · rw [if_pos hj, hj]; exact hb.unique
  · rw [if_neg hj]; exact h.unique j

/-- A key is read in its own bucket, so only the keys of the bucket that is assigned can change. -/
theorem Table.read_setBucket {ht : Table δ} {key : List UInt8}
    (hi : ht.inaBucket key < ht.buckets.length) (b : Bucket δ) (c : Int) (p : List UInt8) :
    ({ ht.setBucket (ht.inaBucket key) b with count := c } : Table δ).read p =
      if ht.inaBucket p = ht.inaBucket key then b.lookup p else ht.read p := by
  show ((ht.setBucket (ht.inaBucket key) b).bucketAt (ht.inaBucket p)).lookup p = _
  rw [Table.bucketAt_setBucket hi]
  split <;> rfl

/-! ## One step of each operation

The three lemmas about a bucket, lifted to the table. -/

section Step

variable {K : Set (List UInt8)} {ht : Table δ} {key : List UInt8}

/-- A `set` of this key takes effect: `Bucket.SetOk` at the key's bucket. -/
def Table.SetOk (ht : Table δ) (key : List UInt8) : Prop :=
  (ht.bucketAt (ht.inaBucket key)).SetOk key

theorem Table.Inv.set (h : ht.Inv K) (hkey : key ∈ K) (data : Option δ) :
    (inaHashtableSet ht key data).2.Inv K := by
  cases data with
  | none => exact h
  | some d =>
    exact h.setBucket (h.bucket_lt key) ((h.bucket _).set (h.apart _) ⟨hkey, rfl⟩)

/-- A set that takes effect shows at its key, and at no other. -/
theorem Table.Inv.read_set (h : ht.Inv K) (hkey : key ∈ K) (d : δ) (hset : ht.SetOk key) :
    (inaHashtableSet ht key (some d)).2.read key = some d ∧
      ∀ p ∈ K, p ≠ key → (inaHashtableSet ht key (some d)).2.read p = ht.read p := by
  obtain ⟨hself, hother⟩ :=
    (h.bucket (ht.inaBucket key)).lookup_set (d := d) (h.apart _) ⟨hkey, rfl⟩ hset
  constructor
  · unfold inaHashtableSet
    rw [Table.read_setBucket (h.bucket_lt key), if_pos rfl]
    exact hself
  · intro p hp hne
    unfold inaHashtableSet
    rw [Table.read_setBucket (h.bucket_lt key)]
    split
    · rename_i hsame
      rw [hother p ⟨hp, hsame⟩ hne, ← hsame]; rfl
    · rfl

/-- Behind one that does not there is nothing to be read at its key. -/
theorem Table.Inv.read_set_of_not_setOk (h : ht.Inv K) (hlen : 4 ≤ key.length) (d : δ)
    (hset : ¬ ht.SetOk key) : (inaHashtableSet ht key (some d)).2.read key = none := by
  unfold inaHashtableSet
  rw [Table.read_setBucket (h.bucket_lt key), if_pos rfl]
  exact (h.bucket (ht.inaBucket key)).ok.lookup_set_of_not_setOk hlen hset

/-- A remove returns what was there, and takes it away. -/
theorem Table.Inv.remove (h : ht.Inv K) (hkey : key ∈ K) :
    (inaHashtableRemove ht key).1 = found (ht.read key) ∧
      (inaHashtableRemove ht key).2.Inv K ∧ (inaHashtableRemove ht key).2.read key = none ∧
      ∀ p ∈ K, p ≠ key → (inaHashtableRemove ht key).2.read p = ht.read p := by
  unfold inaHashtableRemove
  dsimp only
  cases hr : (ht.bucketAt (ht.inaBucket key)).remove key with
  | none =>
    have hread : ht.read key = none := Bucket.remove_none hr
    exact ⟨by rw [hread]; rfl, h, hread, fun _ _ _ => rfl⟩
  | some db =>
    obtain ⟨d, b⟩ := db
    obtain ⟨hinv, hbefore, hself, hother⟩ :=
      (h.bucket (ht.inaBucket key)).remove (h.apart _) ⟨hkey, rfl⟩ hr
    refine ⟨by rw [Table.read, hbefore]; rfl, h.setBucket (h.bucket_lt key) hinv, ?_, ?_⟩
    · rw [Table.read_setBucket (h.bucket_lt key), if_pos rfl]
      exact hself
    · intro p hp hne
      rw [Table.read_setBucket (h.bucket_lt key)]
      split
      · rename_i hsame
        rw [hother p ⟨hp, hsame⟩ hne, ← hsame]; rfl
      · rfl

theorem Bucket.Ok.clear {b : Bucket δ} (h : b.Ok) : b.clear.Ok := ⟨Nat.zero_le _, h.length⟩

theorem Table.Ok.clear (h : ht.Ok) : (inaHashtableClear ht).Ok := by
  refine ⟨h.capacity_pos, ?_, fun i => ?_⟩
  · have hlen := h.length
    show (List.map Bucket.clear (ht.buckets.take ht.capacity) ++
      ht.buckets.drop ht.capacity).length = ht.capacity + 1
    simp only [List.length_append, List.length_map, List.length_take, List.length_drop]
    omega
  · rw [Table.bucketAt_clear]
    split
    · exact (h.bucket_ok i).clear
    · exact h.bucket_ok i

/-- Behind a clear nothing is left to be read. -/
theorem Table.Inv.clear (h : ht.Inv K) :
    (inaHashtableClear ht).Inv K ∧ ∀ p, (inaHashtableClear ht).read p = none := by
  refine ⟨⟨h.toOk.clear, h.apart, fun i => ?_⟩, fun p => ?_⟩
  · rw [Table.bucketAt_clear]
    split
    · rw [Bucket.visible_clear]; exact List.Pairwise.nil
    · exact h.unique i
  · have hlt : (inaHashtableClear ht).inaBucket p < ht.capacity :=
      HashFn.bucket_lt ht.hashFn h.capacity_pos p
    unfold Table.read Bucket.lookup
    rw [Table.bucketAt_clear, if_pos hlt, Bucket.visible_clear]
    rfl

end Step

/-! ## A new table -/

theorem newBucket_ok (cf : Nat) : (newBucket cf : Bucket δ).Ok := by
  unfold newBucket
  split
  · exact ⟨Nat.zero_le _, Or.inr (by simp)⟩
  · exact ⟨Nat.le_refl _, Or.inl rfl⟩

theorem newBucket_used (cf : Nat) : (newBucket cf : Bucket δ).used = [] := by
  unfold newBucket
  split <;> simp [Bucket.used, Bucket.zero]

/-- There is one bucket more than `ina_hashtable_new` prepares, and indexes behind it read as that
    one. -/
theorem bucketAt_new {keyType : KeyType} {hashFn : HashFn} {capacity cf : Nat} {ht : Table δ}
    (h : inaHashtableNew keyType hashFn capacity cf = .ok ht) (i : Nat) :
    ht.bucketAt i = newBucket cf ∨ ht.bucketAt i = Bucket.zero := by
  unfold inaHashtableNew at h
  split at h
  · dsimp only at h
    generalize (if capacity > 0 then capacity else 256) = cap at h
    simp only [Except.ok.injEq] at h
    subst h
    unfold Table.bucketAt
    simp only [List.getD_eq_getElem?_getD, List.getElem?_append, List.length_replicate]
    by_cases hi : i < cap
    · rw [if_pos hi, List.getElem?_replicate_of_lt hi]
      exact Or.inl rfl
    · rw [if_neg hi]
      right
      cases hk : i - cap with
      | zero => rfl
      | succ k => simp
  · exact absurd h (by simp)

theorem Bucket.zero_eq_newBucket : (Bucket.zero : Bucket δ) = newBucket 0 := rfl

/-- A bucket that was not prepared is as empty as the others. -/
theorem bucketAt_new_ok {keyType : KeyType} {hashFn : HashFn} {capacity cf : Nat} {ht : Table δ}
    (h : inaHashtableNew keyType hashFn capacity cf = .ok ht) (i : Nat) :
    (ht.bucketAt i).Ok ∧ (ht.bucketAt i).used = [] := by
  rcases bucketAt_new h i with hb | hb
  · rw [hb]; exact ⟨newBucket_ok cf, newBucket_used cf⟩
  · rw [hb, Bucket.zero_eq_newBucket]; exact ⟨newBucket_ok 0, newBucket_used 0⟩

theorem Bucket.visible_of_used_nil {b : Bucket δ} (h : b.used = []) : b.visible = [] := by
  rw [Bucket.visible_eq, h, List.takeWhile_nil]

theorem new_fields {keyType : KeyType} {hashFn : HashFn} {capacity cf : Nat} {ht : Table δ}
    (h : inaHashtableNew keyType hashFn capacity cf = .ok ht) :
    ht.hashFn = hashFn ∧ ht.capacity = (if capacity > 0 then capacity else 256) ∧
      ht.buckets.length = ht.capacity + 1 ∧ ht.count = 0 := by
  unfold inaHashtableNew at h
  split at h
  · simp only [Except.ok.injEq] at h
    subst h
    refine ⟨rfl, rfl, ?_, rfl⟩
    simp
  · exact absurd h (by simp)

theorem Table.Ok.new {keyType : KeyType} {hashFn : HashFn} {capacity cf : Nat} {ht : Table δ}
    (h : inaHashtableNew keyType hashFn capacity cf = .ok ht) : ht.Ok := by
  obtain ⟨-, hcap, hlen, -⟩ := new_fields h
  refine ⟨?_, hlen, fun i => (bucketAt_new_ok h i).1⟩
  rw [hcap]; split <;> omega

theorem Table.read_new {keyType : KeyType} {hashFn : HashFn} {capacity cf : Nat} {ht : Table δ}
    (h : inaHashtableNew keyType hashFn capacity cf = .ok ht) (p : List UInt8) :
    ht.read p = none := by
  rw [Table.read, Bucket.lookup, Bucket.visible_of_used_nil (bucketAt_new_ok h _).2]
  rfl

/-- **A new table meets the invariant and answers nothing.** -/
theorem Table.Inv.new {keyType : KeyType} {hashFn : HashFn} {capacity cf : Nat} {ht : Table δ}
    (h : inaHashtableNew keyType hashFn capacity cf = .ok ht) {K : Set (List UInt8)}
    (hK : TellsApart ht.hashFn ht.capacity K) : ht.Inv K ∧ ∀ p, ht.read p = none := by
  refine ⟨⟨Table.Ok.new h, hK, fun i => ?_⟩, Table.read_new h⟩
  rw [Bucket.visible_of_used_nil (bucketAt_new_ok h i).2]
  exact List.Pairwise.nil

/-! ## The machine, and the map it is meant to be -/

/-- A call on a table, with keys of the caller's type. -/
inductive Op (κ δ : Type) where
  | set (k : κ) (data : Option δ)
  | get (k : κ)
  | remove (k : κ)
  | clear
  deriving DecidableEq, Repr

/-- The keys a call is made with. -/
def Op.keys : Op κ δ → List κ
  | .set k _ | .get k | .remove k => [k]
  | .clear => []

@[simp] theorem Op.keys_set (k : κ) (data : Option δ) : (Op.set k data).keys = [k] := rfl

@[simp] theorem Op.keys_get (k : κ) : (Op.get k : Op κ δ).keys = [k] := rfl

@[simp] theorem Op.keys_remove (k : κ) : (Op.remove k : Op κ δ).keys = [k] := rfl

@[simp] theorem Op.keys_clear : (Op.clear : Op κ δ).keys = [] := rfl

/-- What a call returns. -/
inductive Out (δ : Type) where
  | rc (r : Except Err Unit)
  | data (r : Except Err δ)

/-- One call on the table, the caller's key passed as the bytes `enc` gives. -/
def step (enc : κ → List UInt8) (ht : Table δ) : Op κ δ → Out δ × Table δ
  | .set k data => let r := inaHashtableSet ht (enc k) data; (.rc r.1, r.2)
  | .get k => (.data (inaHashtableGet ht (enc k)), ht)
  | .remove k => let r := inaHashtableRemove ht (enc k); (.data r.1, r.2)
  | .clear => (.rc (.ok ()), inaHashtableClear ht)

/-- The same call on a finite map. A `NULL` is no data, and setting it is refused. -/
def mapStep [DecidableEq κ] (m : κ → Option δ) : Op κ δ → Out δ × (κ → Option δ)
  | .set k (some d) => (.rc (.ok ()), Function.update m k (some d))
  | .set _ none => (.rc (.error .invalidArgument), m)
  | .get k => (.data (found (m k)), m)
  | .remove k => (.data (found (m k)), Function.update m k none)
  | .clear => (.rc (.ok ()), fun _ => none)

/-- Every operation keeps the table sound, whatever its keys are. -/
theorem Table.Ok.step {enc : κ → List UInt8} {ht : Table δ} {op : Op κ δ} (h : ht.Ok) :
    (Hashtable.step enc ht op).2.Ok := by
  cases op with
  | set k data =>
    cases data with
    | none => exact h
    | some d => exact h.setBucket (h.bucket_lt _) ((h.bucket_ok _).set_effect (enc k) d).2
  | get k => exact h
  | remove k =>
    show (inaHashtableRemove ht (enc k)).2.Ok
    unfold inaHashtableRemove
    dsimp only
    cases hr : (ht.bucketAt (ht.inaBucket (enc k))).remove (enc k) with
    | none => exact h
    | some db => exact h.setBucket (h.bucket_lt _) (Bucket.Ok.remove (h.bucket_ok _) hr)
  | clear => exact h.clear

/-- And it keeps the invariant, if its keys are told apart. -/
theorem Table.Inv.step {K : Set (List UInt8)} {enc : κ → List UInt8} {ht : Table δ}
    {op : Op κ δ} (h : ht.Inv K) (hop : ∀ k ∈ op.keys, enc k ∈ K) :
    (Hashtable.step enc ht op).2.Inv K := by
  cases op with
  | set k data => exact h.set (hop k (by simp)) data
  | get k => exact h
  | remove k => exact (h.remove (hop k (by simp))).2.1
  | clear => exact h.clear.1

end Hashtable
end Inac
