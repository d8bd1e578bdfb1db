import Inac.Hashtable.Map

/-!
# String keys

`ina_hashtable_set_str` and its siblings pass the characters of the key without a terminator,
and the table compares as many bytes as the **probe** has. A stored key therefore answers to all
its prefixes, and a key stored over a longer one answers to the mixture of both. All such
confusions are between a key and a prefix of it, in one bucket; so for a set of keys in use the
table is right in every run exactly when no two of them are in that relation
(`strTable_right_iff`).

The condition is on the keys a caller uses and not on the table. It cannot be seen from the outside
which keys share a bucket, so in practice it asks that no key be a prefix of another; but a hash
function that sends the two to different buckets keeps them apart, and the equivalence says so.

The converse needs one run: `set_str` of the longer key, and then a `get_str` of the shorter one,
which is answered with its data.
-/

namespace Inac
namespace Hashtable

open Lib

variable {δ : Type}

/-- A C string the key union holds: not empty, at most sixteen characters, none of them `NUL`. -/
def ValidStr (k : List UInt8) : Prop := k ≠ [] ∧ k.length ≤ maxKeyLen ∧ 0 ∉ k

theorem ValidStr.strKey_eq {k : List UInt8} (h : ValidStr k) : strKey k = k := by
  obtain ⟨-, hlen, hnul⟩ := h
  rw [strKey, List.takeWhile_eq_self_iff.mpr, List.take_of_length_le hlen]
  intro b hb
  have hne : b ≠ 0 := fun h0 => hnul (h0 ▸ hb)
  simpa using hne

theorem ValidStr.lowWord_ne_zero {k : List UInt8} (h : ValidStr k) : lowWord (strKey k) ≠ 0 := by
  rw [h.strKey_eq]
  obtain ⟨hne, -, hnul⟩ := h
  intro hz
  cases k with
  | nil => exact hne rfl
  | cons b bs =>
    have hb : b = 0 := lowWord_eq_zero_iff.mp hz b (by simp)
    exact hnul (by simp [hb])

/-- What one call makes of the last write of `k` so far. A `NULL` is refused by `set_str` and
    counts for nothing. -/
def nextWrite (k : List UInt8) (last : Option δ) : Op (List UInt8) δ → Option δ
  | .set k' (some d) => if k' = k then some d else last
  | .remove k' => if k' = k then none else last
  | _ => last

/-- The data of the last `set_str` of this key, unless a `remove_str` of it came later. -/
def lastWrite (k : List UInt8) (ops : List (Op (List UInt8) δ)) : Option δ :=
  ops.foldl (nextWrite k) none

/-- A call of `set_str`, `get_str` or `remove_str` with a key of `K`. -/
def StrOp (K : Set (List UInt8)) (op : Op (List UInt8) δ) : Prop :=
  op ≠ .clear ∧ ∀ k ∈ op.keys, k ∈ K

/-- What string keys are for: after every sequence of calls with keys of `K`, `get_str` reports
    the last write of exactly that key, and a call with another key does not change it. -/
def StrRight (ht : Table δ) (K : Set (List UInt8)) : Prop :=
  ∀ ops : List (Op (List UInt8) δ), (∀ op ∈ ops, StrOp K op) →
    ∀ k ∈ K,
      (∀ d, inaHashtableGetStr (exec (step strKey) ht ops) k = .ok d ↔ lastWrite k ops = some d) ∧
      ∀ op, StrOp K op → k ∉ op.keys →
        inaHashtableGetStr (step strKey (exec (step strKey) ht ops) op).2 k =
          inaHashtableGetStr (exec (step strKey) ht ops) k

theorem mapStep_apply {m : List UInt8 → Option δ} {op : Op (List UInt8) δ} (hop : op ≠ .clear)
    (k : List UInt8) : (mapStep m op).2 k = nextWrite k (m k) op := by
  cases op with
  | set k' data => cases data <;> simp [mapStep, nextWrite, Function.update_apply, eq_comm]
  | get k' => rfl
  | remove k' => simp [mapStep, nextWrite, Function.update_apply, eq_comm]
  | clear => exact absurd rfl hop

theorem exec_mapStep_eq {ops : List (Op (List UInt8) δ)} (hops : ∀ op ∈ ops, op ≠ .clear)
    (k : List UInt8) : exec mapStep (fun _ => none) ops k = lastWrite k ops := by
  suffices h : ∀ (m : List UInt8 → Option δ), exec mapStep m ops k = ops.foldl (nextWrite k) (m k)
    from h _
  induction ops with
  | nil => intro m; rfl
  | cons op ops ih =>
    intro m
    rw [exec_cons, List.foldl_cons, ih (fun o ho => hops o (List.mem_cons_of_mem op ho)),
      mapStep_apply (hops op List.mem_cons_self)]

theorem mapStep_other {m : List UInt8 → Option δ} {op : Op (List UInt8) δ} (hop : op ≠ .clear)
    {k : List UInt8} (hk : k ∉ op.keys) : (mapStep m op).2 k = m k := by
  rw [mapStep_apply hop]
  cases op with
  | set k' data =>
    have hne : k' ≠ k := fun h => hk (by simp [h])
    cases data <;> simp [nextWrite, hne]
  | get k' => rfl
  | remove k' =>
    have hne : k' ≠ k := fun h => hk (by simp [h])
    simp [nextWrite, hne]
  | clear => exact absurd rfl hop

/-- A key stored in a new table answers to each of its prefixes that goes to the same bucket. -/
theorem Table.read_set_new {keyType : KeyType} {hashFn : HashFn} {capacity cf : Nat}
    {ht : Table δ} (hnew : inaHashtableNew keyType hashFn capacity cf = .ok ht)
    {p q : List UInt8} (hpq : p <+: q) (hb : ht.inaBucket p = ht.inaBucket q)
    (hq : lowWord q ≠ 0) (d : δ) : (inaHashtableSet ht q (some d)).2.read p = some d := by
  have hok := Table.Ok.new hnew
  have hused := (bucketAt_new_ok hnew (ht.inaBucket q)).2
  have hvis := Bucket.visible_of_used_nil hused
  unfold inaHashtableSet
  rw [Table.read_setBucket (hok.bucket_lt q), if_pos hb, Bucket.lookup]
  obtain ⟨heff, -⟩ := (hok.bucket_ok (ht.inaBucket q)).set_effect q d
  cases heff with
  | found l r n h _ _ _ _ => rw [hvis] at h; exact absurd h (by simp)
  | reuse l r n h _ _ _ _ => rw [hvis] at h; exact absurd h (by simp)
  | append n _ _ h _ =>
    have hh : (ht.bucketAt (ht.inaBucket q)).hidden = [] := by
      rw [Bucket.hidden_eq_nil, hused]; simp
    rw [Bucket.visible_append h, if_pos ⟨hh, Node.store_u32_ne_zero hq n d⟩, hvis]
    refine Slots.lookup_hit (l := []) (r := []) ?_ (by simp) (by simp)
    exact Node.keyIs_iff.mpr (hpq.trans (List.prefix_append _ _))

/-- **String keys, exactly.** For every table and every set of valid string keys, `get_str`
    reports the last write of its key in all runs over these keys if and only if no two of them
    that share a bucket are one a prefix of the other. -/
theorem strTable_right_iff [Inhabited δ] (hashFn : HashFn) (capacity cf : Nat) (ht : Table δ)
    (hnew : inaHashtableNew .str hashFn capacity cf = .ok ht) (K : Set (List UInt8))
    (hK : ∀ k ∈ K, ValidStr k) :
    StrRight ht K ↔
      ∀ p ∈ K, ∀ q ∈ K, p ≠ q →
        hashFn.bucket ht.capacity p = hashFn.bucket ht.capacity q → ¬ p <+: q := by
  have hfn : ht.hashFn = hashFn := (new_fields hnew).1
  constructor
  · -- One `set_str` of the longer key answers the shorter one.
    intro hright p hp q hq hne hb hpq
    have hget := (hright [.set q (some default)]
      (by simp only [List.forall_mem_singleton]; exact ⟨by simp, by simpa using hq⟩) p hp).1 default
    have hread : inaHashtableGetStr (exec (step strKey) ht [.set q (some default)]) p =
        .ok default := by
      rw [inaHashtableGetStr, (hK p hp).strKey_eq, inaHashtableGet_read, exec_cons, exec_nil, step,
        (hK q hq).strKey_eq]
      dsimp only
      rw [Table.read_set_new hnew hpq (by rw [Table.inaBucket, Table.inaBucket, hfn]; exact hb)
        (by rw [← (hK q hq).strKey_eq]; exact (hK q hq).lowWord_ne_zero)]
      rfl
    have hlast := hget.mp hread
    simp [lastWrite, nextWrite, Ne.symm hne] at hlast
  · intro hfree ops hops k hk
    have hinj : ∀ p q, p ∈ K → q ∈ K → strKey p = strKey q → p = q := by
      intro p q hp hq h
      rwa [(hK p hp).strKey_eq, (hK q hq).strKey_eq] at h
    have hapart : TellsApart ht.hashFn ht.capacity (strKey '' {k | k ∈ K}) := by
      rintro i _ ⟨⟨p, hp, rfl⟩, hpi⟩ _ ⟨⟨q, hq, rfl⟩, hqi⟩ hpq
      rw [hfn, (hK p hp).strKey_eq] at hpi
      rw [hfn, (hK q hq).strKey_eq] at hqi
      rw [(hK p hp).strKey_eq, (hK q hq).strKey_eq] at hpq ⊢
      by_contra hne
      exact hfree p hp q hq hne (hpi.trans hqi.symm) hpq
    have hstep : ∀ (s : Table δ) (m : List UInt8 → Option δ) (op : Op (List UInt8) δ),
        StrOp K op → Simulates strKey (· ∈ K) s m →
        Simulates strKey (· ∈ K) (step strKey s op).2 (mapStep m op).2 := fun s m op hop hs =>
      (hs.step hinj (fun k hk => (hK k hk).lowWord_ne_zero) hop.2).2
    have hsim := exec_rel hstep hops (Simulates.new hnew hapart)
    refine ⟨fun d => ?_, fun op hop hkop => ?_⟩
    · rw [inaHashtableGetStr, inaHashtableGet_read, hsim.read k hk,
        exec_mapStep_eq (fun op ho => (hops op ho).1)]
      cases lastWrite k ops <;> simp [found]
    · rw [inaHashtableGetStr, inaHashtableGetStr, inaHashtableGet_read, inaHashtableGet_read,
        (hstep _ _ op hop hsim).read k hk, hsim.read k hk, mapStep_other hop.1 hkop]

/-- `"ab"` and `"b"` share the one bucket and are told apart. -/
theorem strTable_right_iff_pair :
    ∃ ht : Table Nat, inaHashtableNew .str (.hash32 fun _ _ => 0) 1 0 = .ok ht ∧
      StrRight ht {[97, 98], [98]} := by
  obtain ⟨ht, hnew⟩ : ∃ ht : Table Nat,
      inaHashtableNew .str (.hash32 fun _ _ => 0) 1 0 = .ok ht := ⟨_, rfl⟩
  refine ⟨ht, hnew, (strTable_right_iff (.hash32 fun _ _ => 0) 1 0 ht hnew _ ?_).mpr ?_⟩
  · rintro k (rfl | rfl) <;> exact ⟨by decide, by decide, by decide⟩
  · rintro p (rfl | rfl) q (rfl | rfl) hne - <;> revert hne <;> decide

/-- `"a"` was never set, and reads what was set for `"ab"`. -/
theorem strTable_prefix_confused :
    ∃ ht : Table Nat, inaHashtableNew .str (.hash32 fun _ _ => 0) 1 0 = .ok ht ∧
      ValidStr [97] ∧ ValidStr [97, 98] ∧
      inaHashtableGetStr (exec (step strKey) ht [.set [97, 98] (some 7)]) [97] = .ok 7 ∧
      lastWrite [97] ([.set [97, 98] (some 7)] : List (Op (List UInt8) Nat)) = none :=
  ⟨_, rfl, ⟨by decide, by decide, by decide⟩, ⟨by decide, by decide, by decide⟩, rfl, rfl⟩

end Hashtable
end Inac
