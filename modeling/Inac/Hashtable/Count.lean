import Mathlib.Algebra.BigOperators.Group.List.Basic
import Mathlib.Data.Set.Card
import Inac.Hashtable.Map

/-!
# The element counter

`ht->count` is kept beside the buckets. A `set` adds one when it takes a vacant node or appends
one, and nothing when it finds a node of its key, **also when that node was vacated by an earlier
`remove`**. So a key that is removed and set again comes back to life uncounted. `revives` names
that step, and it is the only one that sets the counter and the content apart:

* the counter is the number of data a full iteration yields in every state of a run exactly when
  the run revives nothing (`Table.Ok.step_count_iff`), whatever the keys;
* with keys the table can tell apart, the same holds of the number of live keys of the map.
-/

namespace Inac
namespace Hashtable

open Lib

variable {δ κ : Type}

/-! ## What an iteration yields

The data of the used nodes, bucket by bucket. A node counts if it has data, whether a scan would
find it or not. -/

/-- The nodes of a bucket that hold data. -/
def Bucket.live (b : Bucket δ) : Nat := b.used.countP fun n => n.data.isSome

/-- The data `ina_hashtable_foreach` hands to a callback that only collects it. -/
def Table.yields (ht : Table δ) : List δ :=
  match inaHashtableForeach ht (fun d l => .ok (l ++ [d])) [] with
  | .ok l => l
  | .error _ => []

/-- The data of a run of nodes, in order. -/
def dataOf (nodes : List (Node δ)) : List δ := nodes.filterMap Node.data

theorem foreachNodes_collect : ∀ (nodes : List (Node δ)) (acc : List δ),
    foreachNodes (fun d l => .ok (l ++ [d])) nodes acc = .ok (acc ++ dataOf nodes)
  | [], acc => by simp [foreachNodes, dataOf]
  | n :: rest, acc => by
    rw [foreachNodes]
    cases hd : n.data with
    | none => simp [foreachNodes_collect rest acc, dataOf, hd]
    | some d => simp [foreachNodes_collect rest (acc ++ [d]), dataOf, hd]

theorem foreachBuckets_collect : ∀ (bs : List (Bucket δ)) (acc : List δ),
    foreachBuckets (fun d l => .ok (l ++ [d])) bs acc =
      .ok (acc ++ bs.flatMap fun b => dataOf b.used)
  | [], acc => by simp [foreachBuckets]
  | b :: rest, acc => by
    rw [foreachBuckets, foreachNodes_collect]
    simp [foreachBuckets_collect rest, Bucket.used]

theorem Table.yields_eq (ht : Table δ) :
    ht.yields = (ht.buckets.take ht.capacity).flatMap fun b => dataOf b.used := by
  rw [Table.yields, inaHashtableForeach, foreachBuckets_collect]
  rfl

theorem Table.yields_new {keyType : KeyType} {hashFn : HashFn} {capacity cf : Nat} {ht : Table δ}
    (hnew : inaHashtableNew keyType hashFn capacity cf = .ok ht) : ht.yields = [] := by
  rw [Table.yields_eq]
  refine List.flatMap_eq_nil_iff.mpr fun b hb => ?_
  obtain ⟨i, hi, rfl⟩ := List.getElem_of_mem (List.mem_of_mem_take hb)
  have hused := (bucketAt_new_ok hnew i).2
  rw [ht.bucketAt_eq_getElem hi] at hused
  rw [hused]; rfl

theorem length_dataOf (nodes : List (Node δ)) :
    (dataOf nodes).length = nodes.countP fun n => n.data.isSome := by
  induction nodes with
  | nil => rfl
  | cons n rest ih => cases hd : n.data <;> simp_all [dataOf]

theorem Table.length_yields (ht : Table δ) :
    (ht.yields.length : Int) = ((ht.buckets.take ht.capacity).map fun b => (b.live : Int)).sum := by
  rw [Table.yields_eq]
  induction ht.buckets.take ht.capacity with
  | nil => rfl
  | cons b rest ih =>
    rw [List.flatMap_cons, List.length_append, Nat.cast_add, ih, List.map_cons, List.sum_cons,
      length_dataOf, Bucket.live]

/-- Replacing the bucket of a key changes the total by that bucket's own change. -/
theorem Table.Ok.length_yields_setBucket {ht : Table δ} (h : ht.Ok) (key : List UInt8)
    (b : Bucket δ) (c : Int) :
    ((({ ht.setBucket (ht.inaBucket key) b with count := c } : Table δ).yields.length : Nat) : Int)
      = ht.yields.length + (b.live - (ht.bucketAt (ht.inaBucket key)).live) := by
  have hlt : ht.inaBucket key < ht.capacity := HashFn.bucket_lt ht.hashFn h.capacity_pos key
  have hlen : ht.inaBucket key < (ht.buckets.take ht.capacity).length := by
    rw [List.length_take, h.length]; omega
  rw [Table.length_yields, Table.length_yields]
  show (((ht.buckets.set (ht.inaBucket key) b).take ht.capacity).map _).sum = _
  rw [List.take_set, List.map_set, List.sum_set', dif_pos (by simpa using hlen), List.getElem_map,
    List.getElem_take]
  have hin := h.bucket_lt key
  rw [ht.bucketAt_eq_getElem hin]
  omega

/-! ## Reviving a node

`SetEffect` has three cases, and in one of them the counter gets nothing: there the node found is
one of the key. If it was vacant it now yields data and was not counted. -/

/-- The first node a `set` of this key would find is vacant. -/
def Bucket.revives (b : Bucket δ) (key : List UInt8) : Bool :=
  (b.visible.find? (·.keyIs key)).any (·.data.isNone)

/-- The call is a `set` that brings a removed node of its key back. -/
def Op.revives (enc : κ → List UInt8) (ht : Table δ) : Op κ δ → Prop
  | .set k (some _) => (ht.bucketAt (ht.inaBucket (enc k))).revives (enc k) = true
  | _ => False

theorem find?_split {l r : List (Node δ)} {n : Node δ} {key : List UInt8}
    (hn : n.keyIs key = true) (hl : ∀ a ∈ l, a.keyIs key = false) :
    (l ++ n :: r).find? (·.keyIs key) = some n := by
  rw [List.find?_append, List.find?_eq_none.mpr (fun a ha => by simp [hl a ha])]
  simp [hn]

theorem Bucket.revives_of_miss {b : Bucket δ} {key : List UInt8}
    (h : ∀ a ∈ b.visible, a.keyIs key = false) : b.revives key = false := by
  rw [Bucket.revives, List.find?_eq_none.mpr (fun a ha => by simp [h a ha])]
  rfl

/-- **The nodes with data grow by what `set` counts, and by one more when it revives.** -/
theorem Bucket.Ok.live_set {b : Bucket δ} (hb : b.Ok) (key : List UInt8) (d : δ) :
    ((b.set key d).1.live : Int) =
      b.live + (b.set key d).2 + if b.revives key = true then 1 else 0 := by
  obtain ⟨heff, -⟩ := hb.set_effect key d
  unfold Bucket.live
  cases heff with
  | found l r n hvis hn hl hused hinc =>
    have hrev : b.revives key = n.data.isNone := by
      rw [Bucket.revives, hvis, find?_split hn hl]; rfl
    rw [hused, Bucket.used_of_visible hvis, hinc, hrev]
    simp only [List.countP_append, List.countP_cons, Option.isSome_some]
    cases hd : n.data <;> simp
    omega
  | reuse l r n hvis hmiss hvac hused hinc =>
    rw [hused, Bucket.used_of_visible hvis, hinc, Bucket.revives_of_miss hmiss]
    simp only [List.countP_append, List.countP_cons, Node.store, Option.isSome_some, hvac]
    simp
    omega
  | append n hmiss _ hused hinc =>
    rw [hused, hinc, Bucket.revives_of_miss hmiss]
    simp [List.countP_append, Node.store]

theorem Bucket.live_remove {b b' : Bucket δ} {key : List UInt8} {d : δ}
    (h : b.remove key = some (d, b')) : (b'.live : Int) = b.live - 1 := by
  obtain ⟨l, n, r, hvis, -, hd, -, hused, -, -, -⟩ := Bucket.remove_some h
  unfold Bucket.live
  rw [hused, Bucket.used_of_visible hvis]
  simp only [List.countP_append, List.countP_cons, hd]
  simp
  omega

theorem Table.yields_clear (ht : Table δ) : (inaHashtableClear ht).yields = [] := by
  rw [Table.yields_eq]
  have hlen : ((ht.buckets.take ht.capacity).map Bucket.clear).length ≤ ht.capacity := by
    simp
  show ((((ht.buckets.take ht.capacity).map Bucket.clear ++ ht.buckets.drop ht.capacity)).take
    ht.capacity).flatMap _ = []
  refine List.flatMap_eq_nil_iff.mpr fun b hb => ?_
  -- What lies past the cleared buckets can only be taken if the array is too short to have any.
  have hb' : b ∈ (ht.buckets.take ht.capacity).map Bucket.clear := by
    by_cases hl : ht.capacity ≤ ht.buckets.length
    · rwa [List.take_append_of_le_length (by simp [hl]), List.take_of_length_le hlen] at hb
    · rw [List.drop_of_length_le (by omega), List.append_nil, List.take_of_length_le hlen] at hb
      exact hb
  obtain ⟨a, -, rfl⟩ := List.mem_map.mp hb'
  simp [Bucket.used, Bucket.clear, dataOf]

/-- **One call from a state in which the counter is right leaves it right exactly when it
    revives nothing.** -/
theorem Table.Ok.step_count_iff {enc : κ → List UInt8} {ht : Table δ} (h : ht.Ok)
    (op : Op κ δ) (hcount : ht.count = ht.yields.length) :
    (Hashtable.step enc ht op).2.count = (Hashtable.step enc ht op).2.yields.length ↔
      ¬ op.revives enc ht := by
  cases op with
  | set k data =>
    cases data with
    | none => exact ⟨fun _ h => h, fun _ => hcount⟩
    | some d =>
      have hlive := (h.bucket_ok (ht.inaBucket (enc k))).live_set (enc k) d
      have hsum : ((Hashtable.step enc ht (.set k (some d))).2.yields.length : Int) =
          ht.yields.length + (((ht.bucketAt (ht.inaBucket (enc k))).set (enc k) d).1.live -
            (ht.bucketAt (ht.inaBucket (enc k))).live) :=
        h.length_yields_setBucket (enc k) _ _
      rw [hsum, hlive, Op.revives]
      show ht.count + _ = _ ↔ _
      rw [hcount]
      -- The bucket yields what the counter is given, and one more where a node is revived.
      split <;> rename_i hrev
      · simp only [hrev, not_true_eq_false, iff_false]
        omega
      · simp only [hrev]
        simp
  | get k => exact ⟨fun _ h => h, fun _ => hcount⟩
  | remove k =>
    refine ⟨fun _ h => h, fun _ => ?_⟩
    show (inaHashtableRemove ht (enc k)).2.count = (inaHashtableRemove ht (enc k)).2.yields.length
    unfold inaHashtableRemove
    dsimp only
    cases hr : (ht.bucketAt (ht.inaBucket (enc k))).remove (enc k) with
    | none => exact hcount
    | some db =>
      obtain ⟨d, b⟩ := db
      have hlive := Bucket.live_remove hr
      rw [h.length_yields_setBucket (enc k) b (ht.count - 1), hlive]
      show ht.count - 1 = _
      rw [hcount]
      omega
  | clear =>
    refine ⟨fun _ h => h, fun _ => ?_⟩
    show (0 : Int) = (inaHashtableClear ht).yields.length
    rw [Table.yields_clear]; rfl

/-! ## The live keys of the map

The map's keys are counted by `Set.ncard`, as the keys are of any type. A run leaves finitely many
of them with data. -/

/-- The keys a map holds data for. -/
def liveKeys (m : κ → Option δ) : Set κ := {k | m k ≠ none}

theorem liveKeys_none : liveKeys (fun _ : κ => (none : Option δ)) = ∅ := by
  simp [liveKeys]

theorem Bucket.Inv.set_count {K : Set (List UInt8)} {b : Bucket δ} {key : List UInt8}
    (hb : b.Inv K) (hkey : key ∈ K) (d : δ) :
    ((b.set key d).2 + if b.revives key = true then 1 else 0) =
      if b.lookup key = none then 1 else 0 := by
  obtain ⟨heff, -⟩ := hb.ok.set_effect key d
  have hu := hb.unique
  cases heff with
  | found l r n hvis hn hl _ hinc =>
    rw [hvis] at hu
    obtain ⟨-, hr⟩ := hu.miss_around hkey hn
    rw [Bucket.revives, Bucket.lookup, hvis, find?_split hn hl, Slots.lookup_hit hn hl hr, hinc]
    cases hd : n.data <;> simp [hd]
  | reuse l r n _ hmiss _ _ hinc | append n hmiss _ _ hinc =>
    rw [Bucket.revives_of_miss hmiss, Bucket.lookup, Slots.lookup_eq_none hmiss, hinc]
    rfl

theorem Table.Inv.remove_count {K : Set (List UInt8)} {ht : Table δ} {key : List UInt8}
    (h : ht.Inv K) (hkey : key ∈ K) :
    (inaHashtableRemove ht key).2.count = ht.count - if ht.read key = none then 0 else 1 := by
  unfold inaHashtableRemove
  dsimp only
  cases hr : (ht.bucketAt (ht.inaBucket key)).remove key with
  | none =>
    have hread : ht.read key = none := Bucket.remove_none hr
    rw [if_pos hread, Int.sub_zero]
  | some db =>
    obtain ⟨d, b⟩ := db
    have hread : ht.read key = some d :=
      ((h.bucket (ht.inaBucket key)).remove (h.apart _) ⟨hkey, rfl⟩ hr).2.1
    rw [hread]; rfl

section Keys

variable [DecidableEq κ]

theorem liveKeys_update_some (m : κ → Option δ) (k : κ) (d : δ) :
    liveKeys (Function.update m k (some d)) = insert k (liveKeys m) := by
  ext k'
  by_cases hk : k' = k
  · subst hk; simp [liveKeys]
  · simp [liveKeys, hk]

theorem liveKeys_update_none (m : κ → Option δ) (k : κ) :
    liveKeys (Function.update m k none) = liveKeys m \ {k} := by
  ext k'
  by_cases hk : k' = k
  · subst hk; simp [liveKeys]
  · simp [liveKeys, hk]

theorem mapStep_finite {m : κ → Option δ} {op : Op κ δ} (h : (liveKeys m).Finite) :
    (liveKeys (mapStep m op).2).Finite := by
  cases op with
  | set k data =>
    cases data with
    | none => exact h
    | some d =>
      show (liveKeys (Function.update m k (some d))).Finite
      rw [liveKeys_update_some]
      exact h.insert k
  | get k => exact h
  | remove k =>
    show (liveKeys (Function.update m k none)).Finite
    rw [liveKeys_update_none]
    exact h.sdiff
  | clear =>
    show (liveKeys fun _ : κ => (none : Option δ)).Finite
    rw [liveKeys_none]
    exact Set.finite_empty

/-- The same exact condition, for the number of live keys: table and map are run side by side. -/
theorem Simulates.step_count_iff {enc : κ → List UInt8} {Good : κ → Prop} {ht : Table δ}
    {m : κ → Option δ} (h : Simulates enc Good ht m) (hfin : (liveKeys m).Finite) (op : Op κ δ)
    (hop : ∀ k ∈ op.keys, Good k) (hcount : ht.count = (liveKeys m).ncard) :
    (Hashtable.step enc ht op).2.count = (liveKeys (mapStep m op).2).ncard ↔
      ¬ op.revives enc ht := by
  have hmem : ∀ k, Good k → enc k ∈ enc '' {k | Good k} := fun k hk => ⟨k, hk, rfl⟩
  cases op with
  | set k data =>
    cases data with
    | none => exact ⟨fun _ h => h, fun _ => hcount⟩
    | some d =>
      have hk : Good k := hop k (by simp)
      have hset := (h.inv.bucket (ht.inaBucket (enc k))).set_count ⟨hmem k hk, rfl⟩ d
      -- The map gains a key exactly where the bucket answered nothing before.
      have hcard : ((liveKeys (Function.update m k (some d))).ncard : Int) =
          (liveKeys m).ncard + if ht.read (enc k) = none then 1 else 0 := by
        rw [liveKeys_update_some, h.read k hk]
        by_cases hm : m k = none
        · rw [Set.ncard_insert_of_notMem (by simpa [liveKeys] using hm) hfin, if_pos hm]
          push_cast; rfl
        · rw [Set.ncard_insert_of_mem (by simpa [liveKeys] using hm), if_neg hm]
          simp
      show ht.count + _ = ((liveKeys (Function.update m k (some d))).ncard : Int) ↔ _
      rw [hcard, hcount, Table.read, ← hset, Op.revives]
      split <;> rename_i hrev
      · simp only [hrev, not_true_eq_false, iff_false]
        omega
      · simp [hrev]
  | get k => exact ⟨fun _ h => h, fun _ => hcount⟩
  | remove k =>
    have hk : Good k := hop k (by simp)
    refine ⟨fun _ h => h, fun _ => ?_⟩
    show (inaHashtableRemove ht (enc k)).2.count = ((liveKeys (Function.update m k none)).ncard : Int)
    rw [h.inv.remove_count (hmem k hk), h.read k hk, liveKeys_update_none, hcount]
    by_cases hm : m k = none
    · rw [if_pos hm, Set.sdiff_singleton_eq_self (by simpa [liveKeys] using hm)]
      simp
    · have hpos := Set.ncard_sdiff_singleton_add_one (s := liveKeys m) (a := k)
        (by simpa [liveKeys] using hm) hfin
      rw [if_neg hm]
      omega
  | clear =>
    refine ⟨fun _ h => h, fun _ => ?_⟩
    show (0 : Int) = ((liveKeys fun _ : κ => (none : Option δ)).ncard : Int)
    rw [liveKeys_none, Set.ncard_empty]; rfl

/-- **The counter along a run.** For every table, every encoding of keys and every sequence of
    calls, `ht->count` is the number of data a full iteration yields in all states of the run
    exactly when no call revives a removed node. For keys the table can tell apart and whose low
    word is not zero, the same condition decides whether it is the number of live keys. -/
theorem count_right_iff_never_revives (kt : KeyType) (hashFn : HashFn) (capacity cf : Nat)
    (ht : Table δ) (hnew : inaHashtableNew kt hashFn capacity cf = .ok ht)
    (enc : κ → List UInt8) (ops : List (Op κ δ)) :
    (Always (step enc) (fun s => s.count = s.yields.length) ht ops ↔
      Never (step enc) (fun s op => op.revives enc s) ht ops) ∧
    ∀ Good : κ → Prop, (∀ k k', Good k → Good k' → enc k = enc k' → k = k') →
      (∀ k, Good k → lowWord (enc k) ≠ 0) →
      TellsApart ht.hashFn ht.capacity (enc '' {k | Good k}) →
      (∀ op ∈ ops, ∀ k ∈ op.keys, Good k) →
      ((∀ pre, pre <+: ops → (exec (step enc) ht pre).count =
          (liveKeys (exec mapStep (fun _ => none) pre)).ncard) ↔
        Never (step enc) (fun s op => op.revives enc s) ht ops) := by
  have hok := Table.Ok.new hnew
  have hzero : ht.count = 0 := (new_fields hnew).2.2.2
  constructor
  · refine always_iff_never _ (I := Table.Ok) (A := fun _ => True)
      (fun s op _ hs => hs.step) (fun s op _ hs hp => hs.step_count_iff op hp)
      (fun _ _ => trivial) hok ?_
    rw [Table.yields_new hnew, hzero]; rfl
  · -- Here table and map run side by side, and the counter is compared with the keys of the map.
    intro Good hinj hlow hapart hops
    have key := always_iff_never (both (step enc) mapStep)
      (I := fun s => Simulates enc Good s.1 s.2 ∧ (liveKeys s.2).Finite)
      (P := fun s => s.1.count = (liveKeys s.2).ncard)
      (B := fun s op => op.revives enc s.1) (A := fun op => ∀ k ∈ op.keys, Good k)
      (fun s op hop hs => ⟨(hs.1.step hinj hlow hop).2, mapStep_finite hs.2⟩)
      (fun s op hop hs hp => hs.1.step_count_iff hs.2 op hop hp)
      (s := (ht, fun _ => none)) hops
      ⟨Simulates.new hnew hapart, by rw [liveKeys_none]; exact Set.finite_empty⟩
      (by rw [liveKeys_none, Set.ncard_empty]; exact hzero)
    rw [never_both] at key
    rw [← key]
    simp only [Always, exec_both]

end Keys

theorem count_right_iff_never_revives_run :
    ∃ ht : Table Nat, inaHashtableNew .int32 (.hash32 fun _ _ => 0) 1 0 = .ok ht ∧
      Always (step (intKey (w := 32))) (fun s => s.count = s.yields.length) ht
        [.set 1 (some 7), .set 1 (some 8), .remove 1] := by
  obtain ⟨ht, hnew, hnever⟩ : ∃ ht : Table Nat,
      inaHashtableNew .int32 (.hash32 fun _ _ => 0) 1 0 = .ok ht ∧
      Never (step (intKey (w := 32))) (fun s op => op.revives intKey s) ht
        [.set 1 (some 7), .set 1 (some 8), .remove 1] :=
    ⟨_, rfl, Bool.noConfusion, Bool.noConfusion, id, trivial⟩
  exact ⟨ht, hnew, (count_right_iff_never_revives .int32 (.hash32 fun _ _ => 0) 1 0 ht hnew
    intKey _).1.mpr hnever⟩

/-- A key that is removed and set again is alive, yielded, and not counted. -/
theorem count_wrong_after_revival :
    ∃ ht : Table Nat, inaHashtableNew .int32 (.hash32 fun _ _ => 0) 1 0 = .ok ht ∧
      let s := exec (step (intKey (w := 32))) ht [.set 1 (some 7), .remove 1, .set 1 (some 8)]
      s.count = 0 ∧ s.yields = [8] ∧
        inaHashtableGet s (intKey (1 : BitVec 32)) = .ok 8 :=
  ⟨_, rfl, rfl, rfl, rfl⟩

end Hashtable
end Inac
