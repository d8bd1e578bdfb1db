import Mathlib.Data.List.Range
import Mathlib.Data.List.Flatten
import Inac.Hashtable.Iter

/-!
# Traversals, and what an iterator notices

A table that stays as it is can be walked in three ways: `ina_hashtable_foreach`,
`ina_hashtable_foreach_arg`, and an iterator, call after call. All three visit the nodes with data
in the order of `livePlaces`, each once.

An iterator keeps the table's `count` of its last reset and refuses to go on when the counts
differ. What it notices is therefore the **sum** of what the calls since then have counted, not the
calls: a `set` that takes a node counts one, a `remove` takes one off, a `clear` takes off all, and
a `set` that finds a node of its key, vacated or not, counts nothing. Changes that cancel go
unnoticed.
-/

namespace Inac
namespace Hashtable

open Lib

variable {δ κ σ : Type}

/-- `ina_hashtable_foreach_arg`: the loop of `ina_hashtable_foreach`, with `arg` passed as the
    callback's second argument. -/
def inaHashtableForeachArg {α : Type} (ht : Table δ) (fn : δ → α → σ → Except Err σ) (arg : α)
    (s : σ) : Except Err σ :=
  inaHashtableForeach ht (fun d => fn d arg) s

/-! ## Live nodes

A node is named by its bucket and its index there. The list of all live ones is in the order of the
buckets. -/

/-- The data at a bucket and a node of it; none if the bucket does not use that node. -/
def Table.dataAt (ht : Table δ) (p : Nat × Nat) : Option δ :=
  if p.1 < ht.capacity then (ht.bucketAt p.1).used[p.2]?.bind Node.data else none

/-- The used nodes of a bucket that hold data. -/
def Bucket.livePlaces (b : Bucket δ) : List Nat :=
  (List.range b.used.length).filter fun j => (b.used[j]?.bind Node.data).isSome

/-- The live nodes of a table, bucket by bucket. -/
def Table.livePlaces (ht : Table δ) : List (Nat × Nat) :=
  (List.range ht.capacity).flatMap fun i => (ht.bucketAt i).livePlaces.map fun j => (i, j)

theorem Bucket.mem_livePlaces {b : Bucket δ} {j : Nat} :
    j ∈ b.livePlaces ↔ (b.used[j]?.bind Node.data).isSome := by
  rw [Bucket.livePlaces, List.mem_filter, List.mem_range, and_iff_right_iff_imp]
  intro hsome
  by_contra hge
  rw [List.getElem?_eq_none (Nat.le_of_not_lt hge)] at hsome
  exact Bool.noConfusion hsome

theorem Table.mem_livePlaces {ht : Table δ} {p : Nat × Nat} :
    p ∈ ht.livePlaces ↔ (ht.dataAt p).isSome := by
  obtain ⟨i, j⟩ := p
  rw [Table.livePlaces, List.mem_flatMap, Table.dataAt]
  by_cases hi : i < ht.capacity
  · rw [if_pos hi, ← Bucket.mem_livePlaces]
    constructor
    · rintro ⟨i', -, hmem⟩
      obtain ⟨j', hj', heq⟩ := List.mem_map.mp hmem
      obtain ⟨rfl, rfl⟩ := Prod.mk.inj heq
      exact hj'
    · intro hj
      exact ⟨i, List.mem_range.mpr hi, List.mem_map_of_mem hj⟩
  · rw [if_neg hi]
    constructor
    · rintro ⟨i', hi', hmem⟩
      obtain ⟨j', -, heq⟩ := List.mem_map.mp hmem
      obtain ⟨rfl, rfl⟩ := Prod.mk.inj heq
      exact absurd (List.mem_range.mp hi') hi
    · intro hsome
      exact Bool.noConfusion hsome

theorem Table.nodup_livePlaces (ht : Table δ) : ht.livePlaces.Nodup := by
  rw [Table.livePlaces, List.nodup_flatMap]
  constructor
  · intro i _
    exact (List.nodup_range.filter _).map (Prod.mk_right_injective i)
  · refine List.nodup_range.imp ?_
    intro i i' hne p hp hp'
    obtain ⟨j, -, rfl⟩ := List.mem_map.mp hp
    obtain ⟨j', -, heq⟩ := List.mem_map.mp hp'
    exact hne (Prod.mk.inj heq).1.symm

theorem Bucket.map_livePlaces (b : Bucket δ) :
    b.livePlaces.map (fun j => b.used[j]?.bind Node.data) = (dataOf b.used).map some := by
  have hmap : (List.range b.used.length).map (fun j => b.used[j]?.bind Node.data) =
      b.used.map Node.data := by
    refine List.ext_getElem (by simp) ?_
    intro j hj _
    have hlt : j < b.used.length := by simpa using hj
    simp [hlt]
  have hfilter : ∀ nodes : List (Node δ),
      (nodes.map Node.data).filter Option.isSome = (dataOf nodes).map some := by
    intro nodes
    induction nodes with
    | nil => rfl
    | cons n rest ih =>
      cases hd : n.data with
      | none => simpa [dataOf, hd] using ih
      | some d => simpa [dataOf, hd] using ih
  rw [← hfilter, ← hmap, List.filter_map]
  rfl

/-- **The live nodes hold what a traversal yields, in this order.** -/
theorem Table.Ok.map_livePlaces {ht : Table δ} (h : ht.Ok) :
    ht.livePlaces.map ht.dataAt = ht.yields.map some := by
  have hbuckets : ht.buckets.take ht.capacity = (List.range ht.capacity).map ht.bucketAt := by
    refine List.ext_getElem ?_ ?_
    · rw [List.length_take, List.length_map, List.length_range, h.length]
      omega
    · intro i hi _
      rw [List.getElem_take, List.getElem_map, List.getElem_range, ht.bucketAt_eq_getElem]
  rw [Table.yields_eq, hbuckets, Table.livePlaces, List.map_flatMap, List.flatMap_map,
    List.map_flatMap]
  refine List.flatMap_congr ?_
  intro i hi
  rw [← Bucket.map_livePlaces, List.map_map]
  refine List.map_congr_left ?_
  intro j _
  rw [Function.comp_apply, Table.dataAt, if_pos (List.mem_range.mp hi)]

/-! ## The three traversals

The two `foreach` functions are folds over what the table yields, and stop where the callback fails;
an iterator is told the same list call by call, and then the end. -/

theorem foreachNodes_foldlM (fn : δ → σ → Except Err σ) (nodes : List (Node δ)) (s : σ) :
    foreachNodes fn nodes s = (dataOf nodes).foldlM (fun s d => fn d s) s := by
  induction nodes generalizing s with
  | nil => rfl
  | cons n rest ih =>
    rw [foreachNodes]
    cases hd : n.data with
    | none =>
      have hrest : dataOf (n :: rest) = dataOf rest := by simp [dataOf, hd]
      rw [hrest]
      exact ih s
    | some d =>
      have hrest : dataOf (n :: rest) = d :: dataOf rest := by simp [dataOf, hd]
      rw [hrest, List.foldlM_cons]
      dsimp only
      cases hfn : fn d s with
      | error e => rfl
      | ok s' => exact ih s'

theorem foreachBuckets_foldlM (fn : δ → σ → Except Err σ) (bs : List (Bucket δ)) (s : σ) :
    foreachBuckets fn bs s =
      (bs.flatMap fun b => dataOf b.used).foldlM (fun s d => fn d s) s := by
  induction bs generalizing s with
  | nil => rfl
  | cons b rest ih =>
    rw [foreachBuckets, foreachNodes_foldlM, List.flatMap_cons, List.foldlM_append, Bucket.used]
    cases hfn : (dataOf (b.nodes.take b.count)).foldlM (fun s d => fn d s) s with
    | error e => rfl
    | ok s' => exact ih s'

/-- **`foreach` calls its callback on what the table yields, in turn, until it fails.** -/
theorem foreach_foldlM (ht : Table δ) (fn : δ → σ → Except Err σ) (s : σ) :
    inaHashtableForeach ht fn s = ht.yields.foldlM (fun s d => fn d s) s := by
  rw [inaHashtableForeach, foreachBuckets_foldlM, Table.yields_eq]

theorem foreach_fold (ht : Table δ) (fn : δ → σ → σ) (s : σ) :
    inaHashtableForeach ht (fun d s => .ok (fn d s)) s =
      .ok (ht.yields.foldl (fun s d => fn d s) s) := by
  rw [foreach_foldlM]
  exact List.foldlM_pure

/-- A call on an iterator. -/
inductive IterOp where
  | next
  | reset
  deriving DecidableEq, Repr

/-- One call on an iterator of a table that stays as it is; `next` returns the data it found. -/
def iterStep (ht : Table δ) (iter : Iter) : IterOp → Except Err (Option δ) × Iter
  | .next => let r := inaHashtableIterNext ht iter; (r.1.map some, r.2)
  | .reset => (.ok none, inaHashtableIterReset ht)

/-- What `n` calls return where `l` is still to come: the data, then the end for good. -/
def told (l : List δ) (n : Nat) : List (Except Err (Option δ)) :=
  (l.take n).map (fun d => .ok (some d)) ++ List.replicate (n - l.length) (.error .endOf)

theorem told_nil (n : Nat) : told ([] : List δ) n = List.replicate n (.error .endOf) := by
  rw [told, List.take_nil, List.map_nil, List.nil_append, List.length_nil, Nat.sub_zero]

theorem told_cons (d : δ) (l : List δ) (n : Nat) :
    told (d :: l) (n + 1) = .ok (some d) :: told l n := by
  rw [told, told, List.length_cons, Nat.add_sub_add_right]
  rfl

theorem iterBuckets_none {ht : Table δ} {left i i' : Nat} {node node' : Option Nat}
    (h : iterBuckets ht left i node = (none, i', node')) : i' = i + left := by
  induction left generalizing i node with
  | zero => cases h; rfl
  | succ left ih =>
    rw [iterBuckets] at h
    split at h
    · exact absurd (congrArg Prod.fst h) (by simp)
    · rw [ih h, Nat.add_right_comm, Nat.add_assoc]

/-- After the end the iterator stands behind the last bucket. -/
theorem iterNext_end {ht : Table δ} {iter : Iter} (hsum : iter.checksum = ht.count)
    (hle : iter.bucket ≤ ht.capacity)
    (hend : (inaHashtableIterNext ht iter).1 = .error .endOf) :
    (inaHashtableIterNext ht iter).2.checksum = ht.count ∧
      (inaHashtableIterNext ht iter).2.bucket = ht.capacity := by
  rw [inaHashtableIterNext, if_neg (not_not.mpr hsum)] at hend ⊢
  cases hout : iterBuckets ht (ht.capacity - iter.bucket) iter.bucket iter.node with
  | mk data place =>
    cases data with
    | some d => rw [hout] at hend; cases hend
    | none =>
      refine ⟨hsum, ?_⟩
      rw [← Nat.add_sub_of_le hle]
      exact iterBuckets_none hout

/-- **Call after call, the iterator returns what is ahead of it, and then the end.** -/
theorem outs_next {ht : Table δ} {iter : Iter} (hsum : iter.checksum = ht.count)
    (hle : iter.bucket ≤ ht.capacity) (n : Nat) :
    outs (iterStep ht) iter (List.replicate n .next) = told (iter.ahead ht) n := by
  induction n generalizing iter with
  | zero =>
    rw [List.replicate_zero, outs, told, Nat.zero_sub]
    rfl
  | succ n ih =>
    rw [List.replicate_succ, outs, iterStep]
    rcases iterNext_spec hsum hle with ⟨hnil, hend⟩ | ⟨d, iter', hnext, hahead, hsum', hle'⟩
    · obtain ⟨hsum', hcap⟩ := iterNext_end hsum hle hend
      have hnil' : (inaHashtableIterNext ht iter).2.ahead ht = [] := by
        rw [Iter.ahead, hcap, Nat.sub_self]; rfl
      dsimp only
      rw [ih hsum' (Nat.le_of_eq hcap), hnil', hnil, hend, told_nil, told_nil]
      rfl
    · dsimp only
      rw [hnext, ih hsum' hle', hahead, told_cons]
      rfl

theorem Table.Ok.outs_reset {ht : Table δ} (h : ht.Ok) (n : Nat) :
    outs (iterStep ht) (inaHashtableIterReset ht) (List.replicate n .next) =
      told ht.yields n := by
  have hahead : (inaHashtableIterReset ht).ahead ht = ht.yields :=
    (iterates_ahead rfl (Nat.zero_le _)).unique h.iterates
  rw [outs_next rfl (Nat.zero_le _), hahead]

theorem Table.Ok.exec {enc : κ → List UInt8} {ht : Table δ} (h : ht.Ok) (ops : List (Op κ δ)) :
    (Lib.exec (Hashtable.step enc) ht ops).Ok :=
  exec_invariant (A := fun _ => True) (fun _ _ _ hs => hs.step) (fun _ _ => trivial) h

/-- **The iterator, `foreach` and `foreach_arg` make the same walk.** After any calls on a new
    table there is one list of the live nodes, each once, whose data `foreach` and `foreach_arg`
    pass to callbacks that do not fail, and which an iterator returns one by one, before it reports
    the end for as long as it is asked; and so it does again after a reset, wherever it was. -/
theorem traversals_agree (kt : KeyType) (hashFn : HashFn) (capacity cf : Nat) (ht₀ : Table δ)
    (hnew : inaHashtableNew kt hashFn capacity cf = .ok ht₀) (enc : κ → List UInt8)
    (ops : List (Op κ δ)) :
    let ht := exec (step enc) ht₀ ops
    ∃ (places : List (Nat × Nat)) (l : List δ),
      places.Nodup ∧ (∀ p, p ∈ places ↔ (ht.dataAt p).isSome) ∧
      places.map ht.dataAt = l.map some ∧
      (∀ (σ : Type) (fn : δ → σ → σ) (s : σ),
        inaHashtableForeach ht (fun d s => .ok (fn d s)) s =
          .ok (l.foldl (fun s d => fn d s) s)) ∧
      (∀ (α σ : Type) (fn : δ → α → σ → σ) (arg : α) (s : σ),
        inaHashtableForeachArg ht (fun d arg s => .ok (fn d arg s)) arg s =
          .ok (l.foldl (fun s d => fn d arg s) s)) ∧
      ∀ n, outs (iterStep ht) (inaHashtableIterReset ht) (List.replicate n .next) = told l n ∧
        ∀ calls, outs (iterStep ht) (exec (iterStep ht) (inaHashtableIterReset ht) calls)
          (.reset :: List.replicate n .next) = .ok none :: told l n := by
  intro ht
  have hok : ht.Ok := (Table.Ok.new hnew).exec ops
  refine ⟨ht.livePlaces, ht.yields, ht.nodup_livePlaces, fun p => Table.mem_livePlaces,
    hok.map_livePlaces, ?_, ?_, ?_⟩
  · intro σ fn s
    exact foreach_fold ht fn s
  · intro α σ fn arg s
    exact foreach_fold ht (fun d => fn d arg) s
  · intro n
    refine ⟨hok.outs_reset n, ?_⟩
    intro calls
    rw [outs, iterStep]
    exact congrArg _ (hok.outs_reset n)

/-- Three keys are set and one of them is removed. -/
theorem traversals_agree_run :
    ∃ ht₀ : Table Nat, inaHashtableNew .int32 (.hash32 fun _ _ => 0) 1 0 = .ok ht₀ ∧
      let ht := exec (step (intKey (w := 32))) ht₀
        [.set 1 (some 7), .set 2 (some 8), .set 3 (some 9), .remove 2]
      ht.yields = [7, 9] ∧ ∃ places : List (Nat × Nat),
        places.Nodup ∧ ∀ p, p ∈ places ↔ (ht.dataAt p).isSome := by
  refine ⟨_, rfl, rfl, ?_⟩
  obtain ⟨places, -, hnodup, hlive, -⟩ := traversals_agree .int32 (.hash32 fun _ _ => 0) 1 0
    (Table.mk .int32 4 (.hash32 fun _ _ => 0) 1 [Bucket.zero, Bucket.zero] 0) rfl
    (intKey (w := 32)) [.set 1 (some 7), .set 2 (some 8), .set 3 (some 9), .remove 2]
  exact ⟨places, hnodup, hlive⟩

/-! ## What an iterator notices

The comparison is one of numbers, so the question is when the numbers of a run add up to zero. That
the sum is what the counter has moved by is `Table.Ok.exec_counted`, by induction on the calls. -/

/-- The call puts a key into the table that is not there, or takes out what is. -/
def Op.changes (enc : κ → List UInt8) (ht : Table δ) : Op κ δ → Prop
  | .set k (some _) => inaHashtableGet ht (enc k) = .error .notFound
  | .remove k => inaHashtableGet ht (enc k) ≠ .error .notFound
  | .clear => ht.yields ≠ []
  | _ => False

/-- What a call adds to `ht->count`. A `set` that finds a node of its key adds nothing, also where
    a `remove` has vacated that node. -/
def Op.counted (enc : κ → List UInt8) (ht : Table δ) : Op κ δ → Int
  | .set k (some _) =>
    if (ht.bucketAt (ht.inaBucket (enc k))).visible.any (·.keyIs (enc k)) then 0 else 1
  | .remove k =>
    match inaHashtableGet ht (enc k) with
    | .ok _ => -1
    | .error _ => 0
  | .clear => -ht.count
  | _ => 0

/-- What the calls of a run add together. -/
def netCounted (enc : κ → List UInt8) : Table δ → List (Op κ δ) → Int
  | _, [] => 0
  | ht, op :: ops => op.counted enc ht + netCounted enc (step enc ht op).2 ops

theorem Bucket.Ok.set_counted {b : Bucket δ} (hb : b.Ok) (key : List UInt8) (d : δ) :
    (b.set key d).2 = if b.visible.any (·.keyIs key) then 0 else 1 := by
  obtain ⟨heff, -⟩ := hb.set_effect key d
  have hmisses : (∀ a ∈ b.visible, a.keyIs key = false) → ¬ b.visible.any (·.keyIs key) = true := by
    intro hmiss hany
    obtain ⟨n, hn, hit⟩ := List.any_eq_true.mp hany
    rw [hmiss n hn] at hit
    exact Bool.noConfusion hit
  cases heff with
  | found l r n hvis hn _ _ hinc =>
    rw [hinc, if_pos]
    rw [hvis, List.any_eq_true]
    exact ⟨n, List.mem_append_right l List.mem_cons_self, hn⟩
  | reuse _ _ _ _ hmiss _ _ hinc => rw [hinc, if_neg (hmisses hmiss)]
  | append _ hmiss _ _ hinc => rw [hinc, if_neg (hmisses hmiss)]

theorem Table.Ok.step_counted {enc : κ → List UInt8} {ht : Table δ} (h : ht.Ok) (op : Op κ δ) :
    (Hashtable.step enc ht op).2.count = ht.count + op.counted enc ht := by
  cases op with
  | set k data =>
    cases data with
    | none => exact (Int.add_zero _).symm
    | some d => exact congrArg (ht.count + ·) ((h.bucket_ok _).set_counted (enc k) d)
  | get k => exact (Int.add_zero _).symm
  | remove k =>
    show (inaHashtableRemove ht (enc k)).2.count = _
    rw [Op.counted, inaHashtableGet_eq, inaHashtableRemove]
    dsimp only
    cases hr : (ht.bucketAt (ht.inaBucket (enc k))).remove (enc k) with
    | none =>
      rw [Bucket.remove_none hr]
      exact (Int.add_zero _).symm
    | some db =>
      obtain ⟨l, n, r, hvis, hn, hd, hl, -⟩ := Bucket.remove_some hr
      rw [Bucket.lookup, hvis, Slots.lookup_append, Slots.lookup_cons, hl, hn, hd]
      rfl
  | clear => exact (Int.add_right_neg _).symm

theorem Table.Ok.exec_counted {enc : κ → List UInt8} {ht : Table δ} (h : ht.Ok)
    (ops : List (Op κ δ)) :
    (Lib.exec (Hashtable.step enc) ht ops).count = ht.count + netCounted enc ht ops := by
  induction ops generalizing ht with
  | nil => exact (Int.add_zero _).symm
  | cons op ops ih => rw [exec_cons, ih h.step, h.step_counted, netCounted, Int.add_assoc]

theorem iterNext_invalid_iff {ht : Table δ} {iter : Iter} :
    (inaHashtableIterNext ht iter).1 = .error .stateInvalid ↔ iter.checksum ≠ ht.count := by
  rw [inaHashtableIterNext]
  constructor
  · intro hout hsum
    rw [if_neg (not_not.mpr hsum)] at hout
    split at hout <;> cases hout
  · intro hne
    rw [if_pos hne]

/-- The calls put in or take out at least one key. -/
def Modifies (enc : κ → List UInt8) (ht : Table δ) (ops : List (Op κ δ)) : Prop :=
  ¬ Never (step enc) (fun s op => op.changes enc s) ht ops

/-- **Modifications are noticed exactly when what they count does not cancel.** For a table after
    any calls, an iterator that was last reset there, wherever it stands, and any calls after that:
    the next `ina_hashtable_iter_next` reports a modification as an invalid state exactly when the
    calls' contributions to the counter do not add up to zero. -/
theorem iter_notices_iff_net_counted (kt : KeyType) (hashFn : HashFn) (capacity cf : Nat)
    (ht₀ : Table δ) (hnew : inaHashtableNew kt hashFn capacity cf = .ok ht₀)
    (enc : κ → List UInt8) (before ops : List (Op κ δ)) (iter : Iter)
    (hreset : iter.checksum =
      (inaHashtableIterReset (exec (step enc) ht₀ before)).checksum) :
    (Modifies enc (exec (step enc) ht₀ before) ops →
      (inaHashtableIterNext (exec (step enc) ht₀ (before ++ ops)) iter).1 =
        .error .stateInvalid) ↔
    (Modifies enc (exec (step enc) ht₀ before) ops →
      netCounted enc (exec (step enc) ht₀ before) ops ≠ 0) := by
  have hok : (exec (step enc) ht₀ before).Ok := (Table.Ok.new hnew).exec before
  refine imp_congr_right fun _ => ?_
  rw [iterNext_invalid_iff, exec, List.foldl_append, ← exec, ← exec, hok.exec_counted, hreset]
  rw [inaHashtableIterReset]
  constructor
  · intro hne hzero
    rw [hzero, Int.add_zero] at hne
    exact hne rfl
  · intro hne heq
    exact hne (Int.add_left_cancel ((Int.add_zero _).trans heq)).symm

/-- One key is put in behind the iterator's back. -/
theorem iter_notices_insertion :
    ∃ ht₀ : Table Nat, inaHashtableNew .int32 (.hash32 fun _ _ => 0) 1 0 = .ok ht₀ ∧
      (inaHashtableIterNext (exec (step (intKey (w := 32))) ht₀ [.set 1 (some 7)])
        (inaHashtableIterReset ht₀)).1 = .error .stateInvalid := by
  obtain ⟨ht₀, hnew, hchanges, hnet⟩ : ∃ ht₀ : Table Nat,
      inaHashtableNew .int32 (.hash32 fun _ _ => 0) 1 0 = .ok ht₀ ∧
      Modifies (intKey (w := 32)) ht₀ [.set 1 (some 7)] ∧
      netCounted (intKey (w := 32)) ht₀ [.set 1 (some 7)] = 1 :=
    ⟨_, rfl, fun h => h.1 rfl, rfl⟩
  refine ⟨ht₀, hnew, ?_⟩
  refine (iter_notices_iff_net_counted .int32 (.hash32 fun _ _ => 0) 1 0 ht₀ hnew
    (intKey (w := 32)) [] [.set 1 (some 7)] _ rfl).mpr ?_ hchanges
  intro _
  rw [exec_nil, hnet]
  exact Int.one_ne_zero

/-- A key is put in and another taken out: the iterator goes on, with data of the table as it is
    now. -/
theorem iter_misses_balanced_changes :
    ∃ ht₀ : Table Nat, inaHashtableNew .int32 (.hash32 fun _ _ => 0) 1 0 = .ok ht₀ ∧
      let ht := exec (step (intKey (w := 32))) ht₀ [.set 1 (some 7)]
      Modifies (intKey (w := 32)) ht [.set 2 (some 8), .remove 1] ∧
      (inaHashtableIterNext (exec (step (intKey (w := 32))) ht [.set 2 (some 8), .remove 1])
        (inaHashtableIterReset ht)).1 = .ok 8 :=
  ⟨_, rfl, fun h => h.1 rfl, rfl⟩

end Hashtable
end Inac
