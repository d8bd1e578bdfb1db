import Inac.Hashtable.Table

/-!
# Integer keys: the table is a finite map

Fixed-width keys are told apart by any table, having one length. What is left of the invariant's
conditions is the low word: a node whose `key.u32` is zero ends every scan of its bucket, and
hides itself and all nodes behind it.

* With keys whose low word is not zero no node is ever hidden (`Plain`), and the table answers
  every call as a finite map does (`intTable_outs_eq_map`).
* With arbitrary keys a `set` takes effect exactly under `Table.SetOk`
  (`intTable_set_get_iff`), and `0` is the smallest key for which it does not
  (`intTable_zero_key_lost`).
-/

namespace Inac
namespace Hashtable

open Lib

variable {δ κ : Type}

/-! ## The bytes of an integer key

A key of a fixed width is its bytes, little endian, and the first four of them are its low word. So
distinct keys have distinct bytes of the same length, and neither is a prefix of the other. -/

@[simp] theorem length_leBytes : ∀ n v : Nat, (leBytes n v).length = n
  | 0, _ => rfl
  | n + 1, v => by rw [leBytes, List.length_cons, length_leBytes n]

theorem leBytes_inj : ∀ {n v v' : Nat}, v < 256 ^ n → v' < 256 ^ n →
    leBytes n v = leBytes n v' → v = v'
  | 0, v, v', hv, hv', _ => by
    rw [Nat.pow_zero] at hv hv'; omega
  | n + 1, v, v', hv, hv', h => by
    rw [leBytes, leBytes, List.cons.injEq] at h
    have hlow : v % 256 = v' % 256 := by
      have := congrArg UInt8.toNat h.1
      simpa using this
    have hhigh : v / 256 = v' / 256 := by
      refine leBytes_inj (n := n) ?_ ?_ h.2 <;>
        (rw [Nat.pow_succ] at hv hv'; omega)
    omega

theorem lowWord_leBytes {n : Nat} (hn : 4 ≤ n) (v : Nat) :
    lowWord (leBytes n v) = v % 2 ^ 32 := by
  obtain ⟨m, rfl⟩ : ∃ m, n = m + 4 := ⟨n - 4, by omega⟩
  simp only [lowWord, leBytes, List.take_succ_cons, List.take_zero, List.foldr_cons,
    List.foldr_nil, UInt8.toNat_ofNat']
  omega

section IntKey

variable {n : Nat}

theorem length_intKey (k : BitVec (8 * n)) : (intKey k).length = n := by
  rw [intKey, length_leBytes]; omega

theorem intKey_inj {k k' : BitVec (8 * n)} (h : intKey k = intKey k') : k = k' := by
  have hlt : ∀ k : BitVec (8 * n), k.toNat < 256 ^ (8 * n / 8) := by
    intro k
    rw [show 8 * n / 8 = n by omega, show (256 : Nat) = 2 ^ 8 from rfl, ← Nat.pow_mul]
    exact k.isLt
  exact BitVec.eq_of_toNat_eq (leBytes_inj (hlt k) (hlt k') h)

theorem lowWord_intKey (hn : 4 ≤ n) (k : BitVec (8 * n)) :
    lowWord (intKey k) = k.toNat % 2 ^ 32 :=
  lowWord_leBytes (by omega) _

theorem tellsApart_intKey (hashFn : HashFn) (capacity : Nat) (G : Set (BitVec (8 * n))) :
    TellsApart hashFn capacity (intKey '' G) := by
  rintro i p ⟨⟨k, -, rfl⟩, -⟩ q ⟨⟨k', -, rfl⟩, -⟩ hpq
  exact hpq.eq_of_length (by rw [length_intKey, length_intKey])

end IntKey

theorem KeyType.four_le_keyLen (kt : KeyType) : 4 ≤ kt.keyLen := by
  cases kt <;> simp [KeyType.keyLen, maxKeyLen]

/-! ## Tables without hidden nodes

As long as all keys have a low word that is not zero, every used node is visible. -/

/-- No bucket hides a node. -/
def Table.Plain (ht : Table δ) : Prop := ∀ i, (ht.bucketAt i).hidden = []

theorem Bucket.hidden_eq_nil {b : Bucket δ} : b.hidden = [] ↔ ∀ n ∈ b.used, n.u32 ≠ 0 := by
  rw [Bucket.hidden, List.dropWhile_eq_nil_iff]
  simp

theorem Bucket.Ok.hidden_set {b : Bucket δ} (hb : b.Ok) {key : List UInt8} (d : δ)
    (hkey : lowWord key ≠ 0) (h : b.hidden = []) : (b.set key d).1.hidden = [] := by
  rw [Bucket.hidden_eq_nil] at h ⊢
  have hstore : ∀ m : Node δ, (m.store key d).u32 ≠ 0 := fun m => Node.store_u32_ne_zero hkey m d
  obtain ⟨heff, -⟩ := hb.set_effect key d
  cases heff with
  | found l r n hvis _ _ hused _ =>
    rw [Bucket.used_of_visible hvis] at h
    rw [hused]
    simp only [List.forall_mem_append, List.forall_mem_cons] at h ⊢
    exact h
  | reuse l r n hvis _ _ hused _ =>
    rw [Bucket.used_of_visible hvis] at h
    rw [hused]
    simp only [List.forall_mem_append, List.forall_mem_cons] at h ⊢
    exact ⟨h.1, hstore n, h.2.2⟩
  | append n _ _ hused _ =>
    rw [hused]
    simp only [List.forall_mem_append, List.forall_mem_singleton]
    exact ⟨h, hstore n⟩

theorem Bucket.hidden_remove {b b' : Bucket δ} {key : List UInt8} {d : δ}
    (h : b.remove key = some (d, b')) (hh : b.hidden = []) : b'.hidden = [] := by
  obtain ⟨l, n, r, hvis, -, -, -, hused, -, -, -⟩ := Bucket.remove_some h
  rw [Bucket.hidden_eq_nil] at hh ⊢
  rw [Bucket.used_of_visible hvis] at hh
  rw [hused]
  simp only [List.forall_mem_append, List.forall_mem_cons] at hh ⊢
  exact hh

theorem Table.Plain.setBucket {ht : Table δ} (h : ht.Plain) {i : Nat}
    (hi : i < ht.buckets.length) {b : Bucket δ} (hb : b.hidden = []) (c : Int) :
    ({ ht.setBucket i b with count := c } : Table δ).Plain := by
  intro j
  show ((ht.setBucket i b).bucketAt j).hidden = []
  rw [Table.bucketAt_setBucket hi]
  split
  · exact hb
  · exact h j

/-- A call whose key has a nonzero low word leaves no node hidden. -/
theorem Table.Plain.step {K : Set (List UInt8)} {enc : κ → List UInt8} {ht : Table δ}
    {op : Op κ δ} (h : ht.Plain) (hinv : ht.Inv K) (hop : ∀ k ∈ op.keys, lowWord (enc k) ≠ 0) :
    (Hashtable.step enc ht op).2.Plain := by
  cases op with
  | set k data =>
    cases data with
    | none => exact h
    | some d =>
      exact h.setBucket (hinv.bucket_lt _)
        ((hinv.bucket _).ok.hidden_set d (hop k (by simp)) (h _)) _
  | get k => exact h
  | remove k =>
    show (inaHashtableRemove ht (enc k)).2.Plain
    unfold inaHashtableRemove
    dsimp only
    cases hr : (ht.bucketAt (ht.inaBucket (enc k))).remove (enc k) with
    | none => exact h
    | some db =>
      obtain ⟨d, b⟩ := db
      exact h.setBucket (hinv.bucket_lt _) (Bucket.hidden_remove hr (h _)) _
  | clear =>
    intro i
    show ((inaHashtableClear ht).bucketAt i).hidden = []
    rw [Table.bucketAt_clear]
    split
    · simp [Bucket.hidden, Bucket.used, Bucket.clear]
    · exact h i

/-! ## The simulation

The keys in use are those `Good` holds of; the caller's keys reach the table as bytes through
`enc`. A table simulates a map when it meets the invariant for these keys, hides nothing, and
reads every good key as the map does. -/

section Simulation

variable {enc : κ → List UInt8} {Good : κ → Prop}

/-- The table `ht` stands for the map `m`. -/
structure Simulates (enc : κ → List UInt8) (Good : κ → Prop) (ht : Table δ)
    (m : κ → Option δ) : Prop where
  inv : ht.Inv (enc '' {k | Good k})
  plain : ht.Plain
  read : ∀ k, Good k → ht.read (enc k) = m k

/-- **One call keeps the simulation, and both answer alike.** -/
theorem Simulates.step [DecidableEq κ] (hinj : ∀ k k', Good k → Good k' → enc k = enc k' → k = k')
    (hlow : ∀ k, Good k → lowWord (enc k) ≠ 0) {ht : Table δ} {m : κ → Option δ} {op : Op κ δ}
    (hop : ∀ k ∈ op.keys, Good k) (h : Simulates enc Good ht m) :
    (Hashtable.step enc ht op).1 = (mapStep m op).1 ∧
      Simulates enc Good (Hashtable.step enc ht op).2 (mapStep m op).2 := by
  have hmem : ∀ k, Good k → enc k ∈ enc '' {k | Good k} := fun k hk => ⟨k, hk, rfl⟩
  have hinv : (Hashtable.step enc ht op).2.Inv (enc '' {k | Good k}) :=
    h.inv.step fun k hk => hmem k (hop k hk)
  have hplain : (Hashtable.step enc ht op).2.Plain :=
    h.plain.step h.inv fun k hk => hlow k (hop k hk)
  -- An update of the map at `k` is matched by a table that reads `k` so and the rest as before.
  have hupdate : ∀ {ht' : Table δ} {k : κ} {v : Option δ}, Good k → ht'.read (enc k) = v →
      (∀ p ∈ enc '' {k | Good k}, p ≠ enc k → ht'.read p = ht.read p) →
      ∀ k', Good k' → ht'.read (enc k') = Function.update m k v k' := by
    intro ht' k v hk hself hother k' hk'
    by_cases hkk : k' = k
    · rw [hkk, Function.update_self, hself]
    · rw [Function.update_of_ne hkk, hother (enc k') (hmem k' hk')
        (fun he => hkk (hinj k' k hk' hk he)), h.read k' hk']
  cases op with
  | set k data =>
    have hk : Good k := hop k (by simp)
    cases data with
    | none => exact ⟨rfl, h⟩
    | some d =>
      obtain ⟨hself, hother⟩ :=
        h.inv.read_set (hmem k hk) d ⟨hlow k hk, Or.inl (h.plain _)⟩
      exact ⟨rfl, hinv, hplain, hupdate hk hself hother⟩
  | get k =>
    have hk : Good k := hop k (by simp)
    refine ⟨?_, h⟩
    show Out.data (inaHashtableGet ht (enc k)) = Out.data (found (m k))
    rw [inaHashtableGet_read, h.read k hk]
  | remove k =>
    have hk : Good k := hop k (by simp)
    obtain ⟨hrc, -, hself, hother⟩ := h.inv.remove (hmem k hk)
    refine ⟨?_, hinv, hplain, hupdate hk hself hother⟩
    show Out.data (inaHashtableRemove ht (enc k)).1 = Out.data (found (m k))
    rw [hrc, h.read k hk]
  | clear => exact ⟨rfl, hinv, hplain, fun k _ => h.inv.clear.2 (enc k)⟩

theorem Simulates.new {keyType : KeyType} {hashFn : HashFn} {capacity cf : Nat} {ht : Table δ}
    (h : inaHashtableNew keyType hashFn capacity cf = .ok ht)
    (hK : TellsApart ht.hashFn ht.capacity (enc '' {k | Good k})) :
    Simulates enc Good ht (fun _ => none) := by
  obtain ⟨hinv, hread⟩ := Table.Inv.new h hK
  refine ⟨hinv, fun i => ?_, fun k _ => hread (enc k)⟩
  rw [Bucket.hidden_eq_nil, (bucketAt_new_ok h i).2]
  simp

end Simulation

/-! ## The two results for integer keys -/

/-- **Refinement.** Whatever the capacity, the flags and the hash function, a table with
    fixed-width keys whose low word is not zero answers every sequence of calls as a finite
    map. -/
theorem intTable_outs_eq_map (kt : KeyType) (hashFn : HashFn)
    (capacity cf : Nat) (ht : Table δ)
    (hnew : inaHashtableNew kt hashFn capacity cf = .ok ht)
    (ops : List (Op (BitVec (8 * kt.keyLen)) δ))
    (hops : ∀ op ∈ ops, ∀ k ∈ op.keys, k.toNat % 2 ^ 32 ≠ 0) :
    outs (step intKey) ht ops = outs mapStep (fun _ => none) ops := by
  refine outs_eq_of_sim (R := Simulates intKey fun k => k.toNat % 2 ^ 32 ≠ 0)
    (A := fun op => ∀ k ∈ op.keys, k.toNat % 2 ^ 32 ≠ 0) ?_ hops
    (Simulates.new hnew (tellsApart_intKey _ _ _))
  intro s m op hop hs
  refine hs.step (fun k k' _ _ h => intKey_inj h) (fun k hk => ?_) hop
  rw [lowWord_intKey kt.four_le_keyLen]
  exact hk

theorem intTable_outs_eq_map_run :
    ∃ ht : Table Nat, inaHashtableNew .int64 (.hash32 fun _ _ => 0) 1 0 = .ok ht ∧
      outs (step (intKey (w := 8 * KeyType.int64.keyLen))) ht
        [.set 1 (some 7), .set 2 (some 8), .remove 1, .get 1, .get 2] =
      [.rc (.ok ()), .rc (.ok ()), .data (.ok 7), .data (.error .notFound), .data (.ok 8)] := by
  obtain ⟨ht, hnew⟩ : ∃ ht : Table Nat,
      inaHashtableNew .int64 (.hash32 fun _ _ => 0) 1 0 = .ok ht := ⟨_, rfl⟩
  refine ⟨ht, hnew, ?_⟩
  rw [intTable_outs_eq_map .int64 (.hash32 fun _ _ => 0) 1 0 ht hnew]
  · simp [outs, mapStep, found, Function.update, KeyType.keyLen]
  · intro op hop k hk
    have hone : k = 1 ∨ k = 2 := by
      simp only [List.mem_cons, List.not_mem_nil, or_false] at hop
      rcases hop with rfl | rfl | rfl | rfl | rfl <;>
        simp only [Op.keys_set, Op.keys_get, Op.keys_remove, List.mem_singleton] at hk <;>
        simp [hk]
    rcases hone with rfl | rfl <;> decide

/-- **When a `set` takes effect.** In every reachable table with fixed-width keys, of any value,
    `get` reads back a `set` and every other key as before exactly under `Table.SetOk`. -/
theorem intTable_set_get_iff (kt : KeyType) (hashFn : HashFn)
    (capacity cf : Nat) (ht₀ : Table δ)
    (hnew : inaHashtableNew kt hashFn capacity cf = .ok ht₀)
    (ops : List (Op (BitVec (8 * kt.keyLen)) δ)) (k : BitVec (8 * kt.keyLen)) (d : δ) :
    let ht := exec (step intKey) ht₀ ops
    let ht' := (inaHashtableSet ht (intKey k) (some d)).2
    (inaHashtableGet ht' (intKey k) = .ok d ∧
      ∀ k', k' ≠ k → inaHashtableGet ht' (intKey k') = inaHashtableGet ht (intKey k')) ↔
    ht.SetOk (intKey k) := by
  intro ht ht'
  have hinv : ht.Inv (intKey '' Set.univ) :=
    exec_invariant (A := fun _ => True) (fun s op _ hs => hs.step fun k _ => ⟨k, trivial, rfl⟩)
      (fun _ _ => trivial) (Table.Inv.new hnew (tellsApart_intKey _ _ _)).1
  simp only [inaHashtableGet_read]
  constructor
  · rintro ⟨hself, -⟩
    by_contra hset
    have hlen : 4 ≤ (intKey k).length := by
      rw [length_intKey]; exact kt.four_le_keyLen
    rw [hinv.read_set_of_not_setOk hlen d hset] at hself
    exact absurd hself (by simp [found])
  · intro hset
    obtain ⟨hself, hother⟩ := hinv.read_set ⟨k, trivial, rfl⟩ d hset
    refine ⟨by rw [hself]; rfl, fun k' hne => ?_⟩
    rw [hother (intKey k') ⟨k', trivial, rfl⟩ fun h => hne (intKey_inj h)]

theorem intTable_set_get_iff_one :
    ∃ ht : Table Nat, inaHashtableNew .int32 (.hash32 fun _ _ => 0) 1 0 = .ok ht ∧
      ht.SetOk (intKey (1 : BitVec (8 * KeyType.int32.keyLen))) ∧
      inaHashtableGet (inaHashtableSet ht (intKey (1 : BitVec (8 * KeyType.int32.keyLen)))
        (some 7)).2 (intKey (1 : BitVec (8 * KeyType.int32.keyLen))) = .ok 7 :=
  ⟨_, rfl, ⟨by decide, Or.inl rfl⟩,
    ((intTable_set_get_iff .int32 (.hash32 fun _ _ => 0) 1 0 _ rfl [] 1 7).mpr
      ⟨by decide, Or.inl rfl⟩).1⟩

/-- The key `0` is accepted and lost, and it hides the key that is set after it. -/
theorem intTable_zero_key_lost :
    ∃ ht : Table Nat, inaHashtableNew .int32 (.hash32 fun _ _ => 0) 1 0 = .ok ht ∧
      (inaHashtableSet ht (intKey (0 : BitVec 32)) (some 7)).1 = .ok () ∧
      inaHashtableGet (inaHashtableSet ht (intKey (0 : BitVec 32)) (some 7)).2
        (intKey (0 : BitVec 32)) = .error .notFound ∧
      inaHashtableGet (inaHashtableSet (inaHashtableSet ht (intKey (0 : BitVec 32)) (some 7)).2
        (intKey (1 : BitVec 32)) (some 8)).2 (intKey (1 : BitVec 32)) = .error .notFound :=
  ⟨_, rfl, rfl, rfl, rfl⟩

end Hashtable
end Inac
