import Inac.Hashtable.Iter

/-!
# Pointers under their own address

A table that is only ever given a pointer under the pointer's own address is a set of pointers. When
the low word of every address is not zero nothing is hidden, so a `set` finds the node of a pointer
that is there already, and leaves the table as it is; any other pointer gets a node of its own. The
iteration then passes every pointer once.

This is how the process pools keep their processes. A pointer is both key and data, so a node says
of itself where it belongs (`OwnNode`), and a `set` of a pointer that is there writes what is there.
-/

namespace Inac
namespace Hashtable

/-- The address of an object. -/
abbrev Addr := BitVec 64

/-! ## Replacing one bucket -/

theorem flatMap_set_perm {α β : Type} {f : α → List β} {b : α} {extra : List β} {l : List α}
    {i : Nat} (hi : i < l.length) (h : (f b).Perm (extra ++ f l[i])) :
    ((l.set i b).flatMap f).Perm (extra ++ l.flatMap f) := by
  induction l generalizing i with
  | nil => exact absurd hi (Nat.not_lt_zero i)
  | cons a l ih =>
    cases i with
    | zero =>
      rw [List.set_cons_zero, List.flatMap_cons, List.flatMap_cons, ← List.append_assoc]
      exact h.append_right _
    | succ i =>
      have hrest := ih (Nat.lt_of_succ_lt_succ hi) h
      rw [List.set_cons_succ, List.flatMap_cons, List.flatMap_cons]
      calc (f a ++ (l.set i b).flatMap f).Perm (f a ++ (extra ++ l.flatMap f)) :=
            hrest.append_left _
        _ = f a ++ extra ++ l.flatMap f := (List.append_assoc _ _ _).symm
        (f a ++ extra ++ l.flatMap f).Perm (extra ++ f a ++ l.flatMap f) :=
            List.perm_append_comm.append_right _
        _ = extra ++ (f a ++ l.flatMap f) := List.append_assoc _ _ _

/-- A changed bucket changes what an iteration yields by what it adds itself. -/
theorem Table.Ok.yields_setBucket {δ : Type} {ht : Table δ} (h : ht.Ok) (key : List UInt8)
    {b : Bucket δ} (extra : List δ) (c : Int)
    (hb : (dataOf b.used).Perm (extra ++ dataOf (ht.bucketAt (ht.inaBucket key)).used)) :
    ({ ht.setBucket (ht.inaBucket key) b with count := c } : Table δ).yields.Perm
      (extra ++ ht.yields) := by
  have hlt : ht.inaBucket key < ht.capacity := HashFn.bucket_lt ht.hashFn h.capacity_pos key
  have hlen : ht.inaBucket key < (ht.buckets.take ht.capacity).length := by
    rw [List.length_take, h.length]
    omega
  have hin := h.bucket_lt key
  rw [Table.yields_eq, Table.yields_eq]
  show (((ht.buckets.set (ht.inaBucket key) b).take ht.capacity).flatMap _).Perm _
  rw [List.take_set]
  refine flatMap_set_perm hlen ?_
  rw [List.getElem_take, ← ht.bucketAt_eq_getElem hin]
  exact hb

theorem Table.Ok.mem_yields {δ : Type} {ht : Table δ} (h : ht.Ok) {d : δ} :
    d ∈ ht.yields ↔ ∃ i < ht.capacity, ∃ n ∈ (ht.bucketAt i).used, n.data = some d := by
  rw [Table.yields_eq, List.mem_flatMap]
  constructor
  · rintro ⟨b, hb, hd⟩
    obtain ⟨i, hi, rfl⟩ := List.mem_take_iff_getElem.mp hb
    obtain ⟨n, hn, hdata⟩ := List.mem_filterMap.mp hd
    exact ⟨i, by omega, n, by rw [ht.bucketAt_eq_getElem (by omega)]; exact hn, hdata⟩
  · rintro ⟨i, hi, n, hn, hdata⟩
    have hlen : i < ht.buckets.length := by
      rw [h.length]
      omega
    refine ⟨ht.bucketAt i, ?_, List.mem_filterMap.mpr ⟨n, hn, hdata⟩⟩
    rw [ht.bucketAt_eq_getElem hlen]
    exact List.mem_take_iff_getElem.mpr ⟨i, by omega, rfl⟩

/-! ## The invariant

A table that owns its pointers yields them, each once, and hides none. -/

/-- The node of a pointer, in the bucket of its address. -/
def Table.OwnNode (ht : Table Addr) (i : Nat) (n : Node Addr) : Prop :=
  ∃ p, n.data = some p ∧ n.key.take 8 = intKey p ∧ n.u32 ≠ 0 ∧ ht.inaBucket (intKey p) = i

/-- The table holds the pointers of `l`, each under its own address. -/
structure Table.Owns (ht : Table Addr) (l : List Addr) : Prop where
  ok : ht.Ok
  yields : ht.yields.Perm l
  count : ht.count = l.length
  own : ∀ i, ∀ n ∈ (ht.bucketAt i).used, ht.OwnNode i n

theorem length_addrKey (p : Addr) : (intKey p).length = 8 := length_intKey (n := 8) p

theorem addrKey_inj {p q : Addr} (h : intKey p = intKey q) : p = q := intKey_inj (n := 8) h

theorem lowWord_addrKey (p : Addr) : lowWord (intKey p) = p.toNat % 2 ^ 32 :=
  lowWord_intKey (n := 8) (by decide) p

theorem keyIs_addrKey {n : Node Addr} {p : Addr} :
    n.keyIs (intKey p) = true ↔ n.key.take 8 = intKey p := by
  rw [Node.keyIs, length_addrKey, beq_iff_eq]

theorem Table.OwnNode.data_of_keyIs {ht : Table Addr} {i : Nat} {n : Node Addr} {p : Addr}
    (h : ht.OwnNode i n) (hkey : n.keyIs (intKey p) = true) : n.data = some p := by
  obtain ⟨q, hdata, hq, -, -⟩ := h
  rw [keyIs_addrKey, hq] at hkey
  rw [hdata, addrKey_inj hkey]

theorem Table.Owns.visible {ht : Table Addr} {l : List Addr} (h : ht.Owns l) (i : Nat) :
    (ht.bucketAt i).visible = (ht.bucketAt i).used := by
  rw [Bucket.visible_eq, List.takeWhile_eq_self_iff]
  intro n hn
  obtain ⟨-, -, -, hlow, -⟩ := h.own i n hn
  simpa using hlow

/-- A pointer of the list has a node in the bucket of its address. -/
theorem Table.Owns.node {ht : Table Addr} {l : List Addr} (h : ht.Owns l) {p : Addr} (hp : p ∈ l) :
    ∃ n ∈ (ht.bucketAt (ht.inaBucket (intKey p))).used, n.keyIs (intKey p) = true := by
  obtain ⟨i, -, n, hn, hdata⟩ := h.ok.mem_yields.mp (h.yields.mem_iff.mpr hp)
  obtain ⟨q, hq, hkey, -, hbucket⟩ := h.own i n hn
  have hpq : p = q := Option.some.inj (hdata.symm.trans hq)
  subst hpq
  rw [hbucket]
  exact ⟨n, hn, keyIs_addrKey.mpr hkey⟩

theorem Table.Owns.new {hashFn : HashFn} {capacity cf : Nat} {ht : Table Addr}
    (hnew : inaHashtableNew .ptr hashFn capacity cf = .ok ht) : ht.Owns [] where
  ok := Table.Ok.new hnew
  yields := by
    rw [Table.yields_new hnew]
  count := by
    unfold inaHashtableNew at hnew
    split at hnew
    · cases hnew
      rfl
    · cases hnew
  own := by
    intro i n hn
    rw [(bucketAt_new_ok hnew i).2] at hn
    exact absurd hn List.not_mem_nil

/-! ## One `set` -/

/-- What a `set` of a pointer under its own address does to the bucket of the address. -/
theorem Table.Owns.bucket_set {ht : Table Addr} {l : List Addr} (h : ht.Owns l) (p : Addr) :
    let b := ht.bucketAt (ht.inaBucket (intKey p))
    let r := b.set (intKey p) p
    r.1.Ok ∧
      (p ∈ l ∧ r.1.used = b.used ∧ r.2 = 0 ∨
        p ∉ l ∧ (∃ n : Node Addr, r.1.used = b.used ++ [n.store (intKey p) p]) ∧ r.2 = 1) := by
  intro b r
  have hvis : b.visible = b.used := h.visible _
  have hown : ∀ n ∈ b.used, ht.OwnNode (ht.inaBucket (intKey p)) n := h.own _
  have hmiss_of : (∀ a ∈ b.visible, a.keyIs (intKey p) = false) → p ∉ l := by
    intro hmiss hp
    obtain ⟨n, hn, hkey⟩ := h.node hp
    rw [hmiss n (hvis ▸ hn)] at hkey
    exact Bool.noConfusion hkey
  obtain ⟨heff, hok⟩ := (h.ok.bucket_ok (ht.inaBucket (intKey p))).set_effect (intKey p) p
  refine ⟨hok, ?_⟩
  cases heff with
  -- The node that is found has the pointer as its key, so it has it as its data already.
  | found l₁ l₂ n hsplit hkey _ hused hinc =>
    have hmem : n ∈ b.used := by
      rw [← hvis, hsplit]
      simp
    have hdata : n.data = some p := (hown n hmem).data_of_keyIs hkey
    have hsame : ({ n with data := some p } : Node Addr) = n := by rw [← hdata]
    refine .inl ⟨?_, ?_, hinc⟩
    · have hlt := HashFn.bucket_lt ht.hashFn h.ok.capacity_pos (intKey p)
      exact h.yields.mem_iff.mp (h.ok.mem_yields.mpr ⟨_, hlt, n, hmem, hdata⟩)
    · rw [hused, hsame]
      exact (Bucket.used_of_visible hsplit).symm
  -- No node is vacant, as nothing is ever removed.
  | reuse l₁ l₂ n hsplit _ hvac _ _ =>
    have hmem : n ∈ b.used := by
      rw [← hvis, hsplit]
      simp
    obtain ⟨q, hdata, -⟩ := hown n hmem
    rw [hvac] at hdata
    exact nomatch hdata
  | append n hmiss _ hused hinc => exact .inr ⟨hmiss_of hmiss, ⟨n, hused⟩, hinc⟩

theorem store_take {n : Node Addr} {p : Addr} :
    (n.store (intKey p) p).key.take 8 = intKey p := by
  rw [Node.store, List.take_append_of_le_length (Nat.le_of_eq (length_addrKey p).symm),
    List.take_of_length_le (Nat.le_of_eq (length_addrKey p))]

/-- A bucket whose used nodes are its own, put in the place of the address. -/
theorem Table.Owns.setBucket {ht : Table Addr} {l l' : List Addr} (h : ht.Owns l) {p : Addr}
    {b : Bucket Addr} {c : Int} (hb : b.Ok)
    (hyields : ({ ht.setBucket (ht.inaBucket (intKey p)) b with count := c } : Table Addr).yields.Perm
      l') (hcount : c = l'.length)
    (hown : ∀ n ∈ b.used, ht.OwnNode (ht.inaBucket (intKey p)) n) :
    ({ ht.setBucket (ht.inaBucket (intKey p)) b with count := c } : Table Addr).Owns l' where
  ok := h.ok.setBucket (h.ok.bucket_lt _) hb
  yields := hyields
  count := hcount
  own := by
    intro i n hn
    change n ∈ ((ht.setBucket (ht.inaBucket (intKey p)) b).bucketAt i).used at hn
    rw [Table.bucketAt_setBucket (h.ok.bucket_lt _)] at hn
    by_cases hi : i = ht.inaBucket (intKey p)
    · rw [if_pos hi] at hn
      rw [hi]
      exact hown n hn
    · rw [if_neg hi] at hn
      exact h.own i n hn

/-- **A pointer that is there already changes nothing, any other gets a node of its own.** -/
theorem Table.Owns.set {ht : Table Addr} {l : List Addr} (h : ht.Owns l) {p : Addr}
    (hlow : p.toNat % 2 ^ 32 ≠ 0) :
    (inaHashtableSet ht (intKey p) (some p)).2.Owns (if p ∈ l then l else p :: l) := by
  obtain ⟨hok, ⟨hp, hused, hinc⟩ | ⟨hp, ⟨n, hused⟩, hinc⟩⟩ := h.bucket_set p
  · rw [if_pos hp]
    refine h.setBucket hok ?_ ?_ ?_
    · refine (h.ok.yields_setBucket (intKey p) [] _ ?_).trans h.yields
      rw [hused]
      exact List.Perm.refl _
    · rw [hinc, Int.add_zero, h.count]
    · rw [hused]
      exact h.own _
  · rw [if_neg hp]
    refine h.setBucket hok ?_ ?_ ?_
    · refine (h.ok.yields_setBucket (intKey p) [p] _ ?_).trans (h.yields.cons p)
      rw [hused, dataOf, List.filterMap_append]
      exact List.perm_append_comm
    · rw [hinc, h.count, List.length_cons]
      rfl
    · intro m hm
      rw [hused] at hm
      rcases List.mem_append.mp hm with hm | hm
      · exact h.own _ m hm
      · rw [List.mem_singleton.mp hm]
        refine ⟨p, rfl, store_take, ?_, rfl⟩
        exact Node.store_u32_ne_zero (by rw [lowWord_addrKey]; exact hlow) n p

/-- The pointer is read back under its address. -/
theorem Table.Owns.get {ht : Table Addr} {l : List Addr} (h : ht.Owns l) {p : Addr} (hp : p ∈ l) :
    inaHashtableGet ht (intKey p) = .ok p := by
  obtain ⟨n, hn, hkey⟩ := h.node hp
  have hread : ht.read (intKey p) = some p := by
    rw [Table.read, Bucket.lookup, h.visible]
    cases hlook : Lib.Slots.lookup Node.keyIs Node.data
        (ht.bucketAt (ht.inaBucket (intKey p))).used (intKey p) with
    | none =>
      have hnone := List.findSome?_eq_none_iff.mp hlook n hn
      rw [if_pos hkey, (h.own _ n hn).data_of_keyIs hkey] at hnone
      cases hnone
    | some q =>
      obtain ⟨m, hm, hq⟩ := List.exists_of_findSome?_eq_some hlook
      by_cases hmkey : m.keyIs (intKey p) = true
      · rw [if_pos hmkey, (h.own _ m hm).data_of_keyIs hmkey] at hq
        exact hq.symm
      · rw [if_neg hmkey] at hq
        cases hq
  rw [inaHashtableGet_read, hread]
  rfl

end Hashtable
end Inac
