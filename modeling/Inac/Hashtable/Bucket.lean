import Mathlib.Data.List.TakeWhile
import Inac.Hashtable.Defs
import Inac.Lib.Slots

/-!
# What a scan sees

The three scans of the table stop at the first node whose `key.u32` is zero or at `count`,
whichever comes first. So they all work on one list, the **visible** nodes of the bucket, and
this file says what each of them finds there. Past this file no proof opens a scan.

`Bucket.lookup` is the reading of a bucket that `ina_hashtable_get` reports
(`inaHashtableGet_eq`); it is what the abstraction of the table to a map is built from.

The lemmas come in pairs, one for a scan that finds something and one for a scan that does not, and
all of them split the visible nodes at the node that matters: `l ++ n :: r`. The updates are
inverted in the same form (`SetEffect`, `Bucket.remove_some`): which node has changed, what it was
and what the counter has been given. Invariants are then about lists that differ in one node.
-/

namespace Inac
namespace Hashtable

open Lib

variable {δ : Type}

/-- The nodes of a bucket that were ever filled since the last clear. -/
def Bucket.used (b : Bucket δ) : List (Node δ) := b.nodes.take b.count

/-- The part of an array a scan at index `j` still gets to see. -/
def visibleFrom (count : Nat) (nodes : List (Node δ)) (j : Nat) : List (Node δ) :=
  (nodes.take (count - j)).takeWhile fun n => n.u32 ≠ 0

/-- The nodes a scan gets to see. -/
def Bucket.visible (b : Bucket δ) : List (Node δ) := visibleFrom b.count b.nodes 0

/-- The data a bucket answers a key with. -/
def Bucket.lookup (b : Bucket δ) (key : List UInt8) : Option δ :=
  Slots.lookup Node.keyIs Node.data b.visible key

/-- The bounds every bucket keeps: the used nodes are allocated, and an allocated array has a
    node to spare. -/
structure Bucket.Ok (b : Bucket δ) : Prop where
  count_le : b.count ≤ b.max
  length : b.max = 0 ∨ b.nodes.length = b.max + 1

theorem visibleFrom_cons {count j : Nat} {n : Node δ} {rest : List (Node δ)}
    (h : n.u32 ≠ 0 ∧ j < count) :
    visibleFrom count (n :: rest) j = n :: visibleFrom count rest (j + 1) := by
  obtain ⟨hu, hj⟩ := h
  unfold visibleFrom
  rw [show count - j = count - (j + 1) + 1 by omega, List.take_succ_cons,
    List.takeWhile_cons_of_pos (by simpa using hu)]

theorem visibleFrom_stop {count j : Nat} {n : Node δ} {rest : List (Node δ)}
    (h : ¬ (n.u32 ≠ 0 ∧ j < count)) : visibleFrom count (n :: rest) j = [] := by
  unfold visibleFrom
  by_cases hj : j < count
  · rw [show count - j = count - (j + 1) + 1 by omega, List.take_succ_cons,
      List.takeWhile_cons_of_neg (by simpa using fun hu => h ⟨hu, hj⟩)]
  · rw [show count - j = 0 by omega, List.take_zero, List.takeWhile_nil]

@[simp] theorem visibleFrom_nil (count j : Nat) :
    visibleFrom count ([] : List (Node δ)) j = [] := by
  simp [visibleFrom]

theorem Bucket.visible_eq (b : Bucket δ) :
    b.visible = b.used.takeWhile fun n => n.u32 ≠ 0 := rfl

theorem Bucket.u32_ne_zero {b : Bucket δ} {n : Node δ} (h : n ∈ b.visible) : n.u32 ≠ 0 := by
  simpa using List.mem_takeWhile_imp h

/-! ## `get` and `remove`

Both look for the first node of the key that has data, so a node that `remove` has vacated does not
hide a later one. -/

theorem liveScan_some {key : List UInt8} {count : Nat} :
    ∀ {nodes : List (Node δ)} {j i : Nat} {d : δ}, liveScan key count nodes j = some (i, d) →
      ∃ l n r, visibleFrom count nodes j = l ++ n :: r ∧ i = j + l.length ∧
        n.keyIs key = true ∧ n.data = some d ∧ Slots.lookup Node.keyIs Node.data l key = none
  | [], _, _, _, h => by simp [liveScan] at h
  | next :: rest, j, i, d, h => by
    rw [liveScan] at h
    by_cases hc : next.u32 ≠ 0 ∧ j < count
    · rw [if_pos hc] at h
      -- Either this node is the answer, or it contributes nothing and the scan moves on.
      have hmove : (if next.keyIs key then next.data else none) = none →
          liveScan key count rest (j + 1) = some (i, d) →
          ∃ l n r, visibleFrom count (next :: rest) j = l ++ n :: r ∧ i = j + l.length ∧
            n.keyIs key = true ∧ n.data = some d ∧
            Slots.lookup Node.keyIs Node.data l key = none := by
        intro hnone hrest
        obtain ⟨l, n, r, hvis, hi, hn, hd, hl⟩ := liveScan_some hrest
        refine ⟨next :: l, n, r, by rw [visibleFrom_cons hc, hvis]; rfl, ?_, hn, hd, ?_⟩
        · rw [hi, List.length_cons]; omega
        · rw [Slots.lookup_cons, hnone, hl]; rfl
      cases hdata : next.data with
      | none =>
        rw [hdata] at h
        exact hmove (by simp [hdata]) h
      | some d' =>
        rw [hdata] at h
        by_cases hk : next.keyIs key = true
        · simp only [hk, if_true, Option.some.injEq, Prod.mk.injEq] at h
          obtain ⟨rfl, rfl⟩ := h
          exact ⟨[], next, _, visibleFrom_cons hc, rfl, hk, hdata, rfl⟩
        · simp only [hk] at h
          exact hmove (by simp [hk]) h
    · rw [if_neg hc] at h
      exact absurd h (by simp)

theorem liveScan_none {key : List UInt8} {count : Nat} :
    ∀ {nodes : List (Node δ)} {j : Nat}, liveScan key count nodes j = none →
      Slots.lookup Node.keyIs Node.data (visibleFrom count nodes j) key = none
  | [], _, _ => by simp
  | next :: rest, j, h => by
    rw [liveScan] at h
    by_cases hc : next.u32 ≠ 0 ∧ j < count
    · rw [if_pos hc] at h
      rw [visibleFrom_cons hc, Slots.lookup_cons]
      cases hdata : next.data with
      | none =>
        rw [hdata] at h
        simp [liveScan_none h]
      | some d' =>
        rw [hdata] at h
        by_cases hk : next.keyIs key = true
        · simp [hk] at h
        · simp only [hk] at h
          simp [hk, liveScan_none h]
    · rw [visibleFrom_stop hc]; rfl

/-- **`get` reports the bucket's reading of the key.** -/
theorem inaHashtableGet_eq (ht : Table δ) (key : List UInt8) :
    inaHashtableGet ht key =
      match (ht.bucketAt (ht.inaBucket key)).lookup key with
      | some d => .ok d
      | none => .error .notFound := by
  unfold inaHashtableGet Bucket.lookup Bucket.visible
  dsimp only
  cases hs : liveScan key (ht.bucketAt (ht.inaBucket key)).count
      (ht.bucketAt (ht.inaBucket key)).nodes 0 with
  | none => rw [liveScan_none hs]
  | some id =>
    obtain ⟨i, d⟩ := id
    obtain ⟨l, n, r, hvis, -, hn, hd, hl⟩ := liveScan_some hs
    rw [hvis, Slots.lookup_append, Slots.lookup_cons, hl, hn, hd]
    rfl

/-! ## `set`

The scan goes on past vacant nodes, and remembers the last of them. It stops at the first node of
the key, vacant or not. -/

theorem setScan_found {key : List UInt8} {count : Nat} :
    ∀ {nodes : List (Node δ)} {j : Nat} {free : Option Nat} {i : Nat},
      setScan key count nodes j free = .found i →
      ∃ l n r, visibleFrom count nodes j = l ++ n :: r ∧ i = j + l.length ∧
        n.keyIs key = true ∧ ∀ a ∈ l, a.keyIs key = false
  | [], _, _, _, h => by simp [setScan] at h
  | next :: rest, j, free, i, h => by
    rw [setScan] at h
    by_cases hc : next.u32 ≠ 0 ∧ j < count
    · rw [if_pos hc] at h
      by_cases hk : next.keyIs key = true
      · rw [if_pos hk, SetScan.found.injEq] at h
        exact ⟨[], next, _, visibleFrom_cons hc, by simp [h], hk, by simp⟩
      · rw [if_neg hk] at h
        obtain ⟨l, n, r, hvis, hi, hn, hl⟩ := setScan_found h
        refine ⟨next :: l, n, r, by rw [visibleFrom_cons hc, hvis]; rfl, ?_, hn, ?_⟩
        · rw [hi, List.length_cons]; omega
        · intro a ha
          rcases List.mem_cons.mp ha with rfl | ha
          · simpa using hk
          · exact hl a ha
    · rw [if_neg hc] at h
      exact absurd h (by simp)

/-- A scan that finds no node of the key has looked at every visible node, and ends with one of
    the vacant ones if there is any. -/
theorem setScan_miss {key : List UInt8} {count : Nat} :
    ∀ {nodes : List (Node δ)} {j : Nat} {free f : Option Nat},
      setScan key count nodes j free = .miss f →
      (∀ a ∈ visibleFrom count nodes j, a.keyIs key = false) ∧
      ((f = free ∧ ∀ a ∈ visibleFrom count nodes j, a.data ≠ none) ∨
        ∃ l n r, visibleFrom count nodes j = l ++ n :: r ∧ f = some (j + l.length) ∧
          n.data = none)
  | [], _, _, _, h => by
    rw [setScan, SetScan.miss.injEq] at h
    simp [h]
  | next :: rest, j, free, f, h => by
    rw [setScan] at h
    by_cases hc : next.u32 ≠ 0 ∧ j < count
    · rw [if_pos hc] at h
      -- A node of the key would have been found.
      by_cases hk : next.keyIs key = true
      · rw [if_pos hk] at h
        exact absurd h (by simp)
      · rw [if_neg hk] at h
        obtain ⟨hmiss, hfree⟩ := setScan_miss h
        rw [visibleFrom_cons hc]
        refine ⟨List.forall_mem_cons.mpr ⟨by simpa using hk, hmiss⟩, ?_⟩
        rcases hfree with ⟨hf, hall⟩ | ⟨l, n, r, hvis, hf, hn⟩
        · cases hdata : next.data with
          | none =>
            rw [hdata] at hf
            exact Or.inr ⟨[], next, _, rfl, by simpa using hf, hdata⟩
          | some d =>
            rw [hdata] at hf
            exact Or.inl ⟨by simpa using hf, List.forall_mem_cons.mpr ⟨by simp [hdata], hall⟩⟩
        · refine Or.inr ⟨next :: l, n, r, by rw [hvis]; rfl, ?_, hn⟩
          rw [hf, List.length_cons]
          congr 1
          omega
    · rw [if_neg hc, SetScan.miss.injEq] at h
      rw [visibleFrom_stop hc]
      simp [h]

/-! ## Growth

The larger array begins with the nodes of the old one, so nothing that is used or visible changes.
The new nodes are zero, and the last one is never used: there is always a node to spare for the scan
to stop at. -/

theorem Bucket.Ok.grow {b : Bucket δ} (h : b.Ok) : b.grow.Ok := by
  unfold Bucket.grow
  split
  · have hle : (b.nodes.take b.max).length ≤ b.max := List.length_take_le _ _
    refine ⟨by have := h.count_le; simp only; omega, Or.inr ?_⟩
    simp only [List.length_append, List.length_replicate]
    omega
  · exact h

theorem Bucket.Ok.count_lt_grow {b : Bucket δ} (h : b.Ok) :
    b.grow.count < b.grow.max ∧ b.grow.count < b.grow.nodes.length := by
  have hlt : b.grow.count < b.grow.max := by
    have := h.count_le
    unfold Bucket.grow
    split
    · simp only [bucketSize]; omega
    · omega
  refine ⟨hlt, ?_⟩
  rcases h.grow.length with h0 | h0 <;> omega

theorem Bucket.Ok.grow_used {b : Bucket δ} (h : b.Ok) : b.grow.used = b.used := by
  unfold Bucket.grow
  split
  · unfold Bucket.used
    rcases h.length with h0 | h0
    · have hc : b.count = 0 := by have := h.count_le; omega
      simp [hc]
    · have hmax : b.count ≤ (b.nodes.take b.max).length := by
        have := h.count_le
        rw [List.length_take]; omega
      simp only
      rw [List.take_append_of_le_length hmax, List.take_take, Nat.min_eq_left h.count_le]
  · rfl

theorem Bucket.Ok.grow_visible {b : Bucket δ} (h : b.Ok) : b.grow.visible = b.visible := by
  rw [Bucket.visible_eq, h.grow_used, ← Bucket.visible_eq]

/-! ## What the three updates do to a bucket -/

/-- The used nodes behind the first one whose `key.u32` is zero, that one included. -/
def Bucket.hidden (b : Bucket δ) : List (Node δ) := b.used.dropWhile fun n => n.u32 ≠ 0

theorem Bucket.used_eq (b : Bucket δ) : b.used = b.visible ++ b.hidden :=
  List.takeWhile_append_dropWhile.symm

theorem Bucket.used_of_visible {b : Bucket δ} {l r : List (Node δ)} {n : Node δ}
    (hvis : b.visible = l ++ n :: r) : b.used = l ++ n :: (r ++ b.hidden) := by
  rw [b.used_eq, hvis, List.append_assoc, List.cons_append]

theorem modify_middle {α : Type} (f : α → α) (a : α) (r : List α) :
    ∀ l : List α, (l ++ a :: r).modify l.length f = l ++ f a :: r
  | [] => rfl
  | b :: l => by
    rw [List.cons_append, List.length_cons, List.modify_succ_cons, modify_middle f a r l]; rfl

theorem take_modify_middle {α : Type} {nodes l r : List α} {a : α} {count : Nat} (f : α → α)
    (h : nodes.take count = l ++ a :: r) :
    (nodes.modify l.length f).take count = l ++ f a :: r := by
  rw [List.take_modify, h, modify_middle]

theorem Bucket.remove_none {b : Bucket δ} {key : List UInt8} (h : b.remove key = none) :
    b.lookup key = none := by
  unfold Bucket.remove at h
  split at h
  · exact absurd h (by simp)
  · rename_i hs; exact liveScan_none hs

/-- **`remove`, inverted**: it vacates the first node of the key that has data. -/
theorem Bucket.remove_some {b b' : Bucket δ} {key : List UInt8} {d : δ}
    (h : b.remove key = some (d, b')) :
    ∃ l n r, b.visible = l ++ n :: r ∧ n.keyIs key = true ∧ n.data = some d ∧
      Slots.lookup Node.keyIs Node.data l key = none ∧
      b'.used = l ++ { n with data := none } :: (r ++ b.hidden) ∧
      b'.count = b.count ∧ b'.max = b.max ∧ b'.nodes.length = b.nodes.length := by
  unfold Bucket.remove at h
  split at h
  · rename_i j d' hs
    simp only [Option.some.injEq, Prod.mk.injEq] at h
    obtain ⟨rfl, rfl⟩ := h
    obtain ⟨l, n, r, hvis, hj, hn, hd, hl⟩ := liveScan_some hs
    refine ⟨l, n, r, hvis, hn, hd, hl, ?_, rfl, rfl, List.length_modify _ _ _⟩
    rw [show j = l.length by omega]
    exact take_modify_middle _ (Bucket.used_of_visible hvis)
  · exact absurd h (by simp)

/-- What one `set` does to the used nodes of a bucket, and to the counter. -/
inductive SetEffect (b : Bucket δ) (key : List UInt8) (d : δ) (used : List (Node δ)) (inc : Int) :
    Prop
  -- the first node of the key takes the data, whether it was vacant or not
  | found (l r : List (Node δ)) (n : Node δ) (hvis : b.visible = l ++ n :: r)
      (hn : n.keyIs key = true) (hl : ∀ a ∈ l, a.keyIs key = false)
      (hused : used = l ++ { n with data := some d } :: (r ++ b.hidden)) (hinc : inc = 0)
  -- a vacant node is taken over
  | reuse (l r : List (Node δ)) (n : Node δ) (hvis : b.visible = l ++ n :: r)
      (hmiss : ∀ a ∈ b.visible, a.keyIs key = false) (hvac : n.data = none)
      (hused : used = l ++ n.store key d :: (r ++ b.hidden)) (hinc : inc = 1)
  -- no visible node is vacant, and a node is added behind **all** used ones
  | append (n : Node δ) (hmiss : ∀ a ∈ b.visible, a.keyIs key = false)
      (hfull : ∀ a ∈ b.visible, a.data ≠ none)
      (hused : used = b.used ++ [n.store key d]) (hinc : inc = 1)

/-- **`set`, inverted.** -/
theorem Bucket.Ok.set_effect {b : Bucket δ} (h : b.Ok) (key : List UInt8) (d : δ) :
    SetEffect b key d (b.set key d).1.used (b.set key d).2 ∧ (b.set key d).1.Ok := by
  have hvg : visibleFrom b.grow.count b.grow.nodes 0 = b.visible := h.grow_visible
  have hused : ∀ {l r : List (Node δ)} {n : Node δ}, b.visible = l ++ n :: r →
      b.grow.used = l ++ n :: (r ++ b.hidden) := by
    intro l r n hv
    rw [h.grow_used, Bucket.used_of_visible hv]
  -- A node that is written to is one of the array, which is as long as before.
  have hok : ∀ (j : Nat) (f : Node δ → Node δ),
      ({ b.grow with nodes := b.grow.nodes.modify j f } : Bucket δ).Ok := fun j f =>
    ⟨h.grow.count_le, by rw [List.length_modify]; exact h.grow.length⟩
  unfold Bucket.set
  dsimp only
  cases hs : setScan key b.grow.count b.grow.nodes 0 none with
  | found j =>
    obtain ⟨l, n, r, hvis, hj, hn, hl⟩ := setScan_found hs
    rw [hvg] at hvis
    refine ⟨.found l r n hvis hn hl ?_ rfl, hok _ _⟩
    rw [show j = l.length by omega]
    exact take_modify_middle _ (hused hvis)
  | miss f =>
    obtain ⟨hmiss, hcase⟩ := setScan_miss hs
    rw [hvg] at hmiss hcase
    rcases hcase with ⟨rfl, hfull⟩ | ⟨l, n, r, hvis, rfl, hn⟩
    · -- No node is vacant: the one behind the last is taken, and there is one after the growth.
      obtain ⟨hmax, hlen⟩ := h.count_lt_grow
      refine ⟨.append (b.grow.nodes.get ⟨b.grow.count, hlen⟩) hmiss hfull ?_ rfl, ⟨hmax, ?_⟩⟩
      · rw [← h.grow_used]
        unfold Bucket.used
        dsimp only
        rw [List.modify_eq_take_cons_drop hlen]
        have hl : (List.take b.grow.count b.grow.nodes).length = b.grow.count := by
          rw [List.length_take]; omega
        rw [List.take_append, hl, List.take_of_length_le (by omega),
          show b.grow.count + 1 - b.grow.count = 1 by omega]
        rfl
      · dsimp only
        rw [List.length_modify]
        exact h.grow.length
    · refine ⟨.reuse l r n hvis hmiss hn ?_ rfl, hok _ _⟩
      dsimp only
      rw [show 0 + l.length = l.length by omega]
      exact take_modify_middle _ (hused hvis)

end Hashtable
end Inac
