import Mathlib.Data.List.Perm.Basic
import Inac.LinkedList.Foreach

/-!
# Sorting

`ina_list_sort` is a merge sort that relinks the nodes in place: `__ina_split` walks to the middle
with a fast and a slow pointer and cuts the chain there, `__ina_merge` takes the smaller of two
heads and puts it in front of the merge of the rest.

Along `next` the result is what it should be (`sort_sorts`). The merge also keeps `prev`, of every
node but the first: that one gets `NULL`, at every level of the recursion, and nothing puts the
tail there again. So after a sort of two or more nodes the list has lost its tail
(`sort_keeps_list_iff`).
-/

namespace Inac
namespace LinkedList

open Lib

variable {δ : Type}

/-! ## The code

The recursions and the loop go on one fuel, for which the number of nodes is enough. -/

/-- `compare_fn`, on what the nodes hold. -/
abbrev Compare (δ : Type) : Type := Option δ → Option δ → Int

/-- The loop of `__ina_split`: where the slow pointer stops. -/
def splitLoop (h : Heap δ) : Nat → Nat → Nat → Except Out Nat
  | fuel, fast, slow =>
    match (h.next fast).bind h.next with
    | none => .ok slow
    | some fast =>
      match fuel, h.next slow with
      | 0, _ => .error .hang
      | _, none => .error .fault
      | fuel + 1, some slow => splitLoop h fuel fast slow

def inaSplit (fuel : Nat) (h : Heap δ) (head : Nat) : Except Out (Option Nat × Heap δ) :=
  match splitLoop h fuel head head with
  | .error o => .error o
  | .ok slow => .ok (h.next slow, h.setNext slow none)

/-- The assignments of either branch of `__ina_merge`, for the smaller head and the merge of the
    rest. -/
def putFirst (h : Heap δ) (n : Nat) (rest : Option Nat) : Except Out (Option Nat × Heap δ) :=
  let h := h.setNext n rest
  match rest with
  | none => .error .fault
  | some x => .ok (some n, (h.setPrev x (some n)).setPrev n none)

def inaMerge (compare : Compare δ) :
    Nat → Heap δ → Option Nat → Option Nat → Except Out (Option Nat × Heap δ)
  | _, h, none, second => .ok (second, h)
  | _, h, some first, none => .ok (some first, h)
  | 0, _, some _, some _ => .error .hang
  | fuel + 1, h, some first, some second =>
    -- pick the smaller value
    if compare (h.data first) (h.data second) < 0 then
      match inaMerge compare fuel h (h.next first) (some second) with
      | .error o => .error o
      | .ok r => putFirst r.2 first r.1
    else
      match inaMerge compare fuel h (some first) (h.next second) with
      | .error o => .error o
      | .ok r => putFirst r.2 second r.1

def inaMergesort (compare : Compare δ) :
    Nat → Heap δ → Option Nat → Except Out (Option Nat × Heap δ)
  | _, h, none => .ok (none, h)
  | 0, h, some head => if h.next head = none then .ok (some head, h) else .error .hang
  | fuel + 1, h, some head =>
    if h.next head = none then .ok (some head, h)
    else
      match inaSplit (fuel + 1) h head with
      | .error o => .error o
      | .ok second =>
        match inaMergesort compare fuel second.2 (some head) with
        | .error o => .error o
        | .ok head =>
          match inaMergesort compare fuel head.2 second.1 with
          | .error o => .error o
          | .ok second => inaMerge compare (fuel + 1) second.2 head.1 second.1

def inaListSort (fuel : Nat) (h : Heap δ) (l : Nat) (compare : Compare δ) : Out × Heap δ :=
  match inaMergesort compare fuel h (h.list l).head with
  | .error o => (o, h)
  | .ok r => (.rc (.ok ()), r.2.modify l fun list => { list with head := r.1 })

/-! ## Frames

All that changes is links of the nodes that are sorted. -/

/-- `h'` is `h` but for the links of the nodes `xs`. -/
structure Relinked (xs : List Nat) (h h' : Heap δ) : Prop where
  list : h'.list = h.list
  data : h'.data = h.data
  next : ∀ x, x ∉ xs → h'.next x = h.next x
  prev : ∀ x, x ∉ xs → h'.prev x = h.prev x

section Frames
variable {xs ys : List Nat} {h h' h'' : Heap δ} {n : Nat}

theorem Relinked.refl (xs : List Nat) (h : Heap δ) : Relinked xs h h :=
  ⟨rfl, rfl, fun _ _ => rfl, fun _ _ => rfl⟩

theorem Relinked.mono (hr : Relinked xs h h') (hsub : xs ⊆ ys) : Relinked ys h h' :=
  ⟨hr.list, hr.data, fun x hx => hr.next x fun hmem => hx (hsub hmem),
    fun x hx => hr.prev x fun hmem => hx (hsub hmem)⟩

theorem Relinked.trans (hr : Relinked xs h h') (hr' : Relinked xs h' h'') :
    Relinked xs h h'' :=
  ⟨hr'.list.trans hr.list, hr'.data.trans hr.data,
    fun x hx => (hr'.next x hx).trans (hr.next x hx),
    fun x hx => (hr'.prev x hx).trans (hr.prev x hx)⟩

theorem Relinked.setNext (hr : Relinked xs h h') (hn : n ∈ xs) (v : Option Nat) :
    Relinked xs h (h'.setNext n v) :=
  ⟨hr.list, hr.data, fun x hx => (Function.update_of_ne (ne_of_mem_of_not_mem hn hx).symm _
    _).trans (hr.next x hx), hr.prev⟩

theorem Relinked.setPrev (hr : Relinked xs h h') (hn : n ∈ xs) (v : Option Nat) :
    Relinked xs h (h'.setPrev n v) :=
  ⟨hr.list, hr.data, hr.next, fun x hx => (Function.update_of_ne
    (ne_of_mem_of_not_mem hn hx).symm _ _).trans (hr.prev x hx)⟩

/-- A chain of other nodes stays. -/
theorem Relinked.visits (hr : Relinked xs h h') {start : Option Nat}
    (hv : Visits h.next start ys) (hys : ∀ y ∈ ys, y ∉ xs) : Visits h'.next start ys :=
  hv.congr fun y hy => hr.next y (hys y hy)

end Frames

/-! ## `__ina_split`

The slow pointer makes one step for two of the fast one. Where it stops there is at least one node
before it and one behind, so both halves are shorter. -/

theorem splitLoop_spec {h : Heap δ} {fuel fast slow : Nat} {ys zs : List Nat}
    (hslow : Visits h.next (some slow) (slow :: ys))
    (hfast : Visits h.next (some fast) (fast :: zs)) (hle : zs.length ≤ ys.length)
    (hne : ys ≠ []) (hfuel : zs.length ≤ fuel) :
    ∃ as z bs, slow :: ys = as ++ z :: bs ∧ bs ≠ [] ∧ splitLoop h fuel fast slow = .ok z := by
  -- by the fuel: the fast pointer goes two nodes on, the slow one stays in front of as many
  induction fuel generalizing fast slow ys zs with
  | zero =>
    obtain rfl : zs = [] := List.length_eq_zero_iff.mp (Nat.le_zero.mp hfuel)
    refine ⟨[], slow, ys, rfl, hne, ?_⟩
    rw [splitLoop, hfast.next_eq]
    rfl
  | succ fuel ih =>
    rw [splitLoop, hfast.next_eq]
    match zs, hfast, hle, hfuel with
    | [], _, _, _ => exact ⟨[], slow, ys, rfl, hne, rfl⟩
    | [z], hfast, _, _ =>
      refine ⟨[], slow, ys, rfl, hne, ?_⟩
      rw [List.head?_cons, Option.bind_some, hfast.rest.next_eq]
      rfl
    | z :: z' :: zs, hfast, hle, hfuel =>
      obtain ⟨y, ys, rfl⟩ := List.exists_cons_of_ne_nil hne
      have hslow' := hslow.rest
      obtain rfl | hys := eq_or_ne ys []
      · exact absurd hle (by simp)
      · rw [hslow.next_eq] at hslow'
        have hfast' := hfast.rest.rest
        rw [hfast.rest.next_eq] at hfast'
        simp only [List.length_cons] at hle hfuel
        obtain ⟨as, v, bs, hsplit, hbs, hrun⟩ := ih hslow' hfast' (by omega) hys (by omega)
        refine ⟨slow :: as, v, bs, by rw [hsplit]; rfl, hbs, ?_⟩
        rw [List.head?_cons, Option.bind_some, hfast.rest.next_eq, hslow.next_eq]
        exact hrun

theorem split_spec {h : Heap δ} {fuel x : Nat} {xs : List Nat}
    (hv : Visits h.next (some x) (x :: xs)) (hnodup : (x :: xs).Nodup) (hne : xs ≠ [])
    (hfuel : xs.length ≤ fuel) :
    ∃ as bs h', x :: xs = x :: as ++ bs ∧ bs ≠ [] ∧ inaSplit fuel h x = .ok (bs.head?, h') ∧
      Visits h'.next (some x) (x :: as) ∧ Visits h'.next bs.head? bs ∧
      Relinked (x :: as) h h' := by
  obtain ⟨as, z, bs, hsplit, hbs, hrun⟩ := splitLoop_spec hv hv (Nat.le_refl _) hne hfuel
  rw [hsplit] at hv hnodup
  have hz : z ∉ as := fun hmem =>
    (List.nodup_append.mp hnodup).2.2 z hmem z List.mem_cons_self rfl
  have hzbs : z ∉ bs := (List.nodup_cons.mp (List.nodup_append.mp hnodup).2.1).1
  -- Cut behind `z`: the front ends there, and the back is untouched.
  have hfront := hv.cut hz
  have hfrom : Visits h.next (some z) (z :: bs) := hv.suffix
  have hrest := hfrom.rest
  rw [hfrom.next_eq] at hrest
  have hback := hrest.frame hzbs none
  have hnext : h.next z = bs.head? := hfrom.next_eq
  obtain ⟨as', has'⟩ : ∃ as', as ++ [z] = x :: as' := by
    obtain ⟨as', has'⟩ := List.head?_eq_some_iff.mp hfront.head.symm
    exact ⟨as', has'⟩
  rw [has'] at hfront
  refine ⟨as', bs, h.setNext z none, ?_, hbs, ?_, hfront, hback, ?_⟩
  · rw [hsplit, ← has', List.append_assoc]
    rfl
  · rw [inaSplit, hrun]
    dsimp only
    rw [hnext]
  · have hmem : z ∈ x :: as' := has' ▸ List.mem_append_right as List.mem_cons_self
    exact (Relinked.refl _ h).setNext hmem none

/-! ## `__ina_merge`

It is the `List.merge` of the two chains, with the arguments the other way round: of two nodes that
compare as equal it takes the second chain's first. -/

/-- The second head goes first: the comparison does not find the first one smaller. -/
def secondFirst (compare : Compare δ) (data : Nat → Option δ) (b a : Nat) : Bool :=
  decide (¬ compare (data a) (data b) < 0)

theorem putFirst_spec {h : Heap δ} {n : Nat} {m : List Nat} (hv : Visits h.next m.head? m)
    (hn : n ∉ m) (hne : m ≠ []) :
    ∃ h', putFirst h n m.head? = .ok (some n, h') ∧ Visits h'.next (some n) (n :: m) ∧
      Relinked (n :: m) h h' ∧ h'.prev n = none := by
  obtain ⟨x, m, rfl⟩ := List.exists_cons_of_ne_nil hne
  refine ⟨_, rfl, hv.push hn, ?_, Function.update_self _ _ _⟩
  have hx : x ∈ n :: x :: m := List.mem_cons_of_mem n List.mem_cons_self
  exact (((Relinked.refl _ h).setNext List.mem_cons_self _).setPrev hx (some n)).setPrev
    List.mem_cons_self none

/-- What a merge has done: it is the merge of the two chains, and where both had nodes, the first
    node's `prev` is `NULL`. -/
def Merged (compare : Compare δ) (h : Heap δ) (xs ys : List Nat)
    (r : Except Out (Option Nat × Heap δ)) : Prop :=
  ∃ h', r = .ok ((List.merge ys xs (secondFirst compare h.data)).head?, h') ∧
    Visits h'.next (List.merge ys xs (secondFirst compare h.data)).head?
      (List.merge ys xs (secondFirst compare h.data)) ∧
    Relinked (xs ++ ys) h h' ∧
    (xs ≠ [] → ys ≠ [] →
      ∀ z ∈ (List.merge ys xs (secondFirst compare h.data)).head?, h'.prev z = none)

/-- The step of the recursion: the smaller head `n` in front of the merge `m` of the rest. -/
theorem Merged.step {compare : Compare δ} {h h₁ : Heap δ} {xs ys m : List Nat} {n : Nat}
    (hm : List.merge ys xs (secondFirst compare h.data) = n :: m) (hne : m ≠ [])
    (hv : Visits h₁.next m.head? m) (hr : Relinked (xs ++ ys) h h₁) (hnodup : (xs ++ ys).Nodup) :
    Merged compare h xs ys (putFirst h₁ n m.head?) := by
  have hperm : (n :: m).Perm (ys ++ xs) := hm ▸ List.merge_perm_append _
  have hn : n ∉ m := (List.nodup_cons.mp
    (hperm.nodup_iff.mpr (List.nodup_append_comm.mp hnodup))).1
  have hsub : n :: m ⊆ xs ++ ys := fun z hz => by
    rw [List.mem_append, or_comm, ← List.mem_append]
    exact hperm.subset hz
  obtain ⟨h', hput, hvisits, hrel, hprev⟩ := putFirst_spec hv hn hne
  refine ⟨h', ?_, ?_, hr.trans (hrel.mono hsub), ?_⟩
  · rw [hm]
    exact hput
  · rw [hm]
    exact hvisits
  · rw [hm]
    intro _ _ z hz
    obtain rfl : n = z := Option.some.inj hz
    exact hprev

theorem merge_nil_left (compare : Compare δ) {h : Heap δ} {ys : List Nat}
    (hy : Visits h.next ys.head? ys) (fuel : Nat) :
    Merged compare h [] ys (inaMerge compare fuel h none ys.head?) := by
  have hm : List.merge ys [] (secondFirst compare h.data) = ys := List.merge_right _
  refine ⟨h, ?_, ?_, Relinked.refl _ h, fun hne => absurd rfl hne⟩
  · rw [inaMerge, hm]
  · rw [hm]
    exact hy

theorem merge_nil_right (compare : Compare δ) {h : Heap δ} {a : Nat} {xs : List Nat}
    (hx : Visits h.next (some a) (a :: xs)) (fuel : Nat) :
    Merged compare h (a :: xs) [] (inaMerge compare fuel h (some a) none) := by
  refine ⟨h, ?_, ?_, Relinked.refl _ h, fun _ hne => absurd rfl hne⟩
  · rw [inaMerge, List.nil_merge]
    rfl
  · rw [List.nil_merge]
    exact hx

theorem merge_spec (compare : Compare δ) {h : Heap δ} {fuel : Nat} {xs ys : List Nat}
    (hx : Visits h.next xs.head? xs) (hy : Visits h.next ys.head? ys)
    (hnodup : (xs ++ ys).Nodup) (hfuel : xs.length + ys.length ≤ fuel) :
    Merged compare h xs ys (inaMerge compare fuel h xs.head? ys.head?) := by
  induction fuel generalizing xs ys with
  | zero =>
    obtain rfl : xs = [] := List.length_eq_zero_iff.mp (by omega)
    exact merge_nil_left compare hy 0
  | succ fuel ih =>
    match xs, ys, hx, hy, hnodup, hfuel with
    | [], ys, _, hy, _, _ => exact merge_nil_left compare hy (fuel + 1)
    | a :: xs, [], hx, _, _, _ => exact merge_nil_right compare hx (fuel + 1)
    | a :: xs, b :: ys, hx, hy, hnodup, hfuel =>
      rw [List.head?_cons, List.head?_cons, inaMerge]
      simp only [List.length_cons] at hfuel
      by_cases hcmp : compare (h.data a) (h.data b) < 0
      · -- the first head is smaller, and the second chain stays as it is
        have hm : List.merge (b :: ys) (a :: xs) (secondFirst compare h.data) =
            a :: List.merge (b :: ys) xs (secondFirst compare h.data) :=
          List.cons_merge_cons_neg _ _ _ (by simp [secondFirst, hcmp])
        have hrest := hx.rest
        rw [hx.next_eq] at hrest
        have hrec := ih hrest hy (List.nodup_cons.mp hnodup).2
          (by rw [List.length_cons]; omega)
        obtain ⟨h₁, hrun, hv, hrel, -⟩ := hrec
        rw [if_pos hcmp, hx.next_eq, show some b = (b :: ys).head? from rfl, hrun]
        refine Merged.step hm ?_ hv (hrel.mono (List.subset_cons_self _ _)) hnodup
        exact List.ne_nil_of_mem (List.mem_merge_left _ List.mem_cons_self)
      · have hm : List.merge (b :: ys) (a :: xs) (secondFirst compare h.data) =
            b :: List.merge ys (a :: xs) (secondFirst compare h.data) :=
          List.cons_merge_cons_pos _ _ _ (by simpa [secondFirst] using hcmp)
        have hrest := hy.rest
        rw [hy.next_eq] at hrest
        have hsub : (a :: xs ++ ys).Sublist (a :: xs ++ b :: ys) :=
          (List.sublist_cons_self b ys).append_left _
        have hrec := ih hx hrest (hnodup.sublist hsub) (by rw [List.length_cons]; omega)
        obtain ⟨h₁, hrun, hv, hrel, -⟩ := hrec
        rw [if_neg hcmp, hy.next_eq, show some a = (a :: xs).head? from rfl, hrun]
        refine Merged.step hm ?_ hv (hrel.mono hsub.subset) hnodup
        exact List.ne_nil_of_mem (List.mem_merge_right _ List.mem_cons_self)

/-! ## `__ina_mergesort`

The nodes are permuted, their data are not touched, and the order comes from the one of merging. -/

/-- A comparator that stands for a total preorder: `compare a b ≤ 0` is the order. -/
structure TotalPreorder (compare : Compare δ) : Prop where
  lt_iff : ∀ a b, compare a b < 0 ↔ ¬ compare b a ≤ 0
  trans : ∀ a b c, compare a b ≤ 0 → compare b c ≤ 0 → compare a c ≤ 0

/-- The nodes' data do not decrease. -/
def InOrder (compare : Compare δ) (data : Nat → Option δ) (xs : List Nat) : Prop :=
  xs.Pairwise fun a b => compare (data a) (data b) ≤ 0

theorem TotalPreorder.secondFirst_iff {compare : Compare δ} (hc : TotalPreorder compare)
    (data : Nat → Option δ) (b a : Nat) :
    secondFirst compare data b a = true ↔ compare (data b) (data a) ≤ 0 := by
  rw [secondFirst, decide_eq_true_iff, hc.lt_iff, not_not]

theorem InOrder.merge {compare : Compare δ} (hc : TotalPreorder compare)
    {data : Nat → Option δ} {xs ys : List Nat} (hx : InOrder compare data xs)
    (hy : InOrder compare data ys) :
    InOrder compare data (List.merge ys xs (secondFirst compare data)) := by
  have hiff := hc.secondFirst_iff data
  refine (List.pairwise_merge ?_ ?_ ys xs (hy.imp fun h => (hiff _ _).mpr h)
    (hx.imp fun h => (hiff _ _).mpr h)).imp fun h => (hiff _ _).mp h
  · intro a b c hab hbc
    exact (hiff a c).mpr (hc.trans _ _ _ ((hiff a b).mp hab) ((hiff b c).mp hbc))
  · intro a b
    rw [Bool.or_eq_true, hiff, hiff]
    by_cases hab : compare (data a) (data b) ≤ 0
    · exact .inl hab
    · exact .inr (Int.le_of_lt ((hc.lt_iff _ _).mpr hab))

/-- What a sort of the nodes `xs` has done. -/
structure Sorted (compare : Compare δ) (h : Heap δ) (xs ys : List Nat) (h' : Heap δ) : Prop where
  visits : Visits h'.next ys.head? ys
  perm : ys.Perm xs
  frame : Relinked xs h h'
  order : TotalPreorder compare → InOrder compare h.data ys
  short : xs.length ≤ 1 → ys = xs ∧ h' = h
  prev : 2 ≤ xs.length → ∀ z ∈ ys.head?, h'.prev z = none

theorem Sorted.short_list {compare : Compare δ} {h : Heap δ} {xs : List Nat}
    (hv : Visits h.next xs.head? xs) (hlen : xs.length ≤ 1) : Sorted compare h xs xs h := by
  refine ⟨hv, List.Perm.refl xs, Relinked.refl xs h, ?_, fun _ => ⟨rfl, rfl⟩, fun hlen' => ?_⟩
  · intro _
    match xs, hlen with
    | [], _ => exact List.Pairwise.nil
    | [x], _ => exact List.pairwise_singleton _ x
  · exact absurd (Nat.le_trans hlen' hlen) (by decide)

/-- Two sorted halves and their merge. -/
theorem Sorted.merge {compare : Compare δ} {h h₁ h₂ h₃ h' : Heap δ} {xs as bs ys zs : List Nat}
    (hxs : xs = as ++ bs) (has : as ≠ []) (hbs : bs ≠ []) (hsplit : Relinked xs h h₁)
    (hys : Sorted compare h₁ as ys h₂) (hzs : Sorted compare h₂ bs zs h₃)
    (hmerge : Visits h'.next (List.merge zs ys (secondFirst compare h₃.data)).head?
      (List.merge zs ys (secondFirst compare h₃.data)) ∧ Relinked (ys ++ zs) h₃ h' ∧
      (ys ≠ [] → zs ≠ [] →
        ∀ z ∈ (List.merge zs ys (secondFirst compare h₃.data)).head?, h'.prev z = none)) :
    Sorted compare h xs (List.merge zs ys (secondFirst compare h₃.data)) h' := by
  obtain ⟨hv, hrel, hprev⟩ := hmerge
  have hsub : as ⊆ xs ∧ bs ⊆ xs := by
    rw [hxs]
    exact ⟨List.subset_append_left as bs, List.subset_append_right as bs⟩
  -- The two halves have the nodes of the whole.
  have hperm : (ys ++ zs).Perm xs := hxs ▸ hys.perm.append hzs.perm
  have hdata₃ : h₃.data = h.data :=
    hzs.frame.data.trans (hys.frame.data.trans hsplit.data)
  have hlen : 2 ≤ xs.length := by
    rw [hxs, List.length_append]
    exact Nat.add_le_add (List.length_pos_iff.mpr has) (List.length_pos_iff.mpr hbs)
  refine ⟨hv, ?_, ?_, ?_, fun hshort => absurd (Nat.le_trans hlen hshort) (by decide), ?_⟩
  · exact (List.merge_perm_append _).trans (List.perm_append_comm.trans hperm)
  · exact ((hsplit.trans (hys.frame.mono hsub.1)).trans (hzs.frame.mono hsub.2)).trans
      (hrel.mono hperm.subset)
  · intro hc
    -- Both halves are in order by the data they had before.
    have hy := hys.order hc
    have hz := hzs.order hc
    rw [hsplit.data] at hy
    rw [hys.frame.data, hsplit.data] at hz
    rw [hdata₃]
    exact InOrder.merge hc hy hz
  · intro _
    refine hprev ?_ ?_
    · exact fun hnil => has (List.nil_perm.mp (hnil ▸ hys.perm))
    · exact fun hnil => hbs (List.nil_perm.mp (hnil ▸ hzs.perm))

/-- Nothing is done to a chain of at most one node. -/
theorem mergesort_short (compare : Compare δ) {h : Heap δ} {xs : List Nat}
    (hv : Visits h.next xs.head? xs) (hshort : xs.length ≤ 1) (fuel : Nat) :
    inaMergesort compare fuel h xs.head? = .ok (xs.head?, h) := by
  cases xs with
  | nil => rw [List.head?_nil, inaMergesort]
  | cons x xs =>
    obtain rfl : xs = [] := List.length_eq_zero_iff.mp
      (Nat.le_zero.mp (Nat.le_of_succ_le_succ hshort))
    have hnext : h.next x = none := hv.next_eq
    cases fuel with
    | zero => rw [List.head?_cons, inaMergesort, if_pos hnext]
    | succ fuel => rw [List.head?_cons, inaMergesort, if_pos hnext]

theorem mergesort_spec (compare : Compare δ) {h : Heap δ} {fuel : Nat} {xs : List Nat}
    (hv : Visits h.next xs.head? xs) (hnodup : xs.Nodup) (hfuel : xs.length ≤ fuel) :
    ∃ ys h', inaMergesort compare fuel h xs.head? = .ok (ys.head?, h') ∧
      Sorted compare h xs ys h' := by
  induction fuel generalizing h xs with
  | zero =>
    have hshort : xs.length ≤ 1 := Nat.le_trans hfuel (Nat.zero_le 1)
    exact ⟨xs, h, mergesort_short compare hv hshort 0, Sorted.short_list hv hshort⟩
  | succ fuel ih =>
    by_cases hshort : xs.length ≤ 1
    · exact ⟨xs, h, mergesort_short compare hv hshort (fuel + 1), Sorted.short_list hv hshort⟩
    obtain ⟨x, xs, rfl⟩ := List.exists_cons_of_length_pos
      (Nat.lt_trans Nat.one_pos (Nat.lt_of_not_le hshort))
    have hne : xs ≠ [] := by
      rintro rfl
      exact hshort (Nat.le_refl 1)
    have hnext : ¬ h.next x = none := by
      rw [hv.next_eq, List.head?_eq_none_iff]
      exact hne
    obtain ⟨as, bs, h₁, hcut, hbs, hsplit, hva, hvb, hrel⟩ :=
      split_spec hv hnodup hne (Nat.le_of_succ_le hfuel)
    have hnodup' := hnodup
    have hlen := congrArg List.length hcut
    rw [hcut] at hnodup'
    rw [List.length_append] at hlen
    obtain ⟨hna, hnb, hdisj⟩ := List.nodup_append.mp hnodup'
    -- both halves are shorter than the whole
    have hposa : 0 < (x :: as).length := Nat.succ_pos _
    have hposb : 0 < bs.length := List.length_pos_iff.mpr hbs
    obtain ⟨ys, h₂, hsorta, hdonea⟩ := ih hva hna (by omega)
    have hvb₂ : Visits h₂.next bs.head? bs :=
      hdonea.frame.visits hvb fun y hy hmem => hdisj y hmem y hy rfl
    obtain ⟨zs, h₃, hsortb, hdoneb⟩ := ih hvb₂ hnb (by omega)
    have hvy₃ : Visits h₃.next ys.head? ys :=
      hdoneb.frame.visits hdonea.visits fun y hy hmem =>
        hdisj y (hdonea.perm.subset hy) y hmem rfl
    have hperm : (ys ++ zs).Perm (x :: as ++ bs) := hdonea.perm.append hdoneb.perm
    have hroom : ys.length + zs.length ≤ fuel + 1 := by
      rw [← List.length_append, hperm.length_eq, ← hcut]
      exact hfuel
    obtain ⟨h', hmerge, hresult⟩ := merge_spec compare hvy₃ hdoneb.visits
      (hperm.nodup_iff.mpr hnodup') hroom
    refine ⟨_, h', ?_, Sorted.merge hcut (List.cons_ne_nil x as) hbs (hrel.mono ?_) hdonea
      hdoneb hresult⟩
    · rw [List.head?_cons, inaMergesort, if_neg hnext, hsplit]
      dsimp only
      rw [show some x = (x :: as).head? from rfl, hsorta]
      dsimp only
      rw [hsortb]
      exact hmerge
    · rw [hcut]
      exact List.subset_append_left _ _

/-! ## `ina_list_sort`

It sets the head to what the recursion returns and changes nothing else of the list. -/

/-- The cells of nodes that hold these data. -/
def cellsOf (data : Nat → Option δ) (xs : List Nat) : List (Cell δ) :=
  xs.map fun n => ⟨n, data n⟩

theorem nodes_cellsOf (data : Nat → Option δ) (xs : List Nat) : nodes (cellsOf data xs) = xs := by
  rw [nodes, cellsOf, List.map_map]
  exact List.map_id xs

theorem cellsOf_nodes {data : Nat → Option δ} {cells : List (Cell δ)}
    (hd : ∀ c ∈ cells, data c.node = c.data) : cellsOf data (nodes cells) = cells := by
  rw [cellsOf, nodes, List.map_map]
  refine (List.map_congr_left ?_).trans (List.map_id cells)
  intro c hc
  rw [Function.comp_apply, hd c hc]
  rfl

/-- **What a sort leaves**, whatever the comparator: it returns, with a chain of the same cells. -/
theorem sort_spec {h : Heap δ} {l : Nat} {cells : List (Cell δ)} (hw : WellFormed h l cells)
    (compare : Compare δ) {fuel : Nat} (hfuel : cells.length ≤ fuel) :
    ∃ ys h', inaListSort fuel h l compare =
        (.rc (.ok ()), h'.modify l fun list => { list with head := ys.head? }) ∧
      Sorted compare h (nodes cells) ys h' := by
  have hv := hw.visits
  have hhead := hv.head
  rw [hhead] at hv
  obtain ⟨ys, h', hrun, hsorted⟩ := mergesort_spec compare hv hw.distinct
    (Nat.le_trans (Nat.le_of_eq (List.length_map _)) hfuel)
  refine ⟨ys, h', ?_, hsorted⟩
  rw [inaListSort, hhead, hrun]

theorem Sorted.chain {compare : Compare δ} {h h' : Heap δ} {l : Nat} {cells : List (Cell δ)}
    {ys : List Nat} (hs : Sorted compare h (nodes cells) ys h') :
    Chain (h'.modify l fun list => { list with head := ys.head? }) l (cellsOf h.data ys) := by
  refine ⟨?_, ?_⟩
  · rw [nodes_cellsOf, Heap.modify_list, Function.update_self]
    exact hs.visits
  · intro c hc
    obtain ⟨n, -, rfl⟩ := List.mem_map.mp hc
    rw [Heap.modify_data, hs.frame.data]

theorem Sorted.perm_cells {compare : Compare δ} {h h' : Heap δ} {cells : List (Cell δ)}
    {ys : List Nat} (hs : Sorted compare h (nodes cells) ys h')
    (hd : ∀ c ∈ cells, h.data c.node = c.data) : (cellsOf h.data ys).Perm cells := by
  have hperm : (cellsOf h.data ys).Perm (cellsOf h.data (nodes cells)) := hs.perm.map _
  rw [cellsOf_nodes hd] at hperm
  exact hperm

/-- **Sorting sorts.** On every well-formed list and for every comparator that is a total preorder,
    `ina_list_sort` returns, and following `next` from the head visits the nodes that were in the
    list, each once, with data that do not decrease. -/
theorem sort_sorts {h : Heap δ} {l : Nat} {cells : List (Cell δ)} (hw : WellFormed h l cells)
    (compare : Compare δ) (hc : TotalPreorder compare) (fuel : Nat)
    (hfuel : cells.length ≤ fuel) :
    (inaListSort fuel h l compare).1 = .rc (.ok ()) ∧ ∃ cells',
      Chain (inaListSort fuel h l compare).2 l cells' ∧ (nodes cells').Nodup ∧
      cells'.Perm cells ∧ cells'.Pairwise fun a b => compare a.data b.data ≤ 0 := by
  obtain ⟨ys, h', hrun, hs⟩ := sort_spec hw compare hfuel
  rw [hrun]
  refine ⟨rfl, cellsOf h.data ys, hs.chain, ?_, hs.perm_cells hw.data, ?_⟩
  · rw [nodes_cellsOf]
    exact hs.perm.nodup_iff.mpr hw.distinct
  · exact List.pairwise_map.mpr (hs.order hc)

/-- Numbers by their size. -/
def byValue : Compare Nat := fun a b => (a.getD 0 : Int) - b.getD 0

theorem totalPreorder_byValue : TotalPreorder byValue := by
  refine ⟨?_, ?_⟩
  · intro a b
    unfold byValue
    omega
  · intro a b c
    unfold byValue
    omega

theorem sort_sorts_pair : ∃ cells',
    Chain (inaListSort 2 (twoNodes 5 3) 0 byValue).2 0 cells' ∧
      cells'.Perm [⟨1, some 5⟩, ⟨2, some 3⟩] ∧
      cells'.Pairwise fun a b => byValue a.data b.data ≤ 0 := by
  obtain ⟨-, cells', hchain, -, hperm, horder⟩ := sort_sorts (wellFormed_twoNodes 5 3) byValue
    totalPreorder_byValue 2 (Nat.le_refl 2)
  exact ⟨cells', hchain, hperm, horder⟩

/-- **A sort leaves the list as a list only where there was nothing to sort.** For every well-formed
    list and every comparator, the list is well formed after `ina_list_sort`, so that
    `ina_list_insert_tail` and `ina_list_remove` do what they should, exactly when it has at most
    one node. -/
theorem sort_keeps_list_iff {h : Heap δ} {l : Nat} {cells : List (Cell δ)}
    (hw : WellFormed h l cells) (compare : Compare δ) (fuel : Nat)
    (hfuel : cells.length ≤ fuel) :
    ((inaListSort fuel h l compare).1 = .rc (.ok ()) ∧ ∃ cells', cells'.Perm cells ∧
      Usable (inaListSort fuel h l compare).2 l cells') ↔ cells.length ≤ 1 := by
  obtain ⟨ys, h', hrun, hs⟩ := sort_spec hw compare hfuel
  have hlen : (nodes cells).length = cells.length := List.length_map _
  rw [hrun]
  constructor
  · rintro ⟨-, cells', -, husable⟩
    by_contra hlong
    have hpos : 0 < ys.length := by
      rw [hs.perm.length_eq, hlen]
      omega
    obtain ⟨z, ys, rfl⟩ := List.exists_cons_of_length_pos hpos
    -- the merge has left the first node without `prev`
    have hnone : h'.prev z = none := hs.prev (by omega) z rfl
    refine husable.wellFormed.prev_head (x := z) ?_ hnone
    rw [Heap.modify_list, Function.update_self]
    rfl
  · intro hshort
    obtain ⟨rfl, rfl⟩ := hs.short (by omega)
    refine ⟨rfl, cells, List.Perm.refl cells, WellFormed.usable ?_⟩
    have hsame : (h'.modify l fun list => { list with head := (nodes cells).head? }) = h' := by
      rw [← hw.visits.head, Heap.modify]
      simp
    rw [hsame]
    exact hw

/-- A list of one node, which is its own `prev`. -/
def oneNode (a : δ) : Heap δ :=
  { next := fun _ => none
    prev := fun _ => some 1
    data := fun _ => some a
    list := fun _ => { inaListNew false with head := some 1, count := 1 } }

theorem wellFormed_oneNode (a : δ) : WellFormed (oneNode a) 0 [⟨1, some a⟩] := by
  refine ⟨.node 1 [] .null, List.nodup_singleton _, rfl, ?_, fun _ _ => rfl, ?_⟩
  · intro as x y bs hsplit
    have hlen := congrArg List.length hsplit
    simp only [nodes, List.length_map, List.length_append, List.length_cons,
      List.length_nil] at hlen
    omega
  · intro c hc
    obtain rfl := List.mem_singleton.mp hc
    rfl

/-- One node is sorted, and the list stays a list. -/
theorem sort_keeps_one_node :
    (inaListSort 1 (oneNode 5) 0 byValue).1 = .rc (.ok ()) ∧ ∃ cells',
      cells'.Perm [⟨1, some 5⟩] ∧ Usable (inaListSort 1 (oneNode 5) 0 byValue).2 0 cells' :=
  (sort_keeps_list_iff (wellFormed_oneNode 5) byValue 1 (Nat.le_refl 1)).mpr (Nat.le_refl 1)

/-- Two nodes are sorted; then the first has no `prev`, and the next insertion writes through
    it. -/
theorem sort_loses_tail :
    WellFormed (twoNodes 5 3) 0 [⟨1, some 5⟩, ⟨2, some 3⟩] ∧
      (∀ cells, ¬ WellFormed (inaListSort 2 (twoNodes 5 3) 0 byValue).2 0 cells) ∧
      (inaListInsertTail (inaListSort 2 (twoNodes 5 3) 0 byValue).2 0 (some 3)).1 = .fault := by
  refine ⟨wellFormed_twoNodes 5 3, ?_, rfl⟩
  intro cells hw
  exact hw.prev_head (x := 2) rfl rfl

end LinkedList
end Inac
