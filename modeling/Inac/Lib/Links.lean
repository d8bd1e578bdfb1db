import Mathlib.Data.List.Nodup
import Mathlib.Logic.Function.Basic

/-!
# Doubly linked nodes

A node of type `ν` has a forward link `next` and a backward link `prev`, both possibly null, kept
in two functions. `Seg next prev p xs q` says that the nodes `xs` are linked in this order behind
a node `p` and in front of `q`: each node's `prev` is the node before it, its `next` the node after
it, or `q` for the last.

Changing links is two rules, one for each end: `Seg.setPrev` puts another node in front of a
segment and `Seg.setNext` another link behind it. Writes to nodes that are not of the segment
change nothing (`Seg.frame`), and `seg_append` cuts a segment in two.

`Visits next start xs` is what following `next` alone sees; it says nothing of `prev`.

`Looped next prev xs` is the layout of a list that keeps its tail in the `prev` of its head: the
first node stands behind the last, and the last node's `next` is null. Its rules say which writes
take a node in at the end, take one out, or join two lists.
-/

namespace Inac
namespace Lib

variable {ν : Type} {next prev next' prev' : ν → Option ν}

/-! ## Segments

Cutting, joining and framing. A chain that is seen from a reader is read off a segment. -/

/-- `xs` is linked in order, behind `p` and in front of `q`. -/
def Seg (next prev : ν → Option ν) : ν → List ν → Option ν → Prop
  | _, [], _ => True
  | p, x :: xs, q => prev x = some p ∧ next x = xs.head?.or q ∧ Seg next prev x xs q

theorem seg_append {p : ν} {xs ys : List ν} {q : Option ν} :
    Seg next prev p (xs ++ ys) q ↔
      Seg next prev p xs (ys.head?.or q) ∧ Seg next prev (xs.getLast?.getD p) ys q := by
  induction xs generalizing p with
  | nil => exact ⟨fun h => ⟨trivial, h⟩, fun h => h.2⟩
  | cons x xs ih =>
    have hlast : (x :: xs).getLast?.getD p = xs.getLast?.getD x := by
      rw [List.getLast?_cons, Option.getD_some]
    rw [hlast, List.cons_append, Seg, Seg, ih, List.head?_append, Option.or_assoc]
    tauto

/-- A segment sees only the links of its own nodes. -/
theorem Seg.congr {p : ν} {xs : List ν} {q : Option ν} (h : Seg next prev p xs q)
    (hn : ∀ x ∈ xs, next' x = next x) (hp : ∀ x ∈ xs, prev' x = prev x) :
    Seg next' prev' p xs q := by
  induction xs generalizing p with
  | nil => trivial
  | cons x xs ih =>
    obtain ⟨hprev, hnext, hrest⟩ := h
    refine ⟨?_, ?_, ih hrest (fun y hy => hn y (List.mem_cons_of_mem x hy))
      (fun y hy => hp y (List.mem_cons_of_mem x hy))⟩
    · rw [hp x List.mem_cons_self]; exact hprev
    · rw [hn x List.mem_cons_self]; exact hnext

/-- Following `next` from a link visits these nodes and ends in null. -/
inductive Visits (next : ν → Option ν) : Option ν → List ν → Prop where
  | null : Visits next none []
  | node (x : ν) (xs : List ν) : Visits next (next x) xs → Visits next (some x) (x :: xs)

theorem Seg.visits {p : ν} {xs : List ν} (h : Seg next prev p xs none) :
    Visits next xs.head? xs := by
  induction xs generalizing p with
  | nil => exact .null
  | cons x xs ih =>
    obtain ⟨-, hnext, hrest⟩ := h
    refine .node x xs ?_
    rw [hnext, Option.or_none]
    exact ih hrest

theorem Visits.congr {start : Option ν} {xs : List ν} (h : Visits next start xs)
    (hn : ∀ x ∈ xs, next' x = next x) : Visits next' start xs := by
  induction h with
  | null => exact .null
  | node x xs _ ih =>
    refine .node x xs ?_
    rw [hn x List.mem_cons_self]
    exact ih fun y hy => hn y (List.mem_cons_of_mem x hy)

theorem Visits.head {start : Option ν} {xs : List ν} (h : Visits next start xs) :
    start = xs.head? := by
  cases h with
  | null => rfl
  | node x xs _ => rfl

theorem Visits.rest {start : Option ν} {x : ν} {xs : List ν} (h : Visits next start (x :: xs)) :
    Visits next (next x) xs := by
  cases h with
  | node _ _ hrest => exact hrest

theorem Visits.next_eq {start : Option ν} {x : ν} {xs : List ν}
    (h : Visits next start (x :: xs)) : next x = xs.head? := h.rest.head

/-- A chain is read from any node of it on. -/
theorem Visits.suffix {start : Option ν} {as bs : List ν} (h : Visits next start (as ++ bs)) :
    Visits next bs.head? bs := by
  induction as generalizing start with
  | nil =>
    obtain rfl := h.head
    exact h
  | cons a as ih => exact ih h.rest

theorem Visits.last {start : Option ν} {xs : List ν} (h : Visits next start xs) {z : ν}
    (hz : xs.getLast? = some z) : next z = none := by
  obtain ⟨as, rfl⟩ := List.getLast?_eq_some_iff.mp hz
  exact h.suffix.next_eq

/-- There is one chain from a link. -/
theorem Visits.unique {start : Option ν} {xs ys : List ν} (h : Visits next start xs)
    (h' : Visits next start ys) : xs = ys := by
  induction h generalizing ys with
  | null =>
    cases h' with
    | null => rfl
  | node x xs _ ih =>
    cases h' with
    | node _ ys hrest => rw [ih hrest]

/-- A chain that ends meets no node twice. -/
theorem Visits.nodup {start : Option ν} {xs : List ν} (h : Visits next start xs) : xs.Nodup := by
  induction h with
  | null => exact List.nodup_nil
  | node x xs hrest ih =>
    refine List.nodup_cons.mpr ⟨fun hmem => ?_, ih⟩
    -- from its second place on, the chain would be the chain itself
    obtain ⟨as, bs, rfl⟩ := List.append_of_mem hmem
    have hsame := (Visits.node x _ hrest).unique hrest.suffix
    have hlen := congrArg List.length hsame
    simp only [List.length_cons, List.length_append] at hlen
    omega

/-! ## Lists that keep their tail in their head

`prev` goes round: behind the first node is the last one. `next` does not. -/

/-- A null-terminated list whose head's `prev` is its last node. -/
structure Looped (next prev : ν → Option ν) (xs : List ν) : Prop where
  nodup : xs.Nodup
  seg : ∀ z ∈ xs.getLast?, Seg next prev z xs none

theorem looped_nil : Looped next prev [] := ⟨List.nodup_nil, by simp⟩

theorem looped_singleton {x : ν} (hn : next x = none) (hp : prev x = some x) :
    Looped next prev [x] := by
  refine ⟨List.nodup_singleton x, ?_⟩
  intro z hz
  obtain rfl : x = z := by simpa using hz
  exact ⟨hp, hn, trivial⟩

theorem looped_concat {xs : List ν} {z : ν} :
    Looped next prev (xs ++ [z]) ↔ (xs ++ [z]).Nodup ∧ Seg next prev z (xs ++ [z]) none := by
  constructor
  · intro h
    exact ⟨h.nodup, h.seg z (by simp)⟩
  · rintro ⟨hnodup, hseg⟩
    refine ⟨hnodup, ?_⟩
    intro w hw
    obtain rfl : z = w := by simpa using hw
    exact hseg

theorem Looped.congr {xs : List ν} (h : Looped next prev xs) (hn : ∀ x ∈ xs, next' x = next x)
    (hp : ∀ x ∈ xs, prev' x = prev x) : Looped next' prev' xs :=
  ⟨h.nodup, fun z hz => (h.seg z hz).congr hn hp⟩

theorem Looped.visits {xs : List ν} (h : Looped next prev xs) : Visits next xs.head? xs := by
  cases xs with
  | nil => exact .null
  | cons x xs =>
    exact (h.seg _ (List.getLast?_eq_getLast_of_ne_nil (List.cons_ne_nil x xs))).visits

/-- The tail is where the head's `prev` points. -/
theorem Looped.prev_head {x : ν} {xs : List ν} (h : Looped next prev (x :: xs)) :
    prev x = (x :: xs).getLast? := by
  have hlast := List.getLast?_eq_getLast_of_ne_nil (List.cons_ne_nil x xs)
  rw [hlast]
  exact (h.seg _ hlast).1

theorem Looped.next_at {as : List ν} {x : ν} {bs : List ν}
    (h : Looped next prev (as ++ x :: bs)) : next x = bs.head? := by
  have hne : as ++ x :: bs ≠ [] := by simp
  have hseg := h.seg _ (List.getLast?_eq_getLast_of_ne_nil hne)
  obtain ⟨-, -, hnext, -⟩ := seg_append.mp hseg
  rw [hnext, Option.or_none]

theorem Looped.next_head {x : ν} {bs : List ν} (h : Looped next prev (x :: bs)) :
    next x = bs.head? := by
  have h' : Looped next prev ([] ++ x :: bs) := h
  exact h'.next_at

theorem Looped.prev_at {as : List ν} {a x : ν} {bs : List ν}
    (h : Looped next prev (as ++ [a] ++ x :: bs)) : prev x = some a := by
  have hne : as ++ [a] ++ x :: bs ≠ [] := by simp
  have hseg := h.seg _ (List.getLast?_eq_getLast_of_ne_nil hne)
  obtain ⟨-, hprev, -⟩ := seg_append.mp hseg
  rw [hprev, List.getLast?_concat, Option.getD_some]

theorem seg_of_visits {start : Option ν} {xs : List ν} (h : Visits next start xs) {p : ν}
    (hfirst : ∀ x ∈ xs.head?, prev x = some p)
    (hprev : ∀ as x y bs, xs = as ++ [x] ++ y :: bs → prev y = some x) :
    Seg next prev p xs none := by
  induction h generalizing p with
  | null => trivial
  | node x xs hrest ih =>
    refine ⟨hfirst x rfl, ?_, ih ?_ ?_⟩
    · rw [hrest.head, Option.or_none]
    · intro y hy
      obtain ⟨ys, rfl⟩ := List.head?_eq_some_iff.mp hy
      exact hprev [] x y ys rfl
    · intro as a b bs hsplit
      exact hprev (x :: as) a b bs (by rw [hsplit]; rfl)

/-- The layout from what a reader of the list sees. -/
theorem looped_of_visits {start : Option ν} {xs : List ν} (h : Visits next start xs)
    (hnodup : xs.Nodup) (hprev : ∀ as x y bs, xs = as ++ [x] ++ y :: bs → prev y = some x)
    (htail : ∀ x, start = some x → prev x = xs.getLast?) : Looped next prev xs := by
  refine ⟨hnodup, ?_⟩
  intro z hz
  refine seg_of_visits h ?_ hprev
  intro x hx
  rw [htail x (h.head.trans hx)]
  exact hz

theorem exists_getLast? (x : ν) (xs : List ν) : ∃ z, (x :: xs).getLast? = some z :=
  ⟨_, List.getLast?_eq_getLast_of_ne_nil (List.cons_ne_nil x xs)⟩

theorem last_not_mem {xs : List ν} {z : ν} (h : (xs ++ [z]).Nodup) : z ∉ xs :=
  (List.nodup_cons.mp (List.nodup_append_comm.mp h)).1

/-! ## Writes

For each edit of a list there is one rule, with the writes in the order in which a program is likely
to make them. -/

variable [DecidableEq ν]

theorem Seg.frame_next {p : ν} {xs : List ν} {q : Option ν} (h : Seg next prev p xs q) {a : ν}
    (ha : a ∉ xs) (v : Option ν) : Seg (Function.update next a v) prev p xs q :=
  h.congr (fun _ hx => Function.update_of_ne (ne_of_mem_of_not_mem hx ha) _ _) (fun _ _ => rfl)

theorem Seg.frame_prev {p : ν} {xs : List ν} {q : Option ν} (h : Seg next prev p xs q) {a : ν}
    (ha : a ∉ xs) (v : Option ν) : Seg next (Function.update prev a v) p xs q :=
  h.congr (fun _ _ => rfl) (fun _ hx => Function.update_of_ne (ne_of_mem_of_not_mem hx ha) _ _)

theorem Visits.frame {start : Option ν} {xs : List ν} (h : Visits next start xs) {a : ν}
    (ha : a ∉ xs) (v : Option ν) : Visits (Function.update next a v) start xs :=
  h.congr fun _ hx => Function.update_of_ne (ne_of_mem_of_not_mem hx ha) _ _

/-- A chain is cut behind a node of it. -/
theorem Visits.cut {start : Option ν} {as bs : List ν} {z : ν}
    (h : Visits next start (as ++ z :: bs)) (hz : z ∉ as) :
    Visits (Function.update next z none) start (as ++ [z]) := by
  induction as generalizing start with
  | nil =>
    obtain rfl : start = some z := h.head
    refine .node z [] ?_
    rw [Function.update_self]
    exact .null
  | cons a as ih =>
    obtain rfl : start = some a := h.head
    have hne : a ≠ z := fun e => hz (e ▸ List.mem_cons_self)
    refine .node a (as ++ [z]) ?_
    rw [Function.update_of_ne hne]
    exact ih h.rest fun hmem => hz (List.mem_cons_of_mem a hmem)

/-- A node is linked behind the last of a chain. -/
theorem Visits.link {start : Option ν} {as : List ν} {z n : ν}
    (h : Visits next start (as ++ [z])) (hz : z ∉ as) (hn : n ≠ z) (hnull : next n = none) :
    Visits (Function.update next z (some n)) start (as ++ [z] ++ [n]) := by
  induction as generalizing start with
  | nil =>
    obtain rfl : start = some z := h.head
    refine .node z [n] ?_
    rw [Function.update_self]
    refine .node n [] ?_
    rw [Function.update_of_ne hn, hnull]
    exact .null
  | cons a as ih =>
    obtain rfl : start = some a := h.head
    have hne : a ≠ z := fun e => hz (e ▸ List.mem_cons_self)
    refine .node a (as ++ [z] ++ [n]) ?_
    rw [Function.update_of_ne hne]
    exact ih h.rest fun hmem => hz (List.mem_cons_of_mem a hmem)

/-- A node is linked behind any node of a chain, and what was there is cut off. -/
theorem Visits.relink {start : Option ν} {as bs : List ν} {z n : ν}
    (h : Visits next start (as ++ z :: bs)) (hn : n ≠ z) (hnull : next n = none) :
    Visits (Function.update next z (some n)) start (as ++ [z] ++ [n]) := by
  have hz : z ∉ as := by
    intro hmem
    have hnodup := List.nodup_append.mp h.nodup
    exact hnodup.2.2 z hmem z List.mem_cons_self rfl
  have hnull' : Function.update next z none n = none := by rw [Function.update_of_ne hn, hnull]
  have hlink := (h.cut hz).link hz hn hnull'
  rw [Function.update_idem] at hlink
  exact hlink

/-- A node is put in front of a chain. -/
theorem Visits.push {xs : List ν} (h : Visits next xs.head? xs) {a : ν} (ha : a ∉ xs) :
    Visits (Function.update next a xs.head?) (some a) (a :: xs) := by
  refine .node a xs ?_
  rw [Function.update_self]
  exact h.frame ha _

/-- The first node gets another node in front. -/
theorem Seg.setPrev {p : ν} {x : ν} {xs : List ν} {q : Option ν}
    (h : Seg next prev p (x :: xs) q) (hx : x ∉ xs) (p' : ν) :
    Seg next (Function.update prev x (some p')) p' (x :: xs) q :=
  ⟨Function.update_self _ _ _, h.2.1, h.2.2.frame_prev hx _⟩

/-- The last node gets another link behind it. -/
theorem Seg.setNext {p : ν} {xs : List ν} {z : ν} {q : Option ν}
    (h : Seg next prev p (xs ++ [z]) q) (hz : z ∉ xs) (q' : Option ν) :
    Seg (Function.update next z q') prev p (xs ++ [z]) q' := by
  rw [seg_append] at h ⊢
  obtain ⟨hfront, hprev, -, -⟩ := h
  exact ⟨hfront.frame_next hz _, hprev, Function.update_self _ _ _, trivial⟩

/-- `n` is taken in at the end: it stands behind the old tail, the head's `prev` points at it. -/
theorem Looped.snoc {x z n : ν} {xs : List ν} (h : Looped next prev (x :: xs))
    (hz : z ∈ (x :: xs).getLast?) (hn : n ∉ x :: xs) :
    Looped (Function.update (Function.update next n none) z (some n))
      (Function.update (Function.update prev n (some z)) x (some n)) (x :: xs ++ [n]) := by
  have hnz : n ≠ z := fun e => hn (e ▸ List.mem_of_mem_getLast? hz)
  have hnx : n ≠ x := fun e => hn (e ▸ List.mem_cons_self)
  rw [looped_concat, seg_append]
  refine ⟨?_, ?_, ?_⟩
  · rw [List.nodup_append_comm]
    exact List.nodup_cons.mpr ⟨hn, h.nodup⟩
  · have hseg := ((h.seg z hz).frame_next hn none).frame_prev hn (some z)
    have hhead := hseg.setPrev (List.nodup_cons.mp h.nodup).1 n
    obtain ⟨as, has⟩ := List.getLast?_eq_some_iff.mp hz
    rw [has] at hhead ⊢
    exact hhead.setNext (last_not_mem (has ▸ h.nodup)) (some n)
  · rw [hz, Option.getD_some]
    refine ⟨?_, ?_, trivial⟩
    · rw [Function.update_of_ne hnx, Function.update_self]
    · rw [Function.update_of_ne hnz, Function.update_self]
      rfl

/-- Two lists are joined: the first tail is linked to the second head, and the tails trade
    places. -/
theorem Looped.append {x z y w : ν} {xs ys : List ν} (hxs : Looped next prev (x :: xs))
    (hys : Looped next prev (y :: ys)) (hz : z ∈ (x :: xs).getLast?)
    (hw : w ∈ (y :: ys).getLast?) (hdisj : ∀ a ∈ x :: xs, a ∉ y :: ys) :
    Looped (Function.update next z (some y))
      (Function.update (Function.update prev x (some w)) y (some z)) (x :: xs ++ y :: ys) := by
  have hzy : z ∉ y :: ys := hdisj z (List.mem_of_mem_getLast? hz)
  have hxy : x ∉ y :: ys := hdisj x List.mem_cons_self
  have hyx : y ∉ x :: xs := fun hmem => hdisj y hmem List.mem_cons_self
  refine ⟨?_, ?_⟩
  · exact List.nodup_append.mpr ⟨hxs.nodup, hys.nodup,
      fun a ha b hb e => hdisj a ha (e ▸ hb)⟩
  · intro v hv
    obtain rfl : w = v := by
      rw [List.getLast?_append_of_ne_nil _ (List.cons_ne_nil y ys), hw] at hv
      simpa using hv
    rw [seg_append, hz]
    constructor
    · -- The first list, with its new `prev` and its new successor.
      have hhead := (hxs.seg z hz).setPrev (List.nodup_cons.mp hxs.nodup).1 w
      have hframe := hhead.frame_prev hyx (some z)
      obtain ⟨as, has⟩ := List.getLast?_eq_some_iff.mp hz
      rw [has] at hframe ⊢
      exact hframe.setNext (last_not_mem (has ▸ hxs.nodup)) (some y)
    · -- The second one, which comes to stand behind the first one's tail.
      have hframe := ((hys.seg w hw).frame_next hzy (some y)).frame_prev hxy (some w)
      exact hframe.setPrev (List.nodup_cons.mp hys.nodup).1 z

/-- The head is taken out: the second node gets its `prev`, which is the tail. -/
theorem Looped.remove_head {n b : ν} {bs : List ν} (h : Looped next prev (n :: b :: bs)) :
    Looped next (Function.update prev b (prev n)) (b :: bs) := by
  obtain ⟨hn, hnodup⟩ := List.nodup_cons.mp h.nodup
  refine ⟨hnodup, ?_⟩
  intro z hz
  have hseg := h.seg z (by rw [List.getLast?_cons_cons]; exact hz)
  rw [hseg.1]
  exact hseg.2.2.setPrev (List.nodup_cons.mp hnodup).1 z

/-- The tail is taken out, and it is not the head: the node before it becomes the tail. -/
theorem Looped.remove_last {x a n : ν} {xs as : List ν}
    (h : Looped next prev (x :: xs ++ [n])) (has : x :: xs = as ++ [a]) :
    Looped (Function.update next a none) (Function.update prev x (some a)) (x :: xs) := by
  have hnodup : (x :: xs).Nodup := (List.nodup_append.mp h.nodup).1
  have hseg := (seg_append.mp (h.seg n (by rw [List.getLast?_concat]; rfl))).1
  have hhead := hseg.setPrev (List.nodup_cons.mp hnodup).1 a
  rw [has] at hhead hnodup ⊢
  rw [looped_concat]
  exact ⟨hnodup, hhead.setNext (last_not_mem hnodup) none⟩

/-- An inner node is taken out: its neighbours are linked to each other. -/
theorem Looped.remove_inner {a n b : ν} {as bs : List ν}
    (h : Looped next prev (as ++ [a] ++ n :: b :: bs)) :
    Looped (Function.update next a (some b)) (Function.update prev b (some a))
      (as ++ [a] ++ b :: bs) := by
  have hnodup : (as ++ [a] ++ b :: bs).Nodup :=
    h.nodup.sublist ((List.sublist_cons_self n (b :: bs)).append_left _)
  obtain ⟨hfront, hback, hdisj⟩ := List.nodup_append.mp hnodup
  refine ⟨hnodup, ?_⟩
  intro z hz
  have hseg := h.seg z (by
    rw [List.getLast?_append_of_ne_nil _ (List.cons_ne_nil _ _), List.getLast?_cons_cons]
    rw [List.getLast?_append_of_ne_nil _ (List.cons_ne_nil _ _)] at hz
    exact hz)
  obtain ⟨hleft, hright⟩ := seg_append.mp hseg
  rw [seg_append]
  constructor
  · refine (hleft.setNext (last_not_mem hfront) (some b)).frame_prev ?_ _
    exact fun hmem => hdisj b hmem b List.mem_cons_self rfl
  · rw [List.getLast?_concat, Option.getD_some]
    refine Seg.frame_next (hright.2.2.setPrev (List.nodup_cons.mp hback).1 a) ?_ _
    exact fun hmem => hdisj a (by simp) a hmem rfl

end Lib
end Inac
