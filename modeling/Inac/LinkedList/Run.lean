import Inac.LinkedList.Refine

/-!
# Runs of list calls

The callers' side of the contract is `Allowed`: a node that is inserted is in no list, a node that
is removed is in the list it is removed from, and no list is joined to itself. Along every run of
such calls, from lists that are empty, every list is well formed in every state and holds the
sequence `spec` computes.

The calls return what `spec` returns with one exception, and it is not about the chain. What
`ina_list_remove_data` has taken out it hands to `ina_list_node_free`, which stores the node into the
recycle array as long as `last_free` is below the number of nodes to keep. A list made with
`INA_LIST_CF_NOMALLOC` has no such array, and the first node is stored through `NULL`; a list with an
array of 256 slots is left alone by the 255 first nodes, and the next is stored behind the array.
-/

namespace Inac
namespace LinkedList

open Lib

variable {δ : Type}

/-! ## What a reader of a list sees

`WellFormed` is stated by `next`, `prev` and `count`, and without the library. It says what the
representation invariant says. -/

/-- The list's memory, as a reader of the list sees it: following `next` from the head visits the
    cells' nodes, `count` of them, all distinct, and ends in `NULL`; each node but the head has its
    predecessor in `prev`; the head has the last node there. -/
structure WellFormed (h : Heap δ) (l : Nat) (cells : List (Cell δ)) : Prop where
  visits : Visits h.next (h.list l).head (nodes cells)
  distinct : (nodes cells).Nodup
  count : (h.list l).count = (nodes cells).length
  prev : ∀ as x y bs, nodes cells = as ++ [x] ++ y :: bs → h.prev y = some x
  tail : ∀ x, (h.list l).head = some x → h.prev x = (nodes cells).getLast?
  data : ∀ c ∈ cells, h.data c.node = c.data

theorem Holds.wellFormed {h : Heap δ} {l : Nat} {cells : List (Cell δ)} (hh : Holds h l cells) :
    WellFormed h l cells := by
  refine ⟨?_, hh.looped.nodup, ?_, ?_, ?_, hh.data⟩
  · rw [hh.head]; exact hh.looped.visits
  · rw [hh.count, nodes, List.length_map]
  · intro as x y bs hsplit
    have hloop := hh.looped
    rw [hsplit] at hloop
    exact hloop.prev_at
  · intro x hx
    rw [hh.head] at hx
    cases hnodes : nodes cells with
    | nil => rw [hnodes] at hx; exact absurd hx (by simp)
    | cons v vs =>
      rw [hnodes] at hx
      obtain rfl : v = x := by simpa using hx
      have hloop := hh.looped
      rw [hnodes] at hloop
      exact hloop.prev_head

theorem WellFormed.holds {h : Heap δ} {l : Nat} {cells : List (Cell δ)}
    (hw : WellFormed h l cells) : Holds h l cells := by
  refine ⟨hw.visits.head, ?_, looped_of_visits hw.visits hw.distinct hw.prev hw.tail, hw.data⟩
  rw [hw.count, nodes, List.length_map]

/-- The head of a well-formed list has a `prev`, be it the head itself. -/
theorem WellFormed.prev_head {h : Heap δ} {l x : Nat} {cells : List (Cell δ)}
    (hw : WellFormed h l cells) (hx : (h.list l).head = some x) : h.prev x ≠ none := by
  intro hnone
  have htail := hw.tail x hx
  have hhead := hw.visits.head
  rw [hnone] at htail
  rw [hx, List.getLast?_eq_none_iff.mp htail.symm] at hhead
  cases hhead

/-- The list is well formed, and so it can be worked with: a node that is not in it can be inserted
    at the end, and every node of it can be removed. -/
structure Usable (h : Heap δ) (l : Nat) (cells : List (Cell δ)) : Prop where
  wellFormed : WellFormed h l cells
  insertTail : ∀ n, n ∉ nodes cells → (inaListInsertTail h l (some n)).1 = .rc (.ok ()) ∧
    WellFormed (inaListInsertTail h l (some n)).2 l (cells ++ [⟨n, h.data n⟩])
  remove : ∀ n, n ∈ nodes cells → (inaListRemove h l (some n)).1 = .rc (.ok ()) ∧
    WellFormed (inaListRemove h l (some n)).2 l (cells.eraseP fun c => c.node = n)

theorem WellFormed.usable {h : Heap δ} {l : Nat} {cells : List (Cell δ)}
    (hw : WellFormed h l cells) : Usable h l cells := by
  refine ⟨hw, ?_, ?_⟩
  · intro n hn
    have hdone := linkTail_spec hw.holds hn
    exact ⟨hdone.out, hdone.holds.wellFormed⟩
  · intro n hn
    have hdone := unlink_spec hw.holds hn
    exact ⟨hdone.out, hdone.holds.wellFormed⟩

theorem wellFormed_nil {h : Heap δ} {l : Nat} (hhead : (h.list l).head = none)
    (hcount : (h.list l).count = 0) : WellFormed h l [] :=
  Holds.wellFormed ⟨hhead, hcount, looped_nil, fun _ hc => absurd hc List.not_mem_nil⟩

/-- List 0 has the nodes 1 and 2, with these data; the other lists are empty. -/
def twoNodes (a b : δ) : Heap δ :=
  { next := fun n => if n = 1 then some 2 else none
    prev := fun n => if n = 1 then some 2 else some 1
    data := fun n => if n = 1 then some a else some b
    list := fun l => if l = 0 then { inaListNew false with head := some 1, count := 2 }
      else inaListNew false }

theorem wellFormed_twoNodes (a b : δ) :
    WellFormed (twoNodes a b) 0 [⟨1, some a⟩, ⟨2, some b⟩] := by
  refine ⟨.node 1 [2] (.node 2 [] .null), ?_, rfl, ?_, ?_, ?_⟩
  · show [1, 2].Nodup
    decide
  · intro as x y bs hsplit
    have hlen := congrArg List.length hsplit
    simp only [nodes, List.length_map, List.length_append, List.length_cons,
      List.length_nil] at hlen
    obtain rfl : as = [] := List.length_eq_zero_iff.mp (by omega)
    cases hsplit
    rfl
  · intro x hx
    obtain rfl : 1 = x := Option.some.inj hx
    rfl
  · intro c hc
    rcases List.mem_cons.mp hc with rfl | hc
    · rfl
    · obtain rfl := List.mem_singleton.mp hc
      rfl

/-! ## One call

From the branches of `Inac.LinkedList.Refine`: what a call returns, and that it keeps the relation.
-/

theorem Refines.linkTail {h : Heap δ} {s : Nat → List (Cell δ)} (hr : Refines h s) {l n : Nat}
    (d : Option δ) (hn : ∀ k, n ∉ nodes (s k)) :
    (linkTail (h.setData n d) l n).1 = .rc (.ok ()) ∧
      Refines (linkTail (h.setData n d) l n).2 (Function.update s l (s l ++ [⟨n, d⟩])) := by
  -- the caller writes the data into a node that no list has
  have hset : SameBut [] [n] h (h.setData n d) := (SameBut.refl [] [n] h).setData
    List.mem_cons_self d
  have hr' : Refines (h.setData n d) s := by
    refine ⟨fun k => (hr.holds k).frame hset List.not_mem_nil ?_, hr.apart⟩
    intro x hx hxn
    obtain rfl := List.mem_singleton.mp hxn
    exact hn k hx
  obtain ⟨hout, hholds, hframe⟩ := linkTail_spec (hr'.holds l) (hn l)
  rw [Heap.setData_data, Function.update_self] at hholds
  refine ⟨hout, hr'.set hframe hholds ?_ ?_⟩
  · intro k hk x hx hmem
    rcases List.mem_cons.mp hmem with rfl | hmem
    · exact hn k hx
    · exact hr.apart k l hk x hx hmem
  · intro k hk x hx
    rw [nodes_append] at hx
    rcases List.mem_append.mp hx with hx | hx
    · exact hr.apart l k hk.symm x hx
    · obtain rfl := List.mem_singleton.mp hx
      exact hn k

theorem mem_nodes_eraseP {cells : List (Cell δ)} {p : Cell δ → Bool} {x : Nat}
    (hx : x ∈ nodes (cells.eraseP p)) : x ∈ nodes cells :=
  ((List.eraseP_sublist).map Cell.node).subset hx

theorem Refines.unlink {h : Heap δ} {s : Nat → List (Cell δ)} (hr : Refines h s) {l n : Nat}
    (hn : n ∈ nodes (s l)) : (unlink h l n).1 = .rc (.ok ()) ∧
      Refines (unlink h l n).2 (Function.update s l ((s l).eraseP fun c => c.node = n)) := by
  obtain ⟨hout, hholds, hframe⟩ := unlink_spec (hr.holds l) hn
  refine ⟨hout, hr.set hframe hholds ?_ ?_⟩
  · exact fun k hk x hx => hr.apart k l hk x hx
  · exact fun k hk x hx => hr.apart l k hk.symm x (mem_nodes_eraseP hx)

theorem Refines.removeFound {h : Heap δ} {s : Nat → List (Cell δ)} (hr : Refines h s)
    {l n : Nat} (hn : n ∈ nodes (s l)) :
    (removeFound h l n).1 = (if (h.list l).TakesNode then .rc (.ok ()) else .fault) ∧
      Refines (removeFound h l n).2 (Function.update s l ((s l).eraseP fun c => c.node = n)) := by
  obtain ⟨hout, hr'⟩ := hr.unlink hn
  have hrun : LinkedList.removeFound h l n = inaListNodeFree (LinkedList.unlink h l n).2 l n := by
    unfold LinkedList.removeFound
    cases hu : LinkedList.unlink h l n with
    | mk o h' =>
      rw [hu] at hout
      obtain rfl : o = .rc (.ok ()) := hout
      rfl
  rw [hrun, nodeFree_out]
  refine ⟨?_, fun k => nodeFree_holds (hr'.holds k), hr'.apart⟩
  rw [if_congr unlink_takesNode rfl rfl]

/-- The data's first cell and its node are the same deletion. -/
theorem deleteData_eq [DecidableEq δ] {cells : List (Cell δ)} {c : Cell δ} {d : Option δ}
    (hnodup : (nodes cells).Nodup) (hc : cells.find? (fun e => e.data = d) = some c) :
    deleteData cells d = cells.eraseP fun e => e.node = c.node := by
  obtain ⟨hcd, as, bs, rfl, has⟩ := List.find?_eq_some_iff_append.mp hc
  rw [eraseP_node hnodup, deleteData, eraseP_split _ hcd]
  intro a ha
  simpa using has a ha

/-- Joining two sequences keeps all sequences apart. -/
theorem apart_concat {s : Nat → List (Cell δ)} {dest src : Nat}
    (hs : ∀ l k, l ≠ k → ∀ n ∈ nodes (s l), n ∉ nodes (s k)) :
    ∀ l k, l ≠ k →
      ∀ n ∈ nodes (Function.update (Function.update s dest (s dest ++ s src)) src [] l),
        n ∉ nodes (Function.update (Function.update s dest (s dest ++ s src)) src [] k) := by
  -- a node of list `l` now was one of `l`, or of the source where `l` is the destination
  have hfrom : ∀ l n, n ∈ nodes (Function.update (Function.update s dest (s dest ++ s src)) src []
      l) → l ≠ src ∧ (n ∈ nodes (s l) ∨ l = dest ∧ n ∈ nodes (s src)) := by
    intro l n hn
    by_cases hl : l = src
    · rw [hl, Function.update_self] at hn
      exact absurd hn List.not_mem_nil
    · rw [Function.update_of_ne hl] at hn
      refine ⟨hl, ?_⟩
      by_cases hld : l = dest
      · rw [hld, Function.update_self, nodes_append] at hn
        rcases List.mem_append.mp hn with hn | hn
        · exact .inl (hld ▸ hn)
        · exact .inr ⟨hld, hn⟩
      · rw [Function.update_of_ne hld] at hn
        exact .inl hn
  intro l k hlk n hnl hnk
  obtain ⟨hlsrc, hl⟩ := hfrom l n hnl
  obtain ⟨hksrc, hk⟩ := hfrom k n hnk
  rcases hl with hl | ⟨rfl, hl⟩ <;> rcases hk with hk | ⟨rfl, hk⟩
  · exact hs l k hlk n hl hk
  · exact hs l src hlsrc n hl hk
  · exact hs src k hksrc.symm n hl hk
  · exact hlk rfl

/-- With a source that holds nodes, `ina_list_concat` puts its head behind the destination's tail and
    empties it. -/
theorem inaListConcat_cons {h : Heap δ} {dest src y : Nat}
    (hhead : (h.list src).head = some y)
    (hout : (concatHeads h dest src y).1 = .rc (.ok ())) :
    inaListConcat h dest (some src) = (.rc (.ok ()), (concatHeads h dest src y).2.modify src
      fun r => { r with head := none, count := 0 }) := by
  simp only [inaListConcat, hhead]
  cases hc : concatHeads h dest src y with
  | mk o h' =>
    rw [hc] at hout
    obtain rfl : o = .rc (.ok ()) := hout
    rfl

theorem Refines.concat {h : Heap δ} {s : Nat → List (Cell δ)} (hr : Refines h s)
    {dest src : Nat} (hne : dest ≠ src) :
    (inaListConcat h dest (some src)).1 = .rc (.ok ()) ∧
      Refines (inaListConcat h dest (some src)).2
        (Function.update (Function.update s dest (s dest ++ s src)) src []) := by
  have hs := hr.holds src
  cases hsrc : s src with
  | nil =>
    rw [hsrc] at hs
    have hhead : (h.list src).head = none := hs.head
    have hsame : Function.update (Function.update s dest (s dest ++ [])) src [] = s := by
      rw [List.append_nil, Function.update_eq_self, ← hsrc, Function.update_eq_self]
    simp only [inaListConcat, hhead]
    rw [hsame]
    exact ⟨trivial, hr⟩
  | cons y ys =>
    rw [hsrc] at hs
    have hapart := hr.apart dest src hne
    rw [hsrc] at hapart
    obtain ⟨hout, hholds, hframe⟩ := concatHeads_spec (hr.holds dest) hs hapart
    rw [inaListConcat_cons hs.head hout]
    rw [← hsrc] at hholds hframe ⊢
    have hclear := (SameBut.refl [src] [] (concatHeads h dest src y.node).2).modify
      List.mem_cons_self (fun r => { r with head := none, count := 0 })
    -- all of the source's nodes are now the destination's, and the source is empty
    refine ⟨rfl, ?_, ?_⟩
    · intro k
      by_cases hk : k = src
      · subst hk
        rw [Function.update_self]
        exact ⟨by simp [nodes], by simp, looped_nil, by simp⟩
      · rw [Function.update_of_ne hk]
        refine Holds.frame ?_ hclear (by simpa using hk) (fun _ _ => List.not_mem_nil)
        by_cases hkd : k = dest
        · subst hkd
          rw [Function.update_self]
          exact hholds
        · rw [Function.update_of_ne hkd]
          refine (hr.holds k).frame hframe (by simpa using hkd) ?_
          intro x hx hmem
          rcases List.mem_append.mp hmem with hmem | hmem
          · exact hr.apart k dest hkd x hx hmem
          · exact hr.apart k src hk x hx hmem
    · exact apart_concat hr.apart

section Runs
variable [DecidableEq δ]

theorem Refines.removeData {h : Heap δ} {s : Nat → List (Cell δ)} (hr : Refines h s)
    {fuel l : Nat} {d : δ} (hfuel : (s l).length ≤ fuel) :
    (inaListRemoveData fuel h l (some d)).1 = (if some d ∈ (s l).map Cell.data then
        if (h.list l).TakesNode then .rc (.ok ()) else .fault
      else .rc (.error .notExists)) ∧
      Refines (inaListRemoveData fuel h l (some d)).2 (spec s (.removeData l (some d))).2 := by
  have hh := hr.holds l
  have hseek := seekData_eq (d := d) hh.looped.visits hh.data hfuel
  rw [← hh.head] at hseek
  unfold inaListRemoveData
  dsimp only
  rw [hseek, spec]
  cases hfind : (s l).find? (fun c => c.data = some d) with
  | none =>
    -- No cell holds the datum.
    have hnot : some d ∉ (s l).map Cell.data := by
      intro hmem
      obtain ⟨c, hc, hcd⟩ := List.mem_map.mp hmem
      simpa [hcd] using List.find?_eq_none.mp hfind c hc
    rw [if_neg hnot, if_neg hnot]
    exact ⟨rfl, hr⟩
  | some c =>
    have hc : c ∈ s l := List.mem_of_find?_eq_some hfind
    have hcd : c.data = some d := by simpa using List.find?_some hfind
    have hmem : some d ∈ (s l).map Cell.data := List.mem_map.mpr ⟨c, hc, hcd⟩
    rw [if_pos hmem, if_pos hmem, deleteData_eq hh.looped.nodup hfind]
    exact hr.removeFound (List.mem_map_of_mem hc)

/-! ## Runs

The relation is kept by all calls that are allowed. So the lists are sequences in every run, and a
return code is wrong only where a call spills. -/

/-- What a caller owes: the node it inserts is in no list, the node it removes is in that list,
    and the lists it joins are two. A walk over a list has the fuel to get to its end. -/
def Allowed (fuel : Nat) (s : Nat → List (Cell δ)) : Op δ → Prop
  | .insertTail _ n _ => ∀ k, n ∉ nodes (s k)
  | .remove l n => n ∈ nodes (s l)
  | .removeData l _ => (s l).length ≤ fuel
  | .concat dest src => dest ≠ src

/-- The call takes a node out of its list and has no slot to put it into: the recycle array is full
    or was never allocated, and the list takes more nodes all the same. -/
def Spills (h : Heap δ) (s : Nat → List (Cell δ)) : Op δ → Prop
  | .removeData l (some d) => some d ∈ (s l).map Cell.data ∧ ¬ (h.list l).TakesNode
  | _ => False

instance (h : Heap δ) (s : Nat → List (Cell δ)) : (op : Op δ) → Decidable (Spills h s op)
  | .removeData _ (some _) => inferInstanceAs (Decidable (_ ∧ _))
  | .removeData _ none | .insertTail .. | .remove .. | .concat .. =>
    inferInstanceAs (Decidable False)

/-- **One call.** It returns what `spec` returns, unless it spills. The lists hold what `spec` makes of
    them in any case, as the node is out of its chain before it is stored. -/
theorem step_refines {fuel : Nat} {h : Heap δ} {s : Nat → List (Cell δ)} {op : Op δ}
    (hok : Allowed fuel s op) (hr : Refines h s) :
    (step fuel h op).1 = (if Spills h s op then .fault else (spec s op).1) ∧
      Refines (step fuel h op).2 (spec s op).2 := by
  cases op with
  | insertTail l n d => exact hr.linkTail d hok
  | remove l n => exact hr.unlink hok
  | removeData l d =>
    cases d with
    | none => exact ⟨rfl, hr⟩
    | some d =>
      obtain ⟨hout, hr'⟩ := hr.removeData hok
      refine ⟨?_, hr'⟩
      simp only [step, hout, spec, Spills]
      by_cases hmem : some d ∈ (s l).map Cell.data
      · by_cases htakes : (h.list l).TakesNode <;> simp [hmem, htakes]
      · simp [hmem]
  | concat dest src => exact hr.concat hok

/-- A sequence never faults. -/
theorem spec_ne_fault (s : Nat → List (Cell δ)) (op : Op δ) : (spec s op).1 ≠ .fault := by
  cases op with
  | insertTail l n d => simp [spec]
  | remove l n => simp [spec]
  | removeData l d =>
    cases d with
    | none => simp [spec]
    | some d => simp only [spec]; split <;> simp
  | concat dest src => simp [spec]

theorem step_out_iff {fuel : Nat} {h : Heap δ} {s : Nat → List (Cell δ)} {op : Op δ}
    (hok : Allowed fuel s op) (hr : Refines h s) :
    (step fuel h op).1 = (spec s op).1 ↔ ¬ Spills h s op := by
  rw [(step_refines hok hr).1]
  by_cases hspills : Spills h s op
  · rw [if_pos hspills]
    exact ⟨fun hout => absurd hout.symm (spec_ne_fault s op), fun hnot => absurd hspills hnot⟩
  · rw [if_neg hspills]
    exact ⟨fun _ => hspills, fun _ => rfl⟩

omit [DecidableEq δ] in
theorem refines_empty {h : Heap δ} (hempty : ∀ l, (h.list l).head = none ∧ (h.list l).count = 0) :
    Refines h fun _ => [] :=
  ⟨fun l => ⟨(hempty l).1, (hempty l).2, looped_nil, by simp⟩, by simp [nodes]⟩

/-- **The lists hold sequences, through any run.** From empty lists, after any calls their callers
    are allowed to make, every list is well formed and holds the sequence that appending, deleting a
    node, deleting the first node with some data, and concatenation give. -/
theorem list_run_spec (fuel : Nat) (h : Heap δ) (ops : List (Op δ))
    (hempty : ∀ l, (h.list l).head = none ∧ (h.list l).count = 0)
    (hok : Along spec (Allowed fuel) (fun _ => []) ops) :
    ∀ pre, pre <+: ops → ∀ l,
      WellFormed (exec (step fuel) h pre) l (exec spec (fun _ => []) pre l) := by
  have hboth : Along (both (step fuel) spec) (fun hs op => Allowed fuel hs.2 op)
      (h, fun _ => []) ops := (along_both_right _ _).mpr hok
  intro pre hpre l
  have hall := always_of_along (I := fun hs : Heap δ × _ => Refines hs.1 hs.2)
    (fun hs op hc hi => (step_refines hc hi).2) hboth (refines_empty hempty) pre hpre
  rw [exec_both] at hall
  exact (hall.holds l).wellFormed

/-- **When lists are sequences.** From empty lists, along any calls their callers are allowed to
    make: every list is well formed in every state and holds the sequence `spec` gives, and each
    call returns what `spec` returns, exactly if no call spills. -/
theorem list_run_right_iff (fuel : Nat) (h : Heap δ) (ops : List (Op δ))
    (hempty : ∀ l, (h.list l).head = none ∧ (h.list l).count = 0)
    (hok : Along spec (Allowed fuel) (fun _ => []) ops) :
    ((∀ pre, pre <+: ops → ∀ l,
        WellFormed (exec (step fuel) h pre) l (exec spec (fun _ => []) pre l)) ∧
      Along (both (step fuel) spec) (fun hs op => (step fuel hs.1 op).1 = (spec hs.2 op).1)
        (h, fun _ => []) ops) ↔
      Never (both (step fuel) spec) (fun hs op => Spills hs.1 hs.2 op) (h, fun _ => []) ops := by
  have hboth : Along (both (step fuel) spec) (fun hs op => Allowed fuel hs.2 op)
      (h, fun _ => []) ops := (along_both_right _ _).mpr hok
  rw [and_iff_right (list_run_spec fuel h ops hempty hok)]
  exact along_iff_never (I := fun hs : Heap δ × _ => Refines hs.1 hs.2)
    (fun hs op hc _ hi => (step_refines hc hi).2) (fun hs op hc hi => step_out_iff hc hi) hboth
    (refines_empty hempty)

end Runs

/-- Two lists of three cells in all, joined and cut down again. -/
theorem list_run_right_iff_joined :
    let h : Heap Nat := ⟨fun _ => none, fun _ => none, fun _ => none, fun _ => inaListNew false⟩
    let ops : List (Op Nat) := [.insertTail 0 1 (some 5), .insertTail 0 2 (some 6),
      .insertTail 1 3 (some 7), .concat 0 1, .remove 0 2, .removeData 0 (some 5)]
    (∀ l, (h.list l).head = none ∧ (h.list l).count = 0) ∧
      Along spec (Allowed 3) (fun _ => []) ops ∧
      exec spec (fun _ => []) ops 0 = [⟨3, some 7⟩] ∧
      WellFormed (exec (step 3) h ops) 0 (exec spec (fun _ => []) ops 0) := by
  have hempty : ∀ _ : Nat, (inaListNew false).head = none ∧ (inaListNew false).count = 0 :=
    fun _ => ⟨rfl, rfl⟩
  have hok : Along spec (Allowed 3) (fun _ => ([] : List (Cell Nat)))
      [.insertTail 0 1 (some 5), .insertTail 0 2 (some 6), .insertTail 1 3 (some 7),
        .concat 0 1, .remove 0 2, .removeData 0 (some 5)] := by
    refine ⟨?_, ?_, ?_, ?_, ?_, ?_, trivial⟩
    · intro k
      simp [nodes]
    · intro k
      by_cases hk : k = 0 <;> simp [spec, nodes, hk]
    · intro k
      by_cases hk : k = 0 <;> simp [spec, nodes, hk]
    · simp [Allowed]
    · simp [Allowed, spec, nodes]
    · simp [Allowed, spec]
  have hnever : Never (both (step 3) spec) (fun hs op => Spills hs.1 hs.2 op)
      ((⟨fun _ => none, fun _ => none, fun _ => none, fun _ => inaListNew false⟩ : Heap Nat),
        fun _ => [])
      [.insertTail 0 1 (some 5), .insertTail 0 2 (some 6), .insertTail 1 3 (some 7),
        .concat 0 1, .remove 0 2, .removeData 0 (some 5)] := by
    refine ⟨id, id, id, id, id, ?_, trivial⟩
    rintro ⟨-, htakes⟩
    refine htakes fun _ => ⟨by decide, ?_⟩
    show (0 : Int) + 1 < ((List.replicate 256 (none : Option Nat)).length : Int)
    rw [List.length_replicate]
    decide
  exact ⟨hempty, hok, rfl,
    ((list_run_right_iff 3 _ _ hempty hok).mpr hnever).1 _ List.prefix_rfl 0⟩

/-- A list without a recycle array: the first node that is removed by its data is stored through
    `NULL`. -/
theorem first_removed_spills :
    let h : Heap Nat := ⟨fun _ => none, fun _ => none, fun _ => none, fun _ => inaListNew true⟩
    let ops : List (Op Nat) := [.insertTail 0 1 (some 5), .removeData 0 (some 5)]
    (∀ l, (h.list l).head = none ∧ (h.list l).count = 0) ∧
      Along spec (Allowed 1) (fun _ => []) ops ∧
      ¬ Along (both (step 1) spec) (fun hs op => (step 1 hs.1 op).1 = (spec hs.2 op).1)
        (h, fun _ => []) ops := by
  refine ⟨fun _ => ⟨rfl, rfl⟩, ⟨?_, ?_, trivial⟩, ?_⟩
  · intro k
    simp [nodes]
  · simp [Allowed, spec]
  · rintro ⟨-, hremove, -⟩
    have hout : (Out.fault : Out) = .rc (.ok ()) := hremove
    cases hout

end LinkedList
end Inac
