import Inac.LinkedList.Run

/-!
# Walks with a callback

`ina_list_foreach` and `ina_list_foreach_arg` are one loop: from the head along `next`, which is
read before the callback runs, until the callback fails. They part in what they return. The first
tests the callback's code where it calls it and never assigns its own `rc`; the second assigns it in
every turn. So a failure ends both walks, and only the second one reports it.

A callback may do anything but relink the list: it gets a state `σ` of its own and returns another,
with its return code.
-/

namespace Inac
namespace LinkedList

open Lib

variable {δ σ α : Type}

/-- What a walk along `next` sees. -/
structure Chain (h : Heap δ) (l : Nat) (cells : List (Cell δ)) : Prop where
  visits : Visits h.next (h.list l).head (nodes cells)
  data : ∀ c ∈ cells, h.data c.node = c.data

theorem WellFormed.chain {h : Heap δ} {l : Nat} {cells : List (Cell δ)}
    (hw : WellFormed h l cells) : Chain h l cells := ⟨hw.visits, hw.data⟩

/-! ## The code

The two loops are written out both, since they differ in the return code. -/

/-- The outcome of a walk, the data its callback was called on, and the callback's last state. -/
structure Walk (δ σ : Type) where
  out : Out
  called : List (Option δ)
  state : σ

/-- The loop of `ina_list_foreach`. -/
def foreachLoop (h : Heap δ) (fn : Option δ → σ → Except Err Unit × σ) :
    Nat → Option Nat → σ → Walk δ σ
  | _, none, s => ⟨.rc (.ok ()), [], s⟩
  | 0, some _, s => ⟨.hang, [], s⟩
  | fuel + 1, some next, s =>
    let nextNext := h.next next
    match fn (h.data next) s with
    | (.error _, s) => ⟨.rc (.ok ()), [h.data next], s⟩
    | (.ok (), s) =>
      let w := foreachLoop h fn fuel nextNext s
      { w with called := h.data next :: w.called }

def inaListForeach (fuel : Nat) (h : Heap δ) (l : Nat)
    (fn : Option (Option δ → σ → Except Err Unit × σ)) (s : σ) : Walk δ σ :=
  match fn with
  | none => ⟨.rc (.error .invalidArgument), [], s⟩
  | some fn => foreachLoop h fn fuel (h.list l).head s

/-- The loop of `ina_list_foreach_arg`, with `rc` as it stands. -/
def foreachArgLoop (h : Heap δ) (fn : Option δ → α → σ → Except Err Unit × σ) (arg : α) :
    Nat → Option Nat → Except Err Unit → σ → Walk δ σ
  | _, none, rc, s => ⟨.rc rc, [], s⟩
  | 0, some _, _, s => ⟨.hang, [], s⟩
  | fuel + 1, some next, _, s =>
    let nextNext := h.next next
    match fn (h.data next) arg s with
    | (.error e, s) => ⟨.rc (.error e), [h.data next], s⟩
    | (.ok (), s) =>
      let w := foreachArgLoop h fn arg fuel nextNext (.ok ()) s
      { w with called := h.data next :: w.called }

def inaListForeachArg (fuel : Nat) (h : Heap δ) (l : Nat)
    (fn : Option (Option δ → α → σ → Except Err Unit × σ)) (arg : α) (s : σ) : Walk δ σ :=
  match fn with
  | none => ⟨.rc (.error .invalidArgument), [], s⟩
  | some fn => foreachArgLoop h fn arg fuel (h.list l).head (.ok ()) s

/-! ## What a walk is for

`callInTurn` is the same walk over a sequence of data, and says what calls there are to make. -/

/-- Call after call, in order, up to the first that fails: the data called on, the code of the last
    call, and its state. -/
def callInTurn (fn : Option δ → σ → Except Err Unit × σ) :
    List (Option δ) → σ → List (Option δ) × Except Err Unit × σ
  | [], s => ([], .ok (), s)
  | d :: ds, s =>
    match fn d s with
    | (.error e, s) => ([d], .error e, s)
    | (.ok (), s) => let r := callInTurn fn ds s; (d :: r.1, r.2)

/-- Some callback of the walk fails. -/
def SomeFails (fn : Option δ → σ → Except Err Unit × σ) (ds : List (Option δ)) (s : σ) : Prop :=
  (callInTurn fn ds s).2.1 ≠ .ok ()

/-- The outcome of a walk that does not keep the code. -/
def Out.unread : Out → Out
  | .rc _ => .rc (.ok ())
  | o => o

/-- `INA_FAILED` of what a call returns. -/
def Out.Failed (o : Out) : Prop := ∃ e, o = .rc (.error e)

/-- A walk that makes these calls and fails exactly if one of them does. -/
structure WalksRight (fn : Option δ → σ → Except Err Unit × σ) (ds : List (Option δ)) (s : σ)
    (w : Walk δ σ) : Prop where
  called : w.called = (callInTurn fn ds s).1
  state : w.state = (callInTurn fn ds s).2.2
  returns : w.out ≠ .fault ∧ w.out ≠ .hang
  failed : w.out.Failed ↔ SomeFails fn ds s

theorem failed_rc_iff {r : Except Err Unit} : (Out.rc r).Failed ↔ r ≠ .ok () := by
  constructor
  · rintro ⟨e, he⟩
    cases he
    intro hok
    cases hok
  · intro hne
    cases r with
    | ok u => exact absurd rfl hne
    | error e => exact ⟨e, rfl⟩

/-! ## The loops

The walks agree but for their codes, so one induction is enough. -/

section Loops
variable {h : Heap δ} {cells : List (Cell δ)}

theorem foreachArgLoop_eq {start : Option Nat} (hv : Visits h.next start (nodes cells))
    (hd : ∀ c ∈ cells, h.data c.node = c.data) {fuel : Nat} (hfuel : cells.length ≤ fuel)
    (fn : Option δ → α → σ → Except Err Unit × σ) (arg : α) (s : σ) :
    foreachArgLoop h fn arg fuel start (.ok ()) s =
      let r := callInTurn (fun d => fn d arg) (cells.map Cell.data) s
      ⟨.rc r.2.1, r.1, r.2.2⟩ := by
  induction cells generalizing start fuel s with
  | nil =>
    obtain rfl : start = none := hv.head
    rw [foreachArgLoop]
    rfl
  | cons c cs ih =>
    obtain rfl : start = some c.node := hv.head
    obtain ⟨fuel, rfl⟩ : ∃ f, fuel = f + 1 := Nat.exists_eq_add_one.mpr
      (Nat.lt_of_lt_of_le (Nat.succ_pos _) hfuel)
    rw [foreachArgLoop, List.map_cons, callInTurn, hd c List.mem_cons_self]
    dsimp only
    cases hfn : fn c.data arg s with
    -- The callback fails and the walk ends, or the walk goes on with its state.
    | mk r s' =>
      cases r with
      | error e => rfl
      | ok u =>
        have hrest := ih hv.rest (fun e he => hd e (List.mem_cons_of_mem c he))
          (Nat.le_of_succ_le_succ hfuel) s'
        dsimp only
        rw [hrest]

/-- **`ina_list_foreach` is `ina_list_foreach_arg` that forgets the code.** -/
theorem foreachLoop_eq_arg (fn : Option δ → α → σ → Except Err Unit × σ) (arg : α) (fuel : Nat)
    (start : Option Nat) (rc : Except Err Unit) (s : σ) :
    foreachLoop h (fun d => fn d arg) fuel start s =
      let w := foreachArgLoop h fn arg fuel start rc s
      { w with out := w.out.unread } := by
  induction fuel generalizing start rc s with
  | zero => cases start <;> rfl
  | succ fuel ih =>
    cases start with
    | none => rfl
    | some x =>
      rw [foreachLoop, foreachArgLoop]
      dsimp only
      cases hfn : fn (h.data x) arg s with
      | mk r s' =>
        cases r with
        | error e => rfl
        | ok u =>
          dsimp only
          rw [ih (h.next x) (.ok ()) s']

end Loops

/-- **Both walks are right exactly when no callback fails.** On every list, for every callback,
    argument and state: `ina_list_foreach` and `ina_list_foreach_arg` call it on the list's data in
    order, up to the first call that fails, and report a failure exactly if there was one, if and
    only if there is none. -/
theorem foreach_right_iff_none_fails {h : Heap δ} {l : Nat} {cells : List (Cell δ)}
    (hc : Chain h l cells) (fuel : Nat) (hfuel : cells.length ≤ fuel)
    (fn : Option δ → α → σ → Except Err Unit × σ) (arg : α) (s : σ) :
    WalksRight (fun d => fn d arg) (cells.map Cell.data) s
        (inaListForeach fuel h l (some fun d => fn d arg) s) ∧
      WalksRight (fun d => fn d arg) (cells.map Cell.data) s
        (inaListForeachArg fuel h l (some fn) arg s) ↔
    ¬ SomeFails (fun d => fn d arg) (cells.map Cell.data) s := by
  rw [inaListForeach, inaListForeachArg, foreachLoop_eq_arg fn arg fuel _ (.ok ()),
    foreachArgLoop_eq hc.visits hc.data hfuel]
  dsimp only [Out.unread]
  constructor
  · rintro ⟨hforeach, -⟩ hfails
    exact absurd rfl (failed_rc_iff.mp (hforeach.failed.mpr hfails))
  · intro hnone
    refine ⟨⟨rfl, rfl, ⟨Out.noConfusion, Out.noConfusion⟩, ?_⟩,
      rfl, rfl, ⟨Out.noConfusion, Out.noConfusion⟩, failed_rc_iff⟩
    constructor
    · intro hfailed
      exact absurd rfl (failed_rc_iff.mp hfailed)
    · intro hfails
      exact absurd hfails hnone

/-- Two nodes, and a callback that counts its calls and never fails. -/
theorem foreach_right_counting :
    let h : Heap Nat := ⟨fun n => if n = 1 then some 2 else none, fun _ => none,
      fun n => some (10 * n), fun _ => { inaListNew false with head := some 1, count := 2 }⟩
    Chain h 0 [⟨1, some 10⟩, ⟨2, some 20⟩] ∧
      WalksRight (fun _ calls => (.ok (), calls + 1)) [some 10, some 20] 0
        (inaListForeach 2 h 0 (some fun _ calls => (.ok (), calls + 1)) 0) := by
  intro h
  have hc : Chain h 0 [⟨1, some 10⟩, ⟨2, some 20⟩] := by
    refine ⟨.node 1 [2] (.node 2 [] .null), ?_⟩
    intro c hmem
    rcases List.mem_cons.mp hmem with rfl | hmem
    · rfl
    · obtain rfl := List.mem_singleton.mp hmem
      rfl
  refine ⟨hc, ?_⟩
  exact ((foreach_right_iff_none_fails hc 2 (Nat.le_refl 2)
    (fun _ (_ : Unit) (calls : Nat) => (.ok (), calls + 1)) () 0).mpr (not_not.mpr rfl)).1

/-- The callback fails on the one node there is, and `ina_list_foreach` returns success. -/
theorem foreach_hides_failure :
    let h : Heap Nat := ⟨fun _ => none, fun _ => none, fun _ => some 5,
      fun _ => { inaListNew false with head := some 1, count := 1 }⟩
    let fn : Option Nat → Unit → Except Err Unit × Unit := fun _ s => (.error .invalid, s)
    Chain h 0 [⟨1, some 5⟩] ∧ SomeFails fn [some 5] () ∧
      (inaListForeach 1 h 0 (some fn) ()).out = .rc (.ok ()) ∧
      (inaListForeachArg 1 h 0 (some fun d (_ : Unit) => fn d) () ()).out =
        .rc (.error .invalid) := by
  intro h fn
  refine ⟨⟨.node 1 [] .null, ?_⟩, ?_, rfl, rfl⟩
  · intro c hmem
    obtain rfl := List.mem_singleton.mp hmem
    rfl
  · intro hok
    cases hok

end LinkedList
end Inac
