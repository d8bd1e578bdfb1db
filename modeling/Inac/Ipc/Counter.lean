import Mathlib.Algebra.BigOperators.Fin
import Mathlib.Data.BitVec
import Mathlib.Tactic.Abel
import Mathlib.Tactic.LinearCombination
import Inac.Ipc.Defs
import Inac.Lib.Run

/-!
# Updates of a counter

`ina_ipc_counter_increment` reads the counter twice, adds its value to what the second read gave
and swaps that in where the counter still is what the first read gave. It does not look at whether
the swap took place. An update is therefore lost when another process changes the counter between
the reads and the swap; `Stale` is the swap that loses it.

In a run without such a swap, the counter and the values of the calls that have not swapped yet
always add up to the initial value and the values of all calls (`Balanced`). Once every call has
returned, the counter alone does.
-/

namespace Inac
namespace Ipc

open Lib

variable {ι : Type}

/-! ## What the calls add up to

The values of all calls that were made, and of those that are not in the counter yet. -/

/-- What a call is to add. -/
def CounterCall.delta : CounterCall → BitVec 64
  | .increment value => value
  | .decrement value => -value

theorem CounterCall.apply_eq (call : CounterCall) (c : BitVec 64) :
    call.apply c = c + call.delta := by
  cases call with
  | increment value => rfl
  | decrement value => exact sub_eq_add_neg c value

def CounterCall.incremented : CounterCall → BitVec 64
  | .increment value => value
  | .decrement _ => 0

def CounterCall.decremented : CounterCall → BitVec 64
  | .increment _ => 0
  | .decrement value => value

/-- The sum of the increments less the sum of the decrements. -/
theorem sum_delta (calls : List CounterCall) : (calls.map CounterCall.delta).sum =
    (calls.map CounterCall.incremented).sum - (calls.map CounterCall.decremented).sum := by
  induction calls with
  | nil => simp
  | cons call calls ih =>
    cases call <;>
      simp only [List.map_cons, List.sum_cons, ih, CounterCall.delta, CounterCall.incremented,
        CounterCall.decremented] <;> abel

/-! ## Stale swaps

In terms of what the process has read and the counter as it is. -/

/-- The swap comes next, and the counter is not what both reads gave: the swap fails, though there
    is something to add, or it stores a sum that was formed from another value. -/
def CounterPc.stale (c : BitVec 64) : CounterPc → Bool
  | .update call (.both o b) => (c ≠ o ∧ call.delta ≠ 0) ∨ (c = o ∧ b ≠ o)
  | _ => false

/-- A process makes a stale swap. -/
def Stale (s : CounterSys ι) : CounterAct ι → Prop
  | .call _ _ => False
  | .move p _ => (s.pc p).stale s.c = true

instance (s : CounterSys ι) : ∀ a, Decidable (Stale s a)
  | .call _ _ => inferInstanceAs (Decidable False)
  | .move _ _ => inferInstanceAs (Decidable (_ = true))

/-! ## What a step does

Five kinds of steps, of which one changes the counter. -/

section Steps
variable [DecidableEq ι]

inductive CounterStep (s s' : CounterSys ι) (a : CounterAct ι) : Prop where
  | stay (he : s' = s)
  | call (p : ι) (call : CounterCall) (hp : s.pc p = .idle)
      (he : s' = { s with calls := s.calls ++ [call] }.goto p (.update call .start))
  | read (p : ι) (call : CounterCall) (r r' : Rmw) (hp : s.pc p = .update call r)
      (he : s' = s.goto p (.update call r'))
  | swap (p : ι) (b : Bool) (call : CounterCall) (o base : BitVec 64) (ha : a = .move p b)
      (hp : s.pc p = .update call (.both o base))
      (he : s' = { s with c := (atomicSwap s.c o (call.apply base)).2 }.goto p (.result call))
  | back (p : ι) (call : CounterCall) (hp : s.pc p = .result call) (he : s' = s.goto p .idle)

theorem stepCounter_cases (s : CounterSys ι) (a : CounterAct ι) :
    CounterStep s (stepCounter s a).2 a := by
  cases a with
  | call p call =>
    cases hpc : s.pc p with
    | idle => exact .call p call hpc (by simp [stepCounter, hpc])
    | _ => exact .stay (by simp [stepCounter, hpc])
  | move p b =>
    cases hpc : s.pc p with
    | idle => exact .stay (by simp [stepCounter, stepCounterProc, hpc])
    | update call r =>
      cases r with
      -- The two reads, in either order.
      | start =>
        refine .read p call .start (if b then .old s.c else .base s.c) hpc ?_
        rw [stepCounter, stepCounterProc, hpc]
        rfl
      | old o =>
        refine .read p call (.old o) (.both o s.c) hpc ?_
        rw [stepCounter, stepCounterProc, hpc]
        rfl
      | base base =>
        refine .read p call (.base base) (.both s.c base) hpc ?_
        rw [stepCounter, stepCounterProc, hpc]
        rfl
      | both o base =>
        exact .swap p b call o base rfl hpc (by simp [stepCounter, stepCounterProc, hpc, Rmw.next])
    | result call => exact .back p call hpc (by simp [stepCounter, stepCounterProc, hpc])

end Steps

/-! ## The balance

A step takes a value from those that are to come to the counter, or leaves both alone. -/

/-- What a process in a call has not added yet. -/
def CounterPc.pending : CounterPc → BitVec 64
  | .idle => 0
  | .update call _ => call.delta
  | .result _ => 0

section Balance
variable [DecidableEq ι] [Fintype ι]

/-- The counter and what is pending are the initial value and what all calls add. -/
def Balanced (c : BitVec 64) (s : CounterSys ι) : Prop :=
  s.c + ∑ p, (s.pc p).pending = c + (s.calls.map CounterCall.delta).sum

/-- One process moves on: the sum changes by the difference. -/
theorem sum_pending_update (pcs : ι → CounterPc) (p : ι) (pc : CounterPc) :
    ∑ q, (Function.update pcs p pc q).pending =
      ∑ q, (pcs q).pending - (pcs p).pending + pc.pending := by
  rw [Fintype.sum_eq_add_sum_compl p, Fintype.sum_eq_add_sum_compl p, Function.update_self]
  have hrest : ∑ q ∈ {p}ᶜ, (Function.update pcs p pc q).pending =
      ∑ q ∈ {p}ᶜ, (pcs q).pending := by
    refine Finset.sum_congr rfl fun q hq => ?_
    rw [Function.update_of_ne (by simpa using hq)]
  rw [hrest]
  abel

theorem Balanced.move {c : BitVec 64} {s s' : CounterSys ι} (h : Balanced c s) (p : ι)
    (pc : CounterPc) (hpc : s'.pc = Function.update s.pc p pc)
    (hdiff : s'.c + pc.pending + (s.calls.map CounterCall.delta).sum =
      s.c + (s.pc p).pending + (s'.calls.map CounterCall.delta).sum) : Balanced c s' := by
  unfold Balanced at h ⊢
  rw [hpc, sum_pending_update]
  linear_combination h + hdiff

/-- A swap that is not stale adds what it should. -/
theorem swap_eq {call : CounterCall} {c o b : BitVec 64}
    (h : ¬ ((c ≠ o ∧ call.delta ≠ 0) ∨ (c = o ∧ b ≠ o))) :
    (atomicSwap c o (call.apply b)).2 = c + call.delta := by
  rw [not_or, not_and, not_and, not_not, not_not] at h
  rw [atomicSwap, call.apply_eq]
  by_cases hc : c = o
  · rw [if_pos hc, h.2 hc, hc]
  · rw [if_neg hc, h.1 hc, add_zero]

theorem step_balanced {c : BitVec 64} {s : CounterSys ι} {a : CounterAct ι} (hs : ¬ Stale s a)
    (h : Balanced c s) : Balanced c (stepCounter s a).2 := by
  cases stepCounter_cases s a with
  | stay he => rw [he]; exact h
  | call p call hp he =>
    rw [he]
    refine h.move p (.update call .start) rfl ?_
    simp only [CounterSys.goto, CounterPc.pending, hp, List.map_append, List.map_cons,
      List.map_nil, List.sum_append, List.sum_singleton]
    abel
  | read p call r r' hp he =>
    rw [he]
    refine h.move p (.update call r') rfl ?_
    simp only [CounterSys.goto, CounterPc.pending, hp]
  | swap p b call o base ha hp he =>
    rw [he]
    -- A swap that goes through took the value from the same counter, and one that fails had nothing
    -- to add.
    have hswap : (atomicSwap s.c o (call.apply base)).2 = s.c + call.delta := by
      apply swap_eq
      rw [ha, Stale, hp] at hs
      simpa [CounterPc.stale] using hs
    refine h.move p (.result call) rfl ?_
    simp only [CounterSys.goto, CounterPc.pending, hp, hswap, add_zero]
  | back p call hp he =>
    rw [he]
    refine h.move p .idle rfl ?_
    simp only [CounterSys.goto, CounterPc.pending, hp]

/-- **No update is lost where no swap is stale.** In every run without a stale swap, when every
    call has returned the counter is its initial value plus the increments less the decrements,
    modulo `2 ^ 64`. -/
theorem counter_no_lost_update (c : BitVec 64) (acts : List (CounterAct ι))
    (hnever : Never stepCounter Stale (CounterSys.quiet c) acts)
    (hidle : ∀ p, (exec stepCounter (CounterSys.quiet c) acts).pc p = .idle) :
    let s := exec stepCounter (CounterSys.quiet c) acts
    s.c = c + (s.calls.map CounterCall.incremented).sum -
      (s.calls.map CounterCall.decremented).sum := by
  have hstart : Balanced c (CounterSys.quiet (ι := ι) c) := by
    simp [Balanced, CounterSys.quiet, CounterPc.pending]
  have hend : Balanced c (exec stepCounter (CounterSys.quiet c) acts) :=
    always_of_never (fun _ _ hs h => step_balanced hs h) hnever hstart acts List.prefix_rfl
  simp only [Balanced, hidle, CounterPc.pending, Finset.sum_const_zero, add_zero, sum_delta] at hend
  intro s
  rw [add_sub_assoc]
  exact hend

end Balance

/-- One process adds five, then another one takes two away. -/
theorem counter_no_lost_update_in_turn :
    let acts : List (CounterAct Bool) :=
      [.call false (.increment 5), .move false true, .move false true, .move false true,
        .move false true, .call true (.decrement 2), .move true false, .move true false,
        .move true false, .move true false]
    Never stepCounter Stale (CounterSys.quiet 7) acts ∧
      (exec stepCounter (CounterSys.quiet 7) acts).c = 7 + (5 + 0) - (0 + 2) := by
  have hnever : Never stepCounter Stale (CounterSys.quiet (ι := Bool) 7)
      [.call false (.increment 5), .move false true, .move false true, .move false true,
        .move false true, .call true (.decrement 2), .move true false, .move true false,
        .move true false, .move true false] := by
    decide
  refine ⟨hnever, ?_⟩
  have h := counter_no_lost_update 7 _ hnever (by decide)
  exact h

/-- Two processes increment a counter by one at the same time, and it ends at one. -/
theorem counter_loses_update :
    let acts : List (CounterAct Bool) :=
      [.call false (.increment 1), .call true (.increment 1), .move false true, .move false true,
        .move true true, .move true true, .move false true, .move true true, .move false true,
        .move true true]
    let s := exec stepCounter (CounterSys.quiet 0) acts
    (∀ p, s.pc p = .idle) ∧ s.c ≠ 0 + (s.calls.map CounterCall.incremented).sum -
      (s.calls.map CounterCall.decremented).sum := by
  decide

end Ipc
end Inac
