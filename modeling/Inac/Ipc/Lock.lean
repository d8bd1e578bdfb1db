import Inac.Ipc.Defs
import Inac.Lib.Run

/-!
# The lock of the flags

`__INA_ENTER_LOCK` swaps 1 for 0 in the lock word and goes around again while the value it found
is zero. So it is the swap that finds the lock *held* that ends the loop: a process that has just
taken the free lock gets in with its next swap, and a process that meets a lock somebody else
holds gets in at once.

The lock still excludes as long as nobody meets it held. That is the condition here: no process
makes the first swap of a call while the lock word is not zero. Under it a process *owns* the lock
from its first swap to the swap of `__INA_EXIT_LOCK`, the lock word is not zero while it does, and
there is one owner at most.
-/

namespace Inac
namespace Ipc

open Lib

variable {ι : Type}

/-- Between `__INA_ENTER_LOCK` and `__INA_EXIT_LOCK`. -/
def FlagsPc.inside : FlagsPc → Bool
  | .idle => false
  | .enter _ _ => false
  | _ => true

/-- Inside, or at `__INA_ENTER_LOCK` after a swap. -/
def FlagsPc.owner : FlagsPc → Bool
  | .idle => false
  | .enter _ swaps => 0 < swaps
  | _ => true

/-- Before the first swap of a call. -/
def FlagsPc.arriving : FlagsPc → Bool
  | .enter _ 0 => true
  | _ => false

/-- At most one process is inside. -/
def MutualExclusion (s : FlagsSys ι) : Prop :=
  ∀ p q, (s.pc p).inside = true → (s.pc q).inside = true → p = q

/-- A process makes the first swap of its call, and finds the lock held. -/
def Contended (s : FlagsSys ι) : FlagsAct ι → Prop
  | .call _ _ => False
  | .move p _ => (s.pc p).arriving = true ∧ s.l ≠ 0

instance (s : FlagsSys ι) : ∀ a, Decidable (Contended s a)
  | .call _ _ => inferInstanceAs (Decidable False)
  | .move _ _ => inferInstanceAs (Decidable (_ ∧ _))

/-! ## One owner

A process owns the lock before it is inside, namely from its first swap on. -/

structure OneOwner (s : FlagsSys ι) : Prop where
  word : s.l = 0 ∨ s.l = 1
  free : s.l = 0 → ∀ p, (s.pc p).owner = false
  unique : ∀ p q, (s.pc p).owner = true → (s.pc q).owner = true → p = q

theorem owner_of_inside {pc : FlagsPc} (h : pc.inside = true) : pc.owner = true := by
  cases pc <;> simp_all [FlagsPc.inside, FlagsPc.owner]

theorem OneOwner.exclusive {s : FlagsSys ι} (h : OneOwner s) : MutualExclusion s :=
  fun p q hp hq => h.unique p q (owner_of_inside hp) (owner_of_inside hq)

/-! ## What a step does to the lock

Of the steps inside, only the last one touches the lock word. -/

section Steps
variable [DecidableEq ι]

inductive LockStep (s s' : FlagsSys ι) (a : FlagsAct ι) : Prop where
  | stay (hl : s'.l = s.l) (hpc : s'.pc = s.pc)
  | call (p : ι) (c : FlagsCall) (hp : s.pc p = .idle) (hl : s'.l = s.l)
      (hpc : s'.pc = Function.update s.pc p (.enter c 0))
  | take (p : ι) (b : Bool) (c : FlagsCall) (n : Nat) (ha : a = .move p b)
      (hp : s.pc p = .enter c n) (hfree : s.l = 0) (hl : s'.l = 1)
      (hpc : s'.pc = Function.update s.pc p (.enter c (n + 1)))
  | pass (p : ι) (b : Bool) (c : FlagsCall) (n : Nat) (pc : FlagsPc) (ha : a = .move p b)
      (hp : s.pc p = .enter c n) (hheld : s.l ≠ 0) (hin : pc.inside = true) (hl : s'.l = s.l)
      (hpc : s'.pc = Function.update s.pc p pc)
  | work (p : ι) (pc : FlagsPc) (hp : (s.pc p).inside = true) (hin : pc.inside = true)
      (hl : s'.l = s.l) (hpc : s'.pc = Function.update s.pc p pc)
  | leave (p : ι) (hp : s.pc p = .exit) (hl : s'.l = (atomicSwap s.l 1 0).2)
      (hpc : s'.pc = Function.update s.pc p .idle)

theorem body_inside (c : FlagsCall) : c.body.inside = true := by cases c <;> rfl

/-- The accesses inside touch everything but the lock. -/
theorem stepFlagsProc_work {s : FlagsSys ι} {p : ι} {b : Bool} (hin : (s.pc p).inside = true)
    (hexit : s.pc p ≠ .exit) : ∃ pc, pc.inside = true ∧ (stepFlagsProc s p b).2.l = s.l ∧
      (stepFlagsProc s p b).2.pc = Function.update s.pc p pc := by
  unfold stepFlagsProc
  -- Every access between the two swaps of the lock, by where the process is.
  cases hpc : s.pc p with
  | idle => rw [hpc] at hin; exact absurd hin (by decide)
  | enter c n => rw [hpc] at hin; exact absurd hin (by simp [FlagsPc.inside])
  | setValue value r =>
    dsimp only
    split <;> exact ⟨_, rfl, rfl, rfl⟩
  | setRef value j =>
    dsimp only
    split
    · split <;> exact ⟨_, rfl, rfl, rfl⟩
    · exact ⟨_, rfl, rfl, rfl⟩
  | setStore value j n => exact ⟨_, rfl, rfl, rfl⟩
  | unsetRef value j =>
    dsimp only
    split
    · split <;> exact ⟨_, rfl, rfl, rfl⟩
    · exact ⟨_, rfl, rfl, rfl⟩
  | unsetLoad value j => exact ⟨_, rfl, rfl, rfl⟩
  | unsetStore value j n =>
    dsimp only
    split <;> exact ⟨_, rfl, rfl, rfl⟩
  | unsetValue value j r =>
    dsimp only
    split <;> exact ⟨_, rfl, rfl, rfl⟩
  | clearRef value j =>
    dsimp only
    split
    · split <;> exact ⟨_, rfl, rfl, rfl⟩
    · exact ⟨_, rfl, rfl, rfl⟩
  | clearValue value j r =>
    dsimp only
    split <;> exact ⟨_, rfl, rfl, rfl⟩
  | clearStore value j => exact ⟨_, rfl, rfl, rfl⟩
  | exit => exact absurd hpc hexit

theorem stepFlags_cases (s : FlagsSys ι) (a : FlagsAct ι) : LockStep s (stepFlags s a).2 a := by
  cases a with
  | call p c =>
    cases hpc : s.pc p with
    | idle => refine .call p c hpc ?_ ?_ <;> simp [stepFlags, hpc, FlagsSys.goto]
    | _ => refine .stay ?_ ?_ <;> simp [stepFlags, hpc]
  | move p b =>
    by_cases hin : (s.pc p).inside = true
    · by_cases hexit : s.pc p = .exit
      · refine .leave p hexit ?_ ?_ <;>
          simp [stepFlags, stepFlagsProc, hexit, FlagsSys.goto]
      · obtain ⟨pc, hpc, hl, hupd⟩ := stepFlagsProc_work (b := b) hin hexit
        exact .work p pc hin hpc hl hupd
    · cases hpc : s.pc p with
      | idle => refine .stay ?_ ?_ <;> simp [stepFlags, stepFlagsProc, hpc]
      | enter c n =>
        by_cases hfree : s.l = 0
        · refine .take p b c n rfl hpc hfree ?_ ?_ <;>
            simp [stepFlags, stepFlagsProc, hpc, FlagsSys.goto, atomicSwap, hfree]
        · refine .pass p b c n c.body rfl hpc hfree (body_inside c) ?_ ?_ <;>
            simp [stepFlags, stepFlagsProc, hpc, FlagsSys.goto, atomicSwap, hfree]
      | _ => rw [hpc] at hin; exact absurd rfl hin

/-! ## Steps keep one owner

A first swap that meets the lock free makes its process the owner. If it met it held there would be
two. -/

/-- A process that owns no more than it did leaves the others' ownership as it is. -/
theorem owner_update {s : FlagsSys ι} {p q : ι} {pc : FlagsPc}
    (hle : pc.owner = true → (s.pc p).owner = true)
    (hq : (Function.update s.pc p pc q).owner = true) : (s.pc q).owner = true := by
  by_cases hqp : q = p
  · subst hqp
    rw [Function.update_self] at hq
    exact hle hq
  · rwa [Function.update_of_ne hqp] at hq

theorem OneOwner.keep {s s' : FlagsSys ι} (h : OneOwner s) {p : ι} {pc : FlagsPc}
    (hl : s'.l = s.l) (hpc : s'.pc = Function.update s.pc p pc)
    (hle : pc.owner = true → (s.pc p).owner = true) : OneOwner s' := by
  refine ⟨by rw [hl]; exact h.word, ?_, ?_⟩
  · intro hfree q
    rw [hl] at hfree
    rw [Bool.eq_false_iff, hpc]
    intro hq
    exact absurd (owner_update hle hq) (by simp [h.free hfree q])
  · intro q r hq hr
    rw [hpc] at hq hr
    exact h.unique q r (owner_update hle hq) (owner_update hle hr)

theorem step_oneOwner {s : FlagsSys ι} {a : FlagsAct ι} (hc : ¬ Contended s a)
    (h : OneOwner s) : OneOwner (stepFlags s a).2 := by
  cases stepFlags_cases s a with
  | stay hl hpc => exact ⟨by rw [hl]; exact h.word, by rw [hl, hpc]; exact h.free,
      by rw [hpc]; exact h.unique⟩
  | call p c hp hl hpc => exact h.keep hl hpc (by simp [FlagsPc.owner])
  | take p b c n ha hp hfree hl hpc =>
    refine ⟨.inr hl, ?_, ?_⟩
    · intro hzero
      rw [hl] at hzero
      exact absurd hzero (by decide)
    · -- the lock was free, so its taker is the only owner
      have honly : ∀ q, ((stepFlags s a).2.pc q).owner = true → q = p := by
        intro q hq
        by_contra hqp
        rw [hpc, Function.update_of_ne hqp, h.free hfree q] at hq
        exact absurd hq (by decide)
      intro q r hq hr
      rw [honly q hq, honly r hr]
  | pass p b c n pc ha hp hheld hin hl hpc =>
    refine h.keep hl hpc fun _ => ?_
    -- a first swap that finds the lock held is what the condition rules out
    subst ha
    cases n with
    | zero => exact absurd ⟨by rw [hp]; rfl, hheld⟩ hc
    | succ n => rw [hp]; simp [FlagsPc.owner]
  | work p pc hp hin hl hpc => exact h.keep hl hpc fun _ => owner_of_inside hp
  | leave p hp hl hpc =>
    have hown : (s.pc p).owner = true := by rw [hp]; rfl
    have hnone : ∀ q, ((stepFlags s a).2.pc q).owner = false := by
      intro q
      rw [hpc]
      by_cases hqp : q = p
      · rw [hqp, Function.update_self]; rfl
      · rw [Function.update_of_ne hqp, Bool.eq_false_iff]
        exact fun hq => hqp (h.unique q p hq hown)
    refine ⟨?_, fun _ => hnone, fun q r hq => by rw [hnone q] at hq; exact absurd hq (by decide)⟩
    rw [hl, atomicSwap]
    rcases h.word with hw | hw <;> simp [hw]

/-- **The lock excludes where nobody meets it held.** In every run in which no process makes the
    first swap of a call on a held lock, at most one process is inside in every state. -/
theorem flags_mutual_exclusion (v : BitVec 64) (cRef : Nat → BitVec 32)
    (acts : List (FlagsAct ι)) (hnever : Never stepFlags Contended (FlagsSys.quiet v cRef) acts) :
    Always stepFlags MutualExclusion (FlagsSys.quiet v cRef) acts := by
  have hstart : OneOwner (FlagsSys.quiet (ι := ι) v cRef) :=
    ⟨.inl rfl, fun _ _ => rfl, fun _ _ hp => absurd hp Bool.false_ne_true⟩
  have hall := always_of_never (fun _ _ hc h => step_oneOwner hc h) hnever hstart
  exact fun pre hpre => (hall pre hpre).exclusive

end Steps

/-- One process sets a flag and returns, then another one clears it. -/
theorem flags_mutual_exclusion_in_turn :
    let acts := FlagsAct.call false (.set 1) :: List.replicate 72 (.move false true) ++
      .call true (.clear 1) :: List.replicate 5 (.move true false)
    Never stepFlags Contended (FlagsSys.quiet (ι := Bool) 0 fun _ => 0) acts ∧
      Always stepFlags MutualExclusion (FlagsSys.quiet (ι := Bool) 0 fun _ => 0) acts := by
  have hnever : Never stepFlags Contended (FlagsSys.quiet (ι := Bool) 0 fun _ => 0)
      (FlagsAct.call false (.set 1) :: List.replicate 72 (.move false true) ++
        .call true (.clear 1) :: List.replicate 5 (.move true false)) := by
    decide +kernel
  exact ⟨hnever, flags_mutual_exclusion 0 _ _ hnever⟩

/-- Two processes call `ina_ipc_flags_set`; the first takes the lock and gets in, the second meets
    it held and gets in too. -/
theorem flags_two_inside :
    ¬ Always stepFlags MutualExclusion (FlagsSys.quiet (ι := Bool) 0 fun _ => 0)
      [.call false (.set 1), .call true (.set 2), .move false true, .move false true,
        .move true true] := by
  intro h
  have hboth := h _ List.prefix_rfl false true (by decide) (by decide)
  exact absurd hboth (by decide)

end Ipc
end Inac
