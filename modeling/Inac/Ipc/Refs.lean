import Mathlib.Data.BitVec
import Inac.Ipc.Defs
import Inac.Lib.Run

/-!
# Flags and their reference counts

`ina_ipc_flags_set` sets its flags in one swap and then counts each of them; `unset` and `clear` go
from flag to flag and change the word one bit at a time. Where calls do not overlap, a call meets
the flags as the call before left them, every swap finds what was read for it, and what the call
does to one flag depends on that flag alone (`FlagsCall.on`).

A call is made of the accesses of `Inac.Ipc.Defs`, so that its end is something to prove: whatever
order the reads of its swaps are made in, `callMoves` accesses bring every call back.
-/

namespace Inac
namespace Ipc

open Lib

/-! ## Calls in turn

The state between two calls, with nobody inside. -/

section Turns
variable {ι : Type} [DecidableEq ι]

/-- More accesses than a call ever makes. -/
@[irreducible] def callMoves : Nat := 2 + (3 + (6 * ipcFlagsMax + 2))

/-- A call that is made from its beginning to its end; `reads` says which read is made first, where
    the order is open. -/
structure Turn (ι : Type) where
  proc : ι
  call : FlagsCall
  reads : Nat → Bool

def Turn.moves (t : Turn ι) : List (FlagsAct ι) :=
  (List.range callMoves).map fun i => .move t.proc (t.reads i)

def stepTurn (s : FlagsSys ι) (t : Turn ι) : Unit × FlagsSys ι :=
  ((), exec stepFlags s (.call t.proc t.call :: t.moves))

end Turns

/-! ## One flag

What a call means for a flag: whether it is set, and its count. -/

/-- The argument of a call. -/
def FlagsCall.mask : FlagsCall → BitVec 64
  | .set value | .unset value | .clear value => value

/-- A flag and its count. -/
def flag (v : BitVec 64) (cRef : Nat → BitVec 32) (k : Nat) : Bool × BitVec 32 :=
  (v.getLsbD k, cRef k)

/-- What the loop of a call does to a flag of its mask. -/
def FlagsCall.tick : FlagsCall → Bool × BitVec 32 → Bool × BitVec 32
  | .set _, (b, n) => (b, n + 1)
  | .unset _, (b, n) => if n = 0 then (b, n) else (b && n - 1 ≠ 0, n - 1)
  | .clear _, _ => (false, 0)

/-- What a call does to a flag of its mask. -/
def FlagsCall.on : FlagsCall → Bool × BitVec 32 → Bool × BitVec 32
  | .set value, (_, n) => (FlagsCall.set value).tick (true, n)
  | c, f => c.tick f

/-! ## Bits

A word is changed at one place. -/

theorem flagAt_ne_zero_iff (value : BitVec 64) {j : Nat} (hj : j < 64) :
    flagAt value j ≠ 0#64 ↔ value.getLsbD j = true := by
  have hbit : flagAt value j = if value.getLsbD j then BitVec.twoPow 64 j >>> j else 0#64 >>> j := by
    rw [flagAt, ← BitVec.twoPow_eq, BitVec.and_twoPow]
    split <;> rfl
  have hpow : BitVec.twoPow 64 j >>> j ≠ 0#64 := by
    intro hzero
    have hlow := congrArg (fun x => x.getLsbD 0) hzero
    simp [hj] at hlow
  rw [hbit]
  split
  · exact iff_of_true hpow ‹_›
  · refine iff_of_false ?_ ‹_›
    rw [BitVec.zero_ushiftRight]
    exact fun hc => hc rfl

theorem getLsbD_flagMask {j : Nat} (hj : j < 64) (k : Nat) :
    (flagMask j).getLsbD k = decide (k = j) := by
  rw [flagMask, BitVec.or_zero, ← BitVec.twoPow_eq, BitVec.getLsbD_twoPow]
  simp [hj, eq_comm]

/-- The word with one flag cleared, and its count stored. -/
theorem flag_unmask (v : BitVec 64) (cRef : Nat → BitVec 32) {j : Nat} (hj : j < 64) (n : BitVec 32)
    (k : Nat) : flag (v &&& ~~~ flagMask j) (Function.update cRef j n) k =
      if k = j then (false, n) else flag v cRef k := by
  rw [flag, BitVec.getLsbD_and, BitVec.getLsbD_not, getLsbD_flagMask hj, Function.update_apply]
  split
  · rename_i heq
    simp [heq]
  · rename_i hne
    by_cases hk : k < 64
    · simp [flag, hne, hk]
    · simp [flag, BitVec.getLsbD_of_ge v k (Nat.not_lt.mp hk)]

theorem flag_count (v : BitVec 64) (cRef : Nat → BitVec 32) (j : Nat) (n : BitVec 32) (k : Nat) :
    flag v (Function.update cRef j n) k = if k = j then (v.getLsbD j, n) else flag v cRef k := by
  rw [flag, Function.update_apply]
  split
  · rename_i heq
    rw [heq]
  · rfl

/-! ## One process in a call

`Ends`: after a number of accesses, whichever read is made first, a call is back in such a state. -/

section Calls
variable {ι : Type} [DecidableEq ι]

/-- The accesses of a process. -/
def MoveOf (p : ι) (a : FlagsAct ι) : Prop := ∃ b, a = .move p b

/-- A process in a call, with the lock taken, and nobody else in one. -/
def busy (p : ι) (v : BitVec 64) (cRef : Nat → BitVec 32) (pc : FlagsPc) : FlagsSys ι :=
  { l := 1, v := v, cRef := cRef, pc := Function.update (fun _ => .idle) p pc }

/-- A call in progress ends after `k` accesses, in `P`. -/
def Ends (p : ι) (k : Nat) (P : FlagsSys ι → Prop) (s : FlagsSys ι) : Prop :=
  Comes stepFlags (MoveOf p) k P s

theorem Ends.of_step {p : ι} {k : Nat} {P : FlagsSys ι → Prop} {s : FlagsSys ι}
    (h : ∀ b, Ends p k P (stepFlagsProc s p b).2) : Ends p (k + 1) P s := by
  refine Comes.of_step ?_
  rintro _ ⟨b, rfl⟩
  exact h b

/-- An access that does the same whatever is read first. -/
theorem Ends.of_eq {p : ι} {k : Nat} {P : FlagsSys ι → Prop} {s s' : FlagsSys ι}
    (heq : ∀ b, (stepFlagsProc s p b).2 = s') (h : Ends p k P s') : Ends p (k + 1) P s :=
  .of_step fun b => by
    rw [heq b]
    exact h

theorem Ends.mono {p : ι} {k l : Nat} {P : FlagsSys ι → Prop} {s : FlagsSys ι} (h : Ends p k P s)
    (hle : k ≤ l) : Ends p l P s := Comes.mono h hle

/-- A process that has returned does nothing. -/
theorem Ends.of_quiet {p : ι} {P : FlagsSys ι → Prop} {v : BitVec 64} {cRef : Nat → BitVec 32}
    (h : P (.quiet v cRef)) : Ends p 0 P (.quiet v cRef) := by
  refine Comes.of_still ?_ h
  rintro _ ⟨b, rfl⟩
  rfl

/-- **The swap of the word**: with nobody else at work its three accesses apply the update. -/
theorem Ends.of_swap {p : ι} {k : Nat} {P : FlagsSys ι → Prop} {v : BitVec 64}
    {cRef : Nat → BitVec 32} {f : BitVec 64 → BitVec 64} {g : Rmw → FlagsPc} {pc : FlagsPc}
    (hpc : ∀ v r b, (stepFlagsProc (busy p v cRef (g r)) p b).2 =
      match r.next f v b with
      | (some r, v) => busy p v cRef (g r)
      | (none, v) => busy p v cRef pc)
    (h : Ends p k P (busy p (f v) cRef pc)) : Ends p (k + 3) P (busy p v cRef (g .start)) := by
  have hboth : Ends p (k + 1) P (busy p v cRef (g (.both v v))) := by
    refine .of_step fun b => ?_
    rw [hpc]
    simp only [Rmw.next, atomicSwap, if_true]
    exact h
  refine .of_step fun b => ?_
  rw [hpc]
  -- either read comes first, and the word is the same at the other
  cases b with
  | true =>
    refine .of_step fun b => ?_
    simp only [Rmw.next, if_true, hpc]
    exact hboth
  | false =>
    refine .of_step fun b => ?_
    simp only [Rmw.next, Bool.false_eq_true, if_false, hpc]
    exact hboth

/-- Where a call tests its loop. -/
def FlagsCall.test : FlagsCall → Nat → FlagsPc
  | .set value, j => .setRef value j
  | .unset value, j => .unsetRef value j
  | .clear value, j => .clearRef value j

theorem flagAt_eq_zero {value : BitVec 64} {j : Nat} (hj : j < ipcFlagsMax)
    (hbit : value.getLsbD j = false) : flagAt value j = 0#64 := by
  by_contra hc
  rw [(flagAt_ne_zero_iff value hj).mp hc] at hbit
  cases hbit

/-- A flag that is not in the mask is passed with one access. -/
theorem step_unmasked (p : ι) (v : BitVec 64) (cRef : Nat → BitVec 32) (c : FlagsCall) {j : Nat}
    (hj : j < ipcFlagsMax) (hmask : c.mask.getLsbD j = false) (b : Bool) :
    (stepFlagsProc (busy p v cRef (c.test j)) p b).2 = busy p v cRef (c.test (j + 1)) := by
  have hzero := flagAt_eq_zero hj hmask
  cases c with
  | set value =>
    rw [FlagsCall.mask] at hzero
    simp [stepFlagsProc, busy, FlagsSys.goto, FlagsCall.test, hj, hzero]
  | unset value =>
    rw [FlagsCall.mask] at hzero
    simp [stepFlagsProc, busy, FlagsSys.goto, FlagsCall.test, hj, hzero]
  | clear value =>
    rw [FlagsCall.mask] at hzero
    simp [stepFlagsProc, busy, FlagsSys.goto, FlagsCall.test, hj, hzero]

/-- At flag `j` a call takes up to six accesses, and then `tick` is done to it and nothing to the
    others. -/
def Ticks (p : ι) (v : BitVec 64) (cRef : Nat → BitVec 32) (c : FlagsCall) (j : Nat) : Prop :=
  ∃ v' cRef', (∀ k, flag v' cRef' k = if k = j then c.tick (flag v cRef j) else flag v cRef k) ∧
    ∀ {n : Nat} {P : FlagsSys ι → Prop}, Ends p n P (busy p v' cRef' (c.test (j + 1))) →
      Ends p (n + 6) P (busy p v cRef (c.test j))

section
variable (p : ι) (v : BitVec 64) (cRef : Nat → BitVec 32) {value : BitVec 64} {j : Nat}
  (hj : j < ipcFlagsMax) (hbit : flagAt value j ≠ 0#64)
include hj hbit

theorem ticks_set : Ticks p v cRef (.set value) j := by
  refine ⟨v, Function.update cRef j (cRef j + 1), flag_count v cRef j _, ?_⟩
  intro n P hrest
  have htest : ∀ b, (stepFlagsProc (busy p v cRef (.setRef value j)) p b).2 =
      busy p v cRef (.setStore value j (cRef j)) := fun b => by
    simp [stepFlagsProc, busy, FlagsSys.goto, hj, hbit]
  have hstore : ∀ b, (stepFlagsProc (busy p v cRef (.setStore value j (cRef j))) p b).2 =
      busy p v (Function.update cRef j (cRef j + 1)) (.setRef value (j + 1)) := fun b => by
    simp [stepFlagsProc, busy, FlagsSys.goto]
  exact ((Ends.of_eq hstore hrest).of_eq htest).mono (by omega)

theorem ticks_clear : Ticks p v cRef (.clear value) j := by
  refine ⟨v &&& ~~~ flagMask j, Function.update cRef j 0, flag_unmask v cRef hj 0, ?_⟩
  intro n P hrest
  have htest : ∀ b, (stepFlagsProc (busy p v cRef (.clearRef value j)) p b).2 =
      busy p v cRef (.clearValue value j .start) := fun b => by
    simp [stepFlagsProc, busy, FlagsSys.goto, hj, hbit]
  have hstore : ∀ b,
      (stepFlagsProc (busy p (v &&& ~~~ flagMask j) cRef (.clearStore value j)) p b).2 =
        busy p (v &&& ~~~ flagMask j) (Function.update cRef j 0) (.clearRef value (j + 1)) :=
    fun b => by simp [stepFlagsProc, busy, FlagsSys.goto]
  have hswap := Ends.of_swap (v := v) (f := fun b => b &&& ~~~ flagMask j)
    (g := fun r => .clearValue value j r) ?_ (Ends.of_eq hstore hrest)
  · exact (hswap.of_eq htest).mono (by omega)
  · intro v r b
    cases r <;> simp [stepFlagsProc, busy, FlagsSys.goto, Rmw.next]

/-- The two accesses of `unset` that find a count to take back, and what is left of it. -/
theorem ends_unset (hcount : cRef j ≠ 0#32) {n : Nat} {P : FlagsSys ι → Prop}
    (hrest : Ends p n P (busy p v cRef (.unsetStore value j (cRef j)))) :
    Ends p (n + 2) P (busy p v cRef (.unsetRef value j)) := by
  have htest : ∀ b, (stepFlagsProc (busy p v cRef (.unsetRef value j)) p b).2 =
      busy p v cRef (.unsetLoad value j) := fun b => by
    simp [stepFlagsProc, busy, FlagsSys.goto, hj, hbit, hcount]
  have hload : ∀ b, (stepFlagsProc (busy p v cRef (.unsetLoad value j)) p b).2 =
      busy p v cRef (.unsetStore value j (cRef j)) := fun b => by
    simp [stepFlagsProc, busy, FlagsSys.goto]
  exact (Ends.of_eq hload hrest).of_eq htest

theorem ticks_unset : Ticks p v cRef (.unset value) j := by
  by_cases hcount : cRef j = 0#32
  · -- nothing to take back
    refine ⟨v, cRef, ?_, ?_⟩
    · intro k
      split
      · rename_i heq
        simp [heq, flag, FlagsCall.tick, hcount]
      · rfl
    · intro n P hrest
      have htest : ∀ b, (stepFlagsProc (busy p v cRef (.unsetRef value j)) p b).2 =
          busy p v cRef (.unsetRef value (j + 1)) := fun b => by
        simp [stepFlagsProc, busy, FlagsSys.goto, hj, hcount]
      exact (Ends.of_eq htest hrest).mono (by omega)
  · by_cases hlast : cRef j - 1#32 = 0#32
    · -- the last one, and the flag goes with it
      refine ⟨v &&& ~~~ flagMask j, Function.update cRef j (cRef j - 1), ?_, ?_⟩
      · intro k
        rw [flag_unmask v cRef hj]
        simp [flag, FlagsCall.tick, hcount, hlast]
      · intro n P hrest
        have hstore : ∀ b, (stepFlagsProc (busy p v cRef (.unsetStore value j (cRef j))) p b).2 =
            busy p v (Function.update cRef j (cRef j - 1)) (.unsetValue value j .start) :=
          fun b => by simp [stepFlagsProc, busy, FlagsSys.goto, hlast]
        have hswap := Ends.of_swap (f := fun b => b &&& ~~~ flagMask j)
          (g := fun r => .unsetValue value j r) ?_ hrest
        · exact (ends_unset p v cRef hj hbit hcount (hswap.of_eq hstore)).mono (by omega)
        · intro v r b
          cases r <;> simp [stepFlagsProc, busy, FlagsSys.goto, Rmw.next, FlagsCall.test]
    · refine ⟨v, Function.update cRef j (cRef j - 1), ?_, ?_⟩
      · intro k
        rw [flag_count]
        simp [flag, FlagsCall.tick, hcount, hlast]
      · intro n P hrest
        have hstore : ∀ b, (stepFlagsProc (busy p v cRef (.unsetStore value j (cRef j))) p b).2 =
            busy p v (Function.update cRef j (cRef j - 1)) (.unsetRef value (j + 1)) :=
          fun b => by simp [stepFlagsProc, busy, FlagsSys.goto, hlast]
        exact (ends_unset p v cRef hj hbit hcount (Ends.of_eq hstore hrest)).mono (by omega)

end

/-- **One flag of the mask**, whichever the call. -/
theorem ticks_of_masked (p : ι) (v : BitVec 64) (cRef : Nat → BitVec 32) (c : FlagsCall) {j : Nat}
    (hj : j < ipcFlagsMax) (hmask : c.mask.getLsbD j = true) : Ticks p v cRef c j := by
  have hbit := (flagAt_ne_zero_iff c.mask hj).mpr hmask
  cases c with
  | set value => exact ticks_set p v cRef hj hbit
  | unset value => exact ticks_unset p v cRef hj hbit
  | clear value => exact ticks_clear p v cRef hj hbit

/-! ## The loop

By induction on the flags that are left. Those before have been treated (`Half`), and those behind
are as they were. -/

/-- The flags below `j` are done, those from `j` on are as they were. -/
def Half (c : FlagsCall) (j : Nat) (v₀ : BitVec 64) (cRef₀ : Nat → BitVec 32) (v : BitVec 64)
    (cRef : Nat → BitVec 32) : Prop :=
  ∀ k, flag v cRef k =
    if c.mask.getLsbD k = true ∧ k < j then c.tick (flag v₀ cRef₀ k) else flag v₀ cRef₀ k

/-- The call has returned, and every flag of the mask is done. -/
def Returned (f : Bool × BitVec 32 → Bool × BitVec 32) (c : FlagsCall) (v₀ : BitVec 64)
    (cRef₀ : Nat → BitVec 32) (s : FlagsSys ι) : Prop :=
  ∃ v cRef, s = .quiet v cRef ∧ ∀ k, flag v cRef k =
    if c.mask.getLsbD k = true then f (flag v₀ cRef₀ k) else flag v₀ cRef₀ k

theorem Half.step {c : FlagsCall} {j : Nat} {v₀ v v' : BitVec 64} {cRef₀ cRef cRef' : Nat → BitVec 32}
    (h : Half c j v₀ cRef₀ v cRef)
    (hstep : ∀ k, flag v' cRef' k =
      if k = j ∧ c.mask.getLsbD j = true then c.tick (flag v cRef j) else flag v cRef k) :
    Half c (j + 1) v₀ cRef₀ v' cRef' := by
  intro k
  rw [hstep]
  by_cases hkj : k = j
  · have hj := h j
    rw [if_neg fun hc => Nat.lt_irrefl j hc.2] at hj
    rw [hkj, hj]
    by_cases hmask : c.mask.getLsbD j = true
    · rw [if_pos ⟨rfl, hmask⟩, if_pos ⟨hmask, Nat.lt_succ_self j⟩]
    · rw [if_neg fun hc => hmask hc.2, if_neg fun hc => hmask hc.1]
  · have hlt : k < j + 1 ↔ k < j := by omega
    rw [if_neg fun hc => hkj hc.1, h k]
    simp only [hlt]

/-- **The loop** of a call goes through the flags that are left, and the call returns. -/
theorem ends_loop (p : ι) (c : FlagsCall) {v₀ : BitVec 64} {cRef₀ : Nat → BitVec 32} :
    ∀ {d j : Nat} {v : BitVec 64} {cRef : Nat → BitVec 32}, j + d = ipcFlagsMax →
      Half c j v₀ cRef₀ v cRef →
      Ends p (6 * d + 2) (Returned c.tick c v₀ cRef₀) (busy p v cRef (c.test j)) := by
  intro d
  induction d with
  | zero =>
    intro j v cRef hj hhalf
    have hlast : ¬ j < ipcFlagsMax := by omega
    have htest : ∀ b, (stepFlagsProc (busy p v cRef (c.test j)) p b).2 = busy p v cRef .exit := by
      intro b
      cases c <;> simp [stepFlagsProc, busy, FlagsSys.goto, FlagsCall.test, hlast]
    -- Behind the last flag the lock is given back.
    have hexit : ∀ b, (stepFlagsProc (busy p v cRef .exit) p b).2 = .quiet v cRef := by
      intro b
      simp [stepFlagsProc, busy, FlagsSys.goto, FlagsSys.quiet, atomicSwap]
    refine ((Ends.of_quiet ⟨v, cRef, rfl, fun k => ?_⟩).of_eq hexit).of_eq htest
    rw [hhalf k]
    by_cases hk : k < 64
    · have hkj : k < j := by
        have hmax : ipcFlagsMax = 64 := rfl
        omega
      simp only [hkj, and_true]
    · have hbit : c.mask.getLsbD k = false := BitVec.getLsbD_of_ge _ _ (Nat.not_lt.mp hk)
      simp [hbit]
  | succ d ih =>
    intro j v cRef hj hhalf
    have hlt : j < ipcFlagsMax := by omega
    -- The flag is one of the call, or it is passed over.
    by_cases hmask : c.mask.getLsbD j = true
    · obtain ⟨v', cRef', hflag, hends⟩ := ticks_of_masked p v cRef c hlt hmask
      have hrest : Half c (j + 1) v₀ cRef₀ v' cRef' := hhalf.step fun k => by
        simp only [hflag, hmask, and_true]
      exact (hends (ih (by omega) hrest)).mono (by omega)
    · have hrest : Half c (j + 1) v₀ cRef₀ v cRef := hhalf.step fun k => by
        rw [if_neg fun hc => hmask hc.2]
      rw [Bool.not_eq_true] at hmask
      exact (Ends.of_eq (step_unmasked p v cRef c hlt hmask) (ih (by omega) hrest)).mono (by omega)

/-! ## A call

The lock, the loop and the lock again. -/

theorem half_zero (c : FlagsCall) (v : BitVec 64) (cRef : Nat → BitVec 32) : Half c 0 v cRef v cRef := by
  intro k
  rw [if_neg fun hc => Nat.not_lt_zero k hc.2]

/-- What is left of a call once the lock is entered. -/
theorem ends_body (p : ι) (c : FlagsCall) (v : BitVec 64) (cRef : Nat → BitVec 32) :
    Ends p (3 + (6 * ipcFlagsMax + 2)) (Returned c.on c v cRef) (busy p v cRef c.body) := by
  have hloop := fun v' => ends_loop p c (Nat.zero_add ipcFlagsMax) (half_zero c v' cRef)
  cases c with
  | set value =>
    have hset : Ends p (6 * ipcFlagsMax + 2) (Returned (FlagsCall.set value).on (.set value) v cRef)
        (busy p (v ||| value) cRef (.setRef value 0)) := by
      intro is hok hlen
      obtain ⟨v', cRef', heq, hflag⟩ := hloop (v ||| value) is hok hlen
      refine ⟨v', cRef', heq, fun k => ?_⟩
      rw [hflag k]
      split
      · rename_i hbit
        rw [FlagsCall.mask] at hbit
        simp [flag, FlagsCall.on, hbit]
      · rename_i hbit
        rw [FlagsCall.mask, Bool.not_eq_true] at hbit
        simp [flag, hbit]
    have hswap := Ends.of_swap (v := v) (f := fun b => b ||| value)
      (g := fun r => .setValue value r) ?_ hset
    · exact hswap.mono (by omega)
    · intro v r b
      cases r <;> simp [stepFlagsProc, busy, FlagsSys.goto, Rmw.next]
  | unset value => exact (hloop v).mono (by omega)
  | clear value => exact (hloop v).mono (by omega)

/-- **A call from beginning to end.** Nobody is in a call after it, and it has done to each flag of
    its mask what it does to one. -/
theorem stepTurn_returned (v : BitVec 64) (cRef : Nat → BitVec 32) (t : Turn ι) :
    Returned t.call.on t.call v cRef (stepTurn (.quiet v cRef) t).2 := by
  have hfirst : ∀ b, (stepFlagsProc (FlagsSys.goto (.quiet v cRef) t.proc (.enter t.call 0)) t.proc
      b).2 = busy t.proc v cRef (.enter t.call 1) := fun b => by
    simp [stepFlagsProc, busy, FlagsSys.goto, FlagsSys.quiet, atomicSwap]
  -- the second swap finds the lock taken, and that is the end of the loop
  have hsecond : ∀ b, (stepFlagsProc (busy t.proc v cRef (.enter t.call 1)) t.proc b).2 =
      busy t.proc v cRef t.call.body := fun b => by
    simp [stepFlagsProc, busy, FlagsSys.goto, atomicSwap]
  have hends := ((ends_body t.proc t.call v cRef).of_eq hsecond).of_eq hfirst
  have hcall : (stepFlags (.quiet v cRef) (.call t.proc t.call)).2 =
      FlagsSys.goto (.quiet v cRef) t.proc (.enter t.call 0) := rfl
  have hmoves : ∀ a ∈ t.moves, MoveOf t.proc a := by
    intro a ha
    obtain ⟨i, -, rfl⟩ := List.mem_map.mp ha
    exact ⟨_, rfl⟩
  have hlen : t.moves.length = 3 + (6 * ipcFlagsMax + 2) + 1 + 1 := by
    rw [Turn.moves, List.length_map, List.length_range, callMoves]
    omega
  rw [stepTurn, exec_cons, hcall]
  generalize t.moves = acts at hmoves hlen ⊢
  exact hends acts hmoves (Nat.le_of_eq hlen.symm)

/-! ## The tally

What the callers know of a flag since it was last cleared: how often it was set, and how many of its
unsets took a set back. -/

/-- What a call is to the tally of a flag of its mask. -/
def FlagsCall.count : FlagsCall → Nat × Nat → Nat × Nat
  | .set _, n => (n.1 + 1, n.2)
  | .unset _, n => if n.2 < n.1 then (n.1, n.2 + 1) else n
  | .clear _, _ => (0, 0)

def tallyTurn (n : Nat → Nat × Nat) (t : Turn ι) : Unit × (Nat → Nat × Nat) :=
  ((), fun j => if t.call.mask.getLsbD j = true then t.call.count (n j) else n j)

/-- A flag is up to its tally: its count is the sets that were not taken back, and it is set while
    that is not 0. -/
structure Agrees (f : Bool × BitVec 32) (n : Nat × Nat) : Prop where
  le : n.2 ≤ n.1
  count : f.2.toNat = n.1 - n.2
  set : f.1 = true ↔ 0 < f.2.toNat

theorem Agrees.on {f : Bool × BitVec 32} {n : Nat × Nat} (h : Agrees f n) {c : FlagsCall}
    (hfew : (c.count n).1 - (c.count n).2 < 2 ^ 32) : Agrees (c.on f) (c.count n) := by
  obtain ⟨b, m⟩ := f
  obtain ⟨hle, hcount, hset⟩ := h
  dsimp only at hcount hset
  cases c with
  | set value =>
    simp only [FlagsCall.count] at hfew ⊢
    have hnext : (m + 1).toNat = m.toNat + 1 := by
      rw [BitVec.toNat_add, Nat.mod_eq_of_lt]
      · rfl
      · show m.toNat + 1 < 2 ^ 32
        omega
    refine ⟨by dsimp only; omega, ?_, ?_⟩
    · show (m + 1).toNat = _
      omega
    · show true = true ↔ 0 < (m + 1).toNat
      rw [hnext]
      exact iff_of_true rfl (Nat.succ_pos _)
  | unset value =>
    simp only [FlagsCall.count] at hfew ⊢
    by_cases hzero : m = 0
    · -- nothing is outstanding, and the call takes nothing back
      have hnone : m.toNat = 0 := by rw [hzero]; rfl
      rw [if_neg (by omega)] at hfew ⊢
      simp only [FlagsCall.on, FlagsCall.tick, if_pos hzero]
      exact ⟨hle, hcount, hset⟩
    · have hpos : 0 < m.toNat := Nat.pos_of_ne_zero fun hc => hzero (BitVec.eq_of_toNat_eq hc)
      have hprev : (m - 1).toNat = m.toNat - 1 := BitVec.toNat_sub_of_le (by
        rw [BitVec.le_def]
        exact hpos)
      have hleft : m - 1 ≠ 0 ↔ 0 < (m - 1).toNat :=
        ⟨fun hne => Nat.pos_of_ne_zero fun hc => hne (BitVec.eq_of_toNat_eq hc),
          fun hlt heq => by rw [heq] at hlt; exact absurd hlt (Nat.lt_irrefl 0)⟩
      rw [if_pos (by omega)]
      simp only [FlagsCall.on, FlagsCall.tick, if_neg hzero]
      refine ⟨by dsimp only; omega, by dsimp only; omega, ?_⟩
      dsimp only
      rw [hset.mpr hpos, Bool.true_and, decide_eq_true_eq, hleft]
  | clear value => exact ⟨Nat.le_refl 0, rfl, iff_of_false Bool.false_ne_true (Nat.lt_irrefl 0)⟩

/-- Nobody is in a call, and every flag is up to its tally. -/
def Settled (s : FlagsSys ι × (Nat → Nat × Nat)) : Prop :=
  ∃ v cRef, s.1 = .quiet v cRef ∧ ∀ j, Agrees (flag v cRef j) (s.2 j)

/-- A call leaves the flags outside its mask alone. -/
def Outside (s : FlagsSys ι) (t : Turn ι) : Prop :=
  ∀ j < ipcFlagsMax, t.call.mask.getLsbD j = false →
    (stepTurn s t).2.cRef j = s.cRef j ∧ (stepTurn s t).2.v.getLsbD j = s.v.getLsbD j

/-- Fewer than 2^32 sets of a flag are not taken back. -/
def Few (n : Nat → Nat × Nat) : Prop := ∀ j, (n j).1 - (n j).2 < 2 ^ 32

theorem Settled.turn {s : FlagsSys ι × (Nat → Nat × Nat)} (h : Settled s) (t : Turn ι)
    (hfew : Few (tallyTurn s.2 t).2) :
    Outside s.1 t ∧ Settled (both stepTurn tallyTurn s t).2 := by
  obtain ⟨v, cRef, hquiet, hagrees⟩ := h
  obtain ⟨v', cRef', hnext, hflag⟩ := stepTurn_returned v cRef t
  rw [← hquiet] at hnext
  constructor
  · intro j _ hmask
    have hj := hflag j
    rw [if_neg (by rw [hmask]; exact Bool.false_ne_true)] at hj
    rw [hnext, hquiet]
    exact ⟨congrArg Prod.snd hj, congrArg Prod.fst hj⟩
  · rw [both]
    refine ⟨v', cRef', hnext, fun j => ?_⟩
    rw [hflag j]
    by_cases hmask : t.call.mask.getLsbD j = true
    · have hcount : (tallyTurn s.2 t).2 j = t.call.count (s.2 j) := if_pos hmask
      have hj := hfew j
      rw [hcount] at hj
      rw [if_pos hmask]
      exact (congrArg (Agrees _) hcount).mpr ((hagrees j).on hj)
    · have hsame : (tallyTurn s.2 t).2 j = s.2 j := if_neg hmask
      rw [if_neg hmask]
      exact (congrArg (Agrees _) hsame).mpr (hagrees j)

end Calls

/-- What a reader of the flags finds: nobody is in a call, and for each flag its count is the sets
    less the unsets that took one back, of which there are no more, and the flag is set exactly when
    the count is not 0. -/
def Counted {ι : Type} (s : FlagsSys ι) (n : Nat → Nat × Nat) : Prop :=
  (∀ p, s.pc p = .idle) ∧ ∀ j < ipcFlagsMax, (n j).2 ≤ (n j).1 ∧
    (s.cRef j).toNat = (n j).1 - (n j).2 ∧ (s.v.getLsbD j = true ↔ 0 < (s.cRef j).toNat)

theorem Settled.counted {ι : Type} {s : FlagsSys ι × (Nat → Nat × Nat)} (h : Settled s) :
    Counted s.1 s.2 := by
  obtain ⟨v, cRef, hquiet, hagrees⟩ := h
  rw [Counted, hquiet]
  exact ⟨fun _ => rfl, fun j _ => ⟨(hagrees j).le, (hagrees j).count, (hagrees j).set⟩⟩

/-- **Flags count their sets.** For every sequence of calls that do not overlap, by any processes
    and with any masks, from flags that are all zero: as long as fewer than 2^32 sets of a flag are
    not taken back, every call returns, after each of them the counts and the flags are those of the
    tally, and it has changed nothing outside its mask. -/
theorem flags_count_their_sets {ι : Type} [DecidableEq ι] (turns : List (Turn ι))
    (hfew : Always tallyTurn Few (fun _ => (0, 0)) turns) :
    Always (both stepTurn tallyTurn) (fun s => Counted s.1 s.2)
        (.quiet 0 fun _ => 0, fun _ => (0, 0)) turns ∧
      Along stepTurn Outside (.quiet 0 fun _ => 0) turns := by
  have hinit : Settled (FlagsSys.quiet (ι := ι) 0 fun _ => 0, fun _ => (0, 0)) :=
    ⟨0, fun _ => 0, rfl, fun j => ⟨Nat.le_refl 0, rfl,
      iff_of_false (by simp [flag]) (Nat.lt_irrefl 0)⟩⟩
  have hsteps : Along (both stepTurn tallyTurn) (fun s t => Few (tallyTurn s.2 t).2)
      (.quiet 0 fun _ => 0, fun _ => (0, 0)) turns :=
    (along_both_right (C := fun n t => Few (tallyTurn n t).2) _ turns).mpr
      (along_next_of_always hfew)
  constructor
  · intro pre hpre
    exact (always_of_along (fun _ t hf h => (Settled.turn h t hf).2) hsteps hinit pre hpre).counted
  · have houtside : Along (both stepTurn tallyTurn) (fun s t => Outside s.1 t)
        (.quiet 0 fun _ => 0, fun _ => (0, 0)) turns :=
      along_of_along (fun _ t hf h => Settled.turn h t hf) hsteps hinit
    exact (along_both_left (C := Outside) _ turns).mp houtside

/-- As many calls as a count holds are never too many. -/
theorem few_of_length {ι : Type} {turns : List (Turn ι)} {n : Nat → Nat × Nat}
    (hlen : ∀ j, (n j).1 + turns.length < 2 ^ 32) : Always tallyTurn Few n turns := by
  induction turns generalizing n with
  | nil => exact always_nil.mpr fun j => Nat.lt_of_le_of_lt (Nat.sub_le ..) (hlen j)
  | cons t turns ih =>
    refine always_cons.mpr ⟨fun j => ?_, ih fun j => ?_⟩
    · have hj := hlen j
      omega
    · have hj := hlen j
      rw [List.length_cons] at hj
      have hone : ((tallyTurn n t).2 j).1 ≤ (n j).1 + 1 := by
        rw [tallyTurn]
        dsimp only
        split
        · cases t.call with
          | set value => exact Nat.le_refl _
          | unset value =>
            rw [FlagsCall.count]
            split <;> exact Nat.le_succ _
          | clear value => exact Nat.zero_le _
        · exact Nat.le_succ _
      omega

/-- One process sets two flags, and another takes the second back. -/
theorem flags_count_their_sets_two :
    Always (both stepTurn tallyTurn) (fun s => Counted s.1 s.2)
        (.quiet 0 fun _ => 0, fun _ => (0, 0))
        [⟨false, .set 3, fun _ => true⟩, ⟨true, .unset 2, fun _ => false⟩] ∧
      Along stepTurn Outside (.quiet 0 fun _ => 0)
        [⟨false, .set 3, fun _ => true⟩, ⟨true, .unset 2, fun _ => false⟩] :=
  flags_count_their_sets _ (few_of_length fun _ => of_decide_eq_true rfl)

end Ipc
end Inac
