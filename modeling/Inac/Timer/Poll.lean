import Mathlib.Logic.Function.Iterate
import Inac.Timer.Run

/-!
# Sleeping as told

A caller that does nothing but sleep for `timeouts_timeout` and update the wheels then (`poll`) never
sleeps past a timeout, so each expires in the update of its very time. It may be woken for nothing:
a wheel other than the lowest only says when its slot has to be looked at. But what is found there
goes to a lower wheel, so the wheel that wakes the caller is a lower one every time, and the fourth
call at the latest is the one that counts.

The measure of the argument is the wheel that gives the answer, the least `w` for which
`timeouts_int` is `wheelWait`. Its answer leads to a turn of that wheel, at which its own next
timeout is due or is moved down (`Ok.turn`); after that no timeout of the wheel is nearer than the
next turn. So if the caller has been woken for nothing, whatever wakes it next is a lower wheel, and
on the lowest one the answer is the time of a timeout. Without the bound on how far ahead the
timeouts are (`Reach`) the highest wheel could wake the caller once for each of its turns.
-/

namespace Inac
namespace Timer

open Lib

/-- Sleep for as long as `timeouts_timeout` allows, then update. -/
def poll (T : Timeouts) : Timeouts := timeoutsStep T (timeoutsTimeout T)

/-- Nothing is ready, and no timeout expires before this one. -/
structure Earliest (T : Timeouts) (a : Addr) : Prop where
  queue : T.expired = []
  waits : (T.mem a).waiting = true
  first : ∀ b, (T.mem b).waiting = true → (T.mem a).expires ≤ (T.mem b).expires

/-- No timeout is further ahead than the wheels reach. -/
def Reach (T : Timeouts) : Prop :=
  ∀ b, (T.mem b).waiting = true → (T.mem b).expires.toNat - T.curtime.toNat ≤ timeoutMax.toNat

/-- After `k` calls, and not before, the time is the one at which `a` expires, and ready is what
    expires at that time. -/
structure OnTime (T : Timeouts) (a : Addr) (k : Nat) : Prop where
  curtime : (poll^[k] T).curtime = (T.mem a).expires
  ready : ∀ b, b ∈ (poll^[k] T).expired ↔
    (T.mem b).waiting = true ∧ (T.mem b).expires = (T.mem a).expires
  before : ∀ j < k, (poll^[j] T).expired = [] ∧ (poll^[j] T).curtime < (T.mem a).expires

variable {T : Timeouts} {a : Addr}

/-! ## One update -/

theorem Earliest.no_ready (he : Earliest T a) (h : Ok T) (b : Addr) : ¬ (T.mem b).ready = true := by
  intro hr
  rw [h.ready_iff, he.queue] at hr
  exact List.not_mem_nil hr

theorem Earliest.poll_eq (he : Earliest T a) :
    poll T = timeoutsUpdate T (T.curtime + timeoutsInt T) := by
  rw [poll, timeoutsStep, timeoutsTimeout, if_neg fun hne => hne he.queue]

/-- The caller does not sleep past the earliest timeout. -/
theorem Earliest.wake (he : Earliest T a) (h : Ok T) :
    (T.curtime + timeoutsInt T).toNat = T.curtime.toNat + (timeoutsInt T).toNat ∧
      (T.curtime + timeoutsInt T).toNat ≤ (T.mem a).expires.toNat := by
  have hle := h.int_le he.waits
  have hlt := BitVec.lt_def.mp (h.lt_of_waiting he.waits)
  have hmax := (T.mem a).expires.isLt
  rw [BitVec.toNat_add]
  omega

/-- The wake-up at which the earliest timeout expires. -/
theorem Earliest.fires (he : Earliest T a) (h : Ok T)
    (hat : T.curtime + timeoutsInt T = (T.mem a).expires) : OnTime T a 1 where
  curtime := by
    show (poll T).curtime = _
    rw [he.poll_eq, ← hat]
    exact (timeoutsUpdate_spec h _).2.1
  ready b := by
    have hok := (h.update (T.curtime + timeoutsInt T)).1
    show b ∈ (poll T).expired ↔ _
    rw [he.poll_eq, ← hok.ready_iff, (h.update_waiting _ b).2.2, hat]
    constructor
    · intro hr
      obtain ⟨hwait, hle⟩ := hr.resolve_left (he.no_ready h b)
      exact ⟨hwait, BitVec.le_antisymm hle (he.first b hwait)⟩
    · rintro ⟨hwait, heq⟩
      exact Or.inr ⟨hwait, heq ▸ BitVec.le_refl _⟩
  before j hj := by
    rw [Nat.lt_one_iff.mp hj]
    exact ⟨he.queue, h.lt_of_waiting he.waits⟩

/-- A wake-up for nothing. -/
theorem Earliest.passes (he : Earliest T a) (h : Ok T)
    (hne : T.curtime + timeoutsInt T ≠ (T.mem a).expires) :
    Earliest (poll T) a ∧ ∀ b, (T.mem b).waiting = true →
      ((poll T).mem b).waiting = true ∧ ((poll T).mem b).expires = (T.mem b).expires := by
  have hwake := he.wake h
  have hlt : T.curtime + timeoutsInt T < (T.mem a).expires := by
    refine BitVec.lt_def.mpr (Nat.lt_of_le_of_ne hwake.2 fun heq => hne ?_)
    exact BitVec.eq_of_toNat_eq heq
  have hlater : ∀ b, (T.mem b).waiting = true → T.curtime + timeoutsInt T < (T.mem b).expires :=
    fun b hb => BitVec.lt_def.mpr
      (Nat.lt_of_lt_of_le (BitVec.lt_def.mp hlt) (BitVec.le_def.mp (he.first b hb)))
  have hok := (h.update (T.curtime + timeoutsInt T)).1
  rw [he.poll_eq]
  have hkeep : ∀ b, (T.mem b).waiting = true →
      ((timeoutsUpdate T (T.curtime + timeoutsInt T)).mem b).waiting = true ∧
        ((timeoutsUpdate T (T.curtime + timeoutsInt T)).mem b).expires = (T.mem b).expires := by
    intro b hb
    obtain ⟨hexp, hwait, -⟩ := h.update_waiting (T.curtime + timeoutsInt T) b
    exact ⟨hwait.mpr ⟨hb, hlater b hb⟩, hexp⟩
  refine ⟨⟨?_, (hkeep a he.waits).1, fun b hb => ?_⟩, hkeep⟩
  · -- Nothing was ready, and nothing has become so.
    refine List.eq_nil_iff_forall_not_mem.mpr fun b hb => ?_
    rw [← hok.ready_iff, (h.update_waiting _ b).2.2] at hb
    rcases hb with hready | ⟨hwait, hle⟩
    · exact he.no_ready h b hready
    · exact (BitVec.not_lt.mpr hle) (hlater b hwait)
  · obtain ⟨hexp, hwait, -⟩ := h.update_waiting (T.curtime + timeoutsInt T) b
    rw [(hkeep a he.waits).2, hexp]
    exact he.first b (hwait.mp hb).1

/-! ## The wheel that wakes the caller -/

theorem Ok.exists_waker (h : Ok T) (hreach : Reach T) (hwait : (T.mem a).waiting = true) :
    ∃ w, w < 4 ∧ T.pending w ≠ 0#64 ∧ timeoutsInt T = wheelWait T w := by
  refine (intLoop_mem (T := T) 4 0 rfl (~~~0#64)).resolve_left fun heq => ?_
  have hle := h.int_le hwait
  have hfar := hreach a hwait
  have hmax : (timeoutsInt T).toNat = 2 ^ 64 - 1 := by
    rw [show timeoutsInt T = ~~~0#64 from heq]
    decide
  rw [timeoutMax_toNat] at hfar
  omega

/-- A wheel that wakes the caller does so at one of its turns, at which, or before the next, one of
    its timeouts expires. -/
theorem Ok.turn (h : Ok T) (hreach : Reach T) {w : Nat} (hw : w < 4) (hpend : T.pending w ≠ 0#64) :
    ∃ m b, (T.mem b).waiting = true ∧
      T.curtime.toNat + (wheelWait T w).toNat = m * 64 ^ w ∧
      m = (T.mem b).expires.toNat / 64 ^ w := by
  obtain ⟨hlt, b, hb⟩ := h.linked.first hpend
  have hat := h.placed w _ b (Nat.mod_lt _ (by decide)) hb
  have hwait := h.waiting_iff.mpr ⟨w, _, hw, Nat.mod_lt _ (by decide), hb⟩
  have hadd := waitFor_add (t := T.curtime.toNat) (by decide : 0 < 64) (h.turns_pos hpend)
  refine ⟨_, b, hwait, by rw [h.wheelWait_toNat hw hpend]; exact hadd, ?_⟩
  have hnear : tick 64 w (T.mem b).expires.toNat < T.curtime.toNat / 64 ^ w + 64 := by
    rcases Nat.lt_or_ge w 3 with hlow | htop
    · exact hat.hangs.near hlow
    · -- The highest wheel has no bound of its own: there it is `Reach` that keeps the timeout
      -- within a turn.
      have hw3 : w = 3 := by omega
      have hfar := hreach b hwait
      have htick := hat.hangs.tick_add
      have hahead := BitVec.lt_def.mp hat.lt
      rw [timeoutMax_toNat] at hfar
      subst hw3
      rw [if_neg (by decide)] at htick
      omega
  have hle := hat.hangs.le_tick
  have hslot := hat.slot
  rw [← hat.hangs.tick_add, ← Nat.add_assoc]
  congr 1
  omega

/-- From one wake-up for nothing to the next the wheel is a lower one. -/
theorem Earliest.arrives (w : Nat) {T : Timeouts} (he : Earliest T a) (h : Ok T)
    (hreach : Reach T) (hw : w < 4) (hpend : T.pending w ≠ 0#64)
    (hint : timeoutsInt T = wheelWait T w) : ∃ k, k ≤ w + 1 ∧ OnTime T a k := by
  induction w using Nat.strong_induction_on generalizing T with
  | _ w ih =>
    by_cases hat : T.curtime + timeoutsInt T = (T.mem a).expires
    · exact ⟨1, Nat.le_add_left 1 w, he.fires h hat⟩
    · obtain ⟨hnext, hkeep⟩ := he.passes h hat
      have hok : Ok (poll T) := he.poll_eq ▸ (h.update _).1
      have hcur : (poll T).curtime = T.curtime + timeoutsInt T := by
        rw [he.poll_eq]
        exact (timeoutsUpdate_spec h _).2.1
      have hwake := he.wake h
      have hstart : (poll T).curtime.toNat = T.curtime.toNat + (wheelWait T w).toNat := by
        rw [hcur, hwake.1, hint]
      have hreach' : Reach (poll T) := by
        intro b hb
        obtain ⟨hexp, hwait, -⟩ := h.update_waiting (T.curtime + timeoutsInt T) b
        rw [he.poll_eq] at hb
        have hfar := hreach b (hwait.mp hb).1
        rw [he.poll_eq, hexp, ← he.poll_eq, hcur, hwake.1]
        omega
      -- the wheel that wakes the caller next
      obtain ⟨v, hv, hvpend, hvint⟩ : ∃ v, v < 4 ∧ (poll T).pending v ≠ 0#64 ∧
          timeoutsInt (poll T) = wheelWait (poll T) v := hok.exists_waker hreach' hnext.waits
      obtain ⟨m, b, hb, hm, hmb⟩ := h.turn hreach hw hpend
      obtain ⟨m', c, hc, hm', -⟩ := hok.turn hreach' hv hvpend
      have hle := hok.int_le (hkeep b hb).1
      have hpos := hok.int_pos
      rw [(hkeep b hb).2, hstart, hm] at hle
      rw [hvint] at hle hpos
      rw [hstart, hm] at hm'
      have hup : (T.mem b).expires.toNat < (m + 1) * 64 ^ w := by
        have hpow : 0 < 64 ^ w := Nat.pow_pos (by decide)
        rw [hmb]
        exact (Nat.div_lt_iff_lt_mul hpow).mp (Nat.lt_succ_self _)
      have hlower : v < w := by
        by_contra hge
        -- a turn of a higher wheel strictly between two turns of this one
        obtain ⟨d, hd⟩ := Nat.exists_eq_add_of_le (Nat.not_lt.mp hge)
        have hdvd : m' * 64 ^ v = m' * 64 ^ d * 64 ^ w := by
          rw [hd, Nat.pow_add, Nat.mul_assoc, Nat.mul_comm (64 ^ w)]
        rw [hdvd] at hm'
        have hlow : m * 64 ^ w < m' * 64 ^ d * 64 ^ w := by omega
        have hhigh : m' * 64 ^ d * 64 ^ w < (m + 1) * 64 ^ w := by omega
        have hlow' := Nat.lt_of_mul_lt_mul_right hlow
        have hhigh' := Nat.lt_of_mul_lt_mul_right hhigh
        omega
      obtain ⟨k, hk, hon⟩ := ih v hlower hnext hok hreach' hv hvpend hvint
      refine ⟨k + 1, by omega, ?_⟩
      have hsame := (hkeep a he.waits).2
      constructor
      · rw [Function.iterate_succ_apply, hon.curtime, hsame]
      · intro b'
        rw [Function.iterate_succ_apply, hon.ready b', hsame]
        obtain ⟨hexp, hwait, -⟩ := h.update_waiting (T.curtime + timeoutsInt T) b'
        rw [he.poll_eq, hexp, hwait]
        constructor
        · rintro ⟨⟨hw', -⟩, heq⟩
          exact ⟨hw', heq⟩
        · rintro ⟨hw', heq⟩
          refine ⟨⟨hw', ?_⟩, heq⟩
          rw [heq, BitVec.lt_def]
          exact Nat.lt_of_le_of_ne hwake.2 fun hc => hat (BitVec.eq_of_toNat_eq hc)
      · intro j hj
        cases j with
        | zero => exact ⟨he.queue, h.lt_of_waiting he.waits⟩
        | succ j =>
          rw [Function.iterate_succ_apply, ← hsame]
          exact hon.before j (by omega)

/-- A caller that sleeps for exactly as long as it is told is woken at the time of the earliest
    timeout, after four calls at most. -/
theorem polls_on_time {mem : Addr → Timeout} (hmem : Unused mem) (hz : BitVec 64) {ops : List Op}
    (hops : Along wheelStep Allowed (timeoutsInit mem hz) ops)
    (he : Earliest (exec wheelStep (timeoutsInit mem hz) ops) a)
    (hreach : Reach (exec wheelStep (timeoutsInit mem hz) ops)) :
    ∃ k, k ≤ 4 ∧ OnTime (exec wheelStep (timeoutsInit mem hz) ops) a k := by
  have h : Ok (exec wheelStep (timeoutsInit mem hz) ops) :=
    always_of_along (fun _ _ hop h => (wheelStep_refines h hop).1) hops (Ok.fresh hmem hz) ops
      List.prefix_rfl
  generalize exec wheelStep (timeoutsInit mem hz) ops = T at he hreach h
  obtain ⟨w, hw, hpend, hint⟩ := h.exists_waker hreach he.waits
  obtain ⟨k, hk, hon⟩ := he.arrives w h hreach hw hpend hint
  exact ⟨k, by omega, hon⟩

/-- One timeout, five thousand ahead. -/
def oneTimeout : Timeouts := exec wheelStep (timeoutsInit zeroed 0) [.init 1 0, .add 1 5000]

theorem oneTimeout_waiting {b : Addr} (hb : (oneTimeout.mem b).waiting = true) : b = 1 := by
  by_contra hne
  have hmem : oneTimeout.mem b = zeroed b := by
    show (timeoutsSched (timeoutInit (timeoutsInit zeroed 0) 1 0) 1 (0 + 5000)).mem b = _
    rw [timeoutsSched_eq, put_mem, Function.update_of_ne hne, edit_mem, Function.update_of_ne hne]
    show (Function.update zeroed 1 _) b = _
    rw [Function.update_of_ne hne]
  rw [hmem] at hb
  exact absurd hb Bool.false_ne_true

theorem polls_on_time_one : ∃ k, k ≤ 4 ∧ OnTime oneTimeout 1 k :=
  polls_on_time zeroed_unused 0 (by decide)
    ⟨by decide, by decide, fun b hb => by rw [oneTimeout_waiting hb]; exact BitVec.le_refl _⟩
    fun b hb => by rw [oneTimeout_waiting hb]; decide

end Timer
end Inac
