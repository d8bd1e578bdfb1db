import Inac.Timer.Update

/-!
# How long a caller may wait

`timeouts_int` reads the bit fields and the clock and looks at no timeout. What it answers for one
wheel is `wheelWait`: the time to the first slot that holds something, on a higher wheel to the turn
after it. That is never later than the timeouts of the wheel expire, and never now.

The loop of `timeouts_int` keeps the least answer of the wheels it has seen. `intLoop_le` says that
it is at most each wheel's answer, and `intLoop_mem` that it is one of them, or the greatest word if
all wheels are empty. The rest is about one wheel: the rotated bit field begins at the hand, so its
lowest bit is the first slot ahead (`firstAhead`), and the bits of the clock below the wheel are
what has already passed of the slot the hand is on.
-/

namespace Inac
namespace Timer

open Lib

variable {T : Timeouts}

/-- The bits of the clock below a wheel. -/
def relmask (w : Nat) : BitVec 64 := BitVec.ofNat 64 (64 ^ w - 1)

/-- The slots from the hand of a wheel to the first one that holds something. -/
def firstAhead (T : Timeouts) (w : Nat) : Nat :=
  ctz (rotr (T.pending w) (wheelMask &&& (T.curtime >>> (w * wheelBit))).toNat)

/-- What the loop of `timeouts_int` computes for one wheel. -/
def wheelWait (T : Timeouts) (w : Nat) : BitVec 64 :=
  BitVec.ofNat 64 ((firstAhead T w + if w = 0 then 0 else 1) <<< (w * wheelBit)) -
    (relmask w &&& T.curtime)

theorem relmask_succ {w : Nat} (hw : w < 4) :
    (relmask w <<< wheelBit) ||| wheelMask = relmask (w + 1) := by
  interval_cases w <;> decide

theorem relmask_and {w : Nat} (hw : w < 4) (x : BitVec 64) :
    (relmask w &&& x).toNat = x.toNat % 64 ^ w := by
  have hmask : (relmask w).toNat = 2 ^ (w * 6) - 1 := by
    interval_cases w <;> decide
  rw [BitVec.and_comm, BitVec.toNat_and, hmask, Nat.and_two_pow_sub_one_eq_mod, two_pow_wheel]

/-! ## The loop

By induction on the wheels that are left, from any of them on, as the mask of the lower bits is
carried along. -/

theorem intLoop_le (n w : Nat) (hn : w + n = 4) (timeout : BitVec 64) :
    intLoop T n w (relmask w) timeout ≤ timeout ∧
      ∀ v, w ≤ v → v < 4 → T.pending v ≠ 0#64 →
        intLoop T n w (relmask w) timeout ≤ wheelWait T v := by
  induction n generalizing w timeout with
  | zero =>
    refine ⟨?_, fun v hle hlt => by omega⟩
    rw [intLoop, BitVec.le_def]
  | succ n ih =>
    rw [intLoop, relmask_succ (by omega)]
    split
    · rename_i hne
      obtain ⟨hle, hrest⟩ := ih (w + 1) (by omega)
        (if wheelWait T w < timeout then wheelWait T w else timeout)
      -- The least of this wheel and those before it.
      have hmin : ∀ x : BitVec 64,
          x ≤ (if wheelWait T w < timeout then wheelWait T w else timeout) →
            x ≤ wheelWait T w ∧ x ≤ timeout := by
        intro x hx
        split at hx
        · rename_i hlt
          rw [BitVec.lt_def] at hlt
          rw [BitVec.le_def] at hx ⊢
          rw [BitVec.le_def]
          omega
        · rename_i hge
          rw [BitVec.lt_def] at hge
          rw [BitVec.le_def] at hx ⊢
          rw [BitVec.le_def]
          omega
      refine ⟨(hmin _ hle).2, fun v hlow hhigh hpend => ?_⟩
      rcases Nat.eq_or_lt_of_le hlow with rfl | hlt
      · exact (hmin _ hle).1
      · exact hrest v hlt hhigh hpend
    · rename_i hzero
      obtain ⟨hle, hrest⟩ := ih (w + 1) (by omega) timeout
      refine ⟨hle, fun v hlow hhigh hpend => ?_⟩
      rcases Nat.eq_or_lt_of_le hlow with rfl | hlt
      · exact absurd hpend hzero
      · exact hrest v hlt hhigh hpend

theorem intLoop_mem (n w : Nat) (hn : w + n = 4) (timeout : BitVec 64) :
    intLoop T n w (relmask w) timeout = timeout ∨
      ∃ v, v < 4 ∧ T.pending v ≠ 0#64 ∧
        intLoop T n w (relmask w) timeout = wheelWait T v := by
  induction n generalizing w timeout with
  | zero => exact Or.inl rfl
  | succ n ih =>
    rw [intLoop, relmask_succ (by omega)]
    split
    · rename_i hne
      rcases ih (w + 1) (by omega)
        (if wheelWait T w < timeout then wheelWait T w else timeout) with heq | hlater
      · by_cases hlt : wheelWait T w < timeout
        · rw [if_pos hlt] at heq
          exact Or.inr ⟨w, by omega, hne, (congrArg _ (if_pos hlt)).trans heq⟩
        · rw [if_neg hlt] at heq
          exact Or.inl ((congrArg _ (if_neg hlt)).trans heq)
      · exact Or.inr hlater
    · exact ih (w + 1) (by omega) timeout

theorem timeoutsInt_le {w : Nat} (hw : w < 4) (hpend : T.pending w ≠ 0#64) :
    timeoutsInt T ≤ wheelWait T w :=
  (intLoop_le 4 0 rfl _).2 w (Nat.zero_le w) hw hpend

/-! ## One wheel -/

/-- The first slot that holds something, and a timeout in it. -/
theorem Linked.first (h : Linked T []) {w : Nat} (hpend : T.pending w ≠ 0#64) :
    firstAhead T w < 64 ∧
      ∃ a, a ∈ T.wheel (w * 64 + (firstAhead T w + T.curtime.toNat / 64 ^ w % 64) % 64) := by
  have hhand : T.curtime.toNat / 64 ^ w % 64 < 64 := Nat.mod_lt _ (by decide)
  have hrot : rotr (T.pending w) (T.curtime.toNat / 64 ^ w % 64) ≠ 0#64 := by
    intro hzero
    refine hpend (BitVec.eq_of_getLsbD_eq fun i hi => ?_)
    have hbit := getLsbD_rotr (T.pending w) hhand
      (Nat.mod_lt (i + (64 - T.curtime.toNat / 64 ^ w % 64)) (by decide : 0 < 64))
    rw [hzero, show ((i + (64 - T.curtime.toNat / 64 ^ w % 64)) % 64 +
      T.curtime.toNat / 64 ^ w % 64) % 64 = i by omega] at hbit
    rw [← hbit, BitVec.getLsbD_zero, BitVec.getLsbD_zero]
  have hlt : firstAhead T w < 64 := by
    rw [firstAhead, hand_toNat]
    exact ctz_lt hrot
  refine ⟨hlt, ?_⟩
  have hbit := getLsbD_ctz hrot
  rw [getLsbD_rotr _ hhand (ctz_lt hrot), h.bit_iff w _ (Nat.mod_lt _ (by decide))] at hbit
  rw [firstAhead, hand_toNat]
  exact List.exists_mem_of_ne_nil _ hbit

theorem firstAhead_le {w s : Nat} (hs : s < 64) (hbit : (T.pending w).getLsbD s = true) :
    firstAhead T w ≤ (s + (64 - T.curtime.toNat / 64 ^ w % 64)) % 64 := by
  have hhand : T.curtime.toNat / 64 ^ w % 64 < 64 := Nat.mod_lt _ (by decide)
  rw [firstAhead, hand_toNat]
  refine ctz_le ?_
  rw [getLsbD_rotr _ hhand (Nat.mod_lt _ (by decide)), show ((s +
    (64 - T.curtime.toNat / 64 ^ w % 64)) % 64 + T.curtime.toNat / 64 ^ w % 64) % 64 = s by omega]
  exact hbit

/-- The lowest wheel has nothing in the slot of the present. -/
theorem Ok.turns_pos (h : Ok T) {w : Nat} (hpend : T.pending w ≠ 0#64) :
    0 < firstAhead T w + if w = 0 then 0 else 1 := by
  by_cases hw : w = 0
  · rw [if_pos hw, Nat.add_zero]
    obtain ⟨hlt, a, ha⟩ := h.linked.first hpend
    subst hw
    by_contra hzero
    have hat := h.placed 0 _ a (Nat.mod_lt _ (by decide)) ha
    have hslot := hat.slot
    have hahead := hat.hangs.ahead
    have hnear := hat.hangs.near (by decide)
    rw [tick_zero] at hslot hnear
    simp only [Nat.pow_zero, Nat.div_one] at hslot hahead hnear
    omega
  · rw [if_neg hw]
    exact Nat.succ_pos _

theorem Ok.wheelWait_toNat (h : Ok T) {w : Nat} (hw : w < 4) (hpend : T.pending w ≠ 0#64) :
    (wheelWait T w).toNat = waitFor 64 w T.curtime.toNat (firstAhead T w) := by
  have hlt := (h.linked.first hpend).1
  have hpos := h.turns_pos hpend
  have hturns : (firstAhead T w + if w = 0 then 0 else 1) ≤ 64 := by
    split <;> omega
  have hpow : 0 < 64 ^ w := Nat.pow_pos (by decide)
  have hmod : T.curtime.toNat % 64 ^ w < 64 ^ w := Nat.mod_lt _ hpow
  have hfit : 64 ^ w ≤ 64 ^ 3 := Nat.pow_le_pow_right (by decide) (by omega)
  have hlow := Nat.mul_le_mul_right (64 ^ w) (show 1 ≤ _ from hpos)
  have hhigh := Nat.mul_le_mul_right (64 ^ w) hturns
  rw [wheelWait, BitVec.toNat_sub, relmask_and hw, BitVec.toNat_ofNat, Nat.shiftLeft_eq,
    wheelBit_eq, two_pow_wheel, waitFor]
  generalize (firstAhead T w + if w = 0 then 0 else 1) * 64 ^ w = m at hlow hhigh ⊢
  generalize T.curtime.toNat % 64 ^ w = r at hmod ⊢
  generalize 64 ^ w = u at hmod hfit hlow hhigh
  omega

/-! ## The answer -/

theorem Ok.waiting_iff (h : Ok T) {a : Addr} :
    (T.mem a).waiting = true ↔ ∃ w s, w < 4 ∧ s < 64 ∧ a ∈ T.wheel (w * 64 + s) := by
  constructor
  · intro hwait
    rw [Timeout.waiting] at hwait
    split at hwait
    · rename_i i hslot
      have hi := (h.linked.slot_iff a List.not_mem_nil i).mp hslot
      have hlt : i % 64 < 64 := Nat.mod_lt _ (by decide)
      rw [← (index_eq_iff hlt).mpr ⟨rfl, rfl⟩] at hi
      exact ⟨_, _, (h.placed _ _ a hlt hi).wheel, hlt, hi⟩
    · exact absurd hwait (by decide)
  · rintro ⟨w, s, -, -, ha⟩
    rw [Timeout.waiting, (h.linked.slot_iff a List.not_mem_nil _).mpr ha]

theorem Ok.ready_iff (h : Ok T) {a : Addr} : (T.mem a).ready = true ↔ a ∈ T.expired := by
  rw [Timeout.ready, decide_eq_true_eq]
  exact h.linked.expired_iff a List.not_mem_nil

theorem Ok.lt_of_waiting (h : Ok T) {a : Addr} (hwait : (T.mem a).waiting = true) :
    T.curtime < (T.mem a).expires := by
  obtain ⟨w, s, -, hs, ha⟩ := h.waiting_iff.mp hwait
  exact (h.placed w s a hs ha).lt

theorem Ok.pending_ne_zero (h : Ok T) {w s : Nat} {a : Addr} (hs : s < 64)
    (ha : a ∈ T.wheel (w * 64 + s)) : T.pending w ≠ 0#64 :=
  ne_zero_of_getLsbD ((h.linked.bit_iff w s hs).mpr (List.ne_nil_of_mem ha))

/-- Nobody waits too long. -/
theorem Ok.int_le (h : Ok T) {a : Addr} (hwait : (T.mem a).waiting = true) :
    (timeoutsInt T).toNat ≤ (T.mem a).expires.toNat - T.curtime.toNat := by
  obtain ⟨w, s, hw, hs, ha⟩ := h.waiting_iff.mp hwait
  have hat := h.placed w s a hs ha
  have hpend := h.pending_ne_zero hs ha
  have hbit := (h.linked.bit_iff w s hs).mpr (List.ne_nil_of_mem ha)
  have hfirst : firstAhead T w ≤
      tick 64 w (T.mem a).expires.toNat - T.curtime.toNat / 64 ^ w := by
    refine Nat.le_trans (firstAhead_le hs hbit) (Nat.le_trans ?_ (hat.hangs.slotsAhead_le (by decide)))
    rw [slotsAhead, ← hat.slot]
  calc (timeoutsInt T).toNat ≤ (wheelWait T w).toNat := BitVec.le_def.mp (timeoutsInt_le hw hpend)
    _ = waitFor 64 w T.curtime.toNat (firstAhead T w) := h.wheelWait_toNat hw hpend
    _ ≤ (T.mem a).expires.toNat - T.curtime.toNat := hat.hangs.waitFor_le hfirst

/-- Nobody is told to come back at once. -/
theorem Ok.int_pos (h : Ok T) : 0 < (timeoutsInt T).toNat := by
  rcases intLoop_mem (T := T) 4 0 rfl (~~~0#64) with heq | ⟨w, hw, hpend, heq⟩
  · have hval : timeoutsInt T = ~~~0#64 := heq
    rw [hval]
    decide
  · have hval : timeoutsInt T = wheelWait T w := heq
    rw [hval, h.wheelWait_toNat hw hpend]
    have hadd := waitFor_add (t := T.curtime.toNat) (by decide : 0 < 64) (h.turns_pos hpend)
    have hmod := Nat.div_add_mod' T.curtime.toNat (64 ^ w)
    have hlt := Nat.mod_lt T.curtime.toNat (Nat.pow_pos (n := w) (by decide : 0 < 64))
    have hstep := Nat.mul_le_mul_right (64 ^ w) (show 1 ≤ _ from h.turns_pos hpend)
    rw [Nat.add_mul] at hadd
    generalize T.curtime.toNat / 64 ^ w * 64 ^ w = q at hadd hmod
    generalize (firstAhead T w + if w = 0 then 0 else 1) * 64 ^ w = m at hadd hstep
    generalize T.curtime.toNat % 64 ^ w = r at hmod hlt
    generalize 64 ^ w = u at hlt hstep
    omega

/-- With nothing on the wheels the answer is the longest time there is. -/
theorem Ok.int_none (h : Ok T) (hnone : ∀ a, (T.mem a).waiting = false) :
    timeoutsInt T = ~~~0#64 := by
  rcases intLoop_mem (T := T) 4 0 rfl (~~~0#64) with heq | ⟨w, hw, hpend, -⟩
  · exact heq
  · obtain ⟨-, a, ha⟩ := h.linked.first hpend
    have hwait := h.waiting_iff.mpr ⟨w, _, hw, Nat.mod_lt _ (by decide), ha⟩
    rw [hnone a] at hwait
    exact absurd hwait (by decide)

end Timer
end Inac
