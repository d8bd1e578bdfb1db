import Inac.Timer.Plain

/-!
# Runs of the wheels

The steps of `Inac.Timer.Plain` put together: from fresh wheels, any calls with any times keep the
lists, the bit fields and the pointers of the timeouts in agreement, and answer as the plain
scheduler may.

Both results are instances of the induction rules for runs in `Inac.Lib.Run`: an invariant that
every allowed call keeps holds in every state of a run, and a system whose every step refines a step
of another refines its runs. All that is allowed or not is `timeout_init`: it is only called for a
timeout that is not in use, as it would forget the list that the timeout is in.
-/

namespace Inac
namespace Timer

open Lib

variable {T : Timeouts}

/-- Memory in which no timeout is in use yet. -/
def Unused (mem : Addr → Timeout) : Prop :=
  ∀ a, (mem a).pending = none ∧ (mem a).timeouts = false

/-- Wheels that were just made. -/
theorem Ok.fresh {mem : Addr → Timeout} (h : Unused mem) (hz : BitVec 64) :
    Ok (timeoutsInit mem hz) := by
  refine ⟨?_, fun w s a _ ha => absurd ha List.not_mem_nil⟩
  constructor
  · intro a _ i
    show (mem a).pending = some (.slot i) ↔ _
    rw [(h a).1]
    exact iff_of_false nofun List.not_mem_nil
  · intro a _
    show (mem a).pending = some .expired ↔ _
    rw [(h a).1]
    exact iff_of_false nofun List.not_mem_nil
  · exact fun a ha => absurd ha List.not_mem_nil
  · exact fun a ha => absurd ha List.not_mem_nil
  · exact fun i => List.nodup_nil
  · exact List.nodup_nil
  · exact List.nodup_nil
  · -- No list holds anything, and no bit is set.
    intro w s hs
    show (0#64).getLsbD s = true ↔ ([] : List Addr) ≠ []
    rw [BitVec.getLsbD_zero]
    simp
  · intro a _
    show (mem a).timeouts = true ↔ (mem a).pending ≠ none
    rw [(h a).1, (h a).2]
    simp

/-! ## The answers

The bit fields and the queue together know whether there is anything that waits or is ready; the two
questions about a single timeout compare its time with the clock. -/

theorem status_plain (T : Timeouts) (a : Addr) : ((plain T).entry a).status = (T.mem a).status :=
  rfl

/-- Something is ready exactly if the queue is not empty. -/
theorem Ok.exists_ready_iff (h : Ok T) :
    (∃ a, ((plain T).entry a).status = .ready) ↔ T.expired ≠ [] := by
  constructor
  · rintro ⟨a, ha⟩
    exact List.ne_nil_of_mem (h.ready_iff.mp ((ready_iff_status _).mpr ha))
  · intro hne
    obtain ⟨a, ha⟩ := List.exists_mem_of_ne_nil _ hne
    exact ⟨a, (ready_iff_status _).mp (h.ready_iff.mpr ha)⟩

/-- The wait that is answered is one the plain scheduler allows. -/
theorem Ok.mayWait (h : Ok T) : (plain T).MayWait (timeoutsTimeout T) := by
  rw [timeoutsTimeout]
  constructor
  · intro hready
    rw [if_pos (h.exists_ready_iff.mp hready)]
    rfl
  · intro hnone
    rw [if_neg fun hne => (h.exists_ready_iff.mpr hne).elim fun a ha => hnone a ha]
    exact h.int_pos
  · intro a ha
    have hwait := (waiting_iff_status _).mpr ha
    split
    · exact Nat.zero_le _
    · exact h.int_le hwait
  · intro hidle
    -- Nothing waits, so no wheel has an answer.
    have hnone : ∀ a, (T.mem a).waiting = false := by
      intro a
      by_contra hne
      have hstatus := (waiting_iff_status _).mp (Bool.eq_true_of_not_eq_false hne)
      rw [← status_plain, hidle a] at hstatus
      exact absurd hstatus (by decide)
    rw [if_neg fun hne => (h.exists_ready_iff.mpr hne).elim fun a ha => by
      rw [hidle a] at ha
      exact absurd ha (by decide)]
    exact h.int_none hnone

theorem foldl_or_ne_zero_iff (pending : Nat → BitVec 64) :
    (List.range 4).foldl (fun p wheel => p ||| pending wheel) 0#64 ≠ 0#64 ↔
      ∃ w < 4, pending w ≠ 0#64 := by
  have hrange : List.range 4 = [0, 1, 2, 3] := rfl
  have hor : ∀ x y : BitVec 64, x ||| y = 0#64 ↔ x = 0#64 ∧ y = 0#64 := by
    intro x y
    exact BitVec.or_eq_zero_iff
  rw [hrange]
  simp only [List.foldl_cons, List.foldl_nil, ne_eq, hor, true_and]
  constructor
  · intro h
    by_contra hno
    have hall : ∀ w < 4, pending w = 0#64 :=
      fun w hw => by_contra fun hne => hno ⟨w, hw, hne⟩
    exact h ⟨⟨⟨hall 0 (by decide), hall 1 (by decide)⟩, hall 2 (by decide)⟩, hall 3 (by decide)⟩
  · rintro ⟨w, hw, hne⟩ ⟨⟨⟨h0, h1⟩, h2⟩, h3⟩
    interval_cases w
    · exact hne h0
    · exact hne h1
    · exact hne h2
    · exact hne h3

/-- A bit of some word is set exactly if something waits. -/
theorem Ok.timeoutsPending_iff (h : Ok T) :
    timeoutsPending T = true ↔ ∃ a, ((plain T).entry a).status = .waiting := by
  rw [timeoutsPending, decide_eq_true_eq]
  refine (foldl_or_ne_zero_iff T.pending).trans ?_
  constructor
  · rintro ⟨w, hw, hpend⟩
    obtain ⟨-, a, ha⟩ := h.linked.first hpend
    exact ⟨a, (waiting_iff_status _).mp
      (h.waiting_iff.mpr ⟨w, _, hw, Nat.mod_lt _ (by decide), ha⟩)⟩
  · rintro ⟨a, ha⟩
    obtain ⟨w, s, hw, hs, hm⟩ := h.waiting_iff.mp ((waiting_iff_status _).mpr ha)
    exact ⟨w, hw, h.pending_ne_zero hs hm⟩

theorem Ok.timeoutsExpired_iff (h : Ok T) :
    timeoutsExpired T = true ↔ ∃ a, ((plain T).entry a).status = .ready := by
  rw [timeoutsExpired, decide_eq_true_eq, h.exists_ready_iff]

theorem timeoutPending_eq (T : Timeouts) (a : Addr) :
    timeoutPending T a = decide (((plain T).entry a).status = .waiting) := by
  rw [status_plain, timeoutPending, Timeout.status]
  cases (T.mem a).pending with
  | none => rfl
  | some p => cases p <;> rfl

theorem timeoutExpired_eq (T : Timeouts) (a : Addr) :
    timeoutExpired T a = decide (((plain T).entry a).status = .ready) := by
  rw [status_plain, timeoutExpired, Timeout.status]
  cases (T.mem a).pending with
  | none => rfl
  | some p => cases p <;> rfl

/-! ## One call -/

/-- A get takes one that is ready, or there is none. -/
theorem Ok.get (h : Ok T) : Ok (timeoutsGet T).2 ∧
    PlainStep (plain T) .get (.got (timeoutsGet T).1) (plain (timeoutsGet T).2) := by
  cases hq : T.expired with
  | nil =>
    have hget : timeoutsGet T = (none, T) := by
      rw [timeoutsGet.eq_def, hq]
    rw [hget]
    exact ⟨h, .none fun a ha => h.exists_ready_iff.mp ⟨a, ha⟩ hq⟩
  | cons a rest =>
    obtain ⟨hgot, hok, hready, hplain⟩ := h.get_some hq
    rw [hgot, hplain]
    exact ⟨hok, .got a ((ready_iff_status _).mp hready)⟩

/-- **One call** is one that the plain scheduler allows, and keeps the wheels in order. -/
theorem wheelStep_refines (h : Ok T) {op : Op} (hop : Allowed T op) :
    Ok (wheelStep T op).2 ∧
      PlainStep (plain T) op (wheelStep T op).1 (plain (wheelStep T op).2) := by
  cases op with
  | init a flags =>
    obtain ⟨hok, hplain⟩ := h.init hop flags
    exact ⟨hok, hplain ▸ .init a flags⟩
  | add a timeout =>
    obtain ⟨hok, hplain⟩ := h.add timeout
    exact ⟨hok, hplain ▸ .add a timeout⟩
  | del a => exact ⟨h.del a, h.plain_del ▸ .del a⟩
  | update curtime =>
    obtain ⟨hok, hplain⟩ := h.update curtime
    exact ⟨hok, hplain ▸ .update curtime⟩
  | step elapsed =>
    obtain ⟨hok, hplain⟩ := h.update (T.curtime + elapsed)
    exact ⟨hok, hplain ▸ .step elapsed⟩
  | get => exact h.get
  | wait => exact ⟨h, .wait _ h.mayWait⟩
  | anyPending => exact ⟨h, .anyPending _ h.timeoutsPending_iff⟩
  | anyExpired => exact ⟨h, .anyExpired _ h.timeoutsExpired_iff⟩
  | check =>
    refine ⟨h, ?_⟩
    show PlainStep (plain T) .check (.checked (timeoutsCheck T)) (plain T)
    rw [h.check]
    exact .check
  | isPending a =>
    refine ⟨h, ?_⟩
    show PlainStep (plain T) (.isPending a) (.flag (timeoutPending T a)) (plain T)
    rw [timeoutPending_eq]
    exact .isPending a
  | isExpired a =>
    refine ⟨h, ?_⟩
    show PlainStep (plain T) (.isExpired a) (.flag (timeoutExpired T a)) (plain T)
    rw [timeoutExpired_eq]
    exact .isExpired a

/-! ## Runs -/

/-- Every run of the wheels, with any times, is a run of the plain scheduler. -/
theorem wheels_follow_plain {mem : Addr → Timeout} (hmem : Unused mem) (hz : BitVec 64)
    {ops : List Op} (hops : Along wheelStep Allowed (timeoutsInit mem hz) ops) :
    Follows PlainStep (plain (timeoutsInit mem hz)) ops
      (outs wheelStep (timeoutsInit mem hz) ops)
      (plain (exec wheelStep (timeoutsInit mem hz) ops)) :=
  follows_of_refines (fun _ _ hop h => wheelStep_refines h hop) hops (Ok.fresh hmem hz)

/-- Timeouts as `calloc` leaves them. -/
def zeroed : Addr → Timeout := fun _ =>
  { flags := 0, interval := 0, expires := 0, timeouts := false, pending := none, data := 0 }

theorem zeroed_unused : Unused zeroed := fun _ => ⟨rfl, rfl⟩

/-- One timeout far ahead and one close, an update past the second, and a clock that goes back. -/
def twoTimeouts : List Op :=
  [.init 1 timeoutInt, .add 1 5000, .init 2 0, .add 2 70, .update 71, .get, .update 3, .wait, .check]

theorem wheels_follow_plain_two : Follows PlainStep (plain (timeoutsInit zeroed 0)) twoTimeouts
    (outs wheelStep (timeoutsInit zeroed 0) twoTimeouts)
    (plain (exec wheelStep (timeoutsInit zeroed 0) twoTimeouts)) :=
  wheels_follow_plain zeroed_unused 0 (by decide)

/-- In every state of a run each timeout is in the one list its pointer says and once, a bit is set
    exactly when the list of its slot is not empty, whatever hangs in a wheel hangs in the slot its
    expiry picks there and ahead of the hand, and `timeouts_check` finds nothing. -/
theorem wheels_stay_linked {mem : Addr → Timeout} (hmem : Unused mem) (hz : BitVec 64)
    {ops : List Op} (hops : Along wheelStep Allowed (timeoutsInit mem hz) ops) :
    Always wheelStep (fun T => Ok T ∧ timeoutsCheck T = .ok ()) (timeoutsInit mem hz) ops := by
  have hall : Always wheelStep Ok (timeoutsInit mem hz) ops :=
    always_of_along (fun _ _ hop h => (wheelStep_refines h hop).1) hops (Ok.fresh hmem hz)
  intro pre hpre
  exact ⟨hall pre hpre, (hall pre hpre).check⟩

theorem wheels_stay_linked_two :
    Always wheelStep (fun T => Ok T ∧ timeoutsCheck T = .ok ()) (timeoutsInit zeroed 0) twoTimeouts :=
  wheels_stay_linked zeroed_unused 0 (by decide)

end Timer
end Inac
