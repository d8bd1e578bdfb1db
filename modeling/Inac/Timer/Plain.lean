import Inac.Lib.Follow
import Inac.Timer.Wait

/-!
# The wheels and the scheduler they implement

A scheduler needs no wheels: it is a clock and, for each timeout, the time it expires and whether it
is idle, waits, or is ready to be handed out. `Plain` is that scheduler. It leaves two things open:
which of several ready timeouts is handed out first, and how long exactly a caller is told to wait.

`wheelStep` is one call of the wheels' interface. **Every run of the wheels is a run of the plain
scheduler**, for any times at all, also ones that go back or wrap: no timeout is lost, none is in
two places, none is handed out before an update has reached its time, and `timeouts_check` never
finds anything to report.

The state of the scheduler is computed from that of the wheels (`plain`), and each function of the
interface is shown to do to it what the scheduler does (`PlainStep`). The lists are gone in this
view, and so is the difference between a timeout that an update has moved to a lower wheel and one
that it has left alone: in both cases it waits.

The invariant `Ok` is carried through the same lemmas, as nothing could be said about an answer
without it.
-/

namespace Inac
namespace Timer

open Lib

/-! ## The plain scheduler -/

inductive Status where
  | idle
  | waiting
  | ready
  deriving DecidableEq, Repr

/-- What the scheduler knows of a timeout. -/
structure Entry where
  flags : BitVec 32
  interval : BitVec 64
  expires : BitVec 64
  status : Status
  deriving DecidableEq, Repr

structure Plain where
  curtime : BitVec 64
  entry : Addr → Entry

def Plain.set (p : Plain) (a : Addr) (e : Entry) : Plain :=
  { p with entry := Function.update p.entry a e }

/-- An entry scheduled for a time. -/
def Entry.sched (e : Entry) (curtime expires : BitVec 64) : Entry :=
  { e with expires, status := if curtime < expires then .waiting else .ready }

def Entry.add (e : Entry) (curtime timeout : BitVec 64) : Entry :=
  let e := if e.flags &&& timeoutInt ≠ 0 then
    { e with interval := if 1 > timeout then 1 else timeout } else e
  e.sched curtime (if e.flags &&& timeoutAbs ≠ 0 then timeout else curtime + timeout)

/-- An entry whose time has come is ready. -/
def Entry.update (e : Entry) (curtime : BitVec 64) : Entry :=
  if e.status = .waiting ∧ e.expires ≤ curtime then { e with status := .ready } else e

/-- When a timeout that is handed out expires again. -/
def nextFiring (curtime expires interval : BitVec 64) : BitVec 64 :=
  if expires + interval ≤ curtime then
    curtime + (interval - (curtime - (expires + interval)) % interval)
  else expires + interval

/-- An entry that is handed out. -/
def Entry.take (e : Entry) (curtime : BitVec 64) : Entry :=
  if e.flags &&& timeoutInt ≠ 0 ∧ e.interval > 0 then
    e.sched curtime (nextFiring curtime e.expires e.interval)
  else { e with status := .idle }

/-- What the scheduler may answer to how long there is nothing to do. -/
structure Plain.MayWait (p : Plain) (d : BitVec 64) : Prop where
  ready : (∃ a, (p.entry a).status = .ready) → d = 0
  pos : (∀ a, (p.entry a).status ≠ .ready) → 0 < d.toNat
  waiting : ∀ a, (p.entry a).status = .waiting →
    d.toNat ≤ (p.entry a).expires.toNat - p.curtime.toNat
  idle : (∀ a, (p.entry a).status = .idle) → d = ~~~0#64

/-! ## Calls

`PlainStep` is a relation, as two of the answers are not determined: any ready timeout may be handed
out, and any number may be given as the time to wait that is neither zero nor beyond the first
expiry (`MayWait`). -/

inductive Op where
  | init (a : Addr) (flags : BitVec 32)
  | add (a : Addr) (timeout : BitVec 64)
  | del (a : Addr)
  | update (curtime : BitVec 64)
  | step (elapsed : BitVec 64)
  | get
  | wait
  | anyPending
  | anyExpired
  | check
  | isPending (a : Addr)
  | isExpired (a : Addr)
  deriving DecidableEq, Repr

inductive Out where
  | done
  | got (a : Option Addr)
  | wait (d : BitVec 64)
  | flag (b : Bool)
  | checked (r : Except String Unit)

def wheelStep (T : Timeouts) : Op → Out × Timeouts
  | .init a flags => (.done, timeoutInit T a flags)
  | .add a timeout => (.done, timeoutsAdd T a timeout)
  | .del a => (.done, timeoutsDel T a)
  | .update curtime => (.done, timeoutsUpdate T curtime)
  | .step elapsed => (.done, timeoutsStep T elapsed)
  | .get => (.got (timeoutsGet T).1, (timeoutsGet T).2)
  | .wait => (.wait (timeoutsTimeout T), T)
  | .anyPending => (.flag (timeoutsPending T), T)
  | .anyExpired => (.flag (timeoutsExpired T), T)
  | .check => (.checked (timeoutsCheck T), T)
  | .isPending a => (.flag (timeoutPending T a), T)
  | .isExpired a => (.flag (timeoutExpired T a), T)

/-- The answers of the plain scheduler. -/
inductive PlainStep (p : Plain) : Op → Out → Plain → Prop
  | init (a flags) :
      PlainStep p (.init a flags) .done (p.set a ⟨flags, 0, 0, .idle⟩)
  | add (a timeout) :
      PlainStep p (.add a timeout) .done (p.set a ((p.entry a).add p.curtime timeout))
  | del (a) : PlainStep p (.del a) .done (p.set a { p.entry a with status := .idle })
  | update (curtime) :
      PlainStep p (.update curtime) .done ⟨curtime, fun a => (p.entry a).update curtime⟩
  | step (elapsed) : PlainStep p (.step elapsed) .done
      ⟨p.curtime + elapsed, fun a => (p.entry a).update (p.curtime + elapsed)⟩
  | none (hnone : ∀ a, (p.entry a).status ≠ .ready) : PlainStep p .get (.got none) p
  | got (a) (hready : (p.entry a).status = .ready) :
      PlainStep p .get (.got (some a)) (p.set a ((p.entry a).take p.curtime))
  | wait (d) (hd : p.MayWait d) : PlainStep p .wait (.wait d) p
  | anyPending (b) (hb : b = true ↔ ∃ a, (p.entry a).status = .waiting) :
      PlainStep p .anyPending (.flag b) p
  | anyExpired (b) (hb : b = true ↔ ∃ a, (p.entry a).status = .ready) :
      PlainStep p .anyExpired (.flag b) p
  | check : PlainStep p .check (.checked (.ok ())) p
  | isPending (a) : PlainStep p (.isPending a) (.flag ((p.entry a).status = .waiting)) p
  | isExpired (a) : PlainStep p (.isExpired a) (.flag ((p.entry a).status = .ready)) p

/-! ## What the wheels stand for

A timeout is idle, waits or is ready by where it points to; the wheel and the slot do not matter. -/

def Timeout.status (t : Timeout) : Status :=
  match t.pending with
  | none => .idle
  | some (.slot _) => .waiting
  | some .expired => .ready

def Timeout.entry (t : Timeout) : Entry := ⟨t.flags, t.interval, t.expires, t.status⟩

/-- The plain scheduler of the wheels. -/
def plain (T : Timeouts) : Plain := ⟨T.curtime, fun a => (T.mem a).entry⟩

/-- A timeout that is initialised is not in use. -/
def Allowed (T : Timeouts) : Op → Prop
  | .init a _ => (T.mem a).pending = none
  | _ => True

instance (T : Timeouts) (op : Op) : Decidable (Allowed T op) :=
  match op with
  | .init a _ => inferInstanceAs (Decidable ((T.mem a).pending = none))
  | .add .. | .del _ | .update _ | .step _ | .get | .wait | .anyPending | .anyExpired | .check
  | .isPending _ | .isExpired _ => inferInstanceAs (Decidable True)

variable {T : Timeouts} {a : Addr}

/-- On a wheel is waiting, and in the queue is ready. -/
theorem waiting_iff_status (t : Timeout) : t.waiting = true ↔ t.status = .waiting := by
  rw [Timeout.waiting, Timeout.status]
  cases t.pending with
  | none => simp
  | some p => cases p <;> simp

theorem ready_iff_status (t : Timeout) : t.ready = true ↔ t.status = .ready := by
  rw [Timeout.ready, Timeout.status, decide_eq_true_eq]
  cases t.pending with
  | none => simp
  | some p => cases p <;> simp

/-- A change of one timeout is a change of its entry. -/
theorem plain_set {T' : Timeouts} {t : Timeout} (hcur : T'.curtime = T.curtime)
    (hmem : T'.mem = Function.update T.mem a t) : plain T' = (plain T).set a t.entry := by
  rw [plain, plain, Plain.set, hcur, hmem]
  congr 1
  funext b
  rw [Function.update_apply, Function.update_apply]
  split <;> rfl

theorem plain_edit (T : Timeouts) (a : Addr) (f : Timeout → Timeout) :
    plain (T.edit a f) = (plain T).set a (f (T.mem a)).entry := plain_set rfl rfl

/-- Scheduling a timeout places its entry by the two times. -/
theorem entry_sched (t : Timeout) (curtime expires : BitVec 64) :
    (t.sched curtime expires).entry = t.entry.sched curtime expires := by
  rw [Timeout.sched, Timeout.entry, Entry.sched, Timeout.status, placeFor]
  split
  · rename_i hlt
    rfl
  · rfl

/-! ## The calls that change something -/

/-- **`timeout_init`** on a timeout that is in no list. -/
theorem Ok.init (h : Ok T) (hidle : (T.mem a).pending = none) (flags : BitVec 32) :
    Ok (timeoutInit T a flags) ∧
      plain (timeoutInit T a flags) = (plain T).set a ⟨flags, 0, 0, .idle⟩ := by
  have hpull := h.linked.pull (a := a) List.not_mem_nil
    (fun i hm => by
      rw [(h.linked.slot_iff a List.not_mem_nil i).mpr hm] at hidle
      exact absurd hidle nofun)
    (fun hm => by
      rw [(h.linked.expired_iff a List.not_mem_nil).mpr hm] at hidle
      exact absurd hidle nofun)
  refine ⟨⟨(hpull.edit _).release ?_ ?_, h.placed.edit hpull _⟩, plain_edit T a _⟩
  · rw [edit_mem, Function.update_self]
  · rw [edit_mem, Function.update_self]

/-- What a schedule makes of the entry; the other ones stay. -/
theorem Ok.plain_sched (h : Ok T) (expires : BitVec 64) :
    plain (timeoutsSched T a expires) =
      (plain T).set a (((plain T).entry a).sched T.curtime expires) := by
  rw [plain_set (timeoutsSched_curtime T a expires) (h.sched_mem a expires), entry_sched]
  rfl

/-- Removing a timeout makes it idle. -/
theorem Ok.plain_del (h : Ok T) :
    plain (timeoutsDel T a) = (plain T).set a { (plain T).entry a with status := .idle } :=
  plain_set (timeoutsDel_curtime T a) (h.linked.del List.not_mem_nil).mem

theorem set_set (p : Plain) (a : Addr) (e e' : Entry) : (p.set a e).set a e' = p.set a e' := by
  rw [Plain.set, Plain.set, Plain.set, Function.update_idem]

theorem set_entry (p : Plain) (a : Addr) (e : Entry) : (p.set a e).entry a = e := by
  show Function.update p.entry a e a = e
  rw [Function.update_self]

/-- **`timeouts_add`** sets the expiry and schedules. -/
theorem Ok.add (h : Ok T) (timeout : BitVec 64) :
    Ok (timeoutsAdd T a timeout) ∧ plain (timeoutsAdd T a timeout) =
      (plain T).set a (((plain T).entry a).add T.curtime timeout) := by
  -- the interval is stored before the timeout is scheduled
  obtain ⟨S, hS⟩ : ∃ S, S = if (T.mem a).flags &&& timeoutInt ≠ 0 then
      T.edit a ({ · with interval := if 1 > timeout then 1 else timeout }) else T := ⟨_, rfl⟩
  obtain ⟨e, he⟩ : ∃ e, e = if ((plain T).entry a).flags &&& timeoutInt ≠ 0 then
      { (plain T).entry a with interval := if 1 > timeout then 1 else timeout }
      else (plain T).entry a := ⟨_, rfl⟩
  have hstored : Ok S ∧ S.curtime = T.curtime ∧ plain S = (plain T).set a e := by
    have hflags : ((plain T).entry a).flags = (T.mem a).flags := rfl
    rw [hS, he, hflags]
    split
    · exact ⟨⟨h.linked.edit_values (fun _ => rfl) (fun _ => rfl), h.placed.edit_values fun _ => rfl⟩,
        rfl, plain_edit T a _⟩
    · refine ⟨h, rfl, ?_⟩
      rw [Plain.set, Function.update_eq_self]
  obtain ⟨hok, hcur, hplain⟩ := hstored
  have hadd : timeoutsAdd T a timeout =
      timeoutsSched S a (if (S.mem a).flags &&& timeoutAbs ≠ 0 then timeout
        else T.curtime + timeout) := by
    rw [← hcur, timeoutsAdd]
    simp only [← hS]
    split <;> rfl
  have hentry : (plain S).entry a = e := by rw [hplain, set_entry]
  have hflags : (S.mem a).flags = e.flags := by
    rw [← hentry]
    rfl
  rw [hadd]
  refine ⟨hok.sched a _, ?_⟩
  rw [hok.plain_sched, hentry, hplain, set_set, hcur, hflags, Entry.add, ← he]

/-- **`timeouts_update`** makes ready what is due, and nothing else. -/
theorem Ok.update (h : Ok T) (curtime : BitVec 64) :
    Ok (timeoutsUpdate T curtime) ∧ plain (timeoutsUpdate T curtime) =
      ⟨curtime, fun a => ((plain T).entry a).update curtime⟩ := by
  obtain ⟨hok, hcur, todo, hwait, hlater, hmem⟩ := timeoutsUpdate_spec h curtime
  refine ⟨hok, ?_⟩
  rw [plain, hcur]
  congr 1
  funext a
  rw [hmem a]
  show _ = (T.mem a).entry.update curtime
  have hdue : (T.mem a).entry.expires = (T.mem a).expires := rfl
  have hstatus : (T.mem a).entry.status = (T.mem a).status := rfl
  split
  · -- It was taken out and scheduled anew: if its time has come it is in the queue, and else it
    -- waits as before.
    rename_i hin
    have hw := (waiting_iff_status _).mp (hwait a hin)
    rw [entry_sched, Entry.update, Entry.sched, hstatus, hw, hdue]
    by_cases hle : (T.mem a).expires ≤ curtime
    · rw [if_neg (BitVec.not_lt.mpr hle), if_pos ⟨rfl, hle⟩]
    · rw [if_pos (BitVec.not_le.mp hle), if_neg fun hc => hle hc.2, Timeout.entry, hw]
  · rename_i hout
    rw [Entry.update, if_neg]
    rintro ⟨hw, hle⟩
    exact (BitVec.not_lt.mpr hle) (hlater a hout ((waiting_iff_status _).mpr (hstatus ▸ hw)))

/-- What an update does to a timeout, without the plain scheduler. -/
theorem Ok.update_waiting (h : Ok T) (curtime : BitVec 64) (b : Addr) :
    ((timeoutsUpdate T curtime).mem b).expires = (T.mem b).expires ∧
      (((timeoutsUpdate T curtime).mem b).waiting = true ↔
        (T.mem b).waiting = true ∧ curtime < (T.mem b).expires) ∧
      (((timeoutsUpdate T curtime).mem b).ready = true ↔
        (T.mem b).ready = true ∨ (T.mem b).waiting = true ∧ (T.mem b).expires ≤ curtime) := by
  have hplain := (h.update curtime).2
  -- The entry of the timeout is the plain one updated, so its status and its time can be read off
  -- there.
  have hentry : ((timeoutsUpdate T curtime).mem b).entry = (T.mem b).entry.update curtime :=
    congrFun (congrArg Plain.entry hplain) b
  have hexpires := congrArg Entry.expires hentry
  have hstatus : ((timeoutsUpdate T curtime).mem b).status =
      ((T.mem b).entry.update curtime).status := congrArg Entry.status hentry
  rw [waiting_iff_status, ready_iff_status, waiting_iff_status, ready_iff_status, hstatus]
  have hsame : (T.mem b).entry.status = (T.mem b).status := rfl
  have hdue : (T.mem b).entry.expires = (T.mem b).expires := rfl
  rw [Entry.update] at hexpires ⊢
  rw [hsame, hdue] at hexpires ⊢
  split at hexpires
  · rename_i hc
    rw [if_pos hc]
    refine ⟨hexpires, ?_, ?_⟩
    · exact iff_of_false nofun fun hw => (BitVec.not_lt.mpr hc.2) hw.2
    · exact iff_of_true rfl (Or.inr hc)
  · rename_i hc
    rw [if_neg hc, hsame]
    refine ⟨hexpires, ?_, ?_⟩
    · refine ⟨fun hw => ⟨hw, ?_⟩, fun hw => hw.1⟩
      exact BitVec.not_le.mp fun hle => hc ⟨hw, hle⟩
    · exact ⟨Or.inl, fun hr => hr.resolve_right hc⟩

/-! ## `timeouts_get` -/

/-- The head of the queue taken out. -/
theorem Ok.takeHead (h : Ok T) (hmem : a ∈ T.expired) :
    Linked (T.remove a .expired) [a] ∧ Placed (T.remove a .expired) := by
  have hne : ∀ b, b ∉ [a] → b ≠ a := fun b hb heq => hb (List.mem_singleton.mpr heq)
  refine ⟨?_, h.placed⟩
  constructor
  · intro b hb i
    exact h.linked.slot_iff b List.not_mem_nil i
  · intro b hb
    show _ ↔ b ∈ T.expired.erase a
    rw [List.mem_erase_of_ne (hne b hb)]
    exact h.linked.expired_iff b List.not_mem_nil
  · intro b hb i hm
    rw [List.mem_singleton.mp hb] at hm
    -- A timeout in the queue points to the queue, so no list of the wheels holds it.
    have hslot := (h.linked.slot_iff a List.not_mem_nil i).mpr hm
    rw [(h.linked.expired_iff a List.not_mem_nil).mpr hmem] at hslot
    exact absurd hslot (by simp)
  · intro b hb
    rw [List.mem_singleton.mp hb]
    exact h.linked.expired_nodup.not_mem_erase
  · exact h.linked.wheel_nodup
  · exact h.linked.expired_nodup.erase a
  · exact List.nodup_singleton a
  · exact h.linked.bit_iff
  · intro b hb
    exact h.linked.member_iff b List.not_mem_nil

/-- `timeouts_sched` of a timeout that points nowhere. -/
theorem sched_out (h : Linked T [a]) (hplaced : Placed T) (hnone : (T.mem a).pending = none)
    (expires : BitVec 64) : Ok (timeoutsSched T a expires) ∧
      plain (timeoutsSched T a expires) =
        (plain T).set a (((plain T).entry a).sched T.curtime expires) := by
  have hdel : timeoutsDel T a = T := by
    rw [timeoutsDel.eq_def, hnone]
  have hput := put_ok h hplaced expires
  have hmem : (timeoutsSched T a expires).mem =
      Function.update T.mem a ((T.mem a).sched T.curtime expires) := by
    rw [timeoutsSched_eq, hdel, put_mem, edit_mem, Function.update_idem, Function.update_self]
    rfl
  constructor
  · rw [timeoutsSched_eq, hdel]
    exact ⟨hput.1, hput.2⟩
  · rw [plain_set (timeoutsSched_curtime T a expires) hmem, entry_sched]
    rfl

/-- A repeating timeout that was taken is scheduled for its next firing. -/
theorem timeoutsReadd_eq (T : Timeouts) (a : Addr) :
    timeoutsReadd T a = timeoutsSched
      (T.edit a ({ · with
        expires := nextFiring T.curtime (T.mem a).expires (T.mem a).interval })) a
      (nextFiring T.curtime (T.mem a).expires (T.mem a).interval) := by
  rw [timeoutsReadd, nextFiring]
  simp only [edit_mem, edit_curtime, Function.update_self]
  split
  · simp only [Function.update_self, Timeouts.edit, Function.update_idem]
  · simp only [edit_mem, Function.update_self]
    rfl

/-- **`timeouts_get`** takes the head of the queue, which is ready. -/
theorem Ok.get_some (h : Ok T) {rest : List Addr} (hq : T.expired = a :: rest) :
    (timeoutsGet T).1 = some a ∧ Ok (timeoutsGet T).2 ∧ (T.mem a).ready = true ∧
      plain (timeoutsGet T).2 = (plain T).set a (((plain T).entry a).take T.curtime) := by
  have hmem : a ∈ T.expired := hq ▸ List.mem_cons_self
  obtain ⟨hlinked, hplaced⟩ := h.takeHead hmem
  have hready := h.ready_iff.mpr hmem
  -- The state between the removal from the queue and what comes next: a repetition, or the release
  -- of the timeout.
  obtain ⟨S, hS⟩ : ∃ S, S = (T.remove a .expired).edit a ({ · with pending := none }) := ⟨_, rfl⟩
  have hSmem : S.mem a = { T.mem a with pending := none } := by
    rw [hS, edit_mem, Function.update_self]
    rfl
  have hSlinked : Linked S [a] := hS ▸ hlinked.edit _
  have hSplaced : Placed S := hS ▸ hplaced.edit hlinked _
  have hScur : S.curtime = T.curtime := by rw [hS]; rfl
  have hSplain : plain S = (plain T).set a { (plain T).entry a with status := .idle } := by
    rw [hS, plain_edit]
    rfl
  rw [timeoutsGet.eq_def, hq]
  simp only [← hS]
  have hflags : ((plain T).entry a).flags = (S.mem a).flags := by rw [hSmem]; rfl
  have hinterval : ((plain T).entry a).interval = (S.mem a).interval := by rw [hSmem]; rfl
  have hexpires : ((plain T).entry a).expires = (S.mem a).expires := by rw [hSmem]; rfl
  rw [Entry.take, hflags, hinterval, hexpires]
  split
  · have hlinked' := hSlinked.edit ({ · with
      expires := nextFiring S.curtime (S.mem a).expires (S.mem a).interval })
    have hplaced' := hSplaced.edit hSlinked ({ · with
      expires := nextFiring S.curtime (S.mem a).expires (S.mem a).interval })
    obtain ⟨hok, hplain⟩ := sched_out hlinked' hplaced'
      (by rw [edit_mem, Function.update_self, hSmem])
      (nextFiring S.curtime (S.mem a).expires (S.mem a).interval)
    refine ⟨rfl, ?_, hready, ?_⟩
    · rw [timeoutsReadd_eq]
      exact hok
    · rw [timeoutsReadd_eq, hplain, plain_edit, set_set, set_entry, hSplain, set_set, edit_curtime,
        hScur, hSmem]
      rfl
  · have hout := hSlinked.edit ({ · with timeouts := false })
    refine ⟨rfl, ⟨hout.release ?_ ?_, hSplaced.edit hSlinked _⟩, hready, ?_⟩
    · rw [edit_mem, Function.update_self, hSmem]
    · rw [edit_mem, Function.update_self]
    · rw [plain_edit, hSplain, set_set, hSmem]
      rfl

/-! ## `timeouts_check`

The check goes over all lists for the least expiry, and complains if it has passed or if
`timeouts_int` answers more than what is left to it. Neither happens, by `Ok.int_le`. -/

/-- The inner step of `timeouts_min`. -/
def sooner (T : Timeouts) (min : Option Addr) (a : Addr) : Option Addr :=
  match min with
  | none => some a
  | some m => if (T.mem a).expires < (T.mem m).expires then some a else some m

theorem sooner_mem (T : Timeouts) (l : List Addr) (min : Option Addr) :
    (l.foldl (sooner T) min = none ↔ min = none ∧ l = []) ∧
      ∀ a, l.foldl (sooner T) min = some a → min = some a ∨ a ∈ l := by
  induction l generalizing min with
  | nil => exact ⟨by simp, fun a ha => Or.inl ha⟩
  | cons b l ih =>
    -- The first timeout of the list is taken whatever its time is.
    have hnone : sooner T min b ≠ none := by
      cases min with
      | none => exact nofun
      | some m =>
        rw [sooner]
        split <;> exact nofun
    have hsome : ∀ a, sooner T min b = some a → min = some a ∨ a = b := by
      intro a ha
      cases min with
      | none => exact Or.inr (Option.some.inj ha).symm
      | some m =>
        rw [sooner] at ha
        split at ha
        · exact Or.inr (Option.some.inj ha).symm
        · exact Or.inl ha
    obtain ⟨hnil, hmem⟩ := ih (sooner T min b)
    refine ⟨?_, fun a ha => ?_⟩
    · rw [List.foldl_cons, hnil]
      exact iff_of_false (fun hc => hnone hc.1) (fun hc => List.cons_ne_nil b l hc.2)
    · rcases hmem a ha with heq | hin
      · rcases hsome a heq with hmin | rfl
        · exact Or.inl hmin
        · exact Or.inr List.mem_cons_self
      · exact Or.inr (List.mem_cons_of_mem b hin)

/-- The two loops over the wheels and slots are one walk over all waiting timeouts. -/
theorem timeoutsMin_eq (T : Timeouts) : timeoutsMin T =
    ((List.range 4).flatMap fun i => (List.range 64).flatMap fun j => T.wheel (i * 64 + j)).foldl
      (sooner T) none := by
  rw [List.foldl_flatMap]
  simp only [List.foldl_flatMap]
  rfl

/-- The minimum is one of the waiting timeouts, if there are any. -/
theorem timeoutsMin_spec (T : Timeouts) :
    (timeoutsMin T = none → ∀ w s, w < 4 → s < 64 → T.wheel (w * 64 + s) = []) ∧
      ∀ a, timeoutsMin T = some a → ∃ w s, w < 4 ∧ s < 64 ∧ a ∈ T.wheel (w * 64 + s) := by
  rw [timeoutsMin_eq]
  obtain ⟨hnone, hsome⟩ := sooner_mem T
    ((List.range 4).flatMap fun i => (List.range 64).flatMap fun j => T.wheel (i * 64 + j)) none
  refine ⟨fun h w s hw hs => ?_, fun a ha => ?_⟩
  · have hnil := (hnone.mp h).2
    simp only [List.flatMap_eq_nil_iff, List.mem_range] at hnil
    exact hnil w hw s hs
  · have hin := (hsome a ha).resolve_left nofun
    simp only [List.mem_flatMap, List.mem_range] at hin
    obtain ⟨w, hw, s, hs, hm⟩ := hin
    exact ⟨w, s, hw, hs, hm⟩

/-- The wait does not go beyond the expiry of any timeout on a wheel. -/
theorem Ok.int_le_sub (h : Ok T) (hwait : (T.mem a).waiting = true) :
    timeoutsInt T ≤ (T.mem a).expires - T.curtime := by
  have hlt := BitVec.lt_def.mp (h.lt_of_waiting hwait)
  have hle := h.int_le hwait
  rw [BitVec.le_def, BitVec.toNat_sub]
  omega

theorem timeoutsTimeout_le (T : Timeouts) : timeoutsTimeout T ≤ timeoutsInt T := by
  rw [timeoutsTimeout]
  split
  · exact BitVec.le_def.mpr (Nat.zero_le _)
  · exact BitVec.le_refl _

theorem Ok.none_waiting (h : Ok T) (hmin : timeoutsMin T = none) (a : Addr) :
    (T.mem a).waiting = false := by
  by_contra hne
  obtain ⟨w, s, hw, hs, ha⟩ := h.waiting_iff.mp (Bool.eq_true_of_not_eq_false hne)
  rw [(timeoutsMin_spec T).1 hmin w s hw hs] at ha
  exact List.not_mem_nil ha

/-- **`timeouts_check`** finds nothing wrong. -/
theorem Ok.check (h : Ok T) : timeoutsCheck T = .ok () := by
  rw [timeoutsCheck.eq_def]
  cases hmin : timeoutsMin T with
  | none =>
    have hnone := h.none_waiting hmin
    simp only
    split
    · rename_i hexp
      rw [if_pos (by rw [timeoutsTimeout, if_pos hexp])]
    · rename_i hexp
      rw [if_pos (by rw [timeoutsTimeout, if_neg hexp, h.int_none hnone])]
  | some a =>
    obtain ⟨w, s, hw, hs, ha⟩ := (timeoutsMin_spec T).2 a hmin
    have hwait := h.waiting_iff.mpr ⟨w, s, hw, hs, ha⟩
    have hle := h.int_le_sub hwait
    simp only
    rw [if_neg (not_not.mpr (h.lt_of_waiting hwait)), if_neg (not_not.mpr hle),
      if_neg (not_not.mpr (BitVec.le_trans (timeoutsTimeout_le T) hle))]

end Timer
end Inac
