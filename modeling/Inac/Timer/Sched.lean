import Inac.Timer.Links

/-!
# Where a timeout hangs

`timeouts_sched` takes a timeout out and puts it in again (`Timeouts.put`) where its expiry time
belongs (`placeFor`). `Ok` is the invariant of the wheels between two calls: the lists are linked,
and each timeout on a wheel hangs where `Inac.Lib.Hangs` allows it, so that no list holds a timeout
that has expired and no timeout is in a slot the hand comes to too late.

Putting a timeout somewhere is the same code for a slot and for the queue, and so is what is known
of it: it is in the list at its place and in no other, the other timeouts are where they were, and
the bit of the slot is set. The wheel and the slot come from `placeFor` and are looked at only in
`placeFor_hangs`, where the arithmetic of `Inac.Timer.Mask` meets the one of `Inac.Lib.Wheel`.
-/

namespace Inac
namespace Timer

open Lib

/-- Where `timeouts_sched` puts a timeout that expires at `expires`. -/
def placeFor (curtime expires : BitVec 64) : Place :=
  if curtime < expires then
    let wheel := timeoutWheel (expires - curtime)
    .slot (wheel * wheelLen + timeoutSlot wheel expires)
  else .expired

/-- The end of `timeouts_sched`, for a place that is given. -/
def Timeouts.put (T : Timeouts) (a : Addr) (p : Place) : Timeouts :=
  let T := (T.edit a ({ · with pending := some p })).insertTail a p
  match p with
  | .slot index => T.setBit (index / wheelLen) (index % wheelLen)
  | .expired => T

variable {T T' : Timeouts} {todo : List Addr} {a : Addr} {p : Place}

/-! ## Putting a timeout somewhere

One lemma for each field of the wheels, and then `Linked.put`, which needs nothing else of the
definition. -/

theorem put_wheel (i : Nat) :
    (T.put a p).wheel i = if p = .slot i then T.wheel i ++ [a] else T.wheel i := by
  cases p with
  | expired => rfl
  | slot index =>
    show Function.update T.wheel index (T.wheel index ++ [a]) i = _
    rw [Function.update_apply]
    by_cases hi : i = index
    · rw [if_pos hi, if_pos (by rw [hi]), hi]
    · rw [if_neg hi, if_neg fun heq => hi (Place.slot.inj heq).symm]

theorem put_expired :
    (T.put a p).expired = if p = .expired then T.expired ++ [a] else T.expired := by
  cases p with
  | expired => rfl
  | slot index => rfl

@[simp] theorem put_mem : (T.put a p).mem =
    Function.update T.mem a { T.mem a with pending := some p } := by
  cases p <;> rfl

@[simp] theorem put_curtime : (T.put a p).curtime = T.curtime := by
  cases p <;> rfl

@[simp] theorem put_hertz : (T.put a p).hertz = T.hertz := by
  cases p <;> rfl

theorem put_bit (w : Nat) {s : Nat} (hs : s < 64) : ((T.put a p).pending w).getLsbD s =
    if p = .slot (w * 64 + s) then true else (T.pending w).getLsbD s := by
  cases p with
  | expired => rfl
  | slot index =>
    have hlt : index % 64 < 64 := Nat.mod_lt _ (by decide)
    have hiff := index_eq_iff (w := w) (i := index) hs
    show (((T.edit a _).insertTail a (.slot index)).setBit (index / 64) (index % 64) |>.pending w).getLsbD
      s = _
    rw [getLsbD_setBit hlt]
    by_cases hat : w = index / 64 ∧ s = index % 64
    · rw [if_pos hat, if_pos (by rw [hiff.mpr hat])]
    · rw [if_neg hat, if_neg fun heq => hat (hiff.mp (Place.slot.inj heq).symm)]
      rfl

theorem put_mem_of_ne {b : Addr} (hb : b ≠ a) : (T.put a p).mem b = T.mem b := by
  rw [put_mem, Function.update_of_ne hb]

theorem put_mem_self : (T.put a p).mem a = { T.mem a with pending := some p } := by
  rw [put_mem, Function.update_self]

/-- The lists hold what they held, -/
theorem mem_put_wheel {b : Addr} (hb : b ≠ a) (i : Nat) :
    b ∈ (T.put a p).wheel i ↔ b ∈ T.wheel i := by
  rw [put_wheel]
  split <;> simp [hb]

theorem mem_put_expired {b : Addr} (hb : b ≠ a) : b ∈ (T.put a p).expired ↔ b ∈ T.expired := by
  rw [put_expired]
  split <;> simp [hb]

/-- and the timeout is in the one it has been put into. -/
theorem self_mem_put_wheel {i : Nat} (ha : a ∉ T.wheel i) :
    a ∈ (T.put a p).wheel i ↔ p = .slot i := by
  rw [put_wheel]
  split
  · rename_i heq
    simp [heq]
  · rename_i hne
    exact iff_of_false ha hne

theorem self_mem_put_expired (ha : a ∉ T.expired) :
    a ∈ (T.put a p).expired ↔ p = .expired := by
  rw [put_expired]
  split
  · rename_i heq
    simp [heq]
  · rename_i hne
    exact iff_of_false ha hne

theorem put_wheel_nodup {i : Nat} (h : (T.wheel i).Nodup) (ha : a ∉ T.wheel i) :
    ((T.put a p).wheel i).Nodup := by
  rw [put_wheel, ← List.concat_eq_append]
  split
  · exact h.concat ha
  · exact h

theorem put_expired_nodup (h : T.expired.Nodup) (ha : a ∉ T.expired) :
    (T.put a p).expired.Nodup := by
  rw [put_expired, ← List.concat_eq_append]
  split
  · exact h.concat ha
  · exact h

/-- A timeout that is in no list may be put into any. -/
theorem Linked.put (h : Linked T (a :: todo)) (hmember : (T.mem a).timeouts = true) :
    Linked (T.put a p) todo := by
  obtain ⟨hnot, hnodup⟩ := List.nodup_cons.mp h.todo_nodup
  -- The timeout is in no list, so it is in none twice afterwards.
  have hwheel := h.todo_wheel a List.mem_cons_self
  have hexpired := h.todo_expired a List.mem_cons_self
  have hne : ∀ b ∈ todo, b ≠ a := fun b hb heq => hnot (heq ▸ hb)
  have hout : ∀ b, b ∉ todo → b ≠ a → b ∉ a :: todo :=
    fun b hb hba => List.not_mem_cons_of_ne_of_not_mem hba hb
  constructor
  · intro b hb i
    by_cases hba : b = a
    · rw [hba, put_mem_self, self_mem_put_wheel (hwheel i), Option.some_inj]
    · rw [put_mem_of_ne hba, mem_put_wheel hba]
      exact h.slot_iff b (hout b hb hba) i
  · intro b hb
    by_cases hba : b = a
    · rw [hba, put_mem_self, self_mem_put_expired hexpired, Option.some_inj]
    · rw [put_mem_of_ne hba, mem_put_expired hba]
      exact h.expired_iff b (hout b hb hba)
  · intro b hb i
    rw [mem_put_wheel (hne b hb)]
    exact h.todo_wheel b (List.mem_cons_of_mem a hb) i
  · intro b hb
    rw [mem_put_expired (hne b hb)]
    exact h.todo_expired b (List.mem_cons_of_mem a hb)
  · exact fun i => put_wheel_nodup (h.wheel_nodup i) (hwheel i)
  · exact put_expired_nodup h.expired_nodup hexpired
  · exact hnodup
  · intro w s hs
    rw [put_bit w hs, put_wheel]
    split
    · simp
    · exact h.bit_iff w s hs
  · intro b hb
    by_cases hba : b = a
    · rw [hba, put_mem_self]
      simp [hmember]
    · rw [put_mem_of_ne hba]
      exact h.member_iff b (hout b hb hba)

/-! ## `timeouts_sched`

It is a `timeouts_del`, an edit and a put, so the invariant comes from three lemmas. Of a timeout
that is in no list the first of them does nothing. -/

theorem timeoutsDel_curtime (T : Timeouts) (a : Addr) :
    (timeoutsDel T a).curtime = T.curtime := by
  rw [timeoutsDel.eq_def]
  split
  · rfl
  · rfl
  · simp only
    split <;> rfl

theorem timeoutsSched_eq (T : Timeouts) (a : Addr) (expires : BitVec 64) :
    timeoutsSched T a expires =
      ((timeoutsDel T a).edit a ({ · with expires, timeouts := true })).put a
        (placeFor T.curtime expires) := by
  rw [timeoutsSched, placeFor]
  have hrem : timeoutRem ((timeoutsDel T a).edit a ({ · with expires, timeouts := true })) a =
      expires - T.curtime := by
    simp [timeoutRem, timeoutsDel_curtime]
  simp only [edit_curtime, timeoutsDel_curtime]
  split
  · have hlt := timeoutSlot_lt (timeoutWheel (expires - T.curtime)) expires
    simp only [hrem, edit_mem, Function.update_self, Timeouts.put, wheelLen_eq]
    rw [show (timeoutWheel (expires - T.curtime) * 64 +
      timeoutSlot (timeoutWheel (expires - T.curtime)) expires) / 64 =
        timeoutWheel (expires - T.curtime) by omega, show (timeoutWheel (expires - T.curtime) * 64 +
      timeoutSlot (timeoutWheel (expires - T.curtime)) expires) % 64 =
        timeoutSlot (timeoutWheel (expires - T.curtime)) expires by omega]
  · rfl

/-- What `timeouts_sched` makes of the timeout. -/
def Timeout.sched (t : Timeout) (curtime expires : BitVec 64) : Timeout :=
  { t with expires, timeouts := true, pending := some (placeFor curtime expires) }

/-! ## The invariant -/

/-- A timeout that expires at `expires` may be in the list of a wheel and a slot: the slot is the digit
    of its expiry that the wheel turns by, and the hand of the wheel comes to it neither too early nor
    too late (`Hangs`). -/
structure HangsAt (curtime : BitVec 64) (w s : Nat) (expires : BitVec 64) : Prop where
  wheel : w < 4
  slot : s = tick 64 w expires.toNat % 64
  hangs : Hangs 64 3 w curtime.toNat expires.toNat

/-- Whatever hangs in a wheel hangs in the slot its expiry picks on that wheel. -/
def Placed (T : Timeouts) : Prop :=
  ∀ w s a, s < 64 → a ∈ T.wheel (w * 64 + s) → HangsAt T.curtime w s (T.mem a).expires

/-- The invariant of the wheels, between two calls: nothing is on its way from one list to another. -/
structure Ok (T : Timeouts) : Prop where
  linked : Linked T []
  placed : Placed T

theorem HangsAt.lt {curtime expires : BitVec 64} {w s : Nat} (h : HangsAt curtime w s expires) :
    curtime < expires := BitVec.lt_def.mpr h.hangs.lt

/-- The place of a timeout is one where it may hang. -/
theorem placeFor_hangs {curtime expires : BitVec 64} {i : Nat}
    (h : placeFor curtime expires = .slot i) : HangsAt curtime (i / 64) (i % 64) expires := by
  rw [placeFor] at h
  split at h
  · rename_i hlt
    rw [BitVec.lt_def] at hlt
    have hsub : (expires - curtime).toNat = expires.toNat - curtime.toNat := by
      rw [BitVec.toNat_sub]
      omega
    have hne : expires - curtime ≠ 0#64 := by
      intro hzero
      rw [hzero] at hsub
      simp only [BitVec.toNat_ofNat] at hsub
      omega
    obtain ⟨hw, hlow, hhigh⟩ := timeoutWheel_spec hne
    rw [hsub] at hlow hhigh
    have hslot := timeoutSlot_lt (timeoutWheel (expires - curtime)) expires
    obtain ⟨hi, hs⟩ := (index_eq_iff hslot).mp (Place.slot.inj h)
    generalize timeoutWheel (expires - curtime) = w at *
    -- The remaining time has its highest digit at this wheel: so the hand passes the slot before it
    -- is due, and within a turn.
    have hhangs : Hangs 64 3 w curtime.toNat expires.toNat :=
      hangs_of_remaining (by decide) (by omega) fun hw3 => by
        have hup := hhigh hw3
        omega
    subst hi
    refine ⟨hw, ?_, hhangs⟩
    rw [← hs]
    exact timeoutSlot_eq (Nat.zero_lt_of_lt hhangs.ahead)
  · exact absurd h nofun

theorem placeFor_expired {curtime expires : BitVec 64} :
    placeFor curtime expires = .expired ↔ expires ≤ curtime := by
  rw [placeFor]
  split
  · rename_i hlt
    refine iff_of_false nofun fun hle => ?_
    rw [BitVec.le_def] at hle
    rw [BitVec.lt_def] at hlt
    exact absurd hlt (Nat.not_lt.mpr hle)
  · rename_i hge
    refine iff_of_true rfl ?_
    rw [BitVec.le_def]
    exact Nat.not_lt.mp fun hlt => hge (BitVec.lt_def.mpr hlt)

/-- `timeouts_sched` of a timeout that is in no list. -/
theorem put_ok (h : Linked T (a :: todo)) (hplaced : Placed T) (expires : BitVec 64) :
    Linked ((T.edit a ({ · with expires, timeouts := true })).put a
        (placeFor T.curtime expires)) todo ∧
      Placed ((T.edit a ({ · with expires, timeouts := true })).put a
        (placeFor T.curtime expires)) := by
  constructor
  · refine (h.edit _).put ?_
    rw [edit_mem, Function.update_self]
  · intro w s b hs hb
    rw [put_wheel, edit_wheel] at hb
    rw [put_curtime, edit_curtime, put_mem]
    by_cases hba : b = a
    · have hnot := h.todo_wheel a List.mem_cons_self (w * 64 + s)
      rw [hba] at hb ⊢
      split at hb
      · rename_i hat
        have hplace := placeFor_hangs hat
        rw [Function.update_self, edit_mem, Function.update_self]
        rwa [show (w * 64 + s) / 64 = w by omega, show (w * 64 + s) % 64 = s by omega] at hplace
      · exact absurd hb hnot
    · -- Another timeout was in this list before, and its place was right.
      have hmem : b ∈ T.wheel (w * 64 + s) := by
        split at hb
        · exact (List.mem_append.mp hb).resolve_right (by simp [hba])
        · exact hb
      rw [Function.update_of_ne hba, edit_mem, Function.update_of_ne hba]
      exact hplaced w s b hs hmem

theorem Removed.placed (hr : Removed T T' a) (h : Linked T todo) (ha : a ∉ todo)
    (hplaced : Placed T) : Placed T' := by
  intro w s b hs hb
  have hba : b ≠ a := by
    rintro rfl
    exact (hr.linked h ha).todo_wheel b List.mem_cons_self _ hb
  rw [hr.wheel] at hb
  rw [hr.curtime, hr.mem, Function.update_of_ne hba]
  exact hplaced w s b hs (List.mem_of_mem_erase hb)

theorem Ok.del (h : Ok T) (a : Addr) : Ok (timeoutsDel T a) := by
  have hr := h.linked.del (List.not_mem_nil (a := a))
  refine ⟨(hr.linked h.linked List.not_mem_nil).release ?_ ?_,
    hr.placed h.linked List.not_mem_nil h.placed⟩
  · rw [hr.mem, Function.update_self]
  · rw [hr.mem, Function.update_self]

theorem Ok.sched (h : Ok T) (a : Addr) (expires : BitVec 64) :
    Ok (timeoutsSched T a expires) := by
  have hr := h.linked.del (List.not_mem_nil (a := a))
  have hput := put_ok (hr.linked h.linked List.not_mem_nil)
    (hr.placed h.linked List.not_mem_nil h.placed) expires
  rw [timeoutsSched_eq, ← timeoutsDel_curtime T a]
  exact ⟨hput.1, hput.2⟩

theorem Ok.sched_mem (h : Ok T) (a : Addr) (expires : BitVec 64) :
    (timeoutsSched T a expires).mem =
      Function.update T.mem a ((T.mem a).sched T.curtime expires) := by
  have hr := h.linked.del (List.not_mem_nil (a := a))
  rw [timeoutsSched_eq, put_mem, edit_mem, Function.update_idem, Function.update_self, hr.mem,
    Function.update_idem, Function.update_self]
  rfl

theorem timeoutsSched_curtime (T : Timeouts) (a : Addr) (expires : BitVec 64) :
    (timeoutsSched T a expires).curtime = T.curtime := by
  rw [timeoutsSched_eq, put_curtime, edit_curtime, timeoutsDel_curtime]

/-- What is in no list may be edited at will. -/
theorem Placed.edit (h : Placed T) (hl : Linked T (a :: todo)) (f : Timeout → Timeout) :
    Placed (T.edit a f) := by
  intro w s b hs hb
  have hba : b ≠ a := by
    rintro rfl
    exact hl.todo_wheel b List.mem_cons_self _ hb
  rw [edit_curtime, edit_mem, Function.update_of_ne hba]
  exact h w s b hs hb

theorem Placed.edit_values (h : Placed T) {f : Timeout → Timeout}
    (hexpires : ∀ t, (f t).expires = t.expires) : Placed (T.edit a f) := by
  intro w s b hs hb
  have hsame : ((T.edit a f).mem b).expires = (T.mem b).expires := by
    rw [edit_mem, Function.update_apply]
    split
    · rename_i heq
      rw [hexpires, heq]
    · rfl
  rw [edit_curtime, hsame]
  exact h w s b hs hb

end Timer
end Inac
