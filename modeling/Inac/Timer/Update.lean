import Inac.Timer.Sched

/-!
# `timeouts_update`

An update takes the lists of the slots that the hands pass out of the wheels, sets the time, and
schedules what it took out again. What stays on a wheel hangs there rightly at the new time too
(`Hangs.stays`), so the invariant holds afterwards whatever the two times are: where the new time
is less than the old one the clock has gone round, and every timeout is taken out.

What the update does to the timeouts is said without the wheels in `timeoutsUpdate_spec`: those that
it took out were waiting and are scheduled anew, and of the others none that waits is due.

The time an update covers is counted in two ways. The code has the two times as words and their
difference, which wraps. The lemmas have a natural number `n` beside them, the new time as it were
without the wrap, so that the hands only ever go forward: `n` is the old time plus the difference,
and the new time is its remainder. An update to an earlier time is then one over almost the whole
range, in which every wheel comes round and every slot is passed.

The loop over the wheels ends at the first wheel that does not come round, since the hands of the
higher ones have not moved. This is why `Swept` is a disjunction: a hand stays where it is, or all
slots it passes have been emptied. Both are enough for what is left on the wheel to hang rightly.

That a timeout is scheduled anew is all that happens to it, and to which list it goes is no matter
here: the specification of the update (`timeoutsUpdate_spec`) names the timeouts that are taken out,
says that those which stay are still ahead, and says no more.
-/

namespace Inac
namespace Timer

open Lib

variable {T T' : Timeouts} {todo todo' : List Addr}

/-! ## Taking lists out

`Taken` is a relation between two states of the loop, and it is transitive: from one list
(`taken_slot`) over the slots of a wheel (`takeSlots_taken`) to all wheels (`takeWheels_taken`). No
timeout is written to in between: those that have been taken still point to the list they were in,
which is why `Linked` says nothing of what is in `todo`. -/

/-- Lists have been taken out of `T`, which left `T'`. -/
structure Taken (T : Timeouts) (todo : List Addr) (T' : Timeouts) (todo' : List Addr) : Prop where
  linked : Linked T' todo'
  mem : T'.mem = T.mem
  curtime : T'.curtime = T.curtime
  hertz : T'.hertz = T.hertz
  expired : T'.expired = T.expired
  wheel : ∀ i, T'.wheel i = [] ∨ T'.wheel i = T.wheel i
  todo_sub : ∀ a ∈ todo', a ∈ todo ∨ ∃ i, a ∈ T.wheel i

theorem Taken.refl (h : Linked T todo) : Taken T todo T todo where
  linked := h
  mem := rfl
  curtime := rfl
  hertz := rfl
  expired := rfl
  wheel _ := Or.inr rfl
  todo_sub _ ha := Or.inl ha

/-- What is still in a list was there before. -/
theorem Taken.mem_wheel (h : Taken T todo T' todo') {a : Addr} {i : Nat} (ha : a ∈ T'.wheel i) :
    a ∈ T.wheel i := by
  rcases h.wheel i with hnil | heq
  · rw [hnil] at ha
    exact absurd ha List.not_mem_nil
  · exact heq ▸ ha

/-- Lists taken out one after the other. -/
theorem Taken.trans {T'' : Timeouts} {todo'' : List Addr} (h : Taken T todo T' todo')
    (h' : Taken T' todo' T'' todo'') : Taken T todo T'' todo'' where
  linked := h'.linked
  mem := h'.mem.trans h.mem
  curtime := h'.curtime.trans h.curtime
  hertz := h'.hertz.trans h.hertz
  expired := h'.expired.trans h.expired
  wheel i := by
    rcases h'.wheel i with hnil | heq
    · exact Or.inl hnil
    · exact heq ▸ h.wheel i
  todo_sub a ha := by
    rcases h'.todo_sub a ha with htodo | ⟨i, hi⟩
    · exact h.todo_sub a htodo
    · exact Or.inr ⟨i, h.mem_wheel hi⟩

/-- An empty list stays empty. -/
theorem Taken.nil (h : Taken T todo T' todo') {i : Nat} (hi : T.wheel i = []) :
    T'.wheel i = [] := by
  rcases h.wheel i with hnil | heq
  · exact hnil
  · exact heq.trans hi

/-- One list is taken out. -/
theorem taken_slot (h : Linked T todo) (w : Nat) {s : Nat} (hs : s < 64) :
    Taken T todo ((T.empty (w * 64 + s)).clearBit w s) (todo ++ T.wheel (w * 64 + s)) := by
  -- One list is empty now, and the others are what they were.
  have hwheel : ∀ i, ((T.empty (w * 64 + s)).clearBit w s).wheel i =
      if i = w * 64 + s then [] else T.wheel i :=
    fun i => Function.update_apply T.wheel (w * 64 + s) [] i
  have hnot : ∀ a, a ∉ todo ++ T.wheel (w * 64 + s) → a ∉ todo ∧ a ∉ T.wheel (w * 64 + s) := by
    intro a ha
    exact ⟨fun hm => ha (List.mem_append_left _ hm), fun hm => ha (List.mem_append_right _ hm)⟩
  have hmem : ∀ a i, a ∈ ((T.empty (w * 64 + s)).clearBit w s).wheel i → a ∈ T.wheel i := by
    intro a i ha
    rw [hwheel] at ha
    split at ha
    · exact absurd ha List.not_mem_nil
    · exact ha
  have happart : ∀ a ∈ T.wheel (w * 64 + s), a ∉ todo :=
    fun a ha hm => h.todo_wheel a hm _ ha
  refine
    { linked := ?_
      mem := rfl
      curtime := rfl
      hertz := rfl
      expired := rfl
      wheel := fun i => ?_
      todo_sub := fun a ha => (List.mem_append.mp ha).imp id fun hm => ⟨_, hm⟩ }
  · constructor
    · intro a ha i
      refine (h.slot_iff a (hnot a ha).1 i).trans ⟨fun hm => ?_, hmem a i⟩
      have hne : i ≠ w * 64 + s := by
        rintro rfl
        exact (hnot a ha).2 hm
      rwa [hwheel, if_neg hne]
    · intro a ha
      exact h.expired_iff a (hnot a ha).1
    · intro a ha i hm
      rcases List.mem_append.mp ha with hin | hin
      · exact h.todo_wheel a hin i (hmem a i hm)
      · -- What has just been taken was in this list only.
        have hslot := (h.slot_iff a (happart a hin) _).mpr hin
        have hslot' := (h.slot_iff a (happart a hin) _).mpr (hmem a i hm)
        rw [hslot, Option.some_inj] at hslot'
        rw [hwheel, if_pos (Place.slot.inj hslot').symm] at hm
        exact List.not_mem_nil hm
    · intro a ha hm
      rcases List.mem_append.mp ha with hin | hin
      · exact h.todo_expired a hin hm
      · have hslot := (h.slot_iff a (happart a hin) _).mpr hin
        rw [(h.expired_iff a (happart a hin)).mpr hm] at hslot
        exact absurd hslot (by simp)
    · intro i
      rw [hwheel]
      split
      · exact List.nodup_nil
      · exact h.wheel_nodup i
    · exact h.expired_nodup
    · refine List.nodup_append.mpr ⟨h.todo_nodup, h.wheel_nodup _, ?_⟩
      rintro a ha b hb rfl
      exact happart a hb ha
    · intro v r hr
      rw [getLsbD_clearBit hs _ _ hr, hwheel]
      by_cases hat : v = w ∧ r = s
      · rw [if_pos hat, if_pos (by rw [hat.1, hat.2])]
        simp
      · rw [if_neg hat, if_neg fun heq => hat (by omega)]
        exact h.bit_iff v r hr
    · intro a ha
      exact h.member_iff a (hnot a ha).1
  · rw [hwheel]
    split
    · exact Or.inl rfl
    · exact Or.inr rfl

/-- The slots below the next one to be taken are done, which bounds the rounds of the loop. -/
theorem takeSlots_taken (pending : BitVec 64) (w fuel : Nat) (h : Linked T todo)
    (hdone : ∀ s, s + fuel < 64 → (pending &&& T.pending w).getLsbD s = false) :
    Taken T todo (takeSlots pending w fuel (T, todo)).1 (takeSlots pending w fuel (T, todo)).2 ∧
      ∀ s < 64, pending.getLsbD s = true →
        (takeSlots pending w fuel (T, todo)).1.wheel (w * 64 + s) = [] := by
  have hempty : ∀ {T : Timeouts} {todo : List Addr}, Linked T todo →
      (∀ s < 64, (pending &&& T.pending w).getLsbD s = false) →
      ∀ s < 64, pending.getLsbD s = true → T.wheel (w * 64 + s) = [] := by
    intro T todo h hzero s hs hbit
    by_contra hne
    have hset := hzero s hs
    rw [BitVec.getLsbD_and, hbit, Bool.true_and] at hset
    rw [(h.bit_iff w s hs).mpr hne] at hset
    exact absurd hset (by decide)
  induction fuel generalizing T todo with
  | zero => exact ⟨Taken.refl h, hempty h hdone⟩
  | succ fuel ih =>
    rw [takeSlots]
    split
    · rename_i hzero
      refine ⟨Taken.refl h, hempty h fun s _ => ?_⟩
      rw [hzero, BitVec.getLsbD_zero]
    · rename_i hne
      have hs := ctz_lt hne
      have htake := taken_slot h w hs
      simp only [wheelLen_eq]
      have hnext : ∀ s, s + fuel < 64 → (pending &&&
          ((T.empty (w * 64 + ctz (pending &&& T.pending w))).clearBit w
            (ctz (pending &&& T.pending w))).pending w).getLsbD s = false := by
        intro s hlt
        have hslt : s < 64 := by omega
        rw [BitVec.getLsbD_and, getLsbD_clearBit hs _ _ hslt]
        by_cases hctz : s = ctz (pending &&& T.pending w)
        · rw [if_pos ⟨rfl, hctz⟩, Bool.and_false]
        · rw [if_neg fun hc => hctz hc.2]
          show (pending.getLsbD s && (T.pending w).getLsbD s) = false
          rw [← BitVec.getLsbD_and]
          -- below the lowest bit, or done before
          by_cases hbelow : s < ctz (pending &&& T.pending w)
          · by_contra hset
            exact absurd (ctz_le (Bool.eq_true_of_not_eq_false hset)) (Nat.not_le.mpr hbelow)
          · have hlow : ctz (pending &&& T.pending w) + (fuel + 1) < 64 := by omega
            have hbit := hdone _ hlow
            rw [getLsbD_ctz hne] at hbit
            exact absurd hbit (by decide)
      obtain ⟨htaken, hgone⟩ := ih htake.linked hnext
      exact ⟨htake.trans htaken, hgone⟩

/-- The hands of the wheels from `w` on, for a clock that goes on from `told` to `n`: a hand stays
    where it is, or the slots it passes have been emptied. -/
def Swept (T : Timeouts) (told n w : Nat) : Prop :=
  ∀ v, w ≤ v → v < 4 → told / 64 ^ v = n / 64 ^ v ∨
    ∀ k, told / 64 ^ v ≤ k → k ≤ n / 64 ^ v → T.wheel (v * 64 + k % 64) = []

/-- The time that is counted for the next wheel: what has passed, or a slot of that wheel if this is
    more, since the wheel below has come round. -/
theorem elapsed_next {t n w : Nat} {elapsed : BitVec 64} (hw : w < 4)
    (he : Elapsed t n w elapsed.toNat) :
    Elapsed t n (w + 1)
      (if elapsed > BitVec.ofNat 64 (wheelLen <<< (w * wheelBit)) then elapsed
        else BitVec.ofNat 64 (wheelLen <<< (w * wheelBit))).toNat := by
  have hturn : (BitVec.ofNat 64 (wheelLen <<< (w * wheelBit))).toNat = 64 ^ (w + 1) := by
    rw [BitVec.toNat_ofNat, Nat.shiftLeft_eq, wheelBit_eq, two_pow_wheel, wheelLen_eq,
      Nat.mul_comm, ← Nat.pow_succ]
    have hpow : 64 ^ (w + 1) ≤ 64 ^ 4 := Nat.pow_le_pow_right (by decide) hw
    exact Nat.mod_eq_of_lt (by omega)
  have htime := he.time
  split
  · rename_i hgt
    rw [gt_iff_lt, BitVec.lt_def, hturn] at hgt
    exact ⟨he.le, htime, fun _ => Nat.le_of_lt hgt, fun h => absurd h (Nat.succ_ne_zero w)⟩
  · rename_i hle
    rw [gt_iff_lt, BitVec.lt_def, hturn] at hle
    rw [hturn]
    exact ⟨he.le, by omega, fun _ => Nat.le_refl _, fun h => absurd h (Nat.succ_ne_zero w)⟩

/-- The induction is on the wheels that are left. A wheel that does not come round ends the loop,
    and then no hand above it has moved. -/
theorem takeWheels_taken {tnew elapsed : BitVec 64} {n : Nat} (m w : Nat) (hm : w + m = 4)
    (h : Linked T todo) (he : Elapsed T.curtime.toNat n w elapsed.toNat)
    (hnew : tnew.toNat = n % 2 ^ 64) :
    Taken T todo (takeWheels tnew m w elapsed (T, todo)).1
        (takeWheels tnew m w elapsed (T, todo)).2 ∧
      Swept (takeWheels tnew m w elapsed (T, todo)).1 T.curtime.toNat n w := by
  induction m generalizing w T todo elapsed with
  | zero => exact ⟨Taken.refl h, fun v hle hlt => by omega⟩
  | succ m ih =>
    have hw : w < 4 := by omega
    have hbits : ∀ k, T.curtime.toNat / 64 ^ w ≤ k → k ≤ n / 64 ^ w →
        (expiring T.curtime tnew elapsed w).getLsbD (k % 64) = true :=
      fun k hlow hhigh => getLsbD_expiring hw he hnew hlow hhigh
    rw [takeWheels]
    simp only [wheelLen_eq]
    obtain ⟨htaken, hgone⟩ := takeSlots_taken (expiring T.curtime tnew elapsed w) w
      64 h fun s hs => by omega
    obtain ⟨S, hS⟩ : ∃ S, S = takeSlots (expiring T.curtime tnew elapsed w) w 64 (T, todo) :=
      ⟨_, rfl⟩
    rw [← hS] at htaken hgone ⊢
    have hhere : ∀ k, T.curtime.toNat / 64 ^ w ≤ k → k ≤ n / 64 ^ w →
        S.1.wheel (w * 64 + k % 64) = [] :=
      fun k hlow hhigh => hgone _ (Nat.mod_lt _ (by decide)) (hbits k hlow hhigh)
    split
    · rename_i hstop
      refine ⟨htaken, fun v hle hlt => ?_⟩
      rcases Nat.eq_or_lt_of_le hle with rfl | hlt'
      · exact Or.inr hhere
      · -- had the next hand moved, this one would have passed slot zero
        refine Or.inl (hand_eq_of_le ?_ hlt')
        by_contra hne
        have hmono : T.curtime.toNat / 64 ^ (w + 1) ≤ n / 64 ^ (w + 1) :=
          Nat.div_le_div_right he.le
        obtain ⟨k, hlow, hhigh, hk⟩ := exists_carry (Nat.lt_of_le_of_ne hmono hne)
        have hbit := hbits k hlow hhigh
        rw [hk, (getLsbD_one_and _).mp hstop] at hbit
        exact absurd hbit (by decide)
    · have he' := elapsed_next hw he
      rw [← htaken.curtime] at he'
      obtain ⟨hrest, hswept⟩ := ih (w + 1) (by omega) htaken.linked he'
      refine ⟨htaken.trans hrest, fun v hle hlt => ?_⟩
      rcases Nat.eq_or_lt_of_le hle with rfl | hlt'
      · exact Or.inr fun k hlow hhigh => hrest.nil (hhere k hlow hhigh)
      · rw [← htaken.curtime]
        exact hswept v hlt' hlt

/-! ## Putting them in again

Each of them is taken out of `todo`, set to point nowhere and scheduled, and the invariant is the
one of the whole structure when `todo` is empty. -/

/-- All that is in `todo` is scheduled at its own time, and nothing is left in between. -/
theorem schedTodo_ok (h : Linked T todo) (hplaced : Placed T) :
    Ok (schedTodo todo T) ∧ (schedTodo todo T).curtime = T.curtime ∧
      ∀ a, (schedTodo todo T).mem a =
        if a ∈ todo then (T.mem a).sched T.curtime (T.mem a).expires else T.mem a := by
  induction todo generalizing T with
  | nil => exact ⟨⟨h, hplaced⟩, rfl, fun a => rfl⟩
  | cons b todo ih =>
    rw [schedTodo]
    have hout := h.edit (f := ({ · with pending := none }))
    have hplaced' := hplaced.edit h ({ · with pending := none })
    have hdel : timeoutsDel (T.edit b ({ · with pending := none })) b =
        T.edit b ({ · with pending := none }) := by
      rw [timeoutsDel.eq_def, edit_mem, Function.update_self]
    have hput := put_ok hout hplaced' (T.mem b).expires
    obtain ⟨hok, hcur, hmem⟩ := ih hput.1 hput.2
    simp only [timeoutsSched_eq, hdel]
    -- The edit has left the time alone.
    have hself : ((T.edit b ({ · with pending := none })).mem b).expires = (T.mem b).expires := by
      rw [edit_mem, Function.update_self]
    rw [hself]
    refine ⟨hok, ?_, fun a => ?_⟩
    · rw [hcur, put_curtime, edit_curtime, edit_curtime]
    · rw [hmem a, put_curtime, edit_curtime, edit_curtime, put_mem, edit_mem, edit_mem,
        Function.update_idem, Function.update_idem, Function.update_self, Function.update_self]
      have hnot := (List.nodup_cons.mp h.todo_nodup).1
      by_cases hab : a = b
      · subst hab
        rw [if_neg hnot, if_pos List.mem_cons_self, Function.update_self]
        rfl
      · rw [Function.update_of_ne hab]
        by_cases hin : a ∈ todo
        · rw [if_pos hin, if_pos (List.mem_cons_of_mem b hin)]
          rfl
        · rw [if_neg hin, if_neg (List.not_mem_cons_of_ne_of_not_mem hab hin)]

/-! ## The whole update

`Timeout.waiting` and `Timeout.ready` are what the pointer of a timeout says of it, and all that the
modules above need to know of the lists. -/

/-- A timeout is on a wheel. -/
def Timeout.waiting (t : Timeout) : Bool :=
  match t.pending with
  | some (.slot _) => true
  | _ => false

/-- A timeout is in the queue. -/
def Timeout.ready (t : Timeout) : Bool := t.pending = some .expired

/-- What is left on a wheel hangs rightly at the new time too: the slots that the hand has passed
    are empty. -/
theorem Swept.hangs {tnew : BitVec 64} {n w s : Nat} {x : BitVec 64} {told : BitVec 64} {a : Addr}
    (h : Swept T told.toNat n 0) (hle : told.toNat ≤ n) (hat : HangsAt told w s x)
    (ha : a ∈ T.wheel (w * 64 + s)) (hnew : tnew.toNat = n % 2 ^ 64) : HangsAt tnew w s x := by
  have hstay : Hangs 64 3 w n x.toNat := by
    refine hat.hangs.stays hle ?_
    rcases h w (Nat.zero_le w) hat.wheel with heq | hgone
    · exact Or.inl heq
    · refine Or.inr fun k hlow hhigh hk => ?_
      rw [← hat.slot] at hk
      rw [← hk, hgone k hlow hhigh] at ha
      exact List.not_mem_nil ha
  -- no timeout expires behind the end of the clock
  have hlt : n < 2 ^ 64 := Nat.lt_trans hstay.lt x.isLt
  rw [Nat.mod_eq_of_lt hlt] at hnew
  exact ⟨hat.wheel, hat.slot, hnew ▸ hstay⟩

/-- **What an update does.** The wheels are in order again, at the new time. The timeouts of some
    list `todo` have been scheduled anew, which all waited; the others have not been touched, and
    those of them that wait are not due yet. -/
theorem timeoutsUpdate_spec (h : Ok T) (tnew : BitVec 64) :
    Ok (timeoutsUpdate T tnew) ∧ (timeoutsUpdate T tnew).curtime = tnew ∧
      ∃ todo : List Addr, (∀ a ∈ todo, (T.mem a).waiting = true) ∧
        (∀ a ∉ todo, (T.mem a).waiting = true → tnew < (T.mem a).expires) ∧
        ∀ a, (timeoutsUpdate T tnew).mem a =
          if a ∈ todo then (T.mem a).sched tnew (T.mem a).expires else T.mem a := by
  -- The new time without the wrap.
  obtain ⟨n, hn⟩ : ∃ n, n = T.curtime.toNat + (tnew - T.curtime).toNat := ⟨_, rfl⟩
  have hnew : tnew.toNat = n % 2 ^ 64 := by
    have hold := T.curtime.isLt
    have hlt := tnew.isLt
    rw [hn, BitVec.toNat_sub]
    omega
  have he : Elapsed T.curtime.toNat n 0 (tnew - T.curtime).toNat :=
    ⟨by omega, by omega, fun hc => absurd rfl hc, fun _ => by omega⟩
  obtain ⟨htaken, hswept⟩ := takeWheels_taken 4 0 rfl h.linked he hnew
  rw [timeoutsUpdate]
  simp only [wheelNum_eq]
  generalize takeWheels tnew 4 0 (tnew - T.curtime) (T, []) = S at htaken hswept
  obtain ⟨T', todo⟩ := S
  have hlinked : Linked { T' with curtime := tnew } todo := { htaken.linked with }
  -- Whatever is left on a wheel hangs there rightly at the new time.
  have hat : ∀ w s a, s < 64 → a ∈ T'.wheel (w * 64 + s) →
      HangsAt tnew w s (T.mem a).expires := by
    intro w s a hs ha
    exact hswept.hangs he.le (h.placed w s a hs (htaken.mem_wheel ha)) ha hnew
  have hplaced : Placed { T' with curtime := tnew } := by
    intro w s a hs ha
    show HangsAt tnew w s (T'.mem a).expires
    rw [htaken.mem]
    exact hat w s a hs ha
  obtain ⟨hok, hcur, hmem⟩ := schedTodo_ok hlinked hplaced
  refine ⟨hok, hcur, todo, fun a ha => ?_, fun a ha hwait => ?_, fun a => ?_⟩
  · rcases htaken.todo_sub a ha with hnil | ⟨i, hi⟩
    · exact absurd hnil List.not_mem_nil
    · rw [Timeout.waiting, (h.linked.slot_iff a List.not_mem_nil i).mpr hi]
  · rw [Timeout.waiting] at hwait
    split at hwait
    · rename_i i hslot
      rw [← htaken.mem] at hslot
      have hi := (htaken.linked.slot_iff a ha i).mp hslot
      have hlt : i % 64 < 64 := Nat.mod_lt _ (by decide)
      rw [← (index_eq_iff hlt).mpr ⟨rfl, rfl⟩] at hi
      exact (hat _ _ a hlt hi).lt
    · exact absurd hwait (by decide)
  · rw [hmem a]
    show (if a ∈ todo then (T'.mem a).sched tnew (T'.mem a).expires else T'.mem a) = _
    rw [htaken.mem]

end Timer
end Inac
