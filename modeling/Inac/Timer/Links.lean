import Mathlib.Data.List.Nodup
import Inac.Timer.Mask

/-!
# The lists of the wheels and the timeouts in them

`Linked` says that the lists and the `pending` pointers of the timeouts agree, that no timeout is
in two lists or twice in one, and that the bit of a slot is set exactly when its list is not empty.
While an update runs some timeouts are in none of the lists: they are in `todo`, and nothing is
said about what they point to.

`todo` is what makes the lemmas fit together. An operation of the code takes a timeout out of one
list and puts it into another, and in between the structure is broken for this timeout alone; with
the timeout counted to `todo` the invariant holds there too. So `timeouts_del` leads from `Linked T
todo` to `Linked T' (a :: todo)` (`Removed.linked`), an edit of a timeout in `todo` is free
(`Linked.edit`), and putting it somewhere leads back (`Linked.put` in the next module).

What an operation leaves is said field by field (`Removed`), and the invariant is derived from that,
so that the operation is unfolded once.
-/

namespace Inac
namespace Timer

open Lib

structure Linked (T : Timeouts) (todo : List Addr) : Prop where
  slot_iff : ∀ a, a ∉ todo → ∀ i, (T.mem a).pending = some (.slot i) ↔ a ∈ T.wheel i
  expired_iff : ∀ a, a ∉ todo → ((T.mem a).pending = some .expired ↔ a ∈ T.expired)
  todo_wheel : ∀ a ∈ todo, ∀ i, a ∉ T.wheel i
  todo_expired : ∀ a ∈ todo, a ∉ T.expired
  wheel_nodup : ∀ i, (T.wheel i).Nodup
  expired_nodup : T.expired.Nodup
  todo_nodup : todo.Nodup
  bit_iff : ∀ w s, s < 64 → ((T.pending w).getLsbD s = true ↔ T.wheel (w * 64 + s) ≠ [])
  member_iff : ∀ a, a ∉ todo → ((T.mem a).timeouts = true ↔ (T.mem a).pending ≠ none)

variable {T T' : Timeouts} {todo : List Addr} {a : Addr}

/-! ## What an edit changes

The simp set of the module: an edit of a timeout leaves the lists, the bits and the clock alone, and
a bit that is set or cleared leaves all the rest alone. -/

section Fields
variable (T) (a) (f : Timeout → Timeout) (p : Place) (w s : Nat)

@[simp] theorem edit_wheel : (T.edit a f).wheel = T.wheel := rfl
@[simp] theorem edit_expired : (T.edit a f).expired = T.expired := rfl
@[simp] theorem edit_pending : (T.edit a f).pending = T.pending := rfl
@[simp] theorem edit_curtime : (T.edit a f).curtime = T.curtime := rfl
@[simp] theorem edit_hertz : (T.edit a f).hertz = T.hertz := rfl
@[simp] theorem edit_mem : (T.edit a f).mem = Function.update T.mem a (f (T.mem a)) := rfl
theorem clearBit_pending : (T.clearBit w s).pending =
    Function.update T.pending w (T.pending w &&& ~~~(1#64 <<< s)) := rfl
theorem setBit_pending : (T.setBit w s).pending =
    Function.update T.pending w (T.pending w ||| (1#64 <<< s)) := rfl
@[simp] theorem clearBit_mem : (T.clearBit w s).mem = T.mem := rfl
@[simp] theorem clearBit_wheel : (T.clearBit w s).wheel = T.wheel := rfl
@[simp] theorem clearBit_expired : (T.clearBit w s).expired = T.expired := rfl
@[simp] theorem clearBit_curtime : (T.clearBit w s).curtime = T.curtime := rfl
@[simp] theorem clearBit_hertz : (T.clearBit w s).hertz = T.hertz := rfl
@[simp] theorem setBit_mem : (T.setBit w s).mem = T.mem := rfl
@[simp] theorem setBit_wheel : (T.setBit w s).wheel = T.wheel := rfl
@[simp] theorem setBit_expired : (T.setBit w s).expired = T.expired := rfl
@[simp] theorem setBit_curtime : (T.setBit w s).curtime = T.curtime := rfl
@[simp] theorem setBit_hertz : (T.setBit w s).hertz = T.hertz := rfl

end Fields

theorem getLsbD_clearBit {s : Nat} (hs : s < 64) (w v : Nat) {r : Nat} (hr : r < 64) :
    ((T.clearBit w s).pending v).getLsbD r =
      if v = w ∧ r = s then false else (T.pending v).getLsbD r := by
  rw [clearBit_pending, Function.update_apply]
  by_cases hv : v = w
  · subst hv
    rw [if_pos rfl, BitVec.getLsbD_and, BitVec.getLsbD_not, getLsbD_one_shift hs]
    by_cases hrs : r = s
    · simp [hrs]
    · simp [hrs, hr]
  · rw [if_neg hv, if_neg fun h => hv h.1]

theorem getLsbD_setBit {s : Nat} (hs : s < 64) (w v r : Nat) :
    ((T.setBit w s).pending v).getLsbD r =
      if v = w ∧ r = s then true else (T.pending v).getLsbD r := by
  rw [setBit_pending, Function.update_apply]
  by_cases hv : v = w
  · subst hv
    rw [if_pos rfl, BitVec.getLsbD_or, getLsbD_one_shift hs]
    by_cases hrs : r = s
    · simp [hrs]
    · simp [hrs]
  · rw [if_neg hv, if_neg fun h => hv h.1]

/-- The list of a wheel and a slot. -/
theorem index_eq_iff {w s i : Nat} (hs : s < 64) : w * 64 + s = i ↔ w = i / 64 ∧ s = i % 64 := by
  constructor
  · intro h
    omega
  · rintro ⟨rfl, rfl⟩
    omega

/-! ## Timeouts on their own -/

/-- A timeout in `todo` may be edited at will. -/
theorem Linked.edit (h : Linked T (a :: todo)) (f : Timeout → Timeout) :
    Linked (T.edit a f) (a :: todo) := by
  have hother : ∀ b, b ∉ a :: todo → (T.edit a f).mem b = T.mem b := by
    intro b hb
    rw [edit_mem, Function.update_of_ne (List.ne_of_not_mem_cons hb)]
  refine { h with slot_iff := ?_, expired_iff := ?_, member_iff := ?_ }
  · intro b hb i
    rw [hother b hb]
    exact h.slot_iff b hb i
  · intro b hb
    rw [hother b hb]
    exact h.expired_iff b hb
  · intro b hb
    rw [hother b hb]
    exact h.member_iff b hb

/-- The fields that `Linked` does not mention may be edited in any timeout. -/
theorem Linked.edit_values (h : Linked T todo) {f : Timeout → Timeout}
    (hpending : ∀ t, (f t).pending = t.pending) (hmember : ∀ t, (f t).timeouts = t.timeouts) :
    Linked (T.edit a f) todo := by
  have hsame : ∀ b, ((T.edit a f).mem b).pending = (T.mem b).pending ∧
      ((T.edit a f).mem b).timeouts = (T.mem b).timeouts := by
    intro b
    rw [edit_mem, Function.update_apply]
    split
    · rename_i heq
      rw [heq]
      exact ⟨hpending _, hmember _⟩
    · exact ⟨rfl, rfl⟩
  refine { h with slot_iff := ?_, expired_iff := ?_, member_iff := ?_ }
  · intro b hb i
    rw [(hsame b).1]
    exact h.slot_iff b hb i
  · intro b hb
    rw [(hsame b).1]
    exact h.expired_iff b hb
  · intro b hb
    rw [(hsame b).1, (hsame b).2]
    exact h.member_iff b hb

/-- A timeout that is in no list may be counted to `todo`. -/
theorem Linked.pull (h : Linked T todo) (ha : a ∉ todo) (hwheel : ∀ i, a ∉ T.wheel i)
    (hexpired : a ∉ T.expired) : Linked T (a :: todo) where
  slot_iff b hb i := h.slot_iff b (fun hm => hb (List.mem_cons_of_mem a hm)) i
  expired_iff b hb := h.expired_iff b fun hm => hb (List.mem_cons_of_mem a hm)
  todo_wheel := List.forall_mem_cons.mpr ⟨hwheel, h.todo_wheel⟩
  todo_expired := List.forall_mem_cons.mpr ⟨hexpired, h.todo_expired⟩
  wheel_nodup := h.wheel_nodup
  expired_nodup := h.expired_nodup
  todo_nodup := List.nodup_cons.mpr ⟨ha, h.todo_nodup⟩
  bit_iff := h.bit_iff
  member_iff b hb := h.member_iff b fun hm => hb (List.mem_cons_of_mem a hm)

/-! ## `timeouts_del` -/

/-- A timeout is in the list its pointer says, and in no other. -/
theorem Linked.wheel_erase_of_ne (h : Linked T todo) (ha : a ∉ todo) {i : Nat}
    (hne : (T.mem a).pending ≠ some (.slot i)) : (T.wheel i).erase a = T.wheel i :=
  List.erase_of_not_mem fun hm => hne ((h.slot_iff a ha i).mpr hm)

theorem Linked.expired_erase_of_ne (h : Linked T todo) (ha : a ∉ todo)
    (hne : (T.mem a).pending ≠ some .expired) : T.expired.erase a = T.expired :=
  List.erase_of_not_mem fun hm => hne ((h.expired_iff a ha).mpr hm)

/-- What `timeouts_del` leaves. -/
structure Removed (T T' : Timeouts) (a : Addr) : Prop where
  wheel : ∀ i, T'.wheel i = (T.wheel i).erase a
  expired : T'.expired = T.expired.erase a
  curtime : T'.curtime = T.curtime
  hertz : T'.hertz = T.hertz
  mem : T'.mem = Function.update T.mem a { T.mem a with pending := none, timeouts := false }
  bit_iff : ∀ w s, s < 64 → ((T'.pending w).getLsbD s = true ↔ T'.wheel (w * 64 + s) ≠ [])

theorem Linked.del (h : Linked T todo) (ha : a ∉ todo) :
    Removed T (timeoutsDel T a) a := by
  have hwheel : ∀ i, (T.mem a).pending ≠ some (.slot i) → T.wheel i = (T.wheel i).erase a :=
    fun i hne => (h.wheel_erase_of_ne ha hne).symm
  have hexpired : (T.mem a).pending ≠ some .expired → T.expired = T.expired.erase a :=
    fun hne => (h.expired_erase_of_ne ha hne).symm
  rw [timeoutsDel.eq_def]
  split
  · rename_i hnone
    -- It was in no list, and what is written to it is what is there.
    have hmem : { T.mem a with pending := none, timeouts := false } = T.mem a := by
      have hflag : (T.mem a).timeouts = false := by
        have hiff := h.member_iff a ha
        rw [hnone] at hiff
        simpa using hiff
      rw [← hnone, ← hflag]
    exact
      { wheel := fun i => hwheel i (by rw [hnone]; exact nofun)
        expired := hexpired (by rw [hnone]; exact nofun)
        curtime := rfl
        hertz := rfl
        mem := by rw [hmem, Function.update_eq_self]
        bit_iff := h.bit_iff }
  · -- It was in the queue, which has no bit.
    rename_i hexp
    exact
      { wheel := fun i => hwheel i (by rw [hexp]; simp)
        expired := rfl
        curtime := rfl
        hertz := rfl
        mem := rfl
        bit_iff := h.bit_iff }
  · rename_i index hslot
    have hfinal : ∀ i, Function.update T.wheel index ((T.wheel index).erase a) i =
        (T.wheel i).erase a := by
      intro i
      rw [Function.update_apply]
      split
      · rename_i heq
        rw [heq]
      · rename_i hne
        exact hwheel i (by rw [hslot]; simpa using Ne.symm hne)
    have hlt : index % 64 < 64 := Nat.mod_lt _ (by decide)
    have hindex : index / 64 * 64 + index % 64 = index := (index_eq_iff hlt).mpr ⟨rfl, rfl⟩
    simp only [wheelLen_eq]
    split
    · -- The list is empty now, and its bit is cleared.
      rename_i hempty
      have hgone : (T.wheel index).erase a = [] := by
        simpa [Timeouts.remove] using hempty
      refine ⟨hfinal, hexpired (by rw [hslot]; simp), rfl, rfl, rfl, fun w s hs => ?_⟩
      rw [edit_pending, getLsbD_clearBit hlt _ _ hs, edit_wheel, clearBit_wheel]
      show _ ↔ Function.update T.wheel index ((T.wheel index).erase a) (w * 64 + s) ≠ []
      by_cases hat : w = index / 64 ∧ s = index % 64
      · rw [if_pos hat, hat.1, hat.2, hindex, Function.update_self, hgone]
        simp
      · rw [if_neg hat, Function.update_of_ne fun heq => hat ((index_eq_iff hs).mp heq)]
        exact h.bit_iff w s hs
    · -- Others are left in the list, and its bit stays.
      rename_i hleft
      have hkept : (T.wheel index).erase a ≠ [] := by
        simpa [Timeouts.remove] using hleft
      refine ⟨hfinal, hexpired (by rw [hslot]; simp), rfl, rfl, rfl, fun w s hs => ?_⟩
      rw [edit_pending, edit_wheel]
      show (T.pending w).getLsbD s = true ↔
        Function.update T.wheel index ((T.wheel index).erase a) (w * 64 + s) ≠ []
      by_cases hat : w * 64 + s = index
      · have hmem : a ∈ T.wheel index := (h.slot_iff a ha index).mp hslot
        rw [h.bit_iff w s hs, hat, Function.update_self]
        exact iff_of_true (List.ne_nil_of_mem hmem) hkept
      · rw [Function.update_of_ne hat]
        exact h.bit_iff w s hs

theorem Removed.linked (hr : Removed T T' a) (h : Linked T todo) (ha : a ∉ todo) :
    Linked T' (a :: todo) := by
  have hother : ∀ b, b ∉ a :: todo → T'.mem b = T.mem b := by
    intro b hb
    rw [hr.mem, Function.update_of_ne (List.ne_of_not_mem_cons hb)]
  have hmem : ∀ b, b ∉ a :: todo → ∀ l : List Addr, b ∈ l.erase a ↔ b ∈ l := by
    intro b hb l
    exact List.mem_erase_of_ne (List.ne_of_not_mem_cons hb)
  have hrest : ∀ b, b ∉ a :: todo → b ∉ todo := fun b hb hm => hb (List.mem_cons_of_mem a hm)
  constructor
  · intro b hb i
    rw [hother b hb, hr.wheel, hmem b hb]
    exact h.slot_iff b (hrest b hb) i
  · intro b hb
    rw [hother b hb, hr.expired, hmem b hb]
    exact h.expired_iff b (hrest b hb)
  · -- No list holds the timeout any more, since each held it at most once.
    refine List.forall_mem_cons.mpr ⟨fun i => ?_, fun b hb i hm => ?_⟩
    · rw [hr.wheel]
      exact (h.wheel_nodup i).not_mem_erase
    · rw [hr.wheel] at hm
      exact h.todo_wheel b hb i (List.mem_of_mem_erase hm)
  · refine List.forall_mem_cons.mpr ⟨?_, fun b hb hm => ?_⟩
    · rw [hr.expired]
      exact h.expired_nodup.not_mem_erase
    · rw [hr.expired] at hm
      exact h.todo_expired b hb (List.mem_of_mem_erase hm)
  · intro i
    rw [hr.wheel]
    exact (h.wheel_nodup i).erase a
  · rw [hr.expired]
    exact h.expired_nodup.erase a
  · exact List.nodup_cons.mpr ⟨ha, h.todo_nodup⟩
  · exact hr.bit_iff
  · intro b hb
    rw [hother b hb]
    exact h.member_iff b (hrest b hb)

/-- A timeout that points nowhere and is no member is out. -/
theorem Linked.release (h : Linked T (a :: todo)) (hpending : (T.mem a).pending = none)
    (hmember : (T.mem a).timeouts = false) : Linked T todo := by
  -- A timeout that is not in `todo` is the one let go or was out of `todo` before.
  have hsplit : ∀ b, b ∉ todo → b = a ∨ b ∉ a :: todo := by
    intro b hb
    by_cases hba : b = a
    · exact Or.inl hba
    · exact Or.inr (List.not_mem_cons_of_ne_of_not_mem hba hb)
  refine
    { slot_iff := ?_
      expired_iff := ?_
      todo_wheel := fun b hb => h.todo_wheel b (List.mem_cons_of_mem a hb)
      todo_expired := fun b hb => h.todo_expired b (List.mem_cons_of_mem a hb)
      wheel_nodup := h.wheel_nodup
      expired_nodup := h.expired_nodup
      todo_nodup := h.todo_nodup.of_cons
      bit_iff := h.bit_iff
      member_iff := ?_ }
  · intro b hb i
    rcases hsplit b hb with rfl | hb
    · rw [hpending]
      exact iff_of_false nofun (h.todo_wheel b List.mem_cons_self i)
    · exact h.slot_iff b hb i
  · intro b hb
    rcases hsplit b hb with rfl | hb
    · rw [hpending]
      exact iff_of_false nofun (h.todo_expired b List.mem_cons_self)
    · exact h.expired_iff b hb
  · intro b hb
    rcases hsplit b hb with rfl | hb
    · rw [hpending, hmember]
      simp
    · exact h.member_iff b hb

end Timer
end Inac
