import Mathlib.Data.List.Basic
import Inac.Lib.Run
import Inac.Ullc.Defs

/-!
# `ina_ullc_consumer_set_pos`

A consumer may be sent to another position. The position is signed: -1, and everything from
`next_ptr` on, stands for the next position there will be; what is below that is stored as it is
given. From then on `ina_ullc_consumer_get` takes the slot from the cursor by C's `%`, which gives a
negative index for a negative cursor.

The function is three accesses more in the step system of `Inac.Ullc.Defs`: its own cursor,
`next_ptr` once or twice, and the swap. While a consumer is in it, it is in no other call.
-/

namespace Inac
namespace Ullc

open Lib

variable {δ : Type}

/-! ## The code

The swap is the last access. It may fail only if the record was written to in between, and nobody
but its owner does that. -/

/-- A consumer in `ina_ullc_consumer_set_pos`; `cursor` is what it read from its record. -/
inductive SetPc where
  | test (cursor pos : Int)  -- before `pos == -1 || pos > ring->next_ptr`
  | load (cursor : Int)  -- before `pos = ring->next_ptr`
  | swap (cursor pos : Int)  -- before the swap of its own `cursor`
  deriving DecidableEq, Repr

/-- The ring, and for each consumer where it is in `set_pos`. -/
structure PosSys (δ : Type) where
  sys : Sys δ
  setting : Nat → Option SetPc

/-- Who moves: somebody in a call that is not `set_pos`, a consumer that calls `set_pos`, or one
    that is in it. -/
inductive PosAct (δ : Type) where
  | sys (a : Act δ)
  | call (t : Nat) (pos : Int)
  | set (t : Nat)
  deriving DecidableEq, Repr

inductive PosOut where
  | sys (o : Out)
  | posSet  -- `INA_SUCCESS`
  | failed  -- `INA_ERR_OPERATION_FAILED`
  deriving DecidableEq, Repr

def PosSys.at (s : PosSys δ) (t : Nat) (pc : Option SetPc) : PosSys δ :=
  { s with setting := Function.update s.setting t pc }

/-- Consumer `t`'s next access in `set_pos`. -/
def stepSet (s : PosSys δ) (t : Nat) : PosOut × PosSys δ :=
  match (s.sys.thread t).pc, s.setting t with
  | .ready _, some (.test cursor pos) =>
    if pos = -1 ∨ pos > s.sys.ring.nextPtr then (.sys .none, s.at t (some (.load cursor)))
    else (.sys .none, s.at t (some (.swap cursor pos)))
  | .ready _, some (.load cursor) =>
    (.sys .none, s.at t (some (.swap cursor s.sys.ring.nextPtr)))
  | .ready id, some (.swap cursor pos) =>
    let found := atomicSwap (s.sys.cons id).cursor cursor pos
    (if found.1 = cursor then .posSet else .failed,
      { s.at t none with sys := s.sys.store id { s.sys.cons id with cursor := found.2 } })
  | _, _ => (.sys .none, s)

/-- One step. A consumer calls `set_pos` between calls, and makes no other call in it. -/
def stepPos (s : PosSys δ) : PosAct δ → PosOut × PosSys δ
  | .sys (.cons t) =>
    if (s.setting t).isSome then (.sys .none, s)
    else (.sys (stepCons s.sys t).1, { s with sys := (stepCons s.sys t).2 })
  | .sys a => (.sys (step s.sys a).1, { s with sys := (step s.sys a).2 })
  | .call t pos =>
    match (s.sys.thread t).pc, s.setting t with
    | .ready id, none => (.sys .none, s.at t (some (.test (s.sys.cons id).cursor pos)))
    | _, _ => (.sys .none, s)
  | .set t => stepSet s t

/-! ## What is asked of it

The states before the call are those in which the consumer owns its record. What the producer and
the others do is left open. -/

/-- A ring in which consumer `t` is between calls and owns its record alone. The counters and the
    records may be anything else. -/
structure Idle (s : PosSys δ) (t id : Nat) : Prop where
  slots : 0 < s.sys.ring.slots
  next : 0 ≤ s.sys.ring.nextPtr
  pc : (s.sys.thread t).pc = .ready id
  setting : s.setting t = none
  alive : (s.sys.cons id).alive = true
  alone : ∀ u, u ≠ t → (s.sys.thread u).pc.owns ≠ some id

/-- Of one step: where `set_pos` succeeds the cursor is up to `next_ptr`, and an item that consumer
    `t` gets is in one of the slots. -/
def InRange (t id : Nat) (s : PosSys δ) (a : PosAct δ) : Prop :=
  (a = .set t → (stepPos s a).1 = .posSet →
    0 ≤ ((stepPos s a).2.sys.cons id).cursor ∧
      ((stepPos s a).2.sys.cons id).cursor ≤ (stepPos s a).2.sys.ring.nextPtr) ∧
  ∀ idx, a = .sys (.cons t) → (stepPos s a).1 = .sys (.item idx) → 0 ≤ idx ∧ idx < s.sys.ring.slots

/-- Whatever happens after the call, until the consumer calls `set_pos` again. -/
def SetPosSafe (s : PosSys δ) (t id : Nat) (pos : Int) : Prop :=
  ∀ acts : List (PosAct δ), (∀ p, .call t p ∉ acts) →
    Along stepPos (InRange t id) (stepPos s (.call t pos)).2 acts

/-! ## What others change

`Spares` is what every other step does to the record of a consumer: nothing. -/

/-- The producer moves `next_ptr` forward, and touches no consumer. -/
theorem stepProd_frame (s : Sys δ) :
    (stepProd s).2.ring.slots = s.ring.slots ∧ s.ring.nextPtr ≤ (stepProd s).2.ring.nextPtr ∧
      (stepProd s).2.cons = s.cons ∧ (stepProd s).2.thread = s.thread := by
  unfold stepProd
  cases s.prod with
  | idle => exact ⟨rfl, Int.le_refl _, rfl, rfl⟩
  | position slow => exact ⟨rfl, Int.le_refl _, rfl, rfl⟩
  | loop slow like =>
    dsimp only
    split <;> exact ⟨rfl, Int.le_refl _, rfl, rfl⟩
  | alive i slow like =>
    dsimp only
    split
    · split <;> exact ⟨rfl, Int.le_refl _, rfl, rfl⟩
    · exact ⟨rfl, Int.le_refl _, rfl, rfl⟩
  | cursor i slow like => exact ⟨rfl, Int.le_refl _, rfl, rfl⟩
  | claimed like => exact ⟨rfl, Int.le_add_one (Int.le_refl _), rfl, rfl⟩
  | commit like => exact ⟨rfl, Int.le_refl _, rfl, rfl⟩

/-- What a step leaves alone that is about another consumer's record. -/
def Spares (u id : Nat) (s s' : Sys δ) : Prop :=
  s'.ring = s.ring ∧ s'.cons id = s.cons id ∧ (∀ t, t ≠ u → s'.thread t = s.thread t) ∧
    (s'.thread u).pc.owns ≠ some id

theorem Spares.of_eq {s : Sys δ} {u id : Nat} {cons' : Nat → Cursor} {th' : Consumer}
    (hcons : cons' id = s.cons id) (howns : th'.pc.owns ≠ some id) :
    Spares u id s { s with cons := cons', thread := Function.update s.thread u th' } := by
  refine ⟨rfl, hcons, fun t ht => Function.update_of_ne ht .., ?_⟩
  dsimp only
  rw [Function.update_self]
  exact howns

theorem Spares.goto {s : Sys δ} {u id : Nat} {pc : ConsPc} (howns : pc.owns ≠ some id) :
    Spares u id s (s.goto u pc) := .of_eq rfl howns

theorem Spares.store {s : Sys δ} {u id id' : Nat} {c : Cursor} {th' : Consumer} (hne : id ≠ id')
    (howns : th'.pc.owns ≠ some id) :
    Spares u id s { s.store id' c with thread := Function.update s.thread u th' } :=
  .of_eq (Function.update_of_ne hne ..) howns

/-- **Another consumer** leaves alone a record that is alive and not its own, and does not get
    it. -/
theorem stepCons_spares {s : Sys δ} {u id : Nat} (halive : (s.cons id).alive = true)
    (howns : (s.thread u).pc.owns ≠ some id) : Spares u id s (stepCons s u).2 := by
  unfold stepCons
  -- Another consumer has another record.
  have hown : ∀ id', (s.thread u).pc.owns = some id' → id ≠ id' := by
    intro id' hid' heq
    rw [← heq] at hid'
    exact howns hid'
  have hsome : ∀ {id' : Nat}, id ≠ id' → some id' ≠ some id := fun hne heq =>
    hne (Option.some.inj heq).symm
  cases hpc : (s.thread u).pc with
  | scan id' =>
    dsimp only
    split
    · split
      · exact .goto (Option.some_ne_none id).symm
      · rename_i hdead
        -- It only takes a record that is not alive.
        have hne : id ≠ id' := fun heq => hdead (heq ▸ halive)
        exact .store hne (hsome hne)
    · exact .goto (Option.some_ne_none id).symm
  | exceeded =>
    refine ⟨rfl, rfl, fun _ _ => rfl, ?_⟩
    rw [hpc]
    exact (Option.some_ne_none id).symm
  | load id' => exact .goto (hsome (hown id' (by rw [hpc]; rfl)))
  | swap id' v =>
    have hne := hown id' (by rw [hpc]; rfl)
    exact .store hne (hsome hne)
  | check id' =>
    have hne := hown id' (by rw [hpc]; rfl)
    dsimp only
    split
    · exact .goto (hsome hne)
    · exact .of_eq rfl (hsome hne)
  | zero id' =>
    have hne := hown id' (by rw [hpc]; rfl)
    exact .store hne (hsome hne)
  | ready id' => exact .goto (hsome (hown id' (by rw [hpc]; rfl)))
  | wait id' w =>
    have hne := hown id' (by rw [hpc]; rfl)
    dsimp only
    split
    · exact .goto (hsome hne)
    · exact .goto (hsome hne)
  | index id' => exact .goto (hsome (hown id' (by rw [hpc]; rfl)))
  | bump id' idx =>
    have hne := hown id' (by rw [hpc]; rfl)
    exact .store hne (hsome hne)

/-! ## One consumer

With a cursor that is not negative the remainder is a slot, and no step makes the cursor negative
again. -/

/-- Where a consumer can be after a call of `set_pos` with a position from -1 on: in the call with
    the cursor it read, or in calls of `get` with a cursor that is not negative. -/
inductive Within (slots nextPtr cursor : Int) (id : Nat) : ConsPc → Option SetPc → Prop
  | test {pos : Int} (hpos : -1 ≤ pos) : Within slots nextPtr cursor id (.ready id)
      (some (.test cursor pos))
  | load : Within slots nextPtr cursor id (.ready id) (some (.load cursor))
  | swap {pos : Int} (hlo : 0 ≤ pos) (hhi : pos ≤ nextPtr) :
      Within slots nextPtr cursor id (.ready id) (some (.swap cursor pos))
  | ready (hcur : 0 ≤ cursor) : Within slots nextPtr cursor id (.ready id) none
  | wait (waitFor : Int) (hcur : 0 ≤ cursor) : Within slots nextPtr cursor id (.wait id waitFor) none
  | index (hcur : 0 ≤ cursor) : Within slots nextPtr cursor id (.index id) none
  | bump {idx : Int} (hcur : 0 ≤ cursor) (hlo : 0 ≤ idx) (hhi : idx < slots) :
      Within slots nextPtr cursor id (.bump id idx) none

theorem Within.mono {slots n n' cursor : Int} {id : Nat} {pc : ConsPc} {setting : Option SetPc}
    (hw : Within slots n cursor id pc setting) (hle : n ≤ n') :
    Within slots n' cursor id pc setting := by
  cases hw with
  | test hpos => exact .test hpos
  | load => exact .load
  | swap hlo hhi => exact .swap hlo (Int.le_trans hhi hle)
  | ready hcur => exact .ready hcur
  | wait w hcur => exact .wait w hcur
  | index hcur => exact .index hcur
  | bump hcur hlo hhi => exact .bump hcur hlo hhi

/-- What holds after the call. -/
structure Sent (t id : Nat) (s : PosSys δ) : Prop where
  slots : 0 < s.sys.ring.slots
  next : 0 ≤ s.sys.ring.nextPtr
  alive : (s.sys.cons id).alive = true
  alone : ∀ u, u ≠ t → (s.sys.thread u).pc.owns ≠ some id
  within : Within s.sys.ring.slots s.sys.ring.nextPtr (s.sys.cons id).cursor id
    (s.sys.thread t).pc (s.setting t)

/-- A step that changes nothing of the consumer and its record. -/
theorem Sent.spared {s s' : PosSys δ} {t id : Nat} (hs : Sent t id s)
    (hslots : s'.sys.ring.slots = s.sys.ring.slots)
    (hnext : s.sys.ring.nextPtr ≤ s'.sys.ring.nextPtr) (hcons : s'.sys.cons id = s.sys.cons id)
    (hthread : s'.sys.thread t = s.sys.thread t) (hsetting : s'.setting t = s.setting t)
    (halone : ∀ u, u ≠ t → (s'.sys.thread u).pc.owns ≠ some id) : Sent t id s' := by
  refine ⟨?_, Int.le_trans hs.next hnext, ?_, halone, ?_⟩
  · rw [hslots]
    exact hs.slots
  · rw [hcons]
    exact hs.alive
  · rw [hslots, hcons, hthread, hsetting]
    exact hs.within.mono hnext

/-- A step of the consumer itself, which changes its record and where it is. -/
theorem Sent.moved {s s' : PosSys δ} {t id : Nat} (hs : Sent t id s)
    (hring : s'.sys.ring = s.sys.ring) (halive : (s'.sys.cons id).alive = true)
    (hthread : ∀ u, u ≠ t → s'.sys.thread u = s.sys.thread u)
    (hwithin : Within s.sys.ring.slots s.sys.ring.nextPtr (s'.sys.cons id).cursor id
      (s'.sys.thread t).pc (s'.setting t)) : Sent t id s' := by
  refine ⟨?_, ?_, halive, ?_, ?_⟩
  · rw [hring]
    exact hs.slots
  · rw [hring]
    exact hs.next
  · intro u hu
    rw [hthread u hu]
    exact hs.alone u hu
  · rw [hring]
    exact hwithin

/-- The index `get` computes from a cursor that is not negative. -/
theorem tmod_in_slots {cursor slots : Int} (hcur : 0 ≤ cursor) (hslots : 0 < slots) :
    0 ≤ cursor.tmod slots ∧ cursor.tmod slots < slots :=
  ⟨Int.tmod_nonneg slots hcur, Int.tmod_lt_of_pos cursor hslots⟩

/-- **`get`** of the consumer: the slot is in range. -/
theorem Sent.get {s : PosSys δ} {t id : Nat} (hs : Sent t id s) (hfree : s.setting t = none) :
    (∀ idx, (stepCons s.sys t).1 = .item idx → 0 ≤ idx ∧ idx < s.sys.ring.slots) ∧
      Sent t id { s with sys := (stepCons s.sys t).2 } := by
  have hwithin := hs.within
  rw [hfree] at hwithin
  -- A step that goes on leaves the record alone.
  have hmove : ∀ {pc : ConsPc}, Within s.sys.ring.slots s.sys.ring.nextPtr (s.sys.cons id).cursor id
      pc none → Sent t id { s with sys := s.sys.goto t pc } := by
    intro pc hpc
    refine hs.moved rfl hs.alive (fun u hu => Function.update_of_ne hu ..) ?_
    simp only [Sys.goto, Function.update_self, hfree]
    exact hpc
  generalize hpc : (s.sys.thread t).pc = pc at hwithin
  cases hwithin with
  | ready hcur =>
    simp only [stepCons, hpc]
    exact ⟨nofun, hmove (.wait _ hcur)⟩
  | wait w hcur =>
    simp only [stepCons, hpc]
    split
    · exact ⟨nofun, hmove (.ready hcur)⟩
    · exact ⟨nofun, hmove (.index hcur)⟩
  | index hcur =>
    -- The cursor is not negative, so C's remainder is a slot.
    have hidx := tmod_in_slots hcur hs.slots
    simp only [stepCons, hpc]
    exact ⟨nofun, hmove (.bump hcur hidx.1 hidx.2)⟩
  | @bump idx hcur hlo hhi =>
    simp only [stepCons, hpc]
    constructor
    · intro idx' heq
      obtain rfl := Out.item.inj heq
      exact ⟨hlo, hhi⟩
    · refine hs.moved rfl ?_ (fun u hu => Function.update_of_ne hu ..) ?_
      · simp only [Sys.store, Function.update_self]
        exact hs.alive
      · simp only [Sys.store, Function.update_self, hfree]
        exact .ready (Int.add_nonneg hcur Int.one_nonneg)

/-- **`set_pos`** of the consumer: its swap finds the cursor it read, and leaves one in range. -/
theorem Sent.set {s : PosSys δ} {t id : Nat} (hs : Sent t id s) :
    ((stepSet s t).1 = .posSet →
      0 ≤ ((stepSet s t).2.sys.cons id).cursor ∧
        ((stepSet s t).2.sys.cons id).cursor ≤ (stepSet s t).2.sys.ring.nextPtr) ∧
      Sent t id (stepSet s t).2 := by
  have hwithin := hs.within
  have hmove : ∀ {pc : ConsPc} {set : SetPc}, (s.sys.thread t).pc = pc →
      Within s.sys.ring.slots s.sys.ring.nextPtr (s.sys.cons id).cursor id pc (some set) →
      Sent t id (s.at t (some set)) := by
    intro pc set hpc hset
    refine hs.moved rfl hs.alive (fun _ _ => rfl) ?_
    simp only [PosSys.at, Function.update_self, hpc]
    exact hset
  generalize hpc : (s.sys.thread t).pc = pc at hwithin
  generalize hset : s.setting t = setting at hwithin
  cases hwithin with
  | @test pos hpos =>
    simp only [stepSet, hpc, hset]
    split
    · exact ⟨nofun, hmove hpc .load⟩
    · rename_i hnot
      exact ⟨nofun, hmove hpc (.swap (by omega) (by omega))⟩
  | load =>
    simp only [stepSet, hpc, hset]
    exact ⟨nofun, hmove hpc (.swap hs.next (Int.le_refl _))⟩
  | @swap pos hlo hhi =>
    simp only [stepSet, hpc, hset, atomicSwap, if_true, Sys.store, Function.update_self]
    refine ⟨fun _ => ⟨hlo, hhi⟩, ?_⟩
    refine hs.moved rfl ?_ (fun _ _ => rfl) ?_
    · simp only [Function.update_self]
      exact hs.alive
    · simp only [PosSys.at, Function.update_self, hpc]
      exact .ready hlo
  -- between calls and in `get` there is nothing to do
  | ready hcur =>
    simp only [stepSet, hpc, hset]
    exact ⟨nofun, hs⟩
  | wait w hcur =>
    simp only [stepSet, hpc]
    exact ⟨nofun, hs⟩
  | index hcur =>
    simp only [stepSet, hpc]
    exact ⟨nofun, hs⟩
  | bump hcur hlo hhi =>
    simp only [stepSet, hpc]
    exact ⟨nofun, hs⟩

/-! ## Every step

By who moves. -/

/-- **`set_pos` of another consumer** writes to its own record. -/
theorem Sent.other_set {s : PosSys δ} {t id : Nat} (hs : Sent t id s) {u : Nat} (hu : u ≠ t) :
    Sent t id (stepSet s u).2 := by
  have hsetting : ∀ pc, (s.at u pc).setting t = s.setting t := fun pc =>
    Function.update_of_ne hu.symm ..
  have hat : ∀ pc, Sent t id (s.at u pc) := fun pc =>
    hs.spared rfl (Int.le_refl _) rfl rfl (hsetting pc) hs.alone
  unfold stepSet
  split
  · split
    · exact hat _
    · exact hat _
  · exact hat _
  · rename_i id' cursor pos hpc hset
    have hne : id ≠ id' := by
      intro heq
      refine hs.alone u hu ?_
      rw [hpc, heq]
      rfl
    exact hs.spared rfl (Int.le_refl _) (Function.update_of_ne hne ..) rfl (hsetting none) hs.alone
  · exact hs

/-- Steps that are not the consumer's ask for nothing. -/
theorem inRange_of_ne {s : PosSys δ} {t id : Nat} {a : PosAct δ} (hset : a ≠ .set t)
    (hcons : a ≠ .sys (.cons t)) : InRange t id s a :=
  ⟨fun heq => absurd heq hset, fun _ heq => absurd heq hcons⟩

/-- A step of the consumer in `get`; in `set_pos` it takes none. -/
theorem Sent.cons {s : PosSys δ} {t id : Nat} (hs : Sent t id s) :
    InRange t id s (.sys (.cons t)) ∧ Sent t id (stepPos s (.sys (.cons t))).2 := by
  cases hset : s.setting t with
  | some set =>
    have hstep : stepPos s (.sys (.cons t)) = (.sys .none, s) := by simp [stepPos, hset]
    refine ⟨⟨nofun, fun idx _ heq => ?_⟩, ?_⟩
    · rw [hstep] at heq
      cases heq
    · rw [hstep]
      exact hs
  | none =>
    have hstep : stepPos s (.sys (.cons t)) =
        (.sys (stepCons s.sys t).1, { s with sys := (stepCons s.sys t).2 }) := by
      simp [stepPos, hset]
    obtain ⟨hidx, hnext⟩ := hs.get hset
    refine ⟨⟨nofun, fun idx _ heq => ?_⟩, ?_⟩
    · rw [hstep] at heq
      exact hidx idx (PosOut.sys.inj heq)
    · rw [hstep]
      exact hnext

/-- A step of another consumer in `get`. -/
theorem Sent.other_cons {s : PosSys δ} {t id : Nat} (hs : Sent t id s) {u : Nat} (hu : u ≠ t) :
    Sent t id (stepPos s (.sys (.cons u))).2 := by
  obtain ⟨hring, hcons, hthread, howns⟩ := stepCons_spares hs.alive (hs.alone u hu)
  simp only [stepPos]
  split
  · exact hs
  · refine hs.spared (by rw [hring]) (Int.le_of_eq (by rw [hring])) hcons
      (hthread t (Ne.symm hu)) rfl ?_
    intro v hv
    by_cases hvu : v = u
    · rw [hvu]
      exact howns
    · dsimp only
      rw [hthread v hvu]
      exact hs.alone v hv

theorem Sent.step {s : PosSys δ} {t id : Nat} (hs : Sent t id s) {a : PosAct δ}
    (ha : ∀ p, a ≠ .call t p) : InRange t id s a ∧ Sent t id (stepPos s a).2 := by
  -- The producer, the filling of a slot, a consumer in `get`, a call of `set_pos`, or a step in
  -- one.
  match a with
  | .sys .prod =>
    obtain ⟨hslots, hnext, hcons, hthread⟩ := stepProd_frame s.sys
    refine ⟨inRange_of_ne nofun nofun, ?_⟩
    refine hs.spared hslots hnext (congrFun hcons id) (congrFun hthread t) rfl ?_
    intro u hu
    exact (congrArg (fun th => th.pc.owns) (congrFun hthread u)).trans_ne (hs.alone u hu)
  | .sys (.fill v) =>
    refine ⟨inRange_of_ne nofun nofun, ?_⟩
    simp only [stepPos, Ullc.step]
    split <;> exact hs.spared rfl (Int.le_refl _) rfl rfl rfl hs.alone
  | .sys (.cons u) =>
    by_cases hu : u = t
    · rw [hu]
      exact hs.cons
    · exact ⟨inRange_of_ne nofun (by simp [hu]), hs.other_cons hu⟩
  | .call u p =>
    have hu : u ≠ t := fun heq => ha p (by rw [heq])
    refine ⟨inRange_of_ne nofun nofun, ?_⟩
    simp only [stepPos]
    split
    · exact hs.spared rfl (Int.le_refl _) rfl rfl (Function.update_of_ne hu.symm ..) hs.alone
    · exact hs
  | .set u =>
    by_cases hu : u = t
    · obtain rfl := hu
      exact ⟨⟨fun _ => hs.set.1, nofun⟩, hs.set.2⟩
    · exact ⟨inRange_of_ne (by simp [hu]) nofun, hs.other_set hu⟩

/-! ## After the call

From -1 on the call leads to a state from which all is well; below -1 there is a run that leads to a
bad index. -/

theorem Idle.call_eq {s : PosSys δ} {t id : Nat} (hs : Idle s t id) (pos : Int) :
    (stepPos s (.call t pos)).2 = s.at t (some (.test (s.sys.cons id).cursor pos)) := by
  simp only [stepPos, hs.pc, hs.setting]

theorem Idle.sent {s : PosSys δ} {t id : Nat} (hs : Idle s t id) {pos : Int} (hpos : -1 ≤ pos) :
    Sent t id (stepPos s (.call t pos)).2 := by
  rw [hs.call_eq]
  refine ⟨hs.slots, hs.next, hs.alive, hs.alone, ?_⟩
  simp only [PosSys.at, Function.update_self, hs.pc]
  exact .test hpos

/-- Below -1 the two steps to the swap leave a cursor that is negative. -/
theorem Idle.not_safe {s : PosSys δ} {t id : Nat} (hs : Idle s t id) {pos : Int} (hpos : pos < -1) :
    ¬ SetPosSafe s t id pos := by
  intro hsafe
  have hnext := hs.next
  have halong := hsafe [.set t, .set t] (by simp)
  have htest : (stepPos (stepPos s (.call t pos)).2 (.set t)).2 =
      s.at t (some (.swap (s.sys.cons id).cursor pos)) := by
    rw [hs.call_eq]
    simp only [stepPos, stepSet, PosSys.at, Function.update_self, Function.update_idem, hs.pc]
    rw [if_neg (by omega)]
  obtain ⟨-, ⟨hrange, -⟩, -⟩ := halong
  rw [htest] at hrange
  have hcursor := hrange rfl (by
    simp only [stepPos, stepSet, PosSys.at, Function.update_self, hs.pc, atomicSwap, if_true])
  simp only [stepPos, stepSet, PosSys.at, Function.update_self, hs.pc, atomicSwap, if_true,
    Sys.store] at hcursor
  omega

/-- **A position is safe exactly from -1 on.** For every ring with a slot and a consumer between its
    calls, every cursor it may have and every position: whatever the producer and the other
    consumers do during and after the call, it leaves a cursor between 0 and `next_ptr` and every
    item the consumer gets then is in one of the slots, if and only if the position is not below
    -1. -/
theorem set_pos_safe_iff {s : PosSys δ} {t id : Nat} (hs : Idle s t id) (pos : Int) :
    SetPosSafe s t id pos ↔ -1 ≤ pos := by
  constructor
  · intro hsafe
    by_contra hpos
    exact hs.not_safe (Int.not_le.mp hpos) hsafe
  · intro hpos acts hacts
    have hcalls : Along stepPos (fun _ a => ∀ p, a ≠ .call t p) (stepPos s (.call t pos)).2 acts :=
      along_iff_forall.mpr fun a ha p heq => hacts p (heq ▸ ha)
    exact along_of_along (I := Sent t id) (fun _ _ ha hsent => hsent.step ha) hcalls (hs.sent hpos)

/-- A ring of four slots with ten items committed, and one consumer at 3. -/
def tenItems : PosSys Nat :=
  { sys :=
      { ring := { numConsumers := 1, slots := 4, cursor := 9, nextPtr := 10, overrunEnabled := -1 }
        cons := fun _ => ⟨true, 3⟩
        data := fun _ => 0
        prod := .idle
        thread := fun t => if t = 0 then ⟨.ready 0, 3, []⟩ else ⟨.scan 0, 0, []⟩
        committed := List.replicate 10 0 }
    setting := fun _ => none }

theorem tenItems_idle : Idle tenItems 0 0 := by
  refine ⟨by decide, by decide, rfl, rfl, rfl, ?_⟩
  intro u hu
  have hscan : (tenItems.sys.thread u).pc = .scan 0 := by simp [tenItems, hu]
  rw [hscan]
  exact (Option.some_ne_none 0).symm

theorem set_pos_safe_iff_newest : SetPosSafe tenItems 0 0 (-1) :=
  (set_pos_safe_iff tenItems_idle (-1)).mpr (Int.le_refl _)

/-- At -5 of four slots `get` gives the slot -1. -/
theorem slot_before_first :
    ¬ SetPosSafe tenItems 0 0 (-5) ∧
      outs stepPos tenItems
          [.call 0 (-5), .set 0, .set 0, .sys (.cons 0), .sys (.cons 0), .sys (.cons 0),
            .sys (.cons 0)] =
        [.sys .none, .sys .none, .posSet, .sys .none, .sys .none, .sys .none, .sys (.item (-1))] := by
  refine ⟨tenItems_idle.not_safe (by decide), by decide⟩

end Ullc
end Inac
