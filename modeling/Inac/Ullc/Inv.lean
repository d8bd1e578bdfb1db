import Mathlib.Data.List.Basic
import Inac.Lib.Run
import Inac.Ullc.Defs

/-!
# The ring's invariant

Every interleaving keeps the two counters, the slots and the consumers' records in step with the
history of commits (`Sys.Ok`). The producer's side is arithmetic on the counters. A consumer's
side rests on its owning its record alone: `alive` is swapped from 0 to 1 once, so no two
consumers stand behind one record, and nobody else writes its `cursor`.

A slot holds its position's item for as long as the producer has not come round to it again: the
one slot being written is `slots` or more positions later, and positions less than `slots` apart
have different slots (`emod_ne_of_window`).

The history of a consumer is a row of slots, and it is said to be the slots of the positions from
its first one on. With the slots standing for items for long enough, this gives what a consumer
relies on: it gets every item once and in order, unless the producer comes round to it.
-/

namespace Inac
namespace Ullc

open Lib

variable {δ : Type}

/-! ## Positions and slots

The one fact of arithmetic. -/

/-- Positions less than a ring's length apart are in different slots. -/
theorem emod_ne_of_window {p q s : Int} (hpq : p < q) (hqp : q < p + s) : p % s ≠ q % s := by
  intro h
  have hzero : (q - p) % s = 0 := Int.emod_eq_emod_iff_emod_sub_eq_zero.mp h.symm
  rw [Int.emod_eq_of_lt (by omega) (by omega)] at hzero
  omega

/-! ## The invariant

A case for every program counter, of what the thread knows there and what nobody else can undo. -/

/-- A consumer past `consumer_new`, with its record `c`: it has read the slots of the positions
    from its initial cursor on, one after the other, and stands at most one past the last
    commit. -/
structure Reading (slots ringCursor : Int) (c : Cursor) (th : Consumer) : Prop where
  alive : c.alive = true
  start : 0 ≤ th.start
  cursor : c.cursor = th.start + th.got.length
  le : c.cursor ≤ ringCursor + 1 ∨ c.cursor = 0
  got : th.got = (List.range th.got.length).map fun j : Nat => (th.start + j) % slots

/-- What holds of a consumer at each program counter. -/
def Consumer.Ok (slots ringCursor : Int) (cons : Nat → Cursor) (th : Consumer) : Prop :=
  match th.pc with
  | .scan _ => th.got = []
  | .exceeded => th.got = []
  | .load id => cons id = ⟨true, 0⟩ ∧ th.got = []
  | .swap id v => cons id = ⟨true, 0⟩ ∧ th.got = [] ∧ -1 ≤ v ∧ v ≤ ringCursor
  | .check id =>
    (cons id).alive = true ∧ th.got = [] ∧ -1 ≤ (cons id).cursor ∧ (cons id).cursor ≤ ringCursor
  | .zero id => (cons id).alive = true ∧ th.got = [] ∧ (cons id).cursor = -1
  | .ready id => Reading slots ringCursor (cons id) th
  | .wait id waitFor => Reading slots ringCursor (cons id) th ∧ waitFor = (cons id).cursor
  | .index id => Reading slots ringCursor (cons id) th ∧ (cons id).cursor ≤ ringCursor
  | .bump id idx =>
    Reading slots ringCursor (cons id) th ∧ (cons id).cursor ≤ ringCursor ∧
      idx = (cons id).cursor % slots

/-- What holds of the producer at each program counter: `next_ptr` counts the commits, and the
    slot in hand is that of the next position. -/
def ProdPc.Ok (slots nextPtr : Int) (commits : Nat) : ProdPc → Prop
  | .idle => nextPtr = commits
  | .position _ => nextPtr = commits
  | .loop _ like => nextPtr = commits ∧ like = commits % slots
  | .alive _ _ like => nextPtr = commits ∧ like = commits % slots
  | .cursor _ _ like => nextPtr = commits ∧ like = commits % slots
  | .claimed like => nextPtr = commits ∧ like = commits % slots
  | .commit like => nextPtr = commits + 1 ∧ like = commits % slots

/-- The invariant of the ring. -/
structure Sys.Ok (s : Sys δ) : Prop where
  slots : 0 < s.ring.slots
  cursor : s.ring.cursor = s.committed.length - 1
  prod : s.prod.Ok s.ring.slots s.ring.nextPtr s.committed.length
  data : ∀ p : Nat, p < s.committed.length → s.ring.nextPtr < p + s.ring.slots →
    s.committed[p]? = some (s.data (p % s.ring.slots))
  free : ∀ k, (∀ t, (s.thread t).pc.owns ≠ some k) → s.cons k = ⟨false, 0⟩
  owner : ∀ t u k, (s.thread t).pc.owns = some k → (s.thread u).pc.owns = some k → t = u
  thread : ∀ t, (s.thread t).Ok s.ring.slots s.ring.cursor s.cons

theorem Sys.init_ok {slots : Int} (hslots : 0 < slots) (numConsumers : Nat) (overrun : Int)
    (data : Int → δ) : (Sys.init slots numConsumers overrun data).Ok where
  slots := hslots
  cursor := rfl
  prod := rfl
  data p hp := absurd hp (Nat.not_lt_zero p)
  free _ _ := rfl
  owner t u k ht := by simp [Sys.init, ConsPc.owns] at ht
  thread _ := rfl

/-! ## Consumers

A step of a consumer is one of four kinds: it goes on, it stores into its record, it takes a record
that is free, or it leaves everything as it is. -/

theorem Consumer.Ok.alive {slots ringCursor : Int} {cons : Nat → Cursor} {th : Consumer}
    (h : th.Ok slots ringCursor cons) {k : Nat} (hk : th.pc.owns = some k) :
    (cons k).alive = true := by
  obtain ⟨pc, start, got⟩ := th
  cases pc with
  | scan id => simp [ConsPc.owns] at hk
  | exceeded => simp [ConsPc.owns] at hk
  | load id => obtain rfl := Option.some.inj hk; rw [h.1]
  | swap id v => obtain rfl := Option.some.inj hk; rw [h.1]
  | check id => obtain rfl := Option.some.inj hk; exact h.1
  | zero id => obtain rfl := Option.some.inj hk; exact h.1
  | ready id => obtain rfl := Option.some.inj hk; exact Reading.alive h
  | wait id w => obtain rfl := Option.some.inj hk; exact h.1.alive
  | index id => obtain rfl := Option.some.inj hk; exact h.1.alive
  | bump id idx => obtain rfl := Option.some.inj hk; exact h.1.alive

/-- A reading consumer reads on at another program counter. -/
theorem Reading.goto {slots c : Int} {cur : Cursor} {th : Consumer}
    (h : Reading slots c cur th) (pc : ConsPc) : Reading slots c cur { th with pc := pc } :=
  ⟨h.alive, h.start, h.cursor, h.le, h.got⟩

theorem Reading.mono {slots c₁ c₂ : Int} (hle : c₁ ≤ c₂) {c : Cursor} {th : Consumer}
    (h : Reading slots c₁ c th) : Reading slots c₂ c th :=
  ⟨h.alive, h.start, h.cursor, h.le.imp_left fun hc => by omega, h.got⟩

/-- The slot at the cursor is the next one in the row. -/
theorem Reading.read {slots c : Int} {cur : Cursor} {th : Consumer}
    (h : Reading slots c cur th) (hle : cur.cursor ≤ c) (pc : ConsPc) :
    Reading slots c { cur with cursor := cur.cursor + 1 }
      { th with pc := pc, got := th.got ++ [cur.cursor % slots] } := by
  have hcursor := h.cursor
  refine ⟨h.alive, h.start, ?_, Or.inl (Int.add_le_add_right hle 1), ?_⟩
  · simp only [List.length_append, List.length_singleton]
    omega
  · simp only [List.length_append, List.length_singleton]
    rw [List.range_succ, List.map_append, ← h.got, List.map_singleton, hcursor]

/-- A consumer is untouched by commits and by stores into other records. -/
theorem Consumer.Ok.mono {slots c₁ c₂ : Int} (hle : c₁ ≤ c₂) {cons cons' : Nat → Cursor}
    {th : Consumer} (hcons : ∀ k, th.pc.owns = some k → cons' k = cons k)
    (h : th.Ok slots c₁ cons) : th.Ok slots c₂ cons' := by
  obtain ⟨pc, start, got⟩ := th
  cases pc with
  | scan id => exact h
  | exceeded => exact h
  | load id => exact ⟨(hcons id rfl).trans h.1, h.2⟩
  | swap id v => exact ⟨(hcons id rfl).trans h.1, h.2.1, h.2.2.1, Int.le_trans h.2.2.2 hle⟩
  | check id =>
    simp only [Consumer.Ok, hcons id rfl] at h ⊢
    exact ⟨h.1, h.2.1, h.2.2.1, Int.le_trans h.2.2.2 hle⟩
  | zero id => simp only [Consumer.Ok, hcons id rfl] at h ⊢; exact h
  | ready id => simp only [Consumer.Ok, hcons id rfl] at h ⊢; exact h.mono hle
  | wait id w => simp only [Consumer.Ok, hcons id rfl] at h ⊢; exact ⟨h.1.mono hle, h.2⟩
  | index id =>
    simp only [Consumer.Ok, hcons id rfl] at h ⊢
    exact ⟨h.1.mono hle, Int.le_trans h.2 hle⟩
  | bump id idx =>
    simp only [Consumer.Ok, hcons id rfl] at h ⊢
    exact ⟨h.1.mono hle, Int.le_trans h.2.1 hle, h.2.2⟩

/-- **A consumer's step.** It may change its own record and itself; its record is the one it had,
    or one that was free. -/
theorem Sys.Ok.consumer {s : Sys δ} (hs : s.Ok) {t : Nat} {cons' : Nat → Cursor} {th' : Consumer}
    (hcons : ∀ k, th'.pc.owns ≠ some k → cons' k = s.cons k)
    (howns : th'.pc.owns = (s.thread t).pc.owns ∨
      (s.thread t).pc.owns = none ∧ ∀ k, th'.pc.owns = some k → (s.cons k).alive = false)
    (hok : th'.Ok s.ring.slots s.ring.cursor cons') :
    Sys.Ok { s with cons := cons', thread := Function.update s.thread t th' } := by
  -- no other consumer owns the record
  have hother : ∀ u, u ≠ t → ∀ k, (s.thread u).pc.owns = some k → th'.pc.owns ≠ some k := by
    intro u hu k huk htk
    rcases howns with heq | ⟨-, hfree⟩
    · exact hu (hs.owner u t k huk (heq ▸ htk))
    · have := (hs.thread u).alive huk
      rw [hfree k htk] at this
      exact Bool.noConfusion this
  have hthread : ∀ u, u ≠ t → Function.update s.thread t th' u = s.thread u := fun u hu =>
    Function.update_of_ne hu ..
  have hself : Function.update s.thread t th' t = th' := Function.update_self ..
  refine ⟨hs.slots, hs.cursor, hs.prod, hs.data, ?_, ?_, ?_⟩
  · intro k hk
    have htk := hk t
    simp only [hself] at htk
    refine (hcons k htk).trans (hs.free k fun u => ?_)
    by_cases hu : u = t
    · subst hu
      rcases howns with heq | ⟨hnone, -⟩
      · rw [← heq]; exact htk
      · rw [hnone]; simp
    · have := hk u
      simp only [hthread u hu] at this
      exact this
  · intro u v k hu hv
    by_cases hut : u = t <;> by_cases hvt : v = t
    · rw [hut, hvt]
    · subst hut
      simp only [hself, hthread v hvt] at hu hv
      exact absurd hu (hother v hvt k hv)
    · subst hvt
      simp only [hself, hthread u hut] at hu hv
      exact absurd hv (hother u hut k hu)
    · simp only [hthread u hut, hthread v hvt] at hu hv
      exact hs.owner u v k hu hv
  · intro u
    by_cases hu : u = t
    · subst hu
      simp only [hself]
      exact hok
    · simp only [hthread u hu]
      exact (hs.thread u).mono (Int.le_refl _) fun k hk => hcons k (hother u hu k hk)

@[simp] theorem Sys.store_cons_self (s : Sys δ) (id : Nat) (c : Cursor) :
    (s.store id c).cons id = c := Function.update_self ..

theorem Sys.Ok.stored {s : Sys δ} (hs : s.Ok) {t id : Nat} {c : Cursor} {th' : Consumer}
    (hid : th'.pc.owns = some id)
    (howns : (s.thread t).pc.owns = some id ∨
      (s.thread t).pc.owns = none ∧ (s.cons id).alive = false)
    (hok : th'.Ok s.ring.slots s.ring.cursor (s.store id c).cons) :
    Sys.Ok { s.store id c with thread := Function.update s.thread t th' } := by
  refine hs.consumer (fun k hk => ?_) (howns.imp (fun h => hid.trans h.symm) fun h => ?_) hok
  · refine Function.update_of_ne (fun h => hk ?_) ..
    rw [h]; exact hid
  · refine ⟨h.1, fun k hk => ?_⟩
    obtain rfl : id = k := Option.some.inj (hid.symm.trans hk)
    exact h.2

theorem Sys.Ok.goto {s : Sys δ} (hs : s.Ok) {t : Nat} {pc : ConsPc}
    (howns : pc.owns = (s.thread t).pc.owns)
    (hok : Consumer.Ok s.ring.slots s.ring.cursor s.cons { s.thread t with pc := pc }) :
    (s.goto t pc).Ok :=
  hs.consumer (fun _ _ => rfl) (Or.inl howns) hok

/-- A record that is not alive is as it was in the beginning. -/
theorem Sys.Ok.cons_eq_of_dead {s : Sys δ} (hs : s.Ok) {id : Nat}
    (hdead : (s.cons id).alive = false) : s.cons id = ⟨false, 0⟩ := by
  refine hs.free id fun u hu => ?_
  have halive := (hs.thread u).alive hu
  rw [hdead] at halive
  exact Bool.noConfusion halive

theorem stepCons_ok {s : Sys δ} (hs : s.Ok) (t : Nat) : (stepCons s t).2.Ok := by
  have hth := hs.thread t
  have hcur : -1 ≤ s.ring.cursor := by have := hs.cursor; omega
  unfold stepCons
  cases hpc : (s.thread t).pc with
  | scan id =>
    rw [Consumer.Ok, hpc] at hth
    simp only
    split
    · split
      · exact hs.goto (by rw [hpc]; rfl) hth
      · rename_i hdead
        have hdead' : (s.cons id).alive = false := by simpa using hdead
        -- A record that nobody has taken has never been written to.
        have hrec := hs.cons_eq_of_dead hdead'
        refine hs.stored rfl (Or.inr ⟨by rw [hpc]; rfl, hdead'⟩) ⟨?_, hth⟩
        rw [Sys.store_cons_self, hrec]
    · exact hs.goto (by rw [hpc]; rfl) hth
  | exceeded => exact hs
  | load id =>
    rw [Consumer.Ok, hpc] at hth
    exact hs.goto (by rw [hpc]; rfl) ⟨hth.1, hth.2, hcur, Int.le_refl _⟩
  -- Nobody else writes its cursor, so the swap finds what was read.
  | swap id v =>
    rw [Consumer.Ok, hpc] at hth
    obtain ⟨hrec, hgot, hlo, hhi⟩ := hth
    refine hs.stored rfl (Or.inl (by rw [hpc]; rfl)) ?_
    simp only [Consumer.Ok, Sys.store_cons_self, hrec, atomicSwap, if_true]
    exact ⟨trivial, hgot, hlo, hhi⟩
  -- `cursor` was -1, and is to be 0; else it stands.
  | check id =>
    rw [Consumer.Ok, hpc] at hth
    obtain ⟨halive, hgot, hlo, hhi⟩ := hth
    simp only
    split
    · exact hs.goto (by rw [hpc]; rfl) ⟨halive, hgot, by omega⟩
    · refine hs.consumer (fun _ _ => rfl) (Or.inl (by rw [hpc]; rfl)) ?_
      exact ⟨halive, Int.not_lt.mp ‹_›, by simp, Or.inl (by omega), rfl⟩
  | zero id =>
    rw [Consumer.Ok, hpc] at hth
    obtain ⟨halive, hgot, hneg⟩ := hth
    refine hs.stored rfl (Or.inl (by rw [hpc]; rfl)) ?_
    simp only [Consumer.Ok, Sys.store_cons_self]
    exact ⟨halive, Int.le_refl _, by simp, Or.inr rfl, rfl⟩
  | ready id =>
    rw [Consumer.Ok, hpc] at hth
    exact hs.goto (by rw [hpc]; rfl) ⟨hth.goto _, rfl⟩
  | wait id w =>
    rw [Consumer.Ok, hpc] at hth
    obtain ⟨hr, hw⟩ := hth
    simp only
    split
    · exact hs.goto (by rw [hpc]; rfl) (hr.goto _)
    · exact hs.goto (by rw [hpc]; rfl) ⟨hr.goto _, by omega⟩
  | index id =>
    rw [Consumer.Ok, hpc] at hth
    obtain ⟨hr, hle⟩ := hth
    have hnonneg : 0 ≤ (s.cons id).cursor := by have := hr.start; have := hr.cursor; omega
    exact hs.goto (by rw [hpc]; rfl)
      ⟨hr.goto _, hle, Int.tmod_eq_emod_of_nonneg hnonneg⟩
  -- The item is read, and it is the one that comes next.
  | bump id idx =>
    rw [Consumer.Ok, hpc] at hth
    obtain ⟨hr, hle, hidx⟩ := hth
    refine hs.stored rfl (Or.inl (by rw [hpc]; rfl)) ?_
    simp only [Consumer.Ok, Sys.store_cons_self, hidx]
    exact hr.read hle _

/-! ## The producer

A claim only reads, so its steps have nothing to show but that `next_ptr` counts the commits. -/

theorem Sys.Ok.setProd {s : Sys δ} (hs : s.Ok) {pc : ProdPc}
    (hpc : pc.Ok s.ring.slots s.ring.nextPtr s.committed.length) :
    Sys.Ok { s with prod := pc } :=
  ⟨hs.slots, hs.cursor, hpc, hs.data, hs.free, hs.owner, hs.thread⟩

theorem Sys.Ok.incNext {s : Sys δ} (hs : s.Ok) {like : Int}
    (hnext : s.ring.nextPtr = s.committed.length)
    (hlike : like = s.committed.length % s.ring.slots) :
    Sys.Ok { s with
      ring := { s.ring with nextPtr := s.ring.nextPtr + 1 }, prod := .commit like } where
  slots := hs.slots
  cursor := hs.cursor
  prod := ⟨by rw [hnext], hlike⟩
  data p hp hlt := hs.data p hp (by
    have : s.ring.nextPtr + 1 < p + s.ring.slots := hlt
    omega)
  free := hs.free
  owner := hs.owner
  thread := hs.thread

/-- The second half of `commit`: the slot in hand becomes the last committed position's. -/
theorem Sys.Ok.incCursor {s : Sys δ} (hs : s.Ok) {like : Int}
    (hnext : s.ring.nextPtr = s.committed.length + 1)
    (hlike : like = s.committed.length % s.ring.slots) :
    Sys.Ok { s with
      ring := { s.ring with cursor := s.ring.cursor + 1 }
      prod := .idle
      committed := s.committed ++ [s.data like] } where
  slots := hs.slots
  cursor := by
    have := hs.cursor
    simp only [List.length_append, List.length_singleton]
    omega
  prod := by
    simp only [ProdPc.Ok, List.length_append, List.length_singleton]
    omega
  data p hp hlt := by
    simp only [List.length_append, List.length_singleton] at hp
    -- An item that was there, or the one committed now, which is in the slot in hand.
    rcases Nat.lt_succ_iff_lt_or_eq.mp hp with hp | rfl
    · rw [List.getElem?_append_left hp]
      exact hs.data p hp hlt
    · rw [List.getElem?_append_right (Nat.le_refl _), Nat.sub_self, hlike]
      rfl
  free := hs.free
  owner := hs.owner
  thread t := (hs.thread t).mono (by show s.ring.cursor ≤ s.ring.cursor + 1; omega)
    fun _ _ => rfl

theorem stepProd_ok {s : Sys δ} (hs : s.Ok) : (stepProd s).2.Ok := by
  have hp := hs.prod
  unfold stepProd
  cases hpc : s.prod with
  | idle => rw [hpc] at hp; exact hs.setProd hp
  | position slow =>
    rw [hpc] at hp
    -- The slot is computed from `next_ptr`, which is not negative.
    have hnext : s.ring.nextPtr = s.committed.length := hp
    refine hs.setProd ⟨hnext, ?_⟩
    rw [Int.tmod_eq_emod_of_nonneg (by omega), hnext]
  | loop slow like =>
    rw [hpc] at hp
    simp only
    split
    · exact hs.setProd hp
    · exact hs.setProd hp
  | alive i slow like =>
    rw [hpc] at hp
    simp only
    split
    · split
      · exact hs.setProd hp
      · exact hs.setProd hp
    · exact hs.setProd hp
  | cursor i slow like => rw [hpc] at hp; exact hs.setProd hp
  | claimed like => rw [hpc] at hp; exact hs.incNext hp.1 hp.2
  | commit like => rw [hpc] at hp; exact hs.incCursor hp.1 hp.2

/-- Writing the slot in hand touches no position whose item may still be read: the slot's next
    item is of a later position, less than a round away. -/
theorem Sys.Ok.fill {s : Sys δ} (hs : s.Ok) {like : Int} (hpc : s.prod = .claimed like) (v : δ) :
    Sys.Ok { s with data := Function.update s.data like v } := by
  have hp := hs.prod
  rw [hpc] at hp
  refine ⟨hs.slots, hs.cursor, hs.prod, fun p hlen hlt => ?_, hs.free, hs.owner, hs.thread⟩
  have hlen' : p < s.committed.length := hlen
  have hlt' : s.ring.nextPtr < p + s.ring.slots := hlt
  have hne : (p : Int) % s.ring.slots ≠ like := by
    rw [hp.2]
    exact emod_ne_of_window (by omega) (by rw [← hp.1]; exact hlt')
  show s.committed[p]? = some (Function.update s.data like v (p % s.ring.slots))
  rw [Function.update_of_ne hne]
  exact hs.data p hlen' hlt'

theorem step_ok {s : Sys δ} (hs : s.Ok) (a : Act δ) : (step s a).2.Ok := by
  cases a with
  | prod => exact stepProd_ok hs
  | fill v =>
    simp only [step]
    split
    · exact hs.fill ‹_› v
    · exact hs
  | cons t => exact stepCons_ok hs t

/-! ## What every interleaving keeps

The invariant holds in every state, and what a party relies on follows from it at the step where it
is asked. -/

/-- What the producer and the consumers rely on in a state. -/
structure Sys.Right (s : Sys δ) : Prop where
  /-- Between commits the last committed position is the one before the next to write. -/
  between : (∀ like, s.prod ≠ .commit like) → s.ring.cursor = s.ring.nextPtr - 1
  behind : s.ring.cursor ≤ s.ring.nextPtr - 1
  cons : ∀ k, (s.cons k).cursor ≤ s.ring.cursor + 1 ∨ (s.cons k).cursor = 0
  /-- The gets of a consumer returned the slots of consecutive positions from its initial cursor
      on. -/
  got : ∀ t, (s.thread t).got =
    (List.range (s.thread t).got.length).map fun j : Nat => ((s.thread t).start + j) % s.ring.slots
  /-- A position's slot holds its item until the producer has come round to it. -/
  data : ∀ p : Nat, p < s.committed.length → s.ring.nextPtr < p + s.ring.slots →
    s.committed[p]? = some (s.data (p % s.ring.slots))

/-- What a consumer relies on at a step of `get`: a slot it is given is that of its position,
    which is committed, and it is given `NULL` exactly when its position is not committed at the
    time `ring->cursor` is read. -/
def GetRight (s : Sys δ) : Act δ → Prop
  | .cons t =>
    let th := s.thread t
    (∀ idx, (step s (.cons t)).1 = .item idx →
      idx = (th.start + th.got.length) % s.ring.slots ∧
        th.start + th.got.length < s.committed.length) ∧
    ((step s (.cons t)).1 = .null → ∃ id w, th.pc = .wait id w) ∧
    (∀ id w, th.pc = .wait id w →
      ((step s (.cons t)).1 = .null ↔ (s.committed.length : Int) ≤ th.start + th.got.length))
  | _ => True

theorem Consumer.Ok.got_eq {slots ringCursor : Int} {cons : Nat → Cursor} {th : Consumer}
    (h : th.Ok slots ringCursor cons) :
    th.got = (List.range th.got.length).map fun j : Nat => (th.start + j) % slots := by
  have hnil : th.got = [] →
      th.got = (List.range th.got.length).map fun j : Nat => (th.start + j) % slots := by
    intro h; rw [h]; rfl
  obtain ⟨pc, start, got⟩ := th
  cases pc with
  | scan id => exact hnil h
  | exceeded => exact hnil h
  | load id => exact hnil h.2
  | swap id v => exact hnil h.2.1
  | check id => exact hnil h.2.1
  | zero id => exact hnil h.2.1
  | ready id => exact Reading.got h
  | wait id w => exact h.1.got
  | index id => exact h.1.got
  | bump id idx => exact h.1.got

theorem Consumer.Ok.cursor_le {slots ringCursor : Int} {cons : Nat → Cursor} {th : Consumer}
    (h : th.Ok slots ringCursor cons) (hring : -1 ≤ ringCursor) {k : Nat}
    (hk : th.pc.owns = some k) : (cons k).cursor ≤ ringCursor + 1 ∨ (cons k).cursor = 0 := by
  obtain ⟨pc, start, got⟩ := th
  cases pc with
  | scan id => simp [ConsPc.owns] at hk
  | exceeded => simp [ConsPc.owns] at hk
  | load id => obtain rfl := Option.some.inj hk; exact Or.inr (by rw [h.1])
  | swap id v => obtain rfl := Option.some.inj hk; exact Or.inr (by rw [h.1])
  | check id =>
    obtain rfl := Option.some.inj hk
    have := h.2.2.2
    exact Or.inl (by omega)
  | zero id =>
    obtain rfl := Option.some.inj hk
    have := h.2.2
    exact Or.inl (by omega)
  | ready id => obtain rfl := Option.some.inj hk; exact Reading.le h
  | wait id w => obtain rfl := Option.some.inj hk; exact h.1.le
  | index id => obtain rfl := Option.some.inj hk; exact h.1.le
  | bump id idx => obtain rfl := Option.some.inj hk; exact h.1.le

theorem ProdPc.Ok.nextPtr_eq {slots nextPtr : Int} {commits : Nat} {pc : ProdPc}
    (h : pc.Ok slots nextPtr commits) :
    nextPtr = commits ∨ nextPtr = commits + 1 ∧ ∃ like, pc = .commit like := by
  cases pc with
  | idle => exact Or.inl h
  | position slow => exact Or.inl h
  | loop slow like => exact Or.inl h.1
  | alive i slow like => exact Or.inl h.1
  | cursor i slow like => exact Or.inl h.1
  | claimed like => exact Or.inl h.1
  | commit like => exact Or.inr ⟨h.1, like, rfl⟩

theorem Sys.Ok.right {s : Sys δ} (hs : s.Ok) : s.Right where
  between hpc := by
    have hcur := hs.cursor
    rcases hs.prod.nextPtr_eq with hnext | ⟨-, like, hc⟩
    · omega
    · exact absurd hc (hpc like)
  behind := by
    have hcur := hs.cursor
    rcases hs.prod.nextPtr_eq with hnext | ⟨hnext, -⟩ <;> omega
  cons k := by
    by_cases howned : ∃ t, (s.thread t).pc.owns = some k
    · obtain ⟨t, ht⟩ := howned
      exact (hs.thread t).cursor_le (by have := hs.cursor; omega) ht
    · exact Or.inr (by rw [hs.free k fun t ht => howned ⟨t, ht⟩])
  got t := (hs.thread t).got_eq
  data := hs.data

/-- The only outputs of a consumer: `NULL` where `get` reads `ring->cursor`, an item where it
    increments its own. -/
theorem stepCons_out (s : Sys δ) (t : Nat) :
    (stepCons s t).1 = match (s.thread t).pc with
      | .wait _ w => if s.ring.cursor < w then .null else .none
      | .bump _ idx => .item idx
      | _ => .none := by
  unfold stepCons
  cases (s.thread t).pc <;> simp only <;> split_ifs <;> rfl

theorem Sys.Ok.getRight {s : Sys δ} (hs : s.Ok) (a : Act δ) : GetRight s a := by
  cases a with
  | prod => trivial
  | fill v => trivial
  | cons t =>
    have hth := hs.thread t
    have hcur := hs.cursor
    simp only [GetRight, step, stepCons_out]
    cases hpc : (s.thread t).pc with
    -- `NULL` is given where the position waited for is not committed.
    | wait id w =>
      rw [Consumer.Ok, hpc] at hth
      obtain ⟨hr, hw⟩ := hth
      have hpos := hr.cursor
      by_cases hlt : s.ring.cursor < w
      · simp only [if_pos hlt]
        refine ⟨fun _ h => Out.noConfusion h, fun _ => ⟨id, w, rfl⟩, fun _ _ _ => ?_⟩
        exact ⟨fun _ => by omega, fun _ => trivial⟩
      · simp only [if_neg hlt]
        refine ⟨fun _ h => Out.noConfusion h, fun h => Out.noConfusion h, fun _ _ _ => ?_⟩
        exact ⟨fun h => Out.noConfusion h, fun h => by omega⟩
    | bump id idx =>
      rw [Consumer.Ok, hpc] at hth
      obtain ⟨hr, hle, hidx⟩ := hth
      have hpos := hr.cursor
      refine ⟨fun idx' h => ?_, fun h => Out.noConfusion h, fun _ _ h => ConsPc.noConfusion h⟩
      obtain rfl := Out.item.inj h
      exact ⟨by rw [hidx, hpos], by omega⟩
    | _ =>
      exact ⟨fun _ h => Out.noConfusion h, fun h => Out.noConfusion h,
        fun _ _ h => ConsPc.noConfusion h⟩

/-- **The ring, over all interleavings.** From a new ring with any number of slots and records,
    with overrun enabled or not, every state of every interleaving of the producer's and the
    consumers' steps is right, and so is every step of `get`. -/
theorem ring_right {slots : Int} (hslots : 0 < slots) (numConsumers : Nat) (overrun : Int)
    (data : Int → δ) (acts : List (Act δ)) :
    Always step Sys.Right (Sys.init slots numConsumers overrun data) acts ∧
      Along step GetRight (Sys.init slots numConsumers overrun data) acts := by
  have hinit := Sys.init_ok hslots numConsumers overrun data
  constructor
  · intro pre _
    have hok : (exec step (Sys.init slots numConsumers overrun data) pre).Ok :=
      exec_invariant (I := Sys.Ok) (A := fun _ => True) (fun s a _ hs => step_ok hs a)
        (fun _ _ => trivial) hinit
    exact hok.right
  · exact along_of_invariant (I := Sys.Ok) (fun s a hs => ⟨hs.getRight a, step_ok hs a⟩) hinit

/-- Two slots, one consumer: it joins, the producer claims, fills and commits, and the consumer
    gets the item. -/
theorem ring_right_one_item :
    Always step Sys.Right (Sys.init 2 1 (-1) fun _ => 0)
        ([.cons 0, .cons 0, .cons 0, .cons 0, .cons 0, .prod, .prod, .prod, .fill 7, .prod, .prod,
          .cons 0, .cons 0, .cons 0, .cons 0] : List (Act Nat)) ∧
      ((exec step (Sys.init 2 1 (-1) fun _ => 0)
        ([.cons 0, .cons 0, .cons 0, .cons 0, .cons 0, .prod, .prod, .prod, .fill 7, .prod, .prod,
          .cons 0, .cons 0, .cons 0, .cons 0] : List (Act Nat))).thread 0).got = [0] :=
  ⟨(ring_right (by decide) 1 (-1) (fun _ => 0) _).1, by decide⟩

end Ullc
end Inac
