import Mathlib.Order.Monotone.Basic
import Inac.Lib.Run
import Inac.Ullc.Defs

/-!
# The shared memory of a ring

A ring lives in a shared memory object with a name. `ina_ullc_producer_new` creates the object, or
opens the one of that name, and takes a record in it that no other producer has; when a producer is
freed its record is free again. The object counts who has it mapped, and loses its name when the
last one goes, or when the one who created it goes: then the next producer makes a new object, and
those who have the old one mapped keep it. So there may be several rings of one name, and a
producer is on the one it has mapped.

Calls do not overlap here, and shared memory is there when it is asked for. A semaphore may be
refused: each call says whether its semaphore is made. Shared memory that nobody wrote to is zero.
-/

namespace Inac
namespace Ullc

open Lib

/-! ## The code

An object is never forgotten, as those who have it mapped may use it after its name is gone. -/

/-- What a producer says of the ring. -/
structure Cfg where
  version : Int
  size : Nat
  slots : Nat
  numProducers : Int
  numConsumers : Int
  deriving DecidableEq, Repr

/-- The arguments `ina_ullc_producer_new` verifies. -/
def Cfg.Valid (c : Cfg) : Prop :=
  c.version > 0 ∧ c.size > 0 ∧ c.slots > 0 ∧ c.numProducers > 0 ∧ c.numProducers ≤ 64 ∧
    c.numConsumers > 0 ∧ c.numConsumers ≤ 64

instance (c : Cfg) : Decidable c.Valid := inferInstanceAs (Decidable (_ ∧ _))

def magicHdr : Char := 'Z'  -- `__INA_MAGIC_HDR`

/-- A shared memory object: its reference count, the ring's header, and the `alive` of the records
    behind the consumers' records. -/
structure Seg where
  refs : Int
  magic : Char
  cfg : Cfg
  aliveProducers : Int
  alive : Nat → Int

def Seg.fresh : Seg :=
  { refs := 0, magic := '\x00', cfg := ⟨0, 0, 0, 0, 0⟩, aliveProducers := 0, alive := fun _ => 0 }

/-- A mapping of an object, and whether it was opened with `INA_MEM_SHARED_EXCL`. -/
structure Pool where
  seg : Nat
  excl : Bool
  deriving DecidableEq, Repr

/-- The context of a producer; `index` is its record, as a place behind the consumers' records. -/
structure Producer where
  pool : Pool
  id : Nat
  index : Nat
  deriving DecidableEq, Repr

/-- All objects of one name so far, the one that has the name now, and the contexts not freed. -/
structure Shm where
  seg : Nat → Seg
  made : Nat
  linked : Option Nat
  live : List Producer

def Shm.init : Shm := { seg := fun _ => .fresh, made := 0, linked := none, live := [] }

def Shm.upd (w : Shm) (s : Nat) (g : Seg) : Shm := { w with seg := Function.update w.seg s g }

/-- `__ina_shm_open`, which counts the mapping. An object that is made without
    `INA_MEM_SHARED_EXCL` would be left empty; no producer gets there, as it asks with it first. -/
def Shm.shmOpen (w : Shm) (excl : Bool) : Option (Pool × Shm) :=
  match w.linked with
  | none =>
    some (⟨w.made, excl⟩,
      { w.upd w.made { Seg.fresh with refs := 1 } with made := w.made + 1, linked := some w.made })
  | some s =>
    if excl then none else some (⟨s, excl⟩, w.upd s { w.seg s with refs := (w.seg s).refs + 1 })

/-- `__ina_shm_close`. The name goes, whichever object has it. -/
def Shm.shmClose (w : Shm) (p : Pool) : Shm :=
  let cn := (w.seg p.seg).refs - 1
  { w.upd p.seg { w.seg p.seg with refs := cn } with
    linked := if cn = 0 ∨ p.excl then none else w.linked }

def Seg.initialise (g : Seg) (c : Cfg) : Seg :=
  { g with magic := magicHdr, cfg := c, aliveProducers := 0 }

/-- `__ina_ullc_ring_create`; when it fails, the pool it may have opened is left to the caller. -/
def Shm.ringCreate (w : Shm) (c : Cfg) (excl : Bool) : Except (Err × Option Pool) Pool × Shm :=
  if c.size % 2 ≠ 0 then (.error (.memoryNotAligned, none), w)
  else
    match w.shmOpen excl with
    | none => (.error (.handleInvalid, none), w)
    | some (p, w) =>
      let w := if (w.seg p.seg).magic ≠ magicHdr ∨ excl then
        w.upd p.seg ((w.seg p.seg).initialise c) else w
      (if (w.seg p.seg).cfg = c then .ok p else .error (.argumentInvalid, some p), w)

/-- The loop that looks for a record, with `left` ids to go. `p_offset` moves on by `id` from where
    it is. -/
def walk (alive : Nat → Int) : Nat → Nat → Nat → Option (Nat × Nat)
  | 0, _, _ => none
  | left + 1, id, offset =>
    let offset := offset + id
    if (atomicSwap (alive offset) 0 1).1 = 0 then some (id, offset)
    else walk alive left (id + 1) offset

/-- What a call gives back. -/
inductive Answer where
  | opened (p : Producer)
  | noContext  -- `INA_SUCCESS`, and the context is `NULL`
  | failed (e : Err)
  | freed
  deriving DecidableEq, Repr

/-- `ina_ullc_producer_new` once the ring is there. -/
def Shm.register (w : Shm) (p : Pool) (c : Cfg) (sem : Bool) : Answer × Shm :=
  if (w.seg p.seg).cfg.version ≠ c.version then (.failed .versionInvalid, w.shmClose p)
  else
    match walk (w.seg p.seg).alive c.numProducers.toNat 0 0 with
    | none => (.failed .limitExceeded, w.shmClose p)
    | some (id, index) =>
      let g := w.seg p.seg
      let w := w.upd p.seg
        { g with alive := Function.update g.alive index (atomicSwap (g.alive index) 0 1).2 }
      if sem then (.opened ⟨p, id, index⟩, { w with live := w.live ++ [⟨p, id, index⟩] })
      else (.noContext, w.shmClose p)

def Shm.inaUllcProducerNew (w : Shm) (c : Cfg) (sem : Bool) : Answer × Shm :=
  if ¬ c.Valid then (.failed .invalidArgument, w)
  else
    match w.ringCreate c true with
    | (.ok p, w) => w.register p c sem
    | (.error _, w) =>
      match w.ringCreate c false with
      | (.ok p, w) => w.register p c sem
      | (.error (e, pool), w) => (.failed e, pool.elim w w.shmClose)

/-- `ina_ullc_producer_free`; a context that is not there is `NULL`. `INA_ATOMIC_DEC` gives the
    value before. -/
def Shm.inaUllcProducerFree (w : Shm) (i : Nat) : Answer × Shm :=
  match w.live[i]? with
  | none => (.freed, w)
  | some p =>
    let g := w.seg p.pool.seg
    let w := w.upd p.pool.seg
      { g with
        alive := Function.update g.alive p.index (atomicSwap (g.alive p.index) 1 0).2
        aliveProducers := g.aliveProducers - 1
        magic := if g.aliveProducers = 1 then '\x00' else g.magic }
    (.freed, { w.shmClose p.pool with live := w.live.eraseIdx i })

inductive Req where
  | producerNew (c : Cfg) (sem : Bool)
  | producerFree (i : Nat)
  deriving DecidableEq, Repr

def Shm.step (w : Shm) : Req → Answer × Shm
  | .producerNew c sem => w.inaUllcProducerNew c sem
  | .producerFree i => w.inaUllcProducerFree i

/-! ## The walk

It tries the ids in their order, and looks for each at its `offset`. -/

/-- Where the walk looks for the record of an id: the sum of the ids up to it. -/
def offset (k : Nat) : Nat := k * (k + 1) / 2

theorem offset_succ (k : Nat) : offset (k + 1) = offset k + (k + 1) := by
  have hsum : (k + 1) * (k + 1 + 1) = k * (k + 1) + (k + 1) * 2 := by
    rw [Nat.mul_comm k, ← Nat.mul_add]
  rw [offset, hsum, Nat.add_mul_div_right _ _ (by decide), offset]

theorem offset_strictMono : StrictMono offset := strictMono_nat_of_lt_succ fun k => by
  rw [offset_succ]
  omega

/-- The record the walk finds for an id is taken. -/
def Seg.Taken (g : Seg) (k : Nat) : Prop := g.alive (offset k) ≠ 0

/-- **The walk** finds the first id whose record is free, where it looks for it. -/
theorem walk_cases (g : Seg) :
    ∀ (left : Nat) {id off : Nat}, off + id = offset id →
      (walk g.alive left id off = none ∧ ∀ k, id ≤ k → k < id + left → g.Taken k) ∨
      ∃ k, id ≤ k ∧ k < id + left ∧ walk g.alive left id off = some (k, offset k) ∧
        ¬ g.Taken k ∧ ∀ j, id ≤ j → j < k → g.Taken j := by
  intro left
  induction left with
  | zero =>
    intro id off _
    exact Or.inl ⟨rfl, fun k hle hlt => by omega⟩
  | succ left ih =>
    intro id off hoff
    simp only [walk]
    rw [hoff]
    by_cases hfree : (atomicSwap (g.alive (offset id)) 0 1).1 = 0
    · rw [if_pos hfree]
      exact Or.inr ⟨id, Nat.le_refl _, by omega, rfl, fun ht => ht hfree, fun j hle hlt => by omega⟩
    · rw [if_neg hfree]
      -- the taken record of `id` in front of what the rest of the walk passes
      have hpass : ∀ {j : Nat}, id ≤ j → (id + 1 ≤ j → g.Taken j) → g.Taken j := by
        intro j hle hj
        rcases Nat.eq_or_lt_of_le hle with rfl | hlt
        · exact hfree
        · exact hj hlt
      rcases ih (offset_succ id).symm with ⟨hnone, hall⟩ | ⟨k, hle, hlt, hsome, hk, hall⟩
      · exact Or.inl ⟨hnone, fun j hle hlt => hpass hle fun hj => hall j hj (by omega)⟩
      · exact Or.inr ⟨k, by omega, by omega, hsome, hk,
          fun j hle hlt => hpass hle fun hj => hall j hj hlt⟩

/-! ## The calls, by what they find

Whether a ring is found or made, and what the walk then finds. Nothing else of the calls is needed
in the module that follows. -/

/-- The rings in a state, apart from who has them mapped. -/
structure SameRings (w w' : Shm) : Prop where
  made : w'.made = w.made
  live : w'.live = w.live
  linked : ∀ s, w'.linked = some s → w.linked = some s
  magic : ∀ s, (w'.seg s).magic = (w.seg s).magic
  cfg : ∀ s, (w'.seg s).cfg = (w.seg s).cfg
  count : ∀ s, (w'.seg s).aliveProducers = (w.seg s).aliveProducers
  alive : ∀ s, (w'.seg s).alive = (w.seg s).alive

theorem Shm.upd_seg (w : Shm) (s : Nat) (g : Seg) (s' : Nat) :
    (w.upd s g).seg s' = if s' = s then g else w.seg s' := by
  rw [Shm.upd]
  exact Function.update_apply ..

/-- Counting a mapping changes no ring. -/
theorem sameRings_refs (w : Shm) (s : Nat) (n : Int) :
    SameRings w (w.upd s { w.seg s with refs := n }) := by
  refine ⟨.refl _, .refl _, fun _ h => h, ?_, ?_, ?_, ?_⟩
  all_goals
    intro s'
    rw [Shm.upd_seg]
    split
    · rename_i heq
      rw [heq]
    · rfl

theorem sameRings_shmClose (w : Shm) (p : Pool) : SameRings w (w.shmClose p) := by
  have hrefs := sameRings_refs w p.seg ((w.seg p.seg).refs - 1)
  refine ⟨hrefs.made, hrefs.live, ?_, hrefs.magic, hrefs.cfg, hrefs.count, hrefs.alive⟩
  intro s hs
  rw [Shm.shmClose] at hs
  dsimp only at hs
  split at hs
  · cases hs
  · exact hs

/-- The object a producer gets: the one that has the name, or a new one. -/
def Shm.found (w : Shm) (c : Cfg) : Pool × Shm :=
  match w.linked with
  | none =>
    (⟨w.made, true⟩,
      { w.upd w.made { Seg.fresh.initialise c with refs := 1 } with
        made := w.made + 1
        linked := some w.made })
  | some s => (⟨s, false⟩, w.upd s { w.seg s with refs := (w.seg s).refs + 1 })

/-- **`ina_ullc_producer_new`** up to the walk, where no ring has lost its magic. -/
theorem inaUllcProducerNew_eq {w : Shm}
    (hmagic : ∀ s, w.linked = some s → (w.seg s).magic = magicHdr) {c : Cfg} (hv : c.Valid)
    (heven : c.size % 2 = 0) (sem : Bool) :
    w.inaUllcProducerNew c sem =
      if ((w.found c).2.seg (w.found c).1.seg).cfg = c then
        (w.found c).2.register (w.found c).1 c sem
      else (.failed .argumentInvalid, (w.found c).2.shmClose (w.found c).1) := by
  have hodd : ¬ c.size % 2 ≠ 0 := fun hc => hc heven
  cases hlinked : w.linked with
  | none =>
    -- the exclusive attempt makes the object and writes the header
    have hcreate : w.ringCreate c true = (.ok (w.found c).1, (w.found c).2) := by
      simp [Shm.ringCreate, Shm.shmOpen, Shm.found, Shm.upd, Seg.initialise, hlinked, heven]
    have hcfg : ((w.found c).2.seg (w.found c).1.seg).cfg = c := by
      simp [Shm.found, hlinked, Shm.upd, Seg.initialise]
    rw [if_pos hcfg, Shm.inaUllcProducerNew, if_neg (not_not.mpr hv), hcreate]
  | some s =>
    have hfirst : w.ringCreate c true = (.error (.handleInvalid, none), w) := by
      rw [Shm.ringCreate, if_neg hodd, Shm.shmOpen, hlinked]
      rfl
    have hmg : ((w.found c).2.seg (w.found c).1.seg).magic = magicHdr := by
      simp [Shm.found, hlinked, Shm.upd, hmagic s hlinked]
    have hsecond : w.ringCreate c false =
        (if ((w.found c).2.seg (w.found c).1.seg).cfg = c then .ok (w.found c).1
          else .error (.argumentInvalid, some (w.found c).1), (w.found c).2) := by
      have hopen : w.shmOpen false = some (w.found c) := by
        simp [Shm.shmOpen, Shm.found, hlinked]
      rw [Shm.ringCreate, if_neg hodd, hopen]
      simp [hmg]
    rw [Shm.inaUllcProducerNew, if_neg (not_not.mpr hv), hfirst]
    dsimp only
    rw [hsecond]
    by_cases hcfg : ((w.found c).2.seg (w.found c).1.seg).cfg = c
    · rw [if_pos hcfg, if_pos hcfg]
    · rw [if_neg hcfg, if_neg hcfg]
      rfl

/-- The state with the record of an id taken. -/
def Shm.take (w : Shm) (s k : Nat) : Shm :=
  w.upd s { w.seg s with alive := Function.update (w.seg s).alive (offset k) 1 }

/-- **The walk and what follows it.** Either every id has a record that is taken, or the first that
    has a free one gets it. -/
theorem register_cases (w : Shm) (p : Pool) {c : Cfg} (hcfg : (w.seg p.seg).cfg = c) (sem : Bool) :
    (w.register p c sem = (.failed .limitExceeded, w.shmClose p) ∧
      ∀ k < c.numProducers.toNat, (w.seg p.seg).Taken k) ∨
    ∃ k < c.numProducers.toNat, ¬ (w.seg p.seg).Taken k ∧ (∀ j < k, (w.seg p.seg).Taken j) ∧
      w.register p c sem =
        if sem then
          (.opened ⟨p, k, offset k⟩,
            { w.take p.seg k with live := w.live ++ [⟨p, k, offset k⟩] })
        else (.noContext, (w.take p.seg k).shmClose p) := by
  have hversion : ¬ (w.seg p.seg).cfg.version ≠ c.version := by
    rw [hcfg]
    exact fun hc => hc rfl
  have hzero : 0 + 0 = offset 0 := rfl
  rw [Shm.register, if_neg hversion]
  rcases walk_cases (w.seg p.seg) c.numProducers.toNat hzero with
    ⟨hwalk, hall⟩ | ⟨k, -, hk, hwalk, hfree, hall⟩
  · rw [hwalk]
    exact Or.inl ⟨rfl, fun k hk => hall k (Nat.zero_le k) (by omega)⟩
  · rw [hwalk]
    -- The record is free, so the swap succeeds.
    have hswap : (atomicSwap ((w.seg p.seg).alive (offset k)) 0 1).2 = 1 :=
      if_pos (not_not.mp hfree)
    refine Or.inr ⟨k, by omega, hfree, fun j hj => hall j (Nat.zero_le j) hj, ?_⟩
    simp only [hswap]
    rfl

end Ullc
end Inac
