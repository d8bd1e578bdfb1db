import Mathlib.Data.Finset.Card
import Mathlib.Data.Finset.Range
import Inac.Ullc.Shm

/-!
# Who produces into a ring

The walk that looks for a record moves on by the id from where it is, not from the first record: the
record of id `k` is at the sum of the ids up to it (`offset`). For one and two producers that is
where the records are. A third one is put behind them, unless there is room for a fourth.

Beside the records the ring has a count of its producers, by which the last one that is freed is to
be known. It is counted down and never up.
-/

namespace Inac
namespace Ullc

open Lib

/-! ## Where the records are

The records that are in place, and a ring's invariant. It is kept until a call misplaces one. -/

/-- Every producer's record is among those of its ring, and no two have the same. -/
structure Placed (w : Shm) : Prop where
  inside : ∀ p ∈ w.live, (p.index : Int) < (w.seg p.pool.seg).cfg.numProducers
  apart : w.live.Pairwise fun p q => p.pool.seg = q.pool.seg → p.index ≠ q.index

/-- The producers on a ring. -/
def Shm.on (w : Shm) (s : Nat) : List Producer := w.live.filter fun p => p.pool.seg = s

/-- What is asked of a call: the records are in place after it, and it finds no record free only if
    the ring has as many producers as it can have. -/
def Registers (w : Shm) (r : Req) : Prop :=
  Placed (w.step r).2 ∧ ((w.step r).1 = .failed .limitExceeded →
    ∃ s, w.linked = some s ∧ (w.on s).length = (w.seg s).cfg.numProducers)

/-- A producer comes to a ring whose first free id has its record behind the last, or to one where
    all are taken and one of them by nobody. -/
def Misplaces (w : Shm) (r : Req) : Prop :=
  ∃ c sem s, r = .producerNew c sem ∧ c.Valid ∧ c.size % 2 = 0 ∧ w.linked = some s ∧
    (w.seg s).cfg = c ∧
    ((sem = true ∧ ∃ k < c.numProducers.toNat, ¬ (w.seg s).Taken k ∧ (∀ j < k, (w.seg s).Taken j) ∧
        c.numProducers.toNat ≤ offset k) ∨
      ((∀ k < c.numProducers.toNat, (w.seg s).Taken k) ∧
        ∃ k < c.numProducers.toNat, ∀ p ∈ w.live, p.pool.seg = s → p.index ≠ offset k))

/-- What holds between calls: the records in place are the ones the walk gives and are taken, and no
    ring has lost its magic or counts a producer. -/
structure Ok (w : Shm) : Prop extends Placed w where
  linked : ∀ s, w.linked = some s → s < w.made
  magic : ∀ s < w.made, (w.seg s).magic = magicHdr
  count : ∀ s < w.made, (w.seg s).aliveProducers ≤ 0
  made : ∀ p ∈ w.live, p.pool.seg < w.made
  index : ∀ p ∈ w.live, p.index = offset p.id ∧
    p.id < (w.seg p.pool.seg).cfg.numProducers.toNat
  taken : ∀ p ∈ w.live, (w.seg p.pool.seg).Taken p.id

theorem Ok.init : Ok Shm.init := by
  constructor
  · exact ⟨fun _ hp => absurd hp List.not_mem_nil, List.Pairwise.nil⟩
  · intro s hs
    cases hs
  · exact fun s hs => absurd hs (Nat.not_lt_zero s)
  · exact fun s hs => absurd hs (Nat.not_lt_zero s)
  all_goals exact fun _ hp => absurd hp List.not_mem_nil

theorem Ok.sameRings {w w' : Shm} (hok : Ok w) (hsame : SameRings w w') : Ok w' := by
  -- Whose record is taken is about `alive` alone.
  have htaken : ∀ s k, (w'.seg s).Taken k ↔ (w.seg s).Taken k := by
    intro s k
    rw [Seg.Taken, Seg.Taken, hsame.alive]
  constructor
  · constructor
    · rw [hsame.live]
      intro p hp
      rw [hsame.cfg]
      exact hok.inside p hp
    · rw [hsame.live]
      exact hok.apart
  · rw [hsame.made]
    exact fun s hs => hok.linked s (hsame.linked s hs)
  · rw [hsame.made]
    intro s hs
    rw [hsame.magic]
    exact hok.magic s hs
  · rw [hsame.made]
    intro s hs
    rw [hsame.count]
    exact hok.count s hs
  · rw [hsame.made, hsame.live]
    exact hok.made
  · rw [hsame.live]
    intro p hp
    rw [hsame.cfg]
    exact hok.index p hp
  · rw [hsame.live]
    intro p hp
    exact (htaken _ _).mpr (hok.taken p hp)

/-- The objects there were are left alone by a new one, whose ring is empty. -/
theorem found_none {w : Shm} (hlinked : w.linked = none) (c : Cfg) :
    (w.found c).1 = ⟨w.made, true⟩ ∧ (w.found c).2.made = w.made + 1 ∧
      (w.found c).2.live = w.live ∧ (w.found c).2.linked = some w.made ∧
      (∀ s < w.made, (w.found c).2.seg s = w.seg s) ∧
      (w.found c).2.seg w.made = { Seg.fresh.initialise c with refs := 1 } := by
  rw [Shm.found, hlinked]
  refine ⟨rfl, rfl, rfl, rfl, fun s hs => ?_, ?_⟩
  · exact (w.upd_seg w.made _ s).trans (if_neg (Nat.ne_of_lt hs))
  · exact (w.upd_seg w.made _ w.made).trans (if_pos rfl)

/-- What holds of the rings there were and of an empty one holds of all. -/
theorem found_none_all {w : Shm} (hlinked : w.linked = none) {c : Cfg} {P : Seg → Prop}
    (hnew : P { Seg.fresh.initialise c with refs := 1 }) (hold : ∀ s < w.made, P (w.seg s)) :
    ∀ s < w.made + 1, P ((w.found c).2.seg s) := by
  obtain ⟨-, -, -, -, hsegs, hmade⟩ := found_none hlinked c
  intro s hs
  rcases Nat.lt_succ_iff_lt_or_eq.mp hs with hlt | rfl
  · rw [hsegs s hlt]
    exact hold s hlt
  · rw [hmade]
    exact hnew

theorem Ok.found {w : Shm} (hok : Ok w) (c : Cfg) :
    Ok (w.found c).2 ∧ (w.found c).1.seg < (w.found c).2.made := by
  cases hlinked : w.linked with
  | some s =>
    simp only [Shm.found, hlinked]
    exact ⟨hok.sameRings (sameRings_refs w s _), hok.linked s hlinked⟩
  | none =>
    -- A new object: those that were made before are left alone.
    obtain ⟨hpool, hmade, hlive, hname, hold, -⟩ := found_none hlinked c
    refine ⟨⟨⟨?_, ?_⟩, ?_, ?_, ?_, ?_, ?_, ?_⟩, ?_⟩
    · rw [hlive]
      intro p hp
      rw [hold _ (hok.made p hp)]
      exact hok.inside p hp
    · rw [hlive]
      exact hok.apart
    · intro s hs
      obtain rfl := Option.some.inj (hname.symm.trans hs)
      rw [hmade]
      exact Nat.lt_succ_self _
    · rw [hmade]
      exact found_none_all (P := fun g => g.magic = magicHdr) hlinked rfl hok.magic
    · rw [hmade]
      exact found_none_all (P := fun g => g.aliveProducers ≤ 0) hlinked (Int.le_refl 0) hok.count
    · rw [hlive, hmade]
      exact fun p hp => Nat.lt_succ_of_lt (hok.made p hp)
    · rw [hlive]
      intro p hp
      rw [hold _ (hok.made p hp)]
      exact hok.index p hp
    · rw [hlive]
      intro p hp
      rw [hold _ (hok.made p hp)]
      exact hok.taken p hp
    · rw [hpool, hmade]
      exact Nat.lt_succ_self _

/-! ## Taking a record, and giving it back

Both change `alive` at one place. Giving back counts the producers down as well. -/

/-- Nothing but `alive` is changed. -/
theorem Shm.take_frame (w : Shm) (s k s' : Nat) :
    ∃ a, (w.take s k).seg s' = { w.seg s' with alive := a } := by
  rw [Shm.take, Shm.upd_seg]
  split
  · rename_i heq
    rw [heq]
    exact ⟨_, rfl⟩
  · exact ⟨_, rfl⟩

theorem Shm.take_cfg (w : Shm) (s k s' : Nat) : ((w.take s k).seg s').cfg = (w.seg s').cfg := by
  obtain ⟨a, heq⟩ := w.take_frame s k s'
  rw [heq]

theorem Shm.take_taken {w : Shm} {s k s' j : Nat} (hj : (w.seg s').Taken j) :
    ((w.take s k).seg s').Taken j := by
  rw [Shm.take, Shm.upd_seg]
  split
  · rename_i heq
    rw [heq] at hj
    rw [Seg.Taken]
    dsimp only
    rw [Function.update_apply]
    split
    · exact Int.one_ne_zero
    · exact hj
  · exact hj

theorem Ok.take {w : Shm} (hok : Ok w) (s k : Nat) : Ok (w.take s k) := by
  refine ⟨⟨?_, hok.apart⟩, hok.linked, ?_, ?_, hok.made, ?_, ?_⟩
  · intro p hp
    rw [Shm.take_cfg]
    exact hok.inside p hp
  · intro s' hs'
    obtain ⟨a, heq⟩ := w.take_frame s k s'
    rw [heq]
    exact hok.magic s' hs'
  · intro s' hs'
    obtain ⟨a, heq⟩ := w.take_frame s k s'
    rw [heq]
    exact hok.count s' hs'
  · intro p hp
    rw [Shm.take_cfg]
    exact hok.index p hp
  · intro p hp
    exact Shm.take_taken (hok.taken p hp)

/-- A producer that gets a free record among those of its ring. -/
theorem Ok.opened {w : Shm} (hok : Ok w) {p : Pool} (hp : p.seg < w.made) {k : Nat}
    (hk : k < (w.seg p.seg).cfg.numProducers.toNat)
    (hin : offset k < (w.seg p.seg).cfg.numProducers.toNat) (hfree : ¬ (w.seg p.seg).Taken k) :
    Ok { w.take p.seg k with live := w.live ++ [⟨p, k, offset k⟩] } := by
  have htake := hok.take p.seg k
  have hall : ∀ {P : Producer → Prop}, (∀ q ∈ w.live, P q) → P ⟨p, k, offset k⟩ →
      ∀ q ∈ w.live ++ [⟨p, k, offset k⟩], P q := by
    intro P hold hnew q hq
    rcases List.mem_append.mp hq with hq | hq
    · exact hold q hq
    · rw [List.mem_singleton.mp hq]
      exact hnew
  refine ⟨⟨hall htake.inside ?_, ?_⟩, htake.linked, htake.magic, htake.count, hall htake.made hp,
    hall htake.index ?_, hall htake.taken ?_⟩
  · rw [Shm.take_cfg]
    dsimp only
    omega
  · -- whoever has this record would have it taken
    refine List.pairwise_append.mpr ⟨hok.apart, List.pairwise_singleton .., ?_⟩
    intro q hq r hr hseg heq
    rw [List.mem_singleton.mp hr] at hseg heq
    have hid : q.id = k := by
      rw [(hok.index q hq).1] at heq
      exact offset_strictMono.injective heq
    have htaken := hok.taken q hq
    rw [hseg, hid] at htaken
    exact hfree htaken
  · rw [Shm.take_cfg]
    exact ⟨rfl, hk⟩
  · rw [Shm.take, Shm.upd_seg, if_pos rfl, Seg.Taken]
    dsimp only
    rw [Function.update_self]
    exact Int.one_ne_zero

/-- The state in which a producer has given its record back. -/
def Shm.giveBack (w : Shm) (p : Producer) : Shm :=
  w.upd p.pool.seg { w.seg p.pool.seg with
    alive := Function.update (w.seg p.pool.seg).alive p.index
      (atomicSwap ((w.seg p.pool.seg).alive p.index) 1 0).2
    aliveProducers := (w.seg p.pool.seg).aliveProducers - 1 }

/-- **`ina_ullc_producer_free`** where no ring counts a producer: no magic goes. -/
theorem inaUllcProducerFree_eq {w : Shm} (hok : Ok w) {i : Nat} {p : Producer}
    (hi : w.live[i]? = some p) :
    w.inaUllcProducerFree i =
      (.freed, { (w.giveBack p).shmClose p.pool with live := w.live.eraseIdx i }) := by
  have hcount : ¬ (w.seg p.pool.seg).aliveProducers = 1 := by
    have hle := hok.count _ (hok.made p (List.mem_of_getElem? hi))
    omega
  simp only [Shm.inaUllcProducerFree, hi, if_neg hcount]
  rfl

/-- The others have other records. -/
theorem Placed.others {w : Shm} (hp : Placed w) {i : Nat} {p : Producer} (hi : w.live[i]? = some p)
    {q : Producer} (hq : q ∈ w.live.eraseIdx i) : q.pool.seg = p.pool.seg → q.index ≠ p.index := by
  obtain ⟨j, hne, hj⟩ := List.mem_eraseIdx_iff_getElem?.mp hq
  obtain ⟨hilt, rfl⟩ := List.getElem?_eq_some_iff.mp hi
  obtain ⟨hjlt, rfl⟩ := List.getElem?_eq_some_iff.mp hj
  intro hseg
  rcases Nat.lt_or_gt_of_ne hne with hlt | hlt
  · exact List.pairwise_iff_getElem.mp hp.apart j i hjlt hilt hlt hseg
  · exact (List.pairwise_iff_getElem.mp hp.apart i j hilt hjlt hlt hseg.symm).symm

/-- Nothing but `alive` and the count is changed, and the count goes down. -/
theorem Shm.giveBack_frame (w : Shm) (p : Producer) (s : Nat) :
    ∃ a n, (w.giveBack p).seg s = { w.seg s with alive := a, aliveProducers := n } ∧
      n ≤ (w.seg s).aliveProducers := by
  rw [Shm.giveBack, Shm.upd_seg]
  split
  · rename_i heq
    rw [heq]
    exact ⟨_, _, rfl, Int.sub_le_self _ Int.one_nonneg⟩
  · exact ⟨_, _, rfl, Int.le_refl _⟩

theorem Ok.free {w : Shm} (hok : Ok w) {i : Nat} {p : Producer} (hi : w.live[i]? = some p) :
    Ok { (w.giveBack p).shmClose p.pool with live := w.live.eraseIdx i } := by
  have hclose := sameRings_shmClose (w.giveBack p) p.pool
  have hmem : ∀ q ∈ w.live.eraseIdx i, q ∈ w.live := fun q hq => List.mem_of_mem_eraseIdx hq
  have hcfg : ∀ s, (((w.giveBack p).shmClose p.pool).seg s).cfg = (w.seg s).cfg := by
    intro s
    obtain ⟨a, n, heq, -⟩ := w.giveBack_frame p s
    rw [hclose.cfg, heq]
  refine ⟨⟨?_, hok.apart.sublist (List.eraseIdx_sublist ..)⟩, ?_, ?_, ?_, ?_, ?_, ?_⟩
  · intro q hq
    dsimp only
    rw [hcfg]
    exact hok.inside q (hmem q hq)
  · exact fun s hs => hok.linked s (hclose.linked s hs)
  · intro s hs
    obtain ⟨a, n, heq, -⟩ := w.giveBack_frame p s
    dsimp only
    rw [hclose.magic, heq]
    exact hok.magic s hs
  · intro s hs
    obtain ⟨a, n, heq, hle⟩ := w.giveBack_frame p s
    dsimp only
    rw [hclose.count, heq]
    exact Int.le_trans hle (hok.count s hs)
  · exact fun q hq => hok.made q (hmem q hq)
  · intro q hq
    dsimp only
    rw [hcfg]
    exact hok.index q (hmem q hq)
  · -- the record that is free now is nobody else's
    intro q hq
    have hother := hok.toPlaced.others hi hq
    have htaken := hok.taken q (hmem q hq)
    rw [(hok.index q (hmem q hq)).1] at hother
    rw [Seg.Taken] at htaken ⊢
    dsimp only
    rw [hclose.alive, Shm.giveBack, Shm.upd_seg]
    split
    · rename_i heq
      dsimp only
      rw [Function.update_of_ne (hother heq), ← heq]
      exact htaken
    · exact htaken

/-! ## How many there can be

Ids are numbers below the number of producers, and live producers have different ones. So it is a
question of counting. -/

/-- A ring has as many producers as it can have exactly when the record of every id is somebody's. -/
theorem Ok.full_iff {w : Shm} (hok : Ok w) (s : Nat) :
    (w.on s).length = (w.seg s).cfg.numProducers.toNat ↔
      ∀ k < (w.seg s).cfg.numProducers.toNat, ∃ p ∈ w.live, p.pool.seg = s ∧ p.index = offset k := by
  have hon : ∀ p, p ∈ w.on s ↔ p ∈ w.live ∧ p.pool.seg = s := by
    intro p
    rw [Shm.on, List.mem_filter, decide_eq_true_eq]
  -- Two producers on one ring have different records, so they have different ids.
  have hids : ((w.on s).map Producer.id).Nodup := by
    rw [List.Nodup, List.pairwise_map]
    refine (hok.apart.sublist List.filter_sublist).imp_of_mem ?_
    intro p q hp hq hne heq
    obtain ⟨hpl, hps⟩ := (hon p).mp hp
    obtain ⟨hql, hqs⟩ := (hon q).mp hq
    refine hne (hps.trans hqs.symm) ?_
    rw [(hok.index p hpl).1, (hok.index q hql).1, heq]
  have hsub : ((w.on s).map Producer.id).toFinset ⊆
      Finset.range (w.seg s).cfg.numProducers.toNat := by
    intro k hk
    obtain ⟨p, hp, rfl⟩ := List.mem_map.mp (List.mem_toFinset.mp hk)
    obtain ⟨hpl, hps⟩ := (hon p).mp hp
    rw [Finset.mem_range, ← hps]
    exact (hok.index p hpl).2
  have hcard : ((w.on s).map Producer.id).toFinset.card = (w.on s).length := by
    rw [List.toFinset_card_of_nodup hids, List.length_map]
  generalize (w.seg s).cfg.numProducers.toNat = n at hsub ⊢
  constructor
  · intro hlen k hk
    -- As many different ids below the bound as there can be: all of them.
    have hall := Finset.eq_of_subset_of_card_le hsub (by rw [Finset.card_range, hcard, hlen])
    rw [← Finset.mem_range, ← hall] at hk
    obtain ⟨p, hp, rfl⟩ := List.mem_map.mp (List.mem_toFinset.mp hk)
    obtain ⟨hpl, hps⟩ := (hon p).mp hp
    exact ⟨p, hpl, hps, (hok.index p hpl).1⟩
  · intro hall
    have hle := Finset.card_le_card hsub
    have hge : Finset.range n ⊆ ((w.on s).map Producer.id).toFinset := by
      intro k hk
      obtain ⟨p, hpl, hps, hindex⟩ := hall k (Finset.mem_range.mp hk)
      have hid : p.id = k := by
        rw [(hok.index p hpl).1] at hindex
        exact offset_strictMono.injective hindex
      exact List.mem_toFinset.mpr (List.mem_map.mpr ⟨p, (hon p).mpr ⟨hpl, hps⟩, hid⟩)
    have hcards := Finset.card_le_card hge
    rw [Finset.card_range, hcard] at hcards hle
    omega

/-! ## One call

A call is turned away early, or finds a ring of other parameters, or walks. -/

/-- A call that is turned away before it opens the ring. -/
theorem inaUllcProducerNew_early {c : Cfg} (hc : ¬ (c.Valid ∧ c.size % 2 = 0)) (w : Shm)
    (sem : Bool) : ∃ e, e ≠ Err.limitExceeded ∧ w.inaUllcProducerNew c sem = (.failed e, w) := by
  rw [Shm.inaUllcProducerNew]
  by_cases hv : c.Valid
  · have hodd : c.size % 2 ≠ 0 := fun heven => hc ⟨hv, heven⟩
    have hcreate : ∀ excl, w.ringCreate c excl = (.error (.memoryNotAligned, none), w) :=
      fun excl => if_pos hodd
    rw [if_neg (not_not.mpr hv), hcreate]
    dsimp only
    rw [hcreate]
    exact ⟨_, by decide, rfl⟩
  · rw [if_pos hv]
    exact ⟨_, by decide, rfl⟩

/-- On a new ring the first id is free. -/
theorem found_none_free {w : Shm} (hlinked : w.linked = none) (c : Cfg) (k : Nat) :
    ¬ ((w.found c).2.seg (w.found c).1.seg).Taken k := by
  obtain ⟨hpool, -, -, -, -, hnew⟩ := found_none hlinked c
  rw [hpool, hnew]
  exact fun hc => hc rfl

/-- A ring that is there is found as it is. -/
theorem found_some {w : Shm} {s : Nat} (hlinked : w.linked = some s) (c : Cfg) :
    ((w.found c).2.seg (w.found c).1.seg).cfg = (w.seg s).cfg ∧
      ∀ k, ((w.found c).2.seg (w.found c).1.seg).Taken k ↔ (w.seg s).Taken k := by
  have hsame : SameRings w (w.found c).2 := by
    rw [Shm.found, hlinked]
    exact sameRings_refs w s _
  have hpool : (w.found c).1 = ⟨s, false⟩ := by rw [Shm.found, hlinked]
  rw [hpool]
  refine ⟨hsame.cfg s, fun k => ?_⟩
  rw [Seg.Taken, Seg.Taken, hsame.alive]

section
variable {w : Shm} {c : Cfg} (hv : c.Valid) (heven : c.size % 2 = 0)
include hv heven

/-- If all records are taken and the call does not misplace, every record is somebody's. -/
theorem Ok.full_of_taken (hok : Ok w) {sem : Bool} (hno : ¬ Misplaces w (.producerNew c sem))
    (hcfg : ((w.found c).2.seg (w.found c).1.seg).cfg = c)
    (hall : ∀ k < c.numProducers.toNat, ((w.found c).2.seg (w.found c).1.seg).Taken k) :
    ∃ s, w.linked = some s ∧ (w.on s).length = (w.seg s).cfg.numProducers := by
  have hpos := hv.2.2.2.1
  cases hlinked : w.linked with
  | none => exact absurd (hall 0 (by omega)) (found_none_free hlinked c 0)
  | some s =>
    obtain ⟨hcfgs, htaken⟩ := found_some hlinked c
    rw [hcfg] at hcfgs
    have hheld : ∀ k < c.numProducers.toNat, ∃ p ∈ w.live, p.pool.seg = s ∧ p.index = offset k := by
      intro k hk
      by_contra hc
      refine hno ⟨c, sem, s, rfl, hv, heven, hlinked, hcfgs.symm, Or.inr ⟨?_, k, hk, ?_⟩⟩
      · exact fun j hj => (htaken j).mp (hall j hj)
      · exact fun p hp hseg hindex => hc ⟨p, hp, hseg, hindex⟩
    have hlen := (hok.full_iff s).mpr (by rw [← hcfgs]; exact hheld)
    refine ⟨s, rfl, ?_⟩
    rw [hlen, ← hcfgs]
    omega

/-- A call that does not misplace and gets its semaphore has the first free record among those of
    the ring. -/
theorem offset_lt_of_not_misplaces (hno : ¬ Misplaces w (.producerNew c true))
    (hcfg : ((w.found c).2.seg (w.found c).1.seg).cfg = c) {k : Nat} (hk : k < c.numProducers.toNat)
    (hfree : ¬ ((w.found c).2.seg (w.found c).1.seg).Taken k)
    (hall : ∀ j < k, ((w.found c).2.seg (w.found c).1.seg).Taken j) :
    offset k < c.numProducers.toNat := by
  by_contra hge
  cases hlinked : w.linked with
  | none =>
    have hzero : k = 0 := by
      by_contra hk0
      exact found_none_free hlinked c 0 (hall 0 (Nat.pos_of_ne_zero hk0))
    rw [hzero] at hge hk
    exact hge hk
  | some s =>
    obtain ⟨hcfgs, htaken⟩ := found_some hlinked c
    rw [hcfg] at hcfgs
    refine hno ⟨c, true, s, rfl, hv, heven, hlinked, hcfgs.symm,
      Or.inl ⟨rfl, k, hk, fun hc => hfree ((htaken k).mpr hc), ?_, Nat.not_lt.mp hge⟩⟩
    exact fun j hj => (htaken j).mp (hall j hj)

end

/-- **A call that misplaces nothing** leaves the records in place, and is refused one only by a full
    ring. -/
theorem Ok.producerNew {w : Shm} (hok : Ok w) {c : Cfg} {sem : Bool}
    (hno : ¬ Misplaces w (.producerNew c sem)) :
    Ok (w.inaUllcProducerNew c sem).2 ∧
      ((w.inaUllcProducerNew c sem).1 = .failed .limitExceeded →
        ∃ s, w.linked = some s ∧ (w.on s).length = (w.seg s).cfg.numProducers) := by
  by_cases hearly : c.Valid ∧ c.size % 2 = 0
  · obtain ⟨hv, heven⟩ := hearly
    have hmagic := fun s hs => hok.magic s (hok.linked s hs)
    obtain ⟨hfound, hmade⟩ := hok.found c
    rw [inaUllcProducerNew_eq hmagic hv heven sem]
    by_cases hcfg : ((w.found c).2.seg (w.found c).1.seg).cfg = c
    · rw [if_pos hcfg]
      -- The walk finds no free record, or the first that is free.
      rcases register_cases (w.found c).2 (w.found c).1 hcfg sem with
        ⟨heq, hall⟩ | ⟨k, hk, hfree, hall, heq⟩
      · rw [heq]
        exact ⟨hfound.sameRings (sameRings_shmClose ..),
          fun _ => hok.full_of_taken hv heven hno hcfg hall⟩
      · rw [heq]
        cases sem with
        -- The semaphore is refused: the record is taken, and the mapping goes.
        | false =>
          exact ⟨(hfound.take _ k).sameRings (sameRings_shmClose ..), fun hc => nomatch hc⟩
        | true =>
          have hin := offset_lt_of_not_misplaces hv heven hno hcfg hk hfree hall
          rw [← hcfg] at hk hin
          exact ⟨hfound.opened hmade hk hin hfree, fun hc => nomatch hc⟩
    · rw [if_neg hcfg]
      exact ⟨hfound.sameRings (sameRings_shmClose ..), fun hc => nomatch hc⟩
  · obtain ⟨e, hne, heq⟩ := inaUllcProducerNew_early hearly w sem
    rw [heq]
    exact ⟨hok, fun hc => absurd (Answer.failed.inj hc) hne⟩

theorem Ok.producerFree {w : Shm} (hok : Ok w) (i : Nat) :
    Ok (w.inaUllcProducerFree i).2 ∧ (w.inaUllcProducerFree i).1 = .freed := by
  cases hi : w.live[i]? with
  | none =>
    rw [Shm.inaUllcProducerFree, hi]
    exact ⟨hok, rfl⟩
  | some p =>
    rw [inaUllcProducerFree_eq hok hi]
    exact ⟨hok.free hi, rfl⟩

theorem Ok.step {w : Shm} (hok : Ok w) {r : Req} (hno : ¬ Misplaces w r) :
    Registers w r ∧ Ok (w.step r).2 := by
  cases r with
  | producerNew c sem =>
    obtain ⟨hok', hfull⟩ := hok.producerNew hno
    exact ⟨⟨hok'.toPlaced, hfull⟩, hok'⟩
  | producerFree i =>
    obtain ⟨hok', hfreed⟩ := hok.producerFree i
    refine ⟨⟨hok'.toPlaced, fun hc => ?_⟩, hok'⟩
    cases hfreed.symm.trans hc

/-- **A call that misplaces** puts a record behind the last one, or is refused one by a ring that
    has fewer producers than it can have. -/
theorem Ok.not_registers {w : Shm} (hok : Ok w) {r : Req} (hbad : Misplaces w r) :
    ¬ Registers w r := by
  obtain ⟨c, sem, s, rfl, hv, heven, hlinked, hcfg, hbad⟩ := hbad
  obtain ⟨hcfgs, htaken⟩ := found_some hlinked c
  have hmagic := fun s hs => hok.magic s (hok.linked s hs)
  have hring : ((w.found c).2.seg (w.found c).1.seg).cfg = c := hcfgs.trans hcfg
  rintro ⟨hplaced, hfull⟩
  rw [Shm.step, inaUllcProducerNew_eq hmagic hv heven sem, if_pos hring] at hplaced hfull
  rcases register_cases (w.found c).2 (w.found c).1 hring sem with
    ⟨heq, hall⟩ | ⟨j, hj, hfree, hbefore, heq⟩
  · rw [heq] at hfull
    -- All records were taken, one of them by nobody.
    rcases hbad with ⟨-, k, hk, hnot, -⟩ | ⟨-, k, hk, hnobody⟩
    · exact hnot ((htaken k).mp (hall k hk))
    · obtain ⟨s', hs', hlen⟩ := hfull rfl
      obtain rfl := Option.some.inj (hlinked.symm.trans hs')
      have hpos := hv.2.2.2.1
      obtain ⟨p, hp, hps, hindex⟩ := (hok.full_iff s).mp (by rw [hcfg] at hlen ⊢; omega) k
        (by rw [hcfg]; exact hk)
      exact hnobody p hp hps hindex
  · rcases hbad with ⟨rfl, k, hk, hnot, hpass, hbehind⟩ | ⟨hall, -⟩
    · -- The walk stops at the same id, whose record is behind the last.
      have hsame : j = k := by
        rcases Nat.lt_trichotomy j k with hlt | heq | hlt
        · exact absurd ((htaken j).mpr (hpass j hlt)) hfree
        · exact heq
        · exact absurd ((htaken k).mp (hbefore k hlt)) hnot
      rw [heq, if_pos rfl] at hplaced
      have hinside := hplaced.inside ⟨(w.found c).1, j, offset j⟩
        (List.mem_append_right _ (List.mem_singleton.mpr rfl))
      dsimp only at hinside
      rw [Shm.take_cfg, hring, hsame] at hinside
      omega
    · exact hfree ((htaken j).mpr (hall j hj))

/-! ## Runs

The condition is about the state before a call. In the runs that do not meet it all records stay in
place. -/

/-- **Records are in place exactly as long as no call misplaces.** For every sequence of producers
    opened and freed under one name, whatever they say of the ring: after each call every producer
    has a record of its own among those of its ring, and a call is refused one only by a full ring,
    if and only if no call meets a ring whose first free id has its record behind the last one, or
    one with all records taken and one of them by nobody. -/
theorem registers_iff_never_misplaces (rs : List Req) :
    Along Shm.step Registers Shm.init rs ↔ Never Shm.step Misplaces Shm.init rs :=
  along_iff_never (I := Ok) (C := fun _ _ => True) (fun _ _ _ hno hok => (hok.step hno).2)
    (fun _ _ _ hok => ⟨fun hreg hbad => hok.not_registers hbad hreg, fun hno => (hok.step hno).1⟩)
    (along_iff_forall.mpr fun _ _ => trivial) Ok.init

/-- Three producers of three: the third has its record behind the last. And two producers of two of
    which the second gets no semaphore: its record stays taken, and the next is refused. -/
theorem third_record_behind :
    ¬ Along Shm.step Registers Shm.init
        (List.replicate 3 (.producerNew ⟨1, 8, 4, 3, 1⟩ true)) ∧
      ¬ Along Shm.step Registers Shm.init
        [.producerNew ⟨1, 8, 4, 2, 1⟩ true, .producerNew ⟨1, 8, 4, 2, 1⟩ false,
          .producerNew ⟨1, 8, 4, 2, 1⟩ true] := by
  constructor
  · rintro ⟨-, -, ⟨hplaced, -⟩, -⟩
    have hinside := hplaced.inside ⟨⟨0, false⟩, 2, 3⟩ (by decide)
    exact absurd hinside (by decide)
  · rintro ⟨-, -, ⟨-, hfull⟩, -⟩
    obtain ⟨s, hs, hlen⟩ := hfull (by decide)
    obtain rfl := Option.some.inj (hs.symm.trans (show _ = some 0 by decide))
    exact absurd hlen (by decide)

/-! ## The count of producers

`alive_producers` is set to 0 with the rest of the header and counted down by every
`ina_ullc_producer_free`. Nothing counts it up. -/

/-- Every ring counts its producers. -/
def Counted (w : Shm) : Prop := ∀ s < w.made, (w.seg s).aliveProducers = (w.on s).length

/-- What is asked of a call: the counts are right after it, and a ring loses its magic exactly when
    its last producer is freed. -/
def Counts (w : Shm) (r : Req) : Prop :=
  Counted (w.step r).2 ∧
    ∀ s < w.made, ((w.seg s).magic = magicHdr ∧ ((w.step r).2.seg s).magic ≠ magicHdr) ↔
      ∃ i p, r = .producerFree i ∧ w.live[i]? = some p ∧ p.pool.seg = s ∧ (w.on s).length = 1

/-- A call with arguments that are valid, slots of an even size, and a semaphore. -/
def Opens (r : Req) : Prop := ∃ c, r = .producerNew c true ∧ c.Valid ∧ c.size % 2 = 0

/-- Nobody has opened a ring: those there were have lost their name at once. -/
structure Unopened (w : Shm) : Prop where
  live : w.live = []
  linked : w.linked = none
  count : ∀ s < w.made, (w.seg s).aliveProducers = 0

theorem Unopened.counted {w : Shm} (hw : Unopened w) : Counted w := by
  intro s hs
  rw [hw.count s hs, Shm.on, hw.live]
  rfl

/-- **The first producer of a ring** gets the first record, and is not counted. -/
theorem Unopened.new {w : Shm} (hw : Unopened w) {c : Cfg} (hv : c.Valid) (heven : c.size % 2 = 0)
    (sem : Bool) :
    w.inaUllcProducerNew c sem =
      if sem then
        (.opened ⟨⟨w.made, true⟩, 0, 0⟩,
          { (w.found c).2.take w.made 0 with live := [⟨⟨w.made, true⟩, 0, 0⟩] })
      else (.noContext, ((w.found c).2.take w.made 0).shmClose ⟨w.made, true⟩) := by
  have hmagic : ∀ s, w.linked = some s → (w.seg s).magic = magicHdr := by
    intro s hs
    rw [hw.linked] at hs
    cases hs
  obtain ⟨hpool, -, hlive, -, -, hring⟩ := found_none hw.linked c
  rw [hw.live] at hlive
  have hcfg : ((w.found c).2.seg (w.found c).1.seg).cfg = c := by
    rw [hpool, hring]
    rfl
  have hfree := found_none_free hw.linked c
  rw [inaUllcProducerNew_eq hmagic hv heven sem, if_pos hcfg]
  rcases register_cases (w.found c).2 (w.found c).1 hcfg sem with
    ⟨-, hall⟩ | ⟨k, -, -, hbefore, heq⟩
  · have hpos := hv.2.2.2.1
    exact absurd (hall 0 (by omega)) (hfree 0)
  · -- The ring is new, so its first record is free.
    have hzero : k = 0 := by
      by_contra hk
      exact hfree 0 (hbefore 0 (Nat.pos_of_ne_zero hk))
    rw [heq, hzero, hpool, hlive]
    rfl

theorem Unopened.step {w : Shm} (hw : Unopened w) {r : Req} (hr : ¬ Opens r) :
    Counts w r ∧ Unopened (w.step r).2 := by
  -- where the rings are as they were there is nobody to free either
  have hsame : Unopened (w.step r).2 → (∀ s < w.made, ((w.step r).2.seg s).magic = (w.seg s).magic) →
      Counts w r ∧ Unopened (w.step r).2 := by
    intro hnext hmagic
    refine ⟨⟨hnext.counted, fun s hs => ⟨?_, ?_⟩⟩, hnext⟩
    · rintro ⟨hbefore, hafter⟩
      rw [hmagic s hs] at hafter
      exact absurd hbefore hafter
    · rintro ⟨i, p, -, hi, -⟩
      rw [hw.live] at hi
      cases hi
  cases r with
  | producerFree i =>
    have heq : w.step (.producerFree i) = (.freed, w) := by
      rw [Shm.step, Shm.inaUllcProducerFree, hw.live]
      rfl
    rw [heq] at hsame ⊢
    exact hsame hw fun _ _ => rfl
  | producerNew c sem =>
    by_cases hearly : c.Valid ∧ c.size % 2 = 0
    · obtain ⟨hv, heven⟩ := hearly
      have hsem : sem = false := Bool.eq_false_iff.mpr fun htrue =>
        hr ⟨c, by rw [htrue], hv, heven⟩
      have hnew : w.step (.producerNew c sem) =
          (.noContext, ((w.found c).2.take w.made 0).shmClose ⟨w.made, true⟩) := by
        rw [Shm.step, hw.new hv heven sem, hsem, if_neg Bool.noConfusion]
      have hclose := sameRings_shmClose ((w.found c).2.take w.made 0) ⟨w.made, true⟩
      obtain ⟨-, hmade, hlive, -, hold, -⟩ := found_none hw.linked c
      rw [hnew] at hsame ⊢
      refine hsame ⟨?_, if_pos (Or.inr rfl), ?_⟩ ?_
      · rw [hclose.live]
        exact hlive.trans hw.live
      · intro s hs
        rw [hclose.made] at hs
        obtain ⟨a, heq⟩ := (w.found c).2.take_frame w.made 0 s
        rw [hclose.count, heq]
        exact found_none_all (P := fun g => g.aliveProducers = 0) hw.linked rfl hw.count s
          (Nat.lt_of_lt_of_eq hs hmade)
      · intro s hs
        obtain ⟨a, heq⟩ := (w.found c).2.take_frame w.made 0 s
        rw [hclose.magic, heq, hold s hs]
    · obtain ⟨e, -, heq⟩ := inaUllcProducerNew_early hearly w sem
      have hstep : w.step (.producerNew c sem) = (.failed e, w) := heq
      rw [hstep] at hsame ⊢
      exact hsame hw fun _ _ => rfl

theorem Unopened.not_counts {w : Shm} (hw : Unopened w) {r : Req} (hr : Opens r) :
    ¬ Counts w r := by
  obtain ⟨c, rfl, hv, heven⟩ := hr
  obtain ⟨-, hmade, -, -, -, hring⟩ := found_none hw.linked c
  rintro ⟨hcounted, -⟩
  rw [Shm.step, hw.new hv heven true, if_pos rfl] at hcounted
  have hone := hcounted w.made (Nat.lt_of_lt_of_eq (Nat.lt_succ_self _) hmade.symm)
  obtain ⟨a, heq⟩ := (w.found c).2.take_frame w.made 0 w.made
  dsimp only at hone
  rw [heq, hring, Shm.on] at hone
  simp [Seg.initialise] at hone

/-- **The count is right exactly as long as nobody opens a ring.** For every sequence of producers
    opened and freed under one name: `alive_producers` is the number of producers after every call,
    and a ring loses its magic exactly when its last producer is freed, if and only if no call of
    the sequence opens a producer. -/
theorem counts_iff_never_opened (rs : List Req) :
    Along Shm.step Counts Shm.init rs ↔ ∀ r ∈ rs, ¬ Opens r := by
  have hinit : Unopened Shm.init := ⟨rfl, rfl, fun s hs => absurd hs (Nat.not_lt_zero s)⟩
  have hnever : Along Shm.step Counts Shm.init rs ↔
      Never Shm.step (fun _ r => Opens r) Shm.init rs :=
    along_iff_never (I := Unopened) (C := fun _ _ => True) (fun _ _ _ hno hw => (hw.step hno).2)
      (fun _ _ _ hw => ⟨fun hcounts hr => hw.not_counts hr hcounts, fun hno => (hw.step hno).1⟩)
      (along_iff_forall.mpr fun _ _ => trivial) hinit
  exact hnever.trans never_iff_forall

/-- One producer: the count is 0 while it lives and -1 when it is freed, and the magic stays. -/
theorem one_producer_uncounted :
    (Shm.init.step (.producerNew ⟨1, 8, 4, 1, 1⟩ true)).2.live.length = 1 ∧
      ((Shm.init.step (.producerNew ⟨1, 8, 4, 1, 1⟩ true)).2.seg 0).aliveProducers = 0 ∧
      ((exec Shm.step Shm.init [.producerNew ⟨1, 8, 4, 1, 1⟩ true, .producerFree 0]).seg
        0).aliveProducers = -1 ∧
      ((exec Shm.step Shm.init [.producerNew ⟨1, 8, 4, 1, 1⟩ true, .producerFree 0]).seg
        0).magic = magicHdr ∧
      ¬ Along Shm.step Counts Shm.init [.producerNew ⟨1, 8, 4, 1, 1⟩ true, .producerFree 0] := by
  refine ⟨by decide, by decide, by decide, by decide, ?_⟩
  rintro ⟨⟨hcounted, -⟩, -⟩
  exact absurd (hcounted 0 (by decide)) (by decide)

end Ullc
end Inac
