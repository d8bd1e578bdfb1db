import Inac.Lib.Bins
import Inac.Mempool.Align
import Inac.Mempool.Chain

/-!
# A pool used again after `ina_mempool_reset`

A dynamic pool that only `dalloc` is called on is a row of bins: its chunks form one chain in the
order of their allocation, and `current` only moves along it. A `reset` rewinds the row, so the
same requests find the chunks the first run made for them, and get the same blocks.

There are three ways for this to fail. A shared pool's first block stands behind the reference
count, and `reset` puts `pos` in front of it. A request that is refused in a pool with zero filling
stores through `NULL`. And a request that is refused leaves `current` on the last chunk, which in
the second run is past chunks that the first run made later. `Repeatable` says that none of these
happens, and that is exact.

A pool of bins (`Inac.Lib.Bins`) is filled by taking the first bin with room from the current one
on, or a new one behind the last. There it is a question of numbers whether a second filling gives
the same places, and `Fills` carries the answer over: the chunks of the pool are the bins, in the
order in which they were made.
-/

namespace Inac
namespace Mempool

open Lib

/-! ## Runs of `dalloc` -/

/-- One request: a size and an alignment. -/
def dallocStep (E : Env) (s : Option Heap) (r : Nat × Nat) : Ret × Option Heap :=
  allocStep E s (.dalloc r.1 r.2)

/-- `ina_mempool_reset`, some number of times. -/
def resets : Nat → Heap → Option Heap
  | 0, h => some h
  | k + 1, h => (inaMempoolReset h 0).bind (resets k)

/-- The requests, `reset` once or more, and the requests again: all of it returns, the answers are
    the same, no chunk is made, and `info` reports the same. -/
def Replayed (E : Env) (h : Heap) (reqs : List (Nat × Nat)) (k : Nat) : Prop :=
  ∃ h₁ h₂ h₃,
    exec (dallocStep E) (some h) reqs = some h₁ ∧
    resets (k + 1) h₁ = some h₂ ∧
    exec (dallocStep E) (some h₂) reqs = some h₃ ∧
    outs (dallocStep E) (some h₂) reqs = outs (dallocStep E) (some h) reqs ∧
    h₃.count = h₁.count ∧
    inaMempoolInfo h₃ 0 = inaMempoolInfo h₁ 0

/-! ## The condition -/

/-- The bytes a request takes. -/
def bytes (reqs : List (Nat × Nat)) : List Nat := reqs.map fun r => memAlignN r.1 r.2

/-- A new pool, as a row of bins. -/
def Pool.bins (p : Pool) : Bins := ⟨1, fun _ => p.size, fun _ => 0, 0⟩

/-- The chunk that is to be had for a request. -/
def Env.make (E : Env) (p : Pool) (n : Nat) : Option Nat :=
  if E.Grants p n then some (chunkEnd p n) else none

/-- The request is refused, by a store through `NULL`. -/
def Env.Downs (E : Env) (p : Pool) (b : Bins) (n : Nat) : Prop :=
  b.Refuses (E.make p) n ∧ E.Faults (chunkSize p n) p.cf

instance (E : Env) (p : Pool) (b : Bins) (n : Nat) : Decidable (E.Downs p b n) :=
  inferInstanceAs (Decidable (_ ∧ _))

/-- The pool is not shared, no request of the first run is refused by a store through `NULL`, and
    those refused otherwise are bearable: no chunk is made after one, or just one, too small for it
    and made by the next request that is not refused. -/
structure Repeatable (E : Env) (p : Pool) (reqs : List (Nat × Nat)) : Prop where
  notShared : p.cf &&& memShared = 0
  stays : Never (Bins.take (E.make p)) (E.Downs p) p.bins (bytes reqs)
  bears : Bins.Bearable (E.make p) (exec (Bins.take (E.make p)) p.bins (bytes reqs)) p.bins
    (bytes reqs)

/-! ## One chain of all structures

`Row`: the child of each structure is the one that was made next. A `dalloc` adds chunks at the end
only, and a `reset` leaves the links alone. -/

/-- The structures form one chain, in the order of their allocation. -/
structure Heap.Row (h : Heap) : Prop where
  linked : h.Linked
  root : 0 < h.count
  child : ∀ i < h.count, h.child i = if i + 1 < h.count then some (i + 1) else none

/-- The structures in a row are visited one after the other. -/
theorem Heap.Row.visits {h : Heap} (hr : h.Row) :
    ∀ (k : Nat) {i : Nat}, i + k = h.count → 0 < k → Visits h.child (some i) (List.range' i k) := by
  intro k
  induction k with
  | zero => intro i _ hk; exact absurd hk (Nat.lt_irrefl 0)
  | succ k ih =>
    intro i hi _
    rw [List.range'_succ]
    refine .node i _ ?_
    rw [hr.child i (by omega)]
    by_cases hk : 0 < k
    · rw [if_pos (by omega)]
      exact ih (by omega) hk
    · obtain rfl : k = 0 := by omega
      rw [if_neg (by omega)]
      exact .null

theorem Heap.Row.all {h : Heap} (hr : h.Row) : h.IsChain 0 (List.range' 0 h.count) :=
  ⟨hr.visits h.count (Nat.zero_add _) hr.root, fun i hi => by
    have := (List.mem_range'_1.mp hi).2
    omega⟩

theorem Heap.Row.current {h : Heap} (hr : h.Row) : (h.pool 0).current < h.count :=
  hr.linked.current 0 hr.root

/-- A dynamic pool looks at all of them from the current one on. -/
theorem Heap.Row.candidates {h : Heap} (hr : h.Row) (hdyn : (h.pool 0).cf &&& memDynamic ≠ 0) :
    h.candidates 0 =
      List.range' (h.pool 0).current (h.count - (h.pool 0).current) := by
  have hcur := hr.current
  have hv := hr.visits (h.count - (h.pool 0).current) (i := (h.pool 0).current) (by omega)
    (by omega)
  rw [Heap.candidates, if_pos hdyn]
  exact Heap.chain_visits hv (by rw [List.length_range']; omega)

/-- The chunk a dynamic pool grows behind is the last one. -/
theorem Heap.Row.last {h : Heap} (hr : h.Row) (hdyn : (h.pool 0).cf &&& memDynamic ≠ 0) {z : Nat}
    (hz : (h.candidates 0).getLast? = some z) : z + 1 = h.count := by
  have hcur := hr.current
  rw [hr.candidates hdyn, List.getLast?_range', if_neg (by omega)] at hz
  have := Option.some.inj hz
  omega

theorem Heap.Row.congr {h h' : Heap} (hr : h.Row) (hl : h'.Linked) (hcount : h'.count = h.count)
    (hchild : h'.child = h.child) : h'.Row :=
  ⟨hl, by rw [hcount]; exact hr.root, fun i hi => by
    rw [hcount] at hi ⊢
    rw [hchild]
    exact hr.child i hi⟩

/-- A structure that is added comes last in the row. -/
theorem Added.row {h h' : Heap} {n z : Nat} (hr : h.Row) (hz : z + 1 = h.count)
    (hadd : Added (h.setCurrent 0 z) 0 n h') : h'.Row := by
  have hlt : z < h.count := by omega
  have hcur : ((h.setCurrent 0 z).pool 0).current = z := by
    rw [Heap.setCurrent_pool, if_pos rfl]
  have hcount : h'.count = h.count + 1 := hadd.count
  refine ⟨hadd.linked (hr.linked.setCurrent 0 hlt), by omega, fun i hi => ?_⟩
  rw [hcount] at hi ⊢
  rcases Nat.lt_succ_iff_lt_or_eq.mp hi with hi | rfl
  · have hold := congrArg Pool.child (hadd.old i hi)
    rw [hcur, Heap.setCurrent_pool] at hold
    rw [Heap.child, hold, if_pos (Nat.succ_lt_succ hi)]
    by_cases hlast : i = z
    · rw [if_pos hlast, hlast, hz]
      rfl
    · rw [if_neg hlast]
      have hchild := hr.child i hi
      rw [if_pos (by omega)] at hchild
      exact hchild
  · rw [if_neg (Nat.lt_irrefl _)]
    exact hadd.child

/-- **A `dalloc`** leaves one chain, and the root's flags and size. -/
theorem Env.Dallocs.row {E : Env} {h : Heap} {n : Nat} {r : Ret × Heap} (hd : E.Dallocs h 0 n r)
    (hr : h.Row) :
    r.2.Row ∧ (r.2.pool 0).cf = (h.pool 0).cf ∧ (r.2.pool 0).size = (h.pool 0).size := by
  have hl := (hd.linked hr.linked).1
  cases hd with
  | served c hroom hc =>
    refine ⟨hr.congr hl rfl ?_, ?_, ?_⟩
    · rw [Heap.modify_child rfl, Heap.setCurrent_child]
    · simp only [Heap.modify_pool, Heap.setCurrent_pool]
      split <;> rfl
    · simp only [Heap.modify_pool, Heap.setCurrent_pool]
      split <;> rfl
  | grown z h' hfull hdyn hgrant hz hlt hadd =>
    have hrow : h'.Row := hadd.row hr (hr.last hdyn hz)
    have hroot : 0 ≠ h.count := Nat.ne_of_lt hr.root
    dsimp only at hl ⊢
    refine ⟨hrow.congr hl rfl (Heap.modify_child rfl), ?_, ?_⟩
    all_goals rw [Heap.modify_pool_ne _ _ hroot, hadd.old 0 hr.root, Heap.setCurrent_pool]
  | refused z hfull hdyn hgrant hz hlt =>
    dsimp only at hl ⊢
    refine ⟨hr.congr hl rfl (Heap.setCurrent_child ..), ?_, ?_⟩
    all_goals rw [Heap.setCurrent_pool]
  | full hfull hfix => exact ⟨hr, rfl, rfl⟩

/-! ## Pools as rows of bins

One request to the pool is one to the bins (`Fills.take`), with the place as the answer. -/

/-- A chunk is a bin of this capacity, with this much taken from its front and nothing from its
    back. -/
structure Pool.IsBin (q : Pool) (cap used : Nat) : Prop where
  ok : q.Ok
  whole : q.endPos = q.size
  cap : cap = q.endPos
  used : used = q.pos

/-- The heap of a pool like `p` that is not shared, and the bins. -/
structure Fills (p : Pool) (h : Heap) (b : Bins) : Prop where
  row : h.Row
  flags : (h.pool 0).cf = p.cf
  size : (h.pool 0).size = p.size
  len : b.len = h.count
  cur : b.cur = (h.pool 0).current
  bin : ∀ i < h.count, (h.pool i).IsBin (b.cap i) (b.used i)

/-- What `dalloc` returns when the row of bins gives this answer. -/
def Env.answer (E : Env) (p : Pool) (n : Nat) : Option (Nat × Nat) → Ret
  | some (c, off) => .ok ⟨c, off⟩
  | none => E.refusal p n

/-- What `dalloc` does to a row of bins. -/
def Env.takeBin (E : Env) (p : Pool) (b : Bins) (n : Nat) : Ret × Bins :=
  (E.answer p n (b.take (E.make p) n).1, (b.take (E.make p) n).2)

/-- The chunks there were, after a new one has served. -/
theorem grown_old {h h' : Heap} {n z i : Nat} (hadd : Added (h.setCurrent 0 z) 0 n h')
    (hi : i < h.count) :
    (h'.modify h.count fun q => { q with pos := addSz q.pos n }).pool i =
      { h.pool i with
        child := if i = z then some h.count else (h.pool i).child
        current := if i = 0 then h.count else (h.pool i).current } := by
  have hp0 : (h.setCurrent 0 z).pool 0 = { h.pool 0 with current := z } := by
    rw [Heap.setCurrent_pool]
    rfl
  rw [Heap.modify_pool_ne _ _ (Nat.ne_of_lt hi), hadd.old i hi, hp0, Heap.setCurrent_pool]
  by_cases h0 : i = 0
  · simp only [if_pos h0]
    rfl
  · simp only [if_neg h0]
    rfl

section Step

variable {E : Env} {p : Pool} {h : Heap} {b : Bins} (hf : Fills p h b)
include hf

theorem Fills.chunkSize (n : Nat) : chunkSize (h.pool 0) n = chunkSize p n := by
  simp only [Mempool.chunkSize, hf.flags, hf.size]

theorem Fills.chunkEnd (n : Nat) : chunkEnd (h.pool 0) n = chunkEnd p n := by
  simp only [Mempool.chunkEnd, hf.chunkSize, hf.flags]

theorem Fills.grants (n : Nat) : E.Grants (h.pool 0) n ↔ E.Grants p n := by
  simp only [Env.Grants, hf.chunkSize, hf.flags]

theorem Fills.refusal (n : Nat) : E.refusal (h.pool 0) n = E.refusal p n := by
  simp only [Env.refusal, hf.chunkSize, hf.flags]

/-- The test for room is that of the bins. -/
theorem Fills.fits {n : Nat} (hn : n < 2 ^ 64) {i : Nat} (hi : i < h.count) :
    ¬ (h.pool i).Full n ↔ b.Fits n i := by
  have hb := hf.bin i hi
  have hlt : (h.pool i).endPos < 2 ^ 64 := by
    have := hb.ok.size_lt
    have := hb.whole
    omega
  rw [Pool.full_iff n hb.ok.pos_le hlt hn, Bins.Fits, hb.used, hb.cap, Nat.not_lt]

/-- So the first structure with room is the first bin that fits. -/
theorem Fills.roomy (hdyn : p.cf &&& memDynamic ≠ 0) {n : Nat} (hn : n < 2 ^ 64) :
    h.roomy n (h.candidates 0) = b.find n := by
  rw [← hf.flags] at hdyn
  rw [hf.row.candidates hdyn, Heap.roomy, Bins.find, hf.cur, hf.len, ← List.head?_filter,
    ← List.head?_filter]
  congr 1
  refine List.filter_congr fun i hi => ?_
  have hcur := hf.row.current
  have hlt : i < h.count := by
    have := (List.mem_range'_1.mp hi).2
    omega
  simp only [hf.fits hn hlt]

/-- The chunk with room serves. -/
theorem Fills.put {n c : Nat} (hc : c < h.count) (hfit : b.Fits n c) :
    Fills p ((h.setCurrent 0 c).modify c fun q => { q with pos := addSz q.pos n }) (b.put c n) := by
  have hb := hf.bin c hc
  have hroom : (h.pool c).pos + n ≤ (h.pool c).endPos := by
    rw [← hb.used, ← hb.cap]
    exact hfit
  have hsum : addSz (h.pool c).pos n = (h.pool c).pos + n := by
    have := hb.ok.size_lt
    have := hb.whole
    exact addSz_of_lt (by omega)
  -- All that a served request changes.
  have hpool : ∀ i, ((h.setCurrent 0 c).modify c fun q => { q with pos := addSz q.pos n }).pool i =
      { h.pool i with
        pos := if i = c then (h.pool c).pos + n else (h.pool i).pos
        current := if i = 0 then c else (h.pool i).current } := by
    intro i
    rw [Heap.modify_pool, Heap.setCurrent_pool]
    by_cases hi : i = c
    · subst hi
      simp only [if_true, hsum]
    · simp only [if_neg hi]
  refine ⟨hf.row.congr ?_ rfl ?_, ?_, ?_, hf.len, ?_, fun i hi => ?_⟩
  · exact (hf.row.linked.setCurrent 0 hc).take c (fun _ => rfl) fun _ => rfl
  · rw [Heap.modify_child rfl, Heap.setCurrent_child]
  all_goals rw [hpool]
  · exact hf.flags
  · exact hf.size
  · rfl
  · -- The chunk that served it is fuller, and the others are as full as they were.
    obtain ⟨⟨hpos, hend, hlt⟩, hwhole, hcap, hused⟩ := hf.bin i hi
    by_cases he : i = c
    · subst he
      refine ⟨⟨?_, hend, hlt⟩, hwhole, hcap, ?_⟩
      · rw [if_pos rfl]
        exact hroom
      · simp only [if_true, Bins.put, Function.update_self, hused]
    · rw [if_neg he]
      refine ⟨⟨hpos, hend, hlt⟩, hwhole, hcap, ?_⟩
      simp only [Bins.put, Function.update_of_ne he, hused]

/-- A new chunk serves. -/
theorem Fills.grow {n z : Nat} {h' : Heap} (hs : p.cf &&& memShared = 0) (hp : p.Ok)
    (hn : n < 2 ^ 64) (hz : z + 1 = h.count) (hgrant : E.Grants p n)
    (hadd : Added (h.setCurrent 0 z) 0 n h') :
    Fills p (h'.modify h.count fun q => { q with pos := addSz q.pos n })
      ((b.grow (Mempool.chunkEnd p n)).put b.len n) := by
  obtain ⟨hfits, hlt⟩ := le_chunkEnd hp hn hgrant.2.1 (Or.inl hs)
  rw [firstPos, newPos, if_neg (not_not.mpr hs), Nat.zero_add] at hfits
  have hroot := hf.row.root
  obtain ⟨hfirst, hend, hsize, -⟩ := hadd.fields
  rw [firstPos, newPos, hf.flags, if_neg (not_not.mpr hs)] at hfirst
  rw [hf.chunkEnd] at hend hsize
  have hsum : addSz 0 n = n := by
    rw [addSz_of_lt (by omega), Nat.zero_add]
  have hold := fun i => grown_old (i := i) hadd
  have hnew : (h'.modify h.count fun q => { q with pos := addSz q.pos n }).pool h.count =
      { h'.pool h.count with pos := n } := by
    rw [Heap.modify_pool_self, hfirst, hsum]
  have hrow : h'.Row := hadd.row hf.row hz
  have hcount : (h'.modify h.count fun q => { q with pos := addSz q.pos n }).count = h.count + 1 :=
    hadd.count
  refine ⟨hrow.congr (hrow.linked.take _ (fun _ => rfl) fun _ => rfl) rfl (Heap.modify_child rfl),
    ?_, ?_, ?_, ?_, fun i hi => ?_⟩
  · rw [hold 0 hroot]
    exact hf.flags
  · rw [hold 0 hroot]
    exact hf.size
  · rw [hcount]
    exact congrArg (· + 1) hf.len
  · rw [hold 0 hroot]
    exact hf.len
  · rw [hcount] at hi
    simp only [Bins.put, Bins.grow, hf.len]
    -- The bins there were, and the new one with the request in it.
    rcases Nat.lt_succ_iff_lt_or_eq.mp hi with hi | rfl
    · rw [hold i hi, Function.update_of_ne (Nat.ne_of_lt hi), Function.update_of_ne (Nat.ne_of_lt hi),
        Function.update_of_ne (Nat.ne_of_lt hi)]
      obtain ⟨⟨hpos, hend, hlt⟩, hwhole, hcap, hused⟩ := hf.bin i hi
      exact ⟨⟨hpos, hend, hlt⟩, hwhole, hcap, hused⟩
    · rw [hnew, Function.update_self, Function.update_self, Function.update_self, Nat.zero_add]
      refine ⟨⟨?_, ?_, ?_⟩, ?_, hend.symm, rfl⟩
      · dsimp only
        rw [hend]
        exact hfits
      · dsimp only
        rw [hend, hsize]
      · dsimp only
        rw [hsize]
        exact hlt
      · dsimp only
        rw [hend, hsize]

/-- `current` moves. -/
theorem Fills.move {z : Nat} (hz : z + 1 = h.count) :
    Fills p (h.setCurrent 0 z) { b with cur := b.len - 1 } := by
  have hlast : b.len - 1 = z := by
    rw [hf.len]
    omega
  refine ⟨hf.row.congr (hf.row.linked.setCurrent 0 (by omega)) rfl (Heap.setCurrent_child ..),
    ?_, ?_, hf.len, ?_, fun i hi => ?_⟩
  all_goals rw [Heap.setCurrent_pool]
  · exact hf.flags
  · exact hf.size
  · exact hlast
  · obtain ⟨⟨hpos, hend, hlt⟩, hwhole, hcap, hused⟩ := hf.bin i hi
    exact ⟨⟨hpos, hend, hlt⟩, hwhole, hcap, hused⟩

/-- **A `dalloc`** answers as the row of bins does. -/
theorem Fills.take (hdyn : p.cf &&& memDynamic ≠ 0) (hs : p.cf &&& memShared = 0) (hp : p.Ok)
    {n : Nat} (hn : n < 2 ^ 64) {r : Ret × Heap} (hd : E.Dallocs h 0 n r) :
    r.1 = (E.takeBin p b n).1 ∧ Fills p r.2 (E.takeBin p b n).2 := by
  have hroomy := hf.roomy hdyn hn
  -- Whatever `dalloc` does, the bins do by the same tests.
  cases hd with
  | served c hroom hc =>
    rw [hroomy] at hroom
    simp only [Env.takeBin, Env.answer, Bins.take_found hroom]
    refine ⟨?_, hf.put hc (Bins.find_eq_some.mp hroom).1⟩
    rw [(hf.bin c hc).used]
  | grown z h' hfull hdyn' hgrant hz hlt hadd =>
    rw [hroomy] at hfull
    have hgrant' := hf.grants n |>.mp hgrant
    have hmake : E.make p n = some (Mempool.chunkEnd p n) := if_pos hgrant'
    have hfirst : firstPos (h.pool 0) = 0 := by
      rw [firstPos, newPos, hf.flags]
      exact if_neg (not_not.mpr hs)
    simp only [Env.takeBin, Env.answer, Bins.take_grows hfull hmake]
    refine ⟨?_, hf.grow hs hp hn (hf.row.last hdyn' hz) hgrant' hadd⟩
    rw [hf.len, hfirst]
  | refused z hfull hdyn' hgrant hz hlt =>
    rw [hroomy] at hfull
    have hmake : E.make p n = none := if_neg fun hg => hgrant ((hf.grants n).mpr hg)
    simp only [Env.takeBin, Env.answer, Bins.take_refused ⟨hfull, hmake⟩]
    exact ⟨hf.refusal n, hf.move (hf.row.last hdyn' hz)⟩
  | full hfull hfix =>
    rw [hf.flags] at hfix
    exact absurd hdyn hfix

end Step

/-! ## Runs and `reset` on a row of bins

A `reset` empties the bins and leaves their sizes and the current one. The question whether the
second run is answered alike is then `Bins.replay_iff`, and what is left is whether a request stores
through `NULL`. -/

/-- A pool that was just made is a row of one. -/
theorem Env.start_row (E : Env) {junk : Nat → Nat → UInt8} {size : Nat} {cf : UInt32} {h : Heap}
    (hnew : E.start junk size cf = some h) : h.Row := by
  obtain ⟨hl, hroot⟩ := E.start_sound junk size cf h hnew
  obtain ⟨-, hc⟩ := E.start_created hnew
  have hcount : h.count = 1 := hc.count
  refine ⟨hl, hroot, fun i hi => ?_⟩
  obtain rfl : i = 0 := by omega
  rw [if_neg (by omega)]
  exact hc.child

/-- A new pool that is not shared is one empty bin. -/
theorem Env.start_fills (E : Env) {junk : Nat → Nat → UInt8} {size : Nat} {cf : UInt32} {h : Heap}
    (hnew : E.start junk size cf = some h) (hs : cf &&& memShared = 0) :
    (h.pool 0).Ok ∧ Fills (h.pool 0) h (h.pool 0).bins := by
  obtain ⟨-, hc⟩ := E.start_created hnew
  have hcount : h.count = 1 := hc.count
  have hpos : (h.pool 0).pos = 0 := hc.pos.trans (if_neg (not_not.mpr hs))
  have hend : (h.pool 0).endPos = newBytes size := hc.endPos.trans (if_neg (not_not.mpr hs))
  have hsize : (h.pool 0).size = newBytes size := hc.size.trans (if_neg (not_not.mpr hs))
  have hok : (h.pool 0).Ok := by
    refine ⟨by rw [hpos]; exact Nat.zero_le _, by rw [hend, hsize], ?_⟩
    rw [hsize]
    exact memAlign_add_lt _
  refine ⟨hok, E.start_row hnew, rfl, rfl, hcount.symm, hc.current.symm, fun i hi => ?_⟩
  obtain rfl : i = 0 := by omega
  exact ⟨hok, by rw [hend, hsize], by rw [hend]; exact hsize, hpos.symm⟩

/-- A reset sets all positions to zero and goes back to the first structure. -/
theorem Heap.Row.reset {h : Heap} (hr : h.Row) :
    ∃ h', inaMempoolReset h 0 = some h' ∧ h'.Row ∧ h'.count = h.count ∧
      ∀ i < h.count, h'.pool i =
        { h.pool i with pos := 0, current := if i = 0 then 0 else (h.pool i).current } := by
  have hpool : ∀ i < h.count, (((h.onAll Pool.reset (List.range' 0 h.count)).setCurrent 0 0).pool i) =
      { h.pool i with pos := 0, current := if i = 0 then 0 else (h.pool i).current } := by
    intro i hi
    have hmem : i ∈ List.range' 0 h.count := List.mem_range'_1.mpr ⟨Nat.zero_le _, by omega⟩
    rw [Heap.setCurrent_pool, Heap.onAll_pool, if_pos hmem]
    rfl
  refine ⟨_, hr.all.reset, ?_, rfl, hpool⟩
  refine ⟨⟨fun i hi c hc => ?_, fun i hi => ?_⟩, hr.root, fun i hi => ?_⟩
  · rw [hpool i hi] at hc
    exact hr.linked.child i hi c hc
  · rw [hpool i hi]
    dsimp only
    split
    · exact hr.root
    · exact hr.linked.current i hi
  · rw [Heap.child, hpool i hi]
    exact hr.child i hi

theorem Heap.Row.resets :
    ∀ (k : Nat) {h : Heap}, h.Row →
      ∃ h', resets (k + 1) h = some h' ∧ h'.Row ∧ h'.count = h.count ∧
        ∀ i < h.count, h'.pool i =
          { h.pool i with pos := 0, current := if i = 0 then 0 else (h.pool i).current } := by
  intro k
  induction k with
  | zero =>
    intro h hr
    obtain ⟨h', heq, hreset⟩ := hr.reset
    exact ⟨h', by rw [Mempool.resets, heq]; rfl, hreset⟩
  | succ k ih =>
    intro h hr
    obtain ⟨h', heq, hr', hcount, hpool⟩ := hr.reset
    obtain ⟨h'', hrest, hr'', hcount', hpool'⟩ := ih hr'
    refine ⟨h'', by rw [Mempool.resets, heq]; exact hrest, hr'', hcount'.trans hcount, ?_⟩
    intro i hi
    rw [hpool' i (by rw [hcount]; exact hi), hpool i hi]
    by_cases h0 : i = 0
    · simp only [if_pos h0]
    · simp only [if_neg h0]

/-- On the bins that is a rewind, however often it is done. -/
theorem Fills.resets {p : Pool} {h : Heap} {b : Bins} (hf : Fills p h b) (k : Nat) :
    ∃ h', resets (k + 1) h = some h' ∧ Fills p h' b.rewind := by
  obtain ⟨h', heq, hrow, hcount, hpool⟩ := Heap.Row.resets k hf.row
  have hroot := hf.row.root
  refine ⟨h', heq, hrow, ?_, ?_, hf.len.trans hcount.symm, ?_, fun i hi => ?_⟩
  · rw [hpool 0 hroot]
    exact hf.flags
  · rw [hpool 0 hroot]
    exact hf.size
  · rw [hpool 0 hroot]
    rfl
  · rw [hcount] at hi
    obtain ⟨⟨hpos, hend, hlt⟩, hwhole, hcap, hused⟩ := hf.bin i hi
    rw [hpool i hi]
    exact ⟨⟨Nat.zero_le _, hend, hlt⟩, hwhole, hcap, rfl⟩

/-- The answer tells where the block is, or that there is none. -/
theorem Env.answer_inj (E : Env) (p : Pool) (n : Nat) (o o' : Option (Nat × Nat))
    (h : E.answer p n o = E.answer p n o') : o = o' := by
  match o, o' with
  | none, none => rfl
  | some _, some _ =>
    have hptr := Ret.ok.inj h
    simpa [Prod.ext_iff] using hptr
  | none, some _ => exact absurd h (E.refusal_ne_ok p n _)
  | some _, none => exact absurd h.symm (E.refusal_ne_ok p n _)

theorem Env.takeBin_downs (E : Env) (p : Pool) (b : Bins) (n : Nat) :
    E.Downs p b n ↔ (E.takeBin p b n).1 = .fault := by
  rw [Env.Downs, Env.takeBin]
  by_cases hr : b.Refuses (E.make p) n
  · rw [Bins.take_refused hr]
    simp only [Env.answer, Env.refusal, hr, true_and]
    split
    · rename_i hfault
      exact ⟨fun _ => rfl, fun _ => hfault⟩
    · rename_i hfault
      exact ⟨fun h => absurd h hfault, fun h => by cases h⟩
  · have hsome : ∃ c, (b.take (E.make p) n).1 = some c := by
      cases hfind : b.find n with
      | some i => rw [Bins.take_found hfind]; exact ⟨_, rfl⟩
      | none =>
        cases hmake : E.make p n with
        | some c => rw [Bins.take_grows hfind hmake]; exact ⟨_, rfl⟩
        | none => exact absurd ⟨hfind, hmake⟩ hr
    obtain ⟨c, hc⟩ := hsome
    simp only [hr, false_and, hc, Env.answer, reduceCtorEq]

section Runs

variable {E : Env} {p : Pool} (hdyn : p.cf &&& memDynamic ≠ 0) (hs : p.cf &&& memShared = 0)
  (hp : p.Ok)
include hdyn hs hp

/-- One request on the pool is the same request on the bins. -/
theorem Fills.step {h : Heap} {b : Bins} (hf : Fills p h b) (r : Nat × Nat) :
    ∃ h', dallocStep E (some h) r = Ret.next ((E.takeBin p b (memAlignN r.1 r.2)).1, h') ∧
      Fills p h' (E.takeBin p b (memAlignN r.1 r.2)).2 := by
  have hd := E.dallocAligned_dallocs hf.row.linked hf.row.root r.1 r.2
  obtain ⟨hret, hnext⟩ := hf.take hdyn hs hp (memAlignN_lt r.1 r.2) hd
  refine ⟨_, ?_, hnext⟩
  rw [← hret]
  rfl

omit hdyn hs hp in
theorem Ret.next_of_ne {ret : Ret} (hne : ret ≠ .fault) (h : Heap) :
    Ret.next (ret, h) = (ret, some h) := by
  cases ret with
  | fault => exact absurd rfl hne
  | ok _ => rfl
  | null _ => rfl
  | hang => rfl

omit hdyn hs hp in
theorem dallocStep_down (E : Env) (reqs : List (Nat × Nat)) :
    exec (dallocStep E) none reqs = none := by
  induction reqs with
  | nil => rfl
  | cons r reqs ih => exact ih

/-- **A run** on a pool answers as the row of bins does, unless a request stores through `NULL`. -/
theorem Fills.run {reqs : List (Nat × Nat)} :
    ∀ {h : Heap} {b : Bins}, Fills p h b → .fault ∉ outs (E.takeBin p) b (bytes reqs) →
      ∃ h', exec (dallocStep E) (some h) reqs = some h' ∧
        Fills p h' (exec (E.takeBin p) b (bytes reqs)) ∧
        outs (dallocStep E) (some h) reqs = outs (E.takeBin p) b (bytes reqs) := by
  induction reqs with
  | nil => intro h b hf _; exact ⟨h, rfl, hf, rfl⟩
  | cons r reqs ih =>
    intro h b hf hno
    obtain ⟨h', hstep, hf'⟩ := Fills.step (E := E) hdyn hs hp hf r
    rw [bytes, List.map_cons, outs, List.mem_cons, not_or] at hno
    rw [Ret.next_of_ne (Ne.symm hno.1)] at hstep
    obtain ⟨h'', hexec, hf'', houts⟩ := ih hf' hno.2
    refine ⟨h'', ?_, hf'', ?_⟩
    · rw [exec_cons, hstep]
      exact hexec
    · rw [outs, hstep]
      exact congrArg (_ :: ·) houts

/-- A run that goes down on the bins does so on the pool. -/
theorem Fills.run_down {reqs : List (Nat × Nat)} :
    ∀ {h : Heap} {b : Bins}, Fills p h b → .fault ∈ outs (E.takeBin p) b (bytes reqs) →
      exec (dallocStep E) (some h) reqs = none := by
  induction reqs with
  | nil => intro h b _ hin; cases hin
  | cons r reqs ih =>
    intro h b hf hin
    obtain ⟨h', hstep, hf'⟩ := Fills.step (E := E) hdyn hs hp hf r
    rw [exec_cons, hstep]
    rw [bytes, List.map_cons, outs, List.mem_cons] at hin
    by_cases hfault : (E.takeBin p b (memAlignN r.1 r.2)).1 = .fault
    · rw [hfault]
      exact dallocStep_down E reqs
    · rw [Ret.next_of_ne hfault]
      exact ih hf' (hin.resolve_left fun he => hfault he.symm)

theorem Fills.run_of_some {reqs : List (Nat × Nat)} {h h' : Heap} {b : Bins} (hf : Fills p h b)
    (hexec : exec (dallocStep E) (some h) reqs = some h') :
    .fault ∉ outs (E.takeBin p) b (bytes reqs) := by
  intro hin
  rw [hf.run_down hdyn hs hp hin] at hexec
  cases hexec

end Runs

/-- What `info` reports of a row of bins. -/
theorem Fills.info {p : Pool} {h : Heap} {b : Bins} (hf : Fills p h b) :
    inaMempoolInfo h 0 = some
      ⟨((List.range' 0 b.len).map b.cap).sum, ((List.range' 0 b.len).map b.used).sum, b.len - 1,
        p.cf⟩ := by
  have hlt := hf.row.all.lt
  rw [hf.row.all.info, hf.flags, hf.len, List.length_range', Heap.sizes,
    Heap.taken]
  congr 3
  · refine List.map_congr_left fun i hi => ?_
    rw [(hf.bin i (hlt i hi)).cap, (hf.bin i (hlt i hi)).whole]
  · refine List.map_congr_left fun i hi => ?_
    have hb := hf.bin i (hlt i hi)
    rw [hb.used, Pool.used, hb.whole, Nat.sub_self, Nat.add_zero]

theorem Fills.info_congr {p : Pool} {h h' : Heap} {b b' : Bins} (hf : Fills p h b)
    (hf' : Fills p h' b') (hlen : b'.len = b.len) (hcap : ∀ i < b.len, b'.cap i = b.cap i)
    (hused : ∀ i < b.len, b'.used i = b.used i) : inaMempoolInfo h' 0 = inaMempoolInfo h 0 := by
  have hlt : ∀ i ∈ List.range' 0 b.len, i < b.len := fun i hi => by
    have := (List.mem_range'_1.mp hi).2
    omega
  rw [hf'.info, hf.info, hlen, List.map_congr_left fun i hi => hcap i (hlt i hi),
    List.map_congr_left fun i hi => hused i (hlt i hi)]

/-- A chunk that is had for a request has room for it. -/
theorem Env.make_le (E : Env) {p : Pool} (hp : p.Ok) (hs : p.cf &&& memShared = 0)
    (reqs : List (Nat × Nat)) : ∀ n ∈ bytes reqs, ∀ c, E.make p n = some c → n ≤ c := by
  intro n hn c hc
  obtain ⟨r, -, rfl⟩ := List.mem_map.mp hn
  rw [Env.make] at hc
  split at hc
  · rename_i hgrant
    obtain rfl := Option.some.inj hc
    have hle := (le_chunkEnd hp (memAlignN_lt r.1 r.2) hgrant.2.1 (Or.inl hs)).1
    exact Nat.le_trans (Nat.le_add_left ..) hle
  · cases hc

/-- **The same blocks again**, in a pool that is not shared. -/
theorem replayed_plain {E : Env} {h : Heap} (hdyn : (h.pool 0).cf &&& memDynamic ≠ 0)
    (hs : (h.pool 0).cf &&& memShared = 0) (hp : (h.pool 0).Ok)
    (hf : Fills (h.pool 0) h (h.pool 0).bins) (reqs : List (Nat × Nat)) (k : Nat) :
    Replayed E h reqs k ↔ Repeatable E (h.pool 0) reqs := by
  -- The general fact about bins.
  have hreplay := Bins.replay_iff (E.make_le hp hs reqs) (b := (h.pool 0).bins) rfl rfl rfl
  -- That no request faults is a condition on the first run alone.
  have hstays : Never (Bins.take (E.make (h.pool 0))) (E.Downs (h.pool 0)) (h.pool 0).bins
      (bytes reqs) ↔ .fault ∉ outs (E.takeBin (h.pool 0)) (h.pool 0).bins (bytes reqs) := by
    rw [← never_iff_outs (E.takeBin_downs (h.pool 0))]
    exact never_map.symm
  have hanswers : ∀ b b' : Bins, outs (E.takeBin (h.pool 0)) b (bytes reqs) =
      outs (E.takeBin (h.pool 0)) b' (bytes reqs) ↔
      outs (Bins.take (E.make (h.pool 0))) b (bytes reqs) =
        outs (Bins.take (E.make (h.pool 0))) b' (bytes reqs) := fun b b' =>
    outs_map_eq_iff (E.answer_inj (h.pool 0))
  constructor
  · rintro ⟨h₁, h₂, h₃, hrun, hresets, hagain, houts, -, -⟩
    have hno := hf.run_of_some hdyn hs hp hrun
    obtain ⟨h₁', hrun', hf₁, houts₁⟩ := hf.run hdyn hs hp hno
    obtain rfl := Option.some.inj (hrun'.symm.trans hrun)
    obtain ⟨h₂', hresets', hf₂⟩ := hf₁.resets k
    obtain rfl := Option.some.inj (hresets'.symm.trans hresets)
    obtain ⟨-, -, -, houts₂⟩ := hf₂.run hdyn hs hp (hf₂.run_of_some hdyn hs hp hagain)
    refine ⟨hs, hstays.mpr hno, hreplay.answers.mp ((hanswers _ _).mp ?_)⟩
    rw [← houts₁, ← houts]
    exact houts₂.symm
  · rintro ⟨-, hnever, hbears⟩
    have hno := hstays.mp hnever
    -- Both runs and the resets return, since no request faults.
    obtain ⟨h₁, hrun, hf₁, houts₁⟩ := hf.run hdyn hs hp hno
    obtain ⟨h₂, hresets, hf₂⟩ := hf₁.resets k
    have hsame : outs (E.takeBin (h.pool 0))
        (exec (E.takeBin (h.pool 0)) (h.pool 0).bins (bytes reqs)).rewind (bytes reqs) =
        outs (E.takeBin (h.pool 0)) (h.pool 0).bins (bytes reqs) :=
      (hanswers _ _).mpr (hreplay.answers.mpr hbears)
    obtain ⟨h₃, hagain, hf₃, houts₃⟩ := hf₂.run hdyn hs hp (by rw [hsame]; exact hno)
    have hends := hreplay.ends hbears
    refine ⟨h₁, h₂, h₃, hrun, hresets, hagain, ?_, ?_, ?_⟩
    · rw [houts₃, houts₁]
      exact hsame
    · rw [← hf₃.len, ← hf₁.len]
      exact hends.len
    · exact hf₁.info_congr hf₃ hends.len hends.cap hends.used

/-! ## Shared pools

A new shared pool has eight bytes taken, and a `reset` counts them as free. So the pool that is left
by the resets is another one than the run began with: if any request is served, it is served in
another place, and if none is, `info` tells the two apart. -/

/-- A new shared pool that nothing was taken from. -/
structure Untaken (h : Heap) : Prop where
  row : h.Row
  dynamic : (h.pool 0).cf &&& memDynamic ≠ 0
  shared : (h.pool 0).cf &&& memShared ≠ 0
  count : h.count = 1
  pos : (h.pool 0).pos = 8

/-- A pool after a `reset`, that nothing was taken from. -/
structure Emptied (h : Heap) : Prop where
  row : h.Row
  dynamic : (h.pool 0).cf &&& memDynamic ≠ 0
  pos : ∀ i < h.count, (h.pool i).pos = 0

theorem Ret.next_fst (r : Ret × Heap) : (Ret.next r).1 = r.1 := by
  obtain ⟨ret, h⟩ := r
  cases ret <;> rfl

theorem Heap.Row.setCurrent {h : Heap} (hr : h.Row) {z : Nat} (hz : z < h.count) :
    (h.setCurrent 0 z).Row :=
  hr.congr (hr.linked.setCurrent 0 hz) rfl (Heap.setCurrent_child ..)

theorem Untaken.setCurrent {h : Heap} (hu : Untaken h) {z : Nat} (hz : z < h.count) :
    Untaken (h.setCurrent 0 z) := by
  refine ⟨hu.row.setCurrent hz, ?_, ?_, hu.count, ?_⟩ <;> rw [Heap.setCurrent_pool]
  · exact hu.dynamic
  · exact hu.shared
  · exact hu.pos

theorem Emptied.setCurrent {h : Heap} (he : Emptied h) {z : Nat} (hz : z < h.count) :
    Emptied (h.setCurrent 0 z) := by
  refine ⟨he.row.setCurrent hz, ?_, fun i hi => ?_⟩ <;> rw [Heap.setCurrent_pool]
  · exact he.dynamic
  · exact he.pos i hi

/-- The first block of a new shared pool stands behind the reference count. -/
theorem Untaken.served {E : Env} {h : Heap} (hu : Untaken h) {n : Nat} {r : Ret × Heap}
    (hd : E.Dallocs h 0 n r) :
    (∃ c < r.2.count, r.1 = .ok ⟨c, 8⟩) ∨
      ((∀ q, r.1 ≠ .ok q) ∧ ∃ z < h.count, r.2 = h.setCurrent 0 z) := by
  cases hd with
  | served c hroom hc =>
    obtain rfl : c = 0 := by
      have := hu.count
      omega
    exact Or.inl ⟨0, hc, by rw [hu.pos]⟩
  | grown z h' hfull hdyn hgrant hz hlt hadd =>
    have hfirst : firstPos (h.pool 0) = 8 := if_pos hu.shared
    have hcount : h'.count = h.count + 1 := hadd.count
    refine Or.inl ⟨h.count, ?_, by rw [hfirst]⟩
    show h.count < h'.count
    omega
  | refused z hfull hdyn hgrant hz hlt => exact Or.inr ⟨E.refusal_ne_ok _ _, z, hlt, rfl⟩
  | full hfull hfix => exact absurd hu.dynamic hfix

/-- The first block after a `reset` stands at the front of its chunk, or in a new chunk. -/
theorem Emptied.served {E : Env} {h : Heap} (he : Emptied h) {n : Nat} {r : Ret × Heap}
    (hd : E.Dallocs h 0 n r) :
    (∃ q, r.1 = .ok q ∧ (q.off = 0 ∨ q.chunk = h.count)) ∨
      ((∀ q, r.1 ≠ .ok q) ∧ ∃ z < h.count, r.2 = h.setCurrent 0 z) := by
  cases hd with
  | served c hroom hc => exact Or.inl ⟨_, rfl, Or.inl (he.pos c hc)⟩
  | grown z h' hfull hdyn hgrant hz hlt hadd => exact Or.inl ⟨_, rfl, Or.inr rfl⟩
  | refused z hfull hdyn hgrant hz hlt => exact Or.inr ⟨E.refusal_ne_ok _ _, z, hlt, rfl⟩
  | full hfull hfix => exact absurd he.dynamic hfix

/-- A run that comes to its end goes on behind its first request. -/
theorem exec_behind {E : Env} {h h' : Heap} {r : Nat × Nat} {reqs : List (Nat × Nat)}
    (hexec : exec (dallocStep E) (some h) (r :: reqs) = some h') :
    (dallocStep E (some h) r).2 = some (E.dallocAligned h 0 r.1 r.2).2 ∧
      exec (dallocStep E) (some (E.dallocAligned h 0 r.1 r.2).2) reqs = some h' := by
  rw [exec_cons] at hexec
  cases hstep : (dallocStep E (some h) r).2 with
  | none =>
    rw [hstep, dallocStep_down] at hexec
    cases hexec
  | some g =>
    rw [hstep] at hexec
    obtain rfl := Ret.next_some hstep
    exact ⟨rfl, hexec⟩

/-- What a run keeps. -/
theorem exec_row {E : Env} :
    ∀ {reqs : List (Nat × Nat)} {h h' : Heap}, h.Row →
      exec (dallocStep E) (some h) reqs = some h' →
      h'.Row ∧ h.count ≤ h'.count ∧ (h'.pool 0).cf = (h.pool 0).cf := by
  intro reqs
  induction reqs with
  | nil =>
    intro h h' hr hexec
    obtain rfl := Option.some.inj hexec
    exact ⟨hr, Nat.le_refl _, rfl⟩
  | cons r reqs ih =>
    intro h h' hr hexec
    have hd := E.dallocAligned_dallocs hr.linked hr.root r.1 r.2
    obtain ⟨-, hexec⟩ := exec_behind hexec
    obtain ⟨hrow, hcf, -⟩ := hd.row hr
    obtain ⟨hrow', hcount, hcf'⟩ := ih hrow hexec
    exact ⟨hrow', Nat.le_trans (hd.linked hr.linked).2 hcount, hcf'.trans hcf⟩

/-- Where the answers before and after a `reset` are the same, nothing was taken. -/
theorem shared_same {E : Env} :
    ∀ {reqs : List (Nat × Nat)} {h h' h₁ h₃ : Heap}, Untaken h → Emptied h' →
      exec (dallocStep E) (some h) reqs = some h₁ → exec (dallocStep E) (some h') reqs = some h₃ →
      outs (dallocStep E) (some h') reqs = outs (dallocStep E) (some h) reqs →
      h'.count = h₁.count →
      (∃ z, h₁ = h.setCurrent 0 z) ∧ ∃ z, h₃ = h'.setCurrent 0 z := by
  intro reqs
  induction reqs with
  | nil =>
    intro h h' h₁ h₃ _ _ hrun hagain _ _
    obtain rfl := Option.some.inj hrun
    obtain rfl := Option.some.inj hagain
    exact ⟨⟨_, (Heap.setCurrent_self rfl).symm⟩, _, (Heap.setCurrent_self rfl).symm⟩
  | cons r reqs ih =>
    intro h h' h₁ h₃ hu he hrun hagain houts hcount
    have hd := E.dallocAligned_dallocs hu.row.linked hu.row.root r.1 r.2
    have hd' := E.dallocAligned_dallocs he.row.linked he.row.root r.1 r.2
    rw [outs, outs, List.cons.injEq] at houts
    obtain ⟨hhead, htail⟩ := houts
    have hsame : (E.dallocAligned h' 0 r.1 r.2).1 = (E.dallocAligned h 0 r.1 r.2).1 := by
      rw [← Ret.next_fst, ← Ret.next_fst (E.dallocAligned h 0 r.1 r.2)]
      exact hhead
    obtain ⟨hstep, hrun⟩ := exec_behind hrun
    obtain ⟨hstep', hagain⟩ := exec_behind hagain
    rw [hstep, hstep'] at htail
    have hgrow := (exec_row (hd.row hu.row).1 hrun).2.1
    -- A request that is served stands behind the reference count, or in a chunk made for it; the
    -- second time it is at zero, or in a chunk that is made once more.
    rcases hu.served hd with ⟨c, hc, hok⟩ | ⟨hno, z, hz, hnext⟩
    · rw [hok] at hsame
      rcases he.served hd' with ⟨q, hq, hplace⟩ | ⟨hno', -⟩
      · rw [hq] at hsame
        obtain rfl := Ret.ok.inj hsame
        rcases hplace with hzero | hchunk
        · cases hzero
        · have : c = h'.count := hchunk
          omega
      · exact absurd hsame (hno' _)
    · rcases he.served hd' with ⟨q, hq, -⟩ | ⟨-, z', hz', hnext'⟩
      · exact absurd (hsame.symm.trans hq) (hno q)
      · rw [hnext] at hrun htail
        rw [hnext'] at hagain htail
        obtain ⟨⟨w, hw⟩, w', hw'⟩ :=
          ih (hu.setCurrent hz) (he.setCurrent hz') hrun hagain htail hcount
        rw [Heap.setCurrent_setCurrent] at hw hw'
        exact ⟨⟨w, hw⟩, w', hw'⟩

/-- **Never the same again**, in a shared pool. -/
theorem not_replayed_shared {E : Env} {h : Heap} (hu : Untaken h) (reqs : List (Nat × Nat))
    (k : Nat) : ¬ Replayed E h reqs k := by
  rintro ⟨h₁, h₂, h₃, hrun, hresets, hagain, houts, -, hinfo⟩
  obtain ⟨hrow₁, -, hcf⟩ := exec_row hu.row hrun
  obtain ⟨h₂', heq, hrow₂, hcount, hpool⟩ := Heap.Row.resets k hrow₁
  obtain rfl := Option.some.inj (heq.symm.trans hresets)
  have he : Emptied h₂' := by
    refine ⟨hrow₂, ?_, fun i hi => ?_⟩
    · rw [hpool 0 hrow₁.root]
      show (h₁.pool 0).cf &&& memDynamic ≠ 0
      rw [hcf]
      exact hu.dynamic
    · rw [hpool i (by rw [← hcount]; exact hi)]
  obtain ⟨⟨z, hz⟩, z', hz'⟩ := shared_same hu he hrun hagain houts hcount
  -- No request was served, so there is one chunk as before.
  have hone : h₁.count = 1 := by
    rw [hz]
    exact hu.count
  have hrow₃ := (exec_row hrow₂ hagain).1
  rw [hrow₃.all.info, hrow₁.all.info] at hinfo
  have hused := congrArg Info.used (Option.some.inj hinfo)
  have hone₃ : h₃.count = 1 := by
    rw [hz']
    exact hcount.trans hone
  -- The first run has the eight bytes of the reference count in use, and the second one none.
  have hpos : (h₁.pool 0).pos = 8 := by
    rw [hz, Heap.setCurrent_pool]
    exact hu.pos
  have hroot : h₃.pool 0 = { h₁.pool 0 with pos := 0, current := z' } := by
    rw [hz', Heap.setCurrent_pool, hpool 0 hrow₁.root]
    rfl
  simp [hone, hone₃, Heap.taken, hroot, Pool.used, hpos] at hused

/-- **A pool used again.** In a new dynamic pool of any kind, with any requests and any number of
    `reset`s, the second run of the requests gives the same blocks, makes no chunk and ends with the
    same `info` if and only if the requests are repeatable. -/
theorem dalloc_replayed_iff (E : Env) (junk : Nat → Nat → UInt8) (size : Nat) (cf : UInt32)
    (h : Heap) (hnew : E.start junk size cf = some h) (hdyn : cf &&& memDynamic ≠ 0)
    (reqs : List (Nat × Nat)) (k : Nat) :
    Replayed E h reqs k ↔ Repeatable E (h.pool 0) reqs := by
  obtain ⟨-, hc⟩ := E.start_created hnew
  have hcf : (h.pool 0).cf = cf := hc.flags
  by_cases hs : cf &&& memShared = 0
  · obtain ⟨hp, hf⟩ := E.start_fills hnew hs
    exact replayed_plain (by rw [hcf]; exact hdyn) (by rw [hcf]; exact hs) hp hf reqs k
  · have hu : Untaken h := ⟨E.start_row hnew, by rw [hcf]; exact hdyn, by rw [hcf]; exact hs,
      hc.count, hc.pos.trans (if_pos hs)⟩
    constructor
    · intro hr
      exact absurd hr (not_replayed_shared hu reqs k)
    · intro hr
      exact absurd (hcf ▸ hr.notShared) hs

/-- Four requests that take two chunks, and two `reset`s. -/
theorem dalloc_replayed_iff_two_chunks :
    ∃ h, Env.ample.start (fun _ _ => 0) 1024 memDynamic = some h ∧
      Replayed .ample h [(600, 16), (600, 16), (100, 16), (40, 8)] 1 := by
  refine ⟨_, rfl, (dalloc_replayed_iff .ample (fun _ _ => 0) 1024 memDynamic _ rfl (by decide) _
    1).mpr ⟨?_, ?_, ?_⟩⟩
  · decide
  · decide +kernel
  · decide +kernel

/-- A shared pool hands its first block out at 8, and after a `reset` at 0, where the reference
    count is. -/
theorem shared_block_over_count :
    ∃ h h₁ h₂, Env.ample.start (fun _ _ => 0) 1024 (memDynamic ||| memShared ||| 64 ||| 256) = some h ∧
      exec (dallocStep .ample) (some h) [(16, 16)] = some h₁ ∧
      resets 1 h₁ = some h₂ ∧
      outs (dallocStep .ample) (some h) [(16, 16)] = [.ok ⟨0, 8⟩] ∧
      outs (dallocStep .ample) (some h₂) [(16, 16)] = [.ok ⟨0, 0⟩] ∧
      ¬ Replayed .ample h [(16, 16)] 0 := by
  refine ⟨_, _, _, rfl, rfl, rfl, rfl, rfl, ?_⟩
  rintro ⟨h₁, h₂, h₃, hrun, hresets, -, houts, -, -⟩
  obtain rfl := Option.some.inj hrun
  obtain rfl := Option.some.inj hresets
  cases houts

end Mempool
end Inac
