import Mathlib.Data.List.Range
import Mathlib.Logic.Function.Basic
import Inac.Lib.Run

/-!
# A row of bins filled with a cursor

Requests are taken from a row of bins, each filled from its front. The cursor stands on a bin and
only moves forward: to the first bin with room, and where none has room a new bin is made behind
the last, if one is to be had. If not, the cursor is left on the last bin.

Rewinding empties the bins and puts the cursor back on the first. A run on the bins an earlier run
of the same requests has made finds each bin where that run made it, so it gives the same answers
(`replay_iff`), with one exception: a request that is refused moves the cursor past bins that the
first run had not made yet when it refused it.
-/

namespace Inac
namespace Lib

/-- The bins: how many, their capacities and what is taken of each, and the cursor. -/
structure Bins where
  len : Nat
  cap : Nat → Nat
  used : Nat → Nat
  cur : Nat

namespace Bins

/-- There is room for `n` in bin `i`. -/
def Fits (b : Bins) (n i : Nat) : Prop := b.used i + n ≤ b.cap i

instance (b : Bins) (n i : Nat) : Decidable (b.Fits n i) := inferInstanceAs (Decidable (_ ≤ _))

/-- The first bin from the cursor on with room. -/
def find (b : Bins) (n : Nat) : Option Nat :=
  (List.range' b.cur (b.len - b.cur)).find? fun i => b.Fits n i

def put (b : Bins) (i n : Nat) : Bins :=
  { b with used := Function.update b.used i (b.used i + n), cur := i }

def grow (b : Bins) (c : Nat) : Bins :=
  { b with len := b.len + 1, cap := Function.update b.cap b.len c,
           used := Function.update b.used b.len 0 }

/-- A request for `n`; `make n` is the capacity of a bin made for it. The answer is a bin and a
    place in it. -/
def take (make : Nat → Option Nat) (b : Bins) (n : Nat) : Option (Nat × Nat) × Bins :=
  match b.find n, make n with
  | some i, _ => (some (i, b.used i), b.put i n)
  | none, some c => (some (b.len, 0), (b.grow c).put b.len n)
  | none, none => (none, { b with cur := b.len - 1 })

def rewind (b : Bins) : Bins := { b with used := fun _ => 0, cur := 0 }

/-- The request is refused. -/
def Refuses (make : Nat → Option Nat) (b : Bins) (n : Nat) : Prop := b.find n = none ∧ make n = none

instance (make : Nat → Option Nat) (b : Bins) (n : Nat) : Decidable (b.Refuses make n) :=
  inferInstanceAs (Decidable (_ ∧ _))

/-- The next request that is not refused makes a bin. -/
def NextGrows (make : Nat → Option Nat) (b : Bins) : List Nat → Prop
  | [] => False
  | n :: ns => (b.find n = none ∧ make n ≠ none) ∨ (b.Refuses make n ∧ NextGrows make b ns)

instance decidableNextGrows (make : Nat → Option Nat) (b : Bins) :
    ∀ ns, Decidable (b.NextGrows make ns)
  | [] => inferInstanceAs (Decidable False)
  | n :: ns =>
    have := decidableNextGrows make b ns
    inferInstanceAs (Decidable ((b.find n = none ∧ make n ≠ none) ∨
      (b.Refuses make n ∧ NextGrows make b ns)))

/-- What a refused request must meet in the first run, which ends with the bins `last`: no bin is
    made after it, or just one, too small for it and made by the next request that is not
    refused. -/
def Bears (make : Nat → Option Nat) (last b : Bins) (n : Nat) (ns : List Nat) : Prop :=
  last.len = b.len ∨ (last.len = b.len + 1 ∧ last.cap b.len < n ∧ b.NextGrows make ns)

instance (make : Nat → Option Nat) (last b : Bins) (n : Nat) (ns : List Nat) :
    Decidable (Bears make last b n ns) := inferInstanceAs (Decidable (_ ∨ _ ∧ _ ∧ _))

/-- Every refused request of the first run meets that. -/
def Bearable (make : Nat → Option Nat) (last : Bins) : Bins → List Nat → Prop
  | _, [] => True
  | b, n :: ns =>
    (b.Refuses make n → Bears make last b n ns) ∧ Bearable make last (b.take make n).2 ns

instance decidableBearable (make : Nat → Option Nat) (last : Bins) :
    ∀ b ns, Decidable (Bearable make last b ns)
  | _, [] => inferInstanceAs (Decidable True)
  | b, n :: ns =>
    have := decidableBearable make last (b.take make n).2 ns
    inferInstanceAs (Decidable ((b.Refuses make n → Bears make last b n ns) ∧
      Bearable make last (b.take make n).2 ns))

/-! ## One request

By what it finds: room from the cursor on, no room and a new bin, or no room and none to be had. -/

theorem find_eq_some {b : Bins} {n i : Nat} :
    b.find n = some i ↔ b.Fits n i ∧ b.cur ≤ i ∧ i < b.len ∧
      ∀ j, b.cur ≤ j → j < i → ¬ b.Fits n j := by
  rw [find, List.find?_range'_eq_some]
  simp only [decide_eq_true_eq, List.mem_range'_1, Bool.not_eq_eq_eq_not, Bool.not_true,
    decide_eq_false_iff_not]
  constructor
  · rintro ⟨hfit, ⟨hlo, hhi⟩, hmin⟩
    exact ⟨hfit, hlo, by omega, hmin⟩
  · rintro ⟨hfit, hlo, hhi, hmin⟩
    exact ⟨hfit, ⟨hlo, by omega⟩, hmin⟩

theorem find_eq_none {b : Bins} {n : Nat} :
    b.find n = none ↔ ∀ i, b.cur ≤ i → i < b.len → ¬ b.Fits n i := by
  rw [find, List.find?_range'_eq_none]
  simp only [Bool.not_eq_eq_eq_not, Bool.not_true, decide_eq_false_iff_not]
  constructor
  · intro h i hlo hhi
    exact h i hlo (by omega)
  · intro h i hlo hhi
    exact h i hlo (by omega)

/-- With the cursor on the last bin only that one is looked at. -/
theorem find_atEnd {b : Bins} (hend : b.cur + 1 = b.len) (n : Nat) :
    b.find n = if b.Fits n b.cur then some b.cur else none := by
  have hlen : b.len - b.cur = 1 := by omega
  rw [find, hlen, List.range'_one, List.find?_singleton]
  simp only [decide_eq_true_eq]

theorem take_found {make : Nat → Option Nat} {b : Bins} {n i : Nat} (h : b.find n = some i) :
    b.take make n = (some (i, b.used i), b.put i n) := by
  simp only [take, h]

theorem take_grows {make : Nat → Option Nat} {b : Bins} {n c : Nat} (h : b.find n = none)
    (hmake : make n = some c) :
    b.take make n = (some (b.len, 0), (b.grow c).put b.len n) := by
  simp only [take, h, hmake]

theorem take_refused {make : Nat → Option Nat} {b : Bins} {n : Nat} (h : b.Refuses make n) :
    b.take make n = (none, { b with cur := b.len - 1 }) := by
  simp only [take, h.1, h.2]

/-- On the last bin a refusal changes nothing. -/
theorem take_refused_atEnd {make : Nat → Option Nat} {b : Bins} {n : Nat}
    (hend : b.cur + 1 = b.len) (h : b.Refuses make n) : b.take make n = (none, b) := by
  have hcur : b.len - 1 = b.cur := by omega
  rw [take_refused h, hcur]

/-- Bins stay, with their capacities. -/
structure Extends (b b' : Bins) : Prop where
  len : b.len ≤ b'.len
  cap : ∀ i < b.len, b'.cap i = b.cap i

theorem Extends.trans {b b' b'' : Bins} (h : Extends b b') (h' : Extends b' b'') :
    Extends b b'' :=
  ⟨Nat.le_trans h.len h'.len, fun i hi =>
    (h'.cap i (Nat.lt_of_lt_of_le hi h.len)).trans (h.cap i hi)⟩

theorem extends_grow (b : Bins) (c i n : Nat) : Extends b ((b.grow c).put i n) :=
  ⟨Nat.le_succ _, fun _ hj => Function.update_of_ne (Nat.ne_of_lt hj) _ _⟩

theorem extends_take (make : Nat → Option Nat) (b : Bins) (n : Nat) :
    Extends b (b.take make n).2 := by
  cases hfind : b.find n with
  | some i => rw [take_found hfind]; exact ⟨Nat.le_refl _, fun _ _ => rfl⟩
  | none =>
    cases hmake : make n with
    | some c => rw [take_grows hfind hmake]; exact extends_grow b c b.len n
    | none => rw [take_refused ⟨hfind, hmake⟩]; exact ⟨Nat.le_refl _, fun _ _ => rfl⟩

theorem extends_exec (make : Nat → Option Nat) (ns : List Nat) (b : Bins) :
    Extends b (exec (take make) b ns) := by
  induction ns generalizing b with
  | nil => exact ⟨Nat.le_refl _, fun _ _ => rfl⟩
  | cons n ns ih => exact (extends_take make b n).trans (ih _)

/-! ## Two runs of the same requests

The induction is on the requests that are left, with two hypotheses at once: the cursors are
together, or the second run is on its last bin and the first one is not. In the second state an
answer is repeated only by one more refusal. -/

/-- The first run is at `b` and will end at `last`; the second, at `b'`, has all bins of `last`, and
    those `b` has are filled as in `b`. -/
structure Trails (last b b' : Bins) : Prop where
  atEnd : b.cur + 1 = b.len
  ext : Extends b last
  len : b'.len = last.len
  cap : ∀ i < last.len, b'.cap i = last.cap i
  used : ∀ i < b.len, b'.used i = b.used i
  fresh : ∀ i, b.len ≤ i → i < last.len → b'.used i = 0

theorem Trails.fits {last b b' : Bins} (h : Trails last b b') (n : Nat) {i : Nat}
    (hi : i < b.len) : b'.Fits n i ↔ b.Fits n i := by
  rw [Fits, Fits, h.used i hi, h.cap i (Nat.lt_of_lt_of_le hi h.ext.len), h.ext.cap i hi]

theorem Trails.fits_fresh {last b b' : Bins} (h : Trails last b b') (n : Nat) {i : Nat}
    (hlo : b.len ≤ i) (hhi : i < last.len) : b'.Fits n i ↔ n ≤ last.cap i := by
  rw [Fits, h.fresh i hlo hhi, h.cap i hhi, Nat.zero_add]

/-- Both take the request from the bin the first run is at. -/
theorem Trails.put {last b b' : Bins} (h : Trails last b b') (n : Nat) :
    Trails last (b.put b.cur n) (b'.put b.cur n) where
  atEnd := h.atEnd
  ext := ⟨h.ext.len, h.ext.cap⟩
  len := h.len
  cap := h.cap
  used i hi := by
    have hcur : b'.used b.cur = b.used b.cur := h.used b.cur (by have := h.atEnd; omega)
    by_cases he : i = b.cur
    · subst he
      simp only [Bins.put, Function.update_self, hcur]
    · simp only [Bins.put, Function.update_of_ne he]
      exact h.used i hi
  fresh i hlo hhi := by
    have he : i ≠ b.cur := by
      have := h.atEnd
      have : b.len ≤ i := hlo
      omega
    simp only [Bins.put, Function.update_of_ne he]
    exact h.fresh i hlo hhi

/-- The first run makes the bin that the second finds. -/
theorem Trails.grow {last b b' : Bins} (h : Trails last b b') {c : Nat} (n : Nat)
    (hext : Extends ((b.grow c).put b.len n) last) :
    Trails last ((b.grow c).put b.len n) (b'.put b.len n) where
  atEnd := rfl
  ext := hext
  len := h.len
  cap := h.cap
  used i hi := by
    have hzero : b'.used b.len = 0 := h.fresh b.len (Nat.le_refl _) hext.len
    by_cases he : i = b.len
    · subst he
      simp only [Bins.put, Bins.grow, Function.update_self, hzero]
    · simp only [Bins.put, Bins.grow, Function.update_of_ne he]
      exact h.used i (Nat.lt_of_le_of_ne (Nat.le_of_lt_succ hi) he)
  fresh i hlo hhi := by
    have he : i ≠ b.len := Nat.ne_of_gt hlo
    simp only [Bins.put, Function.update_of_ne he]
    exact h.fresh i (Nat.le_of_succ_le hlo) hhi

theorem Trails.move {last b b' : Bins} (h : Trails last b b') (c : Nat) :
    Trails last b { b' with cur := c } :=
  ⟨h.atEnd, h.ext, h.len, h.cap, h.used, h.fresh⟩

/-- What the second run gives: the same answers exactly when `C` holds, and then it ends in step
    with the first. -/
structure Repeats (make : Nat → Option Nat) (last b b' : Bins) (ns : List Nat) (C : Prop) :
    Prop where
  answers : outs (take make) b' ns = outs (take make) b ns ↔ C
  ends : C → Trails last last (exec (take make) b' ns)

/-- The first answers are equal, and the rest decides. -/
theorem Repeats.cons {make : Nat → Option Nat} {last b b' : Bins} {n : Nat} {ns : List Nat}
    {C C' : Prop} (hhead : (b'.take make n).1 = (b.take make n).1)
    (h : Repeats make last (b.take make n).2 (b'.take make n).2 ns C) (hC : C' ↔ C) :
    Repeats make last b b' (n :: ns) C' := by
  refine ⟨?_, fun hc => h.ends (hC.mp hc)⟩
  rw [hC, ← h.answers, outs, outs, hhead, List.cons.injEq]
  exact ⟨fun he => he.2, fun he => ⟨rfl, he⟩⟩

/-- The first answers differ. -/
theorem Repeats.differ {make : Nat → Option Nat} {last b b' : Bins} {n : Nat} {ns : List Nat}
    {C : Prop} (hhead : (b'.take make n).1 ≠ (b.take make n).1) (hC : ¬ C) :
    Repeats make last b b' (n :: ns) C := by
  refine ⟨⟨fun he => absurd ?_ hhead, fun hc => absurd hc hC⟩, fun hc => absurd hc hC⟩
  rw [outs, outs, List.cons.injEq] at he
  exact he.1

/-- The answer of a run whose cursor is on the last bin names that bin or one behind it. -/
theorem take_atEnd {make : Nat → Option Nat} {b : Bins} (hend : b.cur + 1 = b.len) (n : Nat)
    {i o : Nat} (h : (b.take make n).1 = some (i, o)) : b.cur ≤ i := by
  cases hfind : b.find n with
  | some j =>
    rw [take_found hfind] at h
    obtain ⟨rfl, -⟩ := Prod.mk.inj (Option.some.inj h)
    exact (find_eq_some.mp hfind).2.1
  | none =>
    cases hmake : make n with
    | some c =>
      rw [take_grows hfind hmake] at h
      obtain ⟨rfl, -⟩ := Prod.mk.inj (Option.some.inj h)
      omega
    | none =>
      rw [take_refused ⟨hfind, hmake⟩] at h
      cases h

/-- While the second run's cursor is where the first run's is, it repeats the answers exactly when
    every refused request is bearable. Once it is on the last bin and the first run is not, that
    takes a first run which makes just one more bin, next. -/
structure Replays (make : Nat → Option Nat) (last b : Bins) (ns : List Nat) : Prop where
  inStep : ∀ b', Trails last b b' → b'.cur = b.cur →
    Repeats make last b b' ns (Bearable make last b ns)
  past : ∀ b', Trails last b b' → b.len < last.len → b'.cur + 1 = last.len →
    Repeats make last b b' ns
      (last.len = b.len + 1 ∧ b.NextGrows make ns ∧ Bearable make last b ns)

section Replay

variable {make : Nat → Option Nat} {last b : Bins} {n : Nat} {ns : List Nat}
  (hend : b.cur + 1 = b.len)
include hend

theorem Replays.served (hfit : b.Fits n b.cur) (ih : Replays make last (b.put b.cur n) ns) :
    Replays make last b (n :: ns) := by
  have hfind : b.find n = some b.cur := by rw [find_atEnd hend, if_pos hfit]
  have htake : b.take make n = _ := take_found hfind
  have hno : ¬ b.Refuses make n := by
    rintro ⟨hnone, -⟩
    rw [hfind] at hnone
    cases hnone
  -- A request that is served asks nothing of the condition.
  have hbear : Bearable make last b (n :: ns) ↔ Bearable make last (b.put b.cur n) ns := by
    rw [Bearable, htake]
    exact ⟨fun h => h.2, fun h => ⟨fun hr => absurd hr hno, h⟩⟩
  have hcur : b.cur < b.len := by omega
  constructor
  · intro b' ht hb'
    -- The bin is as full in the second run, so it has room there too.
    have hfind' : b'.find n = some b.cur := by
      refine find_eq_some.mpr ⟨(ht.fits n hcur).mpr hfit, Nat.le_of_eq hb', ?_, ?_⟩
      · rw [ht.len]; exact Nat.lt_of_lt_of_le hcur ht.ext.len
      · intro j hlo hhi
        omega
    have htake' : b'.take make n = _ := take_found hfind'
    refine Repeats.cons ?_ ?_ hbear
    · rw [htake, htake', ht.used b.cur hcur]
    · rw [htake, htake']
      exact ih.inStep _ (ht.put n) rfl
  · intro b' ht hlt hb'
    refine Repeats.differ ?_ ?_
    · intro he
      rw [htake] at he
      have := take_atEnd (by rw [ht.len]; exact hb') n he
      omega
    · rintro ⟨-, ⟨hnone, -⟩ | ⟨hr, -⟩, -⟩
      · rw [hfind] at hnone; cases hnone
      · exact hno hr

theorem Replays.grows (hfit : ¬ b.Fits n b.cur) {c : Nat} (hmake : make n = some c) (hc : n ≤ c)
    (hext : Extends ((b.grow c).put b.len n) last)
    (ih : Replays make last ((b.grow c).put b.len n) ns) : Replays make last b (n :: ns) := by
  have hfind : b.find n = none := by rw [find_atEnd hend, if_neg hfit]
  have htake : b.take make n = _ := take_grows hfind hmake
  have hno : ¬ b.Refuses make n := by
    rintro ⟨-, hnone⟩
    rw [hmake] at hnone
    cases hnone
  have hbear : Bearable make last b (n :: ns) ↔
      Bearable make last ((b.grow c).put b.len n) ns := by
    rw [Bearable, htake]
    exact ⟨fun h => h.2, fun h => ⟨fun hr => absurd hr hno, h⟩⟩
  have hlen : b.len < last.len := hext.len
  have hcap : last.cap b.len = c :=
    (hext.cap b.len (Nat.lt_succ_self _)).trans (Function.update_self _ _ _)
  -- the second run finds the bin that the first one makes
  have hjoin : ∀ {b' : Bins} {C : Prop}, Trails last b b' → b'.find n = some b.len →
      (C ↔ Bearable make last ((b.grow c).put b.len n) ns) →
      Repeats make last b b' (n :: ns) C := by
    intro b' C ht hfind' hC
    have htake' : b'.take make n = _ := take_found hfind'
    refine Repeats.cons ?_ ?_ hC
    · rw [htake, htake', ht.fresh b.len (Nat.le_refl _) hlen]
    · rw [htake, htake']
      exact ih.inStep _ (ht.grow n hext) rfl
  constructor
  · intro b' ht hb'
    have hfind' : b'.find n = some b.len := by
      refine find_eq_some.mpr ⟨?_, by omega, by rw [ht.len]; exact hlen, ?_⟩
      · rw [ht.fits_fresh n (Nat.le_refl _) hlen, hcap]
        exact hc
      · intro j hlo hhi
        obtain rfl : j = b.cur := by omega
        rw [ht.fits n hhi]
        exact hfit
    exact hjoin ht hfind' hbear
  · intro b' ht hlt hb'
    have hend' : b'.cur + 1 = b'.len := by rw [ht.len]; exact hb'
    by_cases hone : last.len = b.len + 1
    · have hcur' : b'.cur = b.len := by omega
      have hfind' : b'.find n = some b.len := by
        rw [find_atEnd hend', hcur', if_pos]
        rw [ht.fits_fresh n (Nat.le_refl _) hlen, hcap]
        exact hc
      have hgrows : b.NextGrows make (n :: ns) := Or.inl ⟨hfind, by rw [hmake]; simp⟩
      exact hjoin ht hfind' (Iff.trans ⟨fun h => h.2.2, fun h => ⟨hone, hgrows, h⟩⟩ hbear)
    · refine Repeats.differ ?_ fun hC => hone hC.1
      intro he
      rw [htake] at he
      have := take_atEnd hend' n he
      omega

section Refused

variable (hr : b.Refuses make n)
include hr

theorem Bearable.refused_iff :
    Bearable make last b (n :: ns) ↔ Bears make last b n ns ∧ Bearable make last b ns := by
  rw [Bearable, take_refused_atEnd hend hr]
  exact ⟨fun h => ⟨h.1 hr, h.2⟩, fun h => ⟨fun _ => h.1, h.2⟩⟩

theorem Refuses.not_fits : ¬ b.Fits n b.cur := by
  intro hf
  have hnone := hr.1
  rw [find_atEnd hend, if_pos hf] at hnone
  cases hnone

/-- No bin is made after it: the second run is refused where the first was. -/
theorem Replays.refused_last (ih : Replays make last b ns) (hsame : last.len = b.len) {b' : Bins}
    (ht : Trails last b b') (hb' : b'.cur = b.cur) :
    Repeats make last b b' (n :: ns) (Bearable make last b (n :: ns)) := by
  have hend' : b'.cur + 1 = b'.len := by rw [hb', ht.len, hsame]; exact hend
  have hfind' : b'.find n = none := by
    rw [find_atEnd hend', if_neg]
    rw [hb', ht.fits n (by omega)]
    exact hr.not_fits hend
  have htake := take_refused_atEnd hend hr
  have htake' := take_refused_atEnd hend' ⟨hfind', hr.2⟩
  refine Repeats.cons (by rw [htake, htake']) ?_ ?_ (C := Bearable make last b ns)
  · rw [htake, htake']
    exact ih.inStep b' ht hb'
  · rw [Bearable.refused_iff hend hr]
    exact ⟨fun h => h.2, fun h => ⟨Or.inl hsame, h⟩⟩

/-- Bins are made after it: the second run finds room in one of them, or is refused with the cursor
    on the last. -/
theorem Replays.refused_early (ih : Replays make last b ns) (hlt : b.len < last.len) {b' : Bins}
    (ht : Trails last b b') (hb' : b'.cur = b.cur) :
    Repeats make last b b' (n :: ns) (Bearable make last b (n :: ns)) := by
  have hsame : last.len ≠ b.len := Nat.ne_of_gt hlt
  have htake := take_refused_atEnd hend hr
  -- A bin that the first run made later has room for the request, or none has.
  cases hfind' : b'.find n with
  | some i =>
    have htake' : b'.take make n = _ := take_found hfind'
    refine Repeats.differ (by rw [htake, htake']; simp) ?_
    rw [Bearable.refused_iff hend hr]
    rintro ⟨hlen | ⟨hone, hsmall, -⟩, -⟩
    · exact hsame hlen
    · obtain ⟨hfit', hlo, hhi, -⟩ := find_eq_some.mp hfind'
      rw [ht.len] at hhi
      rcases Nat.lt_or_ge i b.len with hi | hi
      · obtain rfl : i = b.cur := by omega
        exact hr.not_fits hend ((ht.fits n hi).mp hfit')
      · obtain rfl : i = b.len := by omega
        exact absurd ((ht.fits_fresh n hi hhi).mp hfit') (Nat.not_le.mpr hsmall)
  | none =>
    have htake' : b'.take make n = _ := take_refused ⟨hfind', hr.2⟩
    refine Repeats.cons (by rw [htake, htake']) ?_ ?_
      (C := last.len = b.len + 1 ∧ b.NextGrows make ns ∧ Bearable make last b ns)
    · rw [htake, htake']
      refine ih.past _ (ht.move _) hlt ?_
      show b'.len - 1 + 1 = last.len
      rw [ht.len]
      omega
    · rw [Bearable.refused_iff hend hr, Bears]
      constructor
      · rintro ⟨hlen | ⟨hone, -, hnext⟩, hrest⟩
        · exact absurd hlen hsame
        · exact ⟨hone, hnext, hrest⟩
      · rintro ⟨hone, hnext, hrest⟩
        refine ⟨Or.inr ⟨hone, ?_, hnext⟩, hrest⟩
        have hsmall := find_eq_none.mp hfind' b.len (by omega) (by rw [ht.len]; exact hlt)
        rw [ht.fits_fresh n (Nat.le_refl _) hlt] at hsmall
        exact Nat.not_le.mp hsmall

/-- The second run is on the last bin already. -/
theorem Replays.refused_past (ih : Replays make last b ns) {b' : Bins} (ht : Trails last b b')
    (hlt : b.len < last.len) (hb' : b'.cur + 1 = last.len) :
    Repeats make last b b' (n :: ns)
      (last.len = b.len + 1 ∧ b.NextGrows make (n :: ns) ∧ Bearable make last b (n :: ns)) := by
  have hend' : b'.cur + 1 = b'.len := by rw [ht.len]; exact hb'
  have htake := take_refused_atEnd hend hr
  -- The one bin made later has room or has none.
  by_cases hfit' : b'.Fits n b'.cur
  · have hfind' : b'.find n = some b'.cur := by rw [find_atEnd hend', if_pos hfit']
    have htake' : b'.take make n = _ := take_found hfind'
    refine Repeats.differ (by rw [htake, htake']; simp) ?_
    rw [Bearable.refused_iff hend hr]
    rintro ⟨hone, -, hlen | ⟨-, hsmall, -⟩, -⟩
    · omega
    · have hcur' : b'.cur = b.len := by omega
      rw [hcur', ht.fits_fresh n (Nat.le_refl _) hlt] at hfit'
      exact absurd hfit' (Nat.not_le.mpr hsmall)
  · have hfind' : b'.find n = none := by rw [find_atEnd hend', if_neg hfit']
    have htake' := take_refused_atEnd hend' ⟨hfind', hr.2⟩
    refine Repeats.cons (by rw [htake, htake']) ?_ ?_
      (C := last.len = b.len + 1 ∧ b.NextGrows make ns ∧ Bearable make last b ns)
    · rw [htake, htake']
      exact ih.past b' ht hlt hb'
    · rw [Bearable.refused_iff hend hr, Bears]
      constructor
      · rintro ⟨hone, ⟨-, hsome⟩ | ⟨-, hnext⟩, -, hrest⟩
        · exact absurd hr.2 hsome
        · exact ⟨hone, hnext, hrest⟩
      · rintro ⟨hone, hnext, hrest⟩
        refine ⟨hone, Or.inr ⟨hr, hnext⟩, Or.inr ⟨hone, ?_, hnext⟩, hrest⟩
        have hcur' : b'.cur = b.len := by omega
        rw [hcur', ht.fits_fresh n (Nat.le_refl _) hlt] at hfit'
        exact Nat.not_le.mp hfit'

theorem Replays.refused (hext : Extends b last) (ih : Replays make last b ns) :
    Replays make last b (n :: ns) := by
  constructor
  · intro b' ht hb'
    by_cases hsame : last.len = b.len
    · exact Replays.refused_last hend hr ih hsame ht hb'
    · have hlt : b.len < last.len := Nat.lt_of_le_of_ne hext.len fun he => hsame he.symm
      exact Replays.refused_early hend hr ih hlt ht hb'
  · intro b' ht hlt hb'
    exact Replays.refused_past hend hr ih ht hlt hb'

end Refused

end Replay

theorem replays {make : Nat → Option Nat} :
    ∀ (ns : List Nat) {b : Bins}, (∀ n ∈ ns, ∀ c, make n = some c → n ≤ c) →
      b.cur + 1 = b.len → Replays make (exec (take make) b ns) b ns := by
  intro ns
  induction ns with
  | nil =>
    intro b _ _
    refine ⟨fun b' ht _ => ⟨⟨fun _ => trivial, fun _ => rfl⟩, fun _ => ht⟩, ?_⟩
    intro b' _ hlt
    exact absurd hlt (Nat.lt_irrefl _)
  | cons n ns ih =>
    intro b hmake hend
    obtain ⟨hn, hns⟩ := List.forall_mem_cons.mp hmake
    rw [exec_cons]
    -- Served, answered by a new bin, or refused.
    by_cases hfit : b.Fits n b.cur
    · have hfind : b.find n = some b.cur := by rw [find_atEnd hend, if_pos hfit]
      rw [take_found hfind]
      exact Replays.served hend hfit (ih hns hend)
    · have hfind : b.find n = none := by rw [find_atEnd hend, if_neg hfit]
      cases hm : make n with
      | some c =>
        rw [take_grows hfind hm]
        exact Replays.grows hend hfit hm (hn c hm) (extends_exec make ns _) (ih hns rfl)
      | none =>
        rw [take_refused_atEnd hend ⟨hfind, hm⟩]
        exact Replays.refused hend ⟨hfind, hm⟩ (extends_exec make ns _) (ih hns hend)

/-- **Replay.** After a run from one empty bin and a rewind, the same requests get the same answers
    if and only if every request the first run refused is bearable; then no bin is made, and the
    bins are filled as before. -/
theorem replay_iff {make : Nat → Option Nat} {ns : List Nat}
    (hmake : ∀ n ∈ ns, ∀ c, make n = some c → n ≤ c) {b : Bins} (hlen : b.len = 1)
    (hcur : b.cur = 0) (hused : b.used 0 = 0) :
    Repeats make (exec (take make) b ns) b (exec (take make) b ns).rewind ns
      (Bearable make (exec (take make) b ns) b ns) := by
  have hend : b.cur + 1 = b.len := by rw [hcur, hlen]
  refine (replays ns hmake hend).inStep _ ⟨hend, extends_exec make ns b, rfl, fun _ _ => rfl, ?_,
    fun _ _ _ => rfl⟩ hcur.symm
  intro i hi
  obtain rfl : i = 0 := by omega
  exact hused.symm

end Bins
end Lib
end Inac
