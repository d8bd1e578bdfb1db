import Inac.Mempool.Env

/-!
# Alignment of blocks

`ina_mempool_dalloc_aligned` and `ina_mempool_nalloc_aligned` round the *size* of a request up to
its alignment and take the block where the last one ended. So a block stands at a multiple of its
alignment only if its chunk's `pos` (for `nalloc`, its `end`) happened to be one: the requests
before it decide. A new chunk starts at zero, or behind the reference count of a shared pool, and
ends at a multiple of sixteen.

`Misplaced` says when a request gets a block at the wrong place, in terms of the pool it meets, and
that is exact in every run.

The conditions on both sides are about the same number: the place that the request will get. It is
`pos` of the chunk that serves a `dalloc`, and `end` less the rounded size for an `nalloc`; the size
is a multiple of the alignment, so only `end` counts (`dvd_subSz_iff`), also where the difference
wraps.
-/

namespace Inac
namespace Mempool

open Lib

/-! ## Multiples of a power of two -/

theorem dvd_memAlignN {k : Nat} (hk : k ≤ 64) (n : Nat) : 2 ^ k ∣ memAlignN n (2 ^ k) := by
  have hlt : addSz n (2 ^ k - 1) < 2 ^ 64 := Nat.mod_lt _ (Nat.two_pow_pos 64)
  rw [memAlignN, and_high_mask hlt hk]
  exact Nat.dvd_mul_left ..

/-- Taking a multiple of the alignment off keeps what is a multiple of it, also when it wraps. -/
theorem dvd_subSz_iff {k : Nat} (hk : k ≤ 64) (x : Nat) {n : Nat} (hn : 2 ^ k ∣ n) :
    2 ^ k ∣ subSz x n ↔ 2 ^ k ∣ x := by
  have hfull : 2 ^ k ∣ 2 ^ 64 := Nat.pow_dvd_pow 2 hk
  rw [subSz, Nat.dvd_mod_iff hfull]
  exact Nat.dvd_add_iff_left (Nat.dvd_sub hfull hn) |>.symm

/-! ## Runs of requests

Memory may be refused at any point. A run goes on after a `NULL`, and ends where the program stores
through one. -/

/-- A request for a block. -/
inductive Req where
  | dalloc (size alignment : Nat)
  | nalloc (size alignment : Nat)
  deriving DecidableEq, Repr

def Req.alignment : Req → Nat
  | .dalloc _ alignment => alignment
  | .nalloc _ alignment => alignment

/-- The pool of a run is structure `0`; there is none when it could not be made, or when the
    program is down. -/
def Env.start (E : Env) (junk : Nat → Nat → UInt8) (size : Nat) (cf : UInt32) : Option Heap :=
  match E.inaMempoolNew ⟨0, fun _ => default, junk⟩ size cf with
  | .pool _ h => some h
  | _ => none

/-- A store through `NULL` ends the program. -/
def Ret.next : Ret × Heap → Ret × Option Heap
  | (.fault, _) => (.fault, none)
  | (ret, h) => (ret, some h)

def allocStep (E : Env) : Option Heap → Req → Ret × Option Heap
  | none, _ => (.fault, none)
  | some h, .dalloc size alignment => Ret.next (E.dallocAligned h 0 size alignment)
  | some h, .nalloc size alignment => Ret.next (E.nallocAligned h 0 size alignment)

/-- A block that is returned stands at a multiple of the alignment asked for. -/
def Aligned (E : Env) (s : Option Heap) (r : Req) : Prop :=
  ∀ p, (allocStep E s r).1 = .ok p → r.alignment ∣ p.off

/-- The request is served where the place is not a multiple of its alignment: for `dalloc`, the
    first chunk from `current` on with room has a `pos` that is not one, or a new chunk of a shared
    pool is needed; for `nalloc`, the `end` of the current chunk, or of a new one, is not one. -/
def Misplaced (E : Env) : Option Heap → Req → Prop
  | none, _ => False
  | some h, .dalloc size alignment =>
    match h.roomy (memAlignN size alignment) (h.candidates 0) with
    | some c => ¬ alignment ∣ (h.pool c).pos
    | none => (h.pool 0).cf &&& memDynamic ≠ 0 ∧
        E.Grants (h.pool 0) (memAlignN size alignment) ∧ ¬ alignment ∣ firstPos (h.pool 0)
  | some h, .nalloc size alignment =>
    memAlignN size alignment ≤ (h.pool 0).endPos ∧
      if (h.pool (h.pool 0).current).Full (memAlignN size alignment) then
        (h.pool 0).cf &&& memDynamic ≠ 0 ∧ E.Grants (h.pool 0) (memAlignN size alignment) ∧
          ¬ alignment ∣ chunkEnd (h.pool 0) (memAlignN size alignment)
      else ¬ alignment ∣ (h.pool (h.pool 0).current).endPos

/-- What runs keep: chains point forward, and the root is there. -/
def Sound (s : Option Heap) : Prop := ∀ h, s = some h → h.Linked ∧ 0 < h.count

/-- The pool of a run, when there is one, is as `ina_mempool_new` makes it. -/
theorem Env.start_created (E : Env) {junk : Nat → Nat → UInt8} {size : Nat} {cf : UInt32} {h : Heap}
    (hs : E.start junk size cf = some h) :
    E.Gives size cf ∧ Created ⟨0, fun _ => default, junk⟩ size cf h := by
  rw [Env.start] at hs
  rcases E.inaMempoolNew_cases ⟨0, fun _ => default, junk⟩ size cf with
    ⟨hg, h', heq, hnew⟩ | ⟨-, heq⟩ <;> simp only [heq] at hs
  · obtain rfl := Option.some.inj hs
    exact ⟨hg, hnew⟩
  · split at hs
    · rename_i hpool
      split at hpool <;> cases hpool
    · cases hs

theorem Env.start_sound (E : Env) (junk : Nat → Nat → UInt8) (size : Nat) (cf : UInt32) :
    Sound (E.start junk size cf) := by
  intro h hs
  obtain ⟨-, hnew⟩ := E.start_created hs
  have hcount : h.count = 1 := hnew.count
  have hzero : ∀ i < h.count, i = 0 := by omega
  refine ⟨⟨fun i hi c hc => ?_, fun i hi => ?_⟩, by omega⟩
  · rw [hzero i hi, show (h.pool 0).child = none from hnew.child] at hc
    cases hc
  · rw [hzero i hi, show (h.pool 0).current = 0 from hnew.current]
    omega

theorem Ret.next_some {r : Ret × Heap} {h : Heap} (hr : (Ret.next r).2 = some h) : r.2 = h := by
  obtain ⟨ret, h'⟩ := r
  cases ret <;> first | exact Option.some.inj hr | cases hr

theorem Ret.next_ok {r : Ret × Heap} {p : Ptr} : (Ret.next r).1 = .ok p ↔ r.1 = .ok p := by
  obtain ⟨ret, h'⟩ := r
  cases ret <;> exact Iff.rfl

theorem Sound.step {s : Option Heap} (hs : Sound s) (E : Env) (r : Req) :
    Sound (allocStep E s r).2 := by
  intro h' heq
  cases s with
  | none => cases heq
  | some h =>
    obtain ⟨hl, hroot⟩ := hs h rfl
    cases r with
    | dalloc size alignment =>
      obtain rfl := Ret.next_some heq
      have hd := (E.dallocAligned_dallocs hl hroot size alignment).linked hl
      exact ⟨hd.1, Nat.lt_of_lt_of_le hroot hd.2⟩
    | nalloc size alignment =>
      obtain rfl := Ret.next_some heq
      have hd := (E.nallocAligned_nallocs hroot (hl.current 0 hroot) size alignment).linked hl
      exact ⟨hd.1, Nat.lt_of_lt_of_le hroot hd.2⟩

/-! ## One request

By the ways in which a request ends (`Env.Dallocs`, `Env.Nallocs`). -/

/-- Alignments a caller may ask for: powers of two that a `size_t` holds. -/
def Req.Valid (r : Req) : Prop := ∃ k < 64, r.alignment = 2 ^ k

theorem aligned_dalloc_iff (E : Env) {h : Heap} (hl : h.Linked) (hroot : 0 < h.count)
    (size alignment : Nat) :
    Aligned E (some h) (.dalloc size alignment) ↔ ¬ Misplaced E (some h) (.dalloc size alignment) := by
  have hd := E.dallocAligned_dallocs hl hroot size alignment
  simp only [Aligned, allocStep, Ret.next_ok, Misplaced, Req.alignment]
  generalize E.dallocAligned h 0 size alignment = r at hd
  cases hd with
  | served c hroom _ =>
    simp [hroom]
  | grown z h' hfull hdyn hgrant _ _ _ =>
    simp [hfull, hdyn, hgrant]
  | refused z hfull hdyn hgrant _ _ =>
    simp only [hfull, hgrant, false_and, and_false, not_false_eq_true, iff_true]
    intro p hp
    exact absurd hp (E.refusal_ne_ok _ _ p)
  | full hfull hfix =>
    simp [hfull, hfix]

theorem aligned_nalloc_iff (E : Env) {h : Heap} (hl : h.Linked) (hroot : 0 < h.count) {k : Nat}
    (hk : k ≤ 64) (size : Nat) :
    Aligned E (some h) (.nalloc size (2 ^ k)) ↔ ¬ Misplaced E (some h) (.nalloc size (2 ^ k)) := by
  have hd := E.nallocAligned_nallocs hroot (hl.current 0 hroot) size (2 ^ k)
  have hdvd := dvd_memAlignN hk size
  simp only [Aligned, allocStep, Ret.next_ok, Misplaced, Req.alignment]
  generalize E.nallocAligned h 0 size (2 ^ k) = r at hd
  cases hd with
  | bogus hend =>
    simp [Nat.not_le.mpr hend]
  | served hend hroom =>
    simp [hend, hroom, dvd_subSz_iff hk _ hdvd]
  | grown h' hend hfull hdyn hgrant _ =>
    simp [hend, hfull, hdyn, hgrant, dvd_subSz_iff hk _ hdvd]
  | refused hend hfull hdyn hgrant =>
    simp [hfull, hgrant]
  | full hend hfull hfix =>
    simp [hfull, hfix]

theorem aligned_iff (E : Env) {s : Option Heap} (hs : Sound s) {r : Req} (hr : r.Valid) :
    Aligned E s r ↔ ¬ Misplaced E s r := by
  cases s with
  | none => exact ⟨fun _ => id, fun _ p hp => by cases hp⟩
  | some h =>
    obtain ⟨hl, hroot⟩ := hs h rfl
    cases r with
    | dalloc size alignment => exact aligned_dalloc_iff E hl hroot size alignment
    | nalloc size alignment =>
      obtain ⟨k, hk, rfl⟩ : ∃ k < 64, alignment = 2 ^ k := hr
      exact aligned_nalloc_iff E hl hroot (Nat.le_of_lt hk) size

/-! ## Runs -/

/-- **Blocks are aligned exactly when none is misplaced.** In every history of requests on a new
    pool of any kind, with any powers of two for alignments, each block that is returned stands at
    a multiple of its alignment if and only if no request meets a pool in which it is misplaced. -/
theorem aligned_iff_never_misplaced (E : Env) (junk : Nat → Nat → UInt8) (size : Nat) (cf : UInt32)
    (reqs : List Req) (hr : ∀ r ∈ reqs, r.Valid) :
    Along (allocStep E) (Aligned E) (E.start junk size cf) reqs ↔
      Never (allocStep E) (Misplaced E) (E.start junk size cf) reqs := by
  exact along_iff_never (I := Sound) (fun _ r _ _ hs => hs.step E r)
    (fun _ _ hv hs => aligned_iff E hs hv) (along_iff_forall.mpr hr) (E.start_sound junk size cf)

/-- Everything is to be had. -/
def Env.ample : Env := ⟨fun _ => true, fun _ => .ok ()⟩

/-- One alignment from both sides of a chunk. -/
theorem aligned_iff_never_misplaced_both_sides :
    Along (allocStep .ample) (Aligned .ample) (Env.ample.start (fun _ _ => 0) 1024 0)
      [.dalloc 5 16, .nalloc 40 16, .dalloc 1 16] := by
  have hr : ∀ r ∈ [Req.dalloc 5 16, .nalloc 40 16, .dalloc 1 16], r.Valid := by
    intro r hmem
    refine ⟨4, by decide, ?_⟩
    simp only [List.mem_cons, List.not_mem_nil, or_false] at hmem
    rcases hmem with rfl | rfl | rfl <;> rfl
  refine (aligned_iff_never_misplaced .ample (fun _ _ => 0) 1024 0 _ hr).mpr ⟨?_, ?_, ?_, trivial⟩
  · show ¬ ¬ 16 ∣ 0
    decide
  · show ¬ (48 ≤ 1024 ∧ ¬ 16 ∣ 1024)
    decide
  · show ¬ ¬ 16 ∣ 16
    decide

/-- A byte at any place, and the next request, for a multiple of sixteen, stands at 1. -/
theorem aligned_block_at_one :
    (∀ r ∈ [Req.dalloc 1 1, .dalloc 16 16], r.Valid) ∧
      outs (allocStep .ample) (Env.ample.start (fun _ _ => 0) 1024 0) [.dalloc 1 1, .dalloc 16 16] =
        [.ok ⟨0, 0⟩, .ok ⟨0, 1⟩] ∧
      ¬ Along (allocStep .ample) (Aligned .ample) (Env.ample.start (fun _ _ => 0) 1024 0)
        [.dalloc 1 1, .dalloc 16 16] := by
  refine ⟨?_, rfl, ?_⟩
  · intro r hmem
    simp only [List.mem_cons, List.not_mem_nil, or_false] at hmem
    rcases hmem with rfl | rfl
    · exact ⟨0, by decide, rfl⟩
    · exact ⟨4, by decide, rfl⟩
  · rintro ⟨-, haligned, -⟩
    have hdvd : 16 ∣ 1 := haligned ⟨0, 1⟩ rfl
    revert hdvd
    decide

end Mempool
end Inac
