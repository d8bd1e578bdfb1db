import Inac.Ullc.Inv

/-!
# Back-pressure

With overrun disabled, `claim` is to wait until the slowest consumer has left the slot it wants to
write. It compares positions already reduced modulo `slots`: it goes on when no consumer's slot is
*above* the wanted one. As long as every consumer is less than a round behind, that is the right
test: a consumer at or below the wanted slot is in the same round, so it has read what the slot
held (`lap_of_emod_le`).

The test fails for a consumer exactly one round behind, whose slot **is** the wanted one and not
above it. Where the wanted slot is not the first, the previous claim has let no consumer fall that
far back. Where it is slot 0 nothing has: the last claim of a round only asks that all consumers
are in that round, and a consumer that has read nothing of it is a round behind at the next
position. `LapRead` is the read of such a consumer's cursor, and `claim_right_of_no_lap_read` says
that in a run without it every claim returns a slot all consumers have left.
-/

namespace Inac
namespace Ullc

open Lib

variable {δ : Type}

/-- A consumer less than a round behind whose slot is not above the wanted one is in the wanted
    position's round. -/
theorem lap_of_emod_le {n c s : Int} (hs : 0 < s) (hlag : n - c < s)
    (hmod : c % s ≤ n % s) : n - n % s ≤ c := by
  by_contra hlt
  have hdiv := Int.mul_ediv_add_emod n s
  have hr := Int.emod_nonneg n (Int.ne_of_gt hs)
  -- `c` is in the round before, behind the wanted slot
  have hc : c % s = c - (n - n % s - s) := by
    have hround : s * (n / s - 1) = s * (n / s) - s := by rw [Int.mul_sub, Int.mul_one]
    have hsplit : c - (n - n % s - s) + s * (n / s - 1) = c := by omega
    have hsmall : (c - (n - n % s - s)) % s = c - (n - n % s - s) :=
      Int.emod_eq_of_lt (by omega) (by omega)
    rw [← Int.add_mul_emod_self_left _ s (n / s - 1), hsplit] at hsmall
    exact hsmall
  omega

/-! ## Pace

What is known of the slow consumers at each program counter of the producer. It only gets better
while a consumer reads on (`Pace.mono`), so a cursor that was read before may be out of date and
still be good. -/

/-- Before the check: the consumer is less than a round behind, or exactly a round behind at the
    start of a round. -/
def Low (slots nextPtr c : Int) : Prop :=
  nextPtr - c < slots ∨ (nextPtr % slots = 0 ∧ c = nextPtr - slots)

/-- The consumer is in the round of position `n`. -/
def Lap (slots n c : Int) : Prop := n - n % slots ≤ c

theorem Low.mono {slots nextPtr c c' : Int} (h : Low slots nextPtr c)
    (hle : c ≤ c') : Low slots nextPtr c' := by
  unfold Low at h ⊢
  rcases h with h | ⟨hz, h⟩
  · exact Or.inl (by omega)
  · by_cases heq : c' = nextPtr - slots
    · exact Or.inr ⟨hz, heq⟩
    · exact Or.inl (by omega)

theorem Lap.mono {slots n c c' : Int} (h : Lap slots n c) (hle : c ≤ c') : Lap slots n c' :=
  Int.le_trans h hle

theorem Lap.low {slots n c : Int} (hs : 0 < slots) (h : Lap slots n c) :
    Low slots (n + 1) c := by
  unfold Lap at h
  have hr := Int.emod_lt_of_pos n hs
  by_cases hlast : n % slots + 1 < slots
  · exact Or.inl (by omega)
  · have hz : (n + 1) % slots = 0 := by
      have hdiv := Int.mul_ediv_add_emod n slots
      have hround : n + 1 = slots * (n / slots + 1) := by rw [Int.mul_add, Int.mul_one]; omega
      rw [hround, Int.mul_emod_right]
    by_cases hc : c = n + 1 - slots
    · exact Or.inr ⟨hz, hc⟩
    · exact Or.inl (by omega)

/-- The consumers `claim` waits for. -/
def Waits (s : Sys δ) (k : Nat) : Prop := k < s.ring.numConsumers ∧ (s.cons k).alive = true

/-- What is known of the consumers' cursors at each step of the producer. Between the scans of one
    claim, a consumer already looked at is in the wanted round, unless `slow_consumer` says that
    some consumer is above the wanted slot. -/
def Pace (s : Sys δ) : ProdPc → Prop
  | .idle => ∀ k, Waits s k → Low s.ring.slots s.ring.nextPtr (s.cons k).cursor
  | .position slow =>
    slow = int64Max ∧ ∀ k, Waits s k → Low s.ring.slots s.ring.nextPtr (s.cons k).cursor
  | .loop slow like =>
    (∀ k, Waits s k → Low s.ring.slots s.ring.nextPtr (s.cons k).cursor) ∧
      (slow ≤ like → ∀ k, Waits s k → Lap s.ring.slots s.ring.nextPtr (s.cons k).cursor)
  | .alive i slow like =>
    (∀ k, Waits s k → Low s.ring.slots s.ring.nextPtr (s.cons k).cursor) ∧
      (slow ≤ like → ∀ k < i, Waits s k → Lap s.ring.slots s.ring.nextPtr (s.cons k).cursor)
  | .cursor i slow like =>
    Waits s i ∧ (∀ k, Waits s k → Low s.ring.slots s.ring.nextPtr (s.cons k).cursor) ∧
      (slow ≤ like → ∀ k < i, Waits s k → Lap s.ring.slots s.ring.nextPtr (s.cons k).cursor)
  | .claimed _ => ∀ k, Waits s k → Lap s.ring.slots s.ring.nextPtr (s.cons k).cursor
  | .commit _ => ∀ k, Waits s k → Lap s.ring.slots (s.ring.nextPtr - 1) (s.cons k).cursor

theorem Pace.mono {s s' : Sys δ} (hring : s'.ring = s.ring)
    (halive : ∀ k, (s'.cons k).alive = (s.cons k).alive)
    (hle : ∀ k, (s.cons k).cursor ≤ (s'.cons k).cursor) {pc : ProdPc} (h : Pace s pc) :
    Pace s' pc := by
  -- The consumers waited for are the same ones.
  have hwaits : ∀ k, Waits s' k → Waits s k := fun k hk => by
    unfold Waits at hk ⊢
    rw [hring, halive] at hk
    exact hk
  have hwaits' : ∀ k, Waits s k → Waits s' k := fun k hk => by
    unfold Waits at hk ⊢
    rw [hring, halive]
    exact hk
  cases pc with
  | idle => intro k hk; rw [hring]; exact (h k (hwaits k hk)).mono (hle k)
  | position slow =>
    refine ⟨h.1, fun k hk => ?_⟩
    rw [hring]; exact (h.2 k (hwaits k hk)).mono (hle k)
  | loop slow like =>
    refine ⟨fun k hk => ?_, fun hslow k hk => ?_⟩ <;> rw [hring]
    · exact (h.1 k (hwaits k hk)).mono (hle k)
    · exact (h.2 hslow k (hwaits k hk)).mono (hle k)
  | alive i slow like =>
    refine ⟨fun k hk => ?_, fun hslow k hki hk => ?_⟩ <;> rw [hring]
    · exact (h.1 k (hwaits k hk)).mono (hle k)
    · exact (h.2 hslow k hki (hwaits k hk)).mono (hle k)
  | cursor i slow like =>
    refine ⟨hwaits' i h.1, fun k hk => ?_, fun hslow k hki hk => ?_⟩ <;> rw [hring]
    · exact (h.2.1 k (hwaits k hk)).mono (hle k)
    · exact (h.2.2 hslow k hki (hwaits k hk)).mono (hle k)
  | claimed like => intro k hk; rw [hring]; exact (h k (hwaits k hk)).mono (hle k)
  | commit like => intro k hk; rw [hring]; exact (h k (hwaits k hk)).mono (hle k)

/-! ## Runs of consumers that have joined

A consumer that joins in the middle of a claim would start at a position the scan knows nothing of.
So it is about runs in which all have joined before. -/

/-- The consumer is past `consumer_new`. -/
def ConsPc.Joined : ConsPc → Prop
  | .ready _ => True
  | .wait _ _ => True
  | .index _ => True
  | .bump _ _ => True
  | _ => False

/-- The invariant of a ring with overrun disabled whose set of consumers `T` is fixed. -/
structure Paced (T : Nat → Prop) (s : Sys δ) : Prop where
  ok : s.Ok
  overrun : s.ring.overrunEnabled = int64Max
  slots : s.ring.slots ≤ int64Max
  joined : ∀ t, T t → (s.thread t).pc.Joined
  owners : ∀ t k, (s.thread t).pc.owns = some k → (s.thread t).pc.Joined
  pace : Pace s s.prod

theorem Paced.cursor_nonneg {T : Nat → Prop} {s : Sys δ} (hs : Paced T s) (k : Nat) :
    0 ≤ (s.cons k).cursor := by
  by_cases howned : ∃ t, (s.thread t).pc.owns = some k
  · obtain ⟨t, ht⟩ := howned
    have hjoined := hs.owners t k ht
    have hth := hs.ok.thread t
    have hreading : Reading s.ring.slots s.ring.cursor (s.cons k) (s.thread t) := by
      unfold Consumer.Ok at hth
      cases hpc : (s.thread t).pc with
      | ready id => rw [hpc] at hth ht; obtain rfl := Option.some.inj ht; exact hth
      | wait id w => rw [hpc] at hth ht; obtain rfl := Option.some.inj ht; exact hth.1
      | index id => rw [hpc] at hth ht; obtain rfl := Option.some.inj ht; exact hth.1
      | bump id idx => rw [hpc] at hth ht; obtain rfl := Option.some.inj ht; exact hth.1
      | _ => rw [hpc] at hjoined; exact hjoined.elim
    have := hreading.start
    have := hreading.cursor
    omega
  · have hzero : (s.cons k).cursor = 0 := by rw [hs.ok.free k fun t ht => howned ⟨t, ht⟩]
    exact Int.le_of_eq hzero.symm

theorem stepProd_keeps (s : Sys δ) :
    (stepProd s).2.ring.overrunEnabled = s.ring.overrunEnabled ∧
      (stepProd s).2.ring.slots = s.ring.slots ∧ (stepProd s).2.thread = s.thread := by
  unfold stepProd
  cases s.prod with
  | loop slow like => simp only; split <;> exact ⟨rfl, rfl, rfl⟩
  | alive i slow like =>
    simp only
    split
    · split <;> exact ⟨rfl, rfl, rfl⟩
    · exact ⟨rfl, rfl, rfl⟩
  | _ => exact ⟨rfl, rfl, rfl⟩

theorem stepCons_keeps (s : Sys δ) (t : Nat) :
    (stepCons s t).2.ring = s.ring ∧ (stepCons s t).2.prod = s.prod ∧
      ∀ u, u ≠ t → (stepCons s t).2.thread u = s.thread u := by
  have hother : ∀ (th : Consumer) (u : Nat), u ≠ t → Function.update s.thread t th u = s.thread u :=
    fun _ _ hu => Function.update_of_ne hu ..
  unfold stepCons
  cases (s.thread t).pc with
  | scan id =>
    simp only
    split
    · split
      · exact ⟨rfl, rfl, hother _⟩
      · exact ⟨rfl, rfl, hother _⟩
    · exact ⟨rfl, rfl, hother _⟩
  | exceeded => exact ⟨rfl, rfl, fun _ _ => rfl⟩
  | check id => simp only; split <;> exact ⟨rfl, rfl, hother _⟩
  | wait id w => simp only; split <;> exact ⟨rfl, rfl, hother _⟩
  | _ => exact ⟨rfl, rfl, hother _⟩

/-- A consumer that has joined stays joined, keeps who is alive, and only moves cursors on. -/
theorem stepCons_joined {s : Sys δ} {t : Nat} (hjoined : (s.thread t).pc.Joined) :
    ((stepCons s t).2.thread t).pc.Joined ∧
      (∀ k, ((stepCons s t).2.cons k).alive = (s.cons k).alive) ∧
      ∀ k, (s.cons k).cursor ≤ ((stepCons s t).2.cons k).cursor := by
  -- Most steps change the program counter only.
  have hgoto : ∀ pc : ConsPc, pc.Joined → ((s.goto t pc).thread t).pc.Joined := by
    intro pc hpc
    simp only [Sys.goto, Function.update_self]
    exact hpc
  unfold stepCons
  cases hpc : (s.thread t).pc with
  | ready id => exact ⟨hgoto _ trivial, fun _ => rfl, fun _ => Int.le_refl _⟩
  | wait id w =>
    simp only
    split
    · exact ⟨hgoto _ trivial, fun _ => rfl, fun _ => Int.le_refl _⟩
    · exact ⟨hgoto _ trivial, fun _ => rfl, fun _ => Int.le_refl _⟩
  | index id => exact ⟨hgoto _ trivial, fun _ => rfl, fun _ => Int.le_refl _⟩
  | bump id idx =>
    refine ⟨by simp only [Function.update_self]; trivial, fun k => ?_, fun k => ?_⟩
    · by_cases hk : k = id
      · subst hk; simp only [Sys.store_cons_self]
      · simp only [Sys.store, Function.update_of_ne hk]
    · by_cases hk : k = id
      · subst hk; simp only [Sys.store_cons_self]; omega
      · simp only [Sys.store, Function.update_of_ne hk]; exact Int.le_refl _
  | _ => rw [hpc] at hjoined; exact hjoined.elim

theorem Paced.cons {T : Nat → Prop} {s : Sys δ} (hs : Paced T s) {t : Nat} (ht : T t) :
    Paced T (stepCons s t).2 := by
  obtain ⟨hring, hprod, hother⟩ := stepCons_keeps s t
  obtain ⟨hself, halive, hle⟩ := stepCons_joined (hs.joined t ht)
  have hthread : ∀ u, (s.thread u).pc.Joined → ((stepCons s t).2.thread u).pc.Joined := by
    intro u hu
    by_cases hut : u = t
    · rw [hut]; exact hself
    · rw [hother u hut]; exact hu
  refine ⟨stepCons_ok hs.ok t, by rw [hring]; exact hs.overrun, by rw [hring]; exact hs.slots,
    fun u hu => hthread u (hs.joined u hu), fun u k huk => ?_, ?_⟩
  · by_cases hut : u = t
    · rw [hut]; exact hself
    · rw [hother u hut] at huk ⊢; exact hs.owners u k huk
  · rw [hprod]
    exact hs.pace.mono hring halive hle

/-! ## The producer

The scan goes on to the next consumer if the slot is not above the wanted one. It is a step that
adds one consumer to those known to be in the round, unless it is a lap read. -/

/-- The producer, claiming the first slot, is about to read the cursor of a consumer exactly one
    round behind. -/
def ReadsLap (s : Sys δ) : ProdPc → Prop
  | .cursor i _ like => like = 0 ∧ (s.cons i).cursor = s.ring.nextPtr - s.ring.slots
  | _ => False

instance (s : Sys δ) : (pc : ProdPc) → Decidable (ReadsLap s pc)
  | .cursor .. => inferInstanceAs (Decidable (_ ∧ _))
  | .idle => inferInstanceAs (Decidable False)
  | .position _ => inferInstanceAs (Decidable False)
  | .loop .. => inferInstanceAs (Decidable False)
  | .alive .. => inferInstanceAs (Decidable False)
  | .claimed _ => inferInstanceAs (Decidable False)
  | .commit _ => inferInstanceAs (Decidable False)

/-- The step is such a read. -/
def LapRead (s : Sys δ) : Act δ → Prop
  | .prod => ReadsLap s s.prod
  | _ => False

instance (s : Sys δ) : (a : Act δ) → Decidable (LapRead s a)
  | .prod => inferInstanceAs (Decidable (ReadsLap s s.prod))
  | .fill _ => inferInstanceAs (Decidable False)
  | .cons _ => inferInstanceAs (Decidable False)

/-- What the producer relies on when `claim` returns: every consumer it waits for has left the
    slot. -/
def ClaimRight (s : Sys δ) (a : Act δ) : Prop :=
  ∀ like, (step s a).1 = .claimed like →
    ∀ k < s.ring.numConsumers, (s.cons k).alive = true →
      s.ring.nextPtr - (s.cons k).cursor < s.ring.slots

/-- The consumer just read is in the lap: its slot is not above the wanted one, and it is not the
    read of a consumer one round behind. -/
theorem Paced.lap_of_read {T : Nat → Prop} {s : Sys δ} (hs : Paced T s) {i : Nat} {slow like : Int}
    (hpc : s.prod = .cursor i slow like) (hread : ¬ LapRead s .prod)
    (hlow : Low s.ring.slots s.ring.nextPtr (s.cons i).cursor)
    (hslow : (s.cons i).cursor.tmod s.ring.slots ≤ like) :
    Lap s.ring.slots s.ring.nextPtr (s.cons i).cursor := by
  have hprod := hs.ok.prod
  rw [hpc] at hprod
  have hmod : (s.cons i).cursor % s.ring.slots ≤ s.ring.nextPtr % s.ring.slots := by
    rw [← Int.tmod_eq_emod_of_nonneg (hs.cursor_nonneg i), hprod.1, ← hprod.2]
    exact hslow
  rcases hlow with hlag | ⟨hz, hback⟩
  · exact lap_of_emod_le hs.ok.slots hlag hmod
  · refine absurd ?_ hread
    simp only [LapRead, hpc, ReadsLap]
    exact ⟨by rw [hprod.2, ← hprod.1, hz], hback⟩

theorem Paced.pace_prod {T : Nat → Prop} {s : Sys δ} (hs : Paced T s) (hread : ¬ LapRead s .prod) :
    Pace (stepProd s).2 (stepProd s).2.prod := by
  have hpace := hs.pace
  have hprod := hs.ok.prod
  have hslots := hs.ok.slots
  unfold stepProd
  cases hpc : s.prod with
  | idle => rw [hpc] at hpace; exact ⟨hs.overrun, hpace⟩
  | position slow =>
    rw [hpc] at hpace hprod
    refine ⟨hpace.2, fun hslow => ?_⟩
    -- `INT64_MAX` is above every slot, so the first test enters the loop
    have hlt := Int.emod_lt_of_pos s.ring.nextPtr hslots
    have hnext : s.ring.nextPtr = s.committed.length := hprod
    have hle := hs.slots
    rw [hpace.1, Int.tmod_eq_emod_of_nonneg (by omega)] at hslow
    omega
  | loop slow like =>
    rw [hpc] at hpace
    simp only
    split
    · exact ⟨hpace.1, fun _ k hk => absurd hk (Nat.not_lt_zero k)⟩
    · exact hpace.2 (by omega)
  | alive i slow like =>
    rw [hpc] at hpace
    simp only
    split
    · rename_i hi
      split
      · exact ⟨⟨hi, ‹_›⟩, hpace⟩
      · rename_i hdead
        refine ⟨hpace.1, fun hslow k hk hw => ?_⟩
        rcases Nat.lt_succ_iff_lt_or_eq.mp hk with hk | rfl
        · exact hpace.2 hslow k hk hw
        · exact absurd hw.2 hdead
    · rename_i hi
      refine ⟨hpace.1, fun hslow k hw => ?_⟩
      exact hpace.2 hslow k (Nat.lt_of_lt_of_le hw.1 (Nat.le_of_not_lt hi)) hw
  | cursor i slow like =>
    rw [hpc] at hpace
    obtain ⟨hwaits, hlow, hlap⟩ := hpace
    refine ⟨hlow, fun hslow k hk hw => ?_⟩
    rcases Nat.lt_succ_iff_lt_or_eq.mp hk with hk | rfl
    · exact hlap (Int.le_trans (Int.le_max_left ..) hslow) k hk hw
    · exact hs.lap_of_read hpc hread (hlow k hw) (Int.le_trans (Int.le_max_right ..) hslow)
  | claimed like =>
    rw [hpc] at hpace
    intro k hk
    show Lap s.ring.slots (s.ring.nextPtr + 1 - 1) (s.cons k).cursor
    rw [Int.add_sub_cancel]
    exact hpace k hk
  | commit like =>
    rw [hpc] at hpace
    intro k hk
    have := (hpace k hk).low hslots
    rw [Int.sub_add_cancel] at this
    exact this

theorem Paced.prod {T : Nat → Prop} {s : Sys δ} (hs : Paced T s) (hread : ¬ LapRead s .prod) :
    Paced T (stepProd s).2 := by
  obtain ⟨hover, hslots, hthread⟩ := stepProd_keeps s
  refine ⟨stepProd_ok hs.ok, by rw [hover]; exact hs.overrun, by rw [hslots]; exact hs.slots, ?_, ?_,
    hs.pace_prod hread⟩
  · rw [hthread]; exact hs.joined
  · rw [hthread]; exact hs.owners

/-- Where `claim` returns, the scan has found every consumer in the wanted round. -/
theorem Paced.claimRight {T : Nat → Prop} {s : Sys δ} (hs : Paced T s) (a : Act δ) :
    ClaimRight s a := by
  intro like hout k hk halive
  -- There is one place where a claim returns: behind the scan, with the slowest slot not above the
  -- wanted one.
  have hreturn : ∃ slow, s.prod = .loop slow like ∧ slow ≤ like := by
    cases a with
    | fill v =>
      simp only [step] at hout
      split at hout <;> exact Out.noConfusion hout
    | cons t =>
      simp only [step, stepCons_out] at hout
      split at hout
      · split at hout <;> exact Out.noConfusion hout
      · exact Out.noConfusion hout
      · exact Out.noConfusion hout
    | prod =>
      simp only [step, stepProd] at hout
      split at hout
      all_goals try exact Out.noConfusion hout
      · rename_i slow like' hpc
        split at hout
        · exact Out.noConfusion hout
        · obtain rfl := Out.claimed.inj hout
          exact ⟨slow, hpc, by omega⟩
      · split at hout
        · split at hout <;> exact Out.noConfusion hout
        · exact Out.noConfusion hout
  obtain ⟨slow, hpc, hle⟩ := hreturn
  have hpace := hs.pace
  rw [hpc] at hpace
  -- By then every consumer is in the round of the position that is claimed.
  have hlap : s.ring.nextPtr - s.ring.nextPtr % s.ring.slots ≤ (s.cons k).cursor :=
    hpace.2 hle k ⟨hk, halive⟩
  have := Int.emod_lt_of_pos s.ring.nextPtr hs.ok.slots
  omega

theorem Paced.step {T : Nat → Prop} {s : Sys δ} (hs : Paced T s) (a : Act δ)
    (ha : ∀ t, a = .cons t → T t) (hread : ¬ LapRead s a) :
    ClaimRight s a ∧ Paced T (Ullc.step s a).2 := by
  refine ⟨hs.claimRight a, ?_⟩
  cases a with
  | prod => exact hs.prod hread
  | cons t => exact hs.cons (ha t rfl)
  | fill v =>
    simp only [Ullc.step]
    split
    · exact ⟨hs.ok.fill ‹_› v, hs.overrun, hs.slots, hs.joined, hs.owners,
        hs.pace.mono rfl (fun _ => rfl) fun _ => Int.le_refl _⟩
    · exact hs

/-- A state between claims in which every consumer has joined and is less than a round behind. -/
structure Settled (s : Sys δ) : Prop where
  idle : s.prod = .idle
  joined : ∀ t k, (s.thread t).pc.owns = some k → (s.thread t).pc.Joined
  lag : ∀ k < s.ring.numConsumers, (s.cons k).alive = true →
    s.ring.nextPtr - (s.cons k).cursor < s.ring.slots

/-- A new ring with overrun disabled. -/
def Sys.blocking (slots : Int) (numConsumers : Nat) (data : Int → δ) : Sys δ :=
  Sys.init slots numConsumers
    (inaUllcOverrunDisable (ringCreate slots numConsumers)).2.overrunEnabled data

theorem step_config (s : Sys δ) (a : Act δ) :
    (step s a).2.ring.overrunEnabled = s.ring.overrunEnabled ∧
      (step s a).2.ring.slots = s.ring.slots := by
  cases a with
  | prod => exact ⟨(stepProd_keeps s).1, (stepProd_keeps s).2.1⟩
  | fill v => simp only [step]; split <;> exact ⟨rfl, rfl⟩
  | cons t => rw [step, (stepCons_keeps s t).1]; exact ⟨rfl, rfl⟩

theorem Settled.paced {slots : Int} (hslots : 0 < slots) (hmax : slots ≤ int64Max)
    {numConsumers : Nat} {data : Int → δ} {pre acts : List (Act δ)}
    (hs : Settled (exec step (Sys.blocking slots numConsumers data) pre))
    (hacts : ∀ t, .cons t ∈ acts →
      ((exec step (Sys.blocking slots numConsumers data) pre).thread t).pc.Joined) :
    Paced (fun t => .cons t ∈ acts) (exec step (Sys.blocking slots numConsumers data) pre) := by
  have hconfig : (exec step (Sys.blocking slots numConsumers data) pre).Ok ∧
      (exec step (Sys.blocking slots numConsumers data) pre).ring.overrunEnabled = int64Max ∧
      (exec step (Sys.blocking slots numConsumers data) pre).ring.slots = slots := by
    refine exec_invariant (A := fun _ => True)
      (I := fun s : Sys δ => s.Ok ∧ s.ring.overrunEnabled = int64Max ∧ s.ring.slots = slots) ?_
      (fun _ _ => trivial) ⟨Sys.init_ok hslots _ _ _, rfl, rfl⟩
    intro s a _ hs
    obtain ⟨hover, hsl⟩ := step_config s a
    exact ⟨step_ok hs.1 a, hover.trans hs.2.1, hsl.trans hs.2.2⟩
  obtain ⟨hok, hover, hsl⟩ := hconfig
  refine ⟨hok, hover, by rw [hsl]; exact hmax, hacts, hs.joined, ?_⟩
  rw [hs.idle]
  exact fun k hk => Or.inl (hs.lag k hk.1 hk.2)

/-- **Back-pressure holds without lap reads.** From every settled state of a ring with overrun
    disabled, in every interleaving of the producer and the joined consumers in which no claim of
    the first slot reads the cursor of a consumer exactly one round behind, `claim` returns only
    slots that every alive consumer has left. -/
theorem claim_right_of_no_lap_read {slots : Int} (hslots : 0 < slots) (hmax : slots ≤ int64Max)
    (numConsumers : Nat) (data : Int → δ) (pre acts : List (Act δ))
    (hs : Settled (exec step (Sys.blocking slots numConsumers data) pre))
    (hacts : ∀ t, .cons t ∈ acts →
      ((exec step (Sys.blocking slots numConsumers data) pre).thread t).pc.Joined)
    (hread : Never step LapRead (exec step (Sys.blocking slots numConsumers data) pre) acts) :
    Along step ClaimRight (exec step (Sys.blocking slots numConsumers data) pre) acts :=
  along_of_never (A := fun a => a ∈ acts)
    (fun _ a ha hbad hp => Paced.step hp a (fun _ ht => ht ▸ ha) hbad)
    (fun _ ha => ha) hread (hs.paced hslots hmax hacts)

/-- One consumer of a ring of two slots has joined, and nothing is committed. -/
theorem settled_one_consumer :
    Settled (exec step (Sys.blocking 2 1 fun _ => 0)
      ([.cons 0, .cons 0, .cons 0, .cons 0, .cons 0] : List (Act Nat))) := by
  refine ⟨by decide, fun t k hk => ?_, by decide⟩
  by_cases ht : t = 0
  · subst ht; exact trivial
  · -- the other consumers have not moved
    have hrest : ((exec step (Sys.blocking 2 1 fun _ => 0)
        ([.cons 0, .cons 0, .cons 0, .cons 0, .cons 0] : List (Act Nat))).thread t).pc =
        .scan 0 := by
      refine exec_invariant (A := fun a => a = .cons 0) (I := fun s : Sys Nat =>
        (s.thread t).pc = .scan 0) (fun s a ha h => ?_) (by decide) rfl
      subst ha
      rw [step, (stepCons_keeps s 0).2.2 t ht]
      exact h
    rw [hrest] at hk
    exact absurd hk (by simp [ConsPc.owns])

/-- The first claim reads the consumer at the position it wants, and returns. -/
theorem claim_right_of_no_lap_read_first :
    Along step ClaimRight (exec step (Sys.blocking 2 1 fun _ => 0)
      ([.cons 0, .cons 0, .cons 0, .cons 0, .cons 0] : List (Act Nat)))
      [.prod, .prod, .prod, .prod, .cons 0, .prod, .prod, .prod] :=
  claim_right_of_no_lap_read (by decide) (by decide) 1 (fun _ => 0) _ _ settled_one_consumer
    (by
      intro t ht
      have : t = 0 := by simpa using ht
      subst this
      exact trivial)
    ⟨by decide, by decide, by decide, by decide, by decide, by decide, by decide, by decide,
      trivial⟩

/-- **The consumer is overtaken.** The producer fills the two slots and the third claim returns
    slot 0, whose item the consumer has not read. -/
theorem claim_overtakes_consumer :
    Settled (exec step (Sys.blocking 2 1 fun _ => 0)
      ([.cons 0, .cons 0, .cons 0, .cons 0, .cons 0] : List (Act Nat))) ∧
    ¬ Along step ClaimRight (exec step (Sys.blocking 2 1 fun _ => 0)
      ([.cons 0, .cons 0, .cons 0, .cons 0, .cons 0] : List (Act Nat)))
      (List.replicate 24 .prod ++ [.prod]) := by
  refine ⟨settled_one_consumer, fun h => ?_⟩
  obtain ⟨-, hright, -⟩ := along_append.mp h
  exact absurd (hright 0 (by decide) 0 (by decide) (by decide)) (by decide)

end Ullc
end Inac
