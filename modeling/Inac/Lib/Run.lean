import Mathlib.Data.List.Basic

/-!
# Runs of a deterministic machine

A machine is a function `step : σ → ι → ο × σ`: a state and an input give an output and the next
state. This file is what a development over such machines needs once: the state and the outputs
of a finite run, the induction rule for an invariant, and the rule that a step-by-step simulation
gives equal outputs.
-/

namespace Inac
namespace Lib

variable {σ τ ι ο : Type}

/-- The state after a run. -/
def exec (step : σ → ι → ο × σ) (s : σ) (is : List ι) : σ :=
  is.foldl (fun s i => (step s i).2) s

/-- The outputs of a run, in order. -/
def outs (step : σ → ι → ο × σ) : σ → List ι → List ο
  | _, [] => []
  | s, i :: is => (step s i).1 :: outs step (step s i).2 is

@[simp] theorem exec_nil (step : σ → ι → ο × σ) (s : σ) : exec step s [] = s := rfl

@[simp] theorem exec_cons (step : σ → ι → ο × σ) (s : σ) (i : ι) (is : List ι) :
    exec step s (i :: is) = exec step (step s i).2 is := rfl

theorem exec_append (step : σ → ι → ο × σ) (s : σ) (is js : List ι) :
    exec step s (is ++ js) = exec step (exec step s is) js :=
  List.foldl_append

theorem length_outs (step : σ → ι → ο × σ) (s : σ) (is : List ι) :
    (outs step s is).length = is.length := by
  induction is generalizing s with
  | nil => rfl
  | cons i is ih => rw [outs, List.length_cons, ih, List.length_cons]

/-- An invariant that every allowed input preserves holds after every run of allowed inputs. -/
theorem exec_invariant {step : σ → ι → ο × σ} {I : σ → Prop} {A : ι → Prop}
    (hstep : ∀ s i, A i → I s → I (step s i).2) {is : List ι} {s : σ}
    (hok : ∀ i ∈ is, A i) (hs : I s) : I (exec step s is) := by
  induction is generalizing s with
  | nil => exact hs
  | cons i is ih =>
    exact ih (fun j hj => hok j (List.mem_cons_of_mem i hj))
      (hstep s i (hok i List.mem_cons_self) hs)

theorem exec_rel {step : σ → ι → ο × σ} {step' : τ → ι → ο × τ} {R : σ → τ → Prop}
    {A : ι → Prop} (hstep : ∀ s t i, A i → R s t → R (step s i).2 (step' t i).2)
    {is : List ι} {s : σ} {t : τ} (hok : ∀ i ∈ is, A i) (hr : R s t) :
    R (exec step s is) (exec step' t is) := by
  induction is generalizing s t with
  | nil => exact hr
  | cons i is ih =>
    exact ih (fun j hj => hok j (List.mem_cons_of_mem i hj))
      (hstep s t i (hok i List.mem_cons_self) hr)

/-- A relation that every allowed input preserves, with equal outputs at related states, makes
    the two machines indistinguishable on runs of allowed inputs. -/
theorem outs_eq_of_sim {step : σ → ι → ο × σ} {step' : τ → ι → ο × τ} {R : σ → τ → Prop}
    {A : ι → Prop}
    (hstep : ∀ s t i, A i → R s t →
      (step s i).1 = (step' t i).1 ∧ R (step s i).2 (step' t i).2)
    {is : List ι} {s : σ} {t : τ} (hok : ∀ i ∈ is, A i) (hr : R s t) :
    outs step s is = outs step' t is := by
  induction is generalizing s t with
  | nil => rfl
  | cons i is ih =>
    obtain ⟨hout, hnext⟩ := hstep s t i (hok i List.mem_cons_self) hr
    rw [outs, outs, hout, ih (fun j hj => hok j (List.mem_cons_of_mem i hj)) hnext]

/-- Under an invariant, what holds of the output of each allowed step holds of all outputs. -/
theorem outs_forall {step : σ → ι → ο × σ} {I : σ → Prop} {A : ι → Prop} {Q : ο → Prop}
    (hstep : ∀ s i, A i → I s → I (step s i).2 ∧ Q (step s i).1) {is : List ι} {s : σ}
    (hok : ∀ i ∈ is, A i) (hs : I s) : ∀ o ∈ outs step s is, Q o := by
  induction is generalizing s with
  | nil => intro o ho; exact absurd ho List.not_mem_nil
  | cons i is ih =>
    obtain ⟨hnext, hout⟩ := hstep s i (hok i List.mem_cons_self) hs
    intro o ho
    rcases List.mem_cons.mp ho with rfl | ho
    · exact hout
    · exact ih (fun j hj => hok j (List.mem_cons_of_mem i hj)) hnext o ho

/-- An invariant that relates the state to the outputs so far. -/
theorem exec_history {step : σ → ι → ο × σ} {I : List ο → σ → Prop}
    (hstep : ∀ os s i, I os s → I (os ++ [(step s i).1]) (step s i).2) {is : List ι} {s : σ}
    {os : List ο} (hs : I os s) : I (os ++ outs step s is) (exec step s is) := by
  induction is generalizing s os with
  | nil =>
    rw [outs, List.append_nil]
    exact hs
  | cons i is ih =>
    rw [outs, List.append_cons]
    exact ih (hstep os s i hs)

/-! ## The same machine with other outputs

What is put out may be renamed, as long as nothing is lost by it. -/

/-- Two runs are told apart by the new outputs exactly when they are by the old. -/
theorem outs_map_eq_iff {ο' : Type} {step : σ → ι → ο × σ} {f : ι → ο → ο'}
    (hf : ∀ i o o', f i o = f i o' → o = o') {s t : σ} {is : List ι} :
    outs (fun s i => (f i (step s i).1, (step s i).2)) s is =
        outs (fun s i => (f i (step s i).1, (step s i).2)) t is ↔
      outs step s is = outs step t is := by
  induction is generalizing s t with
  | nil => exact ⟨fun _ => rfl, fun _ => rfl⟩
  | cons i is ih =>
    simp only [outs, List.cons.injEq, ih]
    constructor
    · intro h
      exact ⟨hf i _ _ h.1, h.2⟩
    · intro h
      exact ⟨congrArg (f i) h.1, h.2⟩

/-! ## Properties of every state of a run

`Always` is about the states, `Never` about the inputs and what they meet. The rules lead from one
step to a run, in one direction or in both. -/

/-- `P` holds in every state of the run, the first and the last included. -/
def Always (step : σ → ι → ο × σ) (P : σ → Prop) (s : σ) (is : List ι) : Prop :=
  ∀ pre, pre <+: is → P (exec step s pre)

/-- No input of the run is `bad` in the state it meets. -/
def Never (step : σ → ι → ο × σ) (bad : σ → ι → Prop) : σ → List ι → Prop
  | _, [] => True
  | s, i :: is => ¬ bad s i ∧ Never step bad (step s i).2 is

instance decidableNever (step : σ → ι → ο × σ) (bad : σ → ι → Prop)
    [∀ s i, Decidable (bad s i)] : ∀ s is, Decidable (Never step bad s is)
  | _, [] => inferInstanceAs (Decidable True)
  | s, i :: is =>
    have := decidableNever step bad (step s i).2 is
    inferInstanceAs (Decidable (¬ bad s i ∧ Never step bad (step s i).2 is))

/-- A condition on the inputs alone. -/
theorem never_iff_forall {step : σ → ι → ο × σ} {bad : ι → Prop} {is : List ι} {s : σ} :
    Never step (fun _ i => bad i) s is ↔ ∀ i ∈ is, ¬ bad i := by
  induction is generalizing s with
  | nil => simp [Never]
  | cons i is ih => rw [Never, ih, List.forall_mem_cons]

theorem never_map {ο' : Type} {step : σ → ι → ο × σ} {f : ι → ο → ο'} {bad : σ → ι → Prop} {s : σ}
    {is : List ι} :
    Never (fun s i => (f i (step s i).1, (step s i).2)) bad s is ↔ Never step bad s is := by
  induction is generalizing s with
  | nil => exact Iff.rfl
  | cons i is ih => rw [Never, Never, ih]

/-- No bad input is met exactly when no output is the mark of one. -/
theorem never_iff_outs {step : σ → ι → ο × σ} {bad : σ → ι → Prop} {o : ο}
    (hbad : ∀ s i, bad s i ↔ (step s i).1 = o) {is : List ι} {s : σ} :
    Never step bad s is ↔ o ∉ outs step s is := by
  induction is generalizing s with
  | nil => simp [Never, outs]
  | cons i is ih =>
    rw [Never, ih, hbad, outs, List.mem_cons, not_or]
    exact and_congr_left fun _ => not_congr eq_comm

theorem always_nil {step : σ → ι → ο × σ} {P : σ → Prop} {s : σ} :
    Always step P s [] ↔ P s := by
  constructor
  · intro h; exact h [] List.prefix_rfl
  · intro h pre hpre
    rw [List.prefix_nil.mp hpre]; exact h

theorem always_cons {step : σ → ι → ο × σ} {P : σ → Prop} {s : σ} {i : ι} {is : List ι} :
    Always step P s (i :: is) ↔ P s ∧ Always step P (step s i).2 is := by
  constructor
  · intro h
    exact ⟨h [] (List.nil_prefix), fun pre hpre => h (i :: pre) (List.cons_prefix_cons.mpr ⟨rfl, hpre⟩)⟩
  · rintro ⟨hs, hrest⟩ pre hpre
    cases pre with
    | nil => exact hs
    | cons j pre =>
      obtain ⟨rfl, htail⟩ := List.cons_prefix_cons.mp hpre
      exact hrest pre htail

/-- An invariant that every step preserves unless it is bad holds in every state of a run without
    bad steps. -/
theorem always_of_never {step : σ → ι → ο × σ} {I : σ → Prop} {B : σ → ι → Prop}
    (hstep : ∀ s i, ¬ B s i → I s → I (step s i).2) {is : List ι} {s : σ}
    (hnever : Never step B s is) (hs : I s) : Always step I s is := by
  induction is generalizing s with
  | nil => exact always_nil.mpr hs
  | cons i is ih => exact always_cons.mpr ⟨hs, ih hnever.2 (hstep s i hnever.1 hs)⟩

/-- When a step from a state that satisfies `P` leaves `P` exactly on bad inputs, a run stays in
    `P` exactly when it meets no bad input. -/
theorem always_iff_never (step : σ → ι → ο × σ) {I P : σ → Prop} {B : σ → ι → Prop}
    {A : ι → Prop} (hinv : ∀ s i, A i → I s → I (step s i).2)
    (hstep : ∀ s i, A i → I s → P s → (P (step s i).2 ↔ ¬ B s i))
    {is : List ι} {s : σ} (hok : ∀ i ∈ is, A i) (hi : I s) (hp : P s) :
    Always step P s is ↔ Never step B s is := by
  induction is generalizing s with
  | nil => rw [always_nil]; exact ⟨fun _ => trivial, fun _ => hp⟩
  | cons i is ih =>
    have hoki := hok i List.mem_cons_self
    have hrest := fun j hj => hok j (List.mem_cons_of_mem i hj)
    rw [always_cons, Never]
    constructor
    · rintro ⟨-, hall⟩
      have hp' : P (step s i).2 := hall [] List.nil_prefix
      exact ⟨(hstep s i hoki hi hp).mp hp', (ih hrest (hinv s i hoki hi) hp').mp hall⟩
    · rintro ⟨hbad, hnever⟩
      have hp' : P (step s i).2 := (hstep s i hoki hi hp).mpr hbad
      exact ⟨hp, (ih hrest (hinv s i hoki hi) hp').mpr hnever⟩

/-! ## Conditions on the steps of a run

`Along` says of each step what it meets; it is what callers owe, and what steps give. -/

/-- Every input of the run meets `C` in the state it finds. -/
def Along (step : σ → ι → ο × σ) (C : σ → ι → Prop) : σ → List ι → Prop
  | _, [] => True
  | s, i :: is => C s i ∧ Along step C (step s i).2 is

instance decidableAlong (step : σ → ι → ο × σ) (C : σ → ι → Prop)
    [∀ s i, Decidable (C s i)] : ∀ s is, Decidable (Along step C s is)
  | _, [] => inferInstanceAs (Decidable True)
  | s, i :: is =>
    have := decidableAlong step C (step s i).2 is
    inferInstanceAs (Decidable (C s i ∧ Along step C (step s i).2 is))

theorem along_iff_forall {step : σ → ι → ο × σ} {A : ι → Prop} {is : List ι} {s : σ} :
    Along step (fun _ i => A i) s is ↔ ∀ i ∈ is, A i := by
  induction is generalizing s with
  | nil => simp [Along]
  | cons i is ih => rw [Along, ih, List.forall_mem_cons]

theorem along_append {step : σ → ι → ο × σ} {C : σ → ι → Prop} {is js : List ι} {s : σ} :
    Along step C s (is ++ js) ↔ Along step C s is ∧ Along step C (exec step s is) js := by
  induction is generalizing s with
  | nil => exact ⟨fun h => ⟨trivial, h⟩, fun h => h.2⟩
  | cons i is ih => rw [List.cons_append, Along, Along, ih, exec_cons, and_assoc]

theorem always_of_along {step : σ → ι → ο × σ} {I : σ → Prop} {C : σ → ι → Prop}
    (hstep : ∀ s i, C s i → I s → I (step s i).2) {is : List ι} {s : σ}
    (hc : Along step C s is) (hs : I s) : Always step I s is := by
  induction is generalizing s with
  | nil => exact always_nil.mpr hs
  | cons i is ih => exact always_cons.mpr ⟨hs, ih hc.2 (hstep s i hc.1 hs)⟩

theorem along_next_of_always {step : σ → ι → ο × σ} {P : σ → Prop} {is : List ι} {s : σ}
    (h : Always step P s is) : Along step (fun s i => P (step s i).2) s is := by
  induction is generalizing s with
  | nil => trivial
  | cons i is ih =>
    have hrest := (always_cons.mp h).2
    exact ⟨hrest [] List.nil_prefix, ih hrest⟩

theorem always_of_along_next {step : σ → ι → ο × σ} {P : σ → Prop} {is : List ι} {s : σ}
    (hs : P s) (h : Along step (fun s i => P (step s i).2) s is) : Always step P s is := by
  induction is generalizing s with
  | nil => exact always_nil.mpr hs
  | cons i is ih => exact always_cons.mpr ⟨hs, ih h.1 h.2⟩

/-- What an invariant says of every step under `C` holds along a run under `C`. -/
theorem along_of_along {step : σ → ι → ο × σ} {I : σ → Prop} {C P : σ → ι → Prop}
    (hstep : ∀ s i, C s i → I s → P s i ∧ I (step s i).2) {is : List ι} {s : σ}
    (hc : Along step C s is) (hs : I s) : Along step P s is := by
  induction is generalizing s with
  | nil => trivial
  | cons i is ih => exact ⟨(hstep s i hc.1 hs).1, ih hc.2 (hstep s i hc.1 hs).2⟩

theorem along_of_invariant {step : σ → ι → ο × σ} {I : σ → Prop} {P : σ → ι → Prop}
    (hstep : ∀ s i, I s → P s i ∧ I (step s i).2) {is : List ι} {s : σ} (hs : I s) :
    Along step P s is := by
  induction is generalizing s with
  | nil => trivial
  | cons i is ih => exact ⟨(hstep s i hs).1, ih (hstep s i hs).2⟩

/-- The same for runs of allowed inputs none of which is bad where it stands. -/
theorem along_of_never {step : σ → ι → ο × σ} {I : σ → Prop} {A : ι → Prop} {P B : σ → ι → Prop}
    (hstep : ∀ s i, A i → ¬ B s i → I s → P s i ∧ I (step s i).2) {is : List ι} {s : σ}
    (hok : ∀ i ∈ is, A i) (hnever : Never step B s is) (hs : I s) : Along step P s is := by
  induction is generalizing s with
  | nil => trivial
  | cons i is ih =>
    obtain ⟨hp, hnext⟩ := hstep s i (hok i List.mem_cons_self) hnever.1 hs
    exact ⟨hp, ih (fun j hj => hok j (List.mem_cons_of_mem i hj)) hnever.2 hnext⟩

theorem along_and_never {step : σ → ι → ο × σ} {C B : σ → ι → Prop} {is : List ι} {s : σ}
    (hc : Along step C s is) (hb : Never step B s is) :
    Along step (fun s i => C s i ∧ ¬ B s i) s is := by
  induction is generalizing s with
  | nil => trivial
  | cons i is ih => exact ⟨⟨hc.1, hb.1⟩, ih hc.2 hb.2⟩

/-- When `P` fails at a step exactly if the step is bad, and the steps that are not bad preserve
    what this rests on, `P` holds at every step of a run exactly when no step of it is bad. -/
theorem along_iff_never {step : σ → ι → ο × σ} {I : σ → Prop} {C P B : σ → ι → Prop}
    (hinv : ∀ s i, C s i → ¬ B s i → I s → I (step s i).2)
    (hstep : ∀ s i, C s i → I s → (P s i ↔ ¬ B s i)) {is : List ι} {s : σ}
    (hc : Along step C s is) (hs : I s) : Along step P s is ↔ Never step B s is := by
  induction is generalizing s with
  | nil => exact Iff.rfl
  | cons i is ih =>
    rw [Along, Never, hstep s i hc.1 hs]
    constructor
    · intro h
      exact ⟨h.1, (ih hc.2 (hinv s i hc.1 h.1 hs)).mp h.2⟩
    · intro h
      exact ⟨h.1, (ih hc.2 (hinv s i hc.1 h.1 hs)).mpr h.2⟩

/-! ## Runs that come to an end

For machines that settle after a number of inputs that is known. -/

/-- Every run of `k` or more allowed inputs ends in `P`. -/
def Comes (step : σ → ι → ο × σ) (A : ι → Prop) (k : Nat) (P : σ → Prop) (s : σ) : Prop :=
  ∀ is : List ι, (∀ i ∈ is, A i) → k ≤ is.length → P (exec step s is)

theorem Comes.mono {step : σ → ι → ο × σ} {A : ι → Prop} {k l : Nat} {P : σ → Prop} {s : σ}
    (h : Comes step A k P s) (hle : k ≤ l) : Comes step A l P s :=
  fun is hok hlen => h is hok (Nat.le_trans hle hlen)

theorem Comes.of_step {step : σ → ι → ο × σ} {A : ι → Prop} {k : Nat} {P : σ → Prop} {s : σ}
    (h : ∀ i, A i → Comes step A k P (step s i).2) : Comes step A (k + 1) P s := by
  intro is hok hlen
  cases is with
  | nil => exact absurd hlen (Nat.not_succ_le_zero k)
  | cons i is =>
    exact h i (hok i List.mem_cons_self) is (fun j hj => hok j (List.mem_cons_of_mem i hj))
      (Nat.le_of_succ_le_succ hlen)

/-- A state that no allowed input changes is the end. -/
theorem Comes.of_still {step : σ → ι → ο × σ} {A : ι → Prop} {P : σ → Prop} {s : σ}
    (hstill : ∀ i, A i → (step s i).2 = s) (hs : P s) : Comes step A 0 P s := by
  intro is hok _
  have hexec : exec step s is = s :=
    exec_invariant (I := fun t => t = s) (fun t i hi ht => by rw [ht]; exact hstill i hi) hok rfl
  rw [hexec]
  exact hs

/-! ## Two machines side by side

Their pair is a machine itself, so a relation between the two is an invariant of it. -/

/-- Two machines fed the same inputs. -/
def both (step : σ → ι → ο × σ) (step' : τ → ι → ο × τ) (s : σ × τ) (i : ι) :
    (ο × ο) × (σ × τ) :=
  (((step s.1 i).1, (step' s.2 i).1), ((step s.1 i).2, (step' s.2 i).2))

theorem exec_both (step : σ → ι → ο × σ) (step' : τ → ι → ο × τ) (s : σ × τ) (is : List ι) :
    exec (both step step') s is = (exec step s.1 is, exec step' s.2 is) := by
  induction is generalizing s with
  | nil => rfl
  | cons i is ih => rw [exec_cons, ih]; rfl

theorem never_both {step : σ → ι → ο × σ} {step' : τ → ι → ο × τ} {bad : σ → ι → Prop}
    (s : σ × τ) (is : List ι) :
    Never (both step step') (fun s i => bad s.1 i) s is ↔ Never step bad s.1 is := by
  induction is generalizing s with
  | nil => exact Iff.rfl
  | cons i is ih => rw [Never, Never, ih]; rfl

theorem never_both_right {step : σ → ι → ο × σ} {step' : τ → ι → ο × τ} {B : τ → ι → Prop}
    (s : σ × τ) (is : List ι) :
    Never (both step step') (fun s i => B s.2 i) s is ↔ Never step' B s.2 is := by
  induction is generalizing s with
  | nil => exact Iff.rfl
  | cons i is ih => rw [Never, Never, ih]; rfl

theorem along_both_left {step : σ → ι → ο × σ} {step' : τ → ι → ο × τ} {C : σ → ι → Prop}
    (s : σ × τ) (is : List ι) :
    Along (both step step') (fun s i => C s.1 i) s is ↔ Along step C s.1 is := by
  induction is generalizing s with
  | nil => exact Iff.rfl
  | cons i is ih => rw [Along, Along, ih]; rfl

theorem along_both_right {step : σ → ι → ο × σ} {step' : τ → ι → ο × τ} {C : τ → ι → Prop}
    (s : σ × τ) (is : List ι) :
    Along (both step step') (fun s i => C s.2 i) s is ↔ Along step' C s.2 is := by
  induction is generalizing s with
  | nil => exact Iff.rfl
  | cons i is ih => rw [Along, Along, ih]; rfl

end Lib
end Inac
