import Mathlib.Algebra.GroupWithZero.Nat
import Mathlib.Data.List.Basic
import Mathlib.Logic.Function.Basic

/-!
# Working on a list block by block

A state takes in a list in blocks of `n`, as long as there is a whole one (`blocks`). What is left
over may be put in front of what comes next, so it makes no difference into which pieces the list
is cut (`blocks_pieces`).

Two runs over lists that differ in one item only are *apart*: either the difference is still to
come, or it is in the states. What this says about two states is up to the relation `R`; a step that
keeps `R` and turns a difference in its block into `R` keeps runs apart (`Parted.blocks`). Steps with
lanes are put together from the steps of the lanes (`Separates.pair`).
-/

namespace Inac
namespace Lib

variable {α σ τ : Type} {n : Nat}

/-- The state that the whole blocks leave, and the rest of the list. -/
def blocks (n : Nat) (step : σ → List α → σ) (s : σ) (xs : List α) : σ × List α :=
  if 0 < n ∧ n ≤ xs.length then blocks n step (step s (xs.take n)) (xs.drop n) else (s, xs)
termination_by xs.length
decreasing_by
  rw [List.length_drop]
  omega

section Blocks

variable {step : σ → List α → σ}

theorem blocks_short (s : σ) {xs : List α} (h : xs.length < n) : blocks n step s xs = (s, xs) := by
  rw [blocks, if_neg fun hwhole => Nat.not_le.mpr h hwhole.2]

variable [NeZero n]

theorem blocks_step (s : σ) {xs : List α} (h : n ≤ xs.length) :
    blocks n step s xs = blocks n step (step s (xs.take n)) (xs.drop n) := by
  conv_lhs => rw [blocks, if_pos ⟨Nat.pos_of_neZero n, h⟩]

theorem blocks_cons (s : σ) {w : List α} (xs : List α) (h : w.length = n) :
    blocks n step s (w ++ xs) = blocks n step (step s w) xs := by
  rw [blocks_step s (by rw [List.length_append]; omega), List.take_left' h, List.drop_left' h]

theorem blocks_one (s : σ) {w : List α} (h : w.length = n) :
    blocks n step s w = (step s w, []) := by
  have hcons : blocks n step s (w ++ []) = _ := blocks_cons s [] h
  rwa [List.append_nil, blocks_short _ (show [].length < n from Nat.pos_of_neZero n)] at hcons

/-- **What is left over** may be put in front of what comes next. -/
theorem blocks_pieces (step : σ → List α → σ) (s : σ) (xs ys : List α) :
    blocks n step (blocks n step s xs).1 ((blocks n step s xs).2 ++ ys) =
      blocks n step s (xs ++ ys) := by
  fun_induction blocks n step s xs with
  | case1 s xs h ih =>
    rw [ih, ← blocks_cons s _ (List.length_take_of_le h.2), ← List.append_assoc,
      List.take_append_drop]
  | case2 s xs h => rfl

theorem blocks_rest (step : σ → List α → σ) (s : σ) (xs : List α) :
    (blocks n step s xs).2.length = xs.length % n := by
  fun_induction blocks n step s xs with
  | case1 s xs h ih => rw [ih, List.length_drop, ← Nat.mod_eq_sub_mod h.2]
  | case2 s xs h =>
    have hshort : xs.length < n := Nat.not_le.mp fun hle => h ⟨Nat.pos_of_neZero n, hle⟩
    rw [Nat.mod_eq_of_lt hshort]

theorem blocks_rest_lt (step : σ → List α → σ) (s : σ) (xs : List α) :
    (blocks n step s xs).2.length < n := by
  rw [blocks_rest]
  exact Nat.mod_lt _ (Nat.pos_of_neZero n)

end Blocks

/-! ## One difference

A state may have parts of which one alone is touched by the difference; `OneOf` says that of a pair.
-/

section OneOf

variable {σ' τ' : Type} {R : σ → σ → Prop} {R' : σ' → σ' → Prop} {S : τ → τ → Prop}
  {S' : τ' → τ' → Prop} {p q : σ × τ}

/-- One part of a pair differs, in the way that is said of it, and the other does not. -/
def OneOf (R : σ → σ → Prop) (S : τ → τ → Prop) (p q : σ × τ) : Prop :=
  R p.1 q.1 ∧ p.2 = q.2 ∨ p.1 = q.1 ∧ S p.2 q.2

/-- What is done to each part on its own. -/
theorem OneOf.map (f : σ → σ') (g : τ → τ') (hf : ∀ s t, R s t → R' (f s) (f t))
    (hg : ∀ s t, S s t → S' (g s) (g t)) (h : OneOf R S p q) :
    OneOf R' S' (f p.1, g p.2) (f q.1, g q.2) := by
  rcases h with ⟨h1, h2⟩ | ⟨h1, h2⟩
  · exact Or.inl ⟨hf _ _ h1, congrArg g h2⟩
  · exact Or.inr ⟨congrArg f h1, hg _ _ h2⟩

end OneOf

/-- The lists differ in one item and nowhere else. -/
def OneApart (xs ys : List α) : Prop :=
  ∃ l a b r, a ≠ b ∧ xs = l ++ a :: r ∧ ys = l ++ b :: r

namespace OneApart

variable {xs ys : List α}

theorem length_eq (h : OneApart xs ys) : xs.length = ys.length := by
  obtain ⟨l, a, b, r, -, rfl, rfl⟩ := h
  rw [List.length_append, List.length_append, List.length_cons, List.length_cons]

theorem ne (h : OneApart xs ys) : xs ≠ ys := by
  obtain ⟨l, a, b, r, hab, rfl, rfl⟩ := h
  intro heq
  exact hab (List.cons.inj (List.append_cancel_left heq)).1

theorem ne_nil (h : OneApart xs ys) : xs ≠ [] := by
  obtain ⟨l, a, b, r, -, rfl, -⟩ := h
  exact List.append_ne_nil_of_right_ne_nil _ (List.cons_ne_nil _ _)

/-- The difference is in the first `m` items or behind them. -/
theorem split (h : OneApart xs ys) (m : Nat) :
    OneOf OneApart OneApart (xs.take m, xs.drop m) (ys.take m, ys.drop m) := by
  obtain ⟨l, a, b, r, hab, rfl, rfl⟩ := h
  rcases Nat.lt_or_ge l.length m with hlt | hge
  · obtain ⟨k, rfl⟩ := Nat.exists_eq_add_of_lt hlt
    refine Or.inl ⟨⟨l, a, b, r.take k, hab, ?_, ?_⟩, ?_⟩
    all_goals simp only [Nat.add_assoc, List.take_length_add_append, List.drop_length_add_append,
      List.take_succ_cons, List.drop_succ_cons]
  · refine Or.inr ⟨?_, l.drop m, a, b, r, hab, ?_, ?_⟩
    · show (l ++ a :: r).take m = (l ++ b :: r).take m
      rw [List.take_append_of_le_length hge, List.take_append_of_le_length hge]
    · exact List.drop_append_of_le_length hge
    · exact List.drop_append_of_le_length hge

end OneApart

/-! ## Runs that are apart

By induction on the blocks, with the difference ahead or already in the states. -/

variable {R : σ → σ → Prop} {p q : σ × List α}

/-- The states are told apart and the lists are the same, or the other way round. -/
def Parted (R : σ → σ → Prop) : σ × List α → σ × List α → Prop := OneOf R OneApart

/-- A step on blocks of `n` keeps states told apart, and tells them apart where its block differs
    in one item. -/
structure Separates (n : Nat) (R : σ → σ → Prop) (step : σ → List α → σ) : Prop where
  state : ∀ {s t w}, w.length = n → R s t → R (step s w) (step t w)
  block : ∀ {s w w'}, w.length = n → OneApart w w' → R (step s w) (step s w')

/-- **Two lanes**: the front of a block goes to the one, the rest to the other. -/
theorem Separates.pair {m : Nat} {τ : Type} {S : τ → τ → Prop} {f : σ → List α → σ}
    {g : τ → List α → τ} (hf : Separates m R f) (hg : Separates n S g) :
    Separates (m + n) (OneOf R S) fun s w => (f s.1 (w.take m), g s.2 (w.drop m)) where
  state {s t w} hlen h := by
    have htake : (w.take m).length = m := List.length_take_of_le (by omega)
    have hdrop : (w.drop m).length = n := by rw [List.length_drop]; omega
    exact h.map (fun s => f s (w.take m)) (fun t => g t (w.drop m)) (fun _ _ => hf.state htake)
      fun _ _ => hg.state hdrop
  block {s w w'} hlen h := by
    have htake : (w.take m).length = m := List.length_take_of_le (by omega)
    have hdrop : (w.drop m).length = n := by rw [List.length_drop]; omega
    rcases h.split m with ⟨hfront, hrest⟩ | ⟨hfront, hrest⟩
    · exact Or.inl ⟨hf.block htake hfront, congrArg (g s.2) hrest⟩
    · exact Or.inr ⟨congrArg (f s.1) hfront, hg.block hdrop hrest⟩

/-- A lane that a block does not go to. -/
theorem Separates.left {τ : Type} {S : τ → τ → Prop} {f : σ → List α → σ}
    (hf : Separates n R f) : Separates n (OneOf R S) fun s w => (f s.1 w, s.2) where
  state {_ _ w} hlen h := h.map (fun s => f s w) id (fun _ _ => hf.state hlen) fun _ _ => id
  block hlen h := Or.inl ⟨hf.block hlen h, rfl⟩

namespace Parted

theorem length_eq (h : Parted R p q) : p.2.length = q.2.length := by
  rcases h with ⟨-, h⟩ | ⟨-, h⟩
  · rw [h]
  · exact h.length_eq

/-- At the end of the list the states tell. -/
theorem state (h : Parted R p q) (hp : p.2 = []) : R p.1 q.1 := by
  rcases h with ⟨h, -⟩ | ⟨-, h⟩
  · exact h
  · exact absurd hp h.ne_nil

/-- **One block.** -/
theorem step {step : σ → List α → σ} (hstep : Separates n R step) (h : Parted R p q)
    (hn : n ≤ p.2.length) :
    Parted R (step p.1 (p.2.take n), p.2.drop n) (step q.1 (q.2.take n), q.2.drop n) := by
  have hlen : (p.2.take n).length = n := List.length_take_of_le hn
  rcases h with ⟨hs, hrest⟩ | ⟨hs, hrest⟩
  · rw [← hrest]
    exact Or.inl ⟨hstep.state hlen hs, rfl⟩
  · rw [← hs]
    rcases hrest.split n with ⟨htake, hdrop⟩ | ⟨htake, hdrop⟩
    · exact Or.inl ⟨hstep.block hlen htake, hdrop⟩
    · exact Or.inr ⟨congrArg (step p.1) htake, hdrop⟩

/-- **All blocks.** -/
theorem blocks [NeZero n] {step : σ → List α → σ} (hstep : Separates n R step)
    (h : Parted R p q) : Parted R (blocks n step p.1 p.2) (blocks n step q.1 q.2) := by
  obtain ⟨s, xs⟩ := p
  fun_induction Lib.blocks n step s xs generalizing q with
  | case1 s xs hn ih =>
    have hq : n ≤ q.2.length := h.length_eq ▸ hn.2
    rw [blocks_step q.1 hq]
    exact ih (h.step hstep hn.2)
  | case2 s xs hn =>
    have hshort : xs.length < n := Nat.not_le.mp fun hle => hn ⟨Nat.pos_of_neZero n, hle⟩
    have hq : q.2.length < n := h.length_eq ▸ hshort
    rw [blocks_short q.1 hq]
    exact h

/-- **To the end**, item by item. -/
theorem foldl {step : σ → α → σ} (hstate : ∀ {s t} a, R s t → R (step s a) (step t a))
    (hitem : ∀ s {a b}, a ≠ b → R (step s a) (step s b)) (h : Parted R p q) :
    R (p.2.foldl step p.1) (q.2.foldl step q.1) := by
  have hkeep : ∀ {s t : σ} (r : List α), R s t → R (r.foldl step s) (r.foldl step t) := by
    intro s t r hs
    induction r generalizing s t with
    | nil => exact hs
    | cons a r ih => exact ih (hstate a hs)
  rcases h with ⟨hs, hrest⟩ | ⟨hs, l, a, b, r, hab, hp, hq⟩
  · rw [← hrest]
    exact hkeep _ hs
  · rw [hp, hq, ← hs, List.foldl_append, List.foldl_append]
    exact hkeep r (hitem _ hab)

end Parted

/-- Hashes that keep apart what is nearly the same: two seeds, and two lists that differ in one
    item. The lists are shorter than `max`. -/
structure Keen {β : Type} (max : Nat) (hash : σ → List α → β) : Prop where
  seed : ∀ {xs}, xs.length < max → Function.Injective fun seed => hash seed xs
  item : ∀ seed {xs ys}, xs.length < max → OneApart xs ys → hash seed xs ≠ hash seed ys

/-- What is apart at the beginning is apart at the end. -/
theorem keen_of_apart {β : Type} {max : Nat} {hash : σ → List α → β}
    (h : ∀ p q : σ × List α, p.2.length < max → Parted (· ≠ ·) p q → hash p.1 p.2 ≠ hash q.1 q.2) :
    Keen max hash where
  seed {xs} hlen s t heq := by
    by_contra hne
    exact h (s, xs) (t, xs) hlen (Or.inl ⟨hne, rfl⟩) heq
  item s {xs ys} hlen hone := h (s, xs) (s, ys) hlen (Or.inr ⟨rfl, hone⟩)

/-- Without blocks, a step has to lose nothing of the state and nothing of the item. -/
theorem keen_foldl {step : σ → α → σ} (max : Nat)
    (hstate : ∀ a, Function.Injective fun s => step s a)
    (hitem : ∀ s, Function.Injective fun a => step s a) :
    Keen max fun s (xs : List α) => xs.foldl step s :=
  keen_of_apart fun _ _ _ h =>
    h.foldl (fun a hne heq => hne (hstate a heq)) fun s _ _ hab heq => hab (hitem s heq)

/-- Whatever is done before and after, as long as it loses nothing. -/
theorem Keen.comp {β γ ρ : Type} {max : Nat} {hash : σ → List α → β} {f : ρ → σ} {g : β → γ}
    (h : Keen max hash) (hf : Function.Injective f) (hg : Function.Injective g) :
    Keen max fun seed xs => g (hash (f seed) xs) where
  seed hlen := (hg.comp (h.seed hlen)).comp hf
  item seed _ _ hlen hone heq := h.item (f seed) hlen hone (hg heq)

end Lib
end Inac
