import Inac.Lib.Run

/-!
# Runs that follow a specification

An abstract machine may leave its answer open: it is a relation between a state, an input, an output
and the next state, and a list of outputs *follows* it when each of them is one that it allows. A
machine refines such a specification through a function that forgets what the specification does
not speak of.
-/

namespace Inac
namespace Lib

variable {σ τ ι ο : Type}

/-- From state `t` the specification may give these outputs for these inputs, and come to `v`. -/
inductive Follows (R : τ → ι → ο → τ → Prop) : τ → List ι → List ο → τ → Prop
  | nil (t : τ) : Follows R t [] [] t
  | cons {t u v : τ} {i : ι} {o : ο} {is : List ι} {os : List ο} (hstep : R t i o u)
      (hrest : Follows R u is os v) : Follows R t (i :: is) (o :: os) v

/-- The refinement rule: an invariant that every allowed input preserves, under which a step of the
    machine is a step of the specification. -/
theorem follows_of_refines {step : σ → ι → ο × σ} {R : τ → ι → ο → τ → Prop} {abs : σ → τ}
    {I : σ → Prop} {A : σ → ι → Prop}
    (hstep : ∀ s i, A s i → I s → I (step s i).2 ∧ R (abs s) i (step s i).1 (abs (step s i).2))
    {is : List ι} {s : σ} (hok : Along step A s is) (hs : I s) :
    Follows R (abs s) is (outs step s is) (abs (exec step s is)) := by
  induction is generalizing s with
  | nil => exact .nil _
  | cons i is ih =>
    obtain ⟨hnext, hrel⟩ := hstep s i hok.1 hs
    exact .cons hrel (ih hok.2 hnext)

/-- What the specification preserves, whatever it answers, with a record of what was said so far. -/
theorem Follows.history {R : τ → ι → ο → τ → Prop} {I : List (ι × ο) → τ → Prop}
    (hstep : ∀ h t i o u, R t i o u → I h t → I (h ++ [(i, o)]) u) {t v : τ} {is : List ι}
    {os : List ο} (hrun : Follows R t is os v) {h : List (ι × ο)} (hs : I h t) :
    I (h ++ is.zip os) v := by
  induction hrun generalizing h with
  | nil t => rwa [List.zip_nil_left, List.append_nil]
  | cons hrel hrest ih =>
    rw [List.zip_cons_cons, List.append_cons]
    exact ih (hstep _ _ _ _ _ hrel hs)

end Lib
end Inac
