import Mathlib.Data.List.Basic

/-!
# Blocks of memory

Memory is a family of *regions*, each a row of bytes numbered from zero, and a block is a span of
one region. Two blocks are apart when no byte belongs to both, so an empty block is apart from
every block, wherever it stands. What an allocator's proof needs is `apart_iff`, which turns the
statement about bytes into one about ends, and `AllApart` for a list of blocks.
-/

namespace Inac
namespace Lib

variable {ρ : Type}

/-- `len` bytes of a region, from `off` on. -/
structure Span (ρ : Type) where
  region : ρ
  off : Nat
  len : Nat
  deriving DecidableEq, Repr

/-- Byte `o` of region `r` belongs to the block. -/
def Span.Has (s : Span ρ) (r : ρ) (o : Nat) : Prop :=
  s.region = r ∧ s.off ≤ o ∧ o < s.off + s.len

/-- No byte belongs to both. -/
def Span.Apart (s t : Span ρ) : Prop := ∀ r o, s.Has r o → ¬ t.Has r o

theorem Span.Apart.symm {s t : Span ρ} (h : s.Apart t) : t.Apart s :=
  fun r o ht hs => h r o hs ht

/-- **Apart, by the ends.** In one region, two blocks that are not empty are apart exactly when
    one ends before the other starts. -/
theorem Span.apart_iff {s t : Span ρ} :
    s.Apart t ↔ s.region ≠ t.region ∨ s.len = 0 ∨ t.len = 0 ∨
      s.off + s.len ≤ t.off ∨ t.off + t.len ≤ s.off := by
  constructor
  · intro h
    by_contra hc
    simp only [not_or, ne_eq, Classical.not_not, Nat.not_le] at hc
    obtain ⟨hr, hs, ht, hst, hts⟩ := hc
    -- the later of the two starts is a byte of both
    refine h s.region (max s.off t.off) ⟨rfl, ?_⟩ ⟨hr.symm, ?_⟩ <;> omega
  · intro h r o hs ht
    obtain ⟨rfl, hs⟩ := hs
    obtain ⟨hr, ht⟩ := ht
    rcases h with h | h | h | h | h
    · exact h hr.symm
    all_goals omega

/-- The blocks of a list are pairwise apart. -/
def AllApart (l : List (Span ρ)) : Prop := l.Pairwise Span.Apart

theorem allApart_nil : AllApart ([] : List (Span ρ)) := List.Pairwise.nil

theorem AllApart.cons {s : Span ρ} {l : List (Span ρ)} (hs : ∀ t ∈ l, s.Apart t)
    (hl : AllApart l) : AllApart (s :: l) := List.pairwise_cons.mpr ⟨hs, hl⟩

theorem AllApart.sublist {l l' : List (Span ρ)} (h : AllApart l) (hsub : l'.Sublist l) :
    AllApart l' := List.Pairwise.sublist hsub h

theorem AllApart.eraseIdx {l : List (Span ρ)} (h : AllApart l) {i : Nat} {s : Span ρ}
    (hi : l[i]? = some s) : ∀ t ∈ l.eraseIdx i, s.Apart t := by
  induction l generalizing i with
  | nil => simp at hi
  | cons x l ih =>
    obtain ⟨hx, hl⟩ := List.pairwise_cons.mp h
    intro t ht
    cases i with
    | zero =>
      have hsx : x = s := by simpa using hi
      subst hsx
      exact hx t (by simpa using ht)
    | succ i =>
      have his : l[i]? = some s := by simpa using hi
      rcases List.mem_cons.mp (by simpa using ht) with rfl | ht
      · exact (hx s (List.mem_of_getElem? his)).symm
      · exact ih hl his t ht

end Lib
end Inac
