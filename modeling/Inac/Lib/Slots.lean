import Mathlib.Data.List.Basic
import Mathlib.Data.Set.Basic

/-!
# Arrays of slots searched by a match

An array of slots is searched from its start. Whether a slot *hits* a probe is a function of the
slot and the probe; a slot that hits may hold a value or be vacant. Nothing says a slot hits one
probe only: that is the property `Unique` of an array with respect to a set of probes, and the
lemmas below say what a replacement or an append does to the answers under it.
-/

namespace Inac
namespace Lib
namespace Slots

variable {ν κ δ : Type} {hit : ν → κ → Bool} {val : ν → Option δ}

/-- The value of the first slot that hits the probe and is not vacant. -/
def lookup (hit : ν → κ → Bool) (val : ν → Option δ) (l : List ν) (k : κ) : Option δ :=
  l.findSome? fun n => if hit n k then val n else none

/-- No probe of `K` is hit by two slots. -/
def Unique (hit : ν → κ → Bool) (K : Set κ) (l : List ν) : Prop :=
  l.Pairwise fun a b => ∀ k ∈ K, ¬ (hit a k = true ∧ hit b k = true)

@[simp] theorem lookup_nil (k : κ) : lookup hit val [] k = none := rfl

/-- The first hit counts, so a lookup goes on behind a part only if that has none. -/
theorem lookup_append (l r : List ν) (k : κ) :
    lookup hit val (l ++ r) k = (lookup hit val l k).or (lookup hit val r k) := by
  simp [lookup, List.findSome?_append]

theorem lookup_cons (n : ν) (l : List ν) (k : κ) :
    lookup hit val (n :: l) k = (if hit n k then val n else none).or (lookup hit val l k) := by
  rw [lookup, List.findSome?_cons, ← lookup]
  split
  · rename_i heq; rw [heq]; rfl
  · rename_i heq; rw [heq]; rfl

theorem lookup_eq_none {l : List ν} {k : κ} (h : ∀ n ∈ l, hit n k = false) :
    lookup hit val l k = none := by
  refine List.findSome?_eq_none_iff.mpr fun n hn => ?_
  simp [h n hn]

/-- The one slot that hits a key. -/
theorem Unique.miss_around {K : Set κ} {l r : List ν} {n : ν} {k : κ}
    (hu : Unique hit K (l ++ n :: r)) (hk : k ∈ K) (hn : hit n k = true) :
    (∀ a ∈ l, hit a k = false) ∧ ∀ a ∈ r, hit a k = false := by
  obtain ⟨-, hr, hcross⟩ := List.pairwise_append.mp hu
  constructor
  · intro a ha
    by_contra hc
    exact hcross a ha n List.mem_cons_self k hk ⟨by simpa using hc, hn⟩
  · intro a ha
    by_contra hc
    exact (List.pairwise_cons.mp hr).1 a ha k hk ⟨hn, by simpa using hc⟩

/-- Its value is what the lookup gives. -/
theorem lookup_hit {l r : List ν} {n : ν} {k : κ} (hn : hit n k = true)
    (hl : ∀ a ∈ l, hit a k = false) (hr : ∀ a ∈ r, hit a k = false) :
    lookup hit val (l ++ n :: r) k = val n := by
  rw [lookup_append, lookup_cons, lookup_eq_none hl, lookup_eq_none hr, hn]
  simp

/-- A slot that does not hit can be replaced by another such one. -/
theorem lookup_replace_miss {l r : List ν} {n n' : ν} {k : κ} (hn : hit n k = false)
    (hn' : hit n' k = false) :
    lookup hit val (l ++ n' :: r) k = lookup hit val (l ++ n :: r) k := by
  simp only [lookup_append, lookup_cons, hn, hn', Bool.false_eq_true, if_false]

/-- A vacant slot answers nothing, so it counts for no probe when it is overwritten. -/
theorem lookup_replace_vacant {K : Set κ} {l r : List ν} {n n' : ν} {k : κ}
    (hu : Unique hit K (l ++ n :: r)) (hk : k ∈ K) (hv : val n = none)
    (hn' : hit n' k = false) :
    lookup hit val (l ++ n' :: r) k = lookup hit val (l ++ n :: r) k := by
  by_cases hn : hit n k = true
  · obtain ⟨hl, hr⟩ := hu.miss_around hk hn
    rw [lookup_hit hn hl hr, hv]
    refine lookup_eq_none fun a ha => ?_
    rcases List.mem_append.mp ha with ha | ha
    · exact hl a ha
    · rcases List.mem_cons.mp ha with rfl | ha
      · exact hn'
      · exact hr a ha
  · exact lookup_replace_miss (by simpa using hn) hn'

/-- A slot may be replaced by one that hits fewer keys. -/
theorem Unique.replace_sub {K : Set κ} {l r : List ν} {n n' : ν}
    (hu : Unique hit K (l ++ n :: r)) (hsub : ∀ k ∈ K, hit n' k = true → hit n k = true) :
    Unique hit K (l ++ n' :: r) := by
  obtain ⟨hl, hr, hcross⟩ := List.pairwise_append.mp hu
  obtain ⟨hnr, hr'⟩ := List.pairwise_cons.mp hr
  refine List.pairwise_append.mpr ⟨hl, List.pairwise_cons.mpr ⟨?_, hr'⟩, ?_⟩
  · intro a ha k hk hh
    exact hnr a ha k hk ⟨hsub k hk hh.1, hh.2⟩
  · intro a ha b hb k hk hh
    rcases List.mem_cons.mp hb with rfl | hb
    · exact hcross a ha n List.mem_cons_self k hk ⟨hh.1, hsub k hk hh.2⟩
    · exact hcross a ha b (List.mem_cons_of_mem n hb) k hk hh

/-- A new key may take over a slot, if no slot hits it yet. -/
theorem Unique.replace_fresh {K : Set κ} {l r : List ν} {n n' : ν} {k : κ}
    (hu : Unique hit K (l ++ n :: r)) (hfresh : ∀ a ∈ l ++ n :: r, hit a k = false)
    (hone : ∀ p ∈ K, hit n' p = true → p = k) : Unique hit K (l ++ n' :: r) := by
  obtain ⟨hl, hr, hcross⟩ := List.pairwise_append.mp hu
  obtain ⟨-, hr'⟩ := List.pairwise_cons.mp hr
  refine List.pairwise_append.mpr ⟨hl, List.pairwise_cons.mpr ⟨?_, hr'⟩, ?_⟩
  · intro a ha p hp hh
    rw [hone p hp hh.1, hfresh a (by simp [ha])] at hh
    exact Bool.noConfusion hh.2
  · intro a ha b hb p hp hh
    rcases List.mem_cons.mp hb with rfl | hb
    · rw [hone p hp hh.2, hfresh a (by simp [ha])] at hh
      exact Bool.noConfusion hh.1
    · exact hcross a ha b (List.mem_cons_of_mem n hb) p hp hh

/-- Or it gets a slot of its own at the end. -/
theorem Unique.append_fresh {K : Set κ} {l : List ν} {n : ν} {k : κ}
    (hu : Unique hit K l) (hfresh : ∀ a ∈ l, hit a k = false)
    (hone : ∀ p ∈ K, hit n p = true → p = k) : Unique hit K (l ++ [n]) := by
  refine List.pairwise_append.mpr ⟨hu, List.pairwise_singleton _ _, ?_⟩
  intro a ha b hb p hp hh
  rw [List.mem_singleton.mp hb] at hh
  rw [hone p hp hh.2, hfresh a ha] at hh
  exact Bool.noConfusion hh.1

theorem Unique.prefix {K : Set κ} {l r : List ν} (hu : Unique hit K (l ++ r)) :
    Unique hit K l := (List.pairwise_append.mp hu).1

end Slots
end Lib
end Inac
