import Mathlib.Logic.Function.Basic

/-!
# Writes into a map, one after another

A list of items each of which may write one key of a map. What the map holds then is what the items
wrote, the later ones over the earlier, and behind them what was there.

It is what a table is filled with by a list of settings: a setting that comes twice counts as it was
given last.
-/

namespace Inac
namespace Lib

variable {α κ β : Type} [DecidableEq κ]

/-- The map after an item, which writes what `f` says, or nothing. -/
def write (f : α → Option (κ × β)) (m : κ → Option β) (a : α) : κ → Option β :=
  match f a with
  | some w => Function.update m w.1 (some w.2)
  | none => m

/-- The map after the items of a list. -/
def writes (f : α → Option (κ × β)) (l : List α) (m : κ → Option β) : κ → Option β :=
  l.foldl (write f) m

theorem write_none {f : α → Option (κ × β)} {a : α} (h : f a = none) (m : κ → Option β) :
    write f m a = m := by
  simp only [write, h]

theorem write_some {f : α → Option (κ × β)} {a : α} {k : κ} {v : β} (h : f a = some (k, v))
    (m : κ → Option β) : write f m a = Function.update m k (some v) := by
  simp only [write, h]

theorem writes_cons (f : α → Option (κ × β)) (a : α) (l : List α) (m : κ → Option β) :
    writes f (a :: l) m = writes f l (write f m a) := rfl

theorem write_or (f : α → Option (κ × β)) (a : α) (m : κ → Option β) (k : κ) :
    write f m a k = (write f (fun _ => none) a k).or (m k) := by
  cases hf : f a with
  | none => rw [write_none hf, write_none hf, Option.none_or]
  | some w =>
    rw [write_some hf, write_some hf]
    by_cases hk : k = w.1
    · rw [hk, Function.update_self, Function.update_self, Option.some_or]
    · rw [Function.update_of_ne hk, Function.update_of_ne hk, Option.none_or]

theorem writes_or (f : α → Option (κ × β)) (l : List α) (m : κ → Option β) (k : κ) :
    writes f l m k = (writes f l (fun _ => none) k).or (m k) := by
  induction l generalizing m with
  | nil => rfl
  | cons a l ih =>
    rw [writes_cons, writes_cons, ih, ih (write f (fun _ => none) a), Option.or_assoc,
      ← write_or]

/-- A key that no item writes has nothing. -/
theorem writes_eq_none {f : α → Option (κ × β)} {l : List α} {k : κ} :
    writes f l (fun _ => none) k = none ↔ ∀ a ∈ l, ∀ v, f a ≠ some (k, v) := by
  induction l with
  | nil => simp [writes]
  | cons a l ih =>
    rw [List.forall_mem_cons, ← ih, writes_cons, writes_or, Option.or_eq_none_iff, and_comm]
    refine and_congr_left fun _ => ?_
    cases hf : f a with
    | none => simp [write_none hf]
    | some w =>
      rw [write_some hf]
      by_cases hk : k = w.1
      · simp [hk, Prod.ext_iff]
      · simp [hk, Prod.ext_iff, Ne.symm hk]

/-- Where all items that write a key agree, it has their value. -/
theorem writes_of_agree {f : α → Option (κ × β)} {l : List α} {k : κ} {v : β}
    (hsome : ∃ a ∈ l, f a = some (k, v)) (hagree : ∀ a ∈ l, ∀ w, f a = some (k, w) → w = v)
    (m : κ → Option β) : writes f l m k = some v := by
  induction l generalizing m with
  | nil => simp at hsome
  | cons a l ih =>
    have htail := fun b hb => hagree b (List.mem_cons_of_mem a hb)
    rw [writes_cons]
    by_cases hlater : ∃ b ∈ l, f b = some (k, v)
    · exact ih hlater htail _
    · have ha : f a = some (k, v) := by
        obtain ⟨b, hb, hf⟩ := hsome
        rcases List.mem_cons.mp hb with rfl | hb
        · exact hf
        · exact absurd ⟨b, hb, hf⟩ hlater
      have hnone : writes f l (fun _ => none) k = none := by
        rw [writes_eq_none]
        intro b hb w hf
        obtain rfl := htail b hb w hf
        exact hlater ⟨b, hb, hf⟩
      rw [writes_or, hnone, write_some ha, Option.none_or, Function.update_self]

end Lib
end Inac
