import Inac.Cron.Reading

/-!
# Numbers out of range

The parser does not compare the numbers it reads with the range of their field. What refuses a
number is that the loop which fills the array does not meet it, and that loop only looks for the
end of an item. So a number that is too large can be where a range starts, a number that counts as
"not read yet" is replaced by the next one, and a number of 2^32 or more is taken modulo 2^32.
Month 0 is below zero after the offset, and the entry before the array is written.

A number that is refused ends its item outside the array. Numbers at other places are in
`Reading.vals`, also those that the parser reads and then replaces, and the condition is that there
are none out of range among them if the pattern passes.
-/

namespace Inac
namespace Cron

/-- A number outside the range of its field: 0-59, 0-23, 1-31 and 0, 1-12, 0-6. -/
def Val.OutOfRange (f : Field) : Val → Prop
  | .star => False
  | .num ds => ¬ (0 ≤ (decimal ds : Int) + f.off ∧ (decimal ds : Int) + f.off < f.modvalue)
  | .name _ => False

instance (f : Field) : DecidablePred (Val.OutOfRange f)
  | .star => inferInstanceAs (Decidable False)
  | .num _ => inferInstanceAs (Decidable (¬ _))
  | .name _ => inferInstanceAs (Decidable False)

def Tail.seen : Tail → List Val
  | .hanging seen _ => seen
  | _ => []

/-- The values of a field as the parser reads it. -/
def Reading.vals (r : Reading) : List Val := r.items.flatMap Item.vals ++ r.tail.seen

/-- Some number of the pattern is out of range. -/
def Scan.OutOfRange (s : Scan) : Prop :=
  ∃ p ∈ s.fields, ∃ v ∈ p.2.vals, v.OutOfRange p.1.field

instance (s : Scan) : Decidable s.OutOfRange := inferInstanceAs (Decidable (∃ _ ∈ _, _))

/-- Every entry that is written is in its array, and a number out of range makes the parse fail. -/
def InRangeOnly (pattern : List Char) (tt : Timetable) : Prop :=
  parsePattern pattern tt ≠ .error .fault ∧
    ((scan Col.all pattern).OutOfRange → ∃ e, parsePattern pattern tt = .error (.rc e))

theorem scan_nil : scan Col.all [] =
    ⟨Col.all.map fun c => (c, ⟨[], .hanging [] []⟩), some []⟩ := rfl

/-- **When out-of-range numbers are refused.** Exactly if the first item that does not fit does not
    start below zero, and a pattern that passes has no number out of range. -/
theorem inRangeOnly_iff (pattern : List Char) (tt : Timetable) :
    InRangeOnly pattern tt ↔
      ¬ (scan Col.all pattern).Faults ∧
        ((scan Col.all pattern).Passes → ¬ (scan Col.all pattern).OutOfRange) := by
  by_cases hne : pattern = []
  · subst hne
    have hparse : parsePattern [] tt = .error (.rc .invalidArgument) := rfl
    have hrange : ¬ (scan Col.all []).OutOfRange := by
      rw [scan_nil]
      rintro ⟨p, hp, v, hv, -⟩
      obtain ⟨c, -, rfl⟩ := List.mem_map.mp hp
      exact absurd hv List.not_mem_nil
    refine iff_of_true ⟨by rw [hparse]; simp, fun h => absurd h hrange⟩ ⟨?_, fun _ => hrange⟩
    rintro ⟨p, hp, -⟩
    rw [scan_nil] at hp
    cases hp
  · rw [InRangeOnly, parsePattern_rc_iff hne, Ne, parsePattern_fault_iff hne]
    constructor
    · rintro ⟨hfault, hrange⟩
      exact ⟨hfault, fun hpass hout => (hrange hout).1 hpass⟩
    · rintro ⟨hfault, hrange⟩
      exact ⟨hfault, fun hout => ⟨fun hpass => hrange hpass hout, hfault⟩⟩

/-- `"70-5 * * * *"` passes, and `"* * * 0 *"` writes the entry before the months. -/
theorem inRangeOnly_fails :
    ¬ InRangeOnly ['7', '0', '-', '5', ' ', '*', ' ', '*', ' ', '*', ' ', '*'] .zero ∧
      ¬ InRangeOnly ['*', ' ', '*', ' ', '*', ' ', '0', ' ', '*'] .zero := by
  refine ⟨?_, ?_⟩
  · rintro ⟨-, hrange⟩
    have hfail := hrange (by decide +kernel)
    exact ((parsePattern_rc_iff (by decide)).mp hfail).1 (by decide +kernel)
  · rintro ⟨hfault, -⟩
    exact hfault ((parsePattern_fault_iff (by decide)).mpr (by decide +kernel))

end Cron
end Inac
