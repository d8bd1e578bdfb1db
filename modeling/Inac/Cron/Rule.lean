import Inac.Cron.Reading

/-!
# The day rule, and what was in the timetable before

After the fields are parsed, `ina_cron_parse_pattern` looks at the two arrays of days: if one of
them is full and the other is not, the full one is cleared. It looks at the arrays and not at the
pattern, and the parser only sets entries. So what the timetable held before the call stays in it,
and can make an array look full.
-/

namespace Inac
namespace Cron

/-- Every entry of the array is set. -/
def Full (c : Col) (S : Nat → Prop) : Prop := ∀ i < c.field.modvalue, S i

/-- What the day rule keeps: an array that is full only if the other one is full as well. -/
def Kept (S : Col → Nat → Prop) (c : Col) (i : Nat) : Prop :=
  match c with
  | .days => S .days i ∧ (Full .days (S .days) → Full .dow (S .dow))
  | .dow => S .dow i ∧ (Full .dow (S .dow) → Full .days (S .days))
  | c => S c i

theorem used_eq_false {n : Nat} {ary : Nat → Bool} :
    used n ary = false ↔ ∀ i < n, ary i = true := by
  simp [used]

/-- **The day rule.** -/
theorem get_fixDays (tt : Timetable) (c : Col) (i : Nat) :
    (fixDays tt).get c i = true ↔ Kept (fun c i => tt.get c i = true) c i := by
  have hdays : Full .days (fun i => tt.days i = true) ↔ used 32 tt.days = false :=
    used_eq_false.symm
  have hdow : Full .dow (fun i => tt.dow i = true) ↔ used 7 tt.dow = false :=
    used_eq_false.symm
  -- one of the two arrays is cleared only if the other one is not full
  by_cases hd : used 32 tt.days = true
  · by_cases hw : used 7 tt.dow = true
    · have hfix : fixDays tt = tt := by simp [fixDays, hd, hw]
      rw [hfix]
      cases c <;> simp [Kept, Timetable.get, hdays, hdow, hd, hw]
    · have hfix : fixDays tt = { tt with dow := fun _ => false } := by simp [fixDays, hd, hw]
      rw [hfix]
      cases c <;> simp [Kept, Timetable.get, hdays, hdow, hd, hw]
  · by_cases hw : used 7 tt.dow = true
    · have hfix : fixDays tt = { tt with days := fun _ => false } := by simp [fixDays, hd, hw]
      rw [hfix]
      cases c <;> simp [Kept, Timetable.get, hdays, hdow, hd, hw]
    · have hfix : fixDays tt = tt := by simp [fixDays, hd, hw]
      rw [hfix]
      cases c <;> simp [Kept, Timetable.get, hdays, hdow, hd, hw]

/-! ## What was there before

Entries are only added to a timetable by the fields, so of two timetables the results differ where
they differed and the pattern sets nothing, unless the day rule clears the array. -/

/-- The pattern sets this entry. -/
def Scan.Sets (s : Scan) (c : Col) (i : Nat) : Prop :=
  ∃ it, (c, it) ∈ s.items ∧ it.Sets c.field i

/-- What is in the timetable before or is set by the pattern. -/
def With (s : Scan) (tt : Timetable) (c : Col) (i : Nat) : Prop := tt.get c i = true ∨ s.Sets c i

theorem get_fixDays_foldl (s : Scan) (tt : Timetable) (c : Col) (i : Nat) :
    (fixDays (s.items.foldl addCol tt)).get c i = true ↔ Kept (With s tt) c i := by
  have hwith : (fun c i => (s.items.foldl addCol tt).get c i = true) = With s tt := by
    funext c i
    exact propext (get_foldl_addCol s.items tt c i)
  rw [get_fixDays, hwith]

/-- The two timetables are the same. -/
def Timetable.Same (tt tt' : Timetable) : Prop :=
  ∀ c, ∀ i < (c : Col).field.modvalue, tt.get c i = tt'.get c i

/-- The result depends only on the pattern. -/
def PatternOnly (pattern : List Char) (tt tt' : Timetable) : Prop :=
  ∀ r r', parsePattern pattern tt = .ok r → parsePattern pattern tt' = .ok r' → r.Same r'

theorem same_iff_kept (s : Scan) (tt tt' : Timetable) :
    (fixDays (s.items.foldl addCol tt)).Same (fixDays (s.items.foldl addCol tt')) ↔
      ∀ c, ∀ i < (c : Col).field.modvalue, (Kept (With s tt) c i ↔ Kept (With s tt') c i) := by
  refine forall_congr' fun c => forall_congr' fun i => imp_congr_right fun _ => ?_
  rw [Bool.eq_iff_iff, get_fixDays_foldl, get_fixDays_foldl]

/-- The day rule clears the array: it is full, and the other array of days is not. -/
def Cleared (S : Col → Nat → Prop) (c : Col) : Prop :=
  c = .days ∧ Full .days (S .days) ∧ ¬ Full .dow (S .dow) ∨
    c = .dow ∧ Full .dow (S .dow) ∧ ¬ Full .days (S .days)

theorem kept_iff (S : Col → Nat → Prop) (c : Col) (i : Nat) :
    Kept S c i ↔ S c i ∧ ¬ Cleared S c := by
  cases c with
  | mins => simp [Kept, Cleared]
  | hours => simp [Kept, Cleared]
  | days => simp [Kept, Cleared]
  | mons => simp [Kept, Cleared]
  | dow => simp [Kept, Cleared]

/-- The results agree on an array if it is cleared for both timetables, or for neither and they
    agree on what the pattern does not set, or for one of them while there is nothing in the
    other. -/
def AgreeOn (s : Scan) (tt tt' : Timetable) (c : Col) : Prop :=
  Cleared (With s tt) c ∧ Cleared (With s tt') c ∨
    ¬ Cleared (With s tt) c ∧ ¬ Cleared (With s tt') c ∧
      (∀ i < c.field.modvalue, s.Sets c i ∨ tt.get c i = tt'.get c i) ∨
    Cleared (With s tt) c ∧ (∀ i < c.field.modvalue, ¬ With s tt' c i) ∨
    (∀ i < c.field.modvalue, ¬ With s tt c i) ∧ Cleared (With s tt') c

theorem with_congr {s : Scan} {tt tt' : Timetable} {c : Col} {i : Nat} :
    (With s tt c i ↔ With s tt' c i) ↔ s.Sets c i ∨ tt.get c i = tt'.get c i := by
  rw [With, With, Bool.eq_iff_iff]
  by_cases hset : s.Sets c i
  · simp [hset]
  · simp [hset]

theorem kept_congr (s : Scan) (tt tt' : Timetable) (c : Col) :
    (∀ i < c.field.modvalue, (Kept (With s tt) c i ↔ Kept (With s tt') c i)) ↔
      AgreeOn s tt tt' c := by
  simp only [kept_iff]
  by_cases hcl : Cleared (With s tt) c
  · by_cases hcl' : Cleared (With s tt') c
    · simp [AgreeOn, hcl, hcl']
    · simp [AgreeOn, hcl, hcl']
  · by_cases hcl' : Cleared (With s tt') c
    · simp [AgreeOn, hcl, hcl']
    · simp [AgreeOn, hcl, hcl', with_congr]

end Cron
end Inac
