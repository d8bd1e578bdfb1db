import Inac.Cron.Grammar

/-!
# What a field denotes

An item stands for a range that goes up from its first value to its last one, around the end of the
field if the last one is smaller, in steps. A field stands for the union of its items. The parser
sets exactly that, except that it keeps only the low 32 bits of a step.
-/

namespace Inac
namespace Cron

open Lib

/-! ## Meaning

This is the meaning that the header documents, stated without the parser. -/

/-- The number that a value stands for, after the offset of the field. The names of a field are
    listed twice, first in lower case. -/
def Val.value (f : Field) : Val → Int
  | .star => 0
  | .num ds => decimal ds + f.off
  | .name i => i % f.modvalue

/-- A number in the range of the field, or a name in lower case. -/
def Val.InRange (f : Field) : Val → Prop
  | .star => True
  | .num ds => 0 ≤ (decimal ds : Int) + f.off ∧ (decimal ds : Int) + f.off < f.modvalue
  | .name i => i < f.modvalue

instance (f : Field) : DecidablePred (Val.InRange f)
  | .star => inferInstanceAs (Decidable True)
  | .num _ => inferInstanceAs (Decidable (_ ∧ _))
  | .name _ => inferInstanceAs (Decidable (_ < _))

/-- The first and the last value of the range. -/
def Item.range (f : Field) (it : Item) : Int × Int :=
  match it.vals with
  | [v, w] => (v.value f, w.value f)
  | [.star] => (0, f.modvalue - 1)
  | [v] => (v.value f, v.value f)
  | _ => (0, 0)

def Item.stepValue (it : Item) : Nat :=
  match it.step with
  | none => 1
  | some s => decimal s

/-- The item stands for the value `i`: some number of steps up from the first value, not past the
    last one. -/
def Item.Denotes (f : Field) (it : Item) (i : Nat) : Prop :=
  ∃ k : Nat, k * it.stepValue ≤ stepsTo f.modvalue (it.range f).1 (it.range f).2 ∧
    ((it.range f).1 + (k * it.stepValue : Nat)) % f.modvalue = i

def Item.InRange (f : Field) (it : Item) : Prop := ∀ v ∈ it.vals, v.InRange f

instance (f : Field) (it : Item) : Decidable (it.InRange f) :=
  inferInstanceAs (Decidable (∀ v ∈ it.vals, _))

instance (f : Field) (it : Item) : DecidablePred (it.Denotes f) := fun i =>
  decidable_of_iff (∃ k : Nat, k < stepsTo f.modvalue (it.range f).1 (it.range f).2 + 1 ∧
      k * it.stepValue ≤ stepsTo f.modvalue (it.range f).1 (it.range f).2 ∧
      ((it.range f).1 + (k * it.stepValue : Nat)) % f.modvalue = i) (by
    constructor
    · rintro ⟨k, -, hk, hi⟩
      exact ⟨k, hk, hi⟩
    · rintro ⟨k, hk, hi⟩
      -- a step of 0 stays at the first value
      rcases Nat.eq_zero_or_pos it.stepValue with hzero | hpos
      · exact ⟨0, Nat.succ_pos _, by simp, by simpa [hzero] using hi⟩
      · exact ⟨k, Nat.lt_succ_of_le (Nat.le_trans (Nat.le_mul_of_pos_right k hpos) hk), hk, hi⟩)

/-! ## Numbers as they are read

A capitalised name and a number in range differ in what they are read as by the size of the field,
which is lost where a range starts. -/

theorem toInt_of_small {v : Int} (h0 : -2 ^ 31 ≤ v) (h1 : v < 2 ^ 31) : toInt v = v := by
  rw [toInt]
  exact Int.bmod_eq_of_le (by omega) (by omega)

theorem strtol_of_digits {s : List Char} (h : Digits s) :
    (strtol s).1 = min longMax (decimal s) := by
  have hstrtol := strtol_digits h.2 h.1 (stops_nil Char.isDigit)
  rw [List.append_nil] at hstrtol
  rw [hstrtol]

theorem Col.off_cases (c : Col) : c.field.off = 0 ∨ c.field.off = -1 := by
  cases c <;> decide

/-- A number in range is read as it is. -/
theorem int_num (c : Col) {ds : List Char} (hds : Digits ds)
    (hr : Val.InRange c.field (.num ds)) : (Val.num ds).int c.field = decimal ds + c.field.off := by
  have hmod := c.modvalue_le
  have hoff := c.off_cases
  obtain ⟨h0, hlt⟩ := hr
  have hmin : min longMax (decimal ds) = decimal ds := by
    unfold longMax
    omega
  rw [Val.int, strtol_of_digits hds, hmin, toInt_of_small (v := decimal ds) (by omega) (by omega),
    toInt_of_small (by omega) (by omega)]

/-- The numbers of the item are in range. -/
def Item.NumsInRange (f : Field) (it : Item) : Prop :=
  ∀ ds, .num ds ∈ it.vals → Val.InRange f (.num ds)

theorem Item.InRange.nums {f : Field} {it : Item} (h : it.InRange f) : it.NumsInRange f :=
  fun ds hds => h (.num ds) hds

/-- A value other than `'*'` is read as a number that is not negative and that leaves the value it
    stands for. -/
theorem int_simple (c : Col) {v : Val} (hv : v.Simple c.field)
    (hr : ∀ ds, v = .num ds → Val.InRange c.field (.num ds)) :
    0 ≤ v.int c.field ∧ v.int c.field % c.field.modvalue = v.value c.field := by
  cases v with
  | star => exact absurd rfl hv.1
  | num ds =>
    have hrange := hr ds rfl
    rw [int_num c hv.2 hrange]
    exact ⟨hrange.1, Int.emod_eq_of_lt hrange.1 hrange.2⟩
  | name i =>
    refine ⟨?_, rfl⟩
    rw [Val.int]
    omega

theorem bounds_two {f : Field} {v w : Val} (hv : v ≠ .star) (hw : w ≠ .star) :
    bounds f [v, w] = if v.int f < 0 then (w.int f, -1) else (v.int f, w.int f) := by
  have hput : bounds f [v, w] = put f (bounds f [v]) w := rfl
  rw [hput, bounds_singleton hv]
  cases w with
  | star => exact absurd rfl hw
  | num ds => rfl
  | name i => rfl

theorem bounds_pair {f : Field} {v w : Val} (hv : v ≠ .star) (hw : w ≠ .star)
    (h0 : 0 ≤ v.int f) : bounds f [v, w] = (v.int f, w.int f) := by
  rw [bounds_two hv hw, if_neg (not_lt.mpr h0)]

/-- How the bounds of a plain item come from its values. -/
theorem last_eq (c : Col) {it : Item} (hit : it.Plain c.field) (hr : it.NumsInRange c.field) :
    it.vals = [.star] ∧ it.last c.field = c.field.modvalue - 1 ∨
      ∃ w ∈ it.vals, w.Simple c.field ∧ it.last c.field = w.int c.field ∧
        (it.range c.field).2 = w.value c.field := by
  obtain ⟨vals, st⟩ := it
  have hmod := c.modvalue_pos
  have hneg : (-1 : Int) < 0 := by decide
  rcases hit.vals with hval | ⟨v, hval, hv⟩ | ⟨v, w, hval, hv, hw⟩
  · obtain rfl : vals = [.star] := hval
    refine .inl ⟨rfl, if_neg ?_⟩
    change ¬ ((c.field.modvalue : Int) - 1 < 0)
    omega
  · obtain rfl : vals = [v] := hval
    refine .inr ⟨v, List.mem_cons_self, hv, ?_, ?_⟩
    · rw [Item.last, bounds_singleton hv.1, if_pos hneg]
    · cases v with
      | star => exact absurd rfl hv.1
      | num ds => rfl
      | name i => rfl
  · obtain rfl : vals = [v, w] := hval
    have hv0 := (int_simple c hv fun ds hds => hr ds (by simp [hds])).1
    have hw0 := (int_simple c hw fun ds hds => hr ds (by simp [hds])).1
    refine .inr ⟨w, by simp, hw, ?_, rfl⟩
    rw [Item.last, bounds_pair hv.1 hw.1 hv0, if_neg (not_lt.mpr hw0)]

theorem first_emod (c : Col) {it : Item} (hit : it.Plain c.field)
    (hr : it.NumsInRange c.field) :
    it.first c.field % c.field.modvalue = (it.range c.field).1 := by
  obtain ⟨vals, st⟩ := it
  rcases hit.vals with hval | ⟨v, hval, hv⟩ | ⟨v, w, hval, hv, hw⟩
  · obtain rfl : vals = [.star] := hval
    rfl
  · obtain rfl : vals = [v] := hval
    rw [Item.first, bounds_singleton hv.1]
    have hmeant := (int_simple c hv fun ds hds => hr ds (by simp [hds])).2
    cases v with
    | star => exact absurd rfl hv.1
    | num ds => exact hmeant
    | name i => exact hmeant
  · obtain rfl : vals = [v, w] := hval
    obtain ⟨hv0, hmeant⟩ := int_simple c hv fun ds hds => hr ds (by simp [hds])
    rw [Item.first, bounds_pair hv.1 hw.1 hv0]
    exact hmeant

/-- An item that fits ends with the value that is meant. -/
theorem last_of_fits (c : Col) {it : Item} (hit : it.Plain c.field) (hr : it.NumsInRange c.field)
    (hfits : it.Fits c.field) : it.last c.field = (it.range c.field).2 := by
  rcases last_eq c hit hr with ⟨hstar, hlast⟩ | ⟨w, hw, hsimple, hlast, hrange⟩
  · rw [hlast, Item.range, hstar]
  · rw [hrange, ← (int_simple c hsimple fun ds hds => hr ds (hds ▸ hw)).2, ← hlast]
    exact (Int.emod_eq_of_lt hfits.1 hfits.2).symm

/-- An item whose values are in range fits. -/
theorem fits_of_inRange (c : Col) {it : Item} (hit : it.Plain c.field)
    (hr : it.InRange c.field) : it.Fits c.field := by
  have hmod := c.modvalue_pos
  rw [Item.Fits]
  rcases last_eq c hit hr.nums with ⟨-, hlast⟩ | ⟨w, hw, hsimple, hlast, -⟩
  · rw [hlast]
    omega
  · have hrange := hr w hw
    rw [hlast]
    cases w with
    | star => exact absurd rfl hsimple.1
    | num ds =>
      rw [int_num c hsimple.2 hrange]
      exact hrange
    | name i =>
      rw [Val.int]
      exact ⟨by omega, by exact_mod_cast hrange⟩

/-! ## What is set is what is denoted

Both are sets of places reached from the first value in steps. They differ in where the first value
is counted from, and a step of 2^31 or more is another number for the parser. -/

/-- What an item that fits sets, from the values that are meant. -/
theorem sets_iff (c : Col) {it : Item} (hit : it.Plain c.field) (hr : it.NumsInRange c.field)
    (hfits : it.Fits c.field) (i : Nat) :
    it.Sets c.field i ↔
      Sets c.field.modvalue (it.range c.field).1 (it.range c.field).2 it.skip i := by
  have hfirst : it.first c.field % c.field.modvalue =
      (it.range c.field).1 % c.field.modvalue := by
    rw [← first_emod c hit hr, Int.emod_emod_of_dvd _ (Int.dvd_refl _)]
  rw [Item.Sets, last_of_fits c hit hr hfits]
  exact sets_congr hfirst i

/-- A step that an `int` holds is read as it is. -/
theorem skip_eq {f : Field} {it : Item} (hit : it.Plain f) (h : it.stepValue < 2 ^ 31) :
    it.skip = it.stepValue := by
  unfold Item.skip
  unfold Item.stepValue at h ⊢
  cases hst : it.step with
  | none => rfl
  | some s =>
    rw [hst] at h
    dsimp only at h ⊢
    have hmin : min longMax (decimal s) = decimal s := by
      unfold longMax
      omega
    rw [strtol_of_digits (hit.step s hst), hmin, toInt_of_small (by omega) (by omega)]

theorem stepValue_pos {f : Field} {it : Item} (hit : it.WellFormed f) : 0 < it.stepValue := by
  unfold Item.stepValue
  cases hst : it.step with
  | none => exact Nat.one_pos
  | some s => exact hit.2 s hst

/-- Everything that is denoted is set. -/
theorem sets_of_denotes (c : Col) {it : Item} (hit : it.WellFormed c.field)
    (hr : it.NumsInRange c.field) (hfits : it.Fits c.field) {i : Nat}
    (h : it.Denotes c.field i) : it.Sets c.field i := by
  obtain ⟨k, hk, hi⟩ := h
  rw [sets_iff c hit.1 hr hfits]
  refine ⟨k * it.stepValue, hk, ?_, hi⟩
  by_cases hsmall : it.stepValue < 2 ^ 31
  · have hpos := stepValue_pos hit
    rw [skip_eq hit.1 hsmall]
    exact .inr ⟨by omega, by rw [Int.natCast_mul]; exact Int.dvd_mul_left _ _⟩
  · -- a step this large only has the first value
    have hlt := stepsTo_lt c.modvalue_pos (it.range c.field).1 (it.range c.field).2
    have hmod := c.modvalue_le
    have hzero : k = 0 := by
      rcases Nat.eq_zero_or_pos k with hk0 | hk0
      · exact hk0
      · have := Nat.le_mul_of_pos_left it.stepValue hk0
        omega
    exact .inl (by rw [hzero, Nat.zero_mul])

/-- With a step that an `int` holds nothing else is set. -/
theorem denotes_of_sets (c : Col) {it : Item} (hit : it.Plain c.field)
    (hr : it.NumsInRange c.field) (hfits : it.Fits c.field) (hsmall : it.stepValue < 2 ^ 31)
    {i : Nat} (h : it.Sets c.field i) : it.Denotes c.field i := by
  rw [sets_iff c hit hr hfits, skip_eq hit hsmall] at h
  obtain ⟨t, ht, hmark, hi⟩ := h
  have hdvd : it.stepValue ∣ t := by
    rcases hmark with rfl | ⟨-, hdvd⟩
    · exact Nat.dvd_zero _
    · exact Int.natCast_dvd_natCast.mp hdvd
  obtain ⟨k, rfl⟩ := hdvd
  rw [Nat.mul_comm] at ht hi
  exact ⟨k, ht, hi⟩

/-! ## A whole field

The union over the items, on both sides. -/

theorem fillItems_eq (c : Col) {items : List Item} (h : ∀ it ∈ items, it.Fits c.field)
    (ary : Nat → Bool) :
    ∃ ary', items.foldlM (fillItem c.field) ary = .ok ary' ∧
      ∀ i, ary' i = true ↔ ary i = true ∨ ∃ it ∈ items, it.Sets c.field i := by
  induction items generalizing ary with
  | nil => exact ⟨ary, rfl, by simp⟩
  | cons it items ih =>
    obtain ⟨hit, hits⟩ := List.forall_mem_cons.mp h
    obtain ⟨ary', hok, hset⟩ := ih hits (addTo ary (it.Sets c.field))
    refine ⟨ary', ?_, fun i => ?_⟩
    · rw [List.foldlM_cons, fillItem_eq, if_pos hit]
      exact hok
    · rw [hset i, addTo, Bool.or_eq_true, decide_eq_true_eq, or_assoc, List.exists_mem_cons_iff]

/-- A field as a crontab should have it: items that are well formed, with values in range. -/
structure FieldOk (c : Col) (items : List Item) : Prop where
  ne_nil : items ≠ []
  wellFormed : ∀ it ∈ items, it.WellFormed c.field
  inRange : ∀ it ∈ items, it.InRange c.field

instance (c : Col) (items : List Item) : Decidable (FieldOk c items) :=
  decidable_of_iff (items ≠ [] ∧ (∀ it ∈ items, it.WellFormed c.field) ∧
    ∀ it ∈ items, it.InRange c.field)
    ⟨fun h => ⟨h.1, h.2.1, h.2.2⟩, fun h => ⟨h.ne_nil, h.wellFormed, h.inRange⟩⟩

theorem FieldOk.fits {c : Col} {items : List Item} (h : FieldOk c items) :
    ∀ it ∈ items, it.Fits c.field := fun it hit =>
  fits_of_inRange c (h.wellFormed it hit).1 (h.inRange it hit)

/-- The parser returns the text after the field and its blanks, and sets what the items set. -/
theorem parseField_text {c : Col} {items : List Item} (h : FieldOk c items)
    {blanks rest : List Char} (hb : ∀ b ∈ blanks, isBlank b = true) (hgap : blanks ≠ [] ∨ rest = [])
    (hrest : Stops isBlank rest) :
    ∃ ary, parseField c.field (fun _ => false) (fieldText c.field items ++ (blanks ++ rest)) =
        .ok (ary, rest) ∧
      ∀ i, ary i = true ↔ ∃ it ∈ items, it.Sets c.field i := by
  obtain ⟨ary, hok, hset⟩ := fillItems_eq c h.fits fun _ => false
  refine ⟨ary, ?_, fun i => by rw [hset i]; simp⟩
  have hread := readField_text c h.ne_nil (fun it hit => (h.wellFormed it hit).1)
    (atEnd_append hb hgap)
  rw [parseField_eq, hread, Reading.run, hok, Tail.rest, (span_append hb hrest).2]
  rfl

/-- **What a field sets.** The parser returns the text after the field and its blanks. Into a zeroed
    array it sets exactly what the field denotes if and only if no step of 2^31 or more, read as an
    `int`, sets an entry that the field does not denote. -/
theorem parseField_iff (c : Col) (items : List Item) (blanks rest : List Char)
    (h : FieldOk c items) (hb : ∀ b ∈ blanks, isBlank b = true) (hgap : blanks ≠ [] ∨ rest = [])
    (hrest : Stops isBlank rest) :
    (∃ ary, parseField c.field (fun _ => false) (fieldText c.field items ++ (blanks ++ rest)) =
        .ok (ary, rest) ∧
      ∀ i, ary i = true ↔ ∃ it ∈ items, it.Denotes c.field i) ↔
      ∀ it ∈ items, 2 ^ 31 ≤ it.stepValue → ∀ i, it.Sets c.field i →
        ∃ it' ∈ items, it'.Denotes c.field i := by
  obtain ⟨ary, hok, hset⟩ := parseField_text h hb hgap hrest
  constructor
  · rintro ⟨ary', hok', hden⟩ it hit - i hi
    rw [hok] at hok'
    cases hok'
    exact (hden i).mp ((hset i).mpr ⟨it, hit, hi⟩)
  · intro hstep
    refine ⟨ary, hok, fun i => ?_⟩
    rw [hset i]
    constructor
    · rintro ⟨it, hit, hi⟩
      -- Only a large step can set what is not denoted.
      by_cases hsmall : it.stepValue < 2 ^ 31
      · exact ⟨it, hit, denotes_of_sets c (h.wellFormed it hit).1 (h.inRange it hit).nums
          (h.fits it hit) hsmall hi⟩
      · exact hstep it hit (not_lt.mp hsmall) i hi
    · rintro ⟨it, hit, hi⟩
      exact ⟨it, hit, sets_of_denotes c (h.wellFormed it hit) (h.inRange it hit).nums
        (h.fits it hit) hi⟩

/-- `"50-5/7,3 "` in the minutes: from 50 over 57 around to 4, and 3. -/
theorem parseField_iff_wraps :
    let items : List Item := [⟨[.num ['5', '0'], .num ['5']], some ['7']⟩, ⟨[.num ['3']], none⟩]
    ∃ ary, parseField (Col.field .mins) (fun _ => false)
        ['5', '0', '-', '5', '/', '7', ',', '3', ' '] = .ok (ary, []) ∧
      ∀ i, ary i = true ↔ ∃ it ∈ items, it.Denotes (Col.field .mins) i := by
  intro items
  have hok : FieldOk .mins items := by decide +kernel
  refine (parseField_iff .mins items [' '] [] hok (by simp [isBlank]) (by simp)
    (stops_nil _)).mpr ?_
  intro it hit hstep
  exact absurd hstep (by revert it; decide)

/-- `"*"` with the step 2^32 + 1 sets every minute. -/
theorem parseField_wide_step :
    let items : List Item := [⟨[.star], some ['4', '2', '9', '4', '9', '6', '7', '2', '9', '7']⟩]
    ¬ ∃ ary, parseField (Col.field .mins) (fun _ => false)
        ['*', '/', '4', '2', '9', '4', '9', '6', '7', '2', '9', '7'] = .ok (ary, []) ∧
      ∀ i, ary i = true ↔ ∃ it ∈ items, it.Denotes (Col.field .mins) i := by
  rintro items ⟨ary, hok, hden⟩
  have hitems : FieldOk .mins items := by decide +kernel
  obtain ⟨ary', hok', hset⟩ := parseField_text hitems
    (fun b (hb : b ∈ []) => absurd hb List.not_mem_nil) (.inr (rfl : [] = [])) (stops_nil _)
  have hsame : ary' = ary := by
    have heq := hok'.symm.trans hok
    exact (Prod.mk.inj (Except.ok.inj heq)).1
  subst hsame
  have hone : ∃ it ∈ items, it.Sets (Col.field .mins) 1 := by decide +kernel
  have hnot : ¬ ∃ it ∈ items, it.Denotes (Col.field .mins) 1 := by decide +kernel
  exact hnot ((hden 1).mp ((hset 1).mpr hone))

end Cron
end Inac
