import Inac.Cron.Line

/-!
# Names and numbers

The names of the months and of the weekdays stand in their table twice, first in lower case and
then with a capital letter, and a name is read as its index. So a capitalised name is read as its
number plus the size of the field. Where an item starts only counts modulo the size, and there the
spellings do the same. Where it ends is compared with the places of the array, and none of them is
that large: an item that ends with a capitalised name is refused.
-/

namespace Inac
namespace Cron

open Lib

/-! ## Spellings -/

inductive Spelling where
  | lower | capital | number
  deriving DecidableEq, Repr

/-- Where a value stands in a pattern: one that stays as it is, or a name in lower case with the
    digits of its number. -/
inductive Slot where
  | val (v : Val)
  | name (i : Nat) (digits : List Char)
  deriving DecidableEq, Repr

def capitalise : List Char → List Char
  | [] => []
  | c :: t => c.toUpper :: t

def Slot.spell (f : Field) (sp : Spelling) : Slot → Val
  | .val v => v
  | .name i ds =>
    match sp with
    | .lower => .name i
    | .capital => .name (f.names.idxOf (capitalise (f.names.getD i [])))
    | .number => .num ds

structure SlotItem where
  slots : List Slot
  step : Option (List Char)
  deriving DecidableEq, Repr

def SlotItem.spell (f : Field) (sp : Spelling) (it : SlotItem) : Item :=
  ⟨it.slots.map (Slot.spell f sp), it.step⟩

structure SlotLine where
  items : Col → List SlotItem
  blanks : Col → List Char

def SlotLine.spell (sp : Spelling) (l : SlotLine) : Line :=
  ⟨fun c => (l.items c).map (SlotItem.spell c.field sp), l.blanks⟩

/-- A number or a name. The number of a name is the one that the field counts it as. -/
def Slot.Simple (f : Field) : Slot → Prop
  | .val v => v.Simple f
  | .name i ds => i < f.modvalue ∧ f.names ≠ [] ∧ Digits ds ∧ (decimal ds : Int) + f.off = i

structure SlotItem.Plain (f : Field) (it : SlotItem) : Prop where
  slots : it.slots = [.val .star] ∨ (∃ s, it.slots = [s] ∧ s.Simple f) ∨
    ∃ s t, it.slots = [s, t] ∧ s.Simple f ∧ t.Simple f
  step : ∀ s ∈ it.step, Digits s

/-- Five fields of plain items with blanks between them. -/
structure SlotLine.Plain (l : SlotLine) : Prop where
  ne_nil : ∀ c, l.items c ≠ []
  plain : ∀ c, ∀ it ∈ l.items c, it.Plain (Col.field c)
  blank : ∀ c, ∀ b ∈ l.blanks c, isBlank b = true
  gap : ∀ c, c ≠ .dow → l.blanks c ≠ []

/-- The two patterns are accepted alike and give the same timetable. -/
def Agree (p p' : List Char) : Prop :=
  ∀ tt, ((∃ r, parsePattern p tt = .ok r) ↔ ∃ r, parsePattern p' tt = .ok r) ∧
    ∀ r r', parsePattern p tt = .ok r → parsePattern p' tt = .ok r' → r.Same r'

/-- The names of the line can be written in all three ways. -/
def NamesAlike (l : SlotLine) : Prop :=
  Agree (l.spell .lower).text (l.spell .capital).text ∧
    Agree (l.spell .lower).text (l.spell .number).text ∧
    Agree (l.spell .capital).text (l.spell .number).text

def Slot.IsName : Slot → Prop
  | .val _ => False
  | .name _ _ => True

instance : DecidablePred Slot.IsName
  | .val _ => inferInstanceAs (Decidable False)
  | .name _ _ => inferInstanceAs (Decidable True)

/-- A name decides where the item ends. This is the last value, unless that is read as a negative
    number: then it is not taken as an end. -/
def SlotItem.EndsInName (f : Field) (it : SlotItem) : Prop :=
  match it.slots with
  | [s] => s.IsName
  | [s, t] => t.IsName ∨ s.IsName ∧ (t.spell f .lower).int f < 0
  | _ => False

/-! ## How the spellings are read -/

/-- The table has each name again with a capital letter. -/
theorem idxOf_capitalise (c : Col) (h : c.field.names ≠ []) {i : Nat} (hi : i < c.field.modvalue) :
    c.field.names.idxOf (capitalise (c.field.names.getD i [])) = i + c.field.modvalue ∧
      i + c.field.modvalue < c.field.names.length := by
  revert i
  cases c with
  | mins => exact absurd rfl h
  | hours => exact absurd rfl h
  | days => exact absurd rfl h
  | mons => decide +kernel
  | dow => decide +kernel

/-- What the three spellings of a slot are read as. -/
theorem int_spell (c : Col) {s : Slot} (hs : s.Simple c.field) :
    (s.spell c.field .number).int c.field = (s.spell c.field .lower).int c.field ∧
      (s.spell c.field .capital).int c.field = (s.spell c.field .lower).int c.field +
        (if s.IsName then (c.field.modvalue : Int) else 0) ∧
      (s.IsName → 0 ≤ (s.spell c.field .lower).int c.field ∧
        (s.spell c.field .lower).int c.field < c.field.modvalue) := by
  cases s with
  | val v =>
    refine ⟨rfl, ?_, fun h => h.elim⟩
    rw [if_neg (fun h : Slot.IsName (.val v) => h), add_zero]
    rfl
  | name i ds =>
    obtain ⟨hi, hnames, hds, hnum⟩ := hs
    have hrange : Val.InRange c.field (.num ds) := by
      rw [Val.InRange, hnum]
      omega
    refine ⟨?_, ?_, fun _ => ?_⟩
    · exact (int_num c hds hrange).trans hnum
    · have hname : Slot.IsName (.name i ds) := trivial
      rw [if_pos hname, Slot.spell, Slot.spell, (idxOf_capitalise c hnames hi).1]
      exact Int.natCast_add i c.field.modvalue
    · change 0 ≤ (i : Int) ∧ (i : Int) < c.field.modvalue
      omega

/-- Spelled out a slot is a number or a name. -/
theorem simple_spell (c : Col) {s : Slot} (hs : s.Simple c.field) (sp : Spelling) :
    (s.spell c.field sp).Simple c.field := by
  cases s with
  | val v => exact hs
  | name i ds =>
    obtain ⟨hi, hnames, hds, -⟩ := hs
    obtain ⟨hidx, hlt⟩ := idxOf_capitalise c hnames hi
    cases sp with
    | lower =>
      refine ⟨by simp [Slot.spell], ?_⟩
      change i < c.field.names.length
      omega
    | capital =>
      refine ⟨by simp [Slot.spell], ?_⟩
      change c.field.names.idxOf _ < c.field.names.length
      omega
    | number => exact ⟨by simp [Slot.spell], hds⟩

theorem plain_spell (c : Col) {it : SlotItem} (h : it.Plain c.field) (sp : Spelling) :
    (it.spell c.field sp).Plain c.field := by
  refine ⟨?_, h.step⟩
  rw [SlotItem.spell]
  rcases h.slots with hs | ⟨s, hs, hsimple⟩ | ⟨s, t, hs, hsimple, htsimple⟩
  · exact .inl (by rw [hs]; rfl)
  · exact .inr (.inl ⟨_, by rw [hs]; rfl, simple_spell c hsimple sp⟩)
  · exact .inr (.inr ⟨_, _, by rw [hs]; rfl, simple_spell c hsimple sp, simple_spell c htsimple sp⟩)

theorem SlotLine.Plain.spell {l : SlotLine} (h : l.Plain) (sp : Spelling) :
    (l.spell sp).Plain := by
  refine ⟨fun c => ?_, fun c it hit => ?_, h.blank, h.gap⟩
  · exact fun hnil => h.ne_nil c (List.map_eq_nil_iff.mp hnil)
  · obtain ⟨it', hit', rfl⟩ := List.mem_map.mp hit
    exact plain_spell c (h.plain c it' hit') sp

/-! ## What the spellings of an item do -/

/-- An item of two values begins at the second one if the first is negative. -/
theorem first_two {f : Field} {v w : Val} {st : Option (List Char)} (hv : v ≠ .star)
    (hw : w ≠ .star) :
    Item.first f ⟨[v, w], st⟩ = if v.int f < 0 then w.int f else v.int f := by
  rw [Item.first, bounds_two hv hw]
  exact apply_ite Prod.fst _ _ _

theorem last_two {f : Field} {v w : Val} {st : Option (List Char)} (hv : v ≠ .star)
    (hw : w ≠ .star) :
    Item.last f ⟨[v, w], st⟩ =
      if v.int f < 0 then w.int f else if w.int f < 0 then v.int f else w.int f := by
  rw [Item.last, bounds_two hv hw]
  by_cases hneg : v.int f < 0
  · rw [if_pos hneg, if_pos hneg]
    rfl
  · rw [if_neg hneg, if_neg hneg]

/-- What capitals do to an item: it starts at the same place or one round later, and it ends at the
    same place, or one round later if a name decides where it ends. -/
structure Moved (c : Col) (it : SlotItem) : Prop where
  first : (it.spell c.field .capital).first c.field = (it.spell c.field .lower).first c.field ∨
    (it.spell c.field .capital).first c.field =
      (it.spell c.field .lower).first c.field + c.field.modvalue
  stays : ¬ it.EndsInName c.field →
    (it.spell c.field .capital).last c.field = (it.spell c.field .lower).last c.field
  moves : it.EndsInName c.field → (it.spell c.field .lower).Fits c.field ∧
    (it.spell c.field .capital).last c.field =
      (it.spell c.field .lower).last c.field + c.field.modvalue

/-- An item of one value, and one of two. -/
theorem moved_one (c : Col) {s : Slot} (hsimple : s.Simple c.field) (st : Option (List Char)) :
    Moved c ⟨[s], st⟩ := by
  obtain ⟨-, hint, hname⟩ := int_spell c hsimple
  have hends : SlotItem.EndsInName c.field ⟨[s], st⟩ ↔ s.IsName := Iff.rfl
  have hone : ∀ sp, (SlotItem.spell c.field sp ⟨[s], st⟩).first c.field =
        (s.spell c.field sp).int c.field ∧
      (SlotItem.spell c.field sp ⟨[s], st⟩).last c.field = (s.spell c.field sp).int c.field := by
    intro sp
    have hbounds : bounds c.field (SlotItem.spell c.field sp ⟨[s], st⟩).vals =
        ((s.spell c.field sp).int c.field, -1) := bounds_singleton (simple_spell c hsimple sp).1
    rw [Item.first, Item.last, hbounds]
    exact ⟨rfl, rfl⟩
  constructor
  · rw [(hone _).1, (hone _).1, hint]
    by_cases hs : s.IsName
    · exact .inr (by rw [if_pos hs])
    · exact .inl (by rw [if_neg hs, add_zero])
  · rw [hends, (hone _).2, (hone _).2, hint]
    intro hno
    rw [if_neg hno, add_zero]
  · rw [hends, Item.Fits, (hone _).2, (hone _).2, hint]
    intro hyes
    exact ⟨hname hyes, by rw [if_pos hyes]⟩

theorem moved_two (c : Col) {s t : Slot} (hsimple : s.Simple c.field) (htsimple : t.Simple c.field)
    (st : Option (List Char)) : Moved c ⟨[s, t], st⟩ := by
  obtain ⟨-, hint, hname⟩ := int_spell c hsimple
  obtain ⟨-, hint', hname'⟩ := int_spell c htsimple
  have hends : SlotItem.EndsInName c.field ⟨[s, t], st⟩ ↔
    t.IsName ∨ s.IsName ∧ (t.spell c.field .lower).int c.field < 0 := Iff.rfl
  have hfirst : ∀ sp, (SlotItem.spell c.field sp ⟨[s, t], st⟩).first c.field =
      if (s.spell c.field sp).int c.field < 0 then (t.spell c.field sp).int c.field
      else (s.spell c.field sp).int c.field := fun sp =>
    first_two (simple_spell c hsimple sp).1 (simple_spell c htsimple sp).1
  have hlast : ∀ sp, (SlotItem.spell c.field sp ⟨[s, t], st⟩).last c.field =
      if (s.spell c.field sp).int c.field < 0 then (t.spell c.field sp).int c.field
      else if (t.spell c.field sp).int c.field < 0 then (s.spell c.field sp).int c.field
      else (t.spell c.field sp).int c.field := fun sp =>
    last_two (simple_spell c hsimple sp).1 (simple_spell c htsimple sp).1
  -- a name is not negative, and stays so one round later, so both spellings take the same branches
  constructor
  · rw [hfirst, hfirst, hint, hint']
    grind
  · rw [hends, hlast, hlast, hint, hint']
    grind
  · rw [hends, Item.Fits, hlast, hlast, hint, hint']
    grind

section

variable (c : Col) {it : SlotItem} (h : it.Plain c.field)

include h

/-- A number does what the name does. -/
theorem bounds_number : bounds c.field (it.spell c.field .number).vals =
    bounds c.field (it.spell c.field .lower).vals := by
  obtain ⟨slots, st⟩ := it
  rcases h.slots with hs | ⟨s, hs, hsimple⟩ | ⟨s, t, hs, hsimple, htsimple⟩
  · obtain rfl : slots = [.val .star] := hs
    rfl
  · obtain rfl : slots = [s] := hs
    change bounds c.field [s.spell c.field .number] = bounds c.field [s.spell c.field .lower]
    rw [bounds_singleton (simple_spell c hsimple _).1,
      bounds_singleton (simple_spell c hsimple _).1, (int_spell c hsimple).1]
  · obtain rfl : slots = [s, t] := hs
    change bounds c.field [s.spell c.field .number, t.spell c.field .number] =
      bounds c.field [s.spell c.field .lower, t.spell c.field .lower]
    rw [bounds_two (simple_spell c hsimple _).1 (simple_spell c htsimple _).1,
      bounds_two (simple_spell c hsimple _).1 (simple_spell c htsimple _).1,
      (int_spell c hsimple).1, (int_spell c htsimple).1]

theorem moved : Moved c it := by
  obtain ⟨slots, st⟩ := it
  rcases h.slots with hs | ⟨s, hs, hsimple⟩ | ⟨s, t, hs, hsimple, htsimple⟩
  · obtain rfl : slots = [.val .star] := hs
    exact ⟨.inl rfl, fun _ => rfl, fun hname => hname.elim⟩
  · obtain rfl : slots = [s] := hs
    exact moved_one c hsimple st
  · obtain rfl : slots = [s, t] := hs
    exact moved_two c hsimple htsimple st

/-- Numbers and names in small letters are accepted alike, and set the same places. -/
theorem fits_number : (it.spell c.field .number).Fits c.field ↔
    (it.spell c.field .lower).Fits c.field := by
  rw [Item.Fits, Item.Fits, Item.last, Item.last, bounds_number c h]

theorem sets_number (i : Nat) : (it.spell c.field .number).Sets c.field i ↔
    (it.spell c.field .lower).Sets c.field i := by
  rw [Item.Sets, Item.Sets, Item.first, Item.first, Item.last, Item.last, bounds_number c h]
  rfl

/-- With a capital letter an item is accepted unless it ends in a name. -/
theorem fits_capital : (it.spell c.field .capital).Fits c.field ↔
    (it.spell c.field .lower).Fits c.field ∧ ¬ it.EndsInName c.field := by
  obtain ⟨-, hstays, hmoves⟩ := moved c h
  by_cases hends : it.EndsInName c.field
  · obtain ⟨hfits, hlast⟩ := hmoves hends
    have hlow := hfits.1
    rw [Item.Fits, hlast]
    refine iff_of_false ?_ (fun hno => hno.2 hends)
    rintro ⟨-, hlt⟩
    omega
  · rw [Item.Fits, Item.Fits, hstays hends, and_iff_left hends]

/-- And then it sets the same places. -/
theorem sets_capital (hends : ¬ it.EndsInName c.field) (i : Nat) :
    (it.spell c.field .capital).Sets c.field i ↔ (it.spell c.field .lower).Sets c.field i := by
  obtain ⟨hfirst, hstays, -⟩ := moved c h
  rw [Item.Sets, Item.Sets, hstays hends]
  apply sets_congr
  rcases hfirst with hfirst | hfirst
  · rw [hfirst]
  · rw [hfirst, Int.add_emod_right]

end

/-! ## Whole patterns

Two lines are accepted alike if their items fit alike, and then they give the same timetable if
their items set the same. -/

/-- A pattern is accepted exactly if all its items are. -/
theorem accepted_iff {l : Line} (h : l.Plain) (tt : Timetable) :
    (∃ r, parsePattern l.text tt = .ok r) ↔ ∀ c, ∀ it ∈ l.items c, it.Fits (Col.field c) := by
  simp only [parsePattern_ok_iff (text_ne_nil h), passes_iff h, exists_and_left, exists_eq,
    and_true]

/-- Two lines agree if they are accepted alike and their items set the same. -/
theorem agree_of_items {l l' : Line} (h : l.Plain) (h' : l'.Plain)
    (hfits : (∀ c, ∀ it ∈ l.items c, it.Fits (Col.field c)) ↔
      ∀ c, ∀ it ∈ l'.items c, it.Fits (Col.field c))
    (hsets : (∀ c, ∀ it ∈ l.items c, it.Fits (Col.field c)) → ∀ c i,
      ((∃ it ∈ l.items c, it.Sets c.field i) ↔ ∃ it ∈ l'.items c, it.Sets c.field i)) :
    Agree l.text l'.text := by
  intro tt
  constructor
  · rw [accepted_iff h, accepted_iff h', hfits]
  · intro r r' hr hr'
    have hpass := (accepted_iff h tt).mp ⟨r, hr⟩
    obtain ⟨-, rfl⟩ := (parsePattern_ok_iff (text_ne_nil h)).mp hr
    obtain ⟨-, rfl⟩ := (parsePattern_ok_iff (text_ne_nil h')).mp hr'
    have hwith : With (scan Col.all l.text) tt = With (scan Col.all l'.text) tt := by
      funext c i
      rw [With, With, sets_line_iff h, sets_line_iff h', hsets hpass]
    intro c i _
    rw [Bool.eq_iff_iff, get_fixDays_foldl, get_fixDays_foldl, hwith]

theorem Agree.symm {p p' : List Char} (h : Agree p p') : Agree p' p := fun tt =>
  ⟨(h tt).1.symm, fun r r' hr hr' c i hi => ((h tt).2 r' r hr' hr c i hi).symm⟩

theorem Agree.trans {p p' p'' : List Char} (h : Agree p p') (h' : Agree p' p'') :
    Agree p p'' := by
  intro tt
  constructor
  · exact (h tt).1.trans (h' tt).1
  · intro r r'' hr hr'' c i hi
    obtain ⟨r', hr'⟩ := (h tt).1.mp ⟨r, hr⟩
    exact ((h tt).2 r r' hr hr' c i hi).trans ((h' tt).2 r' r'' hr' hr'' c i hi)

section

variable {l : SlotLine} (h : l.Plain)

theorem fits_spell (sp : Spelling) :
    (∀ c, ∀ it ∈ (l.spell sp).items c, it.Fits (Col.field c)) ↔
      ∀ c, ∀ it ∈ l.items c, (it.spell (Col.field c) sp).Fits (Col.field c) := by
  simp only [SlotLine.spell, List.forall_mem_map]

theorem sets_spell (sp : Spelling) (c : Col) (i : Nat) :
    (∃ it ∈ (l.spell sp).items c, it.Sets c.field i) ↔
      ∃ it ∈ l.items c, (it.spell c.field sp).Sets c.field i := by
  simp only [SlotLine.spell, List.mem_map, exists_exists_and_eq_and]

include h

/-- Numbers always agree with the names. -/
theorem agree_number : Agree (l.spell .lower).text (l.spell .number).text := by
  apply agree_of_items (h.spell .lower) (h.spell .number)
  · rw [fits_spell, fits_spell]
    apply forall_congr'
    intro c
    exact forall₂_congr fun it hit => (fits_number c (h.plain c it hit)).symm
  · intro _ c i
    rw [sets_spell, sets_spell]
    apply exists_congr
    intro it
    exact and_congr_right fun hit => (sets_number c (h.plain c it hit) i).symm

/-- Capital letters do so unless an accepted pattern has an item that ends in a name. -/
theorem agree_capital_iff :
    Agree (l.spell .lower).text (l.spell .capital).text ↔
      ((∀ c, ∀ it ∈ (l.spell .lower).items c, it.Fits (Col.field c)) →
        ∀ c, ∀ it ∈ l.items c, ¬ it.EndsInName (Col.field c)) := by
  constructor
  · intro hagree hpass c it hit
    have hlower := (accepted_iff (h.spell .lower) .zero).mpr hpass
    have hcapital := (accepted_iff (h.spell .capital) .zero).mp ((hagree .zero).1.mp hlower)
    -- An item that fits in both spellings does not end in a name.
    rw [fits_spell] at hcapital
    exact ((fits_capital c (h.plain c it hit)).mp (hcapital c it hit)).2
  · intro hends
    apply agree_of_items (h.spell .lower) (h.spell .capital)
    · constructor
      · intro hpass
        have hno := hends hpass
        rw [fits_spell] at hpass ⊢
        intro c it hit
        exact (fits_capital c (h.plain c it hit)).mpr ⟨hpass c it hit, hno c it hit⟩
      · rw [fits_spell, fits_spell]
        intro hpass c it hit
        exact ((fits_capital c (h.plain c it hit)).mp (hpass c it hit)).1
    · intro hpass c i
      rw [sets_spell, sets_spell]
      -- The entries that are set are the same, as only the start has moved by a round.
      apply exists_congr
      intro it
      exact and_congr_right fun hit =>
        (sets_capital c (h.plain c it hit) (hends hpass c it hit) i).symm

end

/-- Every minute of these weekdays. -/
def weekdays (it : SlotItem) : SlotLine where
  items
    | .dow => [it]
    | _ => [⟨[.val .star], none⟩]
  blanks := spaced

theorem plain_weekdays {it : SlotItem} (h : it.Plain (Col.field .dow)) : (weekdays it).Plain := by
  have hstar : ∀ c, SlotItem.Plain (Col.field c) ⟨[.val .star], none⟩ := fun c =>
    ⟨.inl rfl, by simp⟩
  refine ⟨fun c => ?_, fun c it' hit => ?_, isBlank_spaced, fun c => spaced_ne_nil⟩
  · cases c <;> exact List.cons_ne_nil _ _
  · cases c <;> obtain rfl := List.mem_singleton.mp hit <;> first | exact h | exact hstar _

end Cron
end Inac
