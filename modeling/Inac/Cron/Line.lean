import Inac.Cron.Denote
import Inac.Cron.Rule

/-!
# Whole patterns

A `Line` has the items of each of the five fields and the blanks after them. The parser reads the
text of a line as these items, so whether it accepts the text and what it sets is decided by them.
-/

namespace Inac
namespace Cron

structure Line where
  items : Col → List Item
  blanks : Col → List Char

def lineText (l : Line) : List Col → List Char
  | [] => []
  | c :: cols => fieldText c.field (l.items c) ++ (l.blanks c ++ lineText l cols)

def Line.text (l : Line) : List Char := lineText l Col.all

/-- Five fields of plain items with blanks between them. -/
structure Line.Plain (l : Line) : Prop where
  ne_nil : ∀ c, l.items c ≠ []
  plain : ∀ c, ∀ it ∈ l.items c, it.Plain (Col.field c)
  blank : ∀ c, ∀ b ∈ l.blanks c, isBlank b = true
  gap : ∀ c, c ≠ .dow → l.blanks c ≠ []

/-- One space between the fields. -/
def spaced : Col → List Char
  | .dow => []
  | _ => [' ']

theorem isBlank_spaced (c : Col) : ∀ b ∈ spaced c, isBlank b = true := by
  cases c <;> simp [spaced, isBlank]

theorem spaced_ne_nil {c : Col} (h : c ≠ .dow) : spaced c ≠ [] := by
  cases c with
  | dow => exact absurd rfl h
  | mins => exact List.cons_ne_nil _ _
  | hours => exact List.cons_ne_nil _ _
  | days => exact List.cons_ne_nil _ _
  | mons => exact List.cons_ne_nil _ _

theorem Col.forall_iff {P : Col → Prop} : (∀ c, P c) ↔ ∀ c ∈ Col.all, P c := by
  constructor
  · exact fun h c _ => h c
  · intro h c
    apply h c
    cases c <;> decide

instance (l : Line) : Decidable l.Plain :=
  decidable_of_iff (∀ c ∈ Col.all, l.items c ≠ [] ∧ (∀ it ∈ l.items c, it.Plain (Col.field c)) ∧
      (l.blanks c).all isBlank = true ∧ (c ≠ .dow → l.blanks c ≠ [])) (by
    simp only [List.all_eq_true]
    rw [← Col.forall_iff]
    constructor
    · intro h
      exact ⟨fun c => (h c).1, fun c => (h c).2.1, fun c => (h c).2.2.1, fun c => (h c).2.2.2⟩
    · intro h c
      exact ⟨h.ne_nil c, h.plain c, h.blank c, h.gap c⟩)

/-- All items of the line, with their columns. -/
def Line.all (l : Line) (cols : List Col) : List (Col × Item) :=
  cols.flatMap fun c => (l.items c).map fun it => (c, it)

/-- The text of some columns does not begin with a blank. -/
theorem Line.Plain.stops {l : Line} (h : l.Plain) (cols : List Col) :
    Stops isBlank (lineText l cols) := by
  cases cols with
  | nil => exact stops_nil _
  | cons c cols =>
    exact stops_blank_of_not_atEnd (fieldText_not_atEnd c (h.ne_nil c) (h.plain c) _)

/-- **The parser reads the items of the line.** -/
theorem scan_line {l : Line} (h : l.Plain) (cols : List Col)
    (hgap : ∀ c ∈ cols.dropLast, l.blanks c ≠ []) :
    (scan cols (lineText l cols)).rest = some [] ∧
      (scan cols (lineText l cols)).items = l.all cols := by
  induction cols with
  | nil => exact ⟨rfl, rfl⟩
  | cons c cols ih =>
    -- The field ends at its blanks, or at the end of the text if it is the last one.
    have hend : l.blanks c ≠ [] ∨ lineText l cols = [] := by
      cases cols with
      | nil => exact .inr rfl
      | cons c' cols => exact .inl (hgap c (by simp))
    -- The text of the field is read as its items.
    have hread := readField_text c (h.ne_nil c) (h.plain c)
      (atEnd_append (h.blank c) hend)
    have hgap' : ∀ c' ∈ cols.dropLast, l.blanks c' ≠ [] := by
      intro c' hc'
      cases cols with
      | nil => exact absurd hc' List.not_mem_nil
      | cons d cols =>
        apply hgap c'
        rw [List.dropLast_cons_cons]
        exact List.mem_cons_of_mem c hc'
    obtain ⟨hrest, hitems⟩ := ih hgap'
    rw [lineText, scan_closed hread, (span_append (h.blank c) (h.stops cols)).2]
    refine ⟨hrest, ?_⟩
    rw [Scan.items, List.flatMap_cons, Line.all, List.flatMap_cons]
    congr 1

section

variable {l : Line} (h : l.Plain)

include h

/-- The items of the whole text, and that nothing is left of it. -/
theorem scan_text : (scan Col.all l.text).rest = some [] ∧
    (scan Col.all l.text).items = l.all Col.all := by
  apply scan_line h Col.all
  intro c hc
  apply h.gap c
  rintro rfl
  exact absurd hc (by decide)

theorem mem_items {c : Col} {it : Item} :
    (c, it) ∈ (scan Col.all l.text).items ↔ it ∈ l.items c := by
  rw [(scan_text h).2, Line.all]
  simp only [List.mem_flatMap, List.mem_map, Prod.mk.injEq]
  constructor
  · rintro ⟨c', -, it', hit', rfl, rfl⟩
    exact hit'
  · intro hit
    refine ⟨c, ?_, it, hit, rfl, rfl⟩
    cases c <;> decide

theorem text_ne_nil : l.text ≠ [] := by
  have hend := fieldText_not_atEnd .mins (h.ne_nil .mins) (h.plain .mins)
    (l.blanks .mins ++ lineText l [.hours, .days, .mons, .dow])
  intro hnil
  rw [Line.text, Col.all, lineText] at hnil
  rw [hnil] at hend
  cases hend

/-- The line passes exactly if its items fit. -/
theorem passes_iff :
    (scan Col.all l.text).Passes ↔ ∀ c, ∀ it ∈ l.items c, it.Fits (Col.field c) := by
  rw [Scan.Passes, (scan_text h).1]
  constructor
  · rintro ⟨-, hfits⟩ c it hit
    exact hfits (c, it) ((mem_items h).mpr hit)
  · intro hfits
    exact ⟨rfl, fun p hp => hfits p.1 p.2 ((mem_items h).mp hp)⟩

/-- **What the parse of a line gives**, into a timetable that has been zeroed. -/
theorem parse_line_iff {r : Timetable} :
    parsePattern l.text .zero = .ok r ↔
      (∀ c, ∀ it ∈ l.items c, it.Fits (Col.field c)) ∧
        r = fixDays ((scan Col.all l.text).items.foldl addCol .zero) := by
  rw [parsePattern_ok_iff (text_ne_nil h), passes_iff h]

theorem sets_line_iff (c : Col) (i : Nat) :
    (scan Col.all l.text).Sets c i ↔ ∃ it ∈ l.items c, it.Sets c.field i := by
  simp only [Scan.Sets, mem_items h]

end

end Cron
end Inac
