import Inac.Cron.Fill
import Inac.Cron.Text

/-!
# How the parser reads a pattern

The parser's loop does two things at once: it takes the text apart and it fills the arrays. Here
they are separated. `readLoop` takes the text apart into items and says how it ends, and
`parseLoop_eq` says that the parser fills in these items one after the other. So a pattern succeeds
if its text can be read and every item is accepted, and what it sets is what its items set.
-/

namespace Inac
namespace Cron

open Lib

/-! ## Items

An item is kept as it was read, with the values in their order. What the parser has in `n1` and `n2`
after them is a function of it. -/

/-- The values of an item, which `'-'` separates, and what `strtol` takes after a `'/'`. -/
structure Item where
  vals : List Val
  step : Option (List Char)
  deriving DecidableEq, Repr

/-- `n1` and `n2` after these values. -/
def bounds (f : Field) (vals : List Val) : Int × Int := vals.foldl (put f) (-1, -1)

/-- Where the item starts. -/
def Item.first (f : Field) (it : Item) : Int := (bounds f it.vals).1

/-- Where it ends, after "collapse single-value ranges". -/
def Item.last (f : Field) (it : Item) : Int :=
  if (bounds f it.vals).2 < 0 then (bounds f it.vals).1 else (bounds f it.vals).2

def Item.skip (it : Item) : Int :=
  match it.step with
  | none => 1
  | some s => toInt (strtol s).1

def fillItem (f : Field) (ary : Nat → Bool) (it : Item) : Except Stop (Nat → Bool) :=
  fill f (it.first f) (it.last f) it.skip ary

/-! ## Reading a field

The reader stops at the first thing that is not an item, and keeps the text from there on, since it
decides how the field ends. -/

/-- How the text of a field ends, with the text from there on. -/
inductive Tail where
  | closed (t : List Char)  -- after an item
  | hanging (seen : List Val) (t : List Char)  -- where a value should be
  | bad  -- it cannot be read
  deriving DecidableEq, Repr

structure Reading where
  items : List Item
  tail : Tail
  deriving DecidableEq, Repr

/-- The step and the text after it. -/
def takeStep (t : List Char) : Option (List Char) × List Char :=
  match t with
  | [] => (none, [])
  | c :: u => if c = '/' then (some (taken u), (strtol u).2) else (none, c :: u)

/-- The loop of the parser without the arrays. -/
def readLoop (f : Field) : Nat → List Val → List Char → Reading
  | 0, _, _ => ⟨[], .bad⟩
  | fuel + 1, seen, t =>
    if atEnd t then ⟨[], .hanging seen t⟩
    else
      match readVal f t with
      | none => ⟨[], .bad⟩
      | some (v, t) =>
        if t.head? = some '-' ∧ (bounds f (seen ++ [v])).2 < 0 then
          readLoop f fuel (seen ++ [v]) t.tail
        else
          let (step, t) := takeStep t
          let it : Item := ⟨seen ++ [v], step⟩
          if t.head? = some ',' then
            let r := readLoop f fuel [] t.tail
            ⟨it :: r.items, r.tail⟩
          else if atEnd t then ⟨[it], .closed t⟩
          else ⟨[it], .bad⟩

def readField (f : Field) (t : List Char) : Reading := readLoop f (t.length + 1) [] t

/-- Where the next field starts. -/
def Tail.rest : Tail → Option (List Char)
  | .closed t => some (t.dropWhile isBlank)
  | .hanging _ t => some (t.dropWhile isBlank)
  | .bad => none

/-- The items filled in one after the other, and what is left of the text. -/
def Reading.run (f : Field) (ary : Nat → Bool) (r : Reading) :
    Except Stop ((Nat → Bool) × List Char) := do
  let ary ← r.items.foldlM (fillItem f) ary
  match r.tail.rest with
  | some t => .ok (ary, t)
  | none => .error .null

theorem takeStep_eq (t : List Char) :
    readStep t = (Item.skip ⟨[], (takeStep t).1⟩, (takeStep t).2) := by
  cases t with
  | nil => rfl
  | cons c u =>
    by_cases hc : c = '/'
    · simp [readStep, takeStep, Item.skip, hc, strtol_taken]
    · simp [readStep, takeStep, Item.skip, hc]

/-- **The loop fills in what it reads.** -/
theorem parseLoop_eq (f : Field) (fuel : Nat) (seen : List Val) (ary : Nat → Bool)
    (t : List Char) :
    parseLoop f fuel (bounds f seen) ary t = (readLoop f fuel seen t).run f ary := by
  induction fuel generalizing seen ary t with
  | zero => rfl
  | succ fuel ih =>
    rw [parseLoop, readLoop]
    by_cases hend : atEnd t = true
    · rw [if_pos hend, if_pos hend, finishField, if_pos hend]
      rfl
    · rw [if_neg hend, if_neg hend]
      cases hval : readVal f t with
      | none => rfl
      | some vt =>
        obtain ⟨v, t⟩ := vt
        -- The parser's two numbers are those of the values so far.
        have hput : put f (bounds f seen) v = bounds f (seen ++ [v]) := by
          simp [bounds, List.foldl_append]
        dsimp only
        rw [hput]
        by_cases hdash : t.head? = some '-' ∧ (bounds f (seen ++ [v])).2 < 0
        · rw [if_pos hdash, if_pos hdash]
          exact ih (seen ++ [v]) ary t.tail
        · rw [if_neg hdash, if_neg hdash, takeStep_eq]
          dsimp only
          generalize takeStep t = st
          -- The item ends here, and is filled in.
          have hfill : fill f (bounds f (seen ++ [v])).1
              (if (bounds f (seen ++ [v])).2 < 0 then (bounds f (seen ++ [v])).1
                else (bounds f (seen ++ [v])).2) (Item.skip ⟨[], st.1⟩) ary
              = fillItem f ary ⟨seen ++ [v], st.1⟩ := rfl
          rw [hfill]
          by_cases hcomma : st.2.head? = some ','
          · simp only [if_pos hcomma]
            have hrun : ∀ r : Reading, Reading.run f ary ⟨⟨seen ++ [v], st.1⟩ :: r.items, r.tail⟩
                = (fillItem f ary ⟨seen ++ [v], st.1⟩ >>= fun ary => r.run f ary) := by
              intro r
              simp [Reading.run]
            rw [hrun]
            congr 1
            funext ary
            exact ih [] ary st.2.tail
          · simp only [if_neg hcomma]
            by_cases hend' : atEnd st.2 = true
            · simp [finishField, hend', Reading.run, Tail.rest]
            · simp [finishField, hend', Reading.run, Tail.rest]

theorem parseField_eq (f : Field) (ary : Nat → Bool) (t : List Char) :
    parseField f ary t = (readField f t).run f ary :=
  parseLoop_eq f (t.length + 1) [] ary t

/-! ## Reading a pattern

All fields are read before anything is filled in. That makes no difference, as reading does not look
at the arrays. -/

/-- The fields of a pattern as far as they can be read, and what is left after the last one. -/
structure Scan where
  fields : List (Col × Reading)
  rest : Option (List Char)
  deriving DecidableEq, Repr

def scan : List Col → List Char → Scan
  | [], t => ⟨[], some t⟩
  | c :: cols, t =>
    let r := readField c.field t
    match r.tail.rest with
    | none => ⟨[(c, r)], none⟩
    | some t =>
      let s := scan cols t
      ⟨(c, r) :: s.fields, s.rest⟩

def Scan.items (s : Scan) : List (Col × Item) :=
  s.fields.flatMap fun p => p.2.items.map fun it => (p.1, it)

def fillCol (tt : Timetable) (p : Col × Item) : Except Stop Timetable := do
  let ary ← fillItem p.1.field (tt.get p.1) p.2
  .ok (tt.set p.1 ary)

@[simp] theorem Timetable.get_set_self (tt : Timetable) (c : Col) (ary : Nat → Bool) :
    (tt.set c ary).get c = ary := by
  cases c <;> rfl

theorem Timetable.get_set_of_ne (tt : Timetable) {c c' : Col} (h : c' ≠ c) (ary : Nat → Bool) :
    (tt.set c ary).get c' = tt.get c' := by
  cases c <;> cases c' <;> first | rfl | exact absurd rfl h

@[simp] theorem Timetable.set_get (tt : Timetable) (c : Col) : tt.set c (tt.get c) = tt := by
  cases c <;> rfl

@[simp] theorem Timetable.set_set (tt : Timetable) (c : Col) (ary ary' : Nat → Bool) :
    (tt.set c ary).set c ary' = tt.set c ary' := by
  cases c <;> rfl

theorem fillCols_map (c : Col) (items : List Item) (tt : Timetable) :
    (items.map fun it => (c, it)).foldlM fillCol tt =
      (items.foldlM (fillItem c.field) (tt.get c) >>= fun ary => .ok (tt.set c ary)) := by
  induction items generalizing tt with
  | nil => simp [pure, Except.pure, bind, Except.bind]
  | cons it items ih =>
    rw [List.map_cons, List.foldlM_cons, List.foldlM_cons, fillCol]
    cases hfill : fillItem c.field (tt.get c) it with
    | error e => rfl
    | ok ary =>
      have hrest := ih (tt.set c ary)
      simp only [Timetable.get_set_self, Timetable.set_set] at hrest
      exact hrest

/-- **The parser fills in the items of all fields**, and fails where the text cannot be read. -/
theorem parseCols_eq (cols : List Col) (tt : Timetable) (t : List Char) :
    parseCols cols tt t =
      ((scan cols t).items.foldlM fillCol tt >>= fun tt =>
        match (scan cols t).rest with
        | some t => .ok (tt, t)
        | none => .error .null) := by
  induction cols generalizing tt t with
  | nil => rfl
  | cons c cols ih =>
    rw [parseCols, parseField_eq, Reading.run, scan]
    generalize readField c.field t = r
    cases hrest : r.tail.rest with
    | none =>
      simp only [Scan.items, List.flatMap_cons, List.flatMap_nil, List.append_nil, fillCols_map]
      cases r.items.foldlM (fillItem c.field) (tt.get c) <;> rfl
    | some t =>
      simp only [Scan.items, List.flatMap_cons, List.foldlM_append, fillCols_map]
      cases r.items.foldlM (fillItem c.field) (tt.get c) with
      | error e => rfl
      | ok ary => exact ih (tt.set c ary) t

/-! ## Items that are accepted

An item is refused for its last value alone. A first value below zero is no index either, but such
an item always ends outside as well. -/

/-- The item ends inside the array. -/
def Item.Fits (f : Field) (it : Item) : Prop := 0 ≤ it.last f ∧ it.last f < f.modvalue

/-- The item starts below zero, outside the array. -/
def Item.Faulty (f : Field) (it : Item) : Prop := BadStart f.modvalue (it.first f)

instance (f : Field) (it : Item) : Decidable (it.Fits f) := inferInstanceAs (Decidable (_ ∧ _))

instance (f : Field) (it : Item) : Decidable (it.Faulty f) :=
  inferInstanceAs (Decidable (BadStart _ _))

/-- The entries that the item sets. -/
def Item.Sets (f : Field) (it : Item) (i : Nat) : Prop :=
  Cron.Sets f.modvalue (it.first f) (it.last f) it.skip i

instance (f : Field) (it : Item) : DecidablePred (it.Sets f) :=
  inferInstanceAs (DecidablePred (Cron.Sets _ _ _ _))

theorem Col.modvalue_pos (c : Col) : 0 < c.field.modvalue := by
  cases c <;> decide

theorem Col.modvalue_le (c : Col) : c.field.modvalue ≤ 60 := by
  cases c <;> decide

/-- While no start has been read there is no end either. -/
theorem foldl_put_neg {f : Field} {vals : List Val} {n : Int × Int} (hn : n.1 < 0 → n.2 < 0) :
    (vals.foldl (put f) n).1 < 0 → (vals.foldl (put f) n).2 < 0 := by
  induction vals generalizing n with
  | nil => exact hn
  | cons v vals ih =>
    rw [List.foldl_cons]
    apply ih
    have hval : ∀ x : Int, (if n.1 < 0 then (x, n.2) else (n.1, x)).1 < 0 →
        (if n.1 < 0 then (x, n.2) else (n.1, x)).2 < 0 := by
      intro x
      by_cases hneg : n.1 < 0
      · rw [if_pos hneg]
        exact fun _ => hn hneg
      · rw [if_neg hneg]
        exact fun h => absurd h hneg
    cases v with
    | star => exact fun h => absurd h (lt_irrefl 0)
    | num ds => exact hval _
    | name i => exact hval _

/-- An item that ends inside the array does not start below zero. -/
theorem Item.Fits.first_nonneg {f : Field} {it : Item} (h : it.Fits f) : 0 ≤ it.first f := by
  by_contra hneg
  have hfirst : (bounds f it.vals).1 < 0 := lt_of_not_ge hneg
  have hlast : it.last f = (bounds f it.vals).1 :=
    if_pos (foldl_put_neg (fun _ => by decide) hfirst)
  have h0 := h.1
  omega

/-- An item that fits is filled in. One that does not fit is refused, or faults if it starts below
    zero. -/
theorem fillItem_eq (c : Col) (ary : Nat → Bool) (it : Item) :
    fillItem c.field ary it =
      if it.Fits c.field then .ok (addTo ary (it.Sets c.field))
      else .error (if it.Faulty c.field then .fault else .null) := by
  have hsafe := c.modvalue_le
  have hfill : fillItem c.field ary it =
      if it.Faulty c.field then .error .fault
      else if it.Fits c.field then .ok (addTo ary (it.Sets c.field)) else .error .null :=
    fill_eq c.field c.modvalue_pos (by omega) _ _ _ ary
  rw [hfill]
  by_cases hfits : it.Fits c.field
  · have hstart : ¬ it.Faulty c.field := by
      intro hfaulty
      exact absurd hfaulty.1 (by have := hfits.first_nonneg; omega)
    rw [if_neg hstart, if_pos hfits, if_pos hfits]
  · rw [if_neg hfits, if_neg hfits]
    by_cases hfaulty : it.Faulty c.field
    · rw [if_pos hfaulty, if_pos hfaulty]
    · rw [if_neg hfaulty, if_neg hfaulty]

/-- The timetable with what the item sets. -/
def addCol (tt : Timetable) (p : Col × Item) : Timetable :=
  tt.set p.1 (addTo (tt.get p.1) (p.2.Sets p.1.field))

/-- The first item that does not fit. -/
def misfit (items : List (Col × Item)) : Option (Col × Item) :=
  items.find? fun p => ¬ p.2.Fits p.1.field

theorem fillCols_eq (items : List (Col × Item)) (tt : Timetable) :
    items.foldlM fillCol tt =
      match misfit items with
      | none => .ok (items.foldl addCol tt)
      | some p => .error (if p.2.Faulty p.1.field then .fault else .null) := by
  induction items generalizing tt with
  | nil => rfl
  | cons p items ih =>
    rw [List.foldlM_cons, fillCol, fillItem_eq]
    by_cases hfits : p.2.Fits p.1.field
    · have hmis : misfit (p :: items) = misfit items := by
        simp [misfit, hfits]
      rw [if_pos hfits, hmis]
      exact ih (addCol tt p)
    · have hmis : misfit (p :: items) = some p := by
        simp [misfit, hfits]
      rw [if_neg hfits, hmis]
      rfl

theorem misfit_eq_none {items : List (Col × Item)} :
    misfit items = none ↔ ∀ p ∈ items, p.2.Fits p.1.field := by
  simp [misfit]

/-- What the items set together, each in the array of its field. -/
theorem get_foldl_addCol (items : List (Col × Item)) (tt : Timetable) (c : Col) (i : Nat) :
    (items.foldl addCol tt).get c i = true ↔
      tt.get c i = true ∨ ∃ it, (c, it) ∈ items ∧ it.Sets c.field i := by
  induction items generalizing tt with
  | nil => simp
  | cons p items ih =>
    obtain ⟨c', it⟩ := p
    have hhead : (addCol tt (c', it)).get c i = true ↔
        tt.get c i = true ∨ c = c' ∧ it.Sets c.field i := by
      by_cases hc : c = c'
      · subst hc
        simp [addCol, addTo]
      · simp [addCol, Timetable.get_set_of_ne tt hc, hc]
    rw [List.foldl_cons, ih, hhead]
    simp only [List.mem_cons, Prod.mk.injEq]
    constructor
    · rintro ((htt | ⟨rfl, hset⟩) | ⟨it', hmem, hset⟩)
      · exact .inl htt
      · exact .inr ⟨it, .inl ⟨rfl, rfl⟩, hset⟩
      · exact .inr ⟨it', .inr hmem, hset⟩
    · rintro (htt | ⟨it', ⟨rfl, rfl⟩ | hmem, hset⟩)
      · exact .inl (.inl htt)
      · exact .inl (.inr ⟨rfl, hset⟩)
      · exact .inr ⟨it', hmem, hset⟩

/-! ## `ina_cron_parse_pattern`

The three ways in which it ends. -/

/-- The pattern can be read to the end of its last field and every item fits. -/
def Scan.Passes (s : Scan) : Prop :=
  s.rest.isSome = true ∧ ∀ p ∈ s.items, p.2.Fits p.1.field

/-- The first item that does not fit starts outside the array. -/
def Scan.Faults (s : Scan) : Prop := ∃ p, misfit s.items = some p ∧ p.2.Faulty p.1.field

instance (s : Scan) : Decidable s.Passes := inferInstanceAs (Decidable (_ ∧ _))

instance (s : Scan) : Decidable s.Faults :=
  decidable_of_iff (∃ p ∈ (misfit s.items).toList, p.2.Faulty p.1.field) (by simp [Scan.Faults])

/-- **How the parse of a pattern ends.** -/
theorem parsePattern_eq {pattern : List Char} (hne : pattern ≠ []) (tt : Timetable) :
    parsePattern pattern tt =
      let s := scan Col.all pattern
      match misfit s.items, s.rest with
      | some p, _ => .error (if p.2.Faulty p.1.field then .fault else .rc .invalidPattern)
      | none, none => .error (.rc .invalidPattern)
      | none, some _ => .ok (fixDays (s.items.foldl addCol tt)) := by
  rw [parsePattern, if_neg hne, parseCols_eq, fillCols_eq]
  dsimp only
  cases misfit (scan Col.all pattern).items with
  | some p =>
    by_cases hfaulty : p.2.Faulty p.1.field
    · simp [hfaulty, bind, Except.bind]
    · simp [hfaulty, bind, Except.bind]
  | none =>
    cases (scan Col.all pattern).rest with
    | none => rfl
    | some t => rfl

theorem parsePattern_ok_iff {pattern : List Char} (hne : pattern ≠ []) {tt tt' : Timetable} :
    parsePattern pattern tt = .ok tt' ↔
      (scan Col.all pattern).Passes ∧
        tt' = fixDays ((scan Col.all pattern).items.foldl addCol tt) := by
  rw [parsePattern_eq hne, Scan.Passes, ← misfit_eq_none]
  dsimp only
  cases misfit (scan Col.all pattern).items with
  | some p => simp
  | none =>
    cases (scan Col.all pattern).rest with
    | none => simp
    | some t => simp [eq_comm]

theorem parsePattern_fault_iff {pattern : List Char} (hne : pattern ≠ []) {tt : Timetable} :
    parsePattern pattern tt = .error .fault ↔ (scan Col.all pattern).Faults := by
  rw [parsePattern_eq hne, Scan.Faults]
  dsimp only
  cases misfit (scan Col.all pattern).items with
  | some p =>
    by_cases hfaulty : p.2.Faulty p.1.field <;> simp [hfaulty]
  | none =>
    cases (scan Col.all pattern).rest with
    | none => simp
    | some t => simp

/-- An error code is returned exactly if the pattern does not pass and does not fault. -/
theorem parsePattern_rc_iff {pattern : List Char} (hne : pattern ≠ []) {tt : Timetable} :
    (∃ e, parsePattern pattern tt = .error (.rc e)) ↔
      ¬ (scan Col.all pattern).Passes ∧ ¬ (scan Col.all pattern).Faults := by
  constructor
  · rintro ⟨e, he⟩
    refine ⟨fun hpass => ?_, fun hfault => ?_⟩
    · rw [(parsePattern_ok_iff hne).mpr ⟨hpass, rfl⟩] at he
      cases he
    · rw [(parsePattern_fault_iff hne).mpr hfault] at he
      cases he
  · rintro ⟨hpass, hfault⟩
    cases hp : parsePattern pattern tt with
    | ok tt' => exact absurd ((parsePattern_ok_iff hne).mp hp).1 hpass
    | error e =>
      cases e with
      | rc e => exact ⟨e, rfl⟩
      | fault => exact absurd ((parsePattern_fault_iff hne).mp hp) hfault

end Cron
end Inac
