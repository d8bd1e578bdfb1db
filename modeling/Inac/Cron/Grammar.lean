import Inac.Cron.Reading

/-!
# The texts of patterns

A pattern has five fields with blanks between them, a field has items with commas between them, and
an item is `'*'`, a value or two values with a `'-'`, with an optional step. This file has these
texts and two facts about the reader: it reads such a text as the items it was made of
(`readField_text`), and what it reads to the end of an item is the text of the items
(`readField_closed`).
-/

namespace Inac
namespace Cron

/-! ## Texts

The texts are made from items, so that a grammar need not be written down a second time. -/

def Val.text (f : Field) : Val → List Char
  | .star => ['*']
  | .num ds => ds
  | .name i => f.names.getD i []

/-- A value that can be written: digits, or a name of the field. -/
def Val.Ok (f : Field) : Val → Prop
  | .star => True
  | .num ds => ds ≠ [] ∧ ∀ c ∈ ds, c.isDigit = true
  | .name i => i < f.names.length

def Digits (s : List Char) : Prop := s ≠ [] ∧ ∀ c ∈ s, c.isDigit = true

instance (s : List Char) : Decidable (Digits s) :=
  decidable_of_iff (s ≠ [] ∧ s.all Char.isDigit = true) (by rw [List.all_eq_true]; rfl)

instance (f : Field) : DecidablePred (Val.Ok f)
  | .star => inferInstanceAs (Decidable True)
  | .num ds => inferInstanceAs (Decidable (Digits ds))
  | .name _ => inferInstanceAs (Decidable (_ < _))

def valsText (f : Field) : List Val → List Char
  | [] => []
  | [v] => v.text f
  | v :: vs => v.text f ++ '-' :: valsText f vs

def stepText : Option (List Char) → List Char
  | none => []
  | some s => '/' :: s

def Item.text (f : Field) (it : Item) : List Char := valsText f it.vals ++ stepText it.step

def fieldText (f : Field) : List Item → List Char
  | [] => []
  | it :: its => it.text f ++ its.flatMap fun it => ',' :: it.text f

/-! ## Reading a value

The three kinds of values are told apart by their first letter. -/

theorem readVal_some {f : Field} {t u : List Char} {v : Val} (h : readVal f t = some (v, u)) :
    t = v.text f ++ u ∧ v.Ok f := by
  cases t with
  | nil => cases h
  | cons c t =>
    rw [readVal] at h
    by_cases hstar : c = '*'
    · rw [if_pos hstar] at h
      cases h
      exact ⟨by rw [hstar]; rfl, trivial⟩
    · rw [if_neg hstar] at h
      -- A number is what there is of digits; a name is one from the list.
      by_cases hdigit : c.isDigit = true
      · rw [if_pos hdigit] at h
        cases h
        refine ⟨List.takeWhile_append_dropWhile.symm, ?_, ?_⟩
        · simp [hdigit]
        · exact List.all_eq_true.mp List.all_takeWhile
      · rw [if_neg hdigit] at h
        cases hname : f.names.findIdx? fun name => name.isPrefixOf (c :: t) with
        | none => rw [hname] at h; cases h
        | some i =>
          rw [hname] at h
          cases h
          obtain ⟨hi, hpre, -⟩ := List.findIdx?_eq_some_iff_getElem.mp hname
          have hget : f.names.getD i [] = f.names[i] := by simp [hi]
          obtain ⟨u, hu⟩ := List.isPrefixOf_iff_prefix.mp hpre
          refine ⟨?_, hi⟩
          rw [Val.text, hget, ← hu, List.drop_left]

/-- What the reader needs of the names: they are told apart by their first three letters. -/
structure NamesOk (names : List (List Char)) : Prop where
  length : ∀ n ∈ names, n.length = 3
  nodup : names.Nodup
  letter : ∀ n ∈ names, ∀ c ∈ n.head?, c ≠ '*' ∧ c.isDigit = false ∧ isBlank c = false

theorem Col.namesOk (c : Col) : NamesOk c.field.names := by
  have hlength : c.field.names.all (fun n => n.length = 3) = true := by
    cases c <;> decide +kernel
  have hletter : c.field.names.all (fun n =>
      n.head?.all fun c => c ≠ '*' && !c.isDigit && !isBlank c) = true := by
    cases c <;> decide +kernel
  refine ⟨fun n hn => ?_, ?_, fun n hn d hd => ?_⟩
  · simpa using List.all_eq_true.mp hlength n hn
  · cases c <;> decide +kernel
  · have hfirst := List.all_eq_true.mp hletter n hn
    rw [Option.mem_def.mp hd] at hfirst
    simpa [and_assoc] using hfirst

theorem NamesOk.findIdx? {names : List (List Char)} (h : NamesOk names) {i : Nat}
    (hi : i < names.length) (u : List Char) :
    (names.findIdx? fun name => name.isPrefixOf (names[i] ++ u)) = some i := by
  rw [List.findIdx?_eq_some_iff_getElem]
  refine ⟨hi, List.isPrefixOf_iff_prefix.mpr (List.prefix_append _ u), fun j hj hpre => ?_⟩
  have hlen : (names[j]).length = (names[i]).length :=
    (h.length _ (List.getElem_mem _)).trans (h.length _ (List.getElem_mem _)).symm
  have heq : names[j] = names[i] :=
    (List.prefix_of_prefix_length_le (List.isPrefixOf_iff_prefix.mp hpre)
      (List.prefix_append _ u) (Nat.le_of_eq hlen)).eq_of_length hlen
  exact List.pairwise_iff_getElem.mp h.nodup j i (by omega) hi hj heq

/-- A value at the start of a text, and how the text begins. -/
theorem readVal_text (c : Col) {v : Val} {u : List Char} (hv : v.Ok c.field)
    (hu : Stops Char.isDigit u) :
    readVal c.field (v.text c.field ++ u) = some (v, u) ∧
      atEnd (v.text c.field ++ u) = false := by
  cases v with
  | star => exact ⟨rfl, rfl⟩
  | num ds =>
    obtain ⟨hne, hds⟩ := hv
    obtain ⟨htake, hdrop⟩ := span_append hds hu
    cases ds with
    | nil => exact absurd rfl hne
    | cons d ds =>
      have hd := hds d List.mem_cons_self
      refine ⟨?_, ?_⟩
      · have hstar : d ≠ '*' := ne_of_isDigit hd (by decide)
        rw [Val.text, List.cons_append, readVal, if_neg hstar, if_pos hd, ← List.cons_append,
          htake, hdrop]
      · rw [Val.text, List.cons_append, atEnd, Bool.eq_false_iff]
        intro hblank
        rw [not_isDigit_of_isBlank hblank] at hd
        cases hd
  | name i =>
    have hi : i < c.field.names.length := hv
    have hget : c.field.names.getD i [] = c.field.names[i] := by simp [hi]
    -- No other name of the field begins like this one, so it is the one that is found.
    have hidx := c.namesOk.findIdx? hi u
    have hletter := c.namesOk.letter _ (List.getElem_mem hi)
    have hlen := c.namesOk.length _ (List.getElem_mem hi)
    rw [Val.text, hget]
    cases hname : c.field.names[i] with
    | nil => rw [hname] at hlen; cases hlen
    | cons d ds =>
      rw [hname] at hidx hletter
      obtain ⟨hstar, hdigit, hblank⟩ := hletter d rfl
      refine ⟨?_, hblank⟩
      rw [List.cons_append, readVal, if_neg hstar,
        if_neg (by rw [hdigit]; exact Bool.false_ne_true)]
      rw [List.cons_append] at hidx
      simp only [hidx, hget, hname]
      rw [← List.cons_append, List.drop_left]

/-! ## Reading an item

A value is followed by `'-'` and another one, or by a step, or by neither. `Follows` is what may
stand behind it all. -/

/-- A number or a name. -/
def Val.Simple (f : Field) (v : Val) : Prop := v ≠ .star ∧ v.Ok f

/-- `'*'`, a value or a range, each with an optional step. -/
structure Item.Plain (f : Field) (it : Item) : Prop where
  vals : it.vals = [.star] ∨ (∃ v, it.vals = [v] ∧ v.Simple f) ∨
    ∃ v w, it.vals = [v, w] ∧ v.Simple f ∧ w.Simple f
  step : ∀ s ∈ it.step, Digits s

instance (f : Field) (v : Val) : Decidable (v.Simple f) := inferInstanceAs (Decidable (_ ∧ _))

instance decidablePlainVals (f : Field) : ∀ vals : List Val,
    Decidable (vals = [.star] ∨ (∃ v, vals = [v] ∧ v.Simple f) ∨
      ∃ v w, vals = [v, w] ∧ v.Simple f ∧ w.Simple f)
  | [] => isFalse (by simp)
  | [v] => decidable_of_iff (v = .star ∨ v.Simple f) (by simp)
  | [v, w] => decidable_of_iff (v.Simple f ∧ w.Simple f) (by simp)
  | _ :: _ :: _ :: _ => isFalse (by simp)

instance (f : Field) (it : Item) : Decidable (it.Plain f) :=
  decidable_of_iff (_ ∧ ∀ s ∈ it.step, Digits s) ⟨fun h => ⟨h.1, h.2⟩, fun h => ⟨h.vals, h.step⟩⟩

/-- A comma or the end of the field follows. -/
def Follows (u : List Char) : Prop := u.head? = some ',' ∨ atEnd u = true

theorem Follows.stops {u : List Char} (h : Follows u) : Stops Char.isDigit u := by
  cases u with
  | nil => exact stops_nil _
  | cons c u =>
    apply stops_cons
    rcases h with hcomma | hend
    · obtain rfl : c = ',' := by simpa using hcomma
      rfl
    · exact not_isDigit_of_isBlank hend

theorem Follows.head_ne {u : List Char} (h : Follows u) {d : Char} (hd : d ≠ ',')
    (hblank : isBlank d = false) : u.head? ≠ some d := by
  cases u with
  | nil => simp
  | cons c u =>
    rintro ⟨⟩
    rcases h with hcomma | hend
    · exact hd (by simpa using hcomma)
    · rw [atEnd, hblank] at hend
      cases hend

/-- What comes after the values of an item. -/
def andThen (f : Field) (fuel : Nat) (it : Item) (u : List Char) : Reading :=
  if u.head? = some ',' then
    ⟨it :: (readLoop f fuel [] u.tail).items, (readLoop f fuel [] u.tail).tail⟩
  else if atEnd u then ⟨[it], .closed u⟩
  else ⟨[it], .bad⟩

theorem readLoop_val {f : Field} {t u : List Char} {v : Val} (h : readVal f t = some (v, u))
    (hend : atEnd t = false) (fuel : Nat) (seen : List Val) :
    readLoop f (fuel + 1) seen t =
      if u.head? = some '-' ∧ (bounds f (seen ++ [v])).2 < 0 then
        readLoop f fuel (seen ++ [v]) u.tail
      else andThen f fuel ⟨seen ++ [v], (takeStep u).1⟩ (takeStep u).2 := by
  rw [readLoop, if_neg (by rw [hend]; exact Bool.false_ne_true), h]
  rfl

theorem takeStep_text {st : Option (List Char)} {u : List Char} (hst : ∀ s ∈ st, Digits s)
    (hu : Follows u) : takeStep (stepText st ++ u) = (st, u) := by
  cases st with
  | none =>
    cases u with
    | nil => rfl
    | cons c u =>
      have hslash : c ≠ '/' := by
        rintro rfl
        exact hu.head_ne (by decide) (by decide) rfl
      simp [stepText, takeStep, hslash]
  | some s =>
    obtain ⟨hne, hds⟩ := hst s rfl
    have hstrtol := strtol_digits hds hne hu.stops
    have htaken : taken (s ++ u) = s := by
      have happ := taken_append (s ++ u)
      rw [hstrtol] at happ
      exact List.append_cancel_right happ
    simp [stepText, takeStep, hstrtol, htaken]

theorem stepText_append {st : Option (List Char)} {u : List Char} (hu : Follows u) :
    Stops Char.isDigit (stepText st ++ u) ∧ (stepText st ++ u).head? ≠ some '-' := by
  cases st with
  | none => exact ⟨hu.stops, hu.head_ne (by decide) (by decide)⟩
  | some s => exact ⟨stops_cons (by decide), by simp [stepText]⟩

theorem bounds_singleton {f : Field} {v : Val} (h : v ≠ .star) :
    bounds f [v] = (v.int f, -1) := by
  cases v with
  | star => exact absurd rfl h
  | num ds => rfl
  | name i => rfl

theorem text_length_pos (c : Col) {v : Val} (hv : v.Ok c.field) :
    0 < (v.text c.field).length := by
  cases v with
  | star => exact Nat.one_pos
  | num ds => exact List.length_pos_of_ne_nil hv.1
  | name i =>
    have hi : i < c.field.names.length := hv
    have hlen := c.namesOk.length _ (List.getElem_mem hi)
    simp [Val.text, hi, hlen]

/-- A value and a step behind it are the end of an item. -/
theorem readLoop_one (c : Col) {v : Val} (hv : v.Ok c.field) {st : Option (List Char)}
    (hst : ∀ s ∈ st, Digits s) {u : List Char} (hu : Follows u) (fuel : Nat) (seen : List Val) :
    readLoop c.field (fuel + 1) seen (v.text c.field ++ (stepText st ++ u)) =
      andThen c.field fuel ⟨seen ++ [v], st⟩ u := by
  obtain ⟨hstop, hdash⟩ : Stops Char.isDigit (stepText st ++ u) ∧
    (stepText st ++ u).head? ≠ some '-' := stepText_append hu
  obtain ⟨hread, hend⟩ := readVal_text c hv hstop
  rw [readLoop_val hread hend, if_neg (fun h => hdash h.1), takeStep_text hst hu]

/-- A plain item is read as it is. -/
theorem readLoop_item (c : Col) {it : Item} {u : List Char} (hit : it.Plain c.field)
    (hu : Follows u) {fuel : Nat} (hfuel : (it.text c.field ++ u).length < fuel) :
    ∃ fuel', u.length < fuel' ∧
      readLoop c.field fuel [] (it.text c.field ++ u) = andThen c.field fuel' it u := by
  obtain ⟨vals, st⟩ := it
  -- `'*'` and a single value are one round of the loop.
  have hsingle : ∀ v : Val, v.Ok c.field → vals = [v] →
      ∃ fuel', u.length < fuel' ∧ readLoop c.field fuel [] (Item.text c.field ⟨vals, st⟩ ++ u) =
        andThen c.field fuel' ⟨vals, st⟩ u := by
    rintro v hv rfl
    have hpos := text_length_pos c hv
    rw [Item.text, valsText, List.append_assoc] at hfuel ⊢
    rw [List.length_append, List.length_append] at hfuel
    obtain ⟨k, rfl⟩ : ∃ k, fuel = k + 1 := ⟨fuel - 1, by omega⟩
    exact ⟨k, by omega, readLoop_one c hv hit.step hu k []⟩
  rcases hit.vals with hstar | ⟨v, hval, hv⟩ | ⟨v, w, hvals, hv, hw⟩
  · exact hsingle .star trivial hstar
  · exact hsingle v hv.2 hval
  · obtain rfl : vals = [v, w] := hvals
    have hposv := text_length_pos c hv.2
    have hposw := text_length_pos c hw.2
    have htext : Item.text c.field ⟨[v, w], st⟩ ++ u =
        v.text c.field ++ '-' :: (w.text c.field ++ (stepText st ++ u)) := by
      simp [Item.text, valsText]
    rw [htext] at hfuel ⊢
    simp only [List.length_append, List.length_cons] at hfuel
    obtain ⟨k, rfl⟩ : ∃ k, fuel = k + 1 + 1 := ⟨fuel - 2, by omega⟩
    have hminus : Stops Char.isDigit ('-' :: (w.text c.field ++ (stepText st ++ u))) :=
      stops_cons (by decide)
    obtain ⟨hread, hend⟩ := readVal_text c hv.2 hminus
    -- After the first value of a range no end has been read yet, so the dash is taken.
    have hopen : (bounds c.field ([] ++ [v])).2 < 0 := by
      rw [List.nil_append, bounds_singleton hv.1]
      change (-1 : Int) < 0
      omega
    refine ⟨k, by omega, ?_⟩
    rw [readLoop_val hread hend, if_pos ⟨rfl, hopen⟩]
    exact readLoop_one c hw.2 hit.step hu k [v]

/-! ## Reading a field

By induction on the items: behind each stands a comma, and behind the last one the end. -/

theorem fieldText_cons (f : Field) (it : Item) (its : List Item) (u : List Char) :
    fieldText f (it :: its) ++ u =
      it.text f ++ ((its.flatMap fun it => ',' :: it.text f) ++ u) := by
  rw [fieldText, List.append_assoc]

/-- **A field is read as the items it was made of.** -/
theorem readLoop_text (c : Col) {items : List Item} (hne : items ≠ [])
    (hits : ∀ it ∈ items, it.Plain c.field) {e : List Char} (he : atEnd e = true) {fuel : Nat}
    (hfuel : (fieldText c.field items ++ e).length < fuel) :
    readLoop c.field fuel [] (fieldText c.field items ++ e) = ⟨items, .closed e⟩ := by
  induction items generalizing fuel with
  | nil => exact absurd rfl hne
  | cons it its ih =>
    obtain ⟨hit, hrest⟩ := List.forall_mem_cons.mp hits
    rw [fieldText_cons] at hfuel ⊢
    cases its with
    | nil =>
      obtain ⟨fuel', -, hread⟩ := readLoop_item c hit (.inr he) hfuel
      -- The last item: the end of the field is no comma.
      have hcomma : e.head? ≠ some ',' := by
        intro hcomma
        cases e with
        | nil => cases hcomma
        | cons d e =>
          cases hcomma
          cases he
      rw [List.flatMap_nil, List.nil_append, hread, andThen, if_neg hcomma, if_pos he]
    | cons it' its =>
      -- A comma and the items that are left.
      have hnext : (List.flatMap (fun it => ',' :: it.text c.field) (it' :: its)) ++ e =
          ',' :: (fieldText c.field (it' :: its) ++ e) := by
        simp [fieldText]
      rw [hnext] at hfuel ⊢
      obtain ⟨fuel', hlen, hread⟩ := readLoop_item c hit (.inl rfl) hfuel
      rw [List.length_cons] at hlen
      have hlen' : (fieldText c.field (it' :: its) ++ e).length < fuel' := by omega
      have hrec := ih (List.cons_ne_nil _ _) hrest hlen'
      have hcomma : (',' :: (fieldText c.field (it' :: its) ++ e)).head? = some ',' := rfl
      rw [hread, andThen, if_pos hcomma, List.tail_cons, hrec]

theorem readField_text (c : Col) {items : List Item} (hne : items ≠ [])
    (hits : ∀ it ∈ items, it.Plain c.field) {e : List Char} (he : atEnd e = true) :
    readField c.field (fieldText c.field items ++ e) = ⟨items, .closed e⟩ :=
  readLoop_text c hne hits he (Nat.lt_succ_self _)

/-! ## What is read is the text

The other direction. A reading that gets to the end of the field has taken every letter on its way.
-/

theorem takeStep_append (t : List Char) : stepText (takeStep t).1 ++ (takeStep t).2 = t := by
  cases t with
  | nil => rfl
  | cons c u =>
    by_cases hc : c = '/'
    · simp [takeStep, hc, stepText, taken_append]
    · simp [takeStep, hc, stepText]

theorem valsText_cons (f : Field) (v : Val) {vs : List Val} (h : vs ≠ []) :
    valsText f (v :: vs) = v.text f ++ '-' :: valsText f vs := by
  cases vs with
  | nil => exact absurd rfl h
  | cons w vs => rfl

/-- An item of a reading: it has values, and they can be written. -/
def Item.Read (f : Field) (it : Item) : Prop := it.vals ≠ [] ∧ ∀ v ∈ it.vals, v.Ok f

/-- **What a closed reading starts with**: a value, and behind it a dash and the rest of the item,
    or a step and then a comma and the other items or the end. -/
theorem readLoop_closed_cases {f : Field} {fuel : Nat} {seen : List Val} {t e : List Char}
    {items : List Item} (h : readLoop f (fuel + 1) seen t = ⟨items, .closed e⟩) :
    ∃ v u, v.Ok f ∧ t = v.text f ++ u ∧
      ((u.head? = some '-' ∧ readLoop f fuel (seen ++ [v]) u.tail = ⟨items, .closed e⟩) ∨
        ∃ st u' its, u = stepText st ++ u' ∧ items = ⟨seen ++ [v], st⟩ :: its ∧
          ((u'.head? = some ',' ∧ readLoop f fuel [] u'.tail = ⟨its, .closed e⟩) ∨
            (u' = e ∧ its = [] ∧ atEnd e = true))) := by
  by_cases hend : atEnd t = true
  · rw [readLoop, if_pos hend] at h
    cases h
  cases hval : readVal f t with
  | none =>
    rw [readLoop, if_neg hend, hval] at h
    cases h
  | some vu =>
    obtain ⟨v, u⟩ := vu
    obtain ⟨rfl, hv⟩ := readVal_some hval
    refine ⟨v, u, hv, rfl, ?_⟩
    rw [readLoop_val hval (by simpa using hend)] at h
    -- A dash sends the loop round again with the value kept; else the item is complete.
    by_cases hdash : u.head? = some '-' ∧ (bounds f (seen ++ [v])).2 < 0
    · rw [if_pos hdash] at h
      exact .inl ⟨hdash.1, h⟩
    · rw [if_neg hdash, andThen] at h
      refine .inr ⟨(takeStep u).1, (takeStep u).2, ?_⟩
      by_cases hcomma : (takeStep u).2.head? = some ','
      · rw [if_pos hcomma] at h
        obtain ⟨hitems, htail⟩ := Reading.mk.inj h
        refine ⟨_, (takeStep_append u).symm, hitems.symm, .inl ⟨hcomma, ?_⟩⟩
        rw [← htail]
      · rw [if_neg hcomma] at h
        by_cases hlast : atEnd (takeStep u).2 = true
        · rw [if_pos hlast] at h
          cases h
          exact ⟨[], (takeStep_append u).symm, rfl, .inr ⟨rfl, rfl, hlast⟩⟩
        · rw [if_neg hlast] at h
          cases h

theorem readLoop_closed {f : Field} {fuel : Nat} {seen : List Val} {t e : List Char}
    {items : List Item} (h : readLoop f fuel seen t = ⟨items, .closed e⟩) :
    atEnd e = true ∧ ∃ vs st its, items = ⟨seen ++ vs, st⟩ :: its ∧ vs ≠ [] ∧
      (∀ v ∈ vs, v.Ok f) ∧ (∀ it ∈ its, it.Read f) ∧
      t = valsText f vs ++ (stepText st ++ ((its.flatMap fun it => ',' :: it.text f) ++ e)) := by
  induction fuel generalizing seen t items with
  | zero => cases h
  | succ fuel ih =>
    obtain ⟨v, u, hv, rfl, ⟨hdash, hrest⟩ | ⟨st, u', its, rfl, rfl, hnext⟩⟩ :=
      readLoop_closed_cases h
    · -- the dash of a range
      obtain ⟨hend, vs, st, its, hitems, hne, hvs, hits, htext⟩ := ih hrest
      have hu : u = '-' :: u.tail := (List.cons_head?_tail hdash).symm
      refine ⟨hend, v :: vs, st, its, ?_, List.cons_ne_nil _ _,
        List.forall_mem_cons.mpr ⟨hv, hvs⟩, hits, ?_⟩
      · rw [hitems, List.append_assoc]
        rfl
      · rw [valsText_cons f v hne, List.append_assoc, List.cons_append, ← htext, ← hu]
    · have hvs : ∀ w ∈ [v], w.Ok f := List.forall_mem_singleton.mpr hv
      rcases hnext with ⟨hcomma, hrest⟩ | ⟨rfl, rfl, hend⟩
      · obtain ⟨hend, vs, st', its', rfl, hne, hvs', hits, htext⟩ := ih hrest
        have hu : u' = ',' :: u'.tail := (List.cons_head?_tail hcomma).symm
        refine ⟨hend, [v], st, _, rfl, List.cons_ne_nil _ _, hvs,
          List.forall_mem_cons.mpr ⟨⟨hne, hvs'⟩, hits⟩, ?_⟩
        rw [List.flatMap_cons, List.cons_append, List.cons_append, Item.text, List.nil_append,
          List.append_assoc, List.append_assoc, ← htext, ← hu, valsText]
      · refine ⟨hend, [v], st, [], rfl, List.cons_ne_nil _ _, hvs, by simp, ?_⟩
        rw [valsText, List.flatMap_nil, List.nil_append]

/-- **What is read to the end of an item is the text of the items.** -/
theorem readField_closed {f : Field} {t e : List Char} {items : List Item}
    (h : readField f t = ⟨items, .closed e⟩) :
    atEnd e = true ∧ items ≠ [] ∧ (∀ it ∈ items, it.Read f) ∧ t = fieldText f items ++ e := by
  obtain ⟨hend, vs, st, its, rfl, hne, hvs, hits, htext⟩ := readLoop_closed h
  refine ⟨hend, List.cons_ne_nil _ _, List.forall_mem_cons.mpr ⟨⟨hne, hvs⟩, hits⟩, ?_⟩
  rw [fieldText_cons, Item.text, List.append_assoc]
  exact htext

/-! ## Patterns

`WellFormed` is the grammar, and `Scan.Tidy` is what a reading of such a text is like. That they are
the same is what lets a result about accepted texts speak of the grammar. -/

/-- A plain item whose step, if it has one, is at least 1. -/
def Item.WellFormed (f : Field) (it : Item) : Prop := it.Plain f ∧ ∀ s ∈ it.step, 1 ≤ decimal s

instance (f : Field) (it : Item) : Decidable (it.WellFormed f) :=
  inferInstanceAs (Decidable (_ ∧ _))

/-- One non-empty field of well-formed items for each column, with blanks between the fields and
    nothing but blanks after the last one. -/
def WellFormed : List Col → List Char → Prop
  | [], t => t = []
  | c :: cols, t =>
    ∃ items blanks rest, items ≠ [] ∧ (∀ it ∈ items, it.WellFormed c.field) ∧
      (∀ b ∈ blanks, isBlank b = true) ∧ (cols ≠ [] → blanks ≠ []) ∧
      t = fieldText c.field items ++ (blanks ++ rest) ∧ WellFormed cols rest

/-- The text begins with a value. -/
theorem fieldText_not_atEnd (c : Col) {items : List Item} (hne : items ≠ [])
    (hits : ∀ it ∈ items, it.Plain c.field) (u : List Char) :
    atEnd (fieldText c.field items ++ u) = false := by
  cases items with
  | nil => exact absurd rfl hne
  | cons it its =>
    have hit := hits it List.mem_cons_self
    have hpos : ∀ v : Val, v.Ok c.field → ∀ w, atEnd (v.text c.field ++ w) = false := by
      intro v hv w
      have hstart := (readVal_text c hv (stops_nil _)).2
      have hlen := text_length_pos c hv
      cases htext : v.text c.field with
      | nil => rw [htext] at hlen; cases hlen
      | cons d ds => rw [htext] at hstart; exact hstart
    rw [fieldText_cons, Item.text]
    rcases hit.vals with hval | ⟨v, hval, hv⟩ | ⟨v, w, hval, hv, -⟩
    · rw [hval]
      exact hpos .star trivial _
    · rw [hval, valsText, List.append_assoc]
      exact hpos v hv.2 _
    · rw [hval, valsText_cons _ _ (List.cons_ne_nil _ _), List.append_assoc, List.append_assoc]
      exact hpos v hv.2 _

theorem WellFormed.not_atEnd {c : Col} {cols : List Col} {t : List Char}
    (h : WellFormed (c :: cols) t) : atEnd t = false := by
  obtain ⟨items, blanks, rest, hne, hits, -, -, rfl, -⟩ := h
  exact fieldText_not_atEnd c hne (fun it hit => (hits it hit).1) _

theorem stops_blank_of_not_atEnd {t : List Char} (h : atEnd t = false) : Stops isBlank t := by
  cases t with
  | nil => exact stops_nil _
  | cons c t => exact stops_cons h

/-- The text that a field ends with: blanks, or nothing. -/
theorem atEnd_append {blanks rest : List Char} (hb : ∀ b ∈ blanks, isBlank b = true)
    (hrest : blanks ≠ [] ∨ rest = []) : atEnd (blanks ++ rest) = true := by
  cases blanks with
  | nil => rw [hrest.resolve_left (fun h => h rfl)]; rfl
  | cons b blanks => exact hb b List.mem_cons_self

/-- The fields of the pattern are all there and complete, their items are well-formed, and nothing
    is left. -/
def Scan.Tidy (s : Scan) : Prop :=
  s.rest = some [] ∧ ∀ p ∈ s.fields, (∃ e, p.2.tail = .closed e) ∧
    ∀ it ∈ p.2.items, it.WellFormed p.1.field

theorem scan_closed {c : Col} {cols : List Col} {t e : List Char} {items : List Item}
    (h : readField c.field t = ⟨items, .closed e⟩) :
    scan (c :: cols) t = ⟨(c, ⟨items, .closed e⟩) :: (scan cols (e.dropWhile isBlank)).fields,
      (scan cols (e.dropWhile isBlank)).rest⟩ := by
  rw [scan, h]
  rfl

/-- **The reader recognises the grammar.** -/
theorem wellFormed_iff_tidy (cols : List Col) (t : List Char) :
    WellFormed cols t ↔ (scan cols t).Tidy := by
  induction cols generalizing t with
  | nil => simp [WellFormed, scan, Scan.Tidy]
  | cons c cols ih =>
    constructor
    · rintro ⟨items, blanks, rest, hne, hits, hb, hgap, rfl, hrest⟩
      have hstop : Stops isBlank rest ∧ (blanks ≠ [] ∨ rest = []) := by
        cases cols with
        | nil => rw [show rest = [] from hrest]; exact ⟨stops_nil _, .inr rfl⟩
        | cons c' cols =>
          exact ⟨stops_blank_of_not_atEnd hrest.not_atEnd, .inl (hgap (List.cons_ne_nil _ _))⟩
      have hread := readField_text c hne (fun it hit => (hits it hit).1)
        (atEnd_append hb hstop.2)
      rw [scan_closed hread, (span_append hb hstop.1).2]
      obtain ⟨hnil, hfields⟩ := (ih rest).mp hrest
      exact ⟨hnil, List.forall_mem_cons.mpr ⟨⟨⟨_, rfl⟩, hits⟩, hfields⟩⟩
    · intro htidy
      cases htail : (readField c.field t).tail with
      | bad =>
        rw [scan, htail] at htidy
        exact absurd htidy.1 (by simp [Tail.rest])
      | hanging seen e =>
        rw [scan, htail] at htidy
        obtain ⟨⟨e', he'⟩, -⟩ := htidy.2 _ List.mem_cons_self
        rw [htail] at he'
        cases he'
      | closed e =>
        have hread : readField c.field t = ⟨(readField c.field t).items, .closed e⟩ := by
          rw [← htail]
        rw [scan_closed hread] at htidy
        obtain ⟨hend, hne, -, htext⟩ := readField_closed hread
        obtain ⟨hhead, hfields⟩ := List.forall_mem_cons.mp htidy.2
        have hrest := (ih (e.dropWhile isBlank)).mpr ⟨htidy.1, hfields⟩
        refine ⟨_, e.takeWhile isBlank, e.dropWhile isBlank, hne, hhead.2,
          List.all_eq_true.mp List.all_takeWhile, fun hcols hnil => ?_, ?_, hrest⟩
        · -- without blanks the text is over, and there is no next field
          cases cols with
          | nil => exact hcols rfl
          | cons c' cols =>
            have hover := hrest.not_atEnd
            cases e with
            | nil => cases hover
            | cons d e => simp [show isBlank d = true from hend] at hnil
        · rw [List.takeWhile_append_dropWhile]
          exact htext

end Cron
end Inac
