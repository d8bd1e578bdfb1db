import Mathlib.Data.List.Nodup
import Inac.Conffile.Defs

/-!
# What processing a configuration leaves

Processing succeeds exactly on the configurations that are `Accepted`: each call goes through, and
each required section is configured by one. What a section holds then is what its calls gave, the
last one first; for a plain section the calls before it fill in what it leaves out.

One kind of call goes through whatever it says. A named section that is called without the name of a
sub-section takes the table for the name, since the check that it is a string never fails, and what
it returns is not called: the table is not looked at. A required key that is missing there is not
missed (`processed_iff_no_unseen_omission`).
-/

namespace Inac
namespace Conffile

open Hashtable (strKey)

variable (stringLib : Name → Bool)

/-! ## What a configuration gives

Without the state: the last call for each key, and for each sub-section. -/

/-- The value a table gives a key, unless it is `nil` or `false`. -/
def supplied (content : Value) (k : Name) : Option Value :=
  (content.index stringLib k).filter Value.truthy

def Section.Declares (sec : Section) (k : Name) : Prop := ∃ key ∈ sec.keys, key.name = k

instance (sec : Section) (k : Name) : Decidable (sec.Declares k) := by
  unfold Section.Declares; infer_instance

/-- The table can be looked into, and has all the required keys. -/
def Complete (sec : Section) (content : Value) : Prop :=
  content.truthy = true ∧ ∀ key ∈ sec.keys,
    ∃ v, content.index stringLib key.name = some v ∧ (key.required = true → v.truthy = true)

/-- The call returns: the name is a section's, a plain section gets a complete table and a named one
    a sub-section's name and a complete table, or else anything but `nil` and `false`. -/
def Goes (D : Decls) (c : Call) : Prop :=
  ∃ sec, D.find c.sectionName = some sec ∧
    match sec.named, c.sub with
    | false, none => Complete stringLib sec c.content
    | false, some _ => False
    | true, some _ => Complete stringLib sec c.content
    | true, none => c.content.truthy = true

/-- A call that goes through configures the section. -/
def Configures (sec : Section) (c : Call) : Prop :=
  c.sectionName = sec.name ∧ (sec.named = true → c.sub ≠ none)

instance (sec : Section) (c : Call) : Decidable (Configures sec c) := by
  unfold Configures; infer_instance

/-- What is accepted. -/
def Accepted (D : Decls) (cfg : List Call) : Prop :=
  (∀ c ∈ cfg, Goes stringLib D c) ∧
    ∀ sec ∈ D.sections, sec.required = true → ∃ c ∈ cfg, Configures sec c

/-- The latest value that a call gave a key of a plain section. -/
def lastGiven (sec : Section) (cfg : List Call) (k : Name) : Option Value :=
  cfg.reverse.findSome? fun c =>
    if c.sectionName = sec.name then supplied stringLib c.content k else none

/-- The table of the last call for a sub-section. -/
def lastTable (sec : Section) (name : Name) (cfg : List Call) : Option Value :=
  cfg.reverse.findSome? fun c =>
    if c.sectionName = sec.name ∧ c.sub = some name then some c.content else none

/-- A table's values of the declared keys. -/
def tableValues (sec : Section) (content : Value) : Values := fun k =>
  if sec.Declares k then supplied stringLib content k else none

/-! ## One call

When it goes through, and what it then does to each section. -/

theorem notTypeEq_false (v : Value) (t : TypeName) : notTypeEq v t = false := rfl

theorem Decls.find_some {D : Decls} {name : Name} {sec : Section}
    (h : D.find name = some sec) : sec ∈ D.sections ∧ sec.name = name :=
  ⟨List.mem_of_find?_eq_some h, by simpa using List.find?_some h⟩

theorem Decls.find_name (D : Decls) {sec : Section} (hmem : sec ∈ D.sections) :
    D.find sec.name = some sec := by
  cases hfind : D.find sec.name with
  | none =>
    have hno := List.find?_eq_none.mp hfind sec hmem
    simp at hno
  | some sec' =>
    obtain ⟨hmem', hname⟩ := Decls.find_some hfind
    rw [List.inj_on_of_nodup_map D.distinct hmem' hmem (congrArg strKey hname)]

theorem fillKeys_fst (content : Value) (keys : List Key) (vals : Values) :
    (fillKeys stringLib content keys vals).1 = true ↔ ∀ key ∈ keys,
      ∃ v, content.index stringLib key.name = some v ∧ (key.required = true → v.truthy = true) := by
  induction keys generalizing vals with
  | nil => simp [fillKeys]
  | cons key keys ih =>
    rw [List.forall_mem_cons]
    cases hindex : content.index stringLib key.name with
    | none => simp [fillKeys, hindex]
    | some v =>
      cases hv : v.truthy with
      | true => simp [fillKeys, hindex, hv, notTypeEq_false, ih]
      | false =>
        cases hreq : key.required with
        | true => simp [fillKeys, hindex, hv, hreq]
        | false => simp [fillKeys, hindex, hv, hreq, ih]

/-- A loop that comes to its end has written what the table gives. -/
theorem fillKeys_snd {content : Value} {keys : List Key} {vals : Values}
    (hok : (fillKeys stringLib content keys vals).1 = true) (k : Name) :
    (fillKeys stringLib content keys vals).2 k =
      (if ∃ key ∈ keys, key.name = k then supplied stringLib content k else none).or (vals k) := by
  induction keys generalizing vals with
  | nil => simp [fillKeys]
  | cons key keys ih =>
    have hall := (fillKeys_fst stringLib content (key :: keys) vals).mp hok
    obtain ⟨v, hindex, hreq⟩ := hall key List.mem_cons_self
    -- A value that counts as true is stored; any other is as if it were not there, and may not be
    -- required.
    cases hv : v.truthy with
    | true =>
      have hstep : fillKeys stringLib content (key :: keys) vals =
          fillKeys stringLib content keys (Function.update vals key.name (some v)) := by
        simp [fillKeys, hindex, hv, notTypeEq_false]
      rw [hstep] at hok ⊢
      rw [ih hok]
      by_cases hk : key.name = k
      · subst hk
        have hgives : supplied stringLib content key.name = some v := by
          simp [supplied, hindex, hv]
        have hhere : ∃ key' ∈ key :: keys, key'.name = key.name := ⟨key, List.mem_cons_self, rfl⟩
        rw [if_pos hhere, hgives, Function.update_self, Option.some_or]
        split <;> rfl
      · rw [Function.update_of_ne (Ne.symm hk)]
        simp [hk]
    | false =>
      have hstep : fillKeys stringLib content (key :: keys) vals =
          fillKeys stringLib content keys vals := by
        have hno : key.required = false := by
          cases hr : key.required with
          | true => rw [hreq hr] at hv; cases hv
          | false => rfl
        simp [fillKeys, hindex, hv, hno]
      rw [hstep] at hok ⊢
      rw [ih hok]
      by_cases hk : key.name = k
      · subst hk
        have hgives : supplied stringLib content key.name = none := by
          simp [supplied, hindex, hv]
        simp [hgives]
      · simp [hk]

/-- What a call that goes through does to a section. -/
def effect (sec : Section) (s : SectionState) (c : Call) : SectionState :=
  if c.sectionName = sec.name then
    match sec.named, c.sub with
    | false, _ =>
      { s with
        value := fun k => (tableValues stringLib sec c.content k).or (s.value k)
        configured := true }
    | true, some name =>
      { s.setChild name (tableValues stringLib sec c.content) with configured := true }
    | true, none => s
  else s

theorem sectionFunc_fst (sec : Section) (content : Value) (s : SectionState) :
    (sectionFunc stringLib sec content s).1 = true ↔ Complete stringLib sec content := by
  rw [sectionFunc, Complete, ← fillKeys_fst stringLib content sec.keys s.value]
  cases content.truthy <;> simp [notTypeEq_false]

theorem namedSectionFunc_fst (sec : Section) (name : Name) (content : Value) (s : SectionState) :
    (namedSectionFunc stringLib sec name content s).1 = true ↔ Complete stringLib sec content := by
  rw [namedSectionFunc, Complete, ← fillKeys_fst stringLib content sec.keys (fun _ => none)]
  cases content.truthy <;> simp [notTypeEq_false]

theorem call_fst (D : Decls) (st : Sections) (c : Call) :
    (call stringLib D st c).1 = true ↔ Goes stringLib D c := by
  rw [call, Goes]
  cases D.find c.sectionName with
  | none => simp
  | some sec =>
    simp only [Option.some.injEq, exists_eq_left']
    cases sec.named <;> cases c.sub <;>
      simp [sectionFunc_fst, namedSectionFunc_fst, notTypeEq_false]

theorem sectionFunc_snd {sec : Section} {content : Value} {s : SectionState}
    (hok : (sectionFunc stringLib sec content s).1 = true) :
    (sectionFunc stringLib sec content s).2 =
      { s with
        value := fun k => (tableValues stringLib sec content k).or (s.value k)
        configured := true } := by
  have hfull := (sectionFunc_fst stringLib sec content s).mp hok
  have hfill := (fillKeys_fst stringLib content sec.keys s.value).mpr hfull.2
  simp only [sectionFunc, hfull.1, notTypeEq_false, hfill, Bool.not_true, Bool.or_true,
    Bool.false_eq_true, if_false]
  congr 1
  funext k
  exact fillKeys_snd stringLib hfill k

theorem namedSectionFunc_snd {sec : Section} {name : Name} {content : Value} {s : SectionState}
    (hok : (namedSectionFunc stringLib sec name content s).1 = true) :
    (namedSectionFunc stringLib sec name content s).2 =
      { s.setChild name (tableValues stringLib sec content) with configured := true } := by
  have hfull := (namedSectionFunc_fst stringLib sec name content s).mp hok
  have hfill := (fillKeys_fst stringLib content sec.keys (fun _ => none)).mpr hfull.2
  have hvals : (fillKeys stringLib content sec.keys (fun _ => none)).2
      = tableValues stringLib sec content := by
    funext k
    rw [fillKeys_snd stringLib hfill, Option.or_none]
    rfl
  simp only [namedSectionFunc, hfull.1, notTypeEq_false, hfill, hvals, Bool.not_true, Bool.or_true,
    Bool.false_eq_true, if_false]

/-- What a call that goes through is to the section it names. -/
theorem Goes.passes {D : Decls} {c : Call} (h : Goes stringLib D c) {sec : Section}
    (hmem : sec ∈ D.sections) (hname : c.sectionName = sec.name) :
    match sec.named, c.sub with
    | false, none => Complete stringLib sec c.content
    | false, some _ => False
    | true, some _ => Complete stringLib sec c.content
    | true, none => c.content.truthy = true := by
  obtain ⟨sec', hfind, hcase⟩ := h
  rw [hname, D.find_name hmem] at hfind
  obtain rfl := Option.some.inj hfind
  exact hcase

/-- **One call.** Where it goes through it has its effect on every section. -/
theorem call_snd {D : Decls} {st : Sections} {c : Call} (hgoes : Goes stringLib D c)
    {sec : Section} (hmem : sec ∈ D.sections) :
    (call stringLib D st c).2 sec.name = effect stringLib sec (st sec.name) c := by
  -- The call is one of this section, or of another one, which is left alone.
  by_cases hsame : c.sectionName = sec.name
  · have hcase := hgoes.passes stringLib hmem hsame
    have hfind := D.find_name hmem
    cases hnamed : sec.named with
    | false =>
      cases hsub : c.sub with
      | none =>
        simp only [hnamed, hsub] at hcase
        simp only [call, effect, hfind, hsame, hnamed, hsub, if_true, Function.update_self]
        exact sectionFunc_snd stringLib ((sectionFunc_fst stringLib _ _ _).mpr hcase)
      | some name => simp [hnamed, hsub] at hcase
    | true =>
      cases hsub : c.sub with
      | none => simp only [call, effect, hfind, hsame, hnamed, hsub, if_true]
      | some name =>
        simp only [hnamed, hsub] at hcase
        simp only [call, effect, hfind, hsame, hnamed, hsub, if_true, Function.update_self]
        exact namedSectionFunc_snd stringLib ((namedSectionFunc_fst stringLib _ _ _ _).mpr hcase)
  · obtain ⟨sec', hfind, -⟩ := hgoes
    have hother : sec.name ≠ sec'.name :=
      fun h => hsame ((Decls.find_some hfind).2.symm.trans h.symm)
    simp only [call, effect, hfind, if_neg hsame]
    cases sec'.named <;> cases c.sub <;> simp [Function.update_of_ne hother]

/-! ## All calls

By induction on the calls, from the first one on. -/

theorem runCalls_fst (D : Decls) (st : Sections) (cfg : List Call) :
    (runCalls stringLib D st cfg).1 = true ↔ ∀ c ∈ cfg, Goes stringLib D c := by
  induction cfg generalizing st with
  | nil => simp [runCalls]
  | cons c cfg ih =>
    have hcall := call_fst stringLib D st c
    rw [List.forall_mem_cons, ← hcall, runCalls]
    cases hr : call stringLib D st c with
    | mk ok st' =>
      cases ok with
      | true => simp [ih]
      | false => simp

/-- **The run.** Calls that go through have their effects one after another. -/
theorem runCalls_snd {D : Decls} {st : Sections} {cfg : List Call}
    (hgoes : ∀ c ∈ cfg, Goes stringLib D c) {sec : Section} (hmem : sec ∈ D.sections) :
    (runCalls stringLib D st cfg).2 sec.name = cfg.foldl (effect stringLib sec) (st sec.name) := by
  induction cfg generalizing st with
  | nil => rfl
  | cons c cfg ih =>
    have hc := hgoes c List.mem_cons_self
    have hok := (call_fst stringLib D st c).mpr hc
    have heffect : (call stringLib D st c).2 sec.name = effect stringLib sec (st sec.name) c :=
      call_snd stringLib hc hmem
    rw [runCalls]
    cases hr : call stringLib D st c with
    | mk ok st' =>
      rw [hr] at hok heffect
      obtain rfl : ok = true := hok
      rw [List.foldl_cons, ← heffect]
      exact ih fun c hc => hgoes c (List.mem_cons_of_mem _ hc)

theorem effect_configured (sec : Section) (s : SectionState) (c : Call) :
    (effect stringLib sec s c).configured = (s.configured || decide (Configures sec c)) := by
  rw [effect]
  by_cases hsame : c.sectionName = sec.name
  · rw [if_pos hsame]
    cases hnamed : sec.named <;> cases hsub : c.sub <;>
      simp [Configures, hsame, hnamed, hsub]
  · rw [if_neg hsame]
    simp [Configures, hsame]

theorem configured_foldl (sec : Section) (cfg : List Call) (s : SectionState) :
    (cfg.foldl (effect stringLib sec) s).configured = true ↔
      s.configured = true ∨ ∃ c ∈ cfg, Configures sec c := by
  induction cfg generalizing s with
  | nil => simp
  | cons c cfg ih =>
    rw [List.foldl_cons, ih, effect_configured, Bool.or_eq_true, decide_eq_true_eq, or_assoc]
    simp

/-- The values of a plain section: what the configuration gives, over what was there. -/
theorem value_foldl {sec : Section} (hplain : sec.named = false) (cfg : List Call)
    (s : SectionState) (k : Name) :
    (cfg.foldl (effect stringLib sec) s).value k =
      (if sec.Declares k then lastGiven stringLib sec cfg k else none).or (s.value k) := by
  induction cfg generalizing s with
  | nil => simp [lastGiven]
  | cons c cfg ih =>
    rw [List.foldl_cons, ih]
    by_cases hk : sec.Declares k
    · rw [if_pos hk, if_pos hk, lastGiven, lastGiven, List.reverse_cons, List.findSome?_append,
        Option.or_assoc]
      congr 1
      rw [effect]
      by_cases hsame : c.sectionName = sec.name
      · simp [hsame, hplain, tableValues, hk]
      · simp [hsame]
    · rw [if_neg hk, if_neg hk, effect]
      by_cases hsame : c.sectionName = sec.name
      · simp [hsame, hplain, tableValues, hk]
      · simp [hsame]

theorem child_setChild (s : SectionState) (name : Name) (vals : Values) (name' : Name) :
    (s.setChild name vals).child name' = if name = name' then some vals else s.child name' := by
  rw [SectionState.child, SectionState.setChild, List.find?_append]
  by_cases hsame : name = name'
  · subst hsame
    have hnone : (s.children.filter fun child => child.1 ≠ name).find?
        (fun child => child.1 = name) = none := by
      rw [List.find?_eq_none]
      intro child hchild
      simpa using (List.mem_filter.mp hchild).2
    rw [hnone, if_pos rfl]
    simp
  · have hfind : (s.children.filter fun child => child.1 ≠ name).find?
        (fun child => child.1 = name') = s.children.find? fun child => child.1 = name' := by
      rw [List.find?_filter]
      congr 1
      funext child
      by_cases hc : child.1 = name'
      · simp [hc, Ne.symm hsame]
      · simp [hc]
    rw [hfind, if_neg hsame, SectionState.child]
    simp [hsame]

theorem effect_child {sec : Section} (hnamed : sec.named = true) (s : SectionState) (c : Call)
    (name : Name) :
    (effect stringLib sec s c).child name =
      if c.sectionName = sec.name ∧ c.sub = some name
        then some (tableValues stringLib sec c.content) else s.child name := by
  rw [effect]
  by_cases hsame : c.sectionName = sec.name
  · cases hsub : c.sub with
    | none => simp [hsame, hnamed]
    | some sub =>
      have hset := child_setChild s sub (tableValues stringLib sec c.content) name
      simp only [hsame, hnamed, if_true, true_and, Option.some.injEq]
      exact hset
  · simp [hsame]

/-- The sub-sections of a named section: the last table of each, over what was there. -/
theorem child_foldl {sec : Section} (hnamed : sec.named = true) (cfg : List Call)
    (s : SectionState) (name : Name) :
    (cfg.foldl (effect stringLib sec) s).child name =
      ((lastTable sec name cfg).map (tableValues stringLib sec)).or (s.child name) := by
  induction cfg generalizing s with
  | nil => simp [lastTable]
  | cons c cfg ih =>
    rw [List.foldl_cons, ih, effect_child stringLib hnamed, lastTable, lastTable,
      List.reverse_cons, List.findSome?_append, Option.map_or, Option.or_assoc]
    congr 1
    by_cases hcase : c.sectionName = sec.name ∧ c.sub = some name
    · simp [hcase]
    · rw [if_neg hcase]
      simp [hcase]

/-! ## Processing

The calls, and then the look for required sections. -/

theorem resetChildren_name {D : Decls} {sec : Section} (hmem : sec ∈ D.sections) (st : Sections) :
    resetChildren D st sec.name =
      if sec.named then { st sec.name with children := [] } else st sec.name := by
  rw [resetChildren, D.find_name hmem]

theorem resetChildren_configured {D : Decls} {sec : Section} (hmem : sec ∈ D.sections)
    (st : Sections) : (resetChildren D st sec.name).configured = (st sec.name).configured := by
  rw [resetChildren_name hmem]
  cases sec.named <;> rfl

/-- Processing succeeds when every call goes through and every required section is configured, by a
    call or from before. -/
theorem processString_fst (D : Decls) (st : Sections) (cfg : List Call) :
    (processString stringLib D st cfg).1 = true ↔
      (∀ c ∈ cfg, Goes stringLib D c) ∧ ∀ sec ∈ D.sections, sec.required = true →
        (st sec.name).configured = true ∨ ∃ c ∈ cfg, Configures sec c := by
  rw [processString, Bool.and_eq_true, runCalls_fst]
  refine and_congr_right fun hgoes => ?_
  rw [allConfigured, List.all_eq_true]
  refine forall₂_congr fun sec hmem => ?_
  have hflag := configured_foldl stringLib sec cfg (resetChildren D st sec.name)
  rw [resetChildren_configured hmem, ← runCalls_snd stringLib hgoes hmem] at hflag
  rw [← hflag]
  cases sec.required <;>
    cases ((runCalls stringLib D (resetChildren D st) cfg).2 sec.name).configured <;> simp

theorem processString_snd {D : Decls} {st : Sections} {cfg : List Call}
    (hgoes : ∀ c ∈ cfg, Goes stringLib D c) {sec : Section} (hmem : sec ∈ D.sections) :
    (processString stringLib D st cfg).2 sec.name =
      cfg.foldl (effect stringLib sec) (resetChildren D st sec.name) :=
  runCalls_snd stringLib hgoes hmem

/-- On a fresh context. -/
theorem processString_new (D : Decls) (cfg : List Call) :
    (processString stringLib D .new cfg).1 = true ↔ Accepted stringLib D cfg := by
  rw [processString_fst, Accepted]
  simp [Sections.new]

/-! ## What is asked of it

That a configuration is processed exactly if nothing required is missing. The one thing that is
missed is a table that nobody looks at. -/

/-- The call leaves out a key its section requires. -/
def Omits (sec : Section) (c : Call) : Prop :=
  ∃ key ∈ sec.keys, key.required = true ∧ supplied stringLib c.content key.name = none

/-- A configured section or sub-section has its required keys. -/
def FullyGiven (D : Decls) (st : Sections) : Prop :=
  ∀ sec ∈ D.sections, ∀ key ∈ sec.keys, key.required = true →
    (sec.named = false → (st sec.name).configured = true →
      (st sec.name).value key.name ≠ none) ∧
    (sec.named = true → ∀ name vals, (st sec.name).child name = some vals → vals key.name ≠ none)

/-- The values stored are those the configuration gives the declared keys. -/
def Stored (D : Decls) (cfg : List Call) (st : Sections) : Prop :=
  ∀ sec ∈ D.sections,
    (sec.named = false → ∀ k, (st sec.name).value k =
      if sec.Declares k then lastGiven stringLib sec cfg k else none) ∧
    (sec.named = true → ∀ name, (st sec.name).child name =
      (lastTable sec name cfg).map (tableValues stringLib sec))

/-- Of a configuration on a fresh context: what success means, and what makes it fail. -/
def ProcessedRight (D : Decls) (cfg : List Call) : Prop :=
  ((processString stringLib D .new cfg).1 = true →
    (∀ sec ∈ D.sections, sec.required = true → ∃ c ∈ cfg, c.sectionName = sec.name) ∧
      FullyGiven D (processString stringLib D .new cfg).2 ∧
      Stored stringLib D cfg (processString stringLib D .new cfg).2) ∧
  ((∃ sec ∈ D.sections,
      (∃ c ∈ cfg, c.sectionName = sec.name ∧ Omits stringLib sec c) ∨
        sec.required = true ∧ ∀ c ∈ cfg, c.sectionName ≠ sec.name) →
    (processString stringLib D .new cfg).1 = false)

/-- A named section is called without the name of a sub-section and without a key it requires. -/
def OmitsUnseen (D : Decls) (cfg : List Call) : Prop :=
  ∃ sec ∈ D.sections, sec.named = true ∧
    ∃ c ∈ cfg, c.sectionName = sec.name ∧ c.sub = none ∧ Omits stringLib sec c

/-- A complete table omits nothing. -/
theorem Complete.supplied {sec : Section} {content : Value} (h : Complete stringLib sec content)
    {key : Key} (hkey : key ∈ sec.keys) (hreq : key.required = true) :
    supplied stringLib content key.name ≠ none := by
  obtain ⟨v, hindex, hv⟩ := h.2 key hkey
  simp [Conffile.supplied, hindex, hv hreq]

/-- A call that goes through with a required key left out is one that is not looked at. -/
theorem Goes.omits {D : Decls} {c : Call} (h : Goes stringLib D c) {sec : Section}
    (hmem : sec ∈ D.sections) (hname : c.sectionName = sec.name)
    (homits : Omits stringLib sec c) : sec.named = true ∧ c.sub = none := by
  have hcase := h.passes stringLib hmem hname
  obtain ⟨key, hkey, hreq, hnone⟩ := homits
  cases hnamed : sec.named <;> cases hsub : c.sub <;> simp only [hnamed, hsub] at hcase
  · exact absurd hnone (hcase.supplied stringLib hkey hreq)
  · exact ⟨rfl, rfl⟩
  · exact absurd hnone (hcase.supplied stringLib hkey hreq)

/-- The tables that are stored were complete. -/
theorem Goes.complete {D : Decls} {c : Call} (h : Goes stringLib D c) {sec : Section}
    (hmem : sec ∈ D.sections) (hconf : Configures sec c) : Complete stringLib sec c.content := by
  have hcase := h.passes stringLib hmem hconf.1
  cases hnamed : sec.named <;> cases hsub : c.sub <;> simp only [hnamed, hsub] at hcase
  · exact hcase
  · exact absurd hsub (hconf.2 hnamed)
  · exact hcase

theorem lastTable_some {sec : Section} {name : Name} {cfg : List Call} {content : Value}
    (h : lastTable sec name cfg = some content) :
    ∃ c ∈ cfg, c.sectionName = sec.name ∧ c.sub = some name ∧ c.content = content := by
  obtain ⟨c, hc, hcase⟩ := List.exists_of_findSome?_eq_some h
  by_cases hthis : c.sectionName = sec.name ∧ c.sub = some name
  · rw [if_pos hthis] at hcase
    exact ⟨c, List.mem_reverse.mp hc, hthis.1, hthis.2, Option.some.inj hcase⟩
  · rw [if_neg hthis] at hcase
    cases hcase

theorem lastGiven_none {sec : Section} {cfg : List Call} {k : Name} :
    lastGiven stringLib sec cfg k = none ↔
      ∀ c ∈ cfg, c.sectionName = sec.name → supplied stringLib c.content k = none := by
  simp [lastGiven, List.findSome?_eq_none_iff]

theorem processString_stored {D : Decls} {cfg : List Call}
    (hgoes : ∀ c ∈ cfg, Goes stringLib D c) :
    Stored stringLib D cfg (processString stringLib D .new cfg).2 := by
  intro sec hmem
  rw [processString_snd stringLib hgoes hmem, resetChildren_name hmem]
  constructor
  · intro hplain k
    rw [value_foldl stringLib hplain]
    simp [hplain, Sections.new]
  · intro hnamed name
    rw [child_foldl stringLib hnamed]
    simp [hnamed, SectionState.child]

theorem processString_fullyGiven {D : Decls} {cfg : List Call}
    (hgoes : ∀ c ∈ cfg, Goes stringLib D c) :
    FullyGiven D (processString stringLib D .new cfg).2 := by
  intro sec hmem key hkey hreq
  obtain ⟨hvalue, hchild⟩ := processString_stored stringLib hgoes sec hmem
  constructor
  · intro hplain hflag
    rw [processString_snd stringLib hgoes hmem, configured_foldl,
      resetChildren_configured hmem] at hflag
    obtain hflag | ⟨c, hc, hconf⟩ := hflag
    · cases hflag
    · have hgiven := ((hgoes c hc).complete stringLib hmem hconf).supplied stringLib hkey hreq
      rw [hvalue hplain, if_pos ⟨key, hkey, rfl⟩]
      intro hnone
      exact hgiven (lastGiven_none stringLib |>.mp hnone c hc hconf.1)
  · intro hnamed name vals hvals
    rw [hchild hnamed, Option.map_eq_some_iff] at hvals
    obtain ⟨content, hlast, rfl⟩ := hvals
    obtain ⟨c, hc, hname, hsub, rfl⟩ := lastTable_some hlast
    have hconf : Configures sec c := ⟨hname, fun _ => by simp [hsub]⟩
    rw [tableValues, if_pos ⟨key, hkey, rfl⟩]
    exact ((hgoes c hc).complete stringLib hmem hconf).supplied stringLib hkey hreq

/-- **Processing is right** except on a configuration that is accepted although a named section is
    called without a sub-section's name and without a key it requires. -/
theorem processed_iff_no_unseen_omission (D : Decls) (cfg : List Call) :
    ProcessedRight stringLib D cfg ↔
      ¬ (Accepted stringLib D cfg ∧ OmitsUnseen stringLib D cfg) := by
  constructor
  · rintro ⟨-, hfails⟩ ⟨hacc, sec, hmem, -, c, hc, hname, -, homits⟩
    have hfalse := hfails ⟨sec, hmem, Or.inl ⟨c, hc, hname, homits⟩⟩
    rw [(processString_new stringLib D cfg).mpr hacc] at hfalse
    cases hfalse
  · intro hno
    constructor
    · intro hok
      have hacc := (processString_new stringLib D cfg).mp hok
      refine ⟨?_, processString_fullyGiven stringLib hacc.1, processString_stored stringLib hacc.1⟩
      intro sec hmem hreq
      obtain ⟨c, hc, hconf⟩ := hacc.2 sec hmem hreq
      exact ⟨c, hc, hconf.1⟩
    · rintro ⟨sec, hmem, hcase⟩
      rw [← Bool.not_eq_true, processString_new]
      intro hacc
      obtain ⟨c, hc, hname, homits⟩ | ⟨hreq, hnever⟩ := hcase
      · obtain ⟨hnamed, hsub⟩ := (hacc.1 c hc).omits stringLib hmem hname homits
        exact hno ⟨hacc, sec, hmem, hnamed, c, hc, hname, hsub, homits⟩
      · obtain ⟨c, hc, hconf⟩ := hacc.2 sec hmem hreq
        exact hnever c hc hconf.1

/-- A named section `d` that requires the key `k`. -/
def requiring : Section :=
  { name := [100], required := false, named := true, keys := [⟨[107], true, .number⟩]
    distinct := by decide }

/-- `d {}` is accepted. -/
theorem empty_table_accepted : ¬ ProcessedRight (fun _ => false) ⟨[requiring], by decide⟩
    [⟨[100], none, .table fun _ => .nil⟩] := by
  rintro ⟨-, hfails⟩
  have hfalse := hfails ⟨requiring, List.mem_cons_self, Or.inl ⟨_, List.mem_cons_self, rfl,
    ⟨[107], true, .number⟩, List.mem_cons_self, rfl, rfl⟩⟩
  cases hfalse

end Conffile
end Inac
