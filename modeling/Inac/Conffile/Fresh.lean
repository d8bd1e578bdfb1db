import Inac.Conffile.Context
import Inac.Lib.Run

/-!
# Configurations one after another

A context is meant to be as good as a new one for the next configuration. Three things stay behind
in it. The flag that a section is configured is never taken back, so that a required section is not
missed in any later configuration. The values of a plain section stay under the keys that a later
one leaves out. And the sub-sections that were copied stay where they are read; only their tables in
the Lua state are thrown away.

A configuration that goes through comes out as on a new context unless it meets one of these
(`Stale`), and a run of configurations does exactly when none of it does
(`as_fresh_iff_never_stale`).
-/

namespace Inac
namespace Conffile

open Hashtable (strKey)
open Lib

variable (H : Host)

/-! ## What is left behind

The three conditions, each on the context and the configuration before it is processed. -/

/-- The configuration configures the section. -/
def Called (sec : Section) (cfg : List Call) : Prop := ∃ c ∈ cfg, Configures sec c

instance (sec : Section) (cfg : List Call) : Decidable (Called sec cfg) := by
  unfold Called; infer_instance

/-- No required section is missed, but one only because it was configured before. -/
def PassesByFlag (D : Decls) (ctx : Context) (cfg : List Call) : Prop :=
  (∀ sec ∈ D.sections, sec.required = true →
    (ctx.sections sec.name).configured = true ∨ Called sec cfg) ∧
  ∃ sec ∈ D.sections, sec.required = true ∧ ¬ Called sec cfg

/-- A plain section that is configured, now or before, still has the value of a key that the
    configuration does not give. -/
def KeepsValue (sec : Section) (ctx : Context) (cfg : List Call) : Prop :=
  sec.named = false ∧ ((ctx.sections sec.name).configured = true ∨ Called sec cfg) ∧
    ∃ key ∈ sec.keys, lastGiven H.stringLib sec cfg key.name = none ∧
      (ctx.sections sec.name).value key.name ≠ none

/-- A value can be read from a sub-section that the configuration does not call. -/
def KeepsChild (D : Decls) (sec : Section) (ctx : Context) (cfg : List Call) : Prop :=
  sec.named = true ∧ ∃ sub key : Name, readable D ctx sec.name (some sub) key ≠ none ∧
    ∀ c ∈ cfg, c.sectionName = sec.name → ∀ sub', c.sub = some sub' → strKey sub' ≠ strKey sub

/-- The calls of the configuration go through, and what came before shows: as a success that would
    be a failure, or in what can be read behind it. -/
def Stale (D : Decls) (ctx : Context) (cfg : List Call) : Prop :=
  (∀ c ∈ cfg, Goes H.stringLib D c) ∧
    (PassesByFlag D ctx cfg ∨
      (∀ sec ∈ D.sections, sec.required = true → Called sec cfg) ∧
        ∃ sec ∈ D.sections, KeepsValue H sec ctx cfg ∨ KeepsChild D sec ctx cfg)

/-- The outcome is that on a new context. -/
def AsFresh (D : Decls) (ctx : Context) (cfg : List Call) : Prop :=
  (step H D ctx cfg).1 = (step H D .new cfg).1

/-! ## Flags stay

A section that was configured once counts as configured from then on. -/

theorem sectionFunc_configured (stringLib : Name → Bool) (sec : Section) (content : Value)
    {s : SectionState} (h : s.configured = true) :
    (sectionFunc stringLib sec content s).2.configured = true := by
  rw [sectionFunc]
  cases content.truthy <;> simp [notTypeEq_false, h]

theorem namedSectionFunc_configured (stringLib : Name → Bool) (sec : Section) (name : Name)
    (content : Value) {s : SectionState} (h : s.configured = true) :
    (namedSectionFunc stringLib sec name content s).2.configured = true := by
  rw [namedSectionFunc]
  cases content.truthy <;> simp [notTypeEq_false, h]

theorem call_configured (stringLib : Name → Bool) (D : Decls) (c : Call) {st : Sections}
    {name : Name} (h : (st name).configured = true) :
    ((call stringLib D st c).2 name).configured = true := by
  have hupdate : ∀ (sec : Section) (s : SectionState),
      ((st sec.name).configured = true → s.configured = true) →
        (Function.update st sec.name s name).configured = true := by
    intro sec s hs
    by_cases hname : name = sec.name
    · subst hname
      rw [Function.update_self]
      exact hs h
    · rw [Function.update_of_ne hname]
      exact h
  rw [call]
  cases D.find c.sectionName with
  | none => exact h
  | some sec =>
    cases hnamed : sec.named <;> cases c.sub <;> simp only [hnamed]
    · exact hupdate sec _ (sectionFunc_configured stringLib sec c.content)
    · exact hupdate sec _ (sectionFunc_configured stringLib sec _)
    · exact h
    · exact hupdate sec _ (namedSectionFunc_configured stringLib sec _ c.content)

theorem runCalls_configured (stringLib : Name → Bool) (D : Decls) (cfg : List Call)
    {st : Sections} {name : Name} (h : (st name).configured = true) :
    ((runCalls stringLib D st cfg).2 name).configured = true := by
  induction cfg generalizing st with
  | nil => exact h
  | cons c cfg ih =>
    have hcall := call_configured stringLib D c h
    rw [runCalls]
    cases hr : call stringLib D st c with
    | mk ok st' =>
      rw [hr] at hcall
      cases ok with
      | true => exact ih hcall
      | false => exact hcall

/-- A section that is not configured behind a configuration was not before. -/
theorem processString_configured (stringLib : Name → Bool) {D : Decls} (cfg : List Call)
    (st : Sections) {sec : Section} (hmem : sec ∈ D.sections)
    (h : ((processString stringLib D st cfg).2 sec.name).configured = false) :
    (st sec.name).configured = false := by
  rw [Bool.eq_false_iff] at h ⊢
  intro hbefore
  exact h (runCalls_configured stringLib D cfg ((resetChildren_configured hmem st).trans hbefore))

/-! ## The invariant

What a context holds is described by what was copied to it, whatever the configurations were. -/

/-- There are entries only of sections that are configured, and of a plain section only those under
    `default`. -/
structure Copied (D : Decls) (ctx : Context) : Prop where
  configured : ∀ sec ∈ D.sections, (ctx.sections sec.name).configured = false →
    ∀ k, ctx.entries sec.name k = none
  plain : ∀ sec ∈ D.sections, sec.named = false → ∀ k, k ≠ strKey defaultKey →
    ctx.entries sec.name k = none

theorem Copied.new (D : Decls) : Copied D .new :=
  ⟨fun _ _ _ _ => rfl, fun _ _ _ _ _ => rfl⟩

/-- The entries of a section behind a configuration. -/
theorem entries_process {D : Decls} (ctx : Context) (cfg : List Call) {sec : Section}
    (hmem : sec ∈ D.sections) :
    (inaConffileProcessString H D ctx cfg).2.entries sec.name =
      if (processString H.stringLib D ctx.sections cfg).1 then
        processSection H sec ((processString H.stringLib D ctx.sections cfg).2 sec.name)
          (ctx.entries sec.name)
      else ctx.entries sec.name := by
  rw [inaConffileProcessString]
  cases (processString H.stringLib D ctx.sections cfg).1 with
  | true => simp only [if_true, processSectionTable, D.find_name hmem]
  | false => rfl

theorem sections_process (D : Decls) (ctx : Context) (cfg : List Call) :
    (inaConffileProcessString H D ctx cfg).2.sections =
      (processString H.stringLib D ctx.sections cfg).2 := by
  rw [inaConffileProcessString]
  cases (processString H.stringLib D ctx.sections cfg).1 <;> rfl

theorem Copied.step {D : Decls} {ctx : Context} (h : Copied D ctx) (cfg : List Call) :
    Copied D (Conffile.step H D ctx cfg).2 := by
  have hstep : (Conffile.step H D ctx cfg).2 = (inaConffileProcessString H D ctx cfg).2 := rfl
  rw [hstep]
  constructor
  · intro sec hmem hno k
    rw [sections_process] at hno
    have hbefore := processString_configured H.stringLib cfg ctx.sections hmem hno
    rw [entries_process H ctx cfg hmem]
    split
    · rw [processSection, hno]
      exact h.configured sec hmem hbefore k
    · exact h.configured sec hmem hbefore k
  · intro sec hmem hplain k hk
    rw [entries_process H ctx cfg hmem]
    split
    · rw [processSection, hplain]
      split
      · exact (Function.update_of_ne hk _ _).trans (h.plain sec hmem hplain k hk)
      · exact h.plain sec hmem hplain k hk
    · exact h.plain sec hmem hplain k hk

/-! ## One section

For a plain section the keys that are left out decide, and for a named one the sub-sections. -/

/-- What a section is after the calls. -/
def afterCalls (D : Decls) (ctx : Context) (cfg : List Call) (sec : Section) : SectionState :=
  cfg.foldl (effect H.stringLib sec) (resetChildren D ctx.sections sec.name)

/-- Its entries, when the configuration succeeds. -/
def copied (D : Decls) (ctx : Context) (cfg : List Call) (sec : Section) : SectionEntries :=
  processSection H sec (afterCalls H D ctx cfg sec) (ctx.entries sec.name)

/-- The entries of a section read the same as on a new context. -/
def SameIn (D : Decls) (ctx : Context) (cfg : List Call) (sec : Section) : Prop :=
  ∀ sub key : Name, (copied H D ctx cfg sec).at (strKey sub) (strKey key) =
    (copied H D .new cfg sec).at (strKey sub) (strKey key)

theorem afterCalls_configured {D : Decls} (ctx : Context) (cfg : List Call) {sec : Section}
    (hmem : sec ∈ D.sections) :
    (afterCalls H D ctx cfg sec).configured = true ↔
      (ctx.sections sec.name).configured = true ∨ Called sec cfg := by
  rw [afterCalls, configured_foldl, resetChildren_configured hmem, Called]

theorem afterCalls_value {D : Decls} (ctx : Context) (cfg : List Call) {sec : Section}
    (hmem : sec ∈ D.sections) (hplain : sec.named = false) {key : Key} (hkey : key ∈ sec.keys) :
    (afterCalls H D ctx cfg sec).value key.name =
      (lastGiven H.stringLib sec cfg key.name).or ((ctx.sections sec.name).value key.name) := by
  rw [afterCalls, value_foldl H.stringLib hplain, if_pos ⟨key, hkey, rfl⟩,
    resetChildren_name hmem, hplain]
  rfl

/-- A section that is not called is given nothing. -/
theorem lastGiven_of_not_called {sec : Section} (hplain : sec.named = false) {cfg : List Call}
    (hno : ¬ Called sec cfg) (k : Name) : lastGiven H.stringLib sec cfg k = none := by
  rw [lastGiven_none]
  intro c hc hname
  exact absurd ⟨c, hc, hname, fun hnamed => by rw [hplain] at hnamed; cases hnamed⟩ hno

/-- The values of a plain section that can be read, under `default`. -/
theorem copied_plain {D : Decls} {ctx : Context} (h : Copied D ctx) (cfg : List Call)
    {sec : Section} (hmem : sec ∈ D.sections) (hplain : sec.named = false) (k j : List UInt8) :
    (copied H D ctx cfg sec).at k j =
      if k = strKey defaultKey ∧ (afterCalls H D ctx cfg sec).configured = true
        then processEntries H sec.keys (afterCalls H D ctx cfg sec).value j else none := by
  rw [copied, processSection, hplain, SectionEntries.at]
  cases hflag : (afterCalls H D ctx cfg sec).configured with
  | true =>
    by_cases hk : k = strKey defaultKey
    · simp [hk]
    · simp [hk, h.plain sec hmem hplain k hk]
  | false =>
    have hbefore : (ctx.sections sec.name).configured = false := by
      rw [Bool.eq_false_iff] at hflag ⊢
      exact fun hold => hflag ((afterCalls_configured H ctx cfg hmem).mpr (Or.inl hold))
    simp [h.configured sec hmem hbefore k]

/-- On a new context a plain section has what the configuration gives. -/
theorem new_value {D : Decls} (cfg : List Call) {sec : Section} (hmem : sec ∈ D.sections)
    (hplain : sec.named = false) {key : Key} (hkey : key ∈ sec.keys) :
    (afterCalls H D .new cfg sec).value key.name = lastGiven H.stringLib sec cfg key.name := by
  rw [afterCalls_value H .new cfg hmem hplain hkey]
  exact Option.or_none

/-- One that is not called reads there like one that was called without values. -/
theorem copied_new {D : Decls} (cfg : List Call) {sec : Section} (hmem : sec ∈ D.sections)
    (hplain : sec.named = false) (k : List UInt8) (j : Name) :
    (copied H D .new cfg sec).at k (strKey j) =
      if k = strKey defaultKey
        then processEntries H sec.keys (afterCalls H D .new cfg sec).value (strKey j) else none := by
  rw [copied_plain H (Copied.new D) cfg hmem hplain]
  by_cases hk : k = strKey defaultKey
  · by_cases hflag : (afterCalls H D .new cfg sec).configured = true
    · rw [if_pos ⟨hk, hflag⟩, if_pos hk]
    · have hcalled : ¬ Called sec cfg :=
        fun hc => hflag ((afterCalls_configured H .new cfg hmem).mpr (Or.inr hc))
      have hnone : ∀ j : Name, processEntries H sec.keys (afterCalls H D .new cfg sec).value
          (strKey j) = processEntries H sec.keys (fun _ => none) (strKey j) := by
        rw [processEntries_eq_iff]
        intro key hkey
        rw [new_value H cfg hmem hplain hkey, lastGiven_of_not_called H hplain hcalled]
      rw [if_neg fun hc => hflag hc.2, if_pos hk, hnone, processEntries, eq_comm, writes_eq_none]
      intro key _ e he
      cases he
  · rw [if_neg fun hc => hk hc.1, if_neg hk]

/-- A plain section that is configured is as on a new context when its copied values are. -/
theorem sameIn_iff_entries {D : Decls} {ctx : Context} (h : Copied D ctx) {cfg : List Call}
    {sec : Section} (hmem : sec ∈ D.sections) (hplain : sec.named = false)
    (hflag : (afterCalls H D ctx cfg sec).configured = true) :
    SameIn H D ctx cfg sec ↔ ∀ j : Name,
      processEntries H sec.keys (afterCalls H D ctx cfg sec).value (strKey j) =
        processEntries H sec.keys (afterCalls H D .new cfg sec).value (strKey j) := by
  constructor
  · intro hall j
    have hj := hall defaultKey j
    rw [copied_new H cfg hmem hplain, copied_plain H h cfg hmem hplain, if_pos ⟨rfl, hflag⟩,
      if_pos rfl] at hj
    exact hj
  · intro hall sub key
    rw [copied_new H cfg hmem hplain, copied_plain H h cfg hmem hplain]
    by_cases hk : strKey sub = strKey defaultKey
    · rw [if_pos ⟨hk, hflag⟩, if_pos hk]
      exact hall key
    · rw [if_neg fun hc => hk hc.1, if_neg hk]

/-- A plain section is as on a new context unless it keeps a value. -/
theorem sameIn_plain {D : Decls} {ctx : Context} (h : Copied D ctx) {cfg : List Call}
    {sec : Section} (hmem : sec ∈ D.sections) (hplain : sec.named = false) :
    SameIn H D ctx cfg sec ↔ ¬ KeepsValue H sec ctx cfg := by
  by_cases hflag : (ctx.sections sec.name).configured = true ∨ Called sec cfg
  · rw [sameIn_iff_entries H h hmem hplain ((afterCalls_configured H ctx cfg hmem).mpr hflag),
      processEntries_eq_iff, KeepsValue]
    simp only [hplain, hflag, true_and, not_exists, not_and]
    refine forall₂_congr fun key hkey => ?_
    rw [afterCalls_value H ctx cfg hmem hplain hkey, new_value H cfg hmem hplain hkey]
    cases lastGiven H.stringLib sec cfg key.name with
    | none => simp
    | some v => simp
  · -- not configured: there is nothing to read on either context
    constructor
    · exact fun _ hkeeps => hflag hkeeps.2.1
    · intro _ sub key
      have hnew : ¬ (afterCalls H D .new cfg sec).configured = true := by
        rw [afterCalls_configured H .new cfg hmem]
        exact fun hc => hflag (Or.inr (hc.resolve_left (by simp [Context.new, Sections.new])))
      have hold : ¬ (afterCalls H D ctx cfg sec).configured = true := by
        rw [afterCalls_configured H ctx cfg hmem]
        exact hflag
      rw [copied_plain H (Copied.new D) cfg hmem hplain, copied_plain H h cfg hmem hplain,
        if_neg fun hc => hold hc.2, if_neg fun hc => hnew hc.2]

/-- The sub-sections of a named section behind the calls are those that were called. -/
theorem mem_afterCalls_children {D : Decls} (ctx : Context) (cfg : List Call) {sec : Section}
    (hmem : sec ∈ D.sections) (hnamed : sec.named = true) (name : Name) :
    (∃ child ∈ (afterCalls H D ctx cfg sec).children, child.1 = name) ↔
      ∃ c ∈ cfg, c.sectionName = sec.name ∧ c.sub = some name := by
  -- The table of a sub-section is that of the last call that names it.
  have hchild : (afterCalls H D ctx cfg sec).child name =
      (lastTable sec name cfg).map (tableValues H.stringLib sec) := by
    rw [afterCalls, child_foldl H.stringLib hnamed, resetChildren_name hmem, hnamed]
    simp [SectionState.child]
  constructor
  · rintro ⟨child, hin, hname⟩
    cases hlast : lastTable sec name cfg with
    | some content =>
      obtain ⟨c, hc, hsec, hsub, -⟩ := lastTable_some hlast
      exact ⟨c, hc, hsec, hsub⟩
    | none =>
      rw [hlast, Option.map_none, SectionState.child, Option.map_eq_none_iff,
        List.find?_eq_none] at hchild
      exact absurd hname (by simpa using hchild child hin)
  · rintro ⟨c, hc, hsec, hsub⟩
    have hlast : lastTable sec name cfg ≠ none := by
      rw [lastTable, ne_eq, List.findSome?_eq_none_iff]
      intro hall
      have hthis := hall c (List.mem_reverse.mpr hc)
      simp [hsec, hsub] at hthis
    have hsome : (afterCalls H D ctx cfg sec).child name ≠ none := by
      rw [hchild]
      simpa using hlast
    obtain ⟨vals, hvals⟩ := Option.ne_none_iff_exists'.mp hsome
    rw [SectionState.child, Option.map_eq_some_iff] at hvals
    obtain ⟨child, hfind, -⟩ := hvals
    exact ⟨child, List.mem_of_find?_eq_some hfind, by simpa using List.find?_some hfind⟩

/-- A section with sub-sections is configured, so that they are all copied. -/
theorem copied_named {D : Decls} (ctx : Context) (cfg : List Call) {sec : Section}
    (hmem : sec ∈ D.sections) (hnamed : sec.named = true) :
    copied H D ctx cfg sec = addChildren H sec (H.order (afterCalls H D ctx cfg sec).children)
      (ctx.entries sec.name) := by
  rw [copied, processSection, hnamed]
  cases hflag : (afterCalls H D ctx cfg sec).configured with
  | true => rfl
  | false =>
    have hnil : (afterCalls H D ctx cfg sec).children = [] := by
      rw [List.eq_nil_iff_forall_not_mem]
      intro child hin
      obtain ⟨c, hc, hsec, hsub⟩ := (mem_afterCalls_children H ctx cfg hmem hnamed child.1).mp
        ⟨child, hin, rfl⟩
      have hcalled : Called sec cfg := ⟨c, hc, hsec, fun _ => by simp [hsub]⟩
      rw [(afterCalls_configured H ctx cfg hmem).mpr (Or.inr hcalled)] at hflag
      cases hflag
    have horder : H.order (afterCalls H D ctx cfg sec).children = [] := by
      rw [hnil]
      exact (H.perm []).eq_nil
    rw [horder]
    rfl

/-- The table of sub-sections is new in every configuration. -/
theorem afterCalls_children {D : Decls} (ctx : Context) (cfg : List Call) {sec : Section}
    (hmem : sec ∈ D.sections) (hnamed : sec.named = true) :
    (afterCalls H D ctx cfg sec).children = (afterCalls H D .new cfg sec).children := by
  have hfold : ∀ s s' : SectionState, s.children = s'.children →
      (cfg.foldl (effect H.stringLib sec) s).children =
        (cfg.foldl (effect H.stringLib sec) s').children := by
    intro s s' hs
    induction cfg generalizing s s' with
    | nil => exact hs
    | cons c cfg ih =>
      refine ih _ _ ?_
      rw [effect, effect]
      by_cases hname : c.sectionName = sec.name
      · rw [if_pos hname, if_pos hname, hnamed]
        cases c.sub with
        | none => exact hs
        | some sub => simp only [SectionState.setChild, hs]
      · rw [if_neg hname, if_neg hname]
        exact hs
  refine hfold _ _ ?_
  rw [resetChildren_name hmem, resetChildren_name hmem, hnamed]
  rfl

/-- A named section is as on a new context unless it keeps a sub-section. -/
theorem sameIn_named {D : Decls} (ctx : Context) (cfg : List Call) {sec : Section}
    (hmem : sec ∈ D.sections) (hnamed : sec.named = true) :
    SameIn H D ctx cfg sec ↔ ¬ KeepsChild D sec ctx cfg := by
  -- A name has no entry if no call gives a sub-section of that name, as far as names are told
  -- apart.
  have hnone : ∀ sub : Name,
      addChildren H sec (H.order (afterCalls H D .new cfg sec).children) (fun _ => none)
          (strKey sub) = none ↔
        ∀ c ∈ cfg, c.sectionName = sec.name → ∀ sub', c.sub = some sub' →
          strKey sub' ≠ strKey sub := by
    intro sub
    rw [addChildren_eq_none]
    constructor
    · intro hall c hc hsec sub' hsub
      obtain ⟨child, hin, hname⟩ :=
        (mem_afterCalls_children H .new cfg hmem hnamed sub').mpr ⟨c, hc, hsec, hsub⟩
      rw [← hname]
      exact hall child ((H.perm _).mem_iff.mpr hin)
    · intro hall child hin
      obtain ⟨c, hc, hsec, hsub⟩ := (mem_afterCalls_children H .new cfg hmem hnamed child.1).mp
        ⟨child, (H.perm _).mem_iff.mp hin, rfl⟩
      exact hall c hc hsec child.1 hsub
  -- So it is the same as on a new context where nothing was left behind.
  have hsame : SameIn H D ctx cfg sec ↔ ∀ sub key : Name,
      addChildren H sec (H.order (afterCalls H D .new cfg sec).children) (fun _ => none)
          (strKey sub) = none →
        (ctx.entries sec.name).at (strKey sub) (strKey key) = none := by
    refine forall₂_congr fun sub key => ?_
    rw [copied_named H ctx cfg hmem hnamed, copied_named H .new cfg hmem hnamed,
      afterCalls_children H ctx cfg hmem hnamed, SectionEntries.at, SectionEntries.at,
      SectionEntries.at, addChildren_or]
    have hempty : (Context.new.entries sec.name) = fun _ => none := rfl
    rw [hempty]
    cases addChildren H sec (H.order (afterCalls H D .new cfg sec).children) (fun _ => none)
        (strKey sub) with
    | none => simp
    | some e => simp
  rw [hsame, KeepsChild]
  simp only [hnamed, true_and, not_exists, not_and']
  refine forall₂_congr fun sub key => ?_
  rw [hnone, readable_section hmem, Option.getD_some, not_not]

/-! ## A configuration

Section by section, and then the answers. -/

theorem process_ok {D : Decls} (ctx : Context) {cfg : List Call}
    (hgo : ∀ c ∈ cfg, Goes H.stringLib D c)
    (hall : ∀ sec ∈ D.sections, sec.required = true →
      (ctx.sections sec.name).configured = true ∨ Called sec cfg) :
    ∃ ctx', (step H D ctx cfg).1 = some (readable D ctx') ∧
      ∀ sec ∈ D.sections, ctx'.entries sec.name = copied H D ctx cfg sec := by
  have hok := (processString_fst H.stringLib D ctx.sections cfg).mpr ⟨hgo, hall⟩
  refine ⟨(inaConffileProcessString H D ctx cfg).2, ?_, ?_⟩
  · simp only [step, inaConffileProcessString, hok, if_true]
  · intro sec hmem
    rw [entries_process H ctx cfg hmem, if_pos hok, processString_snd H.stringLib hgo hmem]
    rfl

theorem process_failed {D : Decls} (ctx : Context) {cfg : List Call}
    (hno : ¬ ((∀ c ∈ cfg, Goes H.stringLib D c) ∧ ∀ sec ∈ D.sections, sec.required = true →
      (ctx.sections sec.name).configured = true ∨ Called sec cfg)) :
    (step H D ctx cfg).1 = none := by
  have hfalse : (processString H.stringLib D ctx.sections cfg).1 = false := by
    rw [← Bool.not_eq_true, processString_fst]
    exact hno
  simp only [step, inaConffileProcessString, hfalse]
  rfl

theorem new_all_iff {D : Decls} {cfg : List Call} :
    (∀ sec ∈ D.sections, sec.required = true →
      (Context.new.sections sec.name).configured = true ∨ Called sec cfg) ↔
      ∀ sec ∈ D.sections, sec.required = true → Called sec cfg := by
  simp [Context.new, Sections.new]

/-- A section is as on a new context unless it keeps something. -/
theorem sameIn_iff {D : Decls} {ctx : Context} (h : Copied D ctx) (cfg : List Call)
    {sec : Section} (hmem : sec ∈ D.sections) :
    SameIn H D ctx cfg sec ↔ ¬ (KeepsValue H sec ctx cfg ∨ KeepsChild D sec ctx cfg) := by
  cases hnamed : sec.named with
  | false =>
    rw [sameIn_plain H h hmem hnamed, or_iff_left]
    rintro ⟨htrue, -⟩
    rw [hnamed] at htrue
    cases htrue
  | true =>
    rw [sameIn_named H ctx cfg hmem hnamed, or_iff_right]
    rintro ⟨hfalse, -⟩
    rw [hnamed] at hfalse
    cases hfalse

/-- When both contexts succeed the sections decide. -/
theorem Copied.asFresh_of_called {D : Decls} {ctx : Context} (h : Copied D ctx) {cfg : List Call}
    (hgo : ∀ c ∈ cfg, Goes H.stringLib D c)
    (hcalled : ∀ sec ∈ D.sections, sec.required = true → Called sec cfg) :
    AsFresh H D ctx cfg ↔
      ¬ ∃ sec ∈ D.sections, KeepsValue H sec ctx cfg ∨ KeepsChild D sec ctx cfg := by
  obtain ⟨ctx₁, hout₁, hentries₁⟩ := process_ok H ctx hgo
    fun sec hmem hreq => Or.inr (hcalled sec hmem hreq)
  obtain ⟨ctx₂, hout₂, hentries₂⟩ := process_ok H .new hgo (new_all_iff.mpr hcalled)
  rw [AsFresh, hout₁, hout₂, Option.some.injEq, readable_eq_iff]
  simp only [not_exists, not_and]
  refine forall₂_congr fun sec hmem => ?_
  rw [hentries₁ sec hmem, hentries₂ sec hmem]
  exact sameIn_iff H h cfg hmem

/-- When a new context misses a section the flags decide. -/
theorem asFresh_of_not_called {D : Decls} {ctx : Context} {cfg : List Call}
    (hgo : ∀ c ∈ cfg, Goes H.stringLib D c)
    (hcalled : ¬ ∀ sec ∈ D.sections, sec.required = true → Called sec cfg) :
    AsFresh H D ctx cfg ↔ ¬ PassesByFlag D ctx cfg := by
  have hnew : (step H D .new cfg).1 = none :=
    process_failed H .new fun hok => hcalled (new_all_iff.mp hok.2)
  rw [AsFresh, hnew]
  by_cases hall : ∀ sec ∈ D.sections, sec.required = true →
      (ctx.sections sec.name).configured = true ∨ Called sec cfg
  · obtain ⟨ctx₁, hout, -⟩ := process_ok H ctx hgo hall
    have hpasses : PassesByFlag D ctx cfg := by
      refine ⟨hall, ?_⟩
      by_contra hnone
      refine hcalled fun sec hmem hreq => ?_
      by_contra hno
      exact hnone ⟨sec, hmem, hreq, hno⟩
    simp [hout, hpasses]
  · have hno : ¬ PassesByFlag D ctx cfg := fun hp => hall hp.1
    simp [process_failed H ctx fun hok => hall hok.2, hno]

/-- **One configuration** comes out as on a new context exactly when it is not stale. -/
theorem Copied.asFresh_iff {D : Decls} {ctx : Context} (h : Copied D ctx) (cfg : List Call) :
    AsFresh H D ctx cfg ↔ ¬ Stale H D ctx cfg := by
  by_cases hgo : ∀ c ∈ cfg, Goes H.stringLib D c
  · by_cases hcalled : ∀ sec ∈ D.sections, sec.required = true → Called sec cfg
    · have hflag : ¬ PassesByFlag D ctx cfg := by
        rintro ⟨-, sec, hmem, hreq, hno⟩
        exact hno (hcalled sec hmem hreq)
      rw [h.asFresh_of_called H hgo hcalled, not_iff_not]
      exact ⟨fun hs => ⟨hgo, Or.inr ⟨hcalled, hs⟩⟩, fun hs => (hs.2.resolve_left hflag).2⟩
    · rw [asFresh_of_not_called H hgo hcalled, not_iff_not]
      exact ⟨fun hp => ⟨hgo, Or.inl hp⟩, fun hs => hs.2.resolve_right fun hr => hcalled hr.1⟩
  · have hfail : ∀ c : Context, (Conffile.step H D c cfg).1 = none :=
      fun c => process_failed H c fun hok => hgo hok.1
    exact ⟨fun _ hs => hgo hs.1, fun _ => (hfail ctx).trans (hfail .new).symm⟩

/-- **A run of configurations.** Each comes out as on a new context exactly when none is stale. -/
theorem as_fresh_iff_never_stale (D : Decls) (cfgs : List (List Call)) :
    Along (step H D) (AsFresh H D) .new cfgs ↔ Never (step H D) (Stale H D) .new cfgs :=
  along_iff_never (I := Copied D) (C := fun _ _ => True)
    (fun _ cfg _ _ h => h.step H cfg) (fun _ cfg _ h => h.asFresh_iff H cfg)
    (along_iff_forall.mpr fun _ _ => trivial) (Copied.new D)

/-- A required plain section `a` without keys. -/
def needed : Section :=
  { name := [97], required := true, named := false, keys := [], distinct := by decide }

/-- A host whose strings have no functions and whose environment is empty. -/
def bareHost : Host :=
  { stringLib := fun _ => false, order := fun children => children, perm := fun _ => .refl _
    tostring := fun _ => [], tonumber := fun _ => 0, getenv := fun _ => none }

/-- `a {}`, and then a configuration without calls: it succeeds. -/
theorem second_run_not_fresh :
    ¬ Along (step bareHost ⟨[needed], by decide⟩) (AsFresh bareHost ⟨[needed], by decide⟩) .new
      [[⟨[97], none, .table fun _ => .nil⟩], []] := by
  rintro ⟨-, hsecond, -⟩
  have hsome := congrArg Option.isSome hsecond
  cases hsome

end Conffile
end Inac
