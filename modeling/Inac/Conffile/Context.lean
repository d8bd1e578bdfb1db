import Inac.Err
import Inac.Conffile.Sections
import Inac.Lib.Writes

/-!
# The context of a configuration file (`src/conffile.c`)

`ina_conffile_process_string` runs the Lua function on the section table, which stays in the Lua
state from call to call, and then copies what the configured sections hold into tables of its own,
from which values are read. The values of a plain section go under `default`; the tables of the
sub-sections are added to those that are there.

A value is converted by the declared type of its key alone: for a string by `lua_tostring`, with the
environment variable behind `$ENV:` in its place, for a number by `lua_tonumber`.

The hash tables are maps of the first 16 bytes of a name. No section has a callback, and memory does
not run out.
-/

namespace Inac
namespace Conffile

open Hashtable (strKey)
open Lib

/-- What is not in the source: the functions a string has as fields, the order `pairs` goes through
    the sub-sections, the conversions between numbers and strings, the environment. -/
structure Host where
  stringLib : Name → Bool
  order : List (Name × Values) → List (Name × Values)
  perm : ∀ children, (order children).Perm children
  tostring : UInt64 → List UInt8
  tonumber : List UInt8 → UInt64
  getenv : List UInt8 → Option (List UInt8)

/-- `ina_conffile_entry_t`. -/
inductive Entry where
  | string (s : List UInt8)
  | number (bits : UInt64)
  deriving DecidableEq, Repr

/-- `ina_conffile_entries_t`, by the keys of the hash table. -/
abbrev Entries := List UInt8 → Option Entry

/-- The `entries` of a section, by the keys of the hash table. -/
abbrev SectionEntries := List UInt8 → Option Entries

/-- `struct ina_conffile_s`: the section table of its Lua state, and the entries by section. -/
structure Context where
  sections : Sections
  entries : Name → SectionEntries

def Context.new : Context := { sections := .new, entries := fun _ _ => none }

/-- `__INA_ATTR_DEFAULT`. -/
def defaultKey : Name := [100, 101, 102, 97, 117, 108, 116]

/-- `"$ENV:"`. -/
def envMark : List UInt8 := [36, 69, 78, 86, 58]

variable (H : Host)

/-- `lua_tostring`; `none` is `NULL`. -/
def luaToString : Value → Option (List UInt8)
  | .string s => some s
  | .number bits => some (H.tostring bits)
  | _ => none

def luaToNumber : Value → UInt64
  | .number bits => bits
  | .string s => H.tonumber s
  | _ => 0

/-- The value of an entry. `ina_str_new_fromcstr_using_pool` makes an empty string of `NULL`. -/
def entryOf (t : ValueType) (v : Value) : Entry :=
  match t with
  | .string =>
    let s := ((luaToString H v).getD []).takeWhile (· ≠ 0)
    if s.take envMark.length = envMark then
      .string ((H.getenv (s.drop envMark.length)).getD [])
    else .string s
  | .number => .number (luaToNumber H v)

/-- `__ina_process_entries`, over the keys with a value. -/
def processEntries (keys : List Key) (vals : Values) : Entries :=
  writes (fun key => (vals key.name).map fun v => (strKey key.name, entryOf H key.valueType v))
    keys (fun _ => none)

/-- The tables of the sub-sections, one after another. -/
def addChildren (sec : Section) (children : List (Name × Values)) (entries : SectionEntries) :
    SectionEntries :=
  writes (fun child => some (strKey child.1, processEntries H sec.keys child.2)) children entries

/-- One section in `__ina_process_section_table`. -/
def processSection (sec : Section) (s : SectionState) (entries : SectionEntries) :
    SectionEntries :=
  if s.configured then
    if !sec.named then
      Function.update entries (strKey defaultKey) (some (processEntries H sec.keys s.value))
    else addChildren H sec (H.order s.children) entries
  else entries

/-- `__ina_process_section_table`. -/
def processSectionTable (D : Decls) (ctx : Context) : Context :=
  { ctx with
    entries := fun name =>
      match D.find name with
      | some sec => processSection H sec (ctx.sections name) (ctx.entries name)
      | none => ctx.entries name }

/-- `ina_conffile_process_string`. -/
def inaConffileProcessString (D : Decls) (ctx : Context) (cfg : List Call) :
    Except Err Unit × Context :=
  let r := processString H.stringLib D ctx.sections cfg
  let ctx := { ctx with sections := r.2 }
  if r.1 then (.ok (), processSectionTable H D ctx) else (.error .scriptFailed, ctx)

/-- `__ina_get_value`. -/
def inaGetValue (D : Decls) (ctx : Context) (sectionName : Name) (sectionKey : Option Name)
    (key : Name) : Except Err Entry :=
  match D.sections.find? fun sec => strKey sec.name = strKey sectionName with
  | none => .error .sectionNotExists
  | some sec =>
    match ctx.entries sec.name (strKey (sectionKey.getD defaultKey)) with
    | none => .error .sectionEmpty
    | some entries =>
      match entries (strKey key) with
      | none => .error .keyNotExists
      | some entry => .ok entry

/-! ## What a caller sees

The entry under a section, a sub-section and a key, if there is one. -/

/-- The value under a key, if there is one. -/
def readable (D : Decls) (ctx : Context) (sectionName : Name) (sectionKey : Option Name)
    (key : Name) : Option Entry := (inaGetValue D ctx sectionName sectionKey key).toOption

/-- That processing failed, or the values that can be read behind it. -/
abbrev Outcome := Option (Name → Option Name → Name → Option Entry)

/-- One configuration of a run. -/
def step (D : Decls) (ctx : Context) (cfg : List Call) : Outcome × Context :=
  let r := inaConffileProcessString H D ctx cfg
  (match r.1 with
    | .ok _ => some (readable D r.2)
    | .error _ => none, r.2)

/-! ## Reading the entries

An entry is converted once, when it is copied. -/

/-- The entry under two keys of a section. -/
def SectionEntries.at (entries : SectionEntries) (k j : List UInt8) : Option Entry :=
  (entries k).bind fun e => e j

theorem Decls.find_key (D : Decls) {sec : Section} (hmem : sec ∈ D.sections) {name : Name}
    (hname : strKey name = strKey sec.name) :
    (D.sections.find? fun sec => strKey sec.name = strKey name) = some sec := by
  cases hfind : D.sections.find? fun sec => strKey sec.name = strKey name with
  | none =>
    have hno := List.find?_eq_none.mp hfind sec hmem
    simp [hname] at hno
  | some sec' =>
    have hmem' := List.mem_of_find?_eq_some hfind
    have hkey : strKey sec'.name = strKey name := by simpa using List.find?_some hfind
    rw [List.inj_on_of_nodup_map D.distinct hmem' hmem (hkey.trans hname)]

theorem readable_section {D : Decls} {sec : Section} (hmem : sec ∈ D.sections) (ctx : Context)
    (sub : Option Name) (key : Name) :
    readable D ctx sec.name sub key =
      (ctx.entries sec.name).at (strKey (sub.getD defaultKey)) (strKey key) := by
  simp only [readable, inaGetValue, D.find_key hmem rfl, SectionEntries.at]
  cases hsub : ctx.entries sec.name (strKey (sub.getD defaultKey)) with
  | none => rfl
  | some entries =>
    simp only [Option.bind_some]
    cases hkey : entries (strKey key) <;> rfl

/-- Two contexts read the same when the entries of each declared section do. -/
theorem readable_eq_iff {D : Decls} {ctx ctx' : Context} :
    readable D ctx = readable D ctx' ↔ ∀ sec ∈ D.sections, ∀ sub key : Name,
      (ctx.entries sec.name).at (strKey sub) (strKey key) =
        (ctx'.entries sec.name).at (strKey sub) (strKey key) := by
  constructor
  · intro heq sec hmem sub key
    have hread := congrFun (congrFun (congrFun heq sec.name) (some sub)) key
    rw [readable_section hmem, readable_section hmem] at hread
    exact hread
  · intro hall
    funext name sub key
    cases hfind : D.sections.find? fun sec => strKey sec.name = strKey name with
    | none => simp only [readable, inaGetValue, hfind]
    | some sec =>
      have hmem := List.mem_of_find?_eq_some hfind
      have hsame : ∀ c : Context, readable D c name sub key = readable D c sec.name sub key := by
        intro c
        simp only [readable, inaGetValue, hfind, D.find_key hmem rfl]
      rw [hsame, hsame, readable_section hmem, readable_section hmem]
      exact hall sec hmem (sub.getD defaultKey) key

/-! ## What is copied

The tables of the configured sections over what was there. -/

/-- The entry under a declared key is its value, converted. -/
theorem processEntries_key {keys : List Key}
    (hnodup : (keys.map fun key => strKey key.name).Nodup) (vals : Values) {key : Key}
    (hmem : key ∈ keys) :
    processEntries H keys vals (strKey key.name) =
      (vals key.name).map (entryOf H key.valueType) := by
  have hsame : ∀ key' ∈ keys, strKey key'.name = strKey key.name → key' = key :=
    fun key' hmem' h => List.inj_on_of_nodup_map hnodup hmem' hmem h
  cases hv : vals key.name with
  | none =>
    rw [Option.map_none, processEntries, writes_eq_none]
    intro key' hmem' e he
    obtain ⟨v, hv', heq⟩ := Option.map_eq_some_iff.mp he
    rw [hsame key' hmem' (congrArg Prod.fst heq), hv] at hv'
    cases hv'
  | some v =>
    refine writes_of_agree ⟨key, hmem, by simp [hv]⟩ ?_ _
    intro key' hmem' e he
    obtain ⟨v', hv', heq⟩ := Option.map_eq_some_iff.mp he
    obtain rfl := hsame key' hmem' (congrArg Prod.fst heq)
    rw [hv] at hv'
    cases hv'
    exact (congrArg Prod.snd heq).symm

theorem processEntries_other {keys : List Key} {j : List UInt8}
    (hno : ∀ key ∈ keys, strKey key.name ≠ j) (vals : Values) :
    processEntries H keys vals j = none := by
  rw [processEntries, writes_eq_none]
  intro key hmem e he
  obtain ⟨v, -, heq⟩ := Option.map_eq_some_iff.mp he
  exact hno key hmem (congrArg Prod.fst heq)

/-- Two copies of a section's values read the same when each declared key has a value in both that
    converts alike, or in neither. -/
theorem processEntries_eq_iff (sec : Section) (vals vals' : Values) :
    (∀ j : Name, processEntries H sec.keys vals (strKey j) =
      processEntries H sec.keys vals' (strKey j)) ↔
      ∀ key ∈ sec.keys, (vals key.name).map (entryOf H key.valueType) =
        (vals' key.name).map (entryOf H key.valueType) := by
  constructor
  · intro hall key hmem
    rw [← processEntries_key H sec.distinct vals hmem,
      ← processEntries_key H sec.distinct vals' hmem]
    exact hall key.name
  · intro hall j
    by_cases hdecl : ∃ key ∈ sec.keys, strKey key.name = strKey j
    · obtain ⟨key, hmem, hkey⟩ := hdecl
      rw [← hkey, processEntries_key H sec.distinct vals hmem,
        processEntries_key H sec.distinct vals' hmem]
      exact hall key hmem
    · have hno : ∀ key ∈ sec.keys, strKey key.name ≠ strKey j :=
        fun key hmem hkey => hdecl ⟨key, hmem, hkey⟩
      rw [processEntries_other H hno, processEntries_other H hno]

/-- The sub-sections that are added hide what is there under their keys, and nothing else. -/
theorem addChildren_or (sec : Section) (children : List (Name × Values))
    (entries : SectionEntries) (k : List UInt8) :
    addChildren H sec children entries k =
      (addChildren H sec children (fun _ => none) k).or (entries k) :=
  writes_or _ _ _ _

theorem addChildren_eq_none {sec : Section} {children : List (Name × Values)} {k : List UInt8} :
    addChildren H sec children (fun _ => none) k = none ↔
      ∀ child ∈ children, strKey child.1 ≠ k := by
  rw [addChildren, writes_eq_none]
  refine forall₂_congr fun child _ => ?_
  constructor
  · intro h hkey
    exact h _ (by rw [hkey])
  · intro h e he
    exact h (congrArg Prod.fst (Option.some.inj he))

end Conffile
end Inac
