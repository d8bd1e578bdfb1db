import Mathlib.Logic.Function.Basic
import Inac.Hashtable.Defs

/-!
# Configuration files (`src/lconffile.lua`)

A configuration is Lua code that calls a function under each declared section's name, with a table
of values. A plain section is called with the table; a named one with the name of a sub-section, and
what it returns with the table. Here a configuration is the calls it makes, in order. A name that is
no section's is called as `nil`.

The functions check their arguments with `not type(v) == t`. In Lua `not` binds tighter than `==`,
so a boolean is compared with a string there and the check never fails.

The names of the sections and of a section's keys differ in the first 16 bytes: the C side keeps
them in hash tables with such keys and refuses what is there already. The lists of sections, keys
and sub-sections are in the order `pairs` goes through them. `cdata` is what a literal such as `1LL`
of LuaJIT gives; threads and userdata cannot be made where a configuration runs.
-/

namespace Inac
namespace Conffile

open Hashtable (strKey)

abbrev Name := List UInt8

/-! ## Values of Lua

As far as the functions tell them apart: by their type, whether they are true, and by what is found
under a key. -/

/-- What `type` returns. -/
inductive TypeName where
  | nil
  | boolean
  | number
  | string
  | func
  | table
  | cdata
  deriving DecidableEq, Repr

inductive Value where
  | nil
  | boolean (b : Bool)
  | number (bits : UInt64)
  | string (s : List UInt8)
  | func
  | table (field : Name → Value)
  | cdata

def Value.type : Value → TypeName
  | .nil => .nil
  | .boolean _ => .boolean
  | .number _ => .number
  | .string _ => .string
  | .func => .func
  | .table _ => .table
  | .cdata => .cdata

def Value.truthy : Value → Bool
  | .nil => false
  | .boolean b => b
  | _ => true

/-- `v[k]`; without a result it raises an error. A string has the functions of the library for
    strings as fields. -/
def Value.index (stringLib : Name → Bool) (v : Value) (k : Name) : Option Value :=
  match v with
  | .table field => some (field k)
  | .string _ => some (if stringLib k then .func else .nil)
  | .nil | .boolean _ | .number _ | .func | .cdata => none

/-- What is compared in `not type(v) == t`. -/
inductive Operand where
  | boolean (b : Bool)
  | string (s : TypeName)
  deriving DecidableEq, Repr

def Operand.luaNot : Operand → Operand
  | .boolean b => .boolean (!b)
  | .string _ => .boolean false

/-- `not type(v) == t`. -/
def notTypeEq (v : Value) (t : TypeName) : Bool :=
  (Operand.string v.type).luaNot = .string t

/-! ## Declarations

What the C side has declared: the sections with their keys, which are required, and their types. -/

/-- `ina_conffile_value_type_t`. -/
inductive ValueType where
  | string
  | number
  deriving DecidableEq, Repr

/-- The `typename` that `__ina_build_section_table` gives a key. -/
def ValueType.typename : ValueType → TypeName
  | .string => .string
  | .number => .number

structure Key where
  name : Name
  required : Bool
  valueType : ValueType
  deriving DecidableEq, Repr

/-- A section with its keys; `ina_conffile_add_key` refuses a name it has. -/
structure Section where
  name : Name
  required : Bool
  named : Bool
  keys : List Key
  distinct : (keys.map fun key => strKey key.name).Nodup

/-- The declared sections; `ina_conffile_add_section` refuses a name there is. -/
structure Decls where
  sections : List Section
  distinct : (sections.map fun sec => strKey sec.name).Nodup

/-- The section a global name of the configuration stands for. -/
def Decls.find (D : Decls) (name : Name) : Option Section :=
  D.sections.find? fun sec => sec.name = name

/-! ## The section table

The state behind the functions. It is a Lua table and so kept by name. -/

/-- The values under the names of keys, where they have one. -/
abbrev Values := Name → Option Value

/-- What the functions write into `sections[sn]`. -/
structure SectionState where
  configured : Bool
  value : Values
  children : List (Name × Values)

abbrev Sections := Name → SectionState

def Sections.new : Sections := fun _ => ⟨false, fun _ => none, []⟩

/-- `section.children[name] = …`. -/
def SectionState.setChild (s : SectionState) (name : Name) (vals : Values) : SectionState :=
  { s with children := s.children.filter (fun child => child.1 ≠ name) ++ [(name, vals)] }

/-- `section.children[name]`. -/
def SectionState.child (s : SectionState) (name : Name) : Option Values :=
  (s.children.find? fun child => child.1 = name).map Prod.snd

/-- A call of a section: `name {…}`, or `name "sub" {…}`. -/
structure Call where
  sectionName : Name
  sub : Option Name
  content : Value

/-! ## The functions

A call that raises an error ends the configuration; what it has changed until then stays. -/

variable (stringLib : Name → Bool)

/-- `for k,v in pairs(section.keys)`: whether it comes to its end, and the values it leaves. What
    was written before an error stays. -/
def fillKeys (content : Value) : List Key → Values → Bool × Values
  | [], vals => (true, vals)
  | key :: keys, vals =>
    match content.index stringLib key.name with
    | none => (false, vals)
    | some v =>
      if !v.truthy && key.required then (false, vals)
      else if v.truthy then
        if notTypeEq v key.valueType.typename then (false, vals)
        else fillKeys content keys (Function.update vals key.name (some v))
      else fillKeys content keys vals

/-- `_section_func`. -/
def sectionFunc (sec : Section) (content : Value) (s : SectionState) : Bool × SectionState :=
  if !content.truthy then (false, s)
  else if notTypeEq content .table then (false, s)
  else
    let r := fillKeys stringLib content sec.keys s.value
    (r.1, { s with value := r.2, configured := s.configured || r.1 })

/-- `_named_section_func(name)(content)`. -/
def namedSectionFunc (sec : Section) (name : Name) (content : Value) (s : SectionState) :
    Bool × SectionState :=
  if notTypeEq (.string name) .string then (false, s)
  else if !content.truthy then (false, s)
  else if notTypeEq content .table then (false, s)
  else
    let r := fillKeys stringLib content sec.keys (fun _ => none)
    (r.1, { s.setChild name r.2 with configured := s.configured || r.1 })

/-- What one call does: whether it returns, and the state it leaves. -/
def call (D : Decls) (st : Sections) (c : Call) : Bool × Sections :=
  match D.find c.sectionName with
  | none => (false, st)
  | some sec =>
    match sec.named, c.sub with
    | false, none =>
      let r := sectionFunc stringLib sec c.content (st sec.name)
      (r.1, Function.update st sec.name r.2)
    | false, some name =>
      -- the function gets the name, and what it returns is called as well, which is nothing
      let r := sectionFunc stringLib sec (.string name) (st sec.name)
      (false, Function.update st sec.name r.2)
    | true, some name =>
      let r := namedSectionFunc stringLib sec name c.content (st sec.name)
      (r.1, Function.update st sec.name r.2)
    | true, none =>
      -- the table is taken for the name, and the function that is returned is not called
      (c.content.truthy && !notTypeEq c.content .string, st)

/-- The calls of a configuration, up to one that raises an error. -/
def runCalls (D : Decls) : Sections → List Call → Bool × Sections
  | st, [] => (true, st)
  | st, c :: cfg =>
    match call stringLib D st c with
    | (true, st) => runCalls D st cfg
    | (false, st) => (false, st)

/-- `section.children = {}`, for the named sections. -/
def resetChildren (D : Decls) (st : Sections) : Sections := fun name =>
  match D.find name with
  | some sec => if sec.named then { st name with children := [] } else st name
  | none => st name

/-- `s.required and not s.configured`, for no section. -/
def allConfigured (D : Decls) (st : Sections) : Bool :=
  D.sections.all fun sec => !(sec.required && !(st sec.name).configured)

/-- `lconffile.process_string`. -/
def processString (D : Decls) (st : Sections) (cfg : List Call) : Bool × Sections :=
  let r := runCalls stringLib D (resetChildren D st) cfg
  (r.1 && allConfigured D r.2, r.2)

end Conffile
end Inac
