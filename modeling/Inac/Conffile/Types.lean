import Inac.Conffile.Sections

/-!
# Types of the values

Both section functions mean to refuse what is not a table, and a value that is not of its key's
type: `not type(content) == "table"`, `not type(content[k]) == v.typename`. Neither check ever fails
(`notTypeEq_false`). What stands in the way of a content that is no table is only the look into it,
which raises an error for some; strings can be looked into, and nothing is looked at in a section
without keys. A value of the wrong type is stored as it is.

So the types are right exactly where the configuration gives right ones, or is refused for another
reason.

The reason is said in `Inac.Conffile.Defs`: the negation is done first, and a truth value is no
string.
-/

namespace Inac
namespace Conffile

variable (stringLib : Name → Bool)

/-- The values in the section table have the types of their keys. -/
def TypedSections (D : Decls) (st : Sections) : Prop :=
  ∀ sec ∈ D.sections, ∀ key ∈ sec.keys,
    (sec.named = false → ∀ v, (st sec.name).value key.name = some v →
      v.type = key.valueType.typename) ∧
    (sec.named = true → ∀ name vals v, (st sec.name).child name = some vals →
      vals key.name = some v → v.type = key.valueType.typename)

/-- A configuration that succeeds on a fresh context calls the sections with tables, and leaves
    values of the declared types; any other fails. -/
def TypesChecked (D : Decls) (cfg : List Call) : Prop :=
  (processString stringLib D .new cfg).1 = true →
    (∀ c ∈ cfg, c.content.type = .table) ∧
      TypedSections D (processString stringLib D .new cfg).2

/-- The last value of each key has its type. -/
def LastTyped (D : Decls) (cfg : List Call) : Prop :=
  ∀ sec ∈ D.sections, ∀ key ∈ sec.keys,
    (sec.named = false → ∀ v, lastGiven stringLib sec cfg key.name = some v →
      v.type = key.valueType.typename) ∧
    (sec.named = true → ∀ name content v, lastTable sec name cfg = some content →
      supplied stringLib content key.name = some v → v.type = key.valueType.typename)

/-- The calls give tables, and values of the declared types. -/
def GivenTyped (D : Decls) (cfg : List Call) : Prop :=
  (∀ c ∈ cfg, c.content.type = .table) ∧ LastTyped stringLib D cfg

/-- What is stored is typed as it was given. -/
theorem Stored.typed_iff {D : Decls} {cfg : List Call} {st : Sections}
    (h : Stored stringLib D cfg st) : TypedSections D st ↔ LastTyped stringLib D cfg := by
  refine forall₂_congr fun sec hmem => forall₂_congr fun key hkey => ?_
  obtain ⟨hvalue, hchild⟩ := h sec hmem
  have hdecl : sec.Declares key.name := ⟨key, hkey, rfl⟩
  refine and_congr ?_ ?_
  · refine forall_congr' fun hplain => forall_congr' fun v => ?_
    rw [hvalue hplain, if_pos hdecl]
  · refine forall_congr' fun hnamed => forall_congr' fun name => ?_
    rw [hchild hnamed]
    constructor
    · intro htyped content v hlast hgives
      refine htyped (tableValues stringLib sec content) v (by rw [hlast]; rfl) ?_
      rw [tableValues, if_pos hdecl, hgives]
    · intro htyped vals v hvals hv
      obtain ⟨content, hlast, rfl⟩ := Option.map_eq_some_iff.mp hvals
      rw [tableValues, if_pos hdecl] at hv
      exact htyped content v hlast hv

/-- **The types are right** exactly where a configuration that is accepted gives them right. -/
theorem types_checked_iff_given (D : Decls) (cfg : List Call) :
    TypesChecked stringLib D cfg ↔ (Accepted stringLib D cfg → GivenTyped stringLib D cfg) := by
  rw [TypesChecked, processString_new]
  refine forall_congr' fun hacc => ?_
  rw [(processString_stored stringLib hacc.1).typed_iff, GivenTyped]

/-- A plain section `d` with a number under the key `k`. -/
def counting : Section := { requiring with named := false }

/-- `d { k = "x" }` is accepted, and stores the string. -/
theorem string_for_number_accepted : ¬ TypesChecked (fun _ => false) ⟨[counting], by decide⟩
    [⟨[100], none, .table fun _ => .string [120]⟩] := by
  intro h
  have htyped := (h rfl).2 counting List.mem_cons_self ⟨[107], true, .number⟩ List.mem_cons_self
  have hstring := htyped.1 rfl (.string [120]) rfl
  cases hstring

end Conffile
end Inac
