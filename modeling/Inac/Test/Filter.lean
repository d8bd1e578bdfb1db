import Mathlib.Data.List.Infix
import Mathlib.Data.List.TakeWhile
import Mathlib.Algebra.Ring.Int.Defs

/-!
# The suite filter of the test runner (`src/test.c`)

The argument of a test program selects tests: `p` all tests of the suites whose names start with
`p`, `s:` the tests of the suite `s`, `s:q` those of them whose names start with `q`, and `s:t:` the
test `t` of the suite `s` (`doc/test.md`).

`__ina_suite_filter` compares the part in front of the separator over its own length, so a suite
whose name starts with it is taken for it, and the test's name with the last part over the length of
the test's name, so a test whose name is a beginning of it is taken for it.
-/

namespace Inac
namespace Test

/-! ## The code

The C strings are lists without their NUL. -/

def colon : UInt8 := 58

/-- `strncmp` of two C strings, given without their NULs. -/
def strncmp : List UInt8 → List UInt8 → Nat → Int
  | _, _, 0 => 0
  | [], [], _ + 1 => 0
  | [], b :: _, _ + 1 => -(b.toNat : Int)
  | a :: _, [], _ + 1 => a.toNat
  | a :: as, b :: bs, n + 1 => if a = b then strncmp as bs n else a.toNat - b.toNat

/-- `strchr`: the string from the first `c` on, or `NULL`. -/
def strchr (s : List UInt8) (c : UInt8) : Option (List UInt8) :=
  match s.dropWhile (· ≠ c) with
  | [] => none
  | rest => some rest

/-- What `__ina_suite_filter` reads of an `ina_test_testcase_t`. -/
structure Testcase where
  suiteName : List UInt8
  testName : List UInt8
  isHelper : Int
  deriving DecidableEq, Repr

/-- `__ina_suite_filter`. -/
def suiteFilter (filter : List UInt8) (t : Testcase) : Bool :=
  -- skip helpers
  if t.isHelper ≠ 0 then false
  else
    match strchr filter colon with
    -- if no separator(s), just match the suite name
    | none => strncmp filter t.suiteName filter.length = 0
    | some sep =>
      let len := filter.length - sep.length
      -- if only one separator match suite exact
      if strncmp filter t.suiteName len = 0 then
        let sep := sep.tail
        if filter.length > len + 1 then
          match strchr sep colon with
          | none => strncmp t.testName sep sep.length = 0
          | some _ => strncmp t.testName sep t.testName.length = 0
        else true
      else false

/-! ## What is documented

The forms of a filter, and the tests that each selects. -/

/-- A name: a C string without a separator. -/
structure Name where
  bytes : List UInt8
  plain : ∀ c ∈ bytes, c ≠ 0 ∧ c ≠ colon
  deriving DecidableEq

/-- The forms of a filter. -/
inductive Form where
  | starts (p : Name)
  | suite (s : Name)
  | tests (s q : Name) (hq : q.bytes ≠ [])
  | test (s t : Name) (ht : t.bytes ≠ [])

def Form.text : Form → List UInt8
  | starts p => p.bytes
  | suite s => s.bytes ++ [colon]
  | tests s q _ => s.bytes ++ colon :: q.bytes
  | test s t _ => s.bytes ++ colon :: (t.bytes ++ [colon])

/-- The tests a filter selects: of the suite `S`, with the name `T`. -/
def Form.Selects (S T : Name) : Form → Prop
  | starts p => p.bytes <+: S.bytes
  | suite s => S.bytes = s.bytes
  | tests s q _ => S.bytes = s.bytes ∧ q.bytes <+: T.bytes
  | test s t _ => S.bytes = s.bytes ∧ T.bytes = t.bytes

/-- The suite's name only starts with the filter's, or the test's name is only a beginning of the
    filter's, and the rest fits. -/
def Form.Misled (S T : Name) : Form → Prop
  | starts _ => False
  | suite s => s.bytes <+: S.bytes ∧ s.bytes ≠ S.bytes
  | tests s q _ => s.bytes <+: S.bytes ∧ s.bytes ≠ S.bytes ∧ q.bytes <+: T.bytes
  | test s t _ =>
    s.bytes <+: S.bytes ∧ T.bytes <+: t.bytes ∧ (s.bytes ≠ S.bytes ∨ T.bytes ≠ t.bytes)

/-! ## The comparisons

Over so many bytes two strings are equal if their beginnings are. -/

/-- Strings without NULs compare equal over `n` bytes when these are the same. -/
theorem strncmp_eq_zero_iff {as bs : List UInt8} (ha : ∀ c ∈ as, c ≠ 0) (hb : ∀ c ∈ bs, c ≠ 0)
    (n : Nat) : strncmp as bs n = 0 ↔ as.take n = bs.take n := by
  have hne : ∀ {c : UInt8}, c ≠ 0 → (c.toNat : Int) ≠ 0 := by
    intro c hc hzero
    exact hc (UInt8.toNat_inj.mp (Int.natCast_eq_zero.mp hzero))
  induction n generalizing as bs with
  | zero => cases as <;> cases bs <;> simp [strncmp]
  | succ n ih =>
    -- The strings end together, one of them ends, or both have a byte.
    match as, bs with
    | [], [] => simp [strncmp]
    | [], b :: bs =>
      have hbne := hne (hb b List.mem_cons_self)
      simpa [strncmp] using hbne
    | a :: as, [] =>
      have hane := hne (ha a List.mem_cons_self)
      simpa [strncmp] using hane
    | a :: as, b :: bs =>
      have hrest := ih (fun c hc => ha c (List.mem_cons_of_mem a hc))
        (fun c hc => hb c (List.mem_cons_of_mem b hc))
      rw [strncmp, List.take_succ_cons, List.take_succ_cons, List.cons.injEq]
      by_cases hab : a = b
      · rw [if_pos hab, and_iff_right hab]
        exact hrest
      · rw [if_neg hab]
        refine iff_of_false (fun hzero => hab ?_) fun h => hab h.1
        exact UInt8.toNat_inj.mp (by omega)

theorem strchr_none {s : List UInt8} {c : UInt8} (hs : c ∉ s) : strchr s c = none := by
  have hdrop : s.dropWhile (· ≠ c) = [] := by
    rw [List.dropWhile_eq_nil_iff]
    intro x hx
    rw [decide_eq_true_eq]
    rintro rfl
    exact hs hx
  rw [strchr, hdrop]

theorem strchr_some {s : List UInt8} {c : UInt8} (hs : c ∉ s) (rest : List UInt8) :
    strchr (s ++ c :: rest) c = some (c :: rest) := by
  have hdrop : (s ++ c :: rest).dropWhile (· ≠ c) = c :: rest := by
    rw [List.dropWhile_append_of_pos]
    · simp
    · intro x hx
      rw [decide_eq_true_eq]
      rintro rfl
      exact hs hx
  rw [strchr, hdrop]

section Names

variable (S T : Name)

theorem Name.zero_free (s : Name) : ∀ c ∈ s.bytes, c ≠ 0 := fun c hc => (s.plain c hc).1

theorem Name.no_colon (s : Name) : colon ∉ s.bytes := fun hc => (s.plain _ hc).2 rfl

/-- What stands in front of the separator is compared over its own length. -/
theorem strncmp_front (s : Name) {rest : List UInt8} (hrest : ∀ c ∈ rest, c ≠ 0) :
    strncmp (s.bytes ++ rest) S.bytes s.bytes.length = 0 ↔ s.bytes <+: S.bytes := by
  have hfree : ∀ c ∈ s.bytes ++ rest, c ≠ 0 := List.forall_mem_append.mpr ⟨s.zero_free, hrest⟩
  rw [strncmp_eq_zero_iff hfree S.zero_free, List.take_left, List.prefix_iff_eq_take]

/-- The last part is compared over the length of the test's name. -/
theorem strncmp_last (t : Name) :
    strncmp T.bytes (t.bytes ++ [colon]) T.bytes.length = 0 ↔ T.bytes <+: t.bytes := by
  have hfree : ∀ c ∈ t.bytes ++ [colon], c ≠ 0 :=
    List.forall_mem_append.mpr ⟨t.zero_free, List.forall_mem_singleton.mpr (by decide)⟩
  rw [strncmp_eq_zero_iff T.zero_free hfree, List.take_length, ← List.prefix_iff_eq_take,
    List.prefix_concat_iff]
  refine or_iff_right fun hconcat => T.no_colon ?_
  rw [hconcat]
  exact List.mem_append_right _ (List.mem_singleton_self colon)

/-- **What the filter selects.** -/
theorem suiteFilter_starts (p : Name) :
    suiteFilter p.bytes ⟨S.bytes, T.bytes, 0⟩ = true ↔ p.bytes <+: S.bytes := by
  have hfront := strncmp_front S p (List.forall_mem_nil (· ≠ 0))
  rw [List.append_nil] at hfront
  simp only [suiteFilter, strchr_none p.no_colon, ne_eq, not_true_eq_false, if_false,
    decide_eq_true_eq, hfront]

/-- With a separator both parts count, the last one only if there is something behind it. -/
theorem suiteFilter_parts (s : Name) {rest : List UInt8} (hrest : ∀ c ∈ rest, c ≠ 0) :
    suiteFilter (s.bytes ++ colon :: rest) ⟨S.bytes, T.bytes, 0⟩ = true ↔
      s.bytes <+: S.bytes ∧ (rest ≠ [] → match strchr rest colon with
        | none => strncmp T.bytes rest rest.length = 0
        | some _ => strncmp T.bytes rest T.bytes.length = 0) := by
  have hfree : ∀ c ∈ colon :: rest, c ≠ 0 := List.forall_mem_cons.mpr ⟨by decide, hrest⟩
  have hlen : (s.bytes ++ colon :: rest).length - (colon :: rest).length = s.bytes.length := by
    rw [List.length_append, Nat.add_sub_cancel]
  have hmore : (s.bytes ++ colon :: rest).length > s.bytes.length + 1 ↔ rest ≠ [] := by
    rw [List.length_append, List.length_cons, ← List.length_pos_iff]
    omega
  simp only [suiteFilter, strchr_some s.no_colon, ne_eq, not_true_eq_false, if_false, hlen,
    strncmp_front S s hfree, hmore, List.tail_cons]
  by_cases hstarts : s.bytes <+: S.bytes
  · rw [if_pos hstarts, and_iff_right hstarts]
    by_cases hnil : rest = []
    · simp [hnil]
    · rw [if_pos hnil, imp_iff_right hnil]
      split <;> exact decide_eq_true_iff
  · simp [hstarts]

theorem suiteFilter_suite (s : Name) :
    suiteFilter (s.bytes ++ [colon]) ⟨S.bytes, T.bytes, 0⟩ = true ↔ s.bytes <+: S.bytes := by
  rw [suiteFilter_parts S T s (by simp)]
  exact and_iff_left fun hne => absurd rfl hne

theorem suiteFilter_tests (s q : Name) (hq : q.bytes ≠ []) :
    suiteFilter (s.bytes ++ colon :: q.bytes) ⟨S.bytes, T.bytes, 0⟩ = true ↔
      s.bytes <+: S.bytes ∧ q.bytes <+: T.bytes := by
  have hq' := strncmp_eq_zero_iff T.zero_free q.zero_free q.bytes.length
  rw [List.take_length, eq_comm (a := T.bytes.take q.bytes.length),
    ← List.prefix_iff_eq_take] at hq'
  rw [suiteFilter_parts S T s q.zero_free, imp_iff_right hq, strchr_none q.no_colon]
  exact and_congr_right fun _ => hq'

theorem suiteFilter_test (s t : Name) :
    suiteFilter (s.bytes ++ colon :: (t.bytes ++ [colon])) ⟨S.bytes, T.bytes, 0⟩ = true ↔
      s.bytes <+: S.bytes ∧ T.bytes <+: t.bytes := by
  have hfree : ∀ c ∈ t.bytes ++ [colon], c ≠ 0 :=
    List.forall_mem_append.mpr ⟨t.zero_free, List.forall_mem_singleton.mpr (by decide)⟩
  rw [suiteFilter_parts S T s hfree, imp_iff_right (by simp), strchr_some t.no_colon]
  exact and_congr_right fun _ => strncmp_last T t

end Names

/-- **The filter selects the tests it is documented to select, except where the suite's name only
    starts with the name in front of the separator, or the test's name is only a beginning of the
    last part, and the rest fits.** -/
theorem suiteFilter_documented_iff (form : Form) (S T : Name) :
    (suiteFilter form.text ⟨S.bytes, T.bytes, 0⟩ = true ↔ form.Selects S T) ↔
      ¬ form.Misled S T := by
  have hself : ∀ {s : Name}, S.bytes = s.bytes → s.bytes <+: S.bytes := by
    intro s heq
    rw [heq]
  -- Only a filter without a separator is what it is documented to be.
  cases form with
  | starts p =>
    simp only [Form.text, Form.Selects, Form.Misled, suiteFilter_starts, not_false_eq_true]
  | suite s =>
    simp only [Form.text, Form.Selects, Form.Misled, suiteFilter_suite]
    grind
  | tests s q hq =>
    simp only [Form.text, Form.Selects, Form.Misled, suiteFilter_tests S T s q hq]
    grind
  | test s t ht =>
    have hname : T.bytes = t.bytes → T.bytes <+: t.bytes := by
      intro heq
      rw [heq]
    simp only [Form.text, Form.Selects, Form.Misled, suiteFilter_test]
    grind

/-- A name of one character. -/
def Name.char (c : UInt8) (hc : c ≠ 0 ∧ c ≠ colon) : Name :=
  ⟨[c], List.forall_mem_singleton.mpr hc⟩

/-- A character in front of a name. -/
def Name.cons (c : UInt8) (hc : c ≠ 0 ∧ c ≠ colon) (s : Name) : Name :=
  ⟨c :: s.bytes, List.forall_mem_cons.mpr ⟨hc, s.plain⟩⟩

/-- `a:` selects the test `x` of the suite `ab`. -/
theorem suite_prefix_selected :
    ¬ (suiteFilter (Form.suite (.char 97 (by decide))).text ⟨[97, 98], [120], 0⟩ = true ↔
      (Form.suite (.char 97 (by decide))).Selects
        (.cons 97 (by decide) (.char 98 (by decide))) (.char 120 (by decide))) := by
  rw [iff_true_left (by decide)]
  simp [Form.Selects, Name.cons, Name.char]

end Test
end Inac
