import Inac.Options.Reader
import Mathlib.Data.List.Nodup

/-!
# The four forms of an option with a value

`--long=value`, `--long value`, `-short=value` and `-short value` do the same at any place among the
arguments where the first is not itself taken for a value: they set the option. Nothing holds a value
set: another argument for the option replaces it.
-/

namespace Inac
namespace Options

open Lib

/-! ## Tables

A table is one whose names tell its options apart. An option is looked up by its short name first
and by its long name if none has it. -/

/-- The names of an option. -/
def Opt.names (o : Opt) : List (List UInt8) :=
  [o.shortOpt.getD [], o.longOpt]

/-- A name that the scan takes for one. -/
structure Name (n : List UInt8) : Prop where
  nonempty : n ≠ []
  no_equals : 61 ∉ n
  no_dash : n.head? ≠ some 45
  short : n.length < 1024

/-- The names of a table are names, and no two are the same. -/
structure Table (table : List Opt) : Prop where
  names : ∀ o ∈ table, ∀ n ∈ o.names, Name n
  distinct : (table.flatMap Opt.names).Nodup

/-- A name is that of one option. -/
theorem Table.unique {table : List Opt} (h : Table table) {i j : Nat} {o o' : Opt}
    (hi : table[i]? = some o) (hj : table[j]? = some o') {n : List UInt8} (hn : n ∈ o.names)
    (hn' : n ∈ o'.names) : i = j := by
  have hpair := List.pairwise_iff_getElem.mp (List.nodup_flatMap.mp h.distinct).2
  obtain ⟨hilt, rfl⟩ := List.getElem?_eq_some_iff.mp hi
  obtain ⟨hjlt, rfl⟩ := List.getElem?_eq_some_iff.mp hj
  rcases Nat.lt_trichotomy i j with hlt | heq | hgt
  · exact absurd hn' (hpair i j hilt hjlt hlt hn)
  · exact heq
  · exact absurd hn (hpair j i hjlt hilt hgt hn')

/-- The options registered have the names and types of the table. -/
def Opt.key (o : Opt) : List UInt8 × List UInt8 × OptType :=
  (o.shortOpt.getD [], o.longOpt, o.type)

theorem register_key {getenv : List UInt8 → Option (List UInt8)} {table : List Opt}
    {opts : List Sopt} (h : register getenv table = some opts) :
    opts.map Sopt.key = table.map Opt.key := by
  induction table generalizing opts with
  | nil =>
    obtain rfl : [] = opts := Option.some.inj h
    rfl
  | cons o table ih =>
    rw [register, List.mapM_cons] at h
    obtain ⟨so, hso, hrest⟩ := Option.bind_eq_some_iff.mp h
    obtain ⟨rest, htable, hopts⟩ := Option.bind_eq_some_iff.mp hrest
    obtain ⟨value, -, rfl⟩ := Option.map_eq_some_iff.mp hso
    obtain rfl := Option.some.inj hopts
    rw [List.map_cons, List.map_cons, ih htable]
    rfl

theorem findIdx?_unique {α : Type} {l : List α} {p : α → Bool} {i : Nat} (hi : i < l.length)
    (hp : p l[i]) (h : ∀ j (hj : j < l.length), p l[j] → i = j) : l.findIdx? p = some i := by
  rw [List.findIdx?_eq_some_iff_getElem]
  refine ⟨hi, hp, ?_⟩
  intro j hj hfound
  exact absurd (h j (Nat.lt_trans hj hi) hfound) (Nat.ne_of_gt hj)

/-- **Each name gets its option.** -/
theorem Table.optGet_eq {table : List Opt} (h : Table table) {opts : List Sopt}
    (hkey : opts.map Sopt.key = table.map Opt.key) {i : Nat} {o : Opt} (ho : table[i]? = some o)
    {n : List UInt8} (hn : n ∈ o.names) : optGet opts n = some i := by
  have hname := h.names o (List.mem_of_getElem? ho) n hn
  obtain ⟨hi, rfl⟩ := List.getElem?_eq_some_iff.mp ho
  have hat : ∀ j (hj : j < table.length), n ∈ (table[j]).names → i = j := by
    intro j hj hmem
    exact h.unique ho (List.getElem?_eq_getElem hj) hn hmem
  rw [Options.optGet_eq, hkey, List.findIdx?_map, List.findIdx?_map]
  -- The name is the short one, or no option has it as its short one.
  by_cases hshort : (table[i]).shortOpt.getD [] = n
  · rw [findIdx?_unique hi]
    · exact decide_eq_true ⟨by rw [Opt.key, hshort]; exact hname.nonempty, hshort⟩
    · intro j hj hfound
      have hsame : (table[j]).shortOpt.getD [] = n := (of_decide_eq_true hfound).2
      exact hat j hj (hsame ▸ List.mem_cons_self)
  · have hlong : (table[i]).longOpt = n := by
      simp only [Opt.names, List.mem_cons, List.not_mem_nil, or_false] at hn
      exact (hn.resolve_left fun heq => hshort heq.symm).symm
    have hnone : table.findIdx?
        ((fun key => decide (key.1 ≠ [] ∧ key.1 = n)) ∘ Opt.key) = none := by
      rw [List.findIdx?_eq_none_iff]
      intro o' ho'
      obtain ⟨j, hj, rfl⟩ := List.getElem_of_mem ho'
      refine decide_eq_false ?_
      rintro ⟨-, hsame⟩
      have hj' : i = j := hat j hj (hsame ▸ List.mem_cons_self)
      subst hj'
      exact hshort hsame
    rw [hnone]
    refine findIdx?_unique hi (decide_eq_true hlong) ?_
    intro j hj hfound
    have hsame : (table[j]).longOpt = n := of_decide_eq_true hfound
    exact hat j hj (hsame ▸ List.mem_cons_of_mem _ List.mem_cons_self)

theorem isFlag_eq {table : List Opt} {opts : List Sopt}
    (hkey : opts.map Sopt.key = table.map Opt.key) {i : Nat} {o : Opt} (ho : table[i]? = some o) :
    isFlag opts i = decide (o.type = .flag) := by
  have hat := congrArg (·[i]?) hkey
  simp only [List.getElem?_map, ho, Option.map_some] at hat
  obtain ⟨so, hso, hsame⟩ := Option.map_eq_some_iff.mp hat
  rw [isFlag, hso, Option.any_some, ← (Prod.mk.inj (Prod.mk.inj hsame).2).2]

/-! ## What the scan makes of the forms

With a `=` the value is in the argument; without it the parser waits for one. -/

/-- Behind a name's start nothing moves it. -/
theorem scan_kept (head : List UInt8) (c : Nat) {s : Nat} (hs : s ≠ 0) :
    (scan head c s).s = s := by
  induction head, c, s using scan.induct with
  | case1 c s => rfl
  | case2 c rest ih => exact absurd rfl hs
  | case3 c rest hone ih => exact absurd rfl hs
  | case4 rest c s _ ih => rw [scan_dash hs, ih hs]
  | case5 rest c s => rw [scan_stop]
  | case6 b rest c s hdash hequals ih => rw [scan_other hdash hequals, ih hs]

theorem named_long {n : List UInt8} (h : Name n) : named (45 :: 45 :: n) = some n := by
  have hs : (scan (45 :: 45 :: n) 0 0).s = 2 := scan_kept n 2 (by decide)
  rw [named, hs, if_pos ⟨by decide, h.short⟩]
  rfl

theorem named_short {n : List UInt8} (h : Name n) : named (45 :: n) = some n := by
  have hone : ∀ rest, n = 45 :: rest → False := by
    rintro rest rfl
    exact h.no_dash rfl
  have hs : (scan (45 :: n) 0 0).s = 1 := by
    rw [scan_mark hone, scan_kept n _ (by decide)]
  rw [named, hs, if_pos ⟨by decide, h.short⟩]
  rfl

/-- The four forms of an option with a value, the one to be replaced first. -/
def forms (o : Opt) (value : List UInt8) : List (List (List UInt8)) :=
  [[45 :: 45 :: o.longOpt ++ 61 :: value],
    [45 :: 45 :: o.longOpt, value],
    [45 :: o.shortOpt.getD [] ++ 61 :: value],
    [45 :: o.shortOpt.getD [], value]]

/-- An argument of a name and a value behind a `=`, and one of the name alone with the value as the
    next one, do the same. -/
theorem exec_form {table : List Opt} (h : Table table) {opts : List Sopt}
    (hkey : opts.map Sopt.key = table.map Opt.key) {i : Nat} {o : Opt} (ho : table[i]? = some o)
    (hflag : o.type ≠ .flag) {value : List UInt8} (hvalue : value.length < 1024)
    {form : List (List UInt8)} (hform : form ∈ forms o value) :
    exec step (.ready opts) form = .ready (setValue opts i value) := by
  have hmem := List.mem_of_getElem? ho
  have hflag' : isFlag opts i = false := by
    rw [isFlag_eq hkey ho, decide_eq_false hflag]
  -- Whatever the name is written like: with `=` and without.
  have hset : ∀ {head n : List UInt8}, 61 ∉ head → named head = some n → n ∈ o.names →
      exec step (.ready opts) [head ++ 61 :: value] = .ready (setValue opts i value) ∧
      exec step (.ready opts) [head, value] = .ready (setValue opts i value) := by
    intro head n hhead hname hn
    have hget := h.optGet_eq hkey ho hn
    constructor
    · rw [exec_cons, exec_nil, step, act_equals hhead, hname]
      simp only [actOf, hget, hflag', hvalue, if_true]
      rfl
    · rw [exec_cons, exec_cons, exec_nil, step, act_head hhead, hname]
      simp only [actOf, hget, hflag']
      rfl
  have hlong := h.names o hmem o.longOpt (by simp [Opt.names])
  have hshort := h.names o hmem (o.shortOpt.getD []) (by simp [Opt.names])
  have hlong61 : 61 ∉ 45 :: 45 :: o.longOpt := by simp [hlong.no_equals]
  have hshort61 : 61 ∉ 45 :: o.shortOpt.getD [] := by simp [hshort.no_equals]
  have hlongSet := hset hlong61 (named_long hlong) (by simp [Opt.names])
  have hshortSet := hset hshort61 (named_short hshort) (by simp [Opt.names])
  simp only [forms, List.mem_cons, List.not_mem_nil, or_false] at hform
  rcases hform with rfl | rfl | rfl | rfl
  · exact hlongSet.1
  · exact hlongSet.2
  · exact hshortSet.1
  · exact hshortSet.2

/-- At any place the options are those of the table. -/
theorem exec_start_key {getenv : List UInt8 → Option (List UInt8)} {table : List Opt}
    {args : List (List UInt8)} {opts : List Sopt}
    (h : (exec step (start getenv table) args).opts = some opts) :
    opts.map Sopt.key = table.map Opt.key := by
  obtain ⟨opts₀, hstart, hsame⟩ := exec_key h
  rw [hsame]
  unfold start at hstart
  cases hreg : register getenv table with
  | none =>
    rw [hreg] at hstart
    exact nomatch hstart
  | some opts₁ =>
    rw [hreg] at hstart
    rw [← Option.some.inj hstart]
    exact register_key hreg

/-- A parser that is not about to take the next argument does the same on all four forms. -/
theorem exec_forms {getenv : List UInt8 → Option (List UInt8)} {table : List Opt} (h : Table table)
    {i : Nat} {o : Opt} (ho : table[i]? = some o) (hflag : o.type ≠ .flag) {value : List UInt8}
    (hvalue : value.length < 1024) {before : List (List UInt8)}
    (hfree : ¬ TakesNext getenv table before) {form : List (List UInt8)}
    (hform : form ∈ forms o value) :
    exec step (start getenv table) (before ++ form) =
      match exec step (start getenv table) before with
      | .ready opts => .ready (setValue opts i value)
      | p => p := by
  rw [exec_append]
  cases hphase : exec step (start getenv table) before with
  | ready opts =>
    have hkey := exec_start_key (congrArg Phase.opts hphase)
    exact exec_form h hkey ho hflag hvalue hform
  | value j opts => exact absurd ⟨j, opts, hphase⟩ hfree
  | failed opts => exact exec_failed opts form
  | fault => exact exec_fault form

/-- **The four forms agree.** At a place where it is not itself taken for a value, `--long=value` can be
    replaced by any of the others, and with each of them the option has the value if `ina_app_init`
    succeeds and no later argument sets it. -/
theorem forms_agree (getenv : List UInt8 → Option (List UInt8)) {table : List Opt} (h : Table table)
    {i : Nat} {o : Opt} (ho : table[i]? = some o) (hflag : o.type ≠ .flag) {value : List UInt8}
    (hvalue : value.length < 1024) (prog : List UInt8) {before : List (List UInt8)}
    (hfree : ¬ TakesNext getenv table before) (behind : List (List UInt8))
    {form : List (List UInt8)} (hform : form ∈ forms o value) :
    inaAppInit getenv table (prog :: (before ++ form ++ behind)) =
        inaAppInit getenv table
          (prog :: (before ++ [45 :: 45 :: o.longOpt ++ 61 :: value] ++ behind)) ∧
      ∀ opts, inaAppInit getenv table (prog :: (before ++ form ++ behind)) = .done (.ok ()) opts →
        Never step (Sets i) (exec step (start getenv table) (before ++ form)) behind →
        ∀ n ∈ o.names, inaOptGetString opts n = .ok (some value) := by
  -- All four forms lead to the same phase.
  have hexec := exec_forms h ho hflag hvalue hfree hform
  have hfirst : [45 :: 45 :: o.longOpt ++ 61 :: value] ∈ forms o value := List.mem_cons_self
  constructor
  · rw [inaAppInit_eq, inaAppInit_eq, exec_append step _ (before ++ form), hexec,
      exec_append step _ (before ++ [_]), exec_forms h ho hflag hvalue hfree hfirst]
  · intro opts hdone hnever n hn
    rw [inaAppInit_eq] at hdone
    have hopts := Phase.init_opts hdone
    have hget := h.optGet_eq (exec_start_key hopts) ho hn
    rw [inaOptGetString, hget]
    refine congrArg Except.ok ?_
    rw [exec_append, hexec] at hdone hopts
    rw [hexec] at hnever
    -- Nothing behind the form sets the option, so the value is still there.
    cases hphase : exec step (start getenv table) before with
    | ready opts₀ =>
      rw [hphase] at hopts hnever
      obtain ⟨opts₁, hopts₁, hsame⟩ := exec_valueAt hnever hopts
      have hkey := exec_start_key (congrArg Phase.opts hphase)
      have hi : i < opts₀.length := by
        have hlen := congrArg List.length hkey
        rw [List.length_map, List.length_map] at hlen
        exact hlen ▸ (List.getElem?_eq_some_iff.mp ho).1
      rw [← Option.some.inj hopts₁] at hsame
      exact hsame.trans (valueAt_setValue hi value)
    | value j opts₀ => exact absurd ⟨j, opts₀, hphase⟩ hfree
    | failed opts₀ =>
      rw [hphase, exec_failed] at hdone
      exact nomatch hdone
    | fault =>
      rw [hphase, exec_fault] at hdone
      exact nomatch hdone

/-- `-h` and `--host`, `-k` and `--keep-alive`. -/
def hostTable : List Opt :=
  [{ shortOpt := some [104], longOpt := [104, 111, 115, 116], type := .string, dft := none },
    { shortOpt := some [107], longOpt := [107, 101, 101, 112, 45, 97, 108, 105, 118, 101],
      type := .flag, dft := none }]

theorem hostTable_table : Table hostTable := by
  refine ⟨?_, by decide⟩
  intro o ho n hn
  simp only [hostTable, List.mem_cons, List.not_mem_nil, or_false] at ho
  rcases ho with rfl | rfl
  · simp only [Opt.names, Option.getD_some, List.mem_cons, List.not_mem_nil, or_false] at hn
    rcases hn with rfl | rfl
    · exact ⟨by decide, by decide, by decide, by decide⟩
    · exact ⟨by decide, by decide, by decide, by decide⟩
  · simp only [Opt.names, Option.getD_some, List.mem_cons, List.not_mem_nil, or_false] at hn
    rcases hn with rfl | rfl
    · exact ⟨by decide, by decide, by decide, by decide⟩
    · exact ⟨by decide, by decide, by decide, by decide⟩

/-- `-h -=` behind a flag, and a flag behind it. -/
theorem forms_agree_dash :
    inaAppInit (fun _ => none) hostTable
        ([] :: ([[45, 107]] ++ [[45, 104], [45, 61]] ++ [[45, 107]])) =
      inaAppInit (fun _ => none) hostTable
        ([] :: ([[45, 107]] ++ [[45, 45, 104, 111, 115, 116, 61, 45, 61]] ++ [[45, 107]])) := by
  have hfree : ¬ TakesNext (fun _ => none) hostTable [[45, 107]] := by
    rintro ⟨i, opts, h⟩
    exact nomatch h
  exact (forms_agree (fun _ => none) hostTable_table (i := 0) rfl (by decide) (by decide) []
    hfree [[45, 107]] (List.mem_cons_of_mem _ (List.mem_cons_of_mem _
      (List.mem_cons_of_mem _ List.mem_cons_self)))).1

/-- `--host=v --host=w`: the value is not `v` then. -/
theorem forms_replaced : ¬ ∀ (getenv : List UInt8 → Option (List UInt8)) (table : List Opt),
    Table table → ∀ (i : Nat) (o : Opt), table[i]? = some o → o.type ≠ .flag →
    ∀ (value : List UInt8), value.length < 1024 →
    ∀ (prog : List UInt8) (before behind : List (List UInt8)), ¬ TakesNext getenv table before →
    ∀ form ∈ forms o value, ∀ opts,
      inaAppInit getenv table (prog :: (before ++ form ++ behind)) = .done (.ok ()) opts →
      inaOptGetString opts o.longOpt = .ok (some value) := by
  intro h
  have hfree : ¬ TakesNext (fun _ => none) hostTable [] := by
    rintro ⟨i, opts, hphase⟩
    exact nomatch hphase
  have hinit : inaAppInit (fun _ => none) hostTable
      ([] :: ([] ++ [[45, 45, 104, 111, 115, 116, 61, 118]] ++
        [[45, 45, 104, 111, 115, 116, 61, 119]])) =
      .done (.ok ()) [⟨[104], [104, 111, 115, 116], .string, some [119]⟩,
        ⟨[107], [107, 101, 101, 112, 45, 97, 108, 105, 118, 101], .flag, none⟩] := by
    decide +kernel
  have hvalue := h (fun _ => none) hostTable hostTable_table 0 _ rfl (by decide) [118]
    (by decide) [] [] [[45, 45, 104, 111, 115, 116, 61, 119]] hfree _ List.mem_cons_self _ hinit
  exact absurd hvalue (by decide)

end Options
end Inac
