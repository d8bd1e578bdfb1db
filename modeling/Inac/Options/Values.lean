import Inac.LinkedList.Foreach
import Inac.Options.Forms

/-!
# The check behind the arguments

Behind the arguments `ina_app_init` goes over the list of the short options to see that each has a
value, flags apart. The callback makes an error for one that has none and returns success, the walk
over the list would not report a failure of it either, and options without a short name are not in
the list. So the check never fails, and what a parse that succeeds leaves without a value is exactly
what has neither a default nor an argument (`valued_iff`).
-/

namespace Inac
namespace Options

open Lib

/-! ## The list of the short options

It is built while the options are registered, one node after the other. -/

/-- The options that have a short name. -/
def shorts (opts : List Sopt) : List Nat :=
  (List.range opts.length).filter fun i => opts[i]?.any fun so => so.shortOpt ≠ []

/-- The calls of `ina_list_insert_tail` on `__sopt`: the node of an option and its data are the
    option itself. -/
def insertions (is : List Nat) : List (LinkedList.Op Nat) :=
  is.map fun i => .insertTail 0 i (some i)

/-- Memory before any option was registered. -/
def noOptions : LinkedList.Heap Nat where
  next _ := none
  prev _ := none
  data _ := none
  list _ := LinkedList.inaListNew true

/-- `__sopt`, list 0, once all options are registered. -/
def sopt (opts : List Sopt) : LinkedList.Heap Nat :=
  exec (LinkedList.step opts.length) noOptions (insertions (shorts opts))

/-! ## The check

The callback as it is, and the walk that calls it. -/

/-- `__ina_check_options`, with the thread's error code: the code is set, and nothing is returned of
    it. -/
def checkOptions (opts : List Sopt) (data : Option Nat) (code : Except Err Unit) :
    Except Err Unit × Except Err Unit :=
  if (data.bind (opts[·]?)).any fun so => so.type ≠ .flag ∧ so.value = none then
    (.ok (), .error .optionInvalid)
  else (.ok (), code)

/-- `if (INA_FAILED(ina_list_foreach(__sopt, __ina_check_options)))`. -/
def validate (opts : List Sopt) : Init :=
  let walk := LinkedList.inaListForeach opts.length (sopt opts) 0 (some (checkOptions opts)) (.ok ())
  match walk.out, walk.state with
  | .rc (.ok ()), _ => .done (.ok ()) opts
  | .rc (.error _), code => .done code opts
  | _, _ => .fault

/-- `ina_app_init` with an `argv`, the check included. -/
def appInit (getenv : List UInt8 → Option (List UInt8)) (table : List Opt)
    (argv : List (List UInt8)) : Init :=
  match inaAppInit getenv table argv with
  | .done (.ok ()) opts => validate opts
  | init => init

/-- Every option but a flag has a value. -/
def Valued (opts : List Sopt) : Prop :=
  ∀ so ∈ opts, so.type ≠ .flag → so.value ≠ none

/-! ## The walk

It ends with success, since the callback does. -/

theorem insertions_spec {is : List Nat} (hnodup : is.Nodup) (fuel : Nat)
    (s : Nat → List (LinkedList.Cell Nat))
    (hs : ∀ i ∈ is, ∀ k, i ∉ LinkedList.nodes (s k)) :
    Along LinkedList.spec (LinkedList.Allowed fuel) s (insertions is) ∧
      exec LinkedList.spec s (insertions is) 0 = s 0 ++ is.map fun i => ⟨i, some i⟩ := by
  induction is generalizing s with
  | nil => exact ⟨trivial, (List.append_nil _).symm⟩
  | cons i is ih =>
    obtain ⟨hi, hnodup'⟩ := List.nodup_cons.mp hnodup
    have hnext : ∀ j ∈ is, ∀ k,
        j ∉ LinkedList.nodes ((LinkedList.spec s (.insertTail 0 i (some i))).2 k) := by
      intro j hj k
      have hne : j ≠ i := fun heq => hi (heq ▸ hj)
      have hold := hs j (List.mem_cons_of_mem i hj)
      by_cases hk : k = 0
      · subst hk
        simpa [LinkedList.spec, LinkedList.nodes, hne] using hold 0
      · simpa [LinkedList.spec, hk] using hold k
    obtain ⟨halong, hexec⟩ := ih hnodup' _ hnext
    refine ⟨⟨hs i List.mem_cons_self, halong⟩, ?_⟩
    rw [insertions, List.map_cons, exec_cons]
    refine hexec.trans ?_
    simp [LinkedList.spec]

/-- The list holds the short options in the order of the table. -/
theorem sopt_chain (opts : List Sopt) :
    LinkedList.Chain (sopt opts) 0 ((shorts opts).map fun i => ⟨i, some i⟩) := by
  have hnodup : (shorts opts).Nodup := List.Nodup.filter _ List.nodup_range
  obtain ⟨halong, hexec⟩ := insertions_spec hnodup opts.length (fun _ => [])
    (fun i _ k => by simp [LinkedList.nodes])
  have hrun := LinkedList.list_run_spec opts.length noOptions _ (fun _ => ⟨rfl, rfl⟩) halong
  have hwf := hrun _ List.prefix_rfl 0
  rw [hexec, List.nil_append] at hwf
  exact hwf.chain

/-- **The check never fails.** -/
theorem validate_eq (opts : List Sopt) : validate opts = .done (.ok ()) opts := by
  have hchain := sopt_chain opts
  have hlen : ((shorts opts).map fun i => (⟨i, some i⟩ : LinkedList.Cell Nat)).length ≤
      opts.length := by
    rw [List.length_map]
    exact Nat.le_trans (List.length_filter_le _ _) (Nat.le_of_eq List.length_range)
  have hout : (LinkedList.inaListForeach opts.length (sopt opts) 0 (some (checkOptions opts))
      (.ok ())).out = .rc (.ok ()) := by
    rw [LinkedList.inaListForeach, LinkedList.foreachLoop_eq_arg
      (fun d (_ : Unit) => checkOptions opts d) () opts.length _ (.ok ()),
      LinkedList.foreachArgLoop_eq hchain.visits hchain.data hlen]
    rfl
  rw [validate]
  simp only [hout]

theorem appInit_eq (getenv : List UInt8 → Option (List UInt8)) (table : List Opt)
    (argv : List (List UInt8)) : appInit getenv table argv = inaAppInit getenv table argv := by
  unfold appInit
  split
  · rename_i opts hdone
    rw [hdone, validate_eq]
  · rfl

/-! ## Values that stay

A value is replaced and never taken away, so an option has one in the end if it had one or if some
argument has set it. -/

/-- An argument that sets an option leaves it with a value. -/
theorem step_sets {i : Nat} {p : Phase} {arg : List UInt8} {opts' : List Sopt}
    (hsets : Sets i p arg) (hi : i < opts'.length) (h : (step p arg).2.opts = some opts') :
    valueAt opts' i ≠ none := by
  have hset : ∀ {opts : List Sopt} {value : List UInt8}, setValue opts i value = opts' →
      valueAt opts' i ≠ none := by
    rintro opts value rfl
    rw [setValue, List.length_modify] at hi
    rw [valueAt_setValue hi]
    simp
  cases p with
  | ready opts =>
    obtain ⟨value, hact⟩ := hsets
    rw [step, hact] at h
    exact hset (Option.some.inj h)
  | value j opts =>
    obtain rfl : j = i := hsets
    exact hset (Option.some.inj h)
  | failed opts => cases hsets
  | fault => cases hsets

/-- So an option has a value at the end when it had one at the start or an argument sets it. -/
theorem exec_valueAt_iff {i : Nat} {args : List (List UInt8)} {p : Phase} {opts opts' : List Sopt}
    (hp : p.opts = some opts) (h : (exec step p args).opts = some opts') (hi : i < opts.length) :
    valueAt opts' i ≠ none ↔ valueAt opts i ≠ none ∨ ¬ Never step (Sets i) p args := by
  induction args generalizing p opts with
  | nil =>
    rw [exec_nil, hp] at h
    rw [Option.some.inj h]
    simp [Never]
  | cons arg args ih =>
    rw [exec_cons] at h
    obtain ⟨mid, hmid, -⟩ := exec_key h
    obtain ⟨opts₀, hopts₀, hsame⟩ := step_opts hmid
    obtain rfl : opts = opts₀ := Option.some.inj (hp.symm.trans hopts₀)
    have hlen : mid.length = opts.length := by
      rcases hsame with rfl | ⟨j, value, rfl, -⟩
      · rfl
      · exact List.length_modify _ _ _
    have hrest := ih hmid h (hlen ▸ hi)
    -- This argument sets it, or it leaves its value alone.
    by_cases hsets : Sets i p arg
    · have hmidvalue := step_sets hsets (hlen ▸ hi) hmid
      exact iff_of_true (hrest.mpr (.inl hmidvalue)) (.inr fun hnever => hnever.1 hsets)
    · have hkept : valueAt mid i = valueAt opts i := by
        rcases hsame with rfl | ⟨j, value, rfl, hj⟩
        · rfl
        · refine valueAt_setValue_ne ?_ value
          rintro rfl
          exact hsets hj
      rw [hrest, hkept, Never, and_iff_right hsets]

/-! ## Which options are left without a value

What is registered with none, and set by no argument. -/

/-- The parser looks at the argument and refuses it, or overflows the buffer. -/
def Refused : Phase → List UInt8 → Prop
  | .ready opts, arg => act opts arg = .invalid ∨ act opts arg = .overflow
  | _, _ => False

/-- The parse comes to its end: no default is faulty, and no argument is refused. -/
def Completes (getenv : List UInt8 → Option (List UInt8)) (table : List Opt)
    (args : List (List UInt8)) : Prop :=
  (∀ o ∈ table, dftValue getenv o ≠ none) ∧ Never step Refused (start getenv table) args

/-- The option has a default, or an argument sets it. -/
def Given (getenv : List UInt8 → Option (List UInt8)) (table : List Opt)
    (args : List (List UInt8)) (i : Nat) (o : Opt) : Prop :=
  (∃ value, dftValue getenv o = some (some value)) ∨
    ¬ Never step (Sets i) (start getenv table) args

theorem exec_done_iff {args : List (List UInt8)} {p : Phase}
    (hp : ∃ opts, p.init = .done (.ok ()) opts) :
    (∃ opts, (exec step p args).init = .done (.ok ()) opts) ↔ Never step Refused p args := by
  induction args generalizing p with
  | nil => simpa [Never] using hp
  | cons arg args ih =>
    rw [exec_cons, Never]
    cases p with
    | ready opts =>
      -- Only an argument that is refused or goes beyond the buffer ends the parse.
      cases hact : act opts arg with
      | skip =>
        have hstep : step (.ready opts) arg = ((), .ready opts) := by simp [step, hact]
        rw [hstep, ih ⟨opts, rfl⟩]
        simp [Refused, hact]
      | invalid =>
        have hstep : step (.ready opts) arg = ((), .failed opts) := by simp [step, hact]
        rw [hstep, exec_failed]
        simp [Refused, hact, Phase.init]
      | set i value =>
        have hstep : step (.ready opts) arg = ((), .ready (setValue opts i value)) := by
          simp [step, hact]
        rw [hstep, ih ⟨_, rfl⟩]
        simp [Refused, hact]
      | await i =>
        have hstep : step (.ready opts) arg = ((), .value i opts) := by simp [step, hact]
        rw [hstep, ih ⟨opts, rfl⟩]
        simp [Refused, hact]
      | overflow =>
        have hstep : step (.ready opts) arg = ((), .fault) := by simp [step, hact]
        rw [hstep, exec_fault]
        simp [Refused, hact, Phase.init]
    | value i opts =>
      rw [ih ⟨_, rfl⟩]
      simp [Refused]
    | failed opts => simp [Phase.init] at hp
    | fault => simp [Phase.init] at hp

/-- The options are registered when no default is faulty. -/
theorem register_iff (getenv : List UInt8 → Option (List UInt8)) (table : List Opt) :
    (∃ opts, register getenv table = some opts) ↔ ∀ o ∈ table, dftValue getenv o ≠ none := by
  induction table with
  | nil => simp [register]
  | cons o table ih =>
    rw [List.forall_mem_cons, ← ih, register, List.mapM_cons]
    cases dftValue getenv o with
    | none => simp
    | some value =>
      simp only [Option.map_some, ne_eq, reduceCtorEq, not_false_eq_true, true_and]
      cases hrest : table.mapM fun opt => (dftValue getenv opt).map fun value =>
          (⟨opt.shortOpt.getD [], opt.longOpt, opt.type, value⟩ : Sopt) with
      | none => simp [register, hrest]
      | some opts => simp [register, hrest]

/-- A parse succeeds exactly when it comes to its end. -/
theorem appInit_ok_iff (getenv : List UInt8 → Option (List UInt8)) (table : List Opt)
    (prog : List UInt8) (args : List (List UInt8)) :
    (∃ opts, appInit getenv table (prog :: args) = .done (.ok ()) opts) ↔
      Completes getenv table args := by
  rw [Completes, ← register_iff]
  simp only [appInit_eq, inaAppInit_eq]
  cases hreg : register getenv table with
  | none =>
    have hstart : start getenv table = .fault := by rw [start, hreg]
    simp [hstart, exec_fault, Phase.init]
  | some opts =>
    have hstart : start getenv table = .ready opts := by rw [start, hreg]
    rw [hstart, exec_done_iff ⟨opts, rfl⟩]
    simp

/-- The default of an option is its value before any argument. -/
theorem register_valueAt {getenv : List UInt8 → Option (List UInt8)} {table : List Opt}
    {opts : List Sopt} (h : register getenv table = some opts) {i : Nat} {o : Opt}
    (ho : table[i]? = some o) : dftValue getenv o = some (valueAt opts i) := by
  induction table generalizing opts i with
  | nil => simp at ho
  | cons o' table ih =>
    rw [register, List.mapM_cons] at h
    obtain ⟨so, hso, hrest⟩ := Option.bind_eq_some_iff.mp h
    obtain ⟨rest, htable, hopts⟩ := Option.bind_eq_some_iff.mp hrest
    obtain ⟨value, hvalue, rfl⟩ := Option.map_eq_some_iff.mp hso
    obtain rfl := Option.some.inj hopts
    cases i with
    | zero =>
      obtain rfl : o' = o := Option.some.inj ho
      exact hvalue
    | succ i => exact ih htable ho

/-- An option of the table among the options of a parse. -/
theorem getElem?_of_key {table : List Opt} {opts : List Sopt}
    (hkey : opts.map Sopt.key = table.map Opt.key) (i : Nat) :
    (∀ o, table[i]? = some o → ∃ so, opts[i]? = some so ∧ so.type = o.type) ∧
      (∀ so, opts[i]? = some so → ∃ o, table[i]? = some o ∧ so.type = o.type) := by
  have hat := congrArg (·[i]?) hkey
  simp only [List.getElem?_map] at hat
  constructor
  · intro o ho
    rw [ho] at hat
    obtain ⟨so, hso, hsame⟩ := Option.map_eq_some_iff.mp hat
    exact ⟨so, hso, (Prod.mk.inj (Prod.mk.inj hsame).2).2⟩
  · intro so hso
    rw [hso] at hat
    obtain ⟨o, ho, hsame⟩ := Option.map_eq_some_iff.mp hat.symm
    exact ⟨o, ho, ((Prod.mk.inj (Prod.mk.inj hsame).2).2).symm⟩

/-- What a parse that succeeds leaves of an option. -/
theorem appInit_valueAt {getenv : List UInt8 → Option (List UInt8)} {table : List Opt}
    {prog : List UInt8} {args : List (List UInt8)} {opts : List Sopt}
    (h : appInit getenv table (prog :: args) = .done (.ok ()) opts) {i : Nat} {o : Opt}
    (ho : table[i]? = some o) :
    (∃ so, opts[i]? = some so ∧ so.type = o.type ∧
      (so.value ≠ none ↔ Given getenv table args i o)) := by
  rw [appInit_eq, inaAppInit_eq] at h
  have hopts := Phase.init_opts h
  obtain ⟨so, hso, htype⟩ := (getElem?_of_key (exec_start_key hopts) i).1 o ho
  refine ⟨so, hso, htype, ?_⟩
  cases hreg : register getenv table with
  | none =>
    rw [start, hreg, exec_fault] at hopts
    cases hopts
  | some opts₀ =>
    have hstart : start getenv table = .ready opts₀ := by rw [start, hreg]
    have hlt : i < opts₀.length := by
      rw [← List.length_map Sopt.key, register_key hreg, List.length_map]
      exact (List.getElem?_eq_some_iff.mp ho).1
    have hvalue := exec_valueAt_iff (i := i) (congrArg Phase.opts hstart) hopts hlt
    have hso' : valueAt opts i = so.value := by rw [valueAt, hso, Option.bind_some]
    rw [← hso', hvalue, Given, register_valueAt hreg ho]
    simp [Option.ne_none_iff_exists']

end Options
end Inac
