import Inac.Lib.Run
import Inac.Options.Defs

/-!
# Reading the arguments one by one

Between two arguments the parser is in one of four phases: ready for any argument, about to take the
next one for a value, failed, or beyond its buffer. This file says what one argument does in each,
that a run over these phases is `parseArgs`, and what the scan makes of an argument: of the bytes
before its first `=` the position where the name starts, and nothing of those behind.
-/

namespace Inac
namespace Options

open Lib

/-! ## The scan

One equation for each kind of byte that it meets. The name begins behind the first dash, or the
first two, and only a `=` ends the scan early. -/

/-- The name that an argument carries, given its bytes before the first `=`. -/
def named (head : List UInt8) : Option (List UInt8) :=
  if 0 < (scan head 0 0).s ∧ head.length - (scan head 0 0).s < 1024 then
    some (head.drop (scan head 0 0).s)
  else none

/-- A first `-` with no other one behind it. -/
theorem scan_mark {rest : List UInt8} (h : ∀ rest', rest = 45 :: rest' → False) (c : Nat) :
    scan (45 :: rest) c 0 = scan rest (c + 1) (c + 1) := by
  rw [scan, if_pos rfl, if_pos rfl]
  exact h

/-- Any further `-` is a byte like others. -/
theorem scan_dash {s : Nat} (hs : s ≠ 0) (rest : List UInt8) (c : Nat) :
    scan (45 :: rest) c s = scan rest (c + 1) s := by
  rw [scan.eq_def]
  exact (if_pos rfl).trans (if_neg hs)

theorem scan_other {b : UInt8} (hdash : b ≠ 45) (hequals : b ≠ 61) (rest : List UInt8) (c s : Nat) :
    scan (b :: rest) c s = scan rest (c + 1) s := by
  rw [scan.eq_def]
  exact (if_neg hdash).trans (if_neg hequals)

/-- The scan stops at a `=`. -/
theorem scan_stop (rest : List UInt8) (c s : Nat) : scan (61 :: rest) c s = ⟨c, s, c, c + 1⟩ := by
  rw [scan.eq_def]
  exact (if_neg (by decide)).trans (if_pos rfl)

/-- Without a `=` the scan goes to the end. -/
theorem scan_head {head : List UInt8} (h : 61 ∉ head) (c s : Nat) :
    scan head c s = ⟨c + head.length, (scan head c s).s, 0, 0⟩ := by
  induction head, c, s using scan.induct with
  | case1 c s => rfl
  | case2 c rest ih =>
    have hrest : 61 ∉ rest := fun hmem => h (by simp [hmem])
    change scan rest (c + 2) (c + 2) = ⟨_, (scan rest (c + 2) (c + 2)).s, 0, 0⟩
    rw [ih hrest, List.length_cons, List.length_cons]
    simp only [Scan.mk.injEq, and_true]
    omega
  | case3 c rest hone ih =>
    rw [scan_mark hone, ih (List.not_mem_of_not_mem_cons h), List.length_cons]
    simp only [Scan.mk.injEq, and_true]
    omega
  | case4 rest c s hs ih =>
    rw [scan_dash hs, ih (List.not_mem_of_not_mem_cons h), List.length_cons]
    simp only [Scan.mk.injEq, and_true]
    omega
  | case5 rest c s => exact absurd List.mem_cons_self h
  | case6 b rest c s hdash hequals ih =>
    rw [scan_other hdash hequals, ih (List.not_mem_of_not_mem_cons h), List.length_cons]
    simp only [Scan.mk.injEq, and_true]
    omega

/-- And with one to the first, whatever is behind it. -/
theorem scan_equals {head : List UInt8} (h : 61 ∉ head) (tail : List UInt8) (c s : Nat) :
    scan (head ++ 61 :: tail) c s =
      ⟨c + head.length, (scan head c s).s, c + head.length, c + head.length + 1⟩ := by
  induction head, c, s using scan.induct with
  | case1 c s => exact scan_stop tail c s
  -- The first dash, and another one behind it.
  | case2 c rest ih =>
    have hrest : 61 ∉ rest := fun hmem => h (by simp [hmem])
    change scan (rest ++ 61 :: tail) (c + 2) (c + 2) = ⟨_, (scan rest (c + 2) (c + 2)).s, _, _⟩
    rw [ih hrest, List.length_cons, List.length_cons]
    simp only [Scan.mk.injEq, true_and]
    omega
  -- The first dash alone.
  | case3 c rest hone ih =>
    have hone' : ∀ rest', rest ++ 61 :: tail = 45 :: rest' → False := by
      intro rest' heq
      cases rest with
      | nil => exact absurd (List.cons.inj heq).1 (by decide)
      | cons b rest => exact hone rest ((List.cons.inj heq).1 ▸ rfl)
    rw [List.cons_append, scan_mark hone', scan_mark hone, ih (List.not_mem_of_not_mem_cons h),
      List.length_cons]
    simp only [Scan.mk.injEq, true_and]
    omega
  | case4 rest c s hs ih =>
    rw [List.cons_append, scan_dash hs, scan_dash hs, ih (List.not_mem_of_not_mem_cons h),
      List.length_cons]
    simp only [Scan.mk.injEq, true_and]
    omega
  | case5 rest c s => exact absurd List.mem_cons_self h
  | case6 b rest c s hdash hequals ih =>
    rw [List.cons_append, scan_other hdash hequals, scan_other hdash hequals,
      ih (List.not_mem_of_not_mem_cons h), List.length_cons]
    simp only [Scan.mk.injEq, true_and]
    omega

/-! ## What an argument does

It is skipped, refused, sets an option, waits for a value, or goes beyond the buffer. -/

/-- What an argument does to the options when it is not taken for a value. -/
inductive Act where
  | skip
  | invalid
  | set (i : Nat) (value : List UInt8)
  | await (i : Nat)
  | overflow
  deriving DecidableEq

/-- An argument with this name and, behind a `=`, this value. -/
def actOf (opts : List Sopt) (name : Option (List UInt8)) (value : Option (List UInt8)) : Act :=
  match name with
  | none => .skip
  | some name =>
    match optGet opts name with
    | none => .invalid
    | some i =>
      if isFlag opts i then .set i on
      else
        match value with
        | none => .await i
        | some value => if value.length < 1024 then .set i value else .overflow

/-- The bytes before the first `=`, and those behind it if there is one. -/
def cut : List UInt8 → List UInt8 × Option (List UInt8)
  | [] => ([], none)
  | b :: rest => if b = 61 then ([], some rest) else ((b :: (cut rest).1), (cut rest).2)

theorem cut_head {head : List UInt8} (h : 61 ∉ head) : cut head = (head, none) := by
  induction head with
  | nil => rfl
  | cons b head ih =>
    have hb : b ≠ 61 := fun hb => h (hb ▸ List.mem_cons_self)
    rw [cut, if_neg hb, ih (List.not_mem_of_not_mem_cons h)]

theorem cut_equals {head : List UInt8} (h : 61 ∉ head) (tail : List UInt8) :
    cut (head ++ 61 :: tail) = (head, some tail) := by
  induction head with
  | nil => rfl
  | cons b head ih =>
    have hb : b ≠ 61 := fun hb => h (hb ▸ List.mem_cons_self)
    rw [List.cons_append, cut, if_neg hb, ih (List.not_mem_of_not_mem_cons h)]

theorem cut_cases (arg : List UInt8) :
    61 ∉ arg ∨ ∃ head tail, 61 ∉ head ∧ arg = head ++ 61 :: tail := by
  by_cases h : 61 ∈ arg
  · obtain ⟨head, tail, harg, hhead⟩ := List.eq_append_cons_of_mem h
    exact .inr ⟨head, tail, hhead, harg⟩
  · exact .inl h

def act (opts : List Sopt) (arg : List UInt8) : Act :=
  actOf opts (named (cut arg).1) (cut arg).2

theorem act_head {head : List UInt8} (h : 61 ∉ head) (opts : List Sopt) :
    act opts head = actOf opts (named head) none := by
  rw [act, cut_head h]

theorem act_equals {head : List UInt8} (h : 61 ∉ head) (tail : List UInt8) (opts : List Sopt) :
    act opts (head ++ 61 :: tail) = actOf opts (named head) (some tail) := by
  rw [act, cut_equals h]

/-- The name between the indexes that a scan has found. -/
def Scan.name (sc : Scan) (arg : List UInt8) : Option (List UInt8) :=
  let e := if sc.e = 0 then sc.c else sc.e
  if 0 < sc.s ∧ e - sc.s < 1024 then some ((arg.drop sc.s).take (e - sc.s)) else none

/-- And the value behind the last one, if it is set. -/
def Scan.value (sc : Scan) (arg : List UInt8) : Option (List UInt8) :=
  if sc.vs = 0 then none else some (arg.drop sc.vs)

theorem name_head {head : List UInt8} (h : 61 ∉ head) :
    (scan head 0 0).name head = named head := by
  have hname : (head.drop (scan head 0 0).s).take (head.length - (scan head 0 0).s) =
      head.drop (scan head 0 0).s := by
    rw [← List.length_drop, List.take_length]
  unfold named
  obtain ⟨s, hs⟩ : ∃ s, (scan head 0 0).s = s := ⟨_, rfl⟩
  have hscan := scan_head h 0 0
  rw [hs, Nat.zero_add] at hscan
  rw [hs] at hname ⊢
  simp only [hscan, Scan.name, if_true, hname]

theorem name_equals {head : List UInt8} (h : 61 ∉ head) (tail : List UInt8) :
    (scan (head ++ 61 :: tail) 0 0).name (head ++ 61 :: tail) = named head := by
  have hname : ((head ++ 61 :: tail).drop (scan head 0 0).s).take
      (head.length - (scan head 0 0).s) = head.drop (scan head 0 0).s := by
    rw [← List.drop_take, List.take_left]
  rw [scan_equals h, Nat.zero_add]
  simp only [Scan.name, ite_self, hname, named]

/-- The scan finds the name and the value of an argument. -/
theorem act_eq_scan (opts : List Sopt) (arg : List UInt8) :
    act opts arg = actOf opts ((scan arg 0 0).name arg) ((scan arg 0 0).value arg) := by
  rcases cut_cases arg with harg | ⟨head, tail, hhead, rfl⟩
  · have hvalue : (scan arg 0 0).value arg = none := by
      rw [scan_head harg]
      rfl
    rw [act_head harg, name_head harg, hvalue]
  · have hvalue : (scan (head ++ 61 :: tail) 0 0).value (head ++ 61 :: tail) = some tail := by
      rw [scan_equals hhead, Scan.value, if_neg (Nat.succ_ne_zero _), Nat.zero_add,
        List.drop_append, List.drop_of_length_le (Nat.le_succ _), Nat.add_sub_cancel_left]
      rfl
    rw [act_equals hhead, name_equals hhead, hvalue]

/-- **One argument of the loop.** -/
theorem parseArgs_cons (arg : List UInt8) (rest : List (List UInt8)) (opts : List Sopt) :
    parseArgs (arg :: rest) opts =
      match act opts arg with
      | .skip => parseArgs rest opts
      | .invalid => .done (.error .optionInvalid) opts
      | .set i value => parseArgs rest (setValue opts i value)
      | .await i =>
        match rest with
        | [] => .done (.ok ()) opts
        | value :: rest => parseArgs rest (setValue opts i value)
      | .overflow => .fault := by
  rw [act_eq_scan, parseArgs.eq_def]
  simp only [Scan.name]
  generalize scan arg 0 0 = sc
  generalize (if sc.e = 0 then sc.c else sc.e) = e
  -- There is a name, and it fits the buffer.
  by_cases hmarked : 0 < sc.s ∧ e - sc.s < 1024
  · rw [if_pos hmarked, if_pos hmarked]
    simp only [actOf]
    cases optGet opts ((arg.drop sc.s).take (e - sc.s)) with
    | none => rfl
    | some i =>
      by_cases hflag : isFlag opts i
      · simp only [hflag, if_true]
      · by_cases hvs : sc.vs = 0
        · simp only [hflag, hvs, Scan.value, if_true]
          cases rest <;> rfl
        · by_cases hfits : (arg.drop sc.vs).length < 1024
          · simp only [hflag, hvs, Scan.value, hfits, if_true, if_false]
            rfl
          · simp only [hflag, hvs, Scan.value, hfits, if_false]
            rfl
  · rw [if_neg hmarked, if_neg hmarked]
    rfl

/-! ## Phases

With the phase as the state the parser is a machine, and the results about runs apply to it. -/

/-- Where the parser is between two arguments: ready for any, about to take the next one for the
    value of an option, failed, or behind the end of its buffer. -/
inductive Phase where
  | ready (opts : List Sopt)
  | value (i : Nat) (opts : List Sopt)
  | failed (opts : List Sopt)
  | fault
  deriving DecidableEq

/-- One argument. -/
def step : Phase → List UInt8 → Unit × Phase
  | .ready opts, arg =>
    match act opts arg with
    | .skip => ((), .ready opts)
    | .invalid => ((), .failed opts)
    | .set i value => ((), .ready (setValue opts i value))
    | .await i => ((), .value i opts)
    | .overflow => ((), .fault)
  | .value i opts, arg => ((), .ready (setValue opts i arg))
  | .failed opts, _ => ((), .failed opts)
  | .fault, _ => ((), .fault)

/-- What the parser returns when there are no more arguments. -/
def Phase.init : Phase → Init
  | .ready opts => .done (.ok ()) opts
  | .value _ opts => .done (.ok ()) opts
  | .failed opts => .done (.error .optionInvalid) opts
  | .fault => .fault

theorem exec_failed (opts : List Sopt) (args : List (List UInt8)) :
    exec step (.failed opts) args = .failed opts := by
  induction args with
  | nil => rfl
  | cons arg args ih => exact ih

theorem exec_fault (args : List (List UInt8)) : exec step .fault args = .fault := by
  induction args with
  | nil => rfl
  | cons arg args ih => exact ih

/-- **The parser goes through the phases.** -/
theorem parseArgs_eq : ∀ (args : List (List UInt8)) (opts : List Sopt),
    parseArgs args opts = (exec step (.ready opts) args).init
  | [], _ => rfl
  | arg :: rest, opts => by
    rw [parseArgs_cons, exec_cons, step]
    cases act opts arg with
    | skip => exact parseArgs_eq rest opts
    | invalid => exact (congrArg Phase.init (exec_failed opts rest)).symm
    | set i value => exact parseArgs_eq rest (setValue opts i value)
    | await i =>
      match rest with
      | [] => rfl
      | value :: rest => exact parseArgs_eq rest (setValue opts i value)
    | overflow => exact (congrArg Phase.init (exec_fault rest)).symm

/-- The phase in which the first argument finds the parser. -/
def start (getenv : List UInt8 → Option (List UInt8)) (table : List Opt) : Phase :=
  match register getenv table with
  | none => .fault
  | some opts => .ready opts

theorem inaAppInit_eq (getenv : List UInt8 → Option (List UInt8)) (table : List Opt)
    (prog : List UInt8) (args : List (List UInt8)) :
    inaAppInit getenv table (prog :: args) = (exec step (start getenv table) args).init := by
  rw [inaAppInit, start, List.tail_cons]
  cases register getenv table with
  | none => exact (congrArg Phase.init (exec_fault args)).symm
  | some opts => exact parseArgs_eq args opts

/-- Behind these arguments the next one is taken for the value of an option. -/
def TakesNext (getenv : List UInt8 → Option (List UInt8)) (table : List Opt)
    (args : List (List UInt8)) : Prop :=
  ∃ i opts, exec step (start getenv table) args = .value i opts

/-! ## What no argument changes

The names, the types and the order of the options stay as they were registered, so what an argument
means is the same at every place. -/

/-- The names and the type of an option. -/
def Sopt.key (so : Sopt) : List UInt8 × List UInt8 × OptType :=
  (so.shortOpt, so.longOpt, so.type)

theorem map_key_setValue (opts : List Sopt) (i : Nat) (value : List UInt8) :
    (setValue opts i value).map Sopt.key = opts.map Sopt.key := by
  refine List.ext_getElem? fun j => ?_
  rw [List.getElem?_map, List.getElem?_map, setValue, List.getElem?_modify]
  cases opts[j]? with
  | none => rfl
  | some so =>
    by_cases hj : i = j
    · simp only [hj, if_true, Option.map_some]
      rfl
    · simp only [hj, if_false, Option.map_some]
      rfl

/-- The option of a name depends on the names only. -/
theorem optGet_eq (opts : List Sopt) (name : List UInt8) :
    optGet opts name =
      match (opts.map Sopt.key).findIdx? fun key => key.1 ≠ [] ∧ key.1 = name with
      | some i => some i
      | none => (opts.map Sopt.key).findIdx? fun key => key.2.1 = name := by
  rw [List.findIdx?_map, List.findIdx?_map]
  rfl

theorem optGet_congr {opts opts' : List Sopt} (h : opts.map Sopt.key = opts'.map Sopt.key)
    (name : List UInt8) : optGet opts name = optGet opts' name := by
  rw [optGet_eq, optGet_eq, h]

theorem isFlag_congr {opts opts' : List Sopt} (h : opts.map Sopt.key = opts'.map Sopt.key)
    (i : Nat) : isFlag opts i = isFlag opts' i := by
  have hkey : ∀ opts : List Sopt,
      isFlag opts i = (opts.map Sopt.key)[i]?.any fun key => key.2.2 = .flag := by
    intro opts
    rw [isFlag, List.getElem?_map]
    cases opts[i]? <;> rfl
  rw [hkey, hkey, h]

theorem actOf_congr {opts opts' : List Sopt} (h : opts.map Sopt.key = opts'.map Sopt.key)
    (name value : Option (List UInt8)) : actOf opts name value = actOf opts' name value := by
  simp only [actOf, optGet_congr h, isFlag_congr h]

theorem act_congr {opts opts' : List Sopt} (h : opts.map Sopt.key = opts'.map Sopt.key)
    (arg : List UInt8) : act opts arg = act opts' arg :=
  actOf_congr h _ _

/-- A name found is that of an option. -/
theorem optGet_lt {opts : List Sopt} {name : List UInt8} {i : Nat} (h : optGet opts name = some i) :
    i < opts.length := by
  unfold optGet at h
  split at h
  · rename_i j hshort
    rw [← Option.some.inj h]
    exact (List.findIdx?_eq_some_iff_getElem.mp hshort).1
  · exact (List.findIdx?_eq_some_iff_getElem.mp h).1

/-! ## Values

The one thing that changes. -/

/-- The value of the option at an index. -/
def valueAt (opts : List Sopt) (i : Nat) : Option (List UInt8) :=
  opts[i]?.bind Sopt.value

theorem valueAt_setValue {opts : List Sopt} {i : Nat} (h : i < opts.length)
    (value : List UInt8) : valueAt (setValue opts i value) i = some value := by
  rw [valueAt, setValue, List.getElem?_modify_eq, List.getElem?_eq_getElem h]
  rfl

theorem valueAt_setValue_ne {opts : List Sopt} {i j : Nat} (h : i ≠ j) (value : List UInt8) :
    valueAt (setValue opts i value) j = valueAt opts j := by
  rw [valueAt, setValue, List.getElem?_modify_ne _ _ h, valueAt]

/-- Setting the value that is there changes nothing. -/
theorem setValue_eq_self {opts : List Sopt} {i : Nat} {value : List UInt8}
    (h : valueAt opts i = some value) : setValue opts i value = opts := by
  refine List.ext_getElem? fun j => ?_
  rw [setValue, List.getElem?_modify]
  by_cases hj : i = j
  · obtain ⟨so, hso, hvalue⟩ := Option.bind_eq_some_iff.mp h
    rw [← hj, hso, ← hvalue]
    simp
  · simp [hj]

/-! ## What an argument can change

At most one value, and only if the argument sets the option (`Sets`). -/

/-- The argument sets the option at `i`. -/
def Sets (i : Nat) : Phase → List UInt8 → Prop
  | .ready opts, arg => ∃ value, act opts arg = .set i value
  | .value j _, _ => j = i
  | _, _ => False

/-- The options, unless the parser is beyond its buffer. -/
def Phase.opts : Phase → Option (List Sopt)
  | .ready opts => some opts
  | .value _ opts => some opts
  | .failed opts => some opts
  | .fault => none

theorem Phase.init_opts {p : Phase} {rc : Except Err Unit} {opts : List Sopt}
    (h : p.init = .done rc opts) : p.opts = some opts := by
  cases p with
  | ready opts' => exact congrArg some (Init.done.inj h).2
  | value i opts' => exact congrArg some (Init.done.inj h).2
  | failed opts' => exact congrArg some (Init.done.inj h).2
  | fault => exact Init.noConfusion h

/-- **One argument changes the value of the option that it sets**, and nothing else. -/
theorem step_opts {p : Phase} {arg : List UInt8} {opts' : List Sopt}
    (h : (step p arg).2.opts = some opts') :
    ∃ opts, p.opts = some opts ∧
      (opts' = opts ∨ ∃ i value, opts' = setValue opts i value ∧ Sets i p arg) := by
  cases p with
  | ready opts =>
    refine ⟨opts, rfl, ?_⟩
    rw [step] at h
    cases hact : act opts arg with
    | skip =>
      rw [hact] at h
      exact .inl (Option.some.inj h).symm
    | invalid =>
      rw [hact] at h
      exact .inl (Option.some.inj h).symm
    | set i value =>
      rw [hact] at h
      exact .inr ⟨i, value, (Option.some.inj h).symm, value, hact⟩
    | await i =>
      rw [hact] at h
      exact .inl (Option.some.inj h).symm
    | overflow =>
      rw [hact] at h
      exact nomatch h
  | value i opts => exact ⟨opts, rfl, .inr ⟨i, arg, (Option.some.inj h).symm, rfl⟩⟩
  | failed opts => exact ⟨opts, rfl, .inl (Option.some.inj h).symm⟩
  | fault => exact nomatch h

/-- Over a run the names and types stay. -/
theorem exec_key {args : List (List UInt8)} {p : Phase} {opts' : List Sopt}
    (h : (exec step p args).opts = some opts') :
    ∃ opts, p.opts = some opts ∧ opts'.map Sopt.key = opts.map Sopt.key := by
  induction args generalizing p with
  | nil => exact ⟨opts', h, rfl⟩
  | cons arg args ih =>
    obtain ⟨mid, hmid, hkey⟩ := ih h
    obtain ⟨opts, hopts, rfl | ⟨i, value, rfl, -⟩⟩ := step_opts hmid
    · exact ⟨mid, hopts, hkey⟩
    · exact ⟨opts, hopts, hkey.trans (map_key_setValue opts i value)⟩

/-- And the value of an option that no argument sets. -/
theorem exec_valueAt {i : Nat} {args : List (List UInt8)} {p : Phase} {opts' : List Sopt}
    (hnever : Never step (Sets i) p args) (h : (exec step p args).opts = some opts') :
    ∃ opts, p.opts = some opts ∧ valueAt opts' i = valueAt opts i := by
  induction args generalizing p with
  | nil => exact ⟨opts', h, rfl⟩
  | cons arg args ih =>
    obtain ⟨mid, hmid, hvalue⟩ := ih hnever.2 h
    obtain ⟨opts, hopts, rfl | ⟨j, value, rfl, hsets⟩⟩ := step_opts hmid
    · exact ⟨mid, hopts, hvalue⟩
    · have hne : j ≠ i := by
        rintro rfl
        exact hnever.1 hsets
      exact ⟨opts, hopts, hvalue.trans (valueAt_setValue_ne hne value)⟩

end Options
end Inac
