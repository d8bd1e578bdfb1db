import Inac.Options.Reader

/-!
# Arguments that are no options

The scan takes the first `-` before any `=` for the start of a name, wherever it stands: the name of
`my-file` is `file`. An argument is without effect when it carries no name in this sense, and hardly
ever else.
-/

namespace Inac
namespace Options

open Lib

/-- Wherever it is not taken for a value, the argument could as well not be there. -/
def Harmless (getenv : List UInt8 → Option (List UInt8)) (table : List Opt) (arg : List UInt8) :
    Prop :=
  ∀ (prog : List UInt8) (before behind : List (List UInt8)), ¬ TakesNext getenv table before →
    inaAppInit getenv table (prog :: (before ++ arg :: behind)) =
      inaAppInit getenv table (prog :: (before ++ behind))

/-- The name is that of a flag that is on before any argument. -/
def OnAlready (opts : List Sopt) (name : List UInt8) : Prop :=
  ∃ i, optGet opts name = some i ∧ isFlag opts i = true ∧ valueAt opts i = some on

/-! ## Without effect

At any place at which the parser does not wait for a value, the whole result is the same without the
argument. -/

/-- The flag at `i` is on, and not about to get another value. -/
def On (i : Nat) : Phase → Prop
  | .ready opts => isFlag opts i = true ∧ valueAt opts i = some on
  | .value j opts => j ≠ i ∧ isFlag opts i = true ∧ valueAt opts i = some on
  | .failed _ => True
  | .fault => True

/-- An argument with a name does nothing but set that option or wait for its value; a flag it sets to
    `on`. -/
theorem actOf_cases (opts : List Sopt) (name value : Option (List UInt8)) :
    actOf opts name value = .skip ∨ actOf opts name value = .invalid ∨
      actOf opts name value = .overflow ∨
      ∃ i, isFlag opts i = true ∧ actOf opts name value = .set i on ∨
        isFlag opts i = false ∧
          (actOf opts name value = .await i ∨ ∃ v, actOf opts name value = .set i v) := by
  unfold actOf
  cases name with
  | none => exact .inl rfl
  | some name =>
    cases hget : optGet opts name with
    | none => exact .inr (.inl (by simp only [hget]))
    | some i =>
      by_cases hflag : isFlag opts i = true
      · exact .inr (.inr (.inr ⟨i, .inl ⟨hflag, by simp only [hget, hflag, if_true]⟩⟩))
      · have hflag' := (Bool.not_eq_true _).mp hflag
        cases value with
        | none =>
          exact .inr (.inr (.inr ⟨i, .inr ⟨hflag', .inl (by simp [hget, hflag'])⟩⟩))
        | some v =>
          by_cases hfits : v.length < 1024
          · exact .inr (.inr (.inr ⟨i, .inr ⟨hflag', .inr ⟨v, by simp [hget, hflag', hfits]⟩⟩⟩))
          · exact .inr (.inr (.inl (by simp [hget, hflag', hfits])))

/-- **A flag that is on stays on.** -/
theorem On.step {i : Nat} {p : Phase} (h : On i p) (arg : List UInt8) :
    On i (step p arg).2 := by
  -- A value that is set is that of another option, or is `on` again.
  have hset : ∀ {opts : List Sopt} {j : Nat} {value : List UInt8}, isFlag opts i = true →
      valueAt opts i = some on → (j = i → value = on) →
      isFlag (setValue opts j value) i = true ∧ valueAt (setValue opts j value) i = some on := by
    intro opts j value hflag hon hsame
    refine ⟨(isFlag_congr (map_key_setValue opts j value) i).trans hflag, ?_⟩
    by_cases hj : j = i
    · rw [hsame hj, hj, setValue_eq_self hon, hon]
    · rw [valueAt_setValue_ne hj, hon]
  cases p with
  | ready opts =>
    obtain ⟨hflag, hon⟩ := h
    have hother : ∀ {j : Nat}, isFlag opts j = false → j ≠ i := by
      rintro j hj rfl
      rw [hflag] at hj
      exact Bool.noConfusion hj
    rw [Options.step]
    rcases actOf_cases opts (named (cut arg).1) (cut arg).2 with
      hact | hact | hact | ⟨j, ⟨hj, hact⟩ | ⟨hj, hact | ⟨v, hact⟩⟩⟩ <;> rw [act, hact]
    · exact ⟨hflag, hon⟩
    · trivial
    · trivial
    · exact hset hflag hon fun _ => rfl
    · exact ⟨hother hj, hflag, hon⟩
    · exact hset hflag hon fun hsame => absurd hsame (hother hj)
  | value j opts => exact hset h.2.1 h.2.2 fun hj => absurd hj h.1
  | failed opts => trivial
  | fault => trivial

/-! ## What an argument with a name does somewhere

If it does anything, a place can be found at which this shows. Only a flag that is on anyway never
shows. -/

/-- An argument without a name is passed over. -/
theorem act_nameless {arg : List UInt8} (h : named (cut arg).1 = none) (opts : List Sopt) :
    act opts arg = .skip := by
  rw [act, h]
  rfl

/-- Removing the argument where the parser is ready. -/
theorem Harmless.init_eq {getenv : List UInt8 → Option (List UInt8)} {table : List Opt}
    {arg : List UInt8} (h : Harmless getenv table arg) {before : List (List UInt8)}
    {opts : List Sopt} (hready : exec step (start getenv table) before = .ready opts)
    (behind : List (List UInt8)) :
    (exec step (.ready opts) (arg :: behind)).init = (exec step (.ready opts) behind).init := by
  have hfree : ¬ TakesNext getenv table before := by
    rintro ⟨i, opts', hvalue⟩
    exact Phase.noConfusion (hready.symm.trans hvalue)
  have hsame := h [] before behind hfree
  rw [inaAppInit_eq, inaAppInit_eq, exec_append, exec_append, hready] at hsame
  exact hsame

/-- On from the start, and on wherever the parser is ready. -/
theorem OnAlready.at_place {getenv : List UInt8 → Option (List UInt8)} {table : List Opt}
    {opts : List Sopt} (hreg : register getenv table = some opts) {name : List UInt8}
    (h : OnAlready opts name) {before : List (List UInt8)} {opts' : List Sopt}
    (hready : exec step (start getenv table) before = .ready opts') : OnAlready opts' name := by
  obtain ⟨i, hget, hflag, hon⟩ := h
  have hstart : start getenv table = .ready opts := by rw [start, hreg]
  rw [hstart] at hready
  have hinv : On i (exec step (.ready opts) before) :=
    exec_invariant (I := On i) (A := fun _ => True) (fun p arg _ hp => On.step hp arg) (fun _ _ => trivial)
      ⟨hflag, hon⟩
  obtain ⟨opts₀, hopts₀, hkey⟩ := exec_key (congrArg Phase.opts hready)
  rw [← Option.some.inj hopts₀] at hkey
  rw [hready] at hinv
  exact ⟨i, (optGet_congr hkey name).trans hget, hinv.1, hinv.2⟩

theorem exec_nil_start {getenv : List UInt8 → Option (List UInt8)} {table : List Opt}
    {opts : List Sopt} (hreg : register getenv table = some opts) :
    exec step (start getenv table) [] = .ready opts := by
  rw [exec_nil, start, hreg]

/-- An argument that waits for a value takes the next one, whatever it is. -/
theorem Harmless.not_await {getenv : List UInt8 → Option (List UInt8)} {table : List Opt}
    {arg : List UInt8} (h : Harmless getenv table arg) {opts : List Sopt}
    (hreg : register getenv table = some opts) {i : Nat} (hi : i < opts.length) :
    act opts arg ≠ .await i := by
  intro hawait
  have hvalue : ∀ w, named (cut w).1 = none → valueAt opts i = some w := by
    intro w hw
    have hinit := h.init_eq (exec_nil_start hreg) [w]
    rw [exec_cons, step, hawait, exec_cons, exec_nil, step, exec_cons, exec_nil, step,
      act_nameless hw] at hinit
    rw [← (Init.done.inj hinit).2]
    exact valueAt_setValue hi w
  have hempty := hvalue [] (by decide)
  rw [hvalue [1] (by decide)] at hempty
  exact absurd (Option.some.inj hempty) (by decide)

/-- An argument with a value behind a `=` undoes the same with another value before it. -/
theorem Harmless.flag_of_equals {getenv : List UInt8 → Option (List UInt8)} {table : List Opt}
    {head tail : List UInt8} (h : Harmless getenv table (head ++ 61 :: tail)) (hhead : 61 ∉ head)
    {opts : List Sopt} (hreg : register getenv table = some opts) {name : List UInt8}
    (hname : named head = some name) {i : Nat} (hget : optGet opts name = some i) :
    isFlag opts i = true := by
  by_contra hflag
  -- The argument would set the option to what is behind the `=`.
  have hact : ∀ {opts' : List Sopt} {w : List UInt8}, opts'.map Sopt.key = opts.map Sopt.key →
      act opts' (head ++ 61 :: w) = if w.length < 1024 then .set i w else .overflow := by
    intro opts' w hkey
    rw [act_congr hkey, act_equals hhead, hname]
    simp [actOf, hget, hflag]
  by_cases hfits : tail.length < 1024
  · -- Behind the same argument with another value it would change that value.
    have htail : ∀ w : List UInt8, w.length < 1024 → tail = w := by
      intro w hw
      have hready : exec step (start getenv table) [head ++ 61 :: w] =
          .ready (setValue opts i w) := by
        rw [start, hreg, exec_cons, exec_nil, step, hact rfl, if_pos hw]
      have hinit := h.init_eq hready []
      rw [exec_cons, step, hact (map_key_setValue opts i w), if_pos hfits] at hinit
      have hsame : setValue (setValue opts i w) i tail = setValue opts i w :=
        (Init.done.inj hinit).2
      have hi := optGet_lt hget
      have hi' : i < (setValue opts i w).length := by
        rw [setValue, List.length_modify]
        exact hi
      have hvalue := valueAt_setValue hi' tail
      rw [hsame, valueAt_setValue hi w] at hvalue
      exact (Option.some.inj hvalue).symm
    have hempty := htail [] (by decide)
    rw [htail [1] (by decide)] at hempty
    exact absurd hempty (by decide)
  · have hinit := h.init_eq (exec_nil_start hreg) []
    rw [exec_cons, step, hact rfl, if_neg hfits] at hinit
    cases hinit

/-- An argument with a name that no option has, or another option than a flag, is not without
    effect. -/
theorem Harmless.flag {getenv : List UInt8 → Option (List UInt8)} {table : List Opt}
    {arg : List UInt8} (h : Harmless getenv table arg) {opts : List Sopt}
    (hreg : register getenv table = some opts) {name : List UInt8}
    (hname : named (cut arg).1 = some name) :
    ∃ i, optGet opts name = some i ∧ isFlag opts i = true := by
  cases hget : optGet opts name with
  | none =>
    have hinvalid : act opts arg = .invalid := by
      rw [act, hname]
      simp only [actOf, hget]
    have hinit := h.init_eq (exec_nil_start hreg) []
    rw [exec_cons, step, hinvalid] at hinit
    cases hinit
  | some i =>
    refine ⟨i, rfl, ?_⟩
    rcases cut_cases arg with harg | ⟨head, tail, hhead, rfl⟩
    · by_contra hflag
      refine h.not_await hreg (optGet_lt hget) ?_
      rw [act, hname, cut_head harg]
      simp [actOf, hget, hflag]
    · rw [cut_equals hhead] at hname
      exact h.flag_of_equals hhead hreg hname hget

/-- **When an argument is without effect**: it carries no name, or that of a flag that is on from the
    start. -/
theorem harmless_iff (getenv : List UInt8 → Option (List UInt8)) (table : List Opt)
    (arg : List UInt8) :
    Harmless getenv table arg ↔
      ∀ opts, register getenv table = some opts →
        ∀ name, named (cut arg).1 = some name → OnAlready opts name := by
  constructor
  · intro h opts hreg name hname
    obtain ⟨i, hget, hflag⟩ := h.flag hreg hname
    have hset : act opts arg = .set i on := by
      rw [act, hname]
      simp only [actOf, hget, hflag, if_true]
    have hinit := h.init_eq (exec_nil_start hreg) []
    rw [exec_cons, step, hset] at hinit
    have hsame : setValue opts i on = opts := (Init.done.inj hinit).2
    exact ⟨i, hget, hflag, hsame ▸ valueAt_setValue (optGet_lt hget) on⟩
  · -- A flag that is on is set once more.
    intro h prog before behind hfree
    rw [inaAppInit_eq, inaAppInit_eq, exec_append, exec_append, exec_cons]
    refine congrArg (fun p => (exec step p behind).init) ?_
    cases hphase : exec step (start getenv table) before with
    | ready opts =>
      cases hname : named (cut arg).1 with
      | none => rw [step, act_nameless hname]
      | some name =>
        cases hreg : register getenv table with
        | none =>
          rw [start, hreg, exec_fault] at hphase
          cases hphase
        | some opts₀ =>
          obtain ⟨i, hget, hflag, hon⟩ := (h opts₀ hreg name hname).at_place hreg hphase
          have hset : act opts arg = .set i on := by
            rw [act, hname]
            simp only [actOf, hget, hflag, if_true]
          rw [step, hset]
          exact congrArg Phase.ready (setValue_eq_self hon)
    | value i opts => exact absurd ⟨i, opts, hphase⟩ hfree
    | failed opts => rfl
    | fault => rfl

/-- One string option, `-h` and `--host`. -/
def hostOnly : List Opt :=
  [{ shortOpt := some [104], longOpt := [104, 111, 115, 116], type := .string, dft := none }]

/-- `a-b`, with no option `b`. -/
theorem stray_refused : ¬ ∀ (getenv : List UInt8 → Option (List UInt8)) (table : List Opt)
    (arg : List UInt8), arg.head? ≠ some 45 → Harmless getenv table arg := by
  intro h
  have hfree : ¬ TakesNext (fun _ => none) hostOnly [] := by
    rintro ⟨i, opts, hphase⟩
    exact nomatch hphase
  have hsame := h (fun _ => none) hostOnly [97, 45, 98] (by decide) [] [] [] hfree
  have hwith : inaAppInit (fun _ => none) hostOnly [[], [97, 45, 98]] =
      .done (.error .optionInvalid) [⟨[104], [104, 111, 115, 116], .string, none⟩] := by
    decide +kernel
  have hwithout : inaAppInit (fun _ => none) hostOnly [[]] =
      .done (.ok ()) [⟨[104], [104, 111, 115, 116], .string, none⟩] := by
    decide +kernel
  exact nomatch (hwith.symm.trans hsame).trans hwithout

end Options
end Inac
