import Inac.Options.Forms

/-!
# What is written to the buffer

The name of an option and then its value are copied to `char buf[1024]`. The length of a name is
tested; that of a value behind a `=` is not. So all writes are inside of the buffer exactly when no
option with a value gets one of 1024 bytes or more in this form, at a place where the parser looks
at it (`writes_in_buf_iff`).
-/

namespace Inac
namespace Options

open Lib

/-- `char buf[1024]`. -/
abbrev bufSize : Nat := 1024

/-- The indexes that `strncpy` of `n` bytes to `buf` and the NUL at index `nul` write to. -/
def copied (n nul : Nat) : List Nat := List.range n ++ [nul]

/-- The indexes of `buf` written to for one argument, in order. -/
def writes (opts : List Sopt) (arg : List UInt8) : List Nat :=
  let sc := scan arg 0 0
  let e := if sc.e = 0 then sc.c else sc.e
  if 0 < sc.s ∧ e - sc.s < bufSize then
    let buf := (arg.drop sc.s).take (e - sc.s)
    copied (e - sc.s) (sc.c - sc.s) ++
      match optGet opts buf with
      | none => []
      | some i =>
        if ¬ isFlag opts i ∧ sc.vs ≠ 0 then
          copied (arg.drop sc.vs).length (arg.drop sc.vs).length
        else []
  else []

/-- The indexes written to for all arguments. A parser that takes an argument for a value, has
    failed, or is beyond its buffer does not copy it. -/
def bufWrites : Phase → List (List UInt8) → List Nat
  | _, [] => []
  | .ready opts, arg :: args => writes opts arg ++ bufWrites (step (.ready opts) arg).2 args
  | p, arg :: args => bufWrites (step p arg).2 args

/-- The argument is that of an option with a value, which is behind a `=` and does not fit. -/
def Oversized (opts : List Sopt) (arg : List UInt8) : Prop :=
  ∃ name i value, named (cut arg).1 = some name ∧ optGet opts name = some i ∧
    isFlag opts i = false ∧ (cut arg).2 = some value ∧ bufSize ≤ value.length

/-- The same of an argument that the parser looks at. -/
def MeetsOversized : Phase → List UInt8 → Prop
  | .ready opts, arg => Oversized opts arg
  | _, _ => False

/-! ## The positions

What the scan counts are places of the argument, so the name and the value are pieces of it. -/

theorem scan_s_le (arg : List UInt8) {c s : Nat} (h : s ≤ c) :
    (scan arg c s).s ≤ (scan arg c s).c := by
  induction arg, c, s using scan.induct with
  | case1 c s => exact h
  | case2 c rest ih => exact ih (Nat.le_refl _)
  | case3 c rest hone ih =>
    rw [scan_mark hone]
    exact ih (Nat.le_refl _)
  | case4 rest c s hs ih =>
    rw [scan_dash hs]
    exact ih (Nat.le_succ_of_le h)
  | case5 rest c s =>
    rw [scan_stop]
    exact h
  | case6 b rest c s hdash hequals ih =>
    rw [scan_other hdash hequals]
    exact ih (Nat.le_succ_of_le h)

/-- **The positions of a scan.** The name ends where the scan does, not before it starts, so that
    the two differences that are taken are the same and do not wrap. -/
theorem scan_positions (arg : List UInt8) :
    (scan arg 0 0).s ≤ (scan arg 0 0).c ∧
      (if (scan arg 0 0).e = 0 then (scan arg 0 0).c else (scan arg 0 0).e) =
        (scan arg 0 0).c := by
  refine ⟨scan_s_le arg (Nat.le_refl 0), ?_⟩
  rcases cut_cases arg with harg | ⟨head, tail, hhead, rfl⟩
  · rw [scan_head harg]
    rfl
  · rw [scan_equals hhead]
    simp

/-! ## One argument

The places written in one turn: those of the name, which was found short enough, and those of the
value. -/

theorem forall_mem_copied {n nul bound : Nat} (h : n ≤ nul) :
    (∀ x ∈ copied n nul, x < bound) ↔ nul < bound := by
  simp only [copied, List.mem_append, List.mem_range, List.mem_singleton]
  constructor
  · intro hall
    exact hall nul (.inr rfl)
  · rintro hnul x (hx | rfl)
    · omega
    · exact hnul

/-- The writes for an argument go past the end exactly when the parser does. -/
theorem writes_lt_iff (opts : List Sopt) (arg : List UInt8) :
    (∀ x ∈ writes opts arg, x < bufSize) ↔ act opts arg ≠ .overflow := by
  obtain ⟨hle, hend⟩ := scan_positions arg
  rw [act_eq_scan]
  unfold writes Scan.name
  simp only [hend]
  generalize scan arg 0 0 = sc at hle
  by_cases hmarked : 0 < sc.s ∧ sc.c - sc.s < bufSize
  · -- The length of the name was tested before it is copied.
    have hname : ∀ x ∈ copied (sc.c - sc.s) (sc.c - sc.s), x < bufSize :=
      (forall_mem_copied (Nat.le_refl _)).mpr hmarked.2
    rw [if_pos hmarked, if_pos hmarked, List.forall_mem_append]
    simp only [actOf, Scan.value]
    cases optGet opts ((arg.drop sc.s).take (sc.c - sc.s)) with
    | none => simpa using hname
    | some i =>
      by_cases hflag : isFlag opts i
      · simpa [hflag] using hname
      · by_cases hvs : sc.vs = 0
        · simpa [hflag, hvs] using hname
        · dsimp only
          rw [if_pos ⟨hflag, hvs⟩, if_neg hflag, if_neg hvs, and_iff_right hname,
            forall_mem_copied (Nat.le_refl _)]
          dsimp only
          -- The length of the value was not.
          by_cases hfits : (arg.drop sc.vs).length < bufSize
          · rw [if_pos hfits]
            exact iff_of_true hfits Act.noConfusion
          · rw [if_neg hfits]
            exact iff_of_false hfits fun hne => hne rfl
  · rw [if_neg hmarked, if_neg hmarked]
    simp [actOf]

/-- And the parser does for an oversized value. -/
theorem act_eq_overflow_iff (opts : List Sopt) (arg : List UInt8) :
    act opts arg = .overflow ↔ Oversized opts arg := by
  unfold act actOf Oversized
  constructor
  · intro h
    split at h
    · cases h
    · rename_i name hname
      split at h
      · cases h
      · rename_i i hget
        split at h
        · cases h
        · rename_i hflag
          split at h
          · cases h
          · rename_i value hvalue
            split at h
            · cases h
            · rename_i hlong
              exact ⟨name, i, value, hname, hget, by simpa using hflag, hvalue,
                Nat.not_lt.mp hlong⟩
  · rintro ⟨name, i, value, hname, hget, hflag, hvalue, hlong⟩
    simp [hname, hget, hflag, hvalue, hlong]

/-! ## All arguments

Along the run, up to the first argument whose value does not fit. -/

/-- **Which arguments stay inside of the buffer.** Over a whole command line every write is at an
    index below 1024 exactly when the parser never looks at an oversized argument. -/
theorem writes_in_buf_iff (getenv : List UInt8 → Option (List UInt8)) (table : List Opt)
    (args : List (List UInt8)) :
    (∀ x ∈ bufWrites (start getenv table) args, x < bufSize) ↔
      Never step MeetsOversized (start getenv table) args := by
  generalize start getenv table = p
  induction args generalizing p with
  | nil => simp [bufWrites, Never]
  | cons arg args ih =>
    rw [Never, ← ih]
    cases p with
    | ready opts =>
      rw [bufWrites, List.forall_mem_append, writes_lt_iff, ne_eq, act_eq_overflow_iff]
      rfl
    | value i opts => simp [bufWrites, MeetsOversized]
    | failed opts => simp [bufWrites, MeetsOversized]
    | fault => simp [bufWrites, MeetsOversized]

/-- `--host=`, and 1024 bytes behind it. -/
def longHost : List UInt8 := [45, 45, 104, 111, 115, 116] ++ 61 :: List.replicate 1024 120

/-- The NUL behind them is written behind the buffer. -/
theorem long_value_behind_buf :
    ¬ ∀ x ∈ bufWrites (start (fun _ => none) hostTable) [longHost], x < bufSize := by
  let opts : List Sopt := [⟨[104], [104, 111, 115, 116], .string, none⟩,
    ⟨[107], [107, 101, 101, 112, 45, 97, 108, 105, 118, 101], .flag, none⟩]
  have hstart : start (fun _ => none) hostTable = .ready opts := rfl
  have hcut : cut longHost = ([45, 45, 104, 111, 115, 116], some (List.replicate 1024 120)) :=
    cut_equals (by decide) _
  have hlong : Oversized opts longHost := by
    refine ⟨[104, 111, 115, 116], 0, List.replicate 1024 120, ?_, by decide, by decide, ?_, ?_⟩
    · rw [hcut]
      decide
    · rw [hcut]
    · exact Nat.le_of_eq List.length_replicate.symm
  rw [hstart, bufWrites, List.forall_mem_append, writes_lt_iff]
  intro h
  exact h.1 ((act_eq_overflow_iff opts longHost).mpr hlong)

end Options
end Inac
