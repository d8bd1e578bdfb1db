import Inac.Str.Split

/-!
# The argument vector of a child (`src/process.c`)

The child branch of `__ina_process_start` puts the path, the tokens of the startup arguments and a
`NULL` into an array of sixteen, and calls `execv` with it. Three things keep the program that is
started from getting its arguments.

The array has sixteen places and nothing compares the number of tokens with them: it holds fourteen,
and the fifteenth leaves no place for the `NULL`. The tokens are those of `ina_str_split`, which does
not look at the last byte, so a space at the very end is handed on as part of the last token. And
where the directory cannot be changed to the child returns to its caller, and there are two
processes that run the parent's code.

What the arguments are is said of the string alone (`fields`): what stands between its spaces. An
empty field is an empty argument or no argument, so the main result is stated for both readings.
-/

namespace Inac
namespace Process

open Lib Str

/-! ## The code

Only the child's side of `fork`. The vector is an array of cells, none of them set at first. -/

/-- How the child branch ends: it returns to its caller, or calls `execv`, or reads or writes outside
    an array, or goes on for good. -/
inductive ChildRet where
  | left
  | execv (args : List Cell)
  | fault
  | hang
  deriving DecidableEq, Repr

/-- `while (c--) { args[n] = (char*)tokens[n-1]; n++; }`. -/
def fillArgs (tokens : List Cell) : Nat → Nat → List Cell → Option (Nat × List Cell)
  | 0, n, args => some (n, args)
  | c + 1, n, args => do
    let token ← tokens[n - 1]?
    let args ← store args n [token]
    fillArgs tokens c (n + 1) args

/-- The vector is filled and `execv` called. -/
def execTokens (fullPath : Hdr) (tokens : List Cell) (c : Nat) : ChildRet :=
  let ret := do
    let args ← store (List.replicate 16 Cell.unset) 0 [.str fullPath]
    let (n, args) ← fillArgs tokens c 1 args
    store args n [.null]
  match ret with
  | some args => .execv args
  | none => .fault

/-- The child's `chdir` is refused. -/
def DirFails (workingDir : Option (List UInt8)) (chdir : List UInt8 → Bool) : Prop :=
  ∃ dir, workingDir = some dir ∧ chdir dir = false

instance (workingDir : Option (List UInt8)) (chdir : List UInt8 → Bool) :
    Decidable (DirFails workingDir chdir) :=
  match workingDir with
  | none => isFalse nofun
  | some dir => decidable_of_iff (chdir dir = false)
      ⟨fun h => ⟨dir, rfl, h⟩, fun ⟨_, hdir, h⟩ => Option.some.inj hdir ▸ h⟩

/-- The child branch of `__ina_process_start`; `chdir` is whether the directory can be changed to,
    and the rest are what `ina_str_split` needs. -/
def processStartChild (A : Allocator) (junk : Nat → UInt8) (others : Nat) (fullPath : Hdr)
    (workingDir : Option (List UInt8)) (chdir : List UInt8 → Bool)
    (startupArgs : Option (List UInt8)) : ChildRet :=
  if DirFails workingDir chdir then .left
  else
    match inaStrSplit A junk others startupArgs (some [32, 0]) with
    | .tokens tokens count => execTokens fullPath tokens count
    | .null => execTokens fullPath [] 0
    -- `c` was zero, where it is not set
    | .refused _ _ count => execTokens fullPath [] (count.getD 0)
    | .fault => .fault
    | .hang => .hang

/-! ## Filling the vector

The tokens go behind the path one after the other, and the `NULL` behind them. Sixteen places are
too few for fifteen tokens. -/

/-- `execv` gets the path, the tokens and a `NULL`. -/
def Execs (fullPath : Hdr) (ts : List Hdr) (ret : ChildRet) : Prop :=
  ∃ rest, ret = .execv (.str fullPath :: ts.map Cell.str ++ .null :: rest)

/-- One element goes to the first free place, if there is one. -/
theorem store_next {α : Type} (done free : List α) (x : α) :
    store (done ++ free) done.length [x] =
      match free with
      | [] => none
      | _ :: free => some (done ++ [x] ++ free) := by
  cases free with
  | nil =>
    have hfull : ¬ done.length + [x].length ≤ (done ++ []).length := by simp
    exact if_neg hfull
  | cons y free =>
    have hroom : done.length + [x].length ≤ (done ++ y :: free).length := by simp
    rw [store_eq hroom, List.take_left]
    simp

/-- The tokens from the last one filled in on go behind it, as far as there is room. -/
theorem fillArgs_eq {tokens : List Cell} (cells : List Cell) :
    ∀ done free : List Cell, done ≠ [] → cells <+: tokens.drop (done.length - 1) →
      fillArgs tokens cells.length done.length (done ++ free) =
        if cells.length ≤ free.length then
          some ((done ++ cells).length, done ++ cells ++ free.drop cells.length)
        else none := by
  -- On the tokens that are left; `done` is what the vector has.
  induction cells with
  | nil =>
    intro done free _ _
    rw [List.length_nil, if_pos (Nat.zero_le _), List.append_nil, List.drop_zero]
    rfl
  | cons cell cells ih =>
    intro done free hne hprefix
    have hpos : 0 < done.length := List.length_pos_iff.mpr hne
    obtain ⟨behind, hbehind⟩ := hprefix
    have hread : tokens[done.length - 1]? = some cell := by
      rw [← List.head?_drop, ← hbehind]
      rfl
    rw [List.length_cons, fillArgs, hread, Option.bind_eq_bind, Option.bind_some, store_next]
    cases free with
    | nil =>
      rw [if_neg (by simp)]
      rfl
    | cons x free =>
      have hrest : cells <+: tokens.drop ((done ++ [cell]).length - 1) := by
        refine ⟨behind, ?_⟩
        have hnext : (done ++ [cell]).length - 1 = done.length - 1 + 1 := by
          rw [List.length_append, List.length_singleton]
          omega
        rw [hnext, ← List.tail_drop, ← hbehind]
        rfl
      have hfill := ih (done ++ [cell]) free (by simp) hrest
      rw [List.length_append, List.length_singleton] at hfill
      simp only [Option.bind_eq_bind, Option.bind_some, List.length_cons,
        Nat.add_le_add_iff_right, List.drop_succ_cons]
      rw [hfill]
      simp only [List.append_assoc, List.singleton_append]

/-- **Fourteen tokens have room in the vector.** -/
theorem execTokens_eq (fullPath : Hdr) {tokens : List Cell} (ts : List Hdr)
    (hheld : ts.map Cell.str <+: tokens) :
    execTokens fullPath tokens ts.length =
      if ts.length ≤ 14 then
        .execv (.str fullPath :: ts.map Cell.str ++
          .null :: List.replicate (14 - ts.length) Cell.unset)
      else .fault := by
  have hfirst : store (List.replicate 16 Cell.unset) 0 [.str fullPath] =
      some ([.str fullPath] ++ List.replicate 15 Cell.unset) := rfl
  have hfill := fillArgs_eq (ts.map Cell.str) [.str fullPath] (List.replicate 15 Cell.unset)
    (List.cons_ne_nil _ _) hheld
  rw [List.length_map, List.length_replicate, List.drop_replicate] at hfill
  have hret : execTokens fullPath tokens ts.length =
      match (if ts.length ≤ 15 then
          store ([Cell.str fullPath] ++ ts.map Cell.str ++
              List.replicate (15 - ts.length) Cell.unset)
            ([Cell.str fullPath] ++ ts.map Cell.str).length [Cell.null]
        else none) with
      | some args => .execv args
      | none => .fault := by
    rw [execTokens, hfirst, Option.bind_eq_bind, Option.bind_some]
    change (match (fillArgs tokens ts.length [Cell.str fullPath].length _ >>= _) with
      | some args => ChildRet.execv args
      | none => .fault) = _
    rw [hfill]
    by_cases hfits : ts.length ≤ 15
    · rw [if_pos hfits, if_pos hfits]
      rfl
    · rw [if_neg hfits, if_neg hfits]
      rfl
  rw [hret]
  by_cases hroom : ts.length ≤ 14
  · have hleft : 15 - ts.length = 14 - ts.length + 1 := by omega
    rw [if_pos hroom, if_pos (by omega), store_next, hleft, List.replicate_succ]
    simp
  · rw [if_neg hroom]
    by_cases hfits : ts.length ≤ 15
    · -- the tokens fill the vector, and the `NULL` goes behind it
      have hleft : 15 - ts.length = 0 := by omega
      rw [if_pos hfits, store_next, hleft]
      rfl
    · rw [if_neg hfits]

/-- Two vectors of tokens up to the first `NULL` are the same. -/
theorem strs_eq {ts ts' : List Hdr} {rest rest' : List Cell}
    (h : ts.map Cell.str ++ .null :: rest = ts'.map Cell.str ++ .null :: rest') : ts = ts' := by
  induction ts generalizing ts' with
  | nil =>
    cases ts' with
    | nil => rfl
    | cons t' ts' => exact nomatch h
  | cons t ts ih =>
    cases ts' with
    | nil => exact nomatch h
    | cons t' ts' =>
      obtain ⟨hhead, htail⟩ := List.cons.inj h
      rw [Cell.str.inj hhead, ih htail]

/-- `execv` gets these tokens exactly if they are the ones split off and have room. -/
theorem execTokens_execs_iff (fullPath : Hdr) {tokens : List Cell} (ts ts' : List Hdr)
    (hheld : ts.map Cell.str <+: tokens) :
    Execs fullPath ts' (execTokens fullPath tokens ts.length) ↔ ts' = ts ∧ ts.length ≤ 14 := by
  rw [execTokens_eq fullPath ts hheld]
  by_cases hroom : ts.length ≤ 14
  · rw [if_pos hroom, and_iff_left hroom]
    constructor
    · rintro ⟨rest, hexec⟩
      have hargs := (List.cons.inj (ChildRet.execv.inj hexec)).2
      exact (strs_eq hargs).symm
    · rintro rfl
      exact ⟨_, rfl⟩
  · rw [if_neg hroom]
    refine iff_of_false ?_ fun h => hroom h.2
    rintro ⟨rest, hexec⟩
    exact nomatch hexec

/-! ## The arguments

What the child is to get, from the string alone. -/

/-- What an empty field is: an argument like the others, or none. -/
inductive Reading where
  | allFields
  | words
  deriving DecidableEq, Repr

/-- What stands between the spaces of the startup arguments; without any there is none. -/
def fields (startupArgs : Option (List UInt8)) : List (List UInt8) :=
  if startupArgs.getD [] = [] then [] else (startupArgs.getD []).splitOn 32

/-- The space-separated arguments. -/
def arguments (reading : Reading) (startupArgs : Option (List UInt8)) : List (List UInt8) :=
  match reading with
  | .allFields => fields startupArgs
  | .words => (fields startupArgs).filter (· ≠ [])

/-- The child writes within the vector and gets to `execv` with the path, the arguments in order and
    a `NULL`. -/
def ChildRight (reading : Reading) (fullPath : Hdr) (startupArgs : Option (List UInt8))
    (ret : ChildRet) : Prop :=
  ∃ ts, ts.map Hdr.cstr = arguments reading startupArgs ∧ Execs fullPath ts ret

/-- A field holds no space. -/
theorem not_mem_of_mem_splitOn {x : UInt8} {s : List UInt8} :
    ∀ b ∈ s.splitOn x, x ∉ b := by
  induction s with
  | nil => simp
  | cons a s ih =>
    intro b hb
    rw [List.splitOn_cons_eq_if_modifyHead] at hb
    split at hb
    · rcases List.mem_cons.mp hb with rfl | hb
      · exact List.not_mem_nil
      · exact ih b hb
    · rename_i hne
      have hax : x ≠ a := fun he => hne (by rw [he]; exact beq_self_eq_true a)
      obtain ⟨c, cs, hcons⟩ := List.exists_cons_of_ne_nil (List.splitOn_ne_nil x s)
      rw [hcons, List.modifyHead_cons] at hb
      rw [hcons] at ih
      rcases List.mem_cons.mp hb with rfl | hb
      · rw [List.mem_cons, not_or]
        exact ⟨hax, ih c List.mem_cons_self⟩
      · exact ih b (List.mem_cons_of_mem c hb)

/-- **The tokens of `ina_str_split` are the fields**, unless the separator ends the string. -/
theorem tokens_eq_splitOn_iff {x : UInt8} {s : List UInt8} {start j : Nat}
    {bs : List (List UInt8)} (h : Searched s [x] start j bs) (hj : s.length - 1 ≤ j)
    (hjoined : List.intercalate [x] (bs ++ [s.drop start]) = s) :
    ((∀ b ∈ bs ++ [s.drop start], x ∉ b) ↔ s.getLast? ≠ some x) ∧
      (s.getLast? ≠ some x → bs ++ [s.drop start] = s.splitOn x) := by
  have hlt : start < s.length := h.start_lt rfl
  have hne : s.drop start ≠ [] := by
    rw [Ne, List.drop_eq_nil_iff]
    omega
  have hlast : s.getLast? = (s.drop start).getLast? := by
    rw [List.getLast?_drop, if_neg (by omega)]
  have hfree : (∀ b ∈ bs ++ [s.drop start], x ∉ b) ↔ s.getLast? ≠ some x := by
    constructor
    · intro hall he
      rw [hlast] at he
      exact hall _ (List.mem_append_right _ (List.mem_singleton_self _))
        (List.mem_of_mem_getLast? he)
    · intro hend b hb
      -- A token in front of the last separator has none in it.
      rcases List.mem_append.mp hb with hb | hb
      · exact h.not_mem_pieces hj b hb
      · -- the rest has no separator before its last byte, and that is not one either
        rw [List.mem_singleton.mp hb, ← List.dropLast_append_getLast hne, List.mem_append, not_or]
        refine ⟨h.not_mem_dropLast hj, fun hmem => hend ?_⟩
        rw [hlast, List.getLast?_eq_some_getLast hne, ← List.mem_singleton.mp hmem]
  refine ⟨hfree, fun hend => ?_⟩
  have hback := List.splitOn_intercalate x (hfree.mpr hend) (by simp)
  rw [hjoined] at hback
  exact hback.symm

/-! ## What is split off

`ina_str_split` gives the fields, unless a space ends the string or its memory is refused. -/

/-- The startup arguments as they stand in memory, with their NUL and what is behind it. -/
def cstrOf (startupArgs : Option (List UInt8)) (rest : List UInt8) : Option (List UInt8) :=
  startupArgs.map (· ++ 0 :: rest)

/-- Memory that `ina_str_split` asks for is refused. -/
def Refused (A : Allocator) (junk : Nat → UInt8) (others : Nat) (startupArgs : Option (List UInt8))
    (rest : List UInt8) : Prop :=
  ∃ used bytes count, inaStrSplit A junk others (cstrOf startupArgs rest) (some [32, 0]) =
    .refused used bytes count ∧ A.alloc used bytes = none

theorem split_empty (A : Allocator) (junk : Nat → UInt8) (others : Nat)
    {startupArgs : Option (List UInt8)} (rest : List UInt8) (h : startupArgs.getD [] = []) :
    inaStrSplit A junk others (cstrOf startupArgs rest) (some [32, 0]) = .null := by
  cases startupArgs with
  | none => rfl
  | some s =>
    obtain rfl : s = [] := h
    have hlen : strlen (0 :: rest) = 0 := rfl
    simp [inaStrSplit, cstrOf, hlen]

/-- Of a string that is not empty the tokens are the fields, as long as no space ends it. -/
theorem split_fields (A : Allocator) (junk : Nat → UInt8) (others : Nat) {s : List UInt8}
    (hs : s ≠ []) (hzero : 0 ∉ s) (rest : List UInt8) :
    (∃ arr, ∃ ts : List Hdr, inaStrSplit A junk others (cstrOf (some s) rest) (some [32, 0]) =
        .tokens arr ts.length ∧ ts.map Cell.str <+: arr ∧
        ((∀ b ∈ ts.map Hdr.cstr, 32 ∉ b) ↔ s.getLast? ≠ some 32) ∧
        (s.getLast? ≠ some 32 → ts.map Hdr.cstr = fields (some s))) ∨
      ∃ used bytes count, inaStrSplit A junk others (cstrOf (some s) rest) (some [32, 0]) =
        .refused used bytes count ∧ A.alloc used bytes = none ∧ count.getD 0 = 0 := by
  have hp0 : (0 : UInt8) ∉ [32] := by decide
  rcases inaStrSplit_runs A junk others hs (List.cons_ne_nil 32 []) hzero hp0 rest [] with
    ⟨arr, count, ts, hret, hsplits, bs, start, j, hts, hsearched, hj⟩ | hrefused
  · have hjoined := hsplits.joined
    rw [hts] at hjoined
    obtain ⟨hfree, hfields⟩ := tokens_eq_splitOn_iff hsearched hj hjoined
    rw [hsplits.count] at hret
    refine .inl ⟨arr, ts, hret, hsplits.cells, ?_, ?_⟩
    · rw [hts]
      exact hfree
    · rw [hts, fields, if_neg (show ¬ (some s).getD [] = [] from hs)]
      exact hfields
  · exact .inr hrefused

/-- Fields that are read as arguments: those of the string, if none is empty where empty ones do not
    count. -/
theorem fields_eq_arguments_iff (reading : Reading) (startupArgs : Option (List UInt8)) :
    fields startupArgs = arguments reading startupArgs ↔
      (reading = .words → [] ∉ fields startupArgs) := by
  cases reading with
  | allFields => simp [arguments]
  | words =>
    rw [arguments, eq_comm, List.filter_eq_self]
    constructor
    · intro hall _ hmem
      exact of_decide_eq_true (hall [] hmem) rfl
    · intro hnot a ha
      exact decide_eq_true fun he => hnot rfl (he ▸ ha)

/-- An argument holds no space. -/
theorem not_mem_of_mem_arguments {reading : Reading} {s b : List UInt8} (hs : s ≠ [])
    (hb : b ∈ arguments reading (some s)) : 32 ∉ b := by
  have hmem : b ∈ fields (some s) := by
    cases reading with
    | allFields => exact hb
    | words => exact List.mem_of_mem_filter hb
  rw [fields, if_neg (show ¬ (some s).getD [] = [] from hs)] at hmem
  exact not_mem_of_mem_splitOn b hmem

/-- The tokens that were split off are the arguments exactly if no space ends the string, and no
    field is empty where empty ones do not count. -/
theorem tokens_eq_arguments_iff {reading : Reading} {s : List UInt8} {bs : List (List UInt8)}
    (hs : s ≠ []) (hfree : (∀ b ∈ bs, 32 ∉ b) ↔ s.getLast? ≠ some 32)
    (hfields : s.getLast? ≠ some 32 → bs = fields (some s)) :
    bs = arguments reading (some s) ↔
      s.getLast? ≠ some 32 ∧ (reading = .words → [] ∉ fields (some s)) := by
  constructor
  · intro heq
    have hend : s.getLast? ≠ some 32 := by
      rw [← hfree, heq]
      exact fun b hb => not_mem_of_mem_arguments hs hb
    refine ⟨hend, (fields_eq_arguments_iff reading (some s)).mp ?_⟩
    rw [← heq, hfields hend]
  · rintro ⟨hend, hnone⟩
    rw [hfields hend]
    exact (fields_eq_arguments_iff reading (some s)).mpr hnone

/-! ## The child

By what the string is: none or empty, split into tokens, or refused by the allocator. -/

/-- Without tokens the path alone is handed on. -/
theorem child_right_of_none (reading : Reading) (fullPath : Hdr)
    (startupArgs : Option (List UInt8)) :
    ChildRight reading fullPath startupArgs (execTokens fullPath [] 0) ↔
      arguments reading startupArgs = [] := by
  constructor
  · rintro ⟨ts, hcstr, hexec⟩
    obtain ⟨rfl, -⟩ := (execTokens_execs_iff fullPath [] ts List.nil_prefix).mp hexec
    exact hcstr.symm
  · intro hnone
    exact ⟨[], hnone.symm,
      (execTokens_execs_iff fullPath [] [] List.nil_prefix).mpr ⟨rfl, Nat.zero_le _⟩⟩

/-- **When the child gets its arguments.** It calls `execv` with the path, the space-separated
    arguments and a `NULL`, all within the vector, exactly if its directory can be changed to and
    the startup arguments have fourteen fields at most, do not end with a space, and have no empty
    field where that is no argument; or have no arguments, where the memory for them is refused. -/
theorem child_right_iff (reading : Reading) (A : Allocator) (junk : Nat → UInt8) (others : Nat)
    (fullPath : Hdr) (workingDir : Option (List UInt8)) (chdir : List UInt8 → Bool)
    (startupArgs : Option (List UInt8)) (rest : List UInt8)
    (hzero : ∀ s, startupArgs = some s → 0 ∉ s) :
    ChildRight reading fullPath startupArgs
        (processStartChild A junk others fullPath workingDir chdir (cstrOf startupArgs rest)) ↔
      ¬ DirFails workingDir chdir ∧
        (Refused A junk others startupArgs rest → arguments reading startupArgs = []) ∧
        (¬ Refused A junk others startupArgs rest →
          (fields startupArgs).length ≤ 14 ∧ (startupArgs.getD []).getLast? ≠ some 32 ∧
            (reading = .words → [] ∉ fields startupArgs)) := by
  unfold processStartChild
  by_cases hdir : DirFails workingDir chdir
  · -- the child returns, so nothing is executed
    rw [if_pos hdir]
    refine iff_of_false ?_ fun h => h.1 hdir
    rintro ⟨ts, -, args, hleft⟩
    exact nomatch hleft
  rw [if_neg hdir, and_iff_right hdir]
  by_cases hempty : startupArgs.getD [] = []
  · have hfields : fields startupArgs = [] := if_pos hempty
    have hnone : arguments reading startupArgs = [] := by
      rw [← (fields_eq_arguments_iff reading startupArgs).mpr (by simp [hfields]), hfields]
    rw [split_empty A junk others rest hempty, hfields, hempty, hnone]
    exact iff_of_true ((child_right_of_none reading fullPath startupArgs).mpr hnone) (by simp)
  obtain ⟨s, rfl⟩ : ∃ s, startupArgs = some s := by
    cases startupArgs with
    | none => exact absurd rfl hempty
    | some s => exact ⟨s, rfl⟩
  have hs : s ≠ [] := hempty
  -- The tokens are handed on if there is room for them; without memory there are none.
  rcases split_fields A junk others hs (hzero s rfl) rest with
    ⟨arr, ts, hret, hheld, hfree, hfields⟩ | ⟨used, bytes, count, hret, hnone, hcount⟩
  · have hgiven : ¬ Refused A junk others (some s) rest := by
      rintro ⟨used, bytes, count', hret', -⟩
      exact SplitRet.noConfusion (hret.symm.trans hret')
    have hargs : ts.map Hdr.cstr = arguments reading (some s) ↔ _ :=
      tokens_eq_arguments_iff hs hfree hfields
    rw [hret, and_iff_right (fun h => absurd h hgiven), imp_iff_right hgiven, Option.getD_some,
      ← hargs]
    constructor
    · rintro ⟨ts', hcstr, hexec⟩
      obtain ⟨rfl, hroom⟩ := (execTokens_execs_iff fullPath ts ts' hheld).mp hexec
      refine ⟨?_, hcstr⟩
      rw [← hfields (hargs.mp hcstr).1, List.length_map]
      exact hroom
    · rintro ⟨hroom, hcstr⟩
      rw [← hfields (hargs.mp hcstr).1, List.length_map] at hroom
      exact ⟨ts, hcstr, (execTokens_execs_iff fullPath ts ts hheld).mpr ⟨rfl, hroom⟩⟩
  · have hrefused : Refused A junk others (some s) rest := ⟨used, bytes, count, hret, hnone⟩
    rw [and_iff_left (fun h => absurd hrefused h), imp_iff_right hrefused, hret]
    simp only [hcount]
    exact child_right_of_none reading fullPath (some s)

/-- `sleep` with `1 2` behind it. -/
theorem child_right_iff_sleep :
    ChildRight .words (token [115, 108, 101, 101, 112]) (some [49, 32, 50])
      (processStartChild .ample (fun _ => 0) 0 (token [115, 108, 101, 101, 112]) none
        (fun _ => true) (cstrOf (some [49, 32, 50]) [])) := by
  have hzero : ∀ s, some [49, 32, 50] = some s → (0 : UInt8) ∉ s := by
    intro s hs
    rw [← Option.some.inj hs]
    decide
  have hgiven : ¬ Refused .ample (fun _ => 0) 0 (some [49, 32, 50]) [] := by
    rintro ⟨used, bytes, count, hret, -⟩
    have heval : inaStrSplit .ample (fun _ => 0) 0 (cstrOf (some [49, 32, 50]) []) (some [32, 0]) =
        .tokens [.str (token [49]), .str (token [50]), .null, .unset, .unset] 2 := by
      decide
    exact SplitRet.noConfusion (heval.symm.trans hret)
  refine (child_right_iff .words .ample (fun _ => 0) 0 _ none (fun _ => true) (some [49, 32, 50])
    [] hzero).mpr ⟨?_, fun h => absurd h hgiven, fun _ => ⟨by decide, by decide, ?_⟩⟩
  · rintro ⟨dir, hdir, -⟩
    cases hdir
  · exact fun _ => by decide

/-- Fifteen arguments of one byte. -/
def fifteen : List UInt8 :=
  List.intercalate [32] (List.replicate 15 [97])

/-- Fifteen arguments of one byte: the `NULL` is written behind the vector. -/
theorem child_args_overrun : ¬ ∃ reading, ∀ (A : Allocator) (junk : Nat → UInt8)
    (others : Nat) (fullPath : Hdr) (startupArgs : List UInt8), 0 ∉ startupArgs →
    ¬ Refused A junk others (some startupArgs) [] →
    ChildRight reading fullPath (some startupArgs)
      (processStartChild A junk others fullPath none (fun _ => true)
        (cstrOf (some startupArgs) [])) := by
  rintro ⟨reading, h⟩
  have heval : inaStrSplit .ample (fun _ => 0) 0 (cstrOf (some fifteen) []) (some [32, 0]) =
      .tokens (List.replicate 15 (.str (token [97])) ++ .null :: List.replicate 4 .unset) 15 := by
    decide +kernel
  have hgiven : ¬ Refused .ample (fun _ => 0) 0 (some fifteen) [] := by
    rintro ⟨used, bytes, count, hret, -⟩
    exact SplitRet.noConfusion (heval.symm.trans hret)
  have hright := h .ample (fun _ => 0) 0 (token [47]) fifteen (by decide) hgiven
  have hdir : ¬ DirFails none (fun _ => true) := nofun
  have hfault : execTokens (token [47])
      (List.replicate 15 (.str (token [97])) ++ .null :: List.replicate 4 .unset) 15 = .fault := by
    decide +kernel
  rw [processStartChild, if_neg hdir, heval] at hright
  obtain ⟨ts, -, rest, hret⟩ := hright
  exact ChildRet.noConfusion (hfault.symm.trans hret)

end Process
end Inac
