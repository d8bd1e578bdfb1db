import Inac.Err
import Mathlib.Data.List.Basic

/-!
# Command line options (`src/lib.c`)

`ina_app_init` registers the options of a table and then goes over the arguments. Each is scanned for
a `-`, behind which a name starts, and up to the first `=`, behind which a value does; an option
without a `=` takes the next argument as its value, and a flag is set to `on`.

Strings are given as their bytes before the NUL.
-/

namespace Inac
namespace Options

/-- `ina_opt_type_t`. -/
inductive OptType where
  | string
  | int
  | flag
  | float
  deriving DecidableEq, Repr

/-- `ina_opt_t`, an entry of the table. -/
structure Opt where
  shortOpt : Option (List UInt8)
  longOpt : List UInt8
  type : OptType
  dft : Option (List UInt8)
  deriving DecidableEq, Repr

/-- `__ina_lopt_t` with its `__ina_sopt_t`. -/
structure Sopt where
  shortOpt : List UInt8
  longOpt : List UInt8
  type : OptType
  value : Option (List UInt8)
  deriving DecidableEq, Repr

/-! ## Registering

An option is registered with its default, or the value of an environment variable, or with none. -/

/-- `$ENV:`. -/
def envMark : List UInt8 := [36, 69, 78, 86, 58]

/-- The value of an option before any argument. For a number the default comes with the quotes of a
    string literal; `none` is a default that ends at the mark, of which `strlen(dft) - 7` bytes are
    to be copied. -/
def dftValue (getenv : List UInt8 → Option (List UInt8)) (opt : Opt) :
    Option (Option (List UInt8)) :=
  match opt.dft with
  | none => some none
  | some dft =>
    if opt.type = .string ∧ envMark <+: dft then some (getenv (dft.drop 5))
    else if opt.type ≠ .string ∧ 34 :: envMark <+: dft then
      if dft.length < 7 then none else some (getenv ((dft.drop 6).take (dft.length - 7)))
    else some (some dft)

/-- The options of the table, each with its default. -/
def register (getenv : List UInt8 → Option (List UInt8)) (table : List Opt) :
    Option (List Sopt) :=
  table.mapM fun opt =>
    (dftValue getenv opt).map fun value =>
      { shortOpt := opt.shortOpt.getD [], longOpt := opt.longOpt, type := opt.type, value }

/-- `__ina_opt_get`: the list of the short names, where empty ones are not, and then that of the long
    ones. -/
def optGet (opts : List Sopt) (name : List UInt8) : Option Nat :=
  match opts.findIdx? fun so => so.shortOpt ≠ [] ∧ so.shortOpt = name with
  | some i => some i
  | none => opts.findIdx? fun so => so.longOpt = name

/-! ## Parsing

The scan of one argument with four counters, as in the source, and the loop over the arguments. -/

/-- `c`, `s`, `e` and `vs`. -/
structure Scan where
  c : Nat
  s : Nat
  e : Nat
  vs : Nat
  deriving DecidableEq, Repr

/-- `while (argv[n][c])`, on the bytes from `c` on. -/
def scan : List UInt8 → Nat → Nat → Scan
  | [], c, s => ⟨c, s, 0, 0⟩
  | b :: rest, c, s =>
    if b = 45 then
      if s = 0 then
        match rest with
        | 45 :: rest => scan rest (c + 2) (c + 2)
        | rest => scan rest (c + 1) (c + 1)
      else scan rest (c + 1) s
    else if b = 61 then ⟨c, s, c, c + 1⟩
    else scan rest (c + 1) s

/-- `so->type == INA_OPT_TYPE_FLAG`. -/
def isFlag (opts : List Sopt) (i : Nat) : Bool :=
  opts[i]?.any fun so => so.type = .flag

/-- The old value is freed and the new one stored. -/
def setValue (opts : List Sopt) (i : Nat) (value : List UInt8) : List Sopt :=
  opts.modify i fun so => { so with value := some value }

/-- `on`. -/
def on : List UInt8 := [111, 110]

/-- What `ina_app_init` returns and the options as it leaves them; or a value is written behind the
    end of `buf`. -/
inductive Init where
  | done (rc : Except Err Unit) (opts : List Sopt)
  | fault
  deriving DecidableEq

/-- `for (n = 1; n < argc; n++)`, from some argument on. The check behind the loop succeeds whatever
    it finds. -/
def parseArgs : List (List UInt8) → List Sopt → Init
  | [], opts => .done (.ok ()) opts
  | arg :: rest, opts =>
    let sc := scan arg 0 0
    let e := if sc.e = 0 then sc.c else sc.e
    if 0 < sc.s ∧ e - sc.s < 1024 then
      let buf := (arg.drop sc.s).take (e - sc.s)
      match optGet opts buf with
      | none => .done (.error .optionInvalid) opts
      | some i =>
        if isFlag opts i then parseArgs rest (setValue opts i on)
        else if sc.vs = 0 then
          -- value separated by space
          match rest with
          | [] => parseArgs [] opts
          | value :: rest => parseArgs rest (setValue opts i value)
        else
          let value := arg.drop sc.vs
          if value.length < 1024 then parseArgs rest (setValue opts i value) else .fault
    else parseArgs rest opts

/-- `ina_app_init` on a table and an `argv`, the first time that it is called. -/
def inaAppInit (getenv : List UInt8 → Option (List UInt8)) (table : List Opt)
    (argv : List (List UInt8)) : Init :=
  match register getenv table with
  | none => .fault
  | some opts => parseArgs argv.tail opts

/-- `ina_opt_get_string`. -/
def inaOptGetString (opts : List Sopt) (name : List UInt8) : Except Err (Option (List UInt8)) :=
  match optGet opts name with
  | none => .error .optionNotExists
  | some i => .ok (opts[i]?.bind Sopt.value)

end Options
end Inac
