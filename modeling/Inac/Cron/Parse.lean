import Mathlib.Algebra.Ring.Int.Defs
import Mathlib.Algebra.Ring.Nat
import Mathlib.Logic.Function.Basic
import Inac.Cron.Defs

/-!
# The pattern parser of `src/cron.c`

`ina_cron_parse_pattern` passes a pointer through five calls of `__ina_parse_field`, one for each
array of the timetable. A field is read by one loop that puts the values of an item into `n1` and
`n2`, where a negative number means "not read yet", and at the end of each item sets the entries
from `n1` to `n2` in the array of the field.

A pointer into the pattern is the list of the characters from there to the terminator. `int` is 32
bits wide and `long` 64; a conversion to `int` keeps the low bits. Where the C code writes outside
the array of the field the model stops with `fault`. What a parse that fails leaves in the arrays
is not kept, since nothing reads it.
-/

namespace Inac
namespace Cron

/-! ## Numbers

As in the C locale. -/

def isBlank (c : Char) : Bool := c = ' ' || c = '\t' || c = '\n'

/-- `isspace` in the C locale. -/
def isSpace (c : Char) : Bool := isBlank c || c = '\x0b' || c = '\x0c' || c = '\r'

/-- The number that a string of digits stands for. -/
def decimal (ds : List Char) : Nat := ds.foldl (fun n c => 10 * n + (c.toNat - 48)) 0

def longMax : Int := 2 ^ 63 - 1  -- `LONG_MAX`
def longMin : Int := -2 ^ 63  -- `LONG_MIN`

/-- The optional sign: whether it is `'-'`, and what follows. -/
def readSign : List Char → Bool × List Char
  | [] => (false, [])
  | c :: t => if c = '-' then (true, t) else if c = '+' then (false, t) else (false, c :: t)

/-- `strtol(ptr, &ptr, 10)`: the number and the new `ptr`. Without digits the pointer stays. -/
def strtol (t : List Char) : Int × List Char :=
  let (neg, u) := readSign (t.dropWhile isSpace)
  let n : Int := decimal (u.takeWhile Char.isDigit)
  if u.takeWhile Char.isDigit = [] then (0, t)
  else (max longMin (min longMax (if neg then -n else n)), u.dropWhile Char.isDigit)

/-- `(int)v`. -/
def toInt (v : Int) : Int := v.bmod (2 ^ 32)

/-! ## Fields

A field is told apart by the arguments of `__ina_parse_field` alone. -/

/-- The arguments of `__ina_parse_field` that say which field it is; `names` is empty for `NULL`. -/
structure Field where
  modvalue : Nat
  off : Int
  names : List (List Char)

def dowArray : List (List Char) :=  -- `dow_array`
  [['s', 'u', 'n'], ['m', 'o', 'n'], ['t', 'u', 'e'], ['w', 'e', 'd'], ['t', 'h', 'u'],
    ['f', 'r', 'i'], ['s', 'a', 't'],
    ['S', 'u', 'n'], ['M', 'o', 'n'], ['T', 'u', 'e'], ['W', 'e', 'd'], ['T', 'h', 'u'],
    ['F', 'r', 'i'], ['S', 'a', 't']]

def monArray : List (List Char) :=  -- `mon_array`
  [['j', 'a', 'n'], ['f', 'e', 'b'], ['m', 'a', 'r'], ['a', 'p', 'r'], ['m', 'a', 'y'],
    ['j', 'u', 'n'], ['j', 'u', 'l'], ['a', 'u', 'g'], ['s', 'e', 'p'], ['o', 'c', 't'],
    ['n', 'o', 'v'], ['d', 'e', 'c'],
    ['J', 'a', 'n'], ['F', 'e', 'b'], ['M', 'a', 'r'], ['A', 'p', 'r'], ['M', 'a', 'y'],
    ['J', 'u', 'n'], ['J', 'u', 'l'], ['A', 'u', 'g'], ['S', 'e', 'p'], ['O', 'c', 't'],
    ['N', 'o', 'v'], ['D', 'e', 'c']]

/-- The arrays of the timetable, in the order in which they are parsed. -/
inductive Col where
  | mins | hours | days | mons | dow
  deriving DecidableEq, Repr

def Col.all : List Col := [.mins, .hours, .days, .mons, .dow]

/-- The calls of `__ina_parse_field` in `ina_cron_parse_pattern`. -/
def Col.field : Col → Field
  | .mins => ⟨60, 0, []⟩
  | .hours => ⟨24, 0, []⟩
  | .days => ⟨32, 0, []⟩
  | .mons => ⟨12, -1, monArray⟩
  | .dow => ⟨7, 0, dowArray⟩

/-- What stands for a value in a field: `'*'`, the digits of a number, or the name at an index. -/
inductive Val where
  | star
  | num (digits : List Char)
  | name (i : Nat)
  deriving DecidableEq, Repr

/-- The branches "numeric digit or symbol or '*'": the value at the pointer and the new pointer. -/
def readVal (f : Field) : List Char → Option (Val × List Char)
  | [] => none
  | c :: t =>
    if c = '*' then some (.star, t)
    else if c.isDigit then
      some (.num ((c :: t).takeWhile Char.isDigit), (c :: t).dropWhile Char.isDigit)
    else
      -- `strncmp(ptr, names[i], strlen(names[i])) == 0`
      match f.names.findIdx? fun name => name.isPrefixOf (c :: t) with
      | some i => some (.name i, (c :: t).drop (f.names.getD i []).length)
      | none => none

/-- The value as an `int`: of a number with the offset of the field, of a name its index. -/
def Val.int (f : Field) : Val → Int
  | .star => 0
  | .num ds => toInt (toInt (strtol ds).1 + f.off)
  | .name i => i

/-- What a value does to `n1` and `n2`. -/
def put (f : Field) (n : Int × Int) : Val → Int × Int
  | .star => (0, f.modvalue - 1)
  | v => if n.1 < 0 then (v.int f, n.2) else (n.1, v.int f)

/-! ## `__ina_parse_field`

The loop is cut where the source has comments: a value is read, then a `'-'` sends it round again
for the second one, and otherwise the step is read and the array filled. -/

inductive Stop where
  | null  -- `NULL` is returned
  | fault  -- an entry outside the array is written
  deriving DecidableEq, Repr

/-- The loop that fills the array, with the number of rounds that `failsafe` leaves. -/
def fillLoop (modvalue n2 skip : Int) :
    Nat → Int → Int → (Nat → Bool) → Except Stop (Nat → Bool)
  | 0, _, _, _ => .error .null
  | failsafe + 1, n1, s0, ary => do
    let n1 := (n1 + 1).tmod modvalue
    let (ary, s0) ←
      if s0 - 1 = 0 then
        let i := n1.tmod modvalue
        if i < 0 ∨ modvalue ≤ i then .error .fault
        else .ok (Function.update ary i.toNat true, skip)
      else .ok (ary, s0 - 1)
    if n1 = n2 then .ok ary else fillLoop modvalue n2 skip failsafe n1 s0 ary

def fill (f : Field) (n1 n2 skip : Int) (ary : Nat → Bool) : Except Stop (Nat → Bool) :=
  fillLoop f.modvalue n2 skip 1024 (n1 - 1) 1 ary

/-- The pointer is at a blank or at the terminator. -/
def atEnd : List Char → Bool
  | [] => true
  | c :: _ => isBlank c

/-- The step of an item and the new pointer. -/
def readStep (t : List Char) : Int × List Char :=
  match t with
  | [] => (1, [])
  | c :: u => if c = '/' then (toInt (strtol u).1, (strtol u).2) else (1, c :: u)

/-- What follows the loop: the end of the field and the blanks after it. -/
def finishField (ary : Nat → Bool) (t : List Char) : Except Stop ((Nat → Bool) × List Char) :=
  if atEnd t then .ok (ary, t.dropWhile isBlank) else .error .null

/-- The loop of `__ina_parse_field`; each round takes something from the text, so `fuel` can be its
    length. -/
def parseLoop (f : Field) :
    Nat → Int × Int → (Nat → Bool) → List Char → Except Stop ((Nat → Bool) × List Char)
  | 0, _, _, _ => .error .null
  | fuel + 1, n, ary, t =>
    if atEnd t then finishField ary t
    else
      match readVal f t with
      | none => .error .null
      | some (v, t) =>
        let n := put f n v
        if t.head? = some '-' ∧ n.2 < 0 then parseLoop f fuel n ary t.tail
        else do
          -- "collapse single-value ranges, handle skipmark, and fill in the character array"
          let n2 := if n.2 < 0 then n.1 else n.2
          let (skip, t) := readStep t
          let ary ← fill f n.1 n2 skip ary
          if t.head? = some ',' then parseLoop f fuel (-1, -1) ary t.tail
          else finishField ary t

/-- `__ina_parse_field`. -/
def parseField (f : Field) (ary : Nat → Bool) (t : List Char) :
    Except Stop ((Nat → Bool) × List Char) :=
  parseLoop f (t.length + 1) (-1, -1) ary t

/-! ## `ina_cron_parse_pattern`

Each of the five calls begins where the one before it has stopped, and the last one may stop
anywhere. -/

def Timetable.get (tt : Timetable) : Col → Nat → Bool
  | .mins => tt.mins
  | .hours => tt.hours
  | .days => tt.days
  | .mons => tt.mons
  | .dow => tt.dow

def Timetable.set (tt : Timetable) (c : Col) (ary : Nat → Bool) : Timetable :=
  match c with
  | .mins => { tt with mins := ary }
  | .hours => { tt with hours := ary }
  | .days => { tt with days := ary }
  | .mons => { tt with mons := ary }
  | .dow => { tt with dow := ary }

def Timetable.zero : Timetable :=  -- after `INA_MEM_SET_ZERO`
  ⟨fun _ => false, fun _ => false, fun _ => false, fun _ => false, fun _ => false⟩

/-- The five calls, from the given arrays and pointer. -/
def parseCols : List Col → Timetable → List Char → Except Stop (Timetable × List Char)
  | [], tt, t => .ok (tt, t)
  | c :: cols, tt, t => do
    let (ary, t) ← parseField c.field (tt.get c) t
    parseCols cols (tt.set c ary) t

/-- An entry of the array is zero. -/
def used (n : Nat) (ary : Nat → Bool) : Bool := (List.range n).any fun i => !ary i

/-- "fix days and dow - if one is not * and the other is *, the other is set to 0, and
    vise-versa". -/
def fixDays (tt : Timetable) : Timetable :=
  let weekUsed := used 7 tt.dow
  let daysUsed := used 32 tt.days
  let tt' := if weekUsed && !daysUsed then { tt with days := fun _ => false } else tt
  if daysUsed && !weekUsed then { tt' with dow := fun _ => false } else tt'

/-- How a call ends that does not succeed. -/
inductive Fail where
  | rc (e : Err)
  | fault
  deriving DecidableEq, Repr

/-- `ina_cron_parse_pattern`. -/
def parsePattern (pattern : List Char) (tt : Timetable) : Except Fail Timetable :=
  if pattern = [] then .error (.rc .invalidArgument)
  else
    match parseCols Col.all tt pattern with
    | .ok (tt, _) => .ok (fixDays tt)
    | .error .null => .error (.rc .invalidPattern)
    | .error .fault => .error .fault

end Cron
end Inac
