import Mathlib.Algebra.Ring.Nat
import Inac.Lib.Glob

/-!
# Wildcard matching (`ina_str_wildcard_match`, `src/string.c`)

One loop walks through the text and the pattern. A `'*'` sets a pair of bookmarks: the place in the
pattern behind the stars and the place in the text where the stretch after them is first tried. On
a mismatch the matcher goes back to the bookmark in the pattern and to the next place in the text
behind its own bookmark, with one shortcut: if the symbol that did not match is the one the stretch
begins with, the next attempt starts there, and the places in between are left for later.

They are tried later only if that attempt fails before the stretch or the text ends. If it gets to
the next `'*'`, to the end of the text or, as the shortcut does not look for the terminator, over
it, a place that was left out is not tried any more.

A pointer into a string is the list of the bytes from there to the terminator. The terminator is
read as `none`, and moving on from it leads out of bounds.
-/

namespace Inac
namespace Wildcard

open Lib

def star : UInt8 := 42  -- `'*'`

def quest : UInt8 := 63  -- `'?'`

inductive Result where
  | success  -- `INA_SUCCESS`
  | notMatch  -- `INA_ES_TEXT | INA_ERR_NOT_MATCH`
  | outOfBounds  -- a read behind a terminator
  deriving DecidableEq, Repr

/-- `pTameText`, `pWildText` and the bookmarks `pTameBookmark`, `pWildBookmark`, which are set
    together. -/
structure State where
  tame : List UInt8
  wild : List UInt8
  marks : Option (List UInt8 × List UInt8)
  deriving DecidableEq, Repr

inductive Next where
  | goOn (s : State)
  | stop (r : Result)
  deriving DecidableEq, Repr

/-! ## The loop

A round ends the loop with a result, or goes on with two pointers and the bookmarks. -/

def skipStars (wild : List UInt8) : List UInt8 := wild.dropWhile (· = star)

/-- "Fast-forward to next possible match": the first place from `tame` on that holds `c`, or what
    the loop returns without one. -/
def fastForward (c : UInt8) : List UInt8 → Except Result (List UInt8)
  | [] => .error .outOfBounds
  | x :: tame =>
    if x = c then .ok (x :: tame)
    else if tame = [] then .error .notMatch
    else fastForward c tame

/-- The end of the loop's body, from `pTameText++` on. -/
def advance (s : State) : Next :=
  match s.tame with
  | [] => .stop .outOfBounds
  | _ :: tame =>
    let wild := s.wild.tail
    if tame = [] then .stop (if skipStars wild = [] then .success else .notMatch)
    else .goOn { s with tame := tame, wild := wild }

/-- The branch for `*pWildText == '*'`. -/
def onStar (s : State) : Next :=
  match skipStars s.wild with
  | [] => .stop .success
  | c :: wild =>
    if c = quest then advance ⟨s.tame, c :: wild, some (s.tame, c :: wild)⟩
    else
      match fastForward c s.tame with
      | .error r => .stop r
      | .ok tame => advance ⟨tame, c :: wild, some (tame, c :: wild)⟩

/-- The branch for a symbol that does not match. -/
def onMismatch (s : State) : Next :=
  match s.marks with
  | none => .stop .notMatch
  | some (tb, wb) =>
    if s.wild ≠ wb then
      if s.tame.head? ≠ wb.head? then
        -- "Don't go this far back again."
        match tb with
        | [] => .stop .outOfBounds
        | _ :: tb => .goOn ⟨tb, wb, some (tb, wb)⟩
      else if s.tame = [] then .stop .notMatch
      else .goOn ⟨s.tame.tail, wb.tail, some (tb, wb)⟩
    else if s.tame = [] then .stop .notMatch
    else .goOn ⟨s.tame.tail, s.wild, some (tb, wb)⟩

/-- One round of the loop. -/
def step (s : State) : Next :=
  if s.wild.head? = some star then onStar s
  else if s.tame.head? ≠ s.wild.head? ∧ s.wild.head? ≠ some quest then onMismatch s
  else advance s

def loop : Nat → State → Option Result
  | 0, _ => none
  | n + 1, s =>
    match step s with
    | .stop r => some r
    | .goOn s => loop n s

def start (tame wildcard : List UInt8) : State := ⟨tame, wildcard, none⟩

/-- Enough rounds for every run. -/
def rounds (tame wildcard : List UInt8) : Nat :=
  (wildcard.length + 1) * (tame.length + 1) * (tame.length + 1) + tame.length + 1

/-- `ina_str_wildcard_match`. -/
def wildcardMatch (tame wildcard : List UInt8) : Option Result :=
  loop (rounds tame wildcard) (start tame wildcard)

/-! ## The pattern's meaning

That of `Inac.Lib.Glob`, with `'*'` and `'?'` as the two tokens that stand for more than one symbol.
-/

def tok (c : UInt8) : Tok UInt8 :=
  if c = star then .many else if c = quest then .one else .lit c

def toks (wildcard : List UInt8) : List (Tok UInt8) := wildcard.map tok

/-- The pattern matches the text in the mathematical sense. -/
def Matches (wildcard tame : List UInt8) : Prop := Glob (toks wildcard) tame

instance (wildcard tame : List UInt8) : Decidable (Matches wildcard tame) :=
  decidableGlob (toks wildcard) tame

end Wildcard
end Inac
