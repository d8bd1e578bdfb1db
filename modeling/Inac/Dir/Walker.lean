import Inac.Err
import Inac.Lib.Bytes
import Inac.Str.Case

/-!
# The directory walker (`src/dir.c`)

A walker lists its directory at the first read into an array of 1024 entries, sorts them and steps
through them. Where it stands is told by three pointers into the array: `first` is null while
nothing was listed, `current` is null before the first entry, and the walk is over when `current`
is `last`. `ina_dir_walker_reset` and `ina_dir_walker_reload` each set one pointer to null.

Nothing bounds the listing: the entry behind the last one of the array is stored outside of it.
-/

namespace Inac
namespace Dir

open Lib Str

/-! ## Directories

What `readdir` gives, and what of it the walker keeps. -/

/-- The `d_type` of a directory entry, as `readdir` documents it. -/
inductive DType where
  | unknown | fifo | sock | chr | blk | lnk | reg | dir
  deriving DecidableEq, Repr

/-- `ina_dir_entry_type_t`. -/
inductive EntryType where
  | unknown
  | file
  | dir
  deriving DecidableEq, Repr

/-- The value of the enumerator. -/
def EntryType.toNat : EntryType → Nat
  | .unknown => 0
  | .file => 1
  | .dir => 2

/-- A C string, without its NUL. -/
structure Name where
  bytes : List UInt8
  nulFree : 0 ∉ bytes
  deriving DecidableEq

/-- `struct dirent`. -/
structure Dirent where
  dName : Name
  dType : DType

/-- `ina_dir_entry_t`; the walker leaves its `size` alone. -/
structure Entry where
  name : Name
  type : EntryType
  deriving DecidableEq

/-- `switch (f->d_type)`. -/
def DType.entryType : DType → EntryType
  | .unknown | .fifo | .sock | .chr | .blk | .lnk => .unknown
  | .reg => .file
  | .dir => .dir

def Dirent.entry (f : Dirent) : Entry := ⟨f.dName, f.dType.entryType⟩

/-! ## Sort settings

Two settings choose one of four comparisons, or none. -/

inductive SortOrder where
  | none | ascend | descend
  deriving DecidableEq, Repr

inductive SortAttrib where
  | dft | name | type
  deriving DecidableEq, Repr

/-- The four comparison functions. -/
inductive SortCb where
  | nameAscend | nameDescend | typeAscend | typeDescend
  deriving DecidableEq, Repr

/-- `__ina_dir_walker_cmp_name_ascend`; a name ends in its NUL. -/
def cmpName (a b : Entry) : Int :=
  (strcasecmp (a.name.bytes ++ [0]) (b.name.bytes ++ [0])).getD 0

/-- `__ina_dir_walker_cmp_type_ascend`. -/
def cmpType (a b : Entry) : Int :=
  if a.type.toNat < b.type.toNat then -1
  else if a.type = b.type then 0
  else if b.type.toNat < a.type.toNat then 1
  else 0

def SortCb.cmp : SortCb → Entry → Entry → Int
  | .nameAscend, a, b => cmpName a b
  | .nameDescend, a, b => cmpName b a
  | .typeAscend, a, b => cmpType a b
  | .typeDescend, a, b => cmpType b a

/-- `__ina_dir_walker_set_sort_cb`. -/
def sortCbOf : SortOrder → SortAttrib → Option SortCb
  | .none, _ => .none
  | .ascend, .dft | .ascend, .name => some .nameAscend
  | .ascend, .type => some .typeAscend
  | .descend, .dft | .descend, .name => some .nameDescend
  | .descend, .type => some .typeDescend

/-- The comparison is a total order up to ties, as `qsort` asks for. -/
structure Consistent {α : Type} (cmp : α → α → Int) : Prop where
  total : ∀ a b, cmp a b ≤ 0 ∨ cmp b a ≤ 0
  trans : ∀ a b c, cmp a b ≤ 0 → cmp b c ≤ 0 → cmp a c ≤ 0

/-- `qsort`, of which nothing is known but that it sorts. -/
structure Qsort where
  sort : (Entry → Entry → Int) → List Entry → List Entry
  perm : ∀ cmp l, Consistent cmp → (sort cmp l).Perm l
  sorted : ∀ cmp l, Consistent cmp → (sort cmp l).Pairwise fun a b => cmp a b ≤ 0

/-! ## The walker

The three pointers are places in the array, and may be null. -/

/-- The length of the array that `head` points to. -/
def maxEntries : Nat := 1024

/-- `struct ina_dir_walker_s`. The pointers are distances from `head`, and `entries` is the memory
    from there on. -/
structure Walker where
  first : Option Nat
  last : Option Nat
  current : Option Nat
  entries : Nat → Entry
  sortOrder : SortOrder
  sortAttrib : SortAttrib
  sortCb : Option SortCb

/-- `ina_dir_walker_new`; `memory` is what the array holds before anything was stored. -/
def inaDirWalkerNew (memory : Nat → Entry) : Walker :=
  ⟨none, none, none, memory, .none, .dft, none⟩

/-- A sort setting. -/
inductive Setting where
  | order (order : SortOrder)
  | attrib (attrib : SortAttrib)
  deriving DecidableEq, Repr

/-- `ina_dir_walker_set_sort_order` and `ina_dir_walker_set_sort_attrib`. -/
def setSort (w : Walker) : Setting → Walker
  | .order o => { w with sortOrder := o, sortCb := sortCbOf o w.sortAttrib }
  | .attrib a => { w with sortAttrib := a, sortCb := sortCbOf w.sortOrder a }

/-- `walker->last` moved to `last`, and the entry stored there. -/
def Walker.store (w : Walker) (last : Nat) (e : Entry) : Walker :=
  { w with
    first := w.first.or (some 0), last := some last, entries := putBytes w.entries last [e] }

/-- One round of the loop over `readdir`; `none` when the entry would be stored outside of the
    array. -/
def readEntry (w : Walker) (f : Dirent) : Option Walker := do
  let last ← if w.first.isNone then some 0 else w.last.map (· + 1)
  if last < maxEntries then some (w.store last f.entry) else none

/-- The call of `qsort`, if there is a comparison and something to sort. -/
def sortEntries (q : Qsort) (w : Walker) : Walker :=
  match w.first, w.last, w.sortCb with
  | some first, some last, some cb =>
    let listed := (List.range (last - first + 1)).map fun i => w.entries (first + i)
    { w with entries := putBytes w.entries first (q.sort cb.cmp listed) }
  | _, _, _ => w

/-- `walker->current = walker->first`. -/
def Walker.toFirst (w : Walker) : Walker := { w with current := w.first }

/-- The branch that lists the directory; `dir` is `none` when `opendir` fails. -/
def load (q : Qsort) (dir : Option (List Dirent)) (w : Walker) : Option Walker := do
  let w := { w with last := none }
  let w ← match dir with
    | none => some w
    | some fs => (fs.foldlM readEntry w).map Walker.toFirst
  some (sortEntries q w).toFirst

/-- `*entry = walker->current`, with where it points to. -/
def Walker.answer (w : Walker) (current : Nat) : Except Err (Nat × Entry) :=
  .ok (current, w.entries current)

/-- `ina_dir_walker_get_next_entry`. -/
def getNextEntry (q : Qsort) (dir : Option (List Dirent)) (w : Walker) :
    Option (Except Err (Nat × Entry) × Walker) :=
  match w.first with
  | none => (load q dir w).map fun w =>
    match w.current with
    | none => (.error .enumerationEmpty, w)
    | some current => (w.answer current, w)
  | some first =>
    match w.current with
    | none => some (w.answer first, { w with current := some first })
    | some current =>
      if w.current = w.last then some (.error .enumerationEndOf, w)
      else some (w.answer (current + 1), { w with current := some (current + 1) })

/-- `ina_dir_walker_reset`. -/
def reset (w : Walker) : Walker := { w with current := none }

/-- `ina_dir_walker_reload`. -/
def reload (w : Walker) : Walker := { w with first := none }

/-! ## Visits

What a client does between two reloads. -/

/-- A call between two reloads, and what it gives back. -/
inductive Call where
  | getNextEntry
  | reset
  deriving DecidableEq, Repr

inductive Out where
  | entry (index : Nat) (e : Entry)
  | error (e : Err)
  | success
  deriving DecidableEq

def Out.ofRead : Except Err (Nat × Entry) → Out
  | .ok (index, e) => .entry index e
  | .error e => .error e

def step (q : Qsort) (fs : List Dirent) (w : Walker) : Call → Option (Out × Walker)
  | .getNextEntry => (getNextEntry q (some fs) w).map fun r => (Out.ofRead r.1, r.2)
  | .reset => some (.success, reset w)

/-- The calls of a visit of a directory whose entries stay `fs`. -/
def visit (q : Qsort) (fs : List Dirent) : Walker → List Call → Option (List Out × Walker)
  | w, [] => some ([], w)
  | w, c :: cs => do
    let (out, w) ← step q fs w c
    let (outs, w) ← visit q fs w cs
    some (out :: outs, w)

end Dir
end Inac
