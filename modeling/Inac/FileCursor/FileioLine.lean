import Inac.Err
import Inac.Str.Defs

/-!
# Lines of a file that is read (`src/file_cursor.c`)

`ina_file_cursor_fileio_text_read_line` reads the file chunk by chunk. It adds what is in front of
the first newline of a chunk to the string `next_line`, returns a copy of it, and starts a new
`next_line` with what is left of the chunk.

`next_line` and `line` are fields of a block from `malloc` that nothing sets. The first call frees
`line` unless the block happens to hold `NULL` there, and adds the first bytes of the file to a
string that there is not. Only on an empty file does it return before that.

Were `next_line` a string, the end of the file would still not end the loop that looks for a
newline, and what is left of a chunk starts with the newline it was found by, so that every line but
the first would start with one.

Strings are their bytes. The asserts of the string functions are compiled out. A call that uses a
pointer that points at no string has no result.
-/

namespace Inac
namespace FileCursor

open Str (memAlloc)

/-! ## The cursor

The two strings are pointers, since what they point to is the question here. -/

/-- An `ina_str_t` of the cursor. -/
inductive Ptr where
  | null
  | stray  -- it points at no string
  | str (bytes : List UInt8)
  deriving DecidableEq, Repr

/-- The `ext.f` of `struct ina_file_cursor_s`, with what the file has left. -/
structure Fileio where
  rest : List UInt8
  eof : Bool
  bufferSize : Nat
  position : Nat
  buffer : List UInt8
  line : Ptr
  nextLine : Ptr

/-- A pointer field of a block that `malloc` gave and nothing wrote to. -/
inductive Unset where
  | null
  | stray
  deriving DecidableEq, Repr

def Unset.ptr : Unset → Ptr
  | .null => .null
  | .stray => .stray

/-- What the cursor's block and its buffer happen to hold. -/
structure Held where
  buffer : Nat → UInt8
  line : Unset
  nextLine : Unset

/-- `ina_file_cursor_new` with `INA_FILE_CURSOR_TYPE_FILEIO`. -/
def fileioNew (held : Held) (file : List UInt8) (bufferSize : Nat) : Fileio :=
  { rest := file, eof := false, bufferSize := bufferSize, position := 0,
    buffer := memAlloc held.buffer bufferSize, line := held.line.ptr,
    nextLine := held.nextLine.ptr }

/-! ## Reading

One chunk at a time. What is not found in a chunk is added to `next_line`. -/

/-- What one `read` gives at most: 2^31 bytes but a page. -/
def maxRead : Nat := 2 ^ 31 - 4096

/-- `ina_file_cursor_fileio_text_read_chunk`, through `ina_file_read`, which refuses to read
    nothing. -/
def readChunk (c : Fileio) (requested : Nat) : Except Err (Nat × Fileio) :=
  if requested = 0 then .error .invalidArgument
  else
    let nread := min (min requested c.rest.length) maxRead
    .ok (nread, { c with
      rest := c.rest.drop nread, buffer := c.rest.take nread ++ c.buffer.drop nread,
      position := c.position + nread, eof := c.eof || nread = 0 })

/-- `ina_str_ncatcstr` of `n` of the bytes behind `src`. -/
def ncatcstr (dest : Ptr) (src : List UInt8) (n : Nat) : Option (List UInt8) :=
  match dest with
  | .str bytes => if n ≤ src.length then some (bytes ++ src.take n) else none
  | .null | .stray => none

/-- `ina_str_free` of a field that is not `NULL`. -/
def freed : Ptr → Option Ptr
  | .null => some .null
  | .str _ => some .stray
  | .stray => none

/-- How a call ends; `*begin_line` is `none` where it is `NULL`. -/
inductive Line where
  | rc (rc : Except Err (Option (List UInt8)))
  | fault
  deriving DecidableEq, Repr

/-- `'\n'`. -/
def newline : UInt8 := 10

/-- The branch for a newline at `i`. The string that is copied ends at its first NUL. -/
def lineFound (c : Fileio) (nread i : Nat) : Line × Fileio :=
  match ncatcstr c.nextLine c.buffer i with
  | none => (.fault, c)
  | some nextLine =>
    let line := nextLine.takeWhile (· ≠ 0)
    match ncatcstr (.str []) (c.buffer.drop i) nread with
    | none => (.fault, c)
    | some nextLine =>
      (.rc (.ok (some line)), { c with line := .str line, nextLine := .str nextLine })

/-- `for (;;)`, as long as there is fuel. No chunk is so long that the `unsigned int` wraps. -/
def lineLoop : Nat → Fileio → Nat → Option (Line × Fileio)
  | 0, _, _ => none
  | fuel + 1, c, nread =>
    match (c.buffer.take nread).idxOf? newline with
    | some i => some (lineFound c nread i)
    | none =>
      match ncatcstr c.nextLine c.buffer nread with
      | none => some (.fault, c)
      | some nextLine =>
        let c := { c with nextLine := .str nextLine }
        match readChunk c c.bufferSize with
        | .error e => some (.rc (.error e), c)
        | .ok (nread, c) => lineLoop fuel c nread

/-- `ina_file_cursor_fileio_text_read_line`. -/
def fileioTextReadLine (fuel : Nat) (c : Fileio) : Option (Line × Fileio) :=
  match freed c.line with
  | none => some (.fault, c)
  | some line =>
    let c := { c with line := line }
    match readChunk c c.bufferSize with
    | .error e => some (.rc (.error e), c)
    | .ok (nread, c) =>
      if nread = 0 then some (.rc (.ok none), c) else lineLoop fuel c nread

/-! ## What is asked of it

Calls that return the lines of the file one by one, and `NULL` behind the last. -/

/-- The lines of a file: each but the last ends with a newline, which is not part of it. -/
def LinesOf (file : List UInt8) (lines : List (List UInt8)) : Prop :=
  (∀ line ∈ lines, newline ∉ line) ∧
    (file = lines.flatMap (· ++ [newline]) ∨
      ∃ front last, lines = front ++ [last] ∧ last ≠ [] ∧
        file = front.flatMap (· ++ [newline]) ++ last)

/-- Every call ends, and they return the lines and then `NULL`. -/
def Reads : Fileio → List (List UInt8) → Prop
  | c, [] => ∃ fuel c', fileioTextReadLine fuel c = some (.rc (.ok none), c')
  | c, line :: lines =>
    ∃ fuel c', fileioTextReadLine fuel c = some (.rc (.ok (some line)), c') ∧ Reads c' lines

/-- A new cursor reads the file line by line. -/
def ReadByLines (held : Held) (file : List UInt8) (bufferSize : Nat) : Prop :=
  ∃ lines, LinesOf file lines ∧ Reads (fileioNew held file bufferSize) lines

/-- An empty file, and a block with `NULL` where `line` is. -/
def NothingToRead (held : Held) (file : List UInt8) : Prop :=
  file = [] ∧ held.line = .null

/-! ## The strings

An append needs a string to append to. -/

theorem ncatcstr_unset (u : Unset) (src : List UInt8) (n : Nat) :
    ncatcstr u.ptr src n = none := by
  cases u <;> rfl

/-- The branch for a newline returns a line, if it returns. -/
theorem lineFound_line {c c' : Fileio} {nread i : Nat} {out : Option (List UInt8)}
    (h : lineFound c nread i = (.rc (.ok out), c')) : out ≠ none := by
  rw [lineFound] at h
  cases hnext : ncatcstr c.nextLine c.buffer i with
  | none =>
    rw [hnext] at h
    cases h
  | some nextLine =>
    simp only [hnext] at h
    cases hleft : ncatcstr (.str []) (c.buffer.drop i) nread with
    | none =>
      rw [hleft] at h
      cases h
    | some left =>
      simp only [hleft, Prod.mk.injEq, Line.rc.injEq, Except.ok.injEq] at h
      rw [← h.1]
      exact Option.some_ne_none _

/-! ## The loop

It ends by a return only where it has found a newline. -/

/-- Without a string to add to the loop is left at once, and not by a return. -/
theorem lineLoop_unset {u : Unset} {c c' : Fileio} (hc : c.nextLine = u.ptr) (fuel nread : Nat)
    (rc : Except Err (Option (List UInt8))) : lineLoop fuel c nread ≠ some (.rc rc, c') := by
  cases fuel with
  | zero => simp [lineLoop]
  | succ fuel =>
    rw [lineLoop]
    cases (c.buffer.take nread).idxOf? newline with
    | none => simp [hc, ncatcstr_unset]
    | some i => simp [lineFound, hc, ncatcstr_unset]

/-- A chunk that was read is the front of what the file had left. -/
theorem readChunk_ok {c c' : Fileio} {requested nread : Nat}
    (h : readChunk c requested = .ok (nread, c')) :
    nread = min (min requested c.rest.length) maxRead ∧ c'.rest = c.rest.drop nread ∧
      c'.buffer.take nread = c.rest.take nread ∧ c'.nextLine = c.nextLine := by
  rw [readChunk] at h
  by_cases hreq : requested = 0
  · rw [if_pos hreq] at h
    cases h
  · simp only [if_neg hreq, Except.ok.injEq, Prod.mk.injEq] at h
    obtain ⟨rfl, rfl⟩ := h
    refine ⟨rfl, rfl, ?_, rfl⟩
    have hlen : (c.rest.take (min (min requested c.rest.length) maxRead)).length
        = min (min requested c.rest.length) maxRead := by
      rw [List.length_take]
      omega
    rw [List.take_append_of_le_length (by rw [hlen]), List.take_take, Nat.min_self]

/-- The loop over the chunks returns a line as well: a chunk without a newline is added to the
    string, and the loop goes on with the next one. -/
theorem lineLoop_line {c c' : Fileio} {fuel nread : Nat} {out : Option (List UInt8)}
    (h : lineLoop fuel c nread = some (.rc (.ok out), c')) : out ≠ none := by
  induction fuel generalizing c nread with
  | zero => cases h
  | succ fuel ih =>
    rw [lineLoop] at h
    cases hi : (c.buffer.take nread).idxOf? newline with
    | some i =>
      rw [hi] at h
      exact lineFound_line (Option.some.inj h)
    | none =>
      simp only [hi] at h
      cases hcat : ncatcstr c.nextLine c.buffer nread with
      | none =>
        rw [hcat] at h
        cases h
      | some bytes =>
        simp only [hcat] at h
        cases hread : readChunk { c with nextLine := .str bytes } c.bufferSize with
        | error e =>
          rw [hread] at h
          cases h
        | ok r =>
          rw [hread] at h
          exact ih h

/-! ## A call

It frees `line`, reads a chunk, and enters the loop unless the chunk is empty. -/

/-- A call that succeeds has freed `line`, read a chunk, and met the end of the file or gone on
    with the chunk. -/
theorem fileioTextReadLine_ok {c c' : Fileio} {fuel : Nat} {out : Option (List UInt8)}
    (h : fileioTextReadLine fuel c = some (.rc (.ok out), c')) :
    ∃ line nread d, freed c.line = some line ∧
      readChunk { c with line := line } c.bufferSize = .ok (nread, d) ∧
      (nread = 0 ∧ out = none ∨ 0 < nread ∧ lineLoop fuel d nread = some (.rc (.ok out), c')) := by
  rw [fileioTextReadLine] at h
  cases hfree : freed c.line with
  | none =>
    rw [hfree] at h
    cases h
  | some line =>
    simp only [hfree] at h
    cases hread : readChunk { c with line := line } c.bufferSize with
    | error e =>
      rw [hread] at h
      cases h
    | ok r =>
      obtain ⟨nread, d⟩ := r
      simp only [hread] at h
      refine ⟨line, nread, d, rfl, hread, ?_⟩
      by_cases hzero : nread = 0
      · rw [if_pos hzero] at h
        cases h
        exact Or.inl ⟨hzero, rfl⟩
      · rw [if_neg hzero] at h
        exact Or.inr ⟨Nat.pos_of_ne_zero hzero, h⟩

/-- `NULL` is returned at the end of the file alone, if there is a buffer. -/
theorem fileioTextReadLine_none {c c' : Fileio} {fuel : Nat}
    (hsize : 0 < c.bufferSize) (h : fileioTextReadLine fuel c = some (.rc (.ok none), c')) :
    c.rest = [] := by
  obtain ⟨line, nread, d, -, hread, ⟨hzero, -⟩ | ⟨-, hloop⟩⟩ := fileioTextReadLine_ok h
  · have hn := (readChunk_ok hread).1
    rw [hzero, maxRead] at hn
    exact List.length_eq_zero_iff.mp (by dsimp only at hn; omega)
  · exact absurd rfl (lineLoop_line hloop)

/-! ## The cursor as it is made

Nothing has set its two strings. The first call frees one, and adds to the other if the file has a
byte. -/

/-- A call on a new cursor returns on an empty file alone, and only if `line` is `NULL`. -/
theorem first_call_ok {held : Held} {file : List UInt8} {bufferSize fuel : Nat}
    {out : Option (List UInt8)} {c' : Fileio} (hsize : 0 < bufferSize)
    (h : fileioTextReadLine fuel (fileioNew held file bufferSize) = some (.rc (.ok out), c')) :
    NothingToRead held file := by
  obtain ⟨line, nread, d, hfree, hread, ⟨hzero, hout⟩ | ⟨-, hloop⟩⟩ := fileioTextReadLine_ok h
  · subst hout
    refine ⟨fileioTextReadLine_none hsize h, ?_⟩
    cases hline : held.line with
    | null => rfl
    | stray =>
      rw [fileioNew, hline] at hfree
      cases hfree
  · exact absurd hloop (lineLoop_unset (u := held.nextLine) (readChunk_ok hread).2.2.2 fuel nread _)

/-- **The lines of a file are read** exactly when there are none: the file is empty, and the block
    of the cursor happens to hold `NULL` where `line` is. -/
theorem read_by_lines_iff_nothing (held : Held) (file : List UInt8) {bufferSize : Nat}
    (hsize : 0 < bufferSize) : ReadByLines held file bufferSize ↔ NothingToRead held file := by
  constructor
  · rintro ⟨lines, -, hreads⟩
    cases lines with
    | nil =>
      obtain ⟨fuel, c', hcall⟩ := hreads
      exact first_call_ok hsize hcall
    | cons line lines =>
      obtain ⟨fuel, c', hcall, -⟩ := hreads
      exact first_call_ok hsize hcall
  · rintro ⟨rfl, hline⟩
    refine ⟨[], ⟨fun line hmem => absurd hmem List.not_mem_nil, Or.inl rfl⟩, 0, ?_⟩
    have hpos := Nat.ne_of_gt hsize
    simp [fileioTextReadLine, fileioNew, hline, Unset.ptr, freed, readChunk, hpos]

theorem read_by_lines_iff_nothing_empty :
    ReadByLines ⟨fun _ => 7, .null, .null⟩ [] 16 ↔ NothingToRead ⟨fun _ => 7, .null, .null⟩ [] :=
  read_by_lines_iff_nothing _ _ (by decide)

/-- One line of two bytes, and a block of zeros: the first call adds a byte to the string at
    `NULL`. -/
theorem one_line_not_read : ¬ ReadByLines ⟨fun _ => 0, .null, .null⟩ [97, 10] 16 := by
  have hcall : ∀ fuel c' out, fileioTextReadLine fuel
      (fileioNew ⟨fun _ => 0, .null, .null⟩ [97, 10] 16) ≠ some (.rc (.ok out), c') := by
    intro fuel c' out
    cases fuel with
    | zero => exact Option.some_ne_none _ ∘ Eq.symm
    | succ fuel => exact fun h => Line.noConfusion (congrArg Prod.fst (Option.some.inj h))
  rintro ⟨lines, -, hreads⟩
  cases lines with
  | nil =>
    obtain ⟨fuel, c', h⟩ := hreads
    exact hcall fuel c' _ h
  | cons line lines =>
    obtain ⟨fuel, c', h, -⟩ := hreads
    exact hcall fuel c' _ h

end FileCursor
end Inac
