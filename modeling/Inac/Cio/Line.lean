import Inac.Err
import Inac.Str.Substr

/-!
# Reading a line (`src/cio.c`)

`__ina_cio_read_line` polls the standard input and reads a byte whenever there is one. A byte is
appended to the line, erases its last character, ends it, or is ignored. The blocking call polls
until the line ends; the other one returns with `INA_ERR_TRY_AGAIN` after each poll, and all it keeps
between two calls is the line.

So the polls that one blocking call makes are those that the other calls make one by one, and which
of them find a byte makes no difference to the line.

A line is a heap string, and appending to it may move it, so what fresh memory holds comes into the
model with each byte (`Poll`). It never shows: two lines that agree up to their NUL still do after
any byte (`alike_readByte`). Without that the two ways of reading could not be compared, as they
allocate at different times.

The comparison is in three steps. Calls that do not block make the polls of one that does
(`readLineAgain_eq`); the polls that find nothing can be left out (`inaCioReadLine_is`); and the
bytes alone decide what the line is (`alike_typed`). So two patterns of polls that find the same
bytes end in the same way.
-/

namespace Inac
namespace Cio

open Str (Hdr inaStrNew inaStrNewFromblk inaStrAppendChr strSubstrInternal)

/-! ## The code -/

/-- What a poll finds: nothing, a byte that cannot be read, or a byte. With it comes what fresh
    memory holds while it is dealt with. -/
inductive Poll where
  | idle
  | failed
  | byte (c : UInt8) (junk : Nat → UInt8)

/-- How a call ends: with the line, the return code and the polls that are left, with a write
    outside the line, or not as long as there are no more polls. -/
inductive Outcome where
  | returned (line : Option Hdr) (rc : Except Err Unit) (rest : List Poll)
  | outside
  | waiting

def readBufferChunkSize : Nat := 128  -- `__INA_CIO_READ_BUFFER_CHUNK_SIZE`

def endsLine (c : UInt8) : Bool := c = 10 ∨ c = 13

def erases (c : UInt8) : Bool := c = 8 ∨ c = 127

def printable (c : UInt8) : Bool := 32 ≤ c ∧ c ≤ 126

/-- `ina_str_substr` of a string on the heap. -/
def inaStrSubstr (junk : Nat → UInt8) (str : Hdr) (start stop : Nat) : Option Hdr :=
  inaStrNewFromblk junk (some (str.data.drop start)) (strSubstrInternal start stop str.len)

/-- `if (*line == NULL) *line = ina_str_new(..)`. -/
def ensureLine (junk : Nat → UInt8) : Option Hdr → Option Hdr
  | none => inaStrNew junk readBufferChunkSize
  | some line => some line

/-- What a byte does to the line, and whether the loop is left with success. -/
def readByte (rcv : Bool) (line : Option Hdr) (c : UInt8) (junk : Nat → UInt8) :
    Option (Hdr × Bool) := do
  let line ← ensureLine junk line
  if endsLine c then return (line, true)
  else if erases c then
    if line.len > 0 then return (← inaStrSubstr junk line 0 (Mempool.subSz line.len 1), false)
    else return (line, false)
  else if printable c then return (← inaStrAppendChr junk line c, rcv)
  else return (line, false)

/-- `__ina_cio_read_line`. -/
def cioReadLine (blocking rcv : Bool) : Option Hdr → List Poll → Outcome
  | _, [] => .waiting
  | line, .idle :: polls =>
    if !blocking then .returned line (.error .tryAgain) polls
    else cioReadLine blocking rcv line polls
  | line, .failed :: polls =>
    if !blocking then .returned line (.error .tryAgain) polls
    else cioReadLine blocking rcv line polls
  | line, .byte c junk :: polls =>
    match readByte rcv line c junk with
    | none => .outside
    | some (line, true) => .returned (some line) (.ok ()) polls
    | some (line, false) =>
      if !blocking then .returned (some line) (.error .tryAgain) polls
      else cioReadLine blocking rcv (some line) polls

def inaCioReadLine (line : Option Hdr) (polls : List Poll) : Outcome :=
  cioReadLine true false line polls

def inaCioReadLineNonBlock (line : Option Hdr) (polls : List Poll) : Outcome :=
  cioReadLine false false line polls

/-! ## Calls again and again

Each of these calls makes one poll and returns; that it is called again with the line it has left is
what its caller does. -/

/-- A call that does not block makes one poll. -/
theorem nonBlock_cons (line : Option Hdr) (poll : Poll) (polls : List Poll) :
    (∃ line' rc, inaCioReadLineNonBlock line (poll :: polls) = .returned line' rc polls) ∨
      inaCioReadLineNonBlock line (poll :: polls) = .outside := by
  rw [inaCioReadLineNonBlock]
  cases poll with
  | idle => exact Or.inl ⟨line, _, rfl⟩
  | failed => exact Or.inl ⟨line, _, rfl⟩
  | byte c junk =>
    rw [cioReadLine]
    split
    · exact Or.inr rfl
    · exact Or.inl ⟨_, _, rfl⟩
    · exact Or.inl ⟨_, _, rfl⟩

theorem nonBlock_rest {line line' : Option Hdr} {rc : Except Err Unit} {polls rest : List Poll}
    (h : inaCioReadLineNonBlock line polls = .returned line' rc rest) :
    rest.length < polls.length := by
  cases polls with
  | nil => cases h
  | cons poll polls =>
    rcases nonBlock_cons line poll polls with ⟨_, _, heq⟩ | heq
    · obtain ⟨-, -, rfl⟩ := Outcome.returned.inj (heq.symm.trans h)
      exact Nat.lt_succ_self _
    · cases heq.symm.trans h

/-- Calls of `ina_cio_read_line_non_block` with the same line until one does not say
    `INA_ERR_TRY_AGAIN`. -/
def readLineAgain (line : Option Hdr) (polls : List Poll) : Outcome :=
  match _hcall : inaCioReadLineNonBlock line polls with
  | .returned line' (.error .tryAgain) rest => readLineAgain line' rest
  | outcome => outcome
termination_by polls.length
decreasing_by exact nonBlock_rest (by assumption)

theorem readLineAgain_tryAgain {line line' : Option Hdr} {polls rest : List Poll}
    (h : inaCioReadLineNonBlock line polls = .returned line' (.error .tryAgain) rest) :
    readLineAgain line polls = readLineAgain line' rest := by
  rw [readLineAgain]
  split
  · rename_i hcall
    obtain ⟨rfl, -, rfl⟩ := Outcome.returned.inj (h.symm.trans hcall)
    rfl
  · rename_i hother
    exact absurd h (hother line' rest)

theorem readLineAgain_last {line : Option Hdr} {polls : List Poll} {o : Outcome}
    (h : inaCioReadLineNonBlock line polls = o)
    (hlast : ∀ line' rest, o ≠ .returned line' (.error .tryAgain) rest) :
    readLineAgain line polls = o := by
  rw [readLineAgain]
  split
  · rename_i hcall
    exact absurd (h.symm.trans hcall) (hlast _ _)
  · exact h

/-- **The calls that do not block make the polls of the one that does.** -/
theorem readLineAgain_eq (line : Option Hdr) (polls : List Poll) :
    readLineAgain line polls = inaCioReadLine line polls := by
  induction polls generalizing line with
  | nil => exact readLineAgain_last rfl fun _ _ h => by cases h
  | cons poll polls ih =>
    cases poll with
    | idle => exact (readLineAgain_tryAgain rfl).trans (ih line)
    | failed => exact (readLineAgain_tryAgain rfl).trans (ih line)
    -- A byte is dealt with by the same function in both, and the blocking call goes on where the
    -- other one returns.
    | byte c junk =>
      rw [inaCioReadLine, cioReadLine]
      cases hread : readByte false line c junk with
      | none =>
        refine readLineAgain_last ?_ fun _ _ h => by cases h
        rw [inaCioReadLineNonBlock, cioReadLine, hread]
      | some r =>
        obtain ⟨line', last⟩ := r
        cases last with
        | true =>
          refine readLineAgain_last ?_ fun _ _ h => by cases h
          rw [inaCioReadLineNonBlock, cioReadLine, hread]
        | false =>
          refine (readLineAgain_tryAgain ?_).trans (ih (some line'))
          rw [inaCioReadLineNonBlock, cioReadLine, hread]
          rfl

/-! ## Bytes without the polls

`typed` is the loop over the bytes that arrive, and a blocking call ends as it does: with a line,
with a write outside, or not, if the bytes come to their end first. -/

/-- The bytes that the polls find. -/
def arrivals : List Poll → List (UInt8 × (Nat → UInt8))
  | [] => []
  | .idle :: polls => arrivals polls
  | .failed :: polls => arrivals polls
  | .byte c junk :: polls => (c, junk) :: arrivals polls

/-- Their values. -/
def input (polls : List Poll) : List UInt8 := (arrivals polls).map Prod.fst

/-- How reading bytes ends: with a line and the bytes behind it, with a write outside, or not. -/
inductive Ending where
  | line (line : Hdr) (rest : List UInt8)
  | outside
  | waiting

/-- The line that the bytes make. -/
def typed : Option Hdr → List (UInt8 × (Nat → UInt8)) → Ending
  | _, [] => .waiting
  | line, (c, junk) :: bytes =>
    match readByte false line c junk with
    | none => .outside
    | some (line, true) => .line line (bytes.map Prod.fst)
    | some (line, false) => typed (some line) bytes

/-- An outcome is an ending. -/
inductive Outcome.Is : Outcome → Ending → Prop
  | line (h : Hdr) (rest : List Poll) : Is (.returned (some h) (.ok ()) rest) (.line h (input rest))
  | outside : Is .outside .outside
  | waiting : Is .waiting .waiting

theorem Outcome.Is.returned {o : Outcome} {h : Hdr} {bytes : List UInt8}
    (his : o.Is (.line h bytes)) :
    ∃ rest, o = .returned (some h) (.ok ()) rest ∧ input rest = bytes := by
  generalize he : Ending.line h bytes = e at his
  cases his with
  | line h' rest =>
    obtain ⟨rfl, rfl⟩ := Ending.line.inj he
    exact ⟨rest, rfl, rfl⟩
  | outside => cases he
  | waiting => cases he

theorem Outcome.Is.ending {o : Outcome} {e : Ending} {h : Hdr} {rest : List Poll} (his : o.Is e)
    (ho : o = .returned (some h) (.ok ()) rest) : e = .line h (input rest) := by
  cases his with
  | line h' rest' =>
    obtain ⟨hh, -, rfl⟩ := Outcome.returned.inj ho
    rw [Option.some.inj hh]
  | outside => cases ho
  | waiting => cases ho

/-- **The blocking call** makes of the polls what their bytes make. -/
theorem inaCioReadLine_is (line : Option Hdr) (polls : List Poll) :
    (inaCioReadLine line polls).Is (typed line (arrivals polls)) := by
  induction polls generalizing line with
  | nil => exact .waiting
  | cons poll polls ih =>
    cases poll with
    | idle => exact ih line
    | failed => exact ih line
    | byte c junk =>
      rw [inaCioReadLine, cioReadLine, arrivals, typed]
      cases hread : readByte false line c junk with
      | none => exact .outside
      | some r =>
        obtain ⟨line', last⟩ := r
        cases last with
        | true => exact .line line' polls
        | false => exact ih (some line')

/-! ## Lines in other memory

Only what is behind the NUL may differ, and nothing reads it: growing copies what is in front, and
an append overwrites the NUL. -/

/-- The string and its NUL are in the bytes there are, and their number fits the header. -/
structure Held (h : Hdr) : Prop where
  room : h.len < h.data.length
  small : h.data.length < 2 ^ 32

/-- Two lines that differ only in what is behind the NUL. -/
structure Alike (h h' : Hdr) : Prop where
  held : Held h
  size : h'.size = h.size
  len : h'.len = h.len
  cap : h'.data.length = h.data.length
  front : h'.data.take (h.len + 1) = h.data.take (h.len + 1)

theorem Alike.held' {h h' : Hdr} (ha : Alike h h') : Held h' :=
  ⟨by rw [ha.len, ha.cap]; exact ha.held.room, by rw [ha.cap]; exact ha.held.small⟩

theorem Alike.take {h h' : Hdr} (ha : Alike h h') {n : Nat} (hn : n ≤ h.len + 1) :
    h'.data.take n = h.data.take n := by
  have hfront := congrArg (List.take n) ha.front
  rwa [List.take_take, List.take_take, Nat.min_eq_left hn] at hfront

theorem inaStrNew_held (junk : Nat → UInt8) :
    ∃ h, inaStrNew junk readBufferChunkSize = some h ∧ Held h ∧ h.size = 129 ∧ h.len = 0 ∧
      h.data.length = 129 ∧ h.data.take 1 = [0] := by
  have hcap : (0 :: (Str.memAlloc junk 129).drop 1).length = 129 := by
    rw [List.length_cons, List.length_drop, Str.memAlloc_length]
  refine ⟨_, Str.inaStrNew_eq junk readBufferChunkSize, ⟨?_, ?_⟩, rfl, rfl, hcap, rfl⟩
  · exact Nat.lt_of_lt_of_eq (Nat.zero_lt_succ 128) hcap.symm
  · exact Nat.lt_of_le_of_lt (Nat.le_of_eq hcap) (by decide)

/-! ### `__ina_ensure_size` -/

/-- What is in front of the NUL stays where it is if there is room for it at all. -/
theorem ensureSize_take (junk : Nat → UInt8) {h : Hdr} (hh : Held h) (n : Nat)
    (hroom : h.len < (Str.ensureSize junk h n).data.length) :
    (Str.ensureSize junk h n).data.take h.len = h.data.take h.len := by
  have hlen := hh.room
  simp only [Str.ensureSize] at hroom ⊢
  split
  · rfl
  · rename_i hlacks
    rw [if_neg hlacks] at hroom
    dsimp only at hroom
    rw [Str.memRealloc_length] at hroom
    dsimp only
    rw [Str.memRealloc, List.take_append_of_le_length (by rw [List.length_take]; omega),
      List.take_take, Nat.min_eq_left (Nat.le_of_lt hroom)]

theorem ensureSize_len (junk : Nat → UInt8) (h : Hdr) (n : Nat) :
    (Str.ensureSize junk h n).len = h.len := by
  rw [Str.ensureSize]
  split <;> rfl

theorem ensureSize_small (junk : Nat → UInt8) {h : Hdr} (hh : Held h) (n : Nat) :
    (Str.ensureSize junk h n).data.length < 2 ^ 32 := by
  rw [Str.ensureSize]
  split
  · exact hh.small
  · dsimp only
    rw [Str.memRealloc_length]
    exact Nat.mod_lt _ (by decide)

/-- How it grows is decided by the header. -/
theorem Alike.ensureSize {h h' : Hdr} (ha : Alike h h') (junk junk' : Nat → UInt8) (n : Nat) :
    (Str.ensureSize junk' h' n).size = (Str.ensureSize junk h n).size ∧
      (Str.ensureSize junk' h' n).data.length = (Str.ensureSize junk h n).data.length := by
  simp only [Str.ensureSize, ha.size, ha.len]
  split
  · exact ⟨ha.size, ha.cap⟩
  · simp only [Str.memRealloc_length, and_self]

/-! ### The operations -/

/-- The new length is never reduced: the character would not have fitted. -/
theorem inaStrAppendChr_bind (junk : Nat → UInt8) {h : Hdr} (hh : Held h) (c : UInt8) :
    inaStrAppendChr junk h c =
      ((Lib.store (Str.ensureSize junk h 1).data h.len [c]).bind fun data =>
        Lib.store data (h.len + 1) [0]).bind fun data =>
          some ⟨(Str.ensureSize junk h 1).size, h.len + 1, data⟩ := by
  have hsmall := ensureSize_small junk hh 1
  rw [inaStrAppendChr, ← ensureSize_len junk h 1, Option.bind_assoc]
  refine Option.bind_congr fun b hb => ?_
  have hlt := Lib.store_length hb
  rw [List.length_singleton] at hlt
  have hmod : ((Str.ensureSize junk h 1).len + 1) % 2 ^ 32 = (Str.ensureSize junk h 1).len + 1 :=
    Nat.mod_eq_of_lt (by omega)
  rw [hmod]
  rfl

/-- **`ina_str_append_chr`** has a result when there is room for the character and the NUL. -/
theorem inaStrAppendChr_some (junk : Nat → UInt8) {h : Hdr} (hh : Held h) (c : UInt8)
    (hroom : h.len + 1 < (Str.ensureSize junk h 1).data.length) :
    inaStrAppendChr junk h c =
      some ⟨(Str.ensureSize junk h 1).size, h.len + 1,
        h.data.take h.len ++ [c] ++ 0 :: (Str.ensureSize junk h 1).data.drop (h.len + 2)⟩ := by
  have hstore := @Lib.store_store_singleton _ _ [c] _ 0 hroom
  rw [List.length_singleton, ensureSize_take junk hh 1 (Nat.lt_of_succ_lt hroom)] at hstore
  rw [inaStrAppendChr_bind junk hh, hstore, Option.bind_some]

theorem inaStrAppendChr_none (junk : Nat → UInt8) {h : Hdr} (hh : Held h) (c : UInt8)
    (hfull : ¬ h.len + 1 < (Str.ensureSize junk h 1).data.length) :
    inaStrAppendChr junk h c = none := by
  have hstore := @Lib.store_store_singleton_none _ _ [c] _ 0 hfull
  rw [List.length_singleton] at hstore
  rw [inaStrAppendChr_bind junk hh, hstore, Option.bind_none]

/-- **Erasing** gives a string of its own, with all the characters there were. -/
theorem inaStrSubstr_erase (junk : Nat → UInt8) {h : Hdr} (hh : Held h) (hpos : 0 < h.len) :
    inaStrSubstr junk h 0 (Mempool.subSz h.len 1) =
      some ⟨h.len + 1, h.len, h.data.take h.len ++ [0]⟩ := by
  have hroom := hh.room
  have hsmall := hh.small
  have hstop : Mempool.subSz h.len 1 = h.len - 1 := Mempool.subSz_of_le hpos (by omega)
  have hsum : Mempool.addSz (Mempool.subSz (h.len - 1) 0) 1 = h.len := by
    rw [Mempool.subSz_of_le (Nat.zero_le _) (by omega), Nat.sub_zero, Mempool.addSz_of_lt (by omega)]
    omega
  have hlen : strSubstrInternal 0 (Mempool.subSz h.len 1) h.len = h.len := by
    rw [Str.strSubstrInternal_eq _ _ (by omega), hstop, hsum, if_neg (by omega)]
    omega
  rw [inaStrSubstr, hlen, List.drop_zero, Str.inaStrNewFromblk_eq junk (Nat.le_of_lt hroom),
    Nat.mod_eq_of_lt (show h.len + 1 < 2 ^ 32 by omega),
    Nat.mod_eq_of_lt (show h.len < 2 ^ 32 by omega)]

/-! ### Lines in other memory stay alike -/

theorem alike_new (junk junk' : Nat → UInt8) :
    Option.Rel Alike (inaStrNew junk readBufferChunkSize) (inaStrNew junk' readBufferChunkSize) := by
  obtain ⟨h, heq, hh, hsize, hlen, hcap, hfront⟩ := inaStrNew_held junk
  obtain ⟨h', heq', -, hsize', hlen', hcap', hfront'⟩ := inaStrNew_held junk'
  rw [heq, heq']
  refine .some ⟨hh, hsize'.trans hsize.symm, hlen'.trans hlen.symm, hcap'.trans hcap.symm, ?_⟩
  rw [hlen, hfront, hfront']

theorem alike_ensureLine {line line' : Option Hdr} (hl : Option.Rel Alike line line')
    (junk junk' : Nat → UInt8) :
    Option.Rel Alike (ensureLine junk line) (ensureLine junk' line') := by
  cases hl with
  | none => exact alike_new junk junk'
  | some ha => exact .some ha

theorem Alike.erase {h h' : Hdr} (ha : Alike h h') (hpos : 0 < h.len) (junk junk' : Nat → UInt8) :
    Option.Rel Alike (inaStrSubstr junk h 0 (Mempool.subSz h.len 1))
      (inaStrSubstr junk' h' 0 (Mempool.subSz h'.len 1)) := by
  have hroom := ha.held.room
  have hsmall := ha.held.small
  rw [inaStrSubstr_erase junk ha.held hpos,
    inaStrSubstr_erase junk' ha.held' (by rw [ha.len]; exact hpos), ha.len,
    ha.take (Nat.le_succ _)]
  have hcap : (h.data.take h.len ++ [0]).length = h.len + 1 := by
    rw [List.length_append, List.length_take_of_le (Nat.le_of_lt hroom), List.length_singleton]
  refine .some ⟨⟨?_, ?_⟩, rfl, rfl, rfl, rfl⟩
  · rw [hcap]
    exact Nat.lt_succ_self _
  · rw [hcap]
    exact Nat.lt_of_le_of_lt hroom hsmall

theorem Alike.append {h h' : Hdr} (ha : Alike h h') (junk junk' : Nat → UInt8) (c : UInt8) :
    Option.Rel Alike (inaStrAppendChr junk h c) (inaStrAppendChr junk' h' c) := by
  obtain ⟨hsize, hcap⟩ := ha.ensureSize junk junk' 1
  by_cases hroom : h.len + 1 < (Str.ensureSize junk h 1).data.length
  · have hroom' : h'.len + 1 < (Str.ensureSize junk' h' 1).data.length := by
      rw [hcap, ha.len]
      exact hroom
    have hlen : (h.data.take h.len).length = h.len :=
      List.length_take_of_le (Nat.le_of_lt ha.held.room)
    have hcap' : ∀ {data : List UInt8}, h.len + 1 < data.length →
        (h.data.take h.len ++ [c] ++ 0 :: data.drop (h.len + 2)).length = data.length := by
      intro data hdata
      simp only [List.length_append, List.length_cons, List.length_drop, List.length_nil, hlen]
      omega
    -- The string, the new character and a NUL, whatever is behind.
    have hfront : ∀ data : List UInt8,
        (h.data.take h.len ++ [c] ++ 0 :: data.drop (h.len + 2)).take (h.len + 1 + 1) =
          h.data.take h.len ++ [c] ++ [0] := by
      intro data
      rw [List.take_append, List.take_of_length_le]
      · simp [hlen]
      · simp [hlen]
    rw [inaStrAppendChr_some junk ha.held c hroom, inaStrAppendChr_some junk' ha.held' c hroom', hsize,
      ha.len, ha.take (Nat.le_succ _)]
    refine .some ⟨⟨?_, ?_⟩, rfl, rfl, ?_, ?_⟩
    · rw [hcap' hroom]
      exact hroom
    · rw [hcap' hroom]
      exact ensureSize_small junk ha.held 1
    · rw [hcap' hroom, hcap' (hcap.symm ▸ hroom), hcap]
    · rw [hfront, hfront]
  · have hfull : ¬ h'.len + 1 < (Str.ensureSize junk' h' 1).data.length := by
      rw [hcap, ha.len]
      exact hroom
    rw [inaStrAppendChr_none junk ha.held c hroom, inaStrAppendChr_none junk' ha.held' c hfull]
    exact .none

/-- What two calls on a byte have in common. -/
def SameRead (r r' : Hdr × Bool) : Prop := Alike r.1 r'.1 ∧ r'.2 = r.2

theorem SameRead.of {o o' : Option Hdr} (h : Option.Rel Alike o o') (last : Bool) :
    Option.Rel SameRead (o.bind fun line => some (line, last))
      (o'.bind fun line => some (line, last)) := by
  cases h with
  | none => exact .none
  | some ha => exact .some ⟨ha, rfl⟩

theorem alike_readByte {line line' : Option Hdr} (hl : Option.Rel Alike line line') (rcv : Bool)
    (c : UInt8) (junk junk' : Nat → UInt8) :
    Option.Rel SameRead (readByte rcv line c junk) (readByte rcv line' c junk') := by
  rw [readByte, readByte]
  have hnew := alike_ensureLine hl junk junk'
  generalize ensureLine junk line = o at hnew
  generalize ensureLine junk' line' = o' at hnew
  cases hnew with
  | none => exact .none
  | @some h h' ha =>
    simp only [Option.bind_eq_bind, Option.bind_some, ha.len]
    split
    · exact .some ⟨ha, rfl⟩
    · split
      · split
        · rename_i hpos
          have herase := ha.erase hpos junk junk'
          rw [ha.len] at herase
          exact SameRead.of herase false
        · exact .some ⟨ha, rfl⟩
      · split
        · exact SameRead.of (ha.append junk junk' c) rcv
        · exact .some ⟨ha, rfl⟩

/-- Two endings with alike lines. -/
inductive Ending.Alike : Ending → Ending → Prop
  | line {h h' : Hdr} (ha : Cio.Alike h h') (rest : List UInt8) : Alike (.line h rest) (.line h' rest)
  | outside : Alike .outside .outside
  | waiting : Alike .waiting .waiting

/-- **What a byte is read into makes no difference.** -/
theorem alike_typed {line line' : Option Hdr} (hl : Option.Rel Alike line line')
    {bytes bytes' : List (UInt8 × (Nat → UInt8))}
    (hsame : bytes.map Prod.fst = bytes'.map Prod.fst) :
    (typed line bytes).Alike (typed line' bytes') := by
  induction bytes generalizing line line' bytes' with
  | nil =>
    obtain rfl := List.map_eq_nil_iff.mp hsame.symm
    exact .waiting
  | cons b bytes ih =>
    cases bytes' with
    | nil => cases hsame
    | cons b' bytes' =>
      obtain ⟨c, junk⟩ := b
      obtain ⟨c', junk'⟩ := b'
      obtain ⟨rfl, htail⟩ := List.cons.inj hsame
      have hread := alike_readByte hl false c junk junk'
      rw [typed, typed]
      -- The two reads are alike, whatever they are.
      generalize readByte false line c junk = r at hread
      generalize readByte false line' c junk' = r' at hread
      cases hread with
      | none => exact .outside
      | @some r r' hr =>
        obtain ⟨h, last⟩ := r
        obtain ⟨h', last'⟩ := r'
        obtain ⟨ha, rfl⟩ := hr
        cases last' with
        | true =>
          change (Ending.line h (bytes.map Prod.fst)).Alike (.line h' (bytes'.map Prod.fst))
          rw [htail]
          exact .line ha _
        | false => exact ih (.some ha) htail

theorem readByte_ends (rcv : Bool) (line : Option Hdr) {c : UInt8} (hc : endsLine c = true)
    (junk : Nat → UInt8) :
    readByte rcv line c junk = (ensureLine junk line).map fun line => (line, true) := by
  rw [readByte]
  cases ensureLine junk line with
  | none => rfl
  | some h => exact if_pos hc

/-- The byte that ends the line ends it. -/
theorem typed_ends {line : Option Hdr} {bytes : List (UInt8 × (Nat → UInt8))}
    (hends : ∃ c ∈ bytes.map Prod.fst, endsLine c = true) : typed line bytes ≠ .waiting := by
  induction bytes generalizing line with
  | nil =>
    obtain ⟨c, hc, -⟩ := hends
    exact absurd hc List.not_mem_nil
  | cons b bytes ih =>
    obtain ⟨c, junk⟩ := b
    rw [typed]
    split
    · exact fun h => by cases h
    · exact fun h => by cases h
    · rename_i h hread
      refine ih ?_
      obtain ⟨d, hd, hend⟩ := hends
      rcases List.mem_cons.mp hd with rfl | hd
      · rw [readByte_ends false line hend, Option.map_eq_some_iff] at hread
        obtain ⟨_, -, heq⟩ := hread
        cases heq
      · exact ⟨d, hd, hend⟩

/-- The two ways to read a line end in the same way: with lines that differ in nothing but what is
    behind the NUL, and the same bytes left, or with a write outside the line. -/
def SameLine (o o' : Outcome) : Prop :=
  (∃ h h' rest rest', o = .returned (some h) (.ok ()) rest ∧
    o' = .returned (some h') (.ok ()) rest' ∧ Alike h h' ∧ input rest' = input rest) ∨
  (o = .outside ∧ o' = .outside)

/-- **Reading without blocking is reading.** For every two patterns of polls that find the same
    bytes, among them one that ends the line, calls that do not block, made again and again, give
    the line of one call that does, and take the same bytes. -/
theorem nonBlock_eq_blocking {polls polls' : List Poll} (hinput : input polls' = input polls)
    (hends : ∃ c ∈ input polls, endsLine c = true) :
    SameLine (readLineAgain none polls) (inaCioReadLine none polls') := by
  have halike : (typed none (arrivals polls)).Alike (typed none (arrivals polls')) :=
    alike_typed .none hinput.symm
  have hwait : typed none (arrivals polls) ≠ .waiting := typed_ends hends
  have his := inaCioReadLine_is none polls
  have his' := inaCioReadLine_is none polls'
  rw [readLineAgain_eq]
  generalize typed none (arrivals polls) = e at *
  generalize typed none (arrivals polls') = e' at *
  generalize inaCioReadLine none polls = o at *
  generalize inaCioReadLine none polls' = o' at *
  cases halike with
  | line ha bytes =>
    obtain ⟨rest, rfl, hrest⟩ := his.returned
    obtain ⟨rest', rfl, hrest'⟩ := his'.returned
    exact Or.inl ⟨_, _, rest, rest', rfl, rfl, ha, hrest'.trans hrest.symm⟩
  | outside =>
    cases his
    cases his'
    exact Or.inr ⟨rfl, rfl⟩
  | waiting => exact absurd rfl hwait

/-- A line of one character, with pauses in different places. -/
theorem nonBlock_eq_blocking_paused :
    SameLine
      (readLineAgain none [.byte 97 fun _ => 0, .idle, .byte 10 fun _ => 0])
      (inaCioReadLine none [.idle, .byte 97 fun _ => 7, .byte 10 fun _ => 7]) :=
  nonBlock_eq_blocking rfl ⟨10, by decide, by decide⟩

end Cio
end Inac
