import Inac.Lz4.Decompress

/-!
# The LZ4 compressor (`contribs/lz4/lz4.c`)

`LZ4_compress_generic` without a dictionary, as `LZ4_compress_fast_extState` uses it on a machine of
64 bits with the lowest byte first. Places are offsets into `source` and `dest`, which are as long as
what may be accessed there. Lengths and positions are those of an `int`, so they do not wrap, but what
the code keeps in 32 or 16 bits is cut.

`mflimit` is twelve before the end of the input, `matchlimit` five.

The compressor looks for four bytes that occurred before, with one guess for each place: the hash of
what stands there says where it was seen last. Where the guess is right the match is made as long as
it goes in both directions, and the literals since the last match, the distance and the length are
written. Where it is wrong the search goes on, in steps that grow the longer nothing is found. The
last twelve bytes begin no match, and the last five are literals in any case.

The function has no single loop: there are two labels in the middle and a jump back from the end of
a match to the one where the next is written. Each label is a stage with what is alive there
(`Stage`), the code between two labels is one function (`seek`, `emit`, `testNext`, `finish`), and
`run` goes from stage to stage. An access outside a buffer has no result, which is how it is told
from a `return 0`.
-/

namespace Inac
namespace Lz4

open Lib

inductive TableType where
  | byU32
  | byU16
  deriving DecidableEq, Repr

/-- What does not change during a call. -/
structure Job where
  source : List UInt8
  maxOutputSize : Nat
  outputLimited : Bool
  tableType : TableType
  acceleration : Nat

/-- The hash table: for each hash the last position that had it. -/
abbrev Table := Nat → Nat

def lz4MaxInputSize : Nat := 0x7E000000

/-- `LZ4_compressBound`. -/
def lz4CompressBound (isize : Nat) : Nat :=
  if lz4MaxInputSize < isize then 0 else isize + isize / 255 + 16

/-- `LZ4_64Klimit`. -/
def lz4_64Klimit : Nat := 64 * 2 ^ 10 + 11

/-- `LZ4_HASHLOG`. -/
def lz4HashLog : Nat := 12

/-! ## Positions by hash

The table is a function, and `lz4PutPositionOnHash` keeps sixteen or thirty-two bits of a position.
What a hash is worth plays no part in what follows. -/

/-- `LZ4_read16`, `LZ4_read32` and `LZ4_read_ARCH`. -/
def lz4Read (n : Nat) (src : List UInt8) (p : Nat) : Option Nat := (load src p n).map wordOf

/-- `LZ4_hash4`. -/
def lz4Hash4 (sequence : Nat) (tableType : TableType) : Nat :=
  let hashLog := if tableType = .byU16 then lz4HashLog + 1 else lz4HashLog
  sequence * 2654435761 % 2 ^ 32 / 2 ^ (32 - hashLog)

/-- `LZ4_hash5`. -/
def lz4Hash5 (sequence : Nat) (tableType : TableType) : Nat :=
  let prime5bytes := 889523592379
  let hashLog := if tableType = .byU16 then lz4HashLog + 1 else lz4HashLog
  sequence * 2 ^ 24 % 2 ^ 64 * prime5bytes % 2 ^ 64 / 2 ^ (64 - hashLog)

/-- `LZ4_hashPosition`. -/
def lz4HashPosition (src : List UInt8) (p : Nat) (tableType : TableType) : Option Nat :=
  if tableType ≠ .byU16 then (lz4Read 8 src p).map (lz4Hash5 · tableType)
  else (lz4Read 4 src p).map (lz4Hash4 · tableType)

/-- `LZ4_putPositionOnHash`. -/
def lz4PutPositionOnHash (p h : Nat) (table : Table) (tableType : TableType) : Table :=
  Function.update table h
    (match tableType with
      | .byU32 => p % 2 ^ 32
      | .byU16 => p % 2 ^ 16)

/-- `LZ4_putPosition`. -/
def lz4PutPosition (src : List UInt8) (p : Nat) (table : Table) (tableType : TableType) :
    Option Table := do
  let h ← lz4HashPosition src p tableType
  some (lz4PutPositionOnHash p h table tableType)

/-- `LZ4_getPosition`. -/
def lz4GetPosition (src : List UInt8) (p : Nat) (table : Table) (tableType : TableType) :
    Option Nat := do
  let h ← lz4HashPosition src p tableType
  some (table h)

/-! ## Counting

One word is compared before the loop and further ones in it; each difference is a word whose lowest
bit that is set says where it is. -/

/-- `__builtin_ctzll`, for a word of so many bits. -/
def builtinCtz : Nat → Nat → Nat
  | 0, _ => 0
  | bits + 1, v => if v % 2 = 1 then 0 else builtinCtz bits (v / 2) + 1

/-- `LZ4_NbCommonBytes`. -/
def lz4NbCommonBytes (val : Nat) : Nat := builtinCtz 64 val / 8

/-- `(pIn<(pInLimit-(n-1))) && (LZ4_readN(pMatch) == LZ4_readN(pIn))`. -/
def sameWord (n : Nat) (src : List UInt8) (pIn pMatch pInLimit : Nat) : Option Bool :=
  if pIn + (n - 1) < pInLimit then do
    let a ← lz4Read n src pMatch
    let b ← lz4Read n src pIn
    some (a == b)
  else some false

/-- What is compared after the last whole word: four bytes, two, and one. -/
def countTail (src : List UInt8) (pIn pMatch pInLimit pStart : Nat) : Option Nat := do
  let four ← sameWord 4 src pIn pMatch pInLimit
  let (pIn, pMatch) := if four then (pIn + 4, pMatch + 4) else (pIn, pMatch)
  let two ← sameWord 2 src pIn pMatch pInLimit
  let (pIn, pMatch) := if two then (pIn + 2, pMatch + 2) else (pIn, pMatch)
  let one ← sameWord 1 src pIn pMatch pInLimit
  let pIn := if one then pIn + 1 else pIn
  some (pIn - pStart)

/-- The loop over whole words. -/
def countWords (src : List UInt8) : Nat → Nat → Nat → Nat → Nat → Option Nat
  | 0, pIn, pMatch, pInLimit, pStart => countTail src pIn pMatch pInLimit pStart
  | fuel + 1, pIn, pMatch, pInLimit, pStart =>
    if pIn + 7 < pInLimit then do
      let a ← lz4Read 8 src pMatch
      let b ← lz4Read 8 src pIn
      if a ^^^ b = 0 then countWords src fuel (pIn + 8) (pMatch + 8) pInLimit pStart
      else some (pIn + lz4NbCommonBytes (a ^^^ b) - pStart)
    else countTail src pIn pMatch pInLimit pStart

/-- `LZ4_count`: the first word is looked at before the loop. -/
def lz4Count (src : List UInt8) (pIn pMatch pInLimit : Nat) : Option Nat :=
  if pIn + 7 < pInLimit then do
    let a ← lz4Read 8 src pMatch
    let b ← lz4Read 8 src pIn
    if a ^^^ b = 0 then countWords src pInLimit (pIn + 8) (pMatch + 8) pInLimit pIn
    else some (lz4NbCommonBytes (a ^^^ b))
  else countWords src pInLimit pIn pMatch pInLimit pIn

/-! ## The search

`searchMatchNb` is a 32-bit counter, whose upper bits are the next step. It starts at the
acceleration times sixty-four. -/

section Job

variable (J : Job)

/-- The loop that looks for a match: where it is, or that the input comes to its end. -/
def findMatch : Nat → Nat → Nat → Nat → Nat → Table → Option (Option (Nat × Nat × Table))
  | 0, _, _, _, _, _ => none
  | fuel + 1, forwardIp, step, searchMatchNb, forwardH, table => do
    let h := forwardH
    let ip := forwardIp
    let forwardIp := forwardIp + step
    let step := searchMatchNb / 2 ^ 6
    let searchMatchNb := (searchMatchNb + 1) % 2 ^ 32
    if J.source.length < forwardIp + 12 then some none
    else
      let m := table h
      let forwardH ← lz4HashPosition J.source forwardIp J.tableType
      let table := lz4PutPositionOnHash ip h table J.tableType
      if J.tableType ≠ .byU16 ∧ m + 65535 < ip then
        findMatch fuel forwardIp step searchMatchNb forwardH table
      else
        let a ← lz4Read 4 J.source m
        let b ← lz4Read 4 J.source ip
        if a ≠ b then findMatch fuel forwardIp step searchMatchNb forwardH table
        else some (some (ip, m, table))

/-- `Catch up`: a match may begin earlier. -/
def catchUp (anchor : Nat) : Nat → Nat → Nat → Option (Nat × Nat)
  | 0, ip, m => some (ip, m)
  | n + 1, ip, m =>
    if anchor < ip ∧ 0 < m then do
      let a ← J.source[ip - 1]?
      let b ← J.source[m - 1]?
      if a = b then catchUp anchor n (ip - 1) (m - 1) else some (ip, m)
    else some (ip, m)

/-! ## The output

A token is written with the length of the literals, and the length of the match is added to it
later. -/

/-- `for(; len>=255; len-=255) *op++ = 255; *op++ = (BYTE)len;` -/
def writeLength : Nat → List UInt8 → Nat → Nat → Option (Nat × List UInt8)
  | 0, _, _, _ => none
  | fuel + 1, dst, op, len =>
    if 255 ≤ len then do
      let dst ← store dst op [255]
      writeLength fuel dst (op + 1) (len - 255)
    else do
      let dst ← store dst op [.ofNat len]
      some (op + 1, dst)

/-- A token for literals, and the bytes that lengthen them. -/
def writeLiteralLength (dst : List UInt8) (token op litLength : Nat) : Option (Nat × List UInt8) :=
  if 15 ≤ litLength then do
    let dst ← store dst token [.ofNat (15 * 2 ^ 4)]
    writeLength (litLength + 1) dst op (litLength - 15)
  else do
    let dst ← store dst token [.ofNat (litLength * 2 ^ 4)]
    some (op, dst)

/-- `*token += n`. -/
def addToken (dst : List UInt8) (token n : Nat) : Option (List UInt8) := do
  let b ← dst[token]?
  store dst token [b + .ofNat n]

/-- The words of 255 that lengthen a match, four bytes at a time. -/
def writeWords : Nat → List UInt8 → Nat → Nat → Option (Nat × Nat × List UInt8)
  | 0, _, _, _ => none
  | fuel + 1, dst, op, matchCode =>
    if 4 * 255 ≤ matchCode then do
      let dst ← lz4Write32 dst (op + 4) 0xFFFFFFFF
      writeWords fuel dst (op + 4) (matchCode - 4 * 255)
    else some (op, matchCode, dst)

/-- `Encode MatchLength`. -/
def writeMatchLength (dst : List UInt8) (token op matchCode : Nat) : Option (Nat × List UInt8) :=
  if 15 ≤ matchCode then do
    let dst ← addToken dst token 15
    let dst ← lz4Write32 dst op 0xFFFFFFFF
    let (op, matchCode, dst) ← writeWords (matchCode + 1) dst op (matchCode - 15)
    let op := op + matchCode / 255
    let dst ← store dst op [.ofNat (matchCode % 255)]
    some (op + 1, dst)
  else do
    let dst ← addToken dst token matchCode
    some (op, dst)

/-! ## The main loop

What a turn begins with is where the search stands, from where literals are pending, where the
output goes on, the table and the output. -/

/-- What a turn begins with. -/
structure State where
  ip : Nat
  anchor : Nat
  op : Nat
  table : Table
  dst : List UInt8

/-- The labels of the code: the head of the main loop with `forwardH`, `_next_match` with `match` and
    `token`, `_last_literals`, and a `return 0`. -/
inductive Stage where
  | mainLoop (forwardH : Nat) (s : State)
  | nextMatch (m token : Nat) (s : State)
  | lastLiterals (s : State)
  | noRoom (dst : List UInt8)

/-- From the head of the main loop to `_next_match`. -/
def seek (forwardH : Nat) (s : State) : Option Stage := do
  match ← findMatch J (J.source.length + 1) s.ip 1 (J.acceleration * 2 ^ 6 % 2 ^ 32) forwardH
      s.table with
  | none => some (.lastLiterals s)
  | some (ip, m, table) =>
    let (ip, m) ← catchUp J s.anchor ip ip m
    let litLength := ip - s.anchor
    let token := s.op
    let op := s.op + 1
    if J.outputLimited ∧ J.maxOutputSize < op + litLength + (2 + 1 + 5) + litLength / 255 then
      some (.noRoom s.dst)
    else
      let (op, dst) ← writeLiteralLength s.dst token op litLength
      let dst ← lz4WildCopy (some J.source) dst op s.anchor (op + litLength)
      some (.nextMatch m token ⟨ip, s.anchor, op + litLength, table, dst⟩)

/-- `Fill table` and `Test next position`: behind a match there may be another one at once. -/
def testNext (ip op : Nat) (table : Table) (dst : List UInt8) : Option Stage := do
  let anchor := ip
  let table ← lz4PutPosition J.source (ip - 2) table J.tableType
  let m ← lz4GetPosition J.source ip table J.tableType
  let table ← lz4PutPosition J.source ip table J.tableType
  let a ← lz4Read 4 J.source m
  let b ← lz4Read 4 J.source ip
  if ip ≤ m + 65535 ∧ a = b then
    let token := op
    let dst ← store dst token [0]
    some (.nextMatch m token ⟨ip, anchor, op + 1, table, dst⟩)
  else
    let forwardH ← lz4HashPosition J.source (ip + 1) J.tableType
    some (.mainLoop forwardH ⟨ip + 1, anchor, op, table, dst⟩)

/-- From `_next_match` to there, to the main loop or to `_last_literals`. -/
def emit (m token : Nat) (s : State) : Option Stage := do
  let dst ← store s.dst s.op (wordBytes 2 (s.ip - m))
  let op := s.op + 2
  let matchCode ← lz4Count J.source (s.ip + 4) (m + 4) (J.source.length - 5)
  let ip := s.ip + (4 + matchCode)
  if J.outputLimited ∧ J.maxOutputSize < op + (1 + 5) + matchCode / 2 ^ 8 then some (.noRoom dst)
  else
    let (op, dst) ← writeMatchLength dst token op matchCode
    if J.source.length < ip + 12 then some (.lastLiterals ⟨ip, ip, op, s.table, dst⟩)
    else testNext J ip op s.table dst

/-- From `_last_literals` to the end. -/
def finish (s : State) : Option (Nat × List UInt8) :=
  let lastRun := J.source.length - s.anchor
  if J.outputLimited ∧ J.maxOutputSize < s.op + lastRun + 1 + (lastRun + 255 - 15) / 255 then
    some (0, s.dst)
  else do
    let (op, dst) ← writeLiteralLength s.dst s.op (s.op + 1) lastRun
    let dst ← memcpy dst op J.source s.anchor lastRun
    some (op + lastRun, dst)

def run : Nat → Stage → Option (Nat × List UInt8)
  | 0, _ => none
  | fuel + 1, .mainLoop forwardH s => (seek J forwardH s).bind (run fuel)
  | fuel + 1, .nextMatch m token s => (emit J m token s).bind (run fuel)
  | _ + 1, .lastLiterals s => finish J s
  | _ + 1, .noRoom dst => some (0, dst)

/-- `LZ4_compress_generic`, on a table of zeros. -/
def lz4CompressGeneric (dest : List UInt8) : Option (Nat × List UInt8) :=
  let inputSize := J.source.length
  if lz4MaxInputSize < inputSize then some (0, dest)
  else if J.tableType = .byU16 ∧ lz4_64Klimit ≤ inputSize then some (0, dest)
  else if inputSize < 13 then finish J ⟨0, 0, 0, fun _ => 0, dest⟩
  else do
    let table ← lz4PutPosition J.source 0 (fun _ => 0) J.tableType
    let forwardH ← lz4HashPosition J.source 1 J.tableType
    run J (2 * inputSize + 2) (.mainLoop forwardH ⟨1, 0, 0, table, dest⟩)

end Job

/-- `LZ4_compress_fast_extState`. -/
def lz4CompressFastExtState (source dest : List UInt8) (maxOutputSize : Nat) (acceleration : Int) :
    Option (Nat × List UInt8) :=
  let acceleration := if acceleration < 1 then 1 else acceleration.toNat
  let tableType := if source.length < lz4_64Klimit then .byU16 else .byU32
  if lz4CompressBound source.length ≤ maxOutputSize then
    lz4CompressGeneric ⟨source, 0, false, tableType, acceleration⟩ dest
  else lz4CompressGeneric ⟨source, maxOutputSize, true, tableType, acceleration⟩ dest

end Lz4
end Inac
