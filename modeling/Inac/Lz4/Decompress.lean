import Inac.Lib.Bytes
import Inac.Lib.Copy

/-!
# The LZ4 decoder (`contribs/lz4/lz4.c`)

`LZ4_decompress_generic` without a dictionary, as `LZ4_decompress_safe` and `LZ4_decompress_fast`
use it. Places are offsets into `src` and `dst`, which are as long as what may be accessed there: an
access outside has no result. `srcSize` and `outputSize` are what the caller says.

The constants are `MINMATCH` 4, `WILDCOPYLENGTH` 8, `LASTLITERALS` 5, `MFLIMIT` 12, and 15 for both
`RUN_MASK` and `ML_MASK`. The two tests for a pointer that wraps around are left out: no length
reaches `2 ^ 40`.

A sequence begins with a token: four bits for the length of its literals, four for that of its
match, each lengthened by bytes behind it if it is fifteen. Then come the literals, two bytes of
offset and the rest of the match length. The decoder has two ways through one. The common one takes
the lengths apart, looks whether what is left of the buffers is enough, and copies literals and
match in blocks of eight that may write past their end. The other one (`shortcut`) is taken if both
lengths are in the token and there is room for fourteen literals and eighteen matched bytes whatever
they are, and looks at nothing else.

The functions of the model are the pieces of one turn of the main loop, in the order in which they
stand in the source. The labels `_output_error` and the end of the loop are the results of a turn
(`Turn`), and an error keeps the place it was noticed at, since the return value is made from it.
-/

namespace Inac
namespace Lz4

open Lib

/-! ## Copies

Words are read and written byte by byte, little endian (`Inac.Lib.Word`), which is what `memcpy`
into a register does on the machines the library is built for. -/

/-- `LZ4_readLE16`. -/
def lz4ReadLE16 (src : List UInt8) (p : Nat) : Option Nat := (load src p 2).map wordOf

/-- `LZ4_write32`. -/
def lz4Write32 (dst : List UInt8) (p value : Nat) : Option (List UInt8) :=
  store dst p (wordBytes 4 value)

/-- The loop of `LZ4_wildCopy`: blocks of eight, the last of which may go past `e`. What is copied
    stands in another buffer, or in `dst` itself. -/
def wildBlocks (other : Option (List UInt8)) :
    Nat → List UInt8 → Nat → Nat → Nat → Option (List UInt8)
  | 0, dst, _, _, _ => some dst
  | fuel + 1, dst, d, s, e => do
    let dst ← memcpy dst d (other.getD dst) s 8
    if d + 8 < e then wildBlocks other fuel dst (d + 8) (s + 8) e else some dst

/-- `LZ4_wildCopy`. -/
def lz4WildCopy (other : Option (List UInt8)) (dst : List UInt8) (d s e : Nat) :
    Option (List UInt8) :=
  wildBlocks other (e - d + 1) dst d s e

/-- `while (op<cpy) *op++ = *match++`. -/
def copyBytes : Nat → List UInt8 → Nat → Nat → Option (List UInt8)
  | 0, dst, _, _ => some dst
  | n + 1, dst, op, m => do
    let dst ← memcpy dst op dst m 1
    copyBytes n dst (op + 1) (m + 1)

/-! ## One sequence

`endOnInput`, `lowPrefix` and the dictionary mode are compile-time constants of the callers; here
they are one argument, so that the two decoders are two instances of one definition. -/

/-- The arguments that the callers fix. `prefixSize` is how far `lowPrefix` lies in front of
    `dst`. -/
structure Directives where
  endOnInput : Bool
  prefixSize : Nat
  dictSize : Nat

/-- What a turn of the main loop comes to: `continue`, `break` or `goto _output_error`. -/
inductive Turn where
  | next (ip op : Nat) (dst : List UInt8)
  | finish (ip op : Nat) (dst : List UInt8)
  | outputError (ip : Nat) (dst : List UInt8)
  deriving DecidableEq, Repr

section Turn

variable (D : Directives) (src : List UInt8) (srcSize outputSize : Nat)

/-- The offset, where the shortcut is taken. -/
def shortcutOffset (token ip op : Nat) : Option (Option Nat) :=
  if ip + 14 + 2 ≤ srcSize ∧ op + 14 + 18 ≤ outputSize ∧ token < 15 * 2 ^ 4 ∧ token % 2 ^ 4 ≠ 15 then
    (lz4ReadLE16 src (ip + token / 2 ^ 4)).map fun off =>
      if 18 ≤ off ∧ off ≤ op + token / 2 ^ 4 + D.prefixSize then some off else none
  else some none

/-- The place `offset` before `op`. What lies in front of `dst` is not there to be read. -/
def matchPlace (op offset : Nat) : Option Nat := if offset ≤ op then some (op - offset) else none

/-- The shortcut: sixteen bytes for the literals and eighteen for the match, whatever their
    lengths. -/
def shortcut (token ip op off : Nat) (dst : List UInt8) : Option Turn := do
  let ll := token / 2 ^ 4
  let ml := token % 2 ^ 4 + 4
  let m ← matchPlace (op + ll) off
  let dst ← memcpy dst op src ip 16
  let dst ← memcpy dst (op + ll) dst m 18
  some (.next (ip + ll + 2) (op + ll + ml) dst)

/-- The bytes that lengthen a run of literals. -/
def literalBytes : Nat → Nat → Nat → Option (Nat × Nat)
  | 0, _, _ => none
  | fuel + 1, ip, length => do
    let s ← src[ip]?
    if (D.endOnInput = true → ip + 1 + 15 < srcSize) ∧ s = 255 then
      literalBytes fuel (ip + 1) (length + s.toNat)
    else some (ip + 1, length + s.toNat)

/-- The length of the literals, and where they begin. -/
def literalLength (token ip : Nat) : Option (Nat × Nat) :=
  if token / 2 ^ 4 = 15 then literalBytes D src srcSize (src.length + 1) ip 15
  else some (ip, token / 2 ^ 4)

/-- The bytes that lengthen a match. They may not reach into the last literals, and the error is
    noticed behind the byte that does. -/
def matchBytes : Nat → Nat → Nat → Option (Except Nat (Nat × Nat))
  | 0, _, _ => none
  | fuel + 1, ip, length => do
    let s ← src[ip]?
    if D.endOnInput = true ∧ srcSize < ip + 1 + 5 then some (.error (ip + 1))
    else if s = 255 then matchBytes fuel (ip + 1) (length + s.toNat)
    else some (.ok (ip + 1, length + s.toNat))

/-- The length of the match, and where the next sequence begins. -/
def matchLength (token ip : Nat) : Option (Except Nat (Nat × Nat)) :=
  if token % 2 ^ 4 = 15 then matchBytes D src srcSize (src.length + 1) ip 15
  else some (.ok (ip, token % 2 ^ 4))

def inc32table : List Nat := [0, 1, 2, 1, 0, 4, 4, 4]

def dec64table : List Int := [0, 0, 0, -1, -4, 1, 2, 3]

/-- The first eight bytes of a match, and where it goes on. A match closer than eight is spread
    until it is far enough. -/
def matchHead (dst : List UInt8) (op offset : Nat) : Option (Nat × List UInt8) := do
  let m ← matchPlace op offset
  if offset < 8 then
    let dst ← copyBytes 4 dst op m
    let m := m + inc32table.getD offset 0
    let dst ← memcpy dst (op + 4) dst m 4
    some (((m : Int) - dec64table.getD offset 0).toNat, dst)
  else
    let dst ← memcpy dst op dst m 8
    some (m + 8, dst)

/-- The rest of a match that ends at `cpy`. Close to the end of the output it is copied byte by
    byte, and at the very end there is to be none. -/
def matchTail (dst : List UInt8) (op m length cpy : Nat) : Option (Option (List UInt8)) :=
  if outputSize < cpy + 12 then
    if outputSize < cpy + 5 then some none
    else if op + 7 < outputSize then do
      let dst ← lz4WildCopy none dst op m (outputSize - 7)
      let dst ← copyBytes (cpy - (outputSize - 7)) dst (outputSize - 7) (m + (outputSize - 7 - op))
      some (some dst)
    else do
      let dst ← copyBytes (cpy - op) dst op m
      some (some dst)
  else do
    let dst ← memcpy dst op dst m 8
    let dst ← if 16 < length then lz4WildCopy none dst (op + 8) (m + 8) cpy else some dst
    some (some dst)

/-- From the offset on. -/
def decodeMatch (token ip op : Nat) (dst : List UInt8) : Option Turn := do
  let offset ← lz4ReadLE16 src ip
  let ip := ip + 2
  if D.endOnInput = true ∧ D.dictSize < 2 ^ 16 ∧ op + D.prefixSize + D.dictSize < offset then
    some (.outputError ip dst)
  else
    let dst ← lz4Write32 dst op offset
    match ← matchLength D src srcSize token ip with
    | .error ip => some (.outputError ip dst)
    | .ok (ip, length) =>
      let length := length + 4
      let (m, dst) ← matchHead dst op offset
      match ← matchTail outputSize dst (op + 8) m length (op + length) with
      | none => some (.outputError ip dst)
      | some dst => some (.next ip (op + length) dst)

/-- The literals: the last ones end the block. -/
def decodeLiterals (token ip op : Nat) (dst : List UInt8) : Option Turn := do
  let (ip, length) ← literalLength D src srcSize token ip
  let cpy := op + length
  if (D.endOnInput = true ∧ (outputSize < cpy + 12 ∨ srcSize < ip + length + 8)) ∨
      (D.endOnInput = false ∧ outputSize < cpy + 8) then
    if (D.endOnInput = false ∧ cpy ≠ outputSize) ∨
        (D.endOnInput = true ∧ (ip + length ≠ srcSize ∨ outputSize < cpy)) then
      some (.outputError ip dst)
    else
      let dst ← memcpy dst op src ip length
      some (.finish (ip + length) cpy dst)
  else
    let dst ← lz4WildCopy (some src) dst op ip cpy
    decodeMatch D src srcSize outputSize token (ip + length) cpy dst

/-- A turn of the main loop. -/
def decodeSequence (ip op : Nat) (dst : List UInt8) : Option Turn := do
  let token ← src[ip]?
  match ← shortcutOffset D src srcSize outputSize token.toNat (ip + 1) op with
  | some off => shortcut src token.toNat (ip + 1) op off dst
  | none => decodeLiterals D src srcSize outputSize token.toNat (ip + 1) op dst

/-- The main loop. -/
def decodeLoop : Nat → Nat → Nat → List UInt8 → Option (Int × List UInt8)
  | 0, _, _, _ => none
  | fuel + 1, ip, op, dst => do
    match ← decodeSequence D src srcSize outputSize ip op dst with
    | .next ip op dst => decodeLoop fuel ip op dst
    | .finish ip op dst => some (if D.endOnInput then op else ip, dst)
    | .outputError ip dst => some (-(ip : Int) - 1, dst)

/-- `LZ4_decompress_generic`. Every turn reads a byte of `src`, so there are no more turns than
    bytes. -/
def lz4DecompressGeneric (dst : List UInt8) : Option (Int × List UInt8) :=
  if outputSize = 0 then
    if D.endOnInput then
      if srcSize = 1 then (src[0]?).map fun b => (if b = 0 then 0 else -1, dst) else some (-1, dst)
    else (src[0]?).map fun b => (if b = 0 then 1 else -1, dst)
  else decodeLoop D src srcSize outputSize (src.length + 1) 0 0 dst

end Turn

/-- `LZ4_decompress_safe`. -/
def lz4DecompressSafe (source : List UInt8) (compressedSize maxDecompressedSize : Nat)
    (dest : List UInt8) : Option (Int × List UInt8) :=
  lz4DecompressGeneric ⟨true, 0, 0⟩ source compressedSize maxDecompressedSize dest

/-- `LZ4_decompress_fast`. -/
def lz4DecompressFast (source : List UInt8) (originalSize : Nat) (dest : List UInt8) :
    Option (Int × List UInt8) :=
  lz4DecompressGeneric ⟨false, 2 ^ 16, 2 ^ 16⟩ source 0 originalSize dest

end Lz4
end Inac
