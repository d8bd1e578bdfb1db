import Mathlib.Algebra.Ring.Nat
import Mathlib.Data.List.Basic
import Inac.Err

/-!
# Base64 (`src/util.c`)

The encoder walks an index over the data, three bytes a turn; the decoder shifts six bits at a time
into a register that starts at 1, so that the place of this leading bit says how much is in it.

A pointer and its length are one list of bytes. Both functions write their output from the front on
and never read it back, so the model keeps the bytes written so far: their number is the index of
the next write. A failed call has written what it had written, so that stands beside the error. A
length is the number of bytes of some object, and no sum of such a length and a few wraps.
-/

namespace Inac
namespace Base64

/-! ## Encoding

Each character is written through `put`, which checks the room. -/

def base64chars : List UInt8 :=
  ['A', 'B', 'C', 'D', 'E', 'F', 'G', 'H', 'I', 'J', 'K', 'L', 'M', 'N', 'O', 'P', 'Q', 'R', 'S',
    'T', 'U', 'V', 'W', 'X', 'Y', 'Z', 'a', 'b', 'c', 'd', 'e', 'f', 'g', 'h', 'i', 'j', 'k', 'l',
    'm', 'n', 'o', 'p', 'q', 'r', 's', 't', 'u', 'v', 'w', 'x', 'y', 'z', '0', '1', '2', '3', '4',
    '5', '6', '7', '8', '9', '+', '/'].map Char.toUInt8

/-- `'='`. -/
def equals : UInt8 := '='.toUInt8

/-- A bounded output: the error and what was written before it, or what has been written. -/
abbrev Written := Except (Err × List UInt8) (List UInt8)

/-- `result[resultIndex++] = c`, behind the check every write of the encoder stands behind. -/
def put (resultSize : Nat) (result : List UInt8) (c : UInt8) : Written :=
  if result.length ≥ resultSize then .error (.bufferTooSmall, result) else .ok (result ++ [c])

/-- `base64chars[(uint8_t)v & 63]`. -/
def sextet (v : Nat) : UInt8 := base64chars.getD (v % 256 &&& 63) 0

/-- The loop's body at index `x`. -/
def encodeGroup (data : List UInt8) (resultSize : Nat) (result : List UInt8) (x : Nat) :
    Written := do
  let n := (data.getD x 0).toNat <<< 16
  let n := if x + 1 < data.length then n + (data.getD (x + 1) 0).toNat <<< 8 else n
  let n := if x + 2 < data.length then n + (data.getD (x + 2) 0).toNat else n
  let result ← put resultSize result (sextet (n >>> 18))
  let result ← put resultSize result (sextet (n >>> 12))
  let result ← if x + 1 < data.length then put resultSize result (sextet (n >>> 6)) else pure result
  if x + 2 < data.length then put resultSize result (sextet n) else pure result

/-- `if (padCount > 0) for (; padCount < 3; padCount++) result[resultIndex++] = '=';`. -/
def putPadding (resultSize : Nat) (result : List UInt8) (padCount : Nat) : Written :=
  if padCount > 0 then
    (List.range' padCount (3 - padCount)).foldlM (fun result _ => put resultSize result equals)
      result
  else .ok result

/-- `ina_util_base64_encode_chunk`; a `NULL` pointer is `none`, and `result` is given by its
    size. The bytes written end with the NUL. -/
def inaUtilBase64EncodeChunk (dataBuf : Option (List UInt8)) (result : Option Nat) : Written :=
  match dataBuf, result with
  | some data, some resultSize => do
    -- `for (x = 0; x < dataLength; x += 3)`
    let result ← (List.range' 0 ((data.length + 2) / 3) 3).foldlM (encodeGroup data resultSize) []
    let result ← putPadding resultSize result (data.length % 3)
    put resultSize result 0
  | _, _ => .error (.invalidArgument, [])

/-! ## Decoding

The table is indexed by a `char`, which is signed here. -/

def base64DecodeTab : List Nat :=
  [66,66,66,66,66,66,66,66,66,64,66,66,66,66,66,66,66,66,66,66,66,66,66,66,66,
    66,66,66,66,66,66,66,66,66,66,66,66,66,66,66,66,66,66,62,66,66,66,63,52,53,
    54,55,56,57,58,59,60,61,66,66,66,65,66,66,66, 0, 1, 2, 3, 4, 5, 6, 7, 8, 9,
    10,11,12,13,14,15,16,17,18,19,20,21,22,23,24,25,66,66,66,66,66,66,26,27,28,
    29,30,31,32,33,34,35,36,37,38,39,40,41,42,43,44,45,46,47,48,49,50,51,66,66,
    66,66,66,66,66,66,66,66,66,66,66,66,66,66,66,66,66,66,66,66,66,66,66,66,66,
    66,66,66,66,66,66,66,66,66,66,66,66,66,66,66,66,66,66,66,66,66,66,66,66,66,
    66,66,66,66,66,66,66,66,66,66,66,66,66,66,66,66,66,66,66,66,66,66,66,66,66,
    66,66,66,66,66,66,66,66,66,66,66,66,66,66,66,66,66,66,66,66,66,66,66,66,66,
    66,66,66,66,66,66,66,66,66,66,66,66,66,66,66,66,66,66,66,66,66,66,66,66,66,
    66,66,66,66,66,66]

def base64Whitespace : Nat := 64  -- `__INA_UTILS_BASE64_WHITESPACE`

def base64Equals : Nat := 65  -- `__INA_UTILS_BASE64_EQUALS`

def base64Invalid : Nat := 66  -- `__INA_UTILS_BASE64_INVALID`

/-- `base64_decode_tab[(int)c]`. A `char` is signed: the upper half of its values is negative, and
    there the read is outside the table. -/
def decodeTabAt (c : UInt8) : Option Nat :=
  if c.toNat < 128 then base64DecodeTab[c.toNat]? else none

/-- The decoder's variables, and the bytes written through `out`. -/
structure Reg where
  buf : Nat
  len : Nat
  out : List UInt8
  deriving DecidableEq, Repr

/-- The `default` case of the decoder's `switch`: six bits into the register, and when the buffer is
    full, split it into bytes. -/
def shiftIn (maxOut : Nat) (r : Reg) (c : Nat) : Except Err Unit × Reg :=
  let buf := r.buf <<< 6 % 2 ^ 64 ||| c
  if buf &&& 0x1000000 ≠ 0 then
    let len := r.len + 3
    if len > maxOut then (.error .bufferOverflow, { r with buf := buf, len := len })
    else (.ok (), { buf := 1, len := len, out := r.out ++
      [UInt8.ofNat (buf >>> 16), UInt8.ofNat (buf >>> 8), UInt8.ofNat buf] })
  else (.ok (), { r with buf := buf })

/-- The decoder's loop over what is left of the input. There is no result when it reads outside the
    table. -/
def decodeLoop (maxOut : Nat) : List UInt8 → Reg → Option (Except Err Unit × Reg)
  | [], r => some (.ok (), r)
  | ch :: input, r =>
    match decodeTabAt ch with
    | none => none
    | some c =>
      if c = base64Whitespace then decodeLoop maxOut input r
      else if c = base64Invalid then some (.error .inputInvalid, r)
      -- pad character, end of data
      else if c = base64Equals then some (.ok (), r)
      else
        match shiftIn maxOut r c with
        | (.error e, r) => some (.error e, r)
        | (.ok _, r) => decodeLoop maxOut input r

/-- What is left in the register behind the loop. -/
def decodeTail (maxOut : Nat) (r : Reg) : Except Err Unit × Reg :=
  if r.buf &&& 0x40000 ≠ 0 then
    let len := r.len + 2
    if len > maxOut then (.error .bufferOverflow, { r with len := len })
    else (.ok (), { r with
      len := len, out := r.out ++ [UInt8.ofNat (r.buf >>> 10), UInt8.ofNat (r.buf >>> 2)] })
  else if r.buf &&& 0x1000 ≠ 0 then
    let len := r.len + 1
    if len > maxOut then (.error .bufferOverflow, { r with len := len })
    else (.ok (), { r with len := len, out := r.out ++ [UInt8.ofNat (r.buf >>> 4)] })
  else (.ok (), r)

/-- A call of the decoder: what it returns, the bytes written to `out`, and `*out_len`. -/
structure Decoded where
  rc : Except Err Unit
  out : List UInt8
  outLen : Option Nat

/-- `ina_util_base64_decode_chunk`; a `NULL` pointer is `none`, `out` is given by `max_out`, and
    `outLen` by what it points at before the call. -/
def inaUtilBase64DecodeChunk (input : Option (List UInt8)) (out outLen : Option Nat) :
    Option Decoded :=
  match input, out, outLen with
  | some input, some maxOut, some _ => do
    let (rc, r) ← decodeLoop maxOut input { buf := 1, len := 0, out := [] }
    match rc with
    | .error e => some { rc := .error e, out := r.out, outLen := some 0 }
    | .ok _ =>
      let (rc, r) := decodeTail maxOut r
      match rc with
      | .error e => some { rc := .error e, out := r.out, outLen := some 0 }
      | .ok _ => some { rc := .ok (), out := r.out, outLen := some r.len }
  | _, _, _ => some { rc := .error .invalidArgument, out := [], outLen := outLen }

end Base64
end Inac
