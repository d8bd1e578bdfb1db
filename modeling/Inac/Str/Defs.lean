import Mathlib.Algebra.Ring.Nat
import Inac.Lib.Buf

/-!
# Heap strings (`src/string.c`)

An `ina_str_t` points at the bytes behind a header with two 32-bit fields: `size`, the bytes there
is room for, and `len`, the bytes of the string, with a NUL behind them. The top bit of `size`
marks a string from a pool; the strings here are from the heap, and it is clear.

The bytes are modelled as the buffer that was allocated, so its length is the real capacity,
whatever `size` says. Every write is checked against it: an operation that writes outside the
buffer, or copies more than its source holds, has no result.

Fresh memory holds what it happens to hold: each call that may allocate takes that as an argument.
Allocation does not fail, and lengths are far below the wrap of `size_t`.
-/

namespace Inac
namespace Str

open Lib

/-- `ina_str_hdr_t`, with the buffer behind it. -/
structure Hdr where
  size : Nat
  len : Nat
  data : List UInt8
  deriving DecidableEq, Repr

def maxPrealloc : Nat := 512 * 1024  -- `__INA_MAX_PREALLOC`

/-- `n` bytes of fresh memory. -/
def memAlloc (junk : Nat → UInt8) (n : Nat) : List UInt8 := (List.range n).map junk

/-- `ina_mem_realloc` to `n` bytes. -/
def memRealloc (junk : Nat → UInt8) (buf : List UInt8) (n : Nat) : List UInt8 :=
  buf.take n ++ (List.range (n - buf.length)).map fun i => junk (buf.length + i)

/-- `ina_mem_cpy` of `n` bytes to index `i`. -/
def memCpy (buf : List UInt8) (i : Nat) (src : List UInt8) (n : Nat) : Option (List UInt8) :=
  if n ≤ src.length then store buf i (src.take n) else none

/-- `strlen`; a C string is given as the bytes from its pointer on. -/
def strlen (cstr : List UInt8) : Nat := (cstr.takeWhile (· ≠ 0)).length

/-- `strchr(chars, c) != NULL`: the terminator counts as one of the characters. -/
def strchr (chars : List UInt8) (c : UInt8) : Bool := c = 0 ∨ c ∈ chars.takeWhile (· ≠ 0)

/-- `__ina_ensure_size`. -/
def ensureSize (junk : Nat → UInt8) (hdr : Hdr) (len : Nat) : Hdr :=
  let size := hdr.size &&& (2 ^ 31 - 1)
  if (size + 2 ^ 64 - hdr.len - 1) % 2 ^ 64 > len then hdr
  else
    let newlen := hdr.len + len
    let newlen := if newlen < maxPrealloc then newlen * 2 else newlen + maxPrealloc
    let size := (newlen + 1) % 2 ^ 32
    { hdr with size := size, data := memRealloc junk hdr.data size }

/-! ## Construction

A string of `len` bytes has a buffer of one byte more, and begins as the empty string. -/

def inaStrNew (junk : Nat → UInt8) (len : Nat) : Option Hdr :=
  (store (memAlloc junk (len + 1)) 0 [0]).map fun data =>
    { size := (len + 1) % 2 ^ 32, len := 0, data := data }

/-- `ina_str_new_fromblk`; `none` is a `NULL` block. -/
def inaStrNewFromblk (junk : Nat → UInt8) (blk : Option (List UInt8)) (len : Nat) : Option Hdr :=
  match blk with
  | none => inaStrNew junk len
  | some blk => do
    let str ← inaStrNew junk len
    let data ← if len > 0 then memCpy str.data 0 blk len else some str.data
    let data ← store data len [0]
    some { str with len := len % 2 ^ 32, data := data }

/-- `ina_str_new_fromcstr`; `none` is `NULL`. -/
def inaStrNewFromcstr (junk : Nat → UInt8) (cstr : Option (List UInt8)) : Option Hdr := do
  let len := match cstr with
    | some cstr => strlen cstr
    | none => 0
  let str ← inaStrNew junk len
  let data ← match cstr with
    | some cstr => memCpy str.data 0 cstr len
    | none => some str.data
  let data ← store data len [0]
  some { str with len := len % 2 ^ 32, data := data }

/-! ## Operations

Each makes room with `__ina_ensure_size`, if it may grow, copies, and writes the NUL and `len`. -/

def inaStrNcpy (junk : Nat → UInt8) (dest : Hdr) (src : Option (List UInt8)) (n : Nat) :
    Option Hdr :=
  match src with
  | none => some dest
  | some src => do
    let d := ensureSize junk dest n
    let data ← memCpy d.data 0 src n
    let data ← store data n [0]
    some { d with len := n % 2 ^ 32, data := data }

def inaStrNcat (junk : Nat → UInt8) (dest : Hdr) (src : Option (List UInt8)) (n : Nat) :
    Option Hdr :=
  match src with
  | none => some dest
  | some src => do
    let d := ensureSize junk dest n
    let data ← memCpy d.data d.len src n
    let len := (d.len + n) % 2 ^ 32
    let data ← store data len [0]
    some { d with len := len, data := data }

def inaStrAppendChr (junk : Nat → UInt8) (dest : Hdr) (c : UInt8) : Option Hdr := do
  let d := ensureSize junk dest 1
  let data ← store d.data d.len [c]
  let len := (d.len + 1) % 2 ^ 32
  let data ← store data len [0]
  some { d with len := len, data := data }

def inaStrTruncate (str : Hdr) (pos : Nat) : Option Hdr :=
  (store str.data pos [0]).map fun data => { str with len := pos % 2 ^ 32, data := data }

/-- `while (sp <= end && strchr(chars, *sp)) sp++;` with `k` bytes left up to `end`. -/
def trimFront (chars data : List UInt8) : Nat → Nat → Nat
  | sp, 0 => sp
  | sp, k + 1 => if strchr chars (data.getD sp 0) then trimFront chars data (sp + 1) k else sp

/-- `while (ep > start && strchr(chars, *ep)) ep--;`, by the offset of `ep` from `start`. -/
def trimBack (chars data : List UInt8) : Nat → Nat
  | 0 => 0
  | ep + 1 => if strchr chars (data.getD (ep + 1) 0) then trimBack chars data ep else ep + 1

/-- Where `ep` stops in a string of `len` bytes: an empty one has `end` one before `start`, and
    there `ep` stays. -/
def trimEnd (chars data : List UInt8) (len : Nat) : Int :=
  match len with
  | 0 => -1
  | n + 1 => trimBack chars data n

/-- `ina_str_trim`; `none` is `NULL`. -/
def inaStrTrim (str : Hdr) (chars : Option (List UInt8)) : Option Hdr :=
  match chars with
  | none => some str
  | some chars => do
    let sp := trimFront chars str.data 0 str.len
    let ep := trimEnd chars str.data str.len
    let len := if (sp : Int) > ep then 0 else (ep - sp + 1).toNat
    let data ← if sp ≠ 0 then store str.data 0 ((str.data.drop sp).take len) else some str.data
    let data ← store data len [0]
    some { str with len := len % 2 ^ 32, data := data }

end Str
end Inac
