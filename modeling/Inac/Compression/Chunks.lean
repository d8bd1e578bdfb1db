import Mathlib.Algebra.Ring.Nat
import Inac.Err
import Inac.Lib.Run

/-!
# Compression in chunks (`src/compression.c`)

A DEFLATE state carries a stream from call to call. A call that finds the stream uninitialised
begins a new one, and a call without `more` ends it. Each call is to report how many bytes of its
own `src` it read and how many of its own `dst` it wrote.

Decompression takes both from what is left of the two buffers, and is right in every call.
Compression gives the stream's running totals, which are these numbers only as long as the stream has
done nothing before, or a multiple of 2^32 bytes, which an `int` does not show.

What the library makes of the bytes is a parameter (`Codec`): that it takes and gives no more than it
is offered is all that is used of it. For the examples at the end it is spelled out as far as they
go, for chunks of one byte, whose blocks are stored and not coded.
-/

namespace Inac
namespace Compression

open Lib

/-! ## The library

The two laws of a codec, that it takes no more than it is offered and gives no more than there is
room for, are fields of the structure, so a library without them cannot be put in. -/

def mzOk : Int := 0
def mzStreamEnd : Int := 1

inductive Flush where
  | sync  -- `MZ_SYNC_FLUSH`
  | finish  -- `MZ_FINISH`
  deriving DecidableEq, Repr

/-- What a call does to the stream: how much it takes of the input, and what it puts out. -/
structure Answer (σ : Type) where
  state : σ
  status : Int
  consumed : Nat
  out : List UInt8

/-- `mz_deflateInit`, `mz_deflate` and `mz_deflateEnd`, or the same of `mz_inflate`. -/
structure Codec where
  State : Type
  start : Int → Int × State
  run : State → List UInt8 → Nat → Flush → Answer State
  finish : State → Int
  consumed_le : ∀ s src n f, (run s src n f).consumed ≤ src.length
  out_le : ∀ s src n f, (run s src n f).out.length ≤ n

/-! ## The code

`mz_stream` has the two totals as `unsigned long`s, which do not wrap in the times considered, and
the caller gets them as an `int`. -/

/-- `ina_compression_state_t`, with the stream's totals. -/
structure State (C : Codec) where
  flags : Int
  inner : C.State
  totalIn : Nat
  totalOut : Nat
  initialized : Bool

/-- The arguments of a call. -/
structure Chunk where
  src : List UInt8
  dst : List UInt8
  more : Bool
  src_lt : src.length < 2 ^ 31
  dst_lt : dst.length < 2 ^ 31

/-- What a call leaves: the return code, `*wrote_len` and `*read_len` where it set them, and
    `dst`. -/
structure Report where
  rc : Except Err Unit
  wroteLen : Option Int
  readLen : Option Int
  dst : List UInt8

/-- An `int` from an `unsigned long`. -/
def toInt (n : Nat) : Int := Int.bmod n (2 ^ 32)

section Code

variable {C : Codec}

/-- The stream that the call works on: a new one if there is none. -/
def State.begun (s : State C) : State C :=
  if s.initialized then s
  else { s with inner := (C.start s.flags).2, totalIn := 0, totalOut := 0, initialized := true }

/-- What the library does in the call. -/
def State.answer (s : State C) (c : Chunk) : Answer C.State :=
  C.run s.begun.inner c.src c.dst.length (if c.more then .sync else .finish)

/-- The stream moves on, and so do its totals. -/
def State.moved (s : State C) (a : Answer C.State) : State C :=
  { s with
    inner := a.state
    totalIn := (s.totalIn + a.consumed) % 2 ^ 64
    totalOut := (s.totalOut + a.out.length) % 2 ^ 64 }

/-- What follows the library's call: its status, and the end of the stream. -/
def State.ended (s : State C) (status : Int) (more : Bool) (e : Err) : Except Err Unit × State C :=
  if status ≠ mzStreamEnd ∧ status ≠ mzOk then (.error .decompressionFailed, s)
  else if !more then
    (if C.finish s.inner ≠ mzOk then .error e else .ok (), { s with initialized := false })
  else (.ok (), s)

/-- `ina_compression_compress_miniz`. -/
def inaCompressionCompressMiniz (s : State C) (c : Chunk) : Report × State C :=
  if !s.initialized && (C.start s.flags).1 ≠ mzOk then
    (⟨.error .compressionNotInitialized, some 0, none, c.dst⟩, s)
  else
    let a := s.answer c
    let s := s.begun.moved a
    let (rc, t) := s.ended a.status c.more .compressionFailed
    (⟨rc, some (toInt s.totalOut), some (toInt s.totalIn), a.out ++ c.dst.drop a.out.length⟩, t)

/-- `ina_compression_decompress_miniz`. -/
def inaCompressionDecompressMiniz (s : State C) (c : Chunk) : Report × State C :=
  if !s.initialized && (C.start s.flags).1 ≠ mzOk then
    (⟨.error .decompressionNotInitialized, some 0, some 0, c.dst⟩, s)
  else
    let a := s.answer c
    let s := s.begun.moved a
    let availIn := c.src.length - a.consumed
    let availOut := c.dst.length - a.out.length
    let (rc, t) := s.ended a.status c.more .decompressionFailed
    (⟨rc, some ((c.dst.length : Int) - availOut), some ((c.src.length : Int) - availIn),
      a.out ++ c.dst.drop a.out.length⟩, t)

/-- `ina_compression_compress_chunk`. -/
def inaCompressionCompressChunk (s : State C) (c : Chunk) : Report × State C :=
  if c.dst = [] then (⟨.error .invalidArgument, none, none, c.dst⟩, s)
  else inaCompressionCompressMiniz s c

/-- `ina_compression_decompress_chunk`. -/
def inaCompressionDecompressChunk (s : State C) (c : Chunk) : Report × State C :=
  if c.dst = [] then (⟨.error .invalidArgument, none, none, c.dst⟩, s)
  else inaCompressionDecompressMiniz s c

end Code

/-! ## What is documented

The header says of `wrote_len` and `read_len` that they are the bytes written to `dst` and read from
`src`, which are the arguments of the call. -/

/-- A step of either function. -/
abbrev Step (C : Codec) := State C → Chunk → Report × State C

/-- The call succeeds. -/
def Succeeds {C : Codec} (step : Step C) (s : State C) (c : Chunk) : Prop :=
  (step s c).1.rc = .ok ()

/-- The call reports what it wrote and what it read. -/
def Counts {C : Codec} (step : Step C) (s : State C) (c : Chunk) : Prop :=
  (step s c).1.wroteLen = some ((s.answer c).out.length : Int) ∧
    (step s c).1.readLen = some ((s.answer c).consumed : Int)

/-- The bytes that the caller takes from a call's `dst`. -/
def Report.taken (r : Report) : List UInt8 := r.dst.take (r.wroteLen.getD 0).toNat

/-- What the library put out over all calls. -/
def produced {C : Codec} (step : Step C) : State C → List Chunk → List UInt8
  | _, [] => []
  | s, c :: cs => (s.answer c).out ++ produced step (step s c).2 cs

/-- All calls report what they did, and what the caller takes is the stream. -/
structure Reported {C : Codec} (step : Step C) (s : State C) (cs : List Chunk) : Prop where
  counts : Along step (Counts step) s cs
  stream : (outs step s cs).flatMap Report.taken = produced step s cs

/-- The stream has done something before: its totals are no multiples of the numbers of an `int`. -/
def Used {C : Codec} (s : State C) (_ : Chunk) : Prop :=
  s.initialized = true ∧ ¬ (2 ^ 32 ∣ s.totalIn ∧ 2 ^ 32 ∣ s.totalOut)

/-! ## One call

An `int` shows a number modulo `2 ^ 32`, so the total after the call shows what the call did if and
only if the total before it shows nothing. -/

theorem toInt_eq_natCast (n : Nat) {k : Nat} (hk : k < 2147483648) :
    toInt n = k ↔ n % 4294967296 = k := by
  change Int.bmod n 4294967296 = k ↔ _
  rw [Int.bmod_def]
  split <;> omega

/-- The sum of a total and what fits an `int` shows the latter, if the total does not show. -/
theorem toInt_eq_iff (t : Nat) {k : Nat} (hk : k < 2 ^ 31) :
    toInt ((t + k) % 2 ^ 64) = k ↔ 2 ^ 32 ∣ t := by
  rw [toInt_eq_natCast _ hk]
  omega

variable {C : Codec} {s : State C} {c : Chunk}

theorem State.out_le (s : State C) (c : Chunk) : (s.answer c).out.length ≤ c.dst.length :=
  C.out_le ..

theorem State.out_lt (s : State C) (c : Chunk) : (s.answer c).out.length < 2 ^ 31 :=
  Nat.lt_of_le_of_lt (s.out_le c) c.dst_lt

theorem State.consumed_lt (s : State C) (c : Chunk) : (s.answer c).consumed < 2 ^ 31 :=
  Nat.lt_of_le_of_lt (C.consumed_le ..) c.src_lt

theorem State.begun_totals (s : State C) :
    (2 ^ 32 ∣ s.begun.totalIn ∧ 2 ^ 32 ∣ s.begun.totalOut) ↔
      (s.initialized = true → 2 ^ 32 ∣ s.totalIn ∧ 2 ^ 32 ∣ s.totalOut) := by
  rw [State.begun]
  split
  · rename_i hinit
    rw [imp_iff_right hinit]
  · rename_i hinit
    simp only [Nat.dvd_zero, and_self, true_iff]
    exact fun h => absurd h hinit

/-- What a call that succeeds leaves of `dst`. -/
theorem compress_report (h : Succeeds inaCompressionCompressChunk s c) :
    (inaCompressionCompressChunk s c).1 =
      ⟨.ok (), some (toInt (s.begun.moved (s.answer c)).totalOut),
        some (toInt (s.begun.moved (s.answer c)).totalIn),
        (s.answer c).out ++ c.dst.drop (s.answer c).out.length⟩ := by
  unfold Succeeds at h
  rw [← h]
  rw [inaCompressionCompressChunk] at h ⊢
  split at h
  · cases h
  · rename_i hdst
    rw [if_neg hdst]
    rw [inaCompressionCompressMiniz] at h ⊢
    split at h
    · cases h
    · rename_i hstart
      rw [if_neg hstart]

theorem compress_counts_iff (h : Succeeds inaCompressionCompressChunk s c) :
    Counts inaCompressionCompressChunk s c ↔ ¬ Used s c := by
  rw [Counts, compress_report h, Used, not_and, not_not, ← s.begun_totals, and_comm]
  simp only [Option.some.injEq, State.moved]
  rw [toInt_eq_iff _ (s.consumed_lt c), toInt_eq_iff _ (s.out_lt c)]

/-- The same of a decompressing call: the numbers are what it took of its own buffers. -/
theorem decompress_report (h : Succeeds inaCompressionDecompressChunk s c) :
    (inaCompressionDecompressChunk s c).1 =
      ⟨.ok (), some ((s.answer c).out.length : Int), some ((s.answer c).consumed : Int),
        (s.answer c).out ++ c.dst.drop (s.answer c).out.length⟩ := by
  have hout := s.out_le c
  have hin : (s.answer c).consumed ≤ c.src.length := C.consumed_le ..
  have hwrote : (c.dst.length : Int) - (c.dst.length - (s.answer c).out.length : Nat) =
      (s.answer c).out.length := by omega
  have hread : (c.src.length : Int) - (c.src.length - (s.answer c).consumed : Nat) =
      (s.answer c).consumed := by omega
  unfold Succeeds at h
  rw [← h]
  rw [inaCompressionDecompressChunk] at h ⊢
  split at h
  · cases h
  · rename_i hdst
    rw [if_neg hdst]
    rw [inaCompressionDecompressMiniz] at h ⊢
    split at h
    · cases h
    · rename_i hstart
      rw [if_neg hstart]
      simp only [hwrote, hread]

/-! ## Sequences of calls

By induction on the calls: the first that finds the stream used is the first whose report is wrong.
-/

/-- A call that reports what it wrote hands out what the library put out. -/
theorem taken_eq (h : Succeeds inaCompressionCompressChunk s c)
    (hcounts : Counts inaCompressionCompressChunk s c) :
    (inaCompressionCompressChunk s c).1.taken = (s.answer c).out := by
  rw [Report.taken, hcounts.1, compress_report h]
  exact List.take_left

theorem flatMap_taken {cs : List Chunk}
    (h : Along inaCompressionCompressChunk (Succeeds inaCompressionCompressChunk) s cs)
    (hcounts : Along inaCompressionCompressChunk (Counts inaCompressionCompressChunk) s cs) :
    (outs inaCompressionCompressChunk s cs).flatMap Report.taken =
      produced inaCompressionCompressChunk s cs := by
  induction cs generalizing s with
  | nil => rfl
  | cons c cs ih =>
    rw [outs, List.flatMap_cons, produced, taken_eq h.1 hcounts.1, ih h.2 hcounts.2]

/-- **Calls report what they did exactly as long as the stream has done nothing before**: for every
    sequence of successful calls, on a state of either kind, all reports are right, and what they
    hand out is the stream, if and only if no call finds totals that show in an `int`. -/
theorem compress_reported_iff (s : State C) (cs : List Chunk)
    (h : Along inaCompressionCompressChunk (Succeeds inaCompressionCompressChunk) s cs) :
    Reported inaCompressionCompressChunk s cs ↔ Never inaCompressionCompressChunk Used s cs := by
  rw [← along_iff_never (I := fun _ => True) (fun _ _ _ _ _ => trivial)
    (fun _ _ hc _ => compress_counts_iff hc) h trivial]
  exact ⟨fun hreported => hreported.counts, fun hcounts => ⟨hcounts, flatMap_taken h hcounts⟩⟩

/-! ## Chunks of one byte -/

/-- A block that is stored as it is. -/
def storedBlock (final : Bool) (src : List UInt8) : List UInt8 :=
  let lo := UInt8.ofNat src.length
  let hi := UInt8.ofNat (src.length / 2 ^ 8)
  [if final then 1 else 0, lo, hi, ~~~lo, ~~~hi] ++ src

/-- What the library carries from one chunk to the next: whether the header is written, and the two
    sums of the checksum. -/
structure Sums where
  begun : Bool
  low : Nat
  high : Nat
  deriving DecidableEq, Repr

def Sums.add (s : Sums) (b : UInt8) : Sums :=
  let low := (s.low + b.toNat) % 65521
  ⟨true, low, (s.high + low) % 65521⟩

/-- What `tdefl_flush_block` writes for a chunk of one byte: the header at the start of a stream, the
    byte in a stored block, since a coded one would be no shorter, and behind it an empty stored
    block, or the checksum at the end of the stream. -/
def flushByte (s : Sums) (b : UInt8) (f : Flush) : List UInt8 :=
  let t := s.add b
  (if s.begun then [] else [0x78, 0x01]) ++ storedBlock (f = .finish) [b] ++
    match f with
    | .sync => storedBlock false []
    | .finish => [UInt8.ofNat (t.high / 2 ^ 8), UInt8.ofNat t.high, UInt8.ofNat (t.low / 2 ^ 8),
        UInt8.ofNat t.low]

/-- `mz_deflate` on chunks of one byte that it has room for. Other chunks it is not asked for here,
    and they are refused. -/
def Codec.byteWise : Codec where
  State := Sums
  start _ := (mzOk, ⟨false, 1, 0⟩)
  run s src n f :=
    match src with
    | [b] =>
      if (flushByte s b f).length ≤ n then
        ⟨s.add b, if f = .finish then mzStreamEnd else mzOk, 1, flushByte s b f⟩
      else ⟨s, -5, 0, []⟩  -- `MZ_BUF_ERROR`
    | _ => ⟨s, -5, 0, []⟩
  finish _ := mzOk
  consumed_le s src n f := by
    split
    · split
      · exact Nat.le_refl _
      · exact Nat.zero_le _
    · exact Nat.zero_le _
  out_le s src n f := by
    split
    · split
      · assumption
      · exact Nat.zero_le _
    · exact Nat.zero_le _

/-- A new DEFLATE_RAW state; the level that the library makes of its flags gives a header too. -/
def State.raw : State .byteWise := ⟨-15, ⟨false, 1, 0⟩, 0, 0, false⟩

/-- A chunk of one byte, with 16 bytes for what is made of it. -/
def Chunk.byte (b : UInt8) (more : Bool) : Chunk :=
  ⟨[b], List.replicate 16 0, more, show 1 < 2 ^ 31 by decide, show 16 < 2 ^ 31 by decide⟩

/-- One chunk is reported as it is compressed. -/
theorem compress_reported_iff_single :
    Reported inaCompressionCompressChunk .raw [.byte 97 false] :=
  (compress_reported_iff .raw [.byte 97 false] ⟨rfl, trivial⟩).mpr
    ⟨fun hused => absurd hused.1 (by decide), trivial⟩

/-- Of two chunks of one byte each, 13 and 10 bytes are made, and the second is reported with the
    sums. -/
theorem second_chunk_summed :
    produced inaCompressionCompressChunk .raw [.byte 97 true, .byte 98 false] =
        [0x78, 0x01, 0x00, 0x01, 0x00, 0xfe, 0xff, 97, 0x00, 0x00, 0x00, 0xff, 0xff] ++
          [0x01, 0x01, 0x00, 0xfe, 0xff, 98, 0x01, 0x26, 0x00, 0xc4] ∧
      (outs inaCompressionCompressChunk .raw [.byte 97 true, .byte 98 false]).map
        (fun r => (r.wroteLen, r.readLen)) = [(some 13, some 1), (some 23, some 2)] ∧
      Along inaCompressionCompressChunk (Succeeds inaCompressionCompressChunk) .raw
        [.byte 97 true, .byte 98 false] ∧
      ¬ Reported inaCompressionCompressChunk .raw [.byte 97 true, .byte 98 false] := by
  have hsucc : Along inaCompressionCompressChunk (Succeeds inaCompressionCompressChunk) .raw
      [.byte 97 true, .byte 98 false] := ⟨rfl, rfl, trivial⟩
  refine ⟨by decide, by decide, hsucc, fun hreported => ?_⟩
  exact (compress_counts_iff hsucc.2.1).mp hreported.counts.2.1 ⟨rfl, by decide⟩

/-! ## Decompression

The twin computes both numbers from what the library has left of the buffers, so that nothing
depends on the state it begins in. -/

/-- `mz_inflate` on chunks that are one stored byte each. -/
def Codec.unstore : Codec where
  State := Unit
  start _ := (mzOk, ())
  run _ src n _ :=
    match src with
    | [final, 1, 0, 0xfe, 0xff, b] =>
      if 0 < n then ⟨(), if final = 1 then mzStreamEnd else mzOk, 6, [b]⟩ else ⟨(), -5, 0, []⟩
    | _ => ⟨(), -3, 0, []⟩  -- `MZ_DATA_ERROR`
  finish _ := mzOk
  consumed_le _ src n _ := by
    split
    · split
      · exact Nat.le_refl _
      · exact Nat.zero_le _
    · exact Nat.zero_le _
  out_le _ src n _ := by
    split
    · split
      · assumption
      · exact Nat.zero_le _
    · exact Nat.zero_le _

/-- A block of one stored byte, with 4 bytes for what it holds. -/
def Chunk.stored (final b : UInt8) (more : Bool) : Chunk :=
  ⟨[final, 1, 0, 0xfe, 0xff, b], List.replicate 4 0, more, show 6 < 2 ^ 31 by decide,
    show 4 < 2 ^ 31 by decide⟩

end Compression
end Inac
