import Inac.Err
import Inac.Lz4.Encode

/-!
# LZ4 chunks (`src/compression.c`)

An LZ4 state keeps one thing from call to call: the length of the chunk that was compressed last, or
that room was asked for. `ina_compression_compress_chunk` sets it, and the decompression that trusts
its input has nothing else to go by.

The library has been followed down to its copies, so a result here is about the bytes.

The answer of `get_destination_len` is kept too, in `chunk_proposed_dst_len`, and nothing reads it.
In the safe mode a state is not looked at, so any state decompresses what any other has compressed.
In the trusted mode the length that is kept has to be that of the chunk, or the decoder stops too
early or too late.
-/

namespace Inac
namespace Compression
namespace Lz4

open Inac.Lz4

/-- `ina_compression_mode_t`. -/
inductive Mode where
  | safe
  | trustedFast
  deriving DecidableEq, Repr

/-- `ina_compression_state_t`, for `INA_COMPRESSION_TYPE_LZ4`. -/
structure State where
  mode : Mode
  chunkSrcLen : Nat
  chunkProposedDstLen : Nat
  deriving DecidableEq, Repr

/-- What a call leaves: the return code, `*wrote_len` and `*read_len` where it set them, and
    `dst`. -/
structure Report where
  rc : Except Err Unit
  wroteLen : Option Int
  readLen : Option Int
  dst : List UInt8

/-- `ina_compression_new`, for `INA_COMPRESSION_TYPE_LZ4`. -/
def inaCompressionNew (mode : Mode) : State := ⟨mode, 0, 0⟩

/-- `ina_compression_bounds_lz4`. -/
def inaCompressionBoundsLz4 (s : State) : Nat := lz4CompressBound s.chunkSrcLen

/-- `ina_compression_get_destination_len`. -/
def inaCompressionGetDestinationLen (s : State) (srcLen : Nat) : Nat × State :=
  let s := { s with chunkSrcLen := srcLen }
  let s := { s with chunkProposedDstLen := inaCompressionBoundsLz4 s }
  (s.chunkProposedDstLen, s)

/-- `ina_compression_compress_lz4`: `*read_len` stays zero. -/
def inaCompressionCompressLz4 (s : State) (src dst : List UInt8) (dstLen : Nat) : Option Report := do
  let (wroteLen, dst) ← lz4CompressFastExtState (src.take s.chunkSrcLen) dst dstLen 1
  if wroteLen = 0 then some ⟨.error .compressionFailed, some 0, some 0, dst⟩
  else some ⟨.ok (), some wroteLen, some 0, dst⟩

/-- `ina_compression_decompress_lz4_safe`. -/
def inaCompressionDecompressLz4Safe (src : List UInt8) (srcLen : Nat) (dst : List UInt8)
    (dstLen : Nat) : Option Report := do
  let (wroteLen, dst) ← lz4DecompressSafe src srcLen dstLen dst
  if wroteLen ≤ 0 then some ⟨.error .decompressionFailed, some wroteLen, some 0, dst⟩
  else some ⟨.ok (), some wroteLen, some 0, dst⟩

/-- `ina_compression_decompress_lz4_fast`. An assertion that fails has no result. -/
def inaCompressionDecompressLz4Fast (s : State) (src dst : List UInt8) : Option Report :=
  if 0 < s.chunkSrcLen then do
    let (readLen, dst) ← lz4DecompressFast src s.chunkSrcLen dst
    if readLen < 0 then some ⟨.error .decompressionFailed, some 0, some readLen, dst⟩
    else some ⟨.ok (), some s.chunkSrcLen, some readLen, dst⟩
  else none

/-- `ina_compression_compress_chunk`. -/
def inaCompressionCompressChunk (s : State) (src : List UInt8) (srcLen : Nat) (dst : List UInt8)
    (dstLen : Nat) : Option (Report × State) :=
  if dstLen = 0 then some (⟨.error .invalidArgument, none, none, dst⟩, s)
  else do
    let s := { s with chunkSrcLen := srcLen }
    let r ← inaCompressionCompressLz4 s src dst dstLen
    some (r, s)

/-- `ina_compression_decompress_chunk`. -/
def inaCompressionDecompressChunk (s : State) (src : List UInt8) (srcLen : Nat) (dst : List UInt8)
    (dstLen : Nat) : Option (Report × State) :=
  if dstLen = 0 then some (⟨.error .invalidArgument, none, none, dst⟩, s)
  else do
    let r ←
      match s.mode with
      | .safe => inaCompressionDecompressLz4Safe src srcLen dst dstLen
      | .trustedFast => inaCompressionDecompressLz4Fast s src dst
    some (r, s)

/-! ## The compressor as it is called -/

theorem lz4CompressBound_of_le {n : Nat} (h : n ≤ lz4MaxInputSize) :
    lz4CompressBound n = n + n / 255 + 16 := if_neg (Nat.not_lt.mpr h)

theorem Block.bytes_ne_zero (b : Block) : b.bytes.length ≠ 0 := by
  rw [Block.bytes, List.length_append, length_lastBytes]
  omega

/-- `dst` begins with a block that stands for `source`, of at most `room` bytes. -/
structure IsBlock (source : List UInt8) (room r : Nat) (dst : List UInt8) (b : Block) : Prop where
  standard : b.Standard
  expand : b.expand = source
  front : b.bytes <+: dst
  length : r = b.bytes.length
  le : r ≤ room

section Compress

variable {source dest : List UInt8} {maxOutputSize : Nat} {acceleration : Int}

/-- What is too long is turned away before anything is written. -/
theorem compress_long (h : lz4MaxInputSize < source.length) :
    lz4CompressFastExtState source dest maxOutputSize acceleration = some (0, dest) := by
  simp only [lz4CompressFastExtState, lz4CompressGeneric, if_pos h, ite_self]

/-- What both ways to call `LZ4_compress_generic` give it. -/
theorem job_arguments (hmax : source.length ≤ lz4MaxInputSize)
    (hacc : acceleration * 2 ^ 6 + source.length ≤ 2 ^ 32) :
    ((if source.length < lz4_64Klimit then TableType.byU16 else TableType.byU32) = .byU16 →
      source.length < lz4_64Klimit) ∧
    1 ≤ (if acceleration < 1 then 1 else acceleration.toNat) ∧
    (if acceleration < 1 then 1 else acceleration.toNat) * 2 ^ 6 + source.length ≤ 2 ^ 32 := by
  have hlit : lz4MaxInputSize = 2113929216 := rfl
  refine ⟨fun h => ?_, ?_, ?_⟩
  · by_contra hlt
    rw [if_neg hlt] at h
    cases h
  · split <;> omega
  · split <;> omega

/-- **Given the bound** the compressor does not fail. -/
theorem compress_free (hmax : source.length ≤ lz4MaxInputSize)
    (hfree : lz4CompressBound source.length ≤ maxOutputSize) (hdest : maxOutputSize ≤ dest.length)
    (hacc : acceleration * 2 ^ 6 + source.length ≤ 2 ^ 32) :
    ∃ r dst' b, lz4CompressFastExtState source dest maxOutputSize acceleration = some (r, dst') ∧
      dst'.length = dest.length ∧ IsBlock source maxOutputSize r dst' b := by
  obtain ⟨hsmall, hpos, hsteps⟩ := job_arguments hmax hacc
  have hbound := lz4CompressBound_of_le hmax
  simp only [lz4CompressFastExtState, if_pos hfree]
  obtain ⟨r, dst', hr, hlen, hout⟩ := lz4CompressGeneric_spec dest
    (J := ⟨source, 0, false, _, _⟩) (show _ ≤ _ by simp only; omega) hmax hsmall hpos hsteps
  rcases hout with ⟨-, hlimited⟩ | ⟨b, hb, hexpand, hbytes, hrb, hle, -⟩
  · cases hlimited
  · exact ⟨r, dst', b, hr, hlen, hb, hexpand, hbytes, hrb, by simp only at hle; omega⟩

/-- **Given less** it may fail. -/
theorem compress_limited (hmax : source.length ≤ lz4MaxInputSize)
    (hlimited : maxOutputSize < lz4CompressBound source.length)
    (hdest : maxOutputSize + overshoot source.length ≤ dest.length)
    (hacc : acceleration * 2 ^ 6 + source.length ≤ 2 ^ 32) :
    ∃ r dst', lz4CompressFastExtState source dest maxOutputSize acceleration = some (r, dst') ∧
      dst'.length = dest.length ∧ (r = 0 ∨ ∃ b, IsBlock source maxOutputSize r dst' b) := by
  obtain ⟨hsmall, hpos, hsteps⟩ := job_arguments hmax hacc
  simp only [lz4CompressFastExtState, if_neg (Nat.not_le.mpr hlimited)]
  obtain ⟨r, dst', hr, hlen, hout⟩ := lz4CompressGeneric_spec dest
    (J := ⟨source, maxOutputSize, true, _, _⟩) hdest hmax hsmall hpos hsteps
  refine ⟨r, dst', hr, hlen, ?_⟩
  rcases hout with ⟨hr0, -⟩ | ⟨b, hb, hexpand, hbytes, hrb, -, hle⟩
  · exact Or.inl hr0
  · exact Or.inr ⟨b, hb, hexpand, hbytes, hrb, hle rfl⟩

end Compress

/-- How much of the output buffer the compressor may touch. -/
def touched (n maxOutputSize : Nat) : Nat :=
  if lz4CompressBound n ≤ maxOutputSize then maxOutputSize else maxOutputSize + overshoot n

/-- **`LZ4_compress_fast_extState`** writes a block that stands for its input, or nothing. It fails
    only where it is given less than the bound, or more than it can take. -/
theorem compress_block (source dest : List UInt8) {maxOutputSize : Nat} {acceleration : Int}
    (hdest : touched source.length maxOutputSize ≤ dest.length)
    (hacc : acceleration * 2 ^ 6 + source.length ≤ 2 ^ 32) :
    ∃ r dst', lz4CompressFastExtState source dest maxOutputSize acceleration = some (r, dst') ∧
      dst'.length = dest.length ∧
      (r = 0 ∧ (maxOutputSize < lz4CompressBound source.length ∨
          lz4MaxInputSize < source.length) ∨
        r ≠ 0 ∧ ∃ b, IsBlock source maxOutputSize r dst' b) := by
  rw [touched] at hdest
  rcases Nat.lt_or_ge lz4MaxInputSize source.length with hlong | hmax
  · exact ⟨0, dest, compress_long hlong, rfl, Or.inl ⟨rfl, Or.inr hlong⟩⟩
  by_cases hfree : lz4CompressBound source.length ≤ maxOutputSize
  · rw [if_pos hfree] at hdest
    obtain ⟨r, dst', b, hr, hlen, hb⟩ := compress_free hmax hfree hdest hacc
    exact ⟨r, dst', hr, hlen, Or.inr ⟨hb.length ▸ Block.bytes_ne_zero b, b, hb⟩⟩
  · rw [if_neg hfree] at hdest
    obtain ⟨r, dst', hr, hlen, hout⟩ := compress_limited hmax (Nat.not_le.mp hfree) hdest hacc
    refine ⟨r, dst', hr, hlen, ?_⟩
    rcases hout with rfl | ⟨b, hb⟩
    · exact Or.inl ⟨rfl, Or.inl (Nat.not_le.mp hfree)⟩
    · exact Or.inr ⟨hb.length ▸ Block.bytes_ne_zero b, b, hb⟩

/-- Sixteen bytes that repeat, with room for less than the bound. -/
theorem compress_block_sixteen :
    ∃ r dst', lz4CompressFastExtState (List.replicate 16 97) (List.replicate 20 7) 20 1 =
        some (r, dst') ∧
      dst'.length = (List.replicate 20 (7 : UInt8)).length ∧
      (r = 0 ∧ (20 < lz4CompressBound (List.replicate 16 (97 : UInt8)).length ∨
          lz4MaxInputSize < (List.replicate 16 (97 : UInt8)).length) ∨
        r ≠ 0 ∧ ∃ b, IsBlock (List.replicate 16 97) 20 r dst' b) :=
  compress_block (List.replicate 16 97) (List.replicate 20 7) (by decide) (by decide)

/-! ## There and back -/

/-- `src` is what a state makes of the first `srcLen` bytes of `chunk`, given the room. -/
def Decodes (t : State) (chunk : List UInt8) (srcLen : Nat) (src : List UInt8) : Prop :=
  ∀ (dst : List UInt8) (dstLen : Nat), src.length ≤ dstLen → dstLen ≤ dst.length →
    ∃ r, inaCompressionDecompressChunk t chunk srcLen dst dstLen = some (r, t) ∧ r.rc = .ok () ∧
      r.wroteLen = some (src.length : Int) ∧ src <+: r.dst ∧ r.dst.length = dst.length

/-- **A block is decompressed** by a state that checks, and by one that knows its length. -/
theorem decodes_block {t : State} {b : Block} (hb : b.Standard) (hpos : b.expand ≠ [])
    (ht : t.mode = .safe ∨ t.chunkSrcLen = b.expand.length) {chunk : List UInt8}
    (hchunk : b.bytes <+: chunk) : Decodes t chunk b.bytes.length b.expand := by
  intro dst dstLen hroom hdst
  obtain ⟨rest, rfl⟩ := hchunk
  have hlen : 0 < b.expand.length := List.length_pos_iff.mpr hpos
  rw [inaCompressionDecompressChunk, if_neg (by omega)]
  cases hmode : t.mode with
  | safe =>
    obtain ⟨dst', hdec, hout, hlen'⟩ := decompress_safe_standard hb rest hdst hroom
    simp only [inaCompressionDecompressLz4Safe, hdec, Option.bind_eq_bind, Option.bind_some]
    rw [if_neg (by omega)]
    exact ⟨_, rfl, rfl, rfl, hout, hlen'⟩
  | trustedFast =>
    have hknown : t.chunkSrcLen = b.expand.length := ht.resolve_left (by rw [hmode]; decide)
    obtain ⟨dst', hdec, hout, hlen'⟩ := decompress_fast_standard hb rest
      (show b.expand.length ≤ dst.length by omega)
    simp only [inaCompressionDecompressLz4Fast, hknown, if_pos hlen, hdec, Option.bind_eq_bind,
      Option.bind_some]
    rw [if_neg (by omega)]
    exact ⟨_, rfl, rfl, rfl, hout, hlen'⟩

/-- **A chunk that is compressed** is decompressed again: by any state that checks, whatever it has
    done before, and by one that trusts its input if the chunk was the last one it compressed or asked
    room for. Compressing it does not fail where there is the room that was asked for. -/
theorem chunk_round_trip (s : State) {src dst : List UInt8} {dstLen : Nat} (hsrc : src ≠ [])
    (hmax : src.length ≤ lz4MaxInputSize) (hpos : 0 < dstLen)
    (hdst : touched src.length dstLen ≤ dst.length) :
    ∃ r s', inaCompressionCompressChunk s src src.length dst dstLen = some (r, s') ∧
      s' = { s with chunkSrcLen := src.length } ∧ r.dst.length = dst.length ∧
      ((r.rc = .error .compressionFailed ∧
          dstLen < (inaCompressionGetDestinationLen s src.length).1) ∨
        (r.rc = .ok () ∧ ∃ n : Nat, r.wroteLen = some (n : Int) ∧ n ≤ dstLen ∧
          ∀ t : State, t.mode = .safe ∨ t.chunkSrcLen = src.length → Decodes t r.dst n src)) := by
  have hlit : lz4MaxInputSize = 2113929216 := rfl
  have hone : (1 : Int) * 2 ^ 6 + src.length ≤ 2 ^ 32 := by omega
  have htake : src.take src.length = src := List.take_length
  have hdecodes : ∀ {r : Nat} {dst' : List UInt8} {b : Block}, IsBlock src dstLen r dst' b →
      r ≠ 0 ∧ r ≤ dstLen ∧
        ∀ t : State, t.mode = .safe ∨ t.chunkSrcLen = src.length → Decodes t dst' r src := by
    intro r dst' b hb
    obtain ⟨hstandard, rfl, hbytes, rfl, hle⟩ := hb
    exact ⟨Block.bytes_ne_zero b, hle, fun t ht => decodes_block hstandard hsrc ht hbytes⟩
  rw [touched] at hdst
  rw [inaCompressionCompressChunk, if_neg (Nat.ne_of_gt hpos)]
  simp only [inaCompressionCompressLz4, htake, Option.bind_eq_bind]
  by_cases hfree : lz4CompressBound src.length ≤ dstLen
  · rw [if_pos hfree] at hdst
    obtain ⟨r, dst', b, hr, hlen, hb⟩ := compress_free hmax hfree hdst hone
    obtain ⟨hr0, hle, hdec⟩ := hdecodes hb
    simp only [hr, Option.bind_some, if_neg hr0]
    exact ⟨_, _, rfl, rfl, hlen, Or.inr ⟨rfl, r, rfl, hle, hdec⟩⟩
  · rw [if_neg hfree] at hdst
    obtain ⟨r, dst', hr, hlen, hout⟩ := compress_limited hmax (Nat.not_le.mp hfree) hdst hone
    simp only [hr, Option.bind_some]
    rcases hout with rfl | ⟨b, hb⟩
    · rw [if_pos rfl]
      exact ⟨_, _, rfl, rfl, hlen, Or.inl ⟨rfl, Nat.not_le.mp hfree⟩⟩
    · obtain ⟨hr0, hle, hdec⟩ := hdecodes hb
      simp only [if_neg hr0, Option.bind_some]
      exact ⟨_, _, rfl, rfl, hlen, Or.inr ⟨rfl, r, rfl, hle, hdec⟩⟩

theorem chunk_round_trip_sixteen :
    ∃ r s', inaCompressionCompressChunk (inaCompressionNew .trustedFast) (List.replicate 16 97)
        (List.replicate 16 (97 : UInt8)).length (List.replicate 40 7) 40 = some (r, s') ∧
      s' = { inaCompressionNew .trustedFast with
        chunkSrcLen := (List.replicate 16 (97 : UInt8)).length } ∧
      r.dst.length = (List.replicate 40 (7 : UInt8)).length ∧
      ((r.rc = .error .compressionFailed ∧
          40 < (inaCompressionGetDestinationLen (inaCompressionNew .trustedFast)
            (List.replicate 16 (97 : UInt8)).length).1) ∨
        (r.rc = .ok () ∧ ∃ n : Nat, r.wroteLen = some (n : Int) ∧ n ≤ 40 ∧
          ∀ t : State, t.mode = .safe ∨ t.chunkSrcLen = (List.replicate 16 (97 : UInt8)).length →
            Decodes t r.dst n (List.replicate 16 97))) :=
  chunk_round_trip (inaCompressionNew .trustedFast) (by decide) (by decide) (by decide) (by decide)

end Lz4
end Compression
end Inac
