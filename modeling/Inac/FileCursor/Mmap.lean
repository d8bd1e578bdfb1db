import Mathlib.Algebra.Ring.Nat
import Mathlib.Algebra.Ring.Int.Defs
import Mathlib.Data.List.Basic
import Inac.Err
import Inac.Lib.Run

/-!
# The mapped file cursor (`src/file_cursor.c`, `src/mmap.c`)

An mmap cursor holds one mapping of at most `buffer_size` bytes and a pointer into it. A call that
moves the position to another multiple of `buffer_size` replaces the mapping by one that starts
`carry` bytes below that multiple, where `carry` is what was left of the old window behind the old
position. A call that stays at the same multiple keeps the mapping.

Both decisions look at the multiple alone. The mapping ends `carry` bytes before the next multiple,
so a position that stays can lie behind the end of the mapping, and one that crosses lies in the
new mapping only if it is no further behind its multiple than the old one was.

Positions, lengths and offsets are `uint64_t` and wrap. A pointer into the mapping is its distance
from the head. The mappings that `ina_mmap_new` is asked for are accepted unless they start behind
the end of the file, where it says so itself and leaves no mapping; the cursor does not look at the
answer, and its pointer is then undefined.
-/

namespace Inac
namespace FileCursor

open Lib

/-! ## Files and mappings

A file does not change while it is mapped. -/

/-- A file; its size is an `off_t`. -/
structure File where
  bytes : List UInt8
  fits : bytes.length < 2 ^ 63

/-- `ina_mmap_mapping_t`. -/
structure Mapping where
  offset : UInt64
  length : UInt64
  deriving DecidableEq, Repr

/-- The bytes between the head and the tail of a mapping. -/
def Mapping.memory (m : Mapping) (file : File) : List UInt8 :=
  (file.bytes.drop m.offset.toNat).take m.length.toNat

/-- `ina_mmap_new`. -/
def mmapNew (file : File) (offset length : UInt64) : Option Mapping :=
  if file.bytes.length < offset.toNat then none else some ⟨offset, length⟩

/-! ## The cursor

Its fields with the types they have in the source, and the two functions that move it. -/

/-- The `ext.m` of `struct ina_file_cursor_s`. -/
structure Cursor where
  file : File
  position : UInt64
  memPos : Option UInt64
  fm : Option Mapping
  len : UInt64
  carry : UInt64
  bufferSize : UInt64
  bufferIdx : Int

/-- `ina_file_cursor_init_internal`. -/
def init (file : File) (bufferSize : UInt64) : Cursor :=
  let flen := UInt64.ofNat file.bytes.length
  let mapLen := if flen ≤ bufferSize then flen else bufferSize
  let fm := mmapNew file 0 mapLen
  { file := file, position := 0, memPos := fm.map fun _ => 0, fm := fm, len := flen, carry := 0,
    bufferSize := bufferSize, bufferIdx := 0 }

/-- `(int)floor((double)(position/buffer_size))`. The conversion is undefined from 2^31 on; on
    x86-64 it gives `INT_MIN`. -/
def indexOf (position bufferSize : UInt64) : Int :=
  let quotient := (position / bufferSize).toNat
  if quotient < 2 ^ 31 then quotient else -2 ^ 31

/-- The branch of `ina_file_cursor_mmap_set_pos` for another window, with the new offset. -/
def remap (c : Cursor) (bufferIdx : Int) (tmp : UInt64) : UInt64 × Cursor :=
  let len := if c.bufferSize < c.len then c.bufferSize else c.len
  let tmp2 := UInt64.ofInt c.bufferIdx * c.bufferSize
  let carry := tmp2 + len - c.position
  let offset := tmp - carry
  let len := if c.len < offset + len then c.len - offset else len
  (offset, { c with carry := carry, fm := mmapNew c.file offset len, bufferIdx := bufferIdx })

/-- `ina_file_cursor_mmap_set_pos`. -/
def setPos (c : Cursor) (position : UInt64) : Except Err Unit × Cursor :=
  let bufferIdx := indexOf position c.bufferSize
  let tmp := UInt64.ofInt bufferIdx * c.bufferSize
  if c.len < position then (.error .positionOutOfRange, c)
  else
    let (offset, c) := if c.bufferIdx ≠ bufferIdx then remap c bufferIdx tmp
      else (tmp - c.carry, c)
    (.ok (), { c with position := position, memPos := c.fm.map fun _ => position - offset })

/-- A call and what it gives back. `chunk` is the pointer and the length that were returned. -/
inductive Call where
  | setPos (position : UInt64)
  | readChunk (requested : UInt64)
  deriving DecidableEq, Repr

inductive Out where
  | rc (rc : Except Err Unit)
  | chunk (start : Option UInt64) (read : UInt64)
  | noChunk  -- `NULL`, with 0 bytes read

/-- `ina_file_cursor_mmap_binary_read_chunk`. It returns `INA_SUCCESS` in both branches. -/
def binaryReadChunk (c : Cursor) (requested : UInt64) : Out × Cursor :=
  match setPos c (c.position + requested) with
  | (.ok (), c) => (.chunk (c.memPos.map fun p => p - requested) requested, c)
  | (.error _, c) => (.noChunk, c)

def step (c : Cursor) : Call → Out × Cursor
  | .setPos position => ((.rc (setPos c position).1), (setPos c position).2)
  | .readChunk requested => binaryReadChunk c requested

/-! ## What a call should leave

The position and the pointer denote the same byte, and a chunk is the bytes of the file that were
asked for. -/

/-- The pointer lies in the mapping, the mapping in the file, and the pointer denotes the byte
    at the position. -/
def AtPosition (c : Cursor) : Prop :=
  match c.fm, c.memPos with
  | some m, some p =>
    p ≤ m.length ∧ m.offset.toNat + m.length.toNat ≤ c.file.bytes.length ∧
      m.offset.toNat + p.toNat = c.position.toNat ∧
      (p < m.length → (m.memory c.file)[p.toNat]? = c.file.bytes[c.position.toNat]?)
  | _, _ => False

/-- The chunk is the `requested` bytes from `position` on, all in the mapping of `c`. -/
def ChunkFrom (c : Cursor) (position requested : UInt64) (start : Option UInt64)
    (read : UInt64) : Prop :=
  match c.fm, start with
  | some m, some p =>
    read = requested ∧ p.toNat + read.toNat ≤ (m.memory c.file).length ∧
      ((m.memory c.file).drop p.toNat).take read.toNat
        = (c.file.bytes.drop position.toNat).take requested.toNat
  | _, _ => False

/-- A call that succeeds leaves the pointer at the position and returns the bytes asked for. -/
def ServedBy (c : Cursor) (call : Call) (out : Out) (c' : Cursor) : Prop :=
  match call, out with
  | .setPos _, .rc (.ok _) => AtPosition c'
  | .readChunk requested, .chunk start read =>
    AtPosition c' ∧ ChunkFrom c' c.position requested start read
  | .readChunk _, .noChunk => AtPosition c'
  | _, _ => True

def Served (c : Cursor) (call : Call) : Prop :=
  ServedBy c call (step c call).1 (step c call).2

/-- What a target position must satisfy: the window number is an `int`; in the same window the
    mapping has to reach that far; in another one, which is not the first, the target is no
    further behind its multiple of the buffer size than the position is behind its own. -/
def Near (c : Cursor) (target : Nat) : Prop :=
  target / c.bufferSize.toNat < 2 ^ 31 ∧
    if target / c.bufferSize.toNat = c.position.toNat / c.bufferSize.toNat then
      target % c.bufferSize.toNat + c.carry.toNat ≤ c.bufferSize.toNat
    else
      1 ≤ target / c.bufferSize.toNat ∧
        target % c.bufferSize.toNat ≤ c.position.toNat % c.bufferSize.toNat

/-- The calls that the window can follow. A chunk that crosses is no longer than the buffer, and
    the sum of the position and the request does not wrap back into the file. -/
def Fits (c : Cursor) : Call → Prop
  | .setPos position => position.toNat ≤ c.len.toNat → Near c position.toNat
  | .readChunk requested =>
    if c.position.toNat + requested.toNat < 2 ^ 64 then
      c.position.toNat + requested.toNat ≤ c.len.toNat →
        Near c (c.position.toNat + requested.toNat) ∧
          requested.toNat ≤ c.bufferSize.toNat
    else c.len.toNat < c.position.toNat + requested.toNat - 2 ^ 64

instance (c : Cursor) : Decidable (AtPosition c) := by
  unfold AtPosition; split <;> infer_instance

instance (c : Cursor) (position requested : UInt64) (start : Option UInt64) (read : UInt64) :
    Decidable (ChunkFrom c position requested start read) := by
  unfold ChunkFrom; split <;> infer_instance

instance (c : Cursor) (call : Call) : Decidable (Served c call) := by
  unfold Served ServedBy; split <;> infer_instance

instance (c : Cursor) (target : Nat) : Decidable (Near c target) := by
  unfold Near; infer_instance

instance (c : Cursor) (call : Call) : Decidable (Fits c call) := by
  cases call <;> unfold Fits <;> infer_instance

/-! ## Windows

`Window` is the invariant: how the mapping lies to the position, in numbers that do not wrap. -/

/-- What holds between the calls: the mapping starts `carry` bytes below the multiple of the
    buffer size that the position is in, and reaches one buffer size far or to the end of the
    file; the position is in it. -/
structure Window (c : Cursor) : Prop where
  size : 0 < c.bufferSize.toNat
  len : c.len.toNat = c.file.bytes.length
  inFile : c.position.toNat ≤ c.len.toNat
  small : c.position.toNat / c.bufferSize.toNat < 2 ^ 31
  index : c.bufferIdx = ((c.position.toNat / c.bufferSize.toNat : Nat) : Int)
  carry : c.carry.toNat ≤ c.bufferSize.toNat * (c.position.toNat / c.bufferSize.toNat)
  reach : c.position.toNat % c.bufferSize.toNat + c.carry.toNat ≤ c.bufferSize.toNat
  mapping : ∃ m, c.fm = some m ∧
    m.offset.toNat + c.carry.toNat
      = c.bufferSize.toNat * (c.position.toNat / c.bufferSize.toNat) ∧
    m.length.toNat = min c.bufferSize.toNat (c.len.toNat - m.offset.toNat)
  memPos : ∃ p, c.memPos = some p ∧
    p.toNat = c.position.toNat % c.bufferSize.toNat + c.carry.toNat

theorem indexOf_eq {position bufferSize : UInt64}
    (hsmall : position.toNat / bufferSize.toNat < 2 ^ 31) :
    indexOf position bufferSize = ((position.toNat / bufferSize.toNat : Nat) : Int) := by
  simp only [indexOf, UInt64.toNat_div, if_pos hsmall]

/-- The start of the window of a position does not wrap. -/
theorem toNat_start (position bufferSize : UInt64)
    (hsmall : position.toNat / bufferSize.toNat < 2 ^ 31) :
    (UInt64.ofInt ((position.toNat / bufferSize.toNat : Nat) : Int) * bufferSize).toNat
      = bufferSize.toNat * (position.toNat / bufferSize.toNat) := by
  have hpos := position.toNat_lt
  have hdiv := Nat.div_add_mod position.toNat bufferSize.toNat
  have hq : (UInt64.ofInt ((position.toNat / bufferSize.toNat : Nat) : Int)).toNat
      = position.toNat / bufferSize.toNat := by
    generalize position.toNat / bufferSize.toNat = q at hsmall
    rw [UInt64.ofInt, UInt64.toNat_ofNat']
    omega
  rw [UInt64.toNat_mul, hq, Nat.mul_comm, Nat.mod_eq_of_lt (by omega)]

theorem toNat_sub_of_toNat_le {a b : UInt64} (h : b.toNat ≤ a.toNat) :
    (a - b).toNat = a.toNat - b.toNat :=
  UInt64.toNat_sub_of_le _ _ (UInt64.le_iff_toNat_le.mpr h)

theorem mmapNew_zero (file : File) (length : UInt64) :
    mmapNew file 0 length = some ⟨0, length⟩ := by
  simp [mmapNew]

theorem Window.init {file : File} {bufferSize : UInt64} (hsize : 0 < bufferSize.toNat) :
    Window (init file bufferSize) := by
  have hfits := file.fits
  have hlen : (UInt64.ofNat file.bytes.length).toNat = file.bytes.length := by
    rw [UInt64.toNat_ofNat']; omega
  have hzero : 0 / bufferSize.toNat = 0 := Nat.zero_div _
  have hmod : 0 % bufferSize.toNat = 0 := Nat.zero_mod _
  simp only [FileCursor.init, mmapNew_zero]
  refine ⟨hsize, hlen, ?_, ?_, ?_, ?_, ?_, ⟨_, rfl, ?_, ?_⟩, 0, rfl, ?_⟩
  all_goals simp only [UInt64.toNat_zero, hzero, hmod, Nat.mul_zero, Nat.add_zero, Nat.sub_zero]
  · exact Nat.zero_le _
  · decide
  · rfl
  · exact Nat.le_refl _
  · exact Nat.zero_le _
  · by_cases hle : UInt64.ofNat file.bytes.length ≤ bufferSize
    · rw [if_pos hle, hlen]
      rw [UInt64.le_iff_toNat_le, hlen] at hle
      omega
    · rw [if_neg hle, hlen]
      rw [UInt64.le_iff_toNat_le, hlen] at hle
      omega

/-- In a window the pointer is where it should be. -/
theorem Window.atPosition {c : Cursor} (h : Window c) : AtPosition c := by
  obtain ⟨m, hm, hoffset, hlength⟩ := h.mapping
  obtain ⟨p, hp, hptr⟩ := h.memPos
  have hdiv := Nat.div_add_mod c.position.toNat c.bufferSize.toNat
  have hinFile := h.inFile
  have hreach := h.reach
  have hlen := h.len
  -- The offset and the distance add up to the position.
  have hbyte : m.offset.toNat + p.toNat = c.position.toNat := by omega
  rw [AtPosition, hm, hp]
  refine ⟨?_, by omega, hbyte, ?_⟩
  · rw [UInt64.le_iff_toNat_le]; omega
  · intro hlt
    rw [UInt64.lt_iff_toNat_lt] at hlt
    rw [Mapping.memory, List.getElem?_take_of_lt hlt, List.getElem?_drop, hbyte]

/-! ## One call

A target beyond the file is refused. Any other one stays in the window or moves it, and by `Near`
the window holds it then. -/

theorem setPos_beyond {c : Cursor} {position : UInt64} (hout : c.len.toNat < position.toNat) :
    setPos c position = (.error .positionOutOfRange, c) := by
  rw [setPos]
  exact if_pos (UInt64.lt_iff_toNat_lt.mpr hout)

/-- A target in the window: the mapping and the carry stay. -/
theorem setPos_stays {c : Cursor} {position : UInt64} (h : Window c)
    (hin : position.toNat ≤ c.len.toNat)
    (hsame : position.toNat / c.bufferSize.toNat = c.position.toNat / c.bufferSize.toNat) :
    ∃ p, setPos c position = (.ok (), { c with position := position, memPos := some p }) ∧
      p.toNat = position.toNat % c.bufferSize.toNat + c.carry.toNat := by
  have hsmall : position.toNat / c.bufferSize.toNat < 2 ^ 31 := hsame ▸ h.small
  have hindex : indexOf position c.bufferSize = c.bufferIdx := by
    rw [indexOf_eq hsmall, hsame, h.index]
  have hdiv := Nat.div_add_mod position.toNat c.bufferSize.toNat
  have hstart := toNat_start position c.bufferSize hsmall
  rw [← indexOf_eq hsmall, hindex] at hstart
  have hcarry := h.carry
  rw [← hsame] at hcarry
  obtain ⟨m, hm, -, -⟩ := h.mapping
  have hnot : ¬ c.len < position := by
    rw [UInt64.lt_iff_toNat_lt]; omega
  have hoffset : (UInt64.ofInt c.bufferIdx * c.bufferSize - c.carry).toNat
      = c.bufferSize.toNat * (position.toNat / c.bufferSize.toNat) - c.carry.toNat := by
    rw [toNat_sub_of_toNat_le (by omega), hstart]
  refine ⟨position - (UInt64.ofInt c.bufferIdx * c.bufferSize - c.carry), ?_, ?_⟩
  · simp only [setPos, hindex, if_neg hnot, ne_eq, not_true_eq_false, if_false, hm,
      Option.map_some]
  · rw [toNat_sub_of_toNat_le (by omega), hoffset]
    omega

/-- The carry is what the window has left behind the position. -/
theorem Window.toNat_carry {c : Cursor} (h : Window c) :
    (UInt64.ofInt c.bufferIdx * c.bufferSize + c.bufferSize - c.position).toNat
      = c.bufferSize.toNat - c.position.toNat % c.bufferSize.toNat := by
  have hstart := toNat_start c.position c.bufferSize h.small
  rw [← h.index] at hstart
  have hdiv := Nat.div_add_mod c.position.toNat c.bufferSize.toNat
  have hmod := Nat.mod_lt c.position.toNat h.size
  have hlt := c.position.toNat_lt
  have hsize := c.bufferSize.toNat_lt
  rw [UInt64.toNat_sub, UInt64.toNat_add, hstart]
  omega

/-- The end of the file clips the mapping. -/
theorem toNat_clipped {len offset bufferSize : UInt64} (hle : offset.toNat ≤ len.toNat)
    (hwrap : offset.toNat + bufferSize.toNat < 2 ^ 64) :
    (if len < offset + bufferSize then len - offset else bufferSize).toNat
      = min bufferSize.toNat (len.toNat - offset.toNat) := by
  have hend : (offset + bufferSize).toNat = offset.toNat + bufferSize.toNat := by
    rw [UInt64.toNat_add, Nat.mod_eq_of_lt hwrap]
  by_cases hpast : len < offset + bufferSize
  · rw [if_pos hpast, toNat_sub_of_toNat_le hle]
    rw [UInt64.lt_iff_toNat_lt, hend] at hpast
    omega
  · rw [if_neg hpast]
    rw [UInt64.lt_iff_toNat_lt, hend] at hpast
    omega

/-- The mapping of another window starts the new carry below the target's multiple. -/
theorem remap_eq {c : Cursor} {position : UInt64} (h : Window c)
    (hin : position.toNat ≤ c.len.toNat)
    (hsmall : position.toNat / c.bufferSize.toNat < 2 ^ 31)
    (hfirst : 1 ≤ position.toNat / c.bufferSize.toNat) :
    ∃ carry offset length,
      remap c (indexOf position c.bufferSize)
          (UInt64.ofInt (indexOf position c.bufferSize) * c.bufferSize)
        = (offset, { c with
            carry := carry, fm := some ⟨offset, length⟩,
            bufferIdx := indexOf position c.bufferSize }) ∧
      carry.toNat = c.bufferSize.toNat - c.position.toNat % c.bufferSize.toNat ∧
      offset.toNat + carry.toNat
        = c.bufferSize.toNat * (position.toNat / c.bufferSize.toNat) ∧
      length.toNat = min c.bufferSize.toNat (c.len.toNat - offset.toNat) := by
  have hdiv := Nat.div_add_mod position.toNat c.bufferSize.toNat
  have hstart := toNat_start position c.bufferSize hsmall
  rw [← indexOf_eq hsmall] at hstart
  have hfits := c.file.fits
  have hlen := h.len
  -- a target that is not in the first window is at least one buffer size into the file
  have hbig : c.bufferSize.toNat ≤ c.bufferSize.toNat * (position.toNat / c.bufferSize.toNat) :=
    Nat.le_mul_of_pos_right _ hfirst
  have hmin : (if c.bufferSize < c.len then c.bufferSize else c.len) = c.bufferSize := by
    by_cases hlt : c.bufferSize < c.len
    · rw [if_pos hlt]
    · rw [if_neg hlt]
      rw [UInt64.lt_iff_toNat_lt] at hlt
      exact UInt64.toNat_inj.mp (by omega)
  have hcarry := h.toNat_carry
  generalize hc : UInt64.ofInt c.bufferIdx * c.bufferSize + c.bufferSize - c.position = carry
    at hcarry
  have hoffset : (UInt64.ofInt (indexOf position c.bufferSize) * c.bufferSize - carry).toNat
      = c.bufferSize.toNat * (position.toNat / c.bufferSize.toNat) - carry.toNat := by
    rw [toNat_sub_of_toNat_le (by omega), hstart]
  generalize ho : UInt64.ofInt (indexOf position c.bufferSize) * c.bufferSize - carry = offset
    at hoffset
  have hmap : ¬ c.file.bytes.length < offset.toNat := by omega
  refine ⟨carry, offset, if c.len < offset + c.bufferSize then c.len - offset else c.bufferSize,
    ?_, hcarry, by omega, toNat_clipped (by omega) (by omega)⟩
  simp only [remap, hmin, hc, ho, mmapNew, if_neg hmap]

/-- A target in another window: the mapping and the carry are new. -/
theorem setPos_moves {c : Cursor} {position : UInt64} (h : Window c)
    (hin : position.toNat ≤ c.len.toNat)
    (hsmall : position.toNat / c.bufferSize.toNat < 2 ^ 31)
    (hother : position.toNat / c.bufferSize.toNat ≠ c.position.toNat / c.bufferSize.toNat)
    (hfirst : 1 ≤ position.toNat / c.bufferSize.toNat) :
    ∃ p carry offset length,
      setPos c position
        = (.ok (), { c with
            position := position, memPos := some p, fm := some ⟨offset, length⟩, carry := carry,
            bufferIdx := indexOf position c.bufferSize }) ∧
      carry.toNat = c.bufferSize.toNat - c.position.toNat % c.bufferSize.toNat ∧
      offset.toNat + carry.toNat
        = c.bufferSize.toNat * (position.toNat / c.bufferSize.toNat) ∧
      length.toNat = min c.bufferSize.toNat (c.len.toNat - offset.toNat) ∧
      p.toNat = position.toNat % c.bufferSize.toNat + carry.toNat := by
  obtain ⟨carry, offset, length, hremap, hcarry, hoffset, hlength⟩ :=
    remap_eq h hin hsmall hfirst
  have hdiv := Nat.div_add_mod position.toNat c.bufferSize.toNat
  have hnot : ¬ c.len < position := by
    rw [UInt64.lt_iff_toNat_lt]; omega
  have hindex : c.bufferIdx ≠ indexOf position c.bufferSize := by
    rw [indexOf_eq hsmall, h.index]
    exact fun he => hother (Int.ofNat.inj he).symm
  refine ⟨position - offset, carry, offset, length, ?_, hcarry, hoffset, hlength, ?_⟩
  · simp only [setPos, if_neg hnot, hindex, ne_eq, not_false_eq_true, if_true, hremap,
      Option.map_some]
  · rw [toNat_sub_of_toNat_le (by omega)]
    omega

/-- What a move to a near target leaves. The mapping does not start behind the old position if
    the move is forward by at most the buffer size. -/
theorem setPos_near {c : Cursor} {position : UInt64} (h : Window c)
    (hin : position.toNat ≤ c.len.toNat) (hnear : Near c position.toNat) :
    (setPos c position).1 = .ok () ∧ (setPos c position).2.position = position ∧
      (setPos c position).2.file = c.file ∧ Window (setPos c position).2 ∧
      (c.position.toNat ≤ position.toNat →
        position.toNat ≤ c.position.toNat + c.bufferSize.toNat →
        ∃ m, (setPos c position).2.fm = some m ∧ m.offset.toNat ≤ c.position.toNat) := by
  obtain ⟨hsmall, hcase⟩ := hnear
  -- The same multiple of the buffer size, or another one.
  by_cases hsame : position.toNat / c.bufferSize.toNat = c.position.toNat / c.bufferSize.toNat
  · rw [if_pos hsame] at hcase
    obtain ⟨p, hset, hp⟩ := setPos_stays h hin hsame
    obtain ⟨m, hm, hoffset, hlength⟩ := h.mapping
    rw [hset]
    refine ⟨rfl, rfl, rfl, ?_, ?_⟩
    · exact ⟨h.size, h.len, hin, hsmall, hsame ▸ h.index, hsame ▸ h.carry, hcase,
        ⟨m, hm, hsame ▸ hoffset, hlength⟩, p, rfl, hp⟩
    · intro _ _
      have hdiv := Nat.div_add_mod c.position.toNat c.bufferSize.toNat
      exact ⟨m, hm, by omega⟩
  · rw [if_neg hsame] at hcase
    obtain ⟨p, carry, offset, length, hset, hcarry, hoffset, hlength, hp⟩ :=
      setPos_moves h hin hsmall hsame hcase.1
    rw [hset]
    refine ⟨rfl, rfl, rfl, ?_, ?_⟩
    · have hbelow : carry.toNat
          ≤ c.bufferSize.toNat * (position.toNat / c.bufferSize.toNat) := by omega
      have hmod := Nat.mod_lt c.position.toNat h.size
      have hreach : position.toNat % c.bufferSize.toNat + carry.toNat ≤ c.bufferSize.toNat := by
        omega
      exact ⟨h.size, h.len, hin, hsmall, indexOf_eq hsmall, hbelow, hreach,
        ⟨⟨offset, length⟩, rfl, hoffset, hlength⟩, p, rfl, hp⟩
    · intro _ hshort
      -- at most one window further: the new mapping starts at the old position or before
      have hnext : position.toNat / c.bufferSize.toNat
          ≤ c.position.toNat / c.bufferSize.toNat + 1 := by
        rw [← Nat.add_div_right _ h.size]
        exact Nat.div_le_div_right hshort
      have hmul := Nat.mul_le_mul_left c.bufferSize.toNat hnext
      rw [Nat.mul_add, Nat.mul_one] at hmul
      have hdiv := Nat.div_add_mod c.position.toNat c.bufferSize.toNat
      have hle : offset.toNat ≤ c.position.toNat := by omega
      exact ⟨⟨offset, length⟩, rfl, hle⟩

/-- A chunk that starts in the mapping and ends at the pointer. -/
theorem Window.chunkFrom {c : Cursor} {start requested : UInt64} {m : Mapping} (h : Window c)
    (hm : c.fm = some m) (hstart : m.offset.toNat ≤ start.toNat)
    (hend : start.toNat + requested.toNat = c.position.toNat) :
    ChunkFrom c start requested (c.memPos.map fun p => p - requested) requested := by
  obtain ⟨p, hp, -⟩ := h.memPos
  have hat := h.atPosition
  rw [AtPosition, hm, hp] at hat
  obtain ⟨hle, hinside, hbyte, -⟩ := hat
  rw [UInt64.le_iff_toNat_le] at hle
  have hsub : (p - requested).toNat = p.toNat - requested.toNat :=
    toNat_sub_of_toNat_le (by omega)
  have hsize : (m.memory c.file).length = m.length.toNat := by
    rw [Mapping.memory, List.length_take, List.length_drop]; omega
  simp only [ChunkFrom, hm, hp, Option.map_some]
  refine ⟨trivial, by rw [hsub, hsize]; omega, ?_⟩
  rw [Mapping.memory, List.drop_take, List.take_take, List.drop_drop, hsub]
  have hfrom : m.offset.toNat + (p.toNat - requested.toNat) = start.toNat := by omega
  have hwide : min requested.toNat (m.length.toNat - (p.toNat - requested.toNat))
      = requested.toNat := by omega
  rw [hfrom, hwide]

theorem Window.readChunk {c : Cursor} {requested : UInt64} (h : Window c)
    (hfits : Fits c (.readChunk requested)) :
    Served c (.readChunk requested) ∧ Window (FileCursor.step c (.readChunk requested)).2 := by
  have hsum : (c.position + requested).toNat
      = (c.position.toNat + requested.toNat) % 2 ^ 64 := UInt64.toNat_add _ _
  have hlt := c.len.toNat_lt
  have hpos := c.position.toNat_lt
  have hreq := requested.toNat_lt
  simp only [Fits] at hfits
  -- The sum does not wrap if it is in the file, since the request fits.
  by_cases hin : (c.position + requested).toNat ≤ c.len.toNat
  · have hwrap : c.position.toNat + requested.toNat < 2 ^ 64 := by
      by_contra hover
      rw [if_neg hover] at hfits
      omega
    rw [if_pos hwrap] at hfits
    rw [Nat.mod_eq_of_lt hwrap] at hsum
    obtain ⟨hnear, hshort⟩ := hfits (by omega)
    rw [← hsum] at hnear
    obtain ⟨hok, hposition, hfile, hwindow, hmapping⟩ := setPos_near h hin hnear
    obtain ⟨m, hm, hoffset⟩ := hmapping (by omega) (by omega)
    generalize hset : setPos c (c.position + requested) = r at *
    obtain ⟨rc, c'⟩ := r
    simp only at hok hposition hfile hwindow hm
    subst hok
    have hstep : FileCursor.step c (.readChunk requested)
        = (.chunk (c'.memPos.map fun p => p - requested) requested, c') := by
      simp only [FileCursor.step, binaryReadChunk, hset]
    rw [Served, hstep]
    refine ⟨⟨hwindow.atPosition, hwindow.chunkFrom hm hoffset ?_⟩, hwindow⟩
    rw [hposition, hsum]
  · have hstep : FileCursor.step c (.readChunk requested) = (.noChunk, c) := by
      simp only [FileCursor.step, binaryReadChunk, setPos_beyond (Nat.lt_of_not_le hin)]
    rw [Served, hstep]
    exact ⟨h.atPosition, h⟩

/-- **One step.** A call that fits is served, and the window holds again. -/
theorem Window.step {c : Cursor} {call : Call} (h : Window c) (hfits : Fits c call) :
    Served c call ∧ Window (step c call).2 := by
  cases call with
  | setPos position =>
    by_cases hin : position.toNat ≤ c.len.toNat
    · obtain ⟨hok, -, -, hwindow, -⟩ := setPos_near h hin (hfits hin)
      refine ⟨?_, hwindow⟩
      simp only [Served, ServedBy, FileCursor.step, hok]
      exact hwindow.atPosition
    · have hset := setPos_beyond (Nat.lt_of_not_le hin)
      refine ⟨?_, ?_⟩
      · simp only [Served, ServedBy, FileCursor.step, hset]
      · simp only [FileCursor.step, hset]; exact h
  | readChunk requested => exact h.readChunk hfits

/-! ## Runs

From the new cursor on, along the calls that fit. -/

/-- **Calls that the window can follow are served**: in every run of them the pointer stays in
    the mapping, at the position, and every chunk is the bytes that were asked for. -/
theorem cursor_run_served (file : File) (bufferSize : UInt64) (calls : List Call)
    (hsize : 0 < bufferSize) (hfits : Along step Fits (init file bufferSize) calls) :
    Along step Served (init file bufferSize) calls := by
  have hstart : Window (init file bufferSize) :=
    Window.init (UInt64.lt_iff_toNat_lt.mp hsize)
  exact along_of_along (fun c call hfit h => h.step hfit) hfits hstart

theorem cursor_run_served_back_and_forth :
    0 < (4 : UInt64) ∧
      Along step Fits (init ⟨[0, 1, 2, 3, 4, 5, 6, 7, 8], by decide⟩ 4)
        [.readChunk 3, .readChunk 3, .setPos 4, .readChunk 9, .setPos 12] ∧
      Along step Served (init ⟨[0, 1, 2, 3, 4, 5, 6, 7, 8], by decide⟩ 4)
        [.readChunk 3, .readChunk 3, .setPos 4, .readChunk 9, .setPos 12] :=
  ⟨by decide, by decide, cursor_run_served _ _ _ (by decide) (by decide)⟩

/-- Four chunks of two bytes through a buffer of three: the last one ends behind the mapping. -/
theorem cursor_run_leaves_mapping :
    ¬ Along step Served (init ⟨[0, 1, 2, 3, 4, 5, 6, 7], by decide⟩ 3)
        [.readChunk 2, .readChunk 2, .readChunk 2, .readChunk 2] := by
  decide +kernel

end FileCursor
end Inac
