import Inac.Lib.Run
import Inac.Log.Buffer

/-!
# Room in the log buffer (`src/log.c`)

`__ina_write_to_buffer` copies a message behind what is buffered. Its flush test compares the two
lengths with each other and never with `buffer_size`: a message at least as long as what has
collected flushes, a shorter one is appended whatever room there is. So the buffer holds as long as
the messages since the last long one fit together (`Fits`), and the list of `Inac.Log.Buffer`,
which has no bound, says where the copy goes.
-/

namespace Inac
namespace Log

open Lib

/-- `target->buffer_pos - target->buffer` before the call. -/
def used (t : Target) : Nat := (t.buffer.getD []).length

/-- The flush test. -/
def Flushes (t : Target) (msg : Msg) : Prop := (used t : Int) < intStrlen msg + 1

instance (t : Target) (msg : Msg) : Decidable (Flushes t msg) :=
  inferInstanceAs (Decidable ((used t : Int) < intStrlen msg + 1))

/-- Where in the buffer `ina_mem_cpy` puts the first byte. -/
def copyAt (t : Target) (msg : Msg) : Nat := if Flushes t msg then 0 else used t

theorem flushes_iff (t : Target) (msg : Msg) : Flushes t msg ↔ used t ≤ msg.text.length := by
  unfold Flushes
  rw [intStrlen_eq]
  omega

/-- One message: it flushes when it does not fit behind what is buffered, and every byte of it is
    copied to a place inside the buffer. -/
def KeepsRoom (t : Target) (msg : Msg) : Prop :=
  (t.bufferSize < used t + msg.text.length → Flushes t msg) ∧
    ∀ i, copyAt t msg ≤ i → i < copyAt t msg + msg.text.length → i < t.bufferSize

/-- A message no longer than the buffer keeps room unless it is shorter than what is buffered and
    does not fit behind it. -/
theorem keepsRoom_iff {t : Target} {msg : Msg} (hfits : msg.text.length ≤ t.bufferSize) :
    KeepsRoom t msg ↔
      (msg.text.length < used t → used t + msg.text.length ≤ t.bufferSize) := by
  unfold KeepsRoom
  rw [flushes_iff, copyAt]
  constructor
  · intro ⟨hflush, _⟩ hshort
    by_contra hover
    exact absurd (hflush (Nat.lt_of_not_le hover)) (Nat.not_le.mpr hshort)
  · intro hroom
    refine ⟨fun hover => ?_, fun i hi hlt => ?_⟩
    · by_contra hshort
      exact absurd hover (Nat.not_lt.mpr (hroom (Nat.lt_of_not_le hshort)))
    · by_cases hflush : Flushes t msg
      · rw [if_pos hflush] at hlt
        omega
      · have hshort := hroom (Nat.lt_of_not_le fun hle => hflush ((flushes_iff t msg).mpr hle))
        rw [if_neg hflush] at hlt
        omega

/-! ## Runs

The condition is on the lengths of the messages alone. -/

/-- `n` bytes have collected. The messages since the last one that was at least as long as all that
    had collected before it are together no longer than `b`, at any time. -/
def Fits (b n : Nat) : List Msg → Prop
  | [] => True
  | m :: ms =>
    if n ≤ m.text.length then Fits b m.text.length ms
    else n + m.text.length ≤ b ∧ Fits b (n + m.text.length) ms

instance decidableFits (b : Nat) : ∀ (n : Nat) (ms : List Msg), Decidable (Fits b n ms)
  | _, [] => inferInstanceAs (Decidable True)
  | n, m :: ms =>
    have := decidableFits b m.text.length ms
    have := decidableFits b (n + m.text.length) ms
    inferInstanceAs (Decidable (if n ≤ m.text.length then _ else _ ∧ _))

/-- One message through `target->write_fn`. -/
def step (t : Target) (msg : Msg) : Unit × Target := ((), write t msg)

theorem along_keepsRoom {size : Nat} {mode : Mode} (hsize : 0 < size) {msgs : List Msg}
    (hmsgs : ∀ m ∈ msgs, m.text.length ≤ size) :
    ∀ (buffer : Option Bytes) (file : Bytes),
      Along step KeepsRoom (held size mode buffer file) msgs ↔
        Fits size (buffer.getD []).length msgs := by
  induction msgs with
  | nil =>
    intro buffer file
    exact Iff.rfl
  | cons m ms ih =>
    intro buffer file
    have hm : m.text.length ≤ size := hmsgs m List.mem_cons_self
    have hrest := ih fun m' h => hmsgs m' (List.mem_cons_of_mem m h)
    have hone : KeepsRoom (held size mode buffer file) m ↔
        (m.text.length < (buffer.getD []).length →
          (buffer.getD []).length + m.text.length ≤ size) := keepsRoom_iff hm
    rw [Along, Fits, hone, step]
    -- The message flushes and begins the buffer anew, or it goes behind what is there.
    by_cases hlong : (buffer.getD []).length ≤ m.text.length
    · rw [if_pos hlong, write_flushes hsize hlong, hrest]
      exact ⟨fun h => h.2, fun h => ⟨fun hshort => absurd hlong (Nat.not_le.mpr hshort), h⟩⟩
    · have hshort := Nat.lt_of_not_le hlong
      rw [if_neg hlong, write_keeps hsize hshort, hrest, Option.getD_some, List.length_append]
      exact ⟨fun h => ⟨h.1 hshort, h.2⟩, fun h => ⟨fun _ => h.1, h.2⟩⟩

/-- **When the buffer is room enough**: while the messages that collect without a flush are together
    no longer than the buffer. -/
theorem buffer_room_iff (globalSize : Nat) (bufferSize : Option Nat) (truncate : Option String)
    (file : Bytes) (msgs : List Msg)
    (hsize : 0 < (ruleTarget globalSize bufferSize truncate file).bufferSize)
    (hmsgs : ∀ m ∈ msgs,
      m.text.length ≤ (ruleTarget globalSize bufferSize truncate file).bufferSize) :
    Along step KeepsRoom (ruleTarget globalSize bufferSize truncate file) msgs ↔
      Fits (ruleTarget globalSize bufferSize truncate file).bufferSize 0 msgs := by
  rw [ruleTarget_eq_held] at hsize hmsgs ⊢
  exact along_keepsRoom hsize hmsgs none file

/-- Ten bytes of room: four, two and four fill it, and a line of ten flushes. -/
theorem buffer_room_iff_ten :
    Along step KeepsRoom (ruleTarget 0 (some 10) none [])
      [logLine [1, 1, 1, 1], logLine [2, 2], logLine [3, 3, 3, 3],
        logLine (List.replicate 10 4)] := by
  have hmsgs : ∀ m ∈ [logLine [1, 1, 1, 1], logLine [2, 2], logLine [3, 3, 3, 3],
      logLine (List.replicate 10 4)],
      m.text.length ≤ (ruleTarget 0 (some 10) none []).bufferSize := by
    decide
  exact (buffer_room_iff 0 (some 10) none [] _ (by decide) hmsgs).mpr (by decide)

/-- Ten bytes of room, a line of ten and a line of one: the one goes behind the end. -/
theorem buffer_room_overrun : ¬ ∀ (globalSize : Nat) (bufferSize : Option Nat)
    (truncate : Option String) (file : Bytes) (msgs : List Msg),
    0 < (ruleTarget globalSize bufferSize truncate file).bufferSize →
    (∀ m ∈ msgs, m.text.length ≤ (ruleTarget globalSize bufferSize truncate file).bufferSize) →
    Along step KeepsRoom (ruleTarget globalSize bufferSize truncate file) msgs := by
  intro h
  have hrun := h 0 (some 10) none [] [logLine (List.replicate 10 1), logLine [2]]
    (by decide) (by decide)
  have hsecond := hrun.2.1.2 10 (by decide) (by decide)
  exact absurd hsecond (by decide)

end Log
end Inac
