import Mathlib.Algebra.Ring.Nat
import Mathlib.Data.List.TakeWhile

/-!
# File targets of the log (`src/log.c`)

A rule of the configuration gives a target: the file, the mode it is opened in and the size of the
buffer in front of it. Without a buffer the file is opened once and every message goes to it. With
a buffer the messages collect in memory, the file is opened and closed again at each flush, and
what is left is written when the target is freed.

The flush test compares what is buffered with the length of the message, not with the space that
is left, so the first message always flushes an empty buffer, and after that a message flushes
when it is at least as long as what is buffered. In mode `"w"` each of these opens empties the
file: what an earlier flush wrote is gone.

`fopen`, `fwrite` and `fclose` behave as documented and do not fail. The buffer is a list of
bytes without a bound.
-/

namespace Inac
namespace Log

abbrev Bytes := List UInt8

/-! ## Targets

A target with its file; what the configuration gives, and what a message does. -/

/-- `open_mode`. -/
inductive Mode where
  | append  -- `"a"`
  | truncate  -- `"w"`
  deriving DecidableEq, Repr

/-- What `__ina_log` hands to the targets: a C string of at most 2046 bytes. -/
structure Msg where
  text : Bytes
  noNul : 0 ∉ text
  short : text.length ≤ 2046
  deriving DecidableEq

/-- `snprintf(buf2, 2047, ..)` of a formatted line. -/
def logLine (line : Bytes) : Msg where
  text := (line.takeWhile (· ≠ 0)).take 2046
  noNul := by
    intro h
    simpa using List.mem_takeWhile_imp (List.mem_of_mem_take h)
  short := List.length_take_le _ _

/-- A file target, and the content of its file. `fp` is the stream while it is open. -/
structure Target where
  bufferSize : Nat
  openMode : Mode
  buffer : Option Bytes
  fp : Option Mode
  file : Bytes
  deriving DecidableEq, Repr

/-- The file branch of `__ina_process_rule_section`: the rule's own `buffer_size` if it has one,
    else the global one, and `truncate` compared with `"true"` without regard to case. -/
def ruleTarget (globalSize : Nat) (bufferSize : Option Nat) (truncate : Option String)
    (file : Bytes) : Target where
  bufferSize := bufferSize.getD globalSize
  openMode :=
    match truncate with
    | some value => if value.toLower = "true" then .truncate else .append
    | none => .append
  buffer := none
  fp := none
  file := file

/-! ## Streams -/

def fopen (t : Target) (mode : Mode) : Target :=
  { t with fp := some mode, file := if mode = .truncate then [] else t.file }

/-- A stream in mode `"a"` writes at the end. One in mode `"w"` does so too: the file was empty
    when it was opened and nothing else writes to it. -/
def fwrite (t : Target) (bytes : Bytes) : Target := { t with file := t.file ++ bytes }

def fclose (t : Target) : Target := { t with fp := none }

/-- `if (target->fp == NULL) target->fp = fopen(..)`. -/
def ensureOpen (t : Target) (mode : Mode) : Target :=
  if t.fp = none then fopen t mode else t

/-! ## Writing -/

/-- The value of `(int)strlen(msg)`. -/
def intStrlen (msg : Msg) : Int := Int.bmod msg.text.length (2 ^ 32)

/-- `__ina_write_to_file`. -/
def writeToFile (t : Target) (msg : Msg) : Target :=
  fwrite (ensureOpen t t.openMode) msg.text

/-- The flush in `__ina_write_to_buffer`. -/
def flush (t : Target) (buffered : Bytes) : Target :=
  { fclose (fwrite (ensureOpen t t.openMode) buffered) with buffer := some [] }

/-- `__ina_write_to_buffer`. -/
def writeToBuffer (t : Target) (msg : Msg) : Target :=
  let buffered := t.buffer.getD []
  let t := if (buffered.length : Int) < intStrlen msg + 1 then flush t buffered else t
  { t with buffer := some (t.buffer.getD [] ++ msg.text) }

/-- `target->write_fn`, as the rule set it. -/
def write (t : Target) (msg : Msg) : Target :=
  if t.bufferSize = 0 then writeToFile t msg else writeToBuffer t msg

/-- `__ina_free_target`. -/
def freeTarget (t : Target) : Target :=
  match t.buffer with
  | none => t
  | some buffered =>
    if buffered = [] then t
    else fclose (fwrite (ensureOpen t .append) buffered)

/-- The content of the file after the messages and the free. -/
def logged (t : Target) (msgs : List Msg) : Bytes := (freeTarget (msgs.foldl write t)).file

/-! ## What the file should hold -/

/-- All messages, one after the other. -/
def texts (msgs : List Msg) : Bytes := (msgs.map (·.text)).flatten

/-- What a target of this mode should leave in a file. -/
def intended (t : Target) (msgs : List Msg) : Bytes :=
  (if t.openMode = .truncate then [] else t.file) ++ texts msgs

/-- How many of the messages are at least as long as the text, not empty, that has collected in
    front of them: `n` bytes at first, and afterwards the messages since the last one that was
    at least as long as what stood before it. -/
def spills (n : Nat) : List Msg → Nat
  | [] => 0
  | m :: ms =>
    if n ≤ m.text.length then (if n = 0 then 0 else 1) + spills m.text.length ms
    else spills (n + m.text.length) ms

/-! ## One message -/

theorem intStrlen_eq (msg : Msg) : intStrlen msg = msg.text.length := by
  have hshort := msg.short
  unfold intStrlen
  rw [Int.bmod_eq_of_le (by omega) (by omega)]

/-- A buffered target between two calls: its stream is closed. -/
def held (size : Nat) (mode : Mode) (buffer : Option Bytes) (file : Bytes) : Target :=
  { bufferSize := size, openMode := mode, buffer := buffer, fp := none, file := file }

variable {size : Nat} {mode : Mode} {buffer : Option Bytes} {file : Bytes} {msg : Msg}
  {msgs : List Msg}

theorem ruleTarget_eq_held (globalSize : Nat) (bufferSize : Option Nat)
    (truncate : Option String) :
    ruleTarget globalSize bufferSize truncate file
      = held (ruleTarget globalSize bufferSize truncate file).bufferSize
          (ruleTarget globalSize bufferSize truncate file).openMode none file := rfl

theorem write_flushes (hsize : 0 < size) (hlong : (buffer.getD []).length ≤ msg.text.length) :
    write (held size mode buffer file) msg
      = held size mode (some msg.text)
          ((if mode = .truncate then [] else file) ++ buffer.getD []) := by
  have htest : (((buffer.getD []).length : Nat) : Int) < intStrlen msg + 1 := by
    rw [intStrlen_eq]; omega
  have hsize' : ¬ (held size mode buffer file).bufferSize = 0 := by
    simp only [held]; omega
  rw [write, if_neg hsize', writeToBuffer]
  simp only [held, htest, if_true]
  rfl

theorem write_keeps (hsize : 0 < size) (hshort : msg.text.length < (buffer.getD []).length) :
    write (held size mode buffer file) msg
      = held size mode (some (buffer.getD [] ++ msg.text)) file := by
  have htest : ¬ (((buffer.getD []).length : Nat) : Int) < intStrlen msg + 1 := by
    rw [intStrlen_eq]; omega
  have hsize' : ¬ (held size mode buffer file).bufferSize = 0 := by
    simp only [held]; omega
  rw [write, if_neg hsize', writeToBuffer]
  simp only [held, htest, if_false]

@[simp] theorem logged_nil :
    logged (held size mode buffer file) [] = file ++ buffer.getD [] := by
  simp only [logged, List.foldl_nil, freeTarget, held]
  cases buffer with
  | none => simp
  | some b =>
    by_cases hb : b = []
    · simp [hb]
    · simp [hb, fclose, fwrite, ensureOpen, fopen]

theorem logged_cons (t : Target) (m : Msg) (ms : List Msg) :
    logged t (m :: ms) = logged (write t m) ms := rfl

@[simp] theorem texts_nil : texts [] = [] := rfl

@[simp] theorem texts_cons (m : Msg) (ms : List Msg) : texts (m :: ms) = m.text ++ texts ms := rfl

/-! ## Runs

By induction on the messages, with the buffer and the file they find. -/

/-- In append mode a flush only moves what is buffered to the end of the file. -/
theorem logged_append (hsize : 0 < size) :
    logged (held size .append buffer file) msgs = file ++ buffer.getD [] ++ texts msgs := by
  induction msgs generalizing buffer file with
  | nil => simp
  | cons m ms ih =>
    rw [logged_cons]
    by_cases hlong : (buffer.getD []).length ≤ m.text.length
    · rw [write_flushes hsize hlong, ih]; simp
    · rw [write_keeps hsize (by omega), ih]; simp

/-- In truncate mode nothing is written twice. -/
theorem logged_truncate_length_le (hsize : 0 < size) :
    (logged (held size .truncate buffer file) msgs).length
      ≤ file.length + (buffer.getD []).length + (texts msgs).length := by
  induction msgs generalizing buffer file with
  | nil => simp
  | cons m ms ih =>
    rw [logged_cons]
    by_cases hlong : (buffer.getD []).length ≤ m.text.length
    · rw [write_flushes hsize hlong]
      refine le_trans ih ?_
      simp only [if_true, List.nil_append, Option.getD_some, texts_cons, List.length_append]
      omega
    · rw [write_keeps hsize (by omega)]
      refine le_trans ih ?_
      simp only [Option.getD_some, texts_cons, List.length_append]
      omega

/-- **A second spill loses the first**: once text stands in the file the buffer is not empty, and
    the next flush empties the file. -/
theorem logged_truncate_iff {buffered : Bytes} (hsize : 0 < size)
    (hheld : file ≠ [] → buffered ≠ []) :
    logged (held size .truncate (some buffered) file) msgs = file ++ buffered ++ texts msgs ↔
      (if file = [] then 0 else 1) + spills buffered.length msgs ≤ 1 := by
  induction msgs generalizing buffered file with
  | nil =>
    simp only [logged_nil, Option.getD_some, texts_nil, List.append_nil, spills, true_iff]
    split <;> omega
  | cons m ms ih =>
    rw [logged_cons, spills, texts_cons]
    by_cases hlong : buffered.length ≤ m.text.length
    · have hflush : ((some buffered).getD []).length ≤ m.text.length := hlong
      rw [write_flushes hsize hflush, if_pos hlong]
      -- An empty file has nothing to lose; any other loses its text by this flush.
      by_cases hfile : file = []
      · have hnext : buffered ≠ [] → m.text ≠ [] := by
          intro hb hm
          rw [hm, List.length_nil, Nat.le_zero, List.length_eq_zero_iff] at hlong
          exact hb hlong
        have := ih hnext
        simp only [if_true, List.nil_append, Option.getD_some, List.append_assoc, hfile,
          List.length_eq_zero_iff, Nat.zero_add] at this ⊢
        exact this
      · -- the flush drops `file`, so the result is too short
        have hb : buffered.length ≠ 0 := by
          rw [Ne, List.length_eq_zero_iff]; exact hheld hfile
        have hpos : file.length ≠ 0 := by rwa [Ne, List.length_eq_zero_iff]
        rw [if_neg hfile, if_neg hb]
        constructor
        · intro heq
          have hle : (logged (held size .truncate (some m.text) buffered) ms).length
              ≤ buffered.length + m.text.length + (texts ms).length :=
            logged_truncate_length_le hsize
          rw [if_pos rfl, List.nil_append, Option.getD_some] at heq
          rw [heq] at hle
          simp only [List.length_append] at hle
          omega
        · intro h; omega
    · rw [write_keeps hsize (by simpa using hlong), if_neg hlong]
      have hnext : file ≠ [] → buffered ++ m.text ≠ [] := by
        intro hf happ
        exact hheld hf (List.append_eq_nil_iff.mp happ).1
      have := ih hnext
      simpa only [Option.getD_some, List.append_assoc, List.length_append] using this

/-- **The file holds every message once, in order, if nothing is spilled twice.** In append mode
    the file of a buffered target always ends as intended. In truncate mode it does exactly when
    there is a message or nothing to remove, and at most one message is at least as long as the
    text that has collected in front of it. -/
theorem buffered_log_iff (globalSize : Nat) (bufferSize : Option Nat) (truncate : Option String)
    (file : Bytes) (msgs : List Msg)
    (hsize : 0 < (ruleTarget globalSize bufferSize truncate file).bufferSize) :
    logged (ruleTarget globalSize bufferSize truncate file) msgs
        = intended (ruleTarget globalSize bufferSize truncate file) msgs ↔
      (ruleTarget globalSize bufferSize truncate file).openMode = .append ∨
        ((msgs = [] → file = []) ∧ spills 0 msgs ≤ 1) := by
  rw [ruleTarget_eq_held]
  generalize (ruleTarget globalSize bufferSize truncate file).bufferSize = size at hsize
  generalize (ruleTarget globalSize bufferSize truncate file).openMode = mode
  cases mode with
  | append =>
    rw [logged_append hsize]
    simp [intended, held]
  | truncate =>
    have hmode : ¬ Mode.truncate = Mode.append := by decide
    simp only [intended, held, if_true, List.nil_append, hmode, false_or]
    cases msgs with
    | nil =>
      show logged (held size .truncate none file) [] = texts [] ↔ _
      simp [spills]
    | cons m ms =>
      -- the first message meets an empty buffer and empties the file
      show logged (held size .truncate none file) (m :: ms) = m.text ++ texts ms ↔ _
      rw [logged_cons, write_flushes hsize (Nat.zero_le _)]
      have hrest : logged (held size .truncate (some m.text) []) ms = m.text ++ texts ms ↔
          spills m.text.length ms ≤ 1 := by
        have hempty : ([] : Bytes) ≠ [] → m.text ≠ [] := fun h => absurd rfl h
        simpa using logged_truncate_iff hsize hempty
      rw [if_pos rfl, Option.getD_none, List.append_nil, hrest]
      simp [spills]

theorem buffered_log_iff_two_lines :
    0 < (ruleTarget 4096 none (some "true") [1, 2]).bufferSize ∧
      logged (ruleTarget 4096 none (some "true") [1, 2]) [logLine [97, 10], logLine [98, 10]]
        = intended (ruleTarget 4096 none (some "true") [1, 2])
            [logLine [97, 10], logLine [98, 10]] := by
  have hspill : spills 0 [logLine [97, 10], logLine [98, 10]] ≤ 1 := by decide
  refine ⟨Nat.succ_pos _, ?_⟩
  exact (buffered_log_iff 4096 none (some "true") [1, 2] _ (Nat.succ_pos _)).mpr
    (.inr ⟨fun h => absurd h (List.cons_ne_nil _ _), hspill⟩)

/-- Three lines of one length in truncate mode: the third flush removes the first line. -/
theorem buffered_log_loses_line :
    0 < (ruleTarget 4096 none (some "true") []).bufferSize ∧
      logged (ruleTarget 4096 none (some "true") [])
          [logLine [97, 10], logLine [98, 10], logLine [99, 10]]
        ≠ intended (ruleTarget 4096 none (some "true") [])
            [logLine [97, 10], logLine [98, 10], logLine [99, 10]] := by
  decide +kernel

end Log
end Inac
