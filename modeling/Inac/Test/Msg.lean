import Inac.Err
import Inac.Lib.Print

/-!
# The messages of a test (`src/test.c`)

`ina_test_msg` collects the messages of a test in a buffer, each between an opening and a closing of
the output format. All prints are limited to the space that is left. A message that does not fit
makes way for `...`, and without room for the longest opening and `...` nothing is begun; a closing
that does not fit fails the call and is overwritten, should another one follow.

What `vsnprintf` makes of a message, and which of the prints fail, are parameters of a call.
-/

namespace Inac
namespace Test

open Lib

/-! ## The code

A message is printed in three pieces at the write position, which is moved behind each of them. -/

/-- The bytes of a string literal. -/
def literal (s : String) : List UInt8 := s.toList.map fun c => UInt8.ofNat c.toNat

def inaYes : Int := 1

/-- `__INA_MSG_SIZE`. -/
def inaMsgSize : Nat := 4096 * 4

/-- `__tap` and `__junit`. -/
structure Format where
  tap : Bool
  junit : Bool
  deriving DecidableEq, Repr

/-- `__errorbuffer`, `__errorsize`, and `__errormsg` as an index into the buffer. -/
structure Messages where
  errorbuffer : List UInt8
  errorsize : Nat
  errormsg : Nat
  deriving DecidableEq, Repr

/-- A call: what the message is, or that it cannot be made, and which other prints fail. -/
structure Call where
  isError : Int
  message : Except Negative (List UInt8)
  openingFails : Option Negative
  dotsFail : Option Negative
  closingFails : Option Negative

/-- What a print of `s` with `"%s"` prints. -/
def plain (fails : Option Negative) (s : String) : Except Negative (List UInt8) :=
  match fails with
  | some r => .error r
  | none => .ok (literal s)

def opening (f : Format) (isError : Int) : String :=
  if !f.tap && !f.junit then
    if isError ≠ inaYes then "     MSG: " else "ERR: "
  else if f.tap then "# "
  else if isError ≠ 0 then "\t\t\t<failure message=\""
  else "\t\t\t<system-out>"

def closing (f : Format) (isError : Int) : String :=
  if !f.junit then "\n"
  else if isError ≠ 0 then "\"></failure>\n"
  else "</system-out>\n"

namespace Messages

/-- A print at `__errormsg`, limited to `__errorsize`. -/
def print (m : Messages) (text : Except Negative (List UInt8)) : Option (Messages × Int) :=
  (snprintf m.errorbuffer m.errormsg m.errorsize text).map fun (buf, size) =>
    ({ m with errorbuffer := buf }, size)

/-- `__errorsize -= size` and `__errormsg += size`. -/
def advance (m : Messages) (size : Int) : Messages :=
  { m with
    errorsize := (((m.errorsize : Int) - size) % 2 ^ 64).toNat
    errormsg := (m.errormsg + size).toNat }

/-- Output `...` if the message was truncated or an error occurred. -/
def printMessage (m : Messages) (c : Call) : Option (Messages × Int) := do
  let (m, size) ← m.print c.message
  if size < 0 ∨ m.errorsize ≤ size then m.print (plain c.dotsFail "...")
  else return (m, size)

/-- The state in which `ina_test_run` starts a test. -/
def reset (errorbuffer : Vector UInt8 inaMsgSize) : Messages where
  errorbuffer := errorbuffer.toList.set 0 0
  errorsize := inaMsgSize - 1
  errormsg := 0

/-- The string in the buffer. -/
def text (m : Messages) : List UInt8 := cString m.errorbuffer

end Messages

/-- `ina_test_msg`. There is no result where a print goes outside the buffer. -/
def inaTestMsg (f : Format) (m : Messages) (c : Call) : Option (Messages × Except Err Unit) :=
  -- at least 48 chars for junit output + ...
  if m.errorsize < 48 then some (m, .error .bufferTooSmall)
  else do
    let (m, size) ← m.print (plain c.openingFails (opening f c.isError))
    if size < 0 then return (m, .error .operationFailed)
    let (m, size) ← (m.advance size).printMessage c
    if size < 0 then return (m, .error .operationFailed)
    let (m, size) ← (m.advance size).print (plain c.closingFails (closing f c.isError))
    if size < 0 ∨ m.errorsize ≤ size then return (m, .error .operationFailed)
    return (m.advance size, .ok ())

/-- The calls of a test one after the other, with the text that was there after the last one that
    succeeded. -/
def session (f : Format) : Messages → List UInt8 → List Call → Option (Messages × List UInt8)
  | m, last, [] => some (m, last)
  | m, last, c :: calls => do
    let (m, rc) ← inaTestMsg f m c
    session f m (if rc = .ok () then m.text else last) calls

/-! ## What holds between the calls

`Sound` is about the numbers and the NUL, `Kept` about the text that is there already. -/

namespace Messages

structure Sound (m : Messages) : Prop where
  length : m.errorbuffer.length = inaMsgSize
  total : m.errormsg + m.errorsize = inaMsgSize - 1
  room : 1 ≤ m.errorsize
  terminated : 0 ∈ m.errorbuffer.drop m.errormsg

/-- Nothing in front of the write position of `m` has changed in `m'`. -/
structure Kept (m m' : Messages) : Prop where
  le : m.errormsg ≤ m'.errormsg
  front : m'.errorbuffer.take m.errormsg = m.errorbuffer.take m.errormsg

/-- There is a NUL at the write position. -/
def Ends (m : Messages) : Prop := m.errorbuffer[m.errormsg]? = some 0

variable {m m' m'' : Messages}

theorem Kept.refl (m : Messages) : Kept m m := ⟨Nat.le_refl _, rfl⟩

theorem Kept.trans (h : Kept m m') (h' : Kept m' m'') : Kept m m'' := by
  refine ⟨Nat.le_trans h.le h'.le, ?_⟩
  have hfront := congrArg (List.take m.errormsg) h'.front
  rw [List.take_take, List.take_take, Nat.min_eq_left h.le] at hfront
  exact hfront.trans h.front

/-- The text at a position that ends there is a beginning of every later one. -/
theorem Kept.text (h : Kept m m') (hends : m.Ends) : m.text <+: m'.text :=
  cString_prefix hends h.front

theorem reset_sound (errorbuffer : Vector UInt8 inaMsgSize) : (reset errorbuffer).Sound := by
  refine ⟨?_, Nat.zero_add _, Nat.le_of_ble_eq_true rfl, ?_⟩
  · rw [reset, List.length_set, Vector.length_toList]
  · exact List.mem_set (by rw [Vector.length_toList]; decide) 0

theorem reset_ends (errorbuffer : Vector UInt8 inaMsgSize) : (reset errorbuffer).Ends :=
  List.getElem?_set_self (by rw [Vector.length_toList]; decide)

theorem reset_text (errorbuffer : Vector UInt8 inaMsgSize) : (reset errorbuffer).text = [] := by
  have hlen := errorbuffer.length_toList
  rw [Messages.text, reset]
  cases hbuf : errorbuffer.toList with
  | nil =>
    rw [hbuf] at hlen
    exact absurd hlen (by decide)
  | cons b rest => simp [cString]

/-! ## One print

It may be cut off, or fail, and leaves a terminated string in either case. -/

/-- What a print with the answer `r` leaves. -/
structure PrintStep (m m' : Messages) (r : Int) : Prop where
  sound : m'.Sound
  kept : Kept m m'
  size : m'.errorsize = m.errorsize
  ends : 0 ≤ r → r < m'.errorsize → m'.errorbuffer[m'.errormsg + r.toNat]? = some 0

/-- **Every print has a result**, and leaves what is in front of the write position alone. -/
theorem print_step (hm : m.Sound) (text : Except Negative (List UInt8)) :
    ∃ m' r, m.print text = some (m', r) ∧ PrintStep m m' r := by
  have hroom : m.errormsg + m.errorsize ≤ m.errorbuffer.length := by
    rw [hm.length, hm.total]
    exact Nat.sub_le _ _
  obtain ⟨buf, r, hprint, hp⟩ := snprintf_printed hm.room hroom text
  refine ⟨{ m with errorbuffer := buf }, r, by rw [print, hprint, Option.map_some], ?_⟩
  exact ⟨⟨hp.length.trans hm.length, hm.total, hm.room, hp.terminated hm.terminated⟩,
    ⟨Nat.le_refl _, hp.front⟩, rfl, hp.ends⟩

theorem advance_eq {r : Int} (hm : m.Sound) (hpos : ¬ r < 0) (hlt : r < m.errorsize) :
    m.advance r =
      { m with errorsize := m.errorsize - r.toNat, errormsg := m.errormsg + r.toNat } := by
  have hsize : inaMsgSize = 16384 := rfl
  have htotal := hm.total
  rw [advance, Int.emod_eq_of_lt (by omega) (by omega)]
  congr 1 <;> omega

/-- Behind a text that was printed as a whole there is room for its NUL at least. -/
theorem PrintStep.advance {r : Int} (h : PrintStep m m' r) (hpos : ¬ r < 0)
    (hlt : r < m'.errorsize) :
    (m'.advance r).Sound ∧ Kept m (m'.advance r) ∧ (m'.advance r).Ends := by
  have hends := h.ends (Int.not_lt.mp hpos) hlt
  have hroom : r.toNat < m'.errorsize := by omega
  rw [advance_eq h.sound hpos hlt]
  refine ⟨⟨h.sound.length, ?_, Nat.le_sub_of_add_le' hroom, ?_⟩,
    h.kept.trans ⟨Nat.le_add_right _ _, rfl⟩, hends⟩
  · rw [Nat.add_assoc, Nat.add_sub_cancel' (Nat.le_of_lt hroom), h.sound.total]
  · refine List.mem_of_getElem? (i := 0) ?_
    rw [List.getElem?_drop, Nat.add_zero]
    exact hends

/-- A print of a literal fails or answers with its length. -/
theorem print_plain_le {fails : Option Negative} {s : String} {r : Int}
    (hprint : m.print (plain fails s) = some (m', r)) : r ≤ (literal s).length := by
  rw [print, Option.map_eq_some_iff] at hprint
  obtain ⟨⟨buf, size⟩, hsn, heq⟩ := hprint
  obtain ⟨-, rfl⟩ := Prod.mk.injEq .. ▸ heq
  cases fails with
  | some r =>
    obtain ⟨-, rfl⟩ := Prod.mk.injEq .. ▸ Option.some.inj hsn
    have hneg := r.property
    omega
  | none =>
    rw [plain, snprintf] at hsn
    split at hsn
    · obtain ⟨-, rfl⟩ := Prod.mk.injEq .. ▸ Option.some.inj hsn
      omega
    · split at hsn
      · obtain ⟨-, rfl⟩ := Prod.mk.injEq .. ▸ Option.some.inj hsn
        exact Int.le_refl _
      · obtain ⟨buf', -, heq'⟩ := Option.map_eq_some_iff.mp hsn
        obtain ⟨-, rfl⟩ := Prod.mk.injEq .. ▸ heq'
        exact Int.le_refl _

theorem printMessage_step (hm : m.Sound) (hdots : 3 < m.errorsize) (c : Call) :
    ∃ m' r, m.printMessage c = some (m', r) ∧ PrintStep m m' r ∧ r < m'.errorsize := by
  obtain ⟨m₁, r₁, hprint, hstep⟩ := print_step hm c.message
  -- The message makes way for the dots, or fits.
  by_cases htrunc : r₁ < 0 ∨ m₁.errorsize ≤ r₁
  · obtain ⟨m₂, r₂, hprint', hstep'⟩ := print_step hstep.sound (plain c.dotsFail "...")
    have hle : r₂ ≤ 3 := print_plain_le hprint'
    have hsize := hstep'.size.trans hstep.size
    refine ⟨m₂, r₂, ?_, ⟨hstep'.sound, hstep.kept.trans hstep'.kept, hsize, hstep'.ends⟩, by omega⟩
    rw [printMessage, hprint, Option.bind_eq_bind, Option.bind_some]
    exact (if_pos htrunc).trans hprint'
  · refine ⟨m₁, r₁, ?_, hstep, by omega⟩
    rw [printMessage, hprint, Option.bind_eq_bind, Option.bind_some]
    exact if_neg htrunc

end Messages

open Messages

/-! ## One call

Piece by piece: each is printed, and the call fails or goes on behind it. -/

/-- No opening is longer than the one of a failure. -/
theorem opening_length (f : Format) (isError : Int) : (literal (opening f isError)).length ≤ 21 := by
  unfold opening
  repeat' split
  all_goals decide

/-- What a call leaves. -/
structure CallStep (m m' : Messages) (rc : Except Err Unit) : Prop where
  sound : m'.Sound
  kept : Kept m m'
  ends : rc = .ok () → m'.Ends

theorem CallStep.error {m m' : Messages} (hsound : m'.Sound) (hkept : Kept m m') (e : Err) :
    CallStep m m' (.error e) :=
  ⟨hsound, hkept, fun hok => by cases hok⟩

/-- **A call of `ina_test_msg`** has a result, changes nothing in front of the write position, and
    ends at a NUL if it succeeds. -/
theorem inaTestMsg_step {m : Messages} (hm : m.Sound) (f : Format) (c : Call) :
    ∃ m' rc, inaTestMsg f m c = some (m', rc) ∧ CallStep m m' rc := by
  rw [inaTestMsg]
  by_cases hfull : m.errorsize < 48
  · exact ⟨m, _, if_pos hfull, .error hm (Kept.refl m) _⟩
  -- the opening
  obtain ⟨m₁, r₁, hprint₁, hstep₁⟩ := print_step hm (plain c.openingFails (opening f c.isError))
  have hle₁ := Int.le_trans (print_plain_le hprint₁)
    (Int.ofNat_le.mpr (opening_length f c.isError))
  have hsize₁ := hstep₁.size
  simp only [if_neg hfull, hprint₁, Option.bind_eq_bind, Option.bind_some]
  by_cases hfail₁ : r₁ < 0
  · exact ⟨m₁, _, if_pos hfail₁, .error hstep₁.sound hstep₁.kept _⟩
  have hlt₁ : r₁ < m₁.errorsize := by omega
  obtain ⟨hsound₁, hkept₁, -⟩ := hstep₁.advance hfail₁ hlt₁
  have hdots : 3 < (m₁.advance r₁).errorsize := by
    rw [advance_eq hstep₁.sound hfail₁ hlt₁]
    have := hle₁
    simp only
    omega
  -- the message
  obtain ⟨m₂, r₂, hprint₂, hstep₂, hlt₂⟩ := printMessage_step hsound₁ hdots c
  simp only [if_neg hfail₁, hprint₂, Option.bind_some]
  by_cases hfail₂ : r₂ < 0
  · exact ⟨m₂, _, if_pos hfail₂, .error hstep₂.sound (hkept₁.trans hstep₂.kept) _⟩
  obtain ⟨hsound₂, hkept₂, -⟩ := hstep₂.advance hfail₂ hlt₂
  -- the closing
  obtain ⟨m₃, r₃, hprint₃, hstep₃⟩ :=
    print_step hsound₂ (plain c.closingFails (closing f c.isError))
  have hkept := hkept₁.trans hkept₂
  simp only [if_neg hfail₂, hprint₃, Option.bind_some]
  by_cases hfail₃ : r₃ < 0 ∨ m₃.errorsize ≤ r₃
  · exact ⟨m₃, _, if_pos hfail₃, .error hstep₃.sound (hkept.trans hstep₃.kept) _⟩
  obtain ⟨hsound₃, hkept₃, hends₃⟩ := hstep₃.advance (by omega) (by omega)
  exact ⟨m₃.advance r₃, .ok (), if_neg hfail₃, hsound₃, hkept.trans hkept₃, fun _ => hends₃⟩

/-! ## The calls of a test

The text after the last call that succeeded is carried along, and every later text extends it. -/

/-- Every later text begins with the one in `last`. -/
def Standing (last : List UInt8) (m : Messages) : Prop :=
  m.Sound ∧ ∃ m₀ : Messages, m₀.Ends ∧ m₀.text = last ∧ Kept m₀ m

theorem Standing.text {last : List UInt8} {m : Messages} (h : Standing last m) :
    last <+: m.text := by
  obtain ⟨-, m₀, hends, rfl, hkept⟩ := h
  exact hkept.text hends

theorem Standing.step {last : List UInt8} {m m' : Messages} {rc : Except Err Unit}
    (h : Standing last m) (hstep : CallStep m m' rc) : Standing last m' := by
  obtain ⟨-, m₀, hends, htext, hkept⟩ := h
  exact ⟨hstep.sound, m₀, hends, htext, hkept.trans hstep.kept⟩

theorem session_standing (f : Format) {m : Messages} {last : List UInt8} (h : Standing last m)
    (calls : List Call) :
    ∃ m' last', session f m last calls = some (m', last') ∧ Standing last' m' := by
  induction calls generalizing m last with
  | nil => exact ⟨m, last, rfl, h⟩
  | cons c calls ih =>
    obtain ⟨m₁, rc, hcall, hstep⟩ := inaTestMsg_step h.1 f c
    have hnext : Standing (if rc = .ok () then m₁.text else last) m₁ := by
      split
      · rename_i hok
        exact ⟨hstep.sound, m₁, hstep.ends hok, rfl, Kept.refl m₁⟩
      · exact h.step hstep
    rw [session, hcall, Option.bind_eq_bind, Option.bind_some]
    exact ih hnext

/-- **Between the calls the write position and the space that is left add up to one byte less than
    the buffer, of which at least one byte is left; nothing is written outside the buffer; and it
    holds a string that extends the one after the last call that succeeded.** -/
theorem inaTestMsg_invariant (f : Format) (errorbuffer : Vector UInt8 inaMsgSize)
    (calls : List Call) :
    ∃ m last, session f (reset errorbuffer) [] calls = some (m, last) ∧
      m.Sound ∧ last <+: m.text ∧
      ∀ c, ∃ m' rc, inaTestMsg f m c = some (m', rc) ∧ m'.Sound ∧ last <+: m'.text := by
  have hreset : Standing [] (reset errorbuffer) :=
    ⟨reset_sound errorbuffer, _, reset_ends errorbuffer, reset_text errorbuffer, Kept.refl _⟩
  obtain ⟨m, last, hrun, hstanding⟩ := session_standing f hreset calls
  refine ⟨m, last, hrun, hstanding.1, hstanding.text, fun c => ?_⟩
  obtain ⟨m', rc, hcall, hstep⟩ := inaTestMsg_step hstanding.1 f c
  exact ⟨m', rc, hcall, hstep.sound, (hstanding.step hstep).text⟩

end Test
end Inac
