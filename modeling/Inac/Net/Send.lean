import Mathlib.Algebra.Order.Ring.Nat
import Mathlib.Data.List.Basic
import Inac.Err

/-!
# Sending a whole buffer (`src/net.c`)

`ina_net_write` and `ina_net_udp_send` run one and the same loop: the rest of the buffer is
offered until all of it is taken, nothing is taken, or a call fails. The output variable doubles
as the mark of a failure, and it is looked at behind the loop whether or not the loop wrote it.
The two functions differ in what they do behind that test.

What the kernel answers is a parameter.
-/

namespace Inac
namespace Net

/-! ## The calls of `send` and `sendto`

An answer is −1, 0, or at most what was offered. -/

/-- What the `i`-th call answers when it is offered `n` bytes. -/
structure Peer where
  answer : Nat → Nat → Int
  answer_mem : ∀ i n, answer i n = -1 ∨ answer i n = 0 ∨ (1 ≤ answer i n ∧ answer i n ≤ n)

/-- A call that was made: the bytes behind its pointer, as many as it was offered, and the
    answer. -/
structure Call where
  offered : List UInt8
  nwritten : Int
  deriving DecidableEq, Repr

/-- From the `i`-th call on, `n` bytes are taken, with no answer of 0 or −1 among the calls. -/
inductive Peer.Takes (p : Peer) : Nat → Nat → Prop
  | done (i : Nat) : p.Takes i 0
  | more {i n k : Nat} (hk : 0 < k) (hle : k ≤ n) (hanswer : p.answer i n = k)
      (hrest : p.Takes (i + 1) (n - k)) : p.Takes i n

/-! ## The functions

One loop, and what each function does behind it. -/

/-- What the loop leaves: `totlen`, `*nb_write`, and the calls it made. -/
structure Loop where
  totlen : Nat
  nbWrite : Int
  calls : List Call
  deriving DecidableEq, Repr

def Loop.after (l : Loop) (c : Call) : Loop := { l with calls := c :: l.calls }

/-- `while (totlen != nb)`, from the `i`-th call on. -/
def sendLoop (p : Peer) (nb i totlen : Nat) (buf : List UInt8) (nbWrite : Int) : Loop :=
  if totlen ≠ nb then
    let nwritten := p.answer i (nb - totlen)
    let call : Call := ⟨buf.take (nb - totlen), nwritten⟩
    if nwritten = 0 then ⟨totlen, totlen, [call]⟩
    else if nwritten = -1 then ⟨totlen, -1, [call]⟩
    else
      (sendLoop p nb (i + 1) (totlen + nwritten.toNat) (buf.drop nwritten.toNat) nbWrite).after call
  else ⟨totlen, nbWrite, []⟩
termination_by nb - totlen
decreasing_by
  have := p.answer_mem i (nb - totlen)
  omega

/-- What a call of either function gives back. -/
structure Outcome where
  rc : Except Err Unit
  nbWrite : Int
  calls : List Call

/-- `ina_net_write`. -/
def inaNetWrite (p : Peer) (fd : Int) (buf : List UInt8) (nb : Nat) (nbWrite : Int) : Outcome :=
  if ¬ (0 < fd ∧ 0 < nb) then ⟨.error .invalidArgument, nbWrite, []⟩
  else
    let l := sendLoop p nb 0 0 buf nbWrite
    if l.nbWrite = -1 then ⟨.error .writeFailed, l.nbWrite, l.calls⟩
    else ⟨.ok (), l.totlen, l.calls⟩

/-- `ina_net_udp_send`. -/
def inaNetUdpSend (p : Peer) (fd : Int) (buf : List UInt8) (nb : Nat) (nbWrite : Int) : Outcome :=
  if ¬ (0 < fd ∧ 0 < nb) then ⟨.error .invalidArgument, nbWrite, []⟩
  else
    let l := sendLoop p nb 0 0 buf nbWrite
    if l.nbWrite = -1 then ⟨.error .writeFailed, l.nbWrite, l.calls⟩
    else ⟨.ok (), l.nbWrite, l.calls⟩

/-! ## What a send should do

What is returned agrees with the calls that were made, and they with the buffer. -/

/-- The bytes that were accepted over all the calls. -/
def accepted (calls : List Call) : Nat :=
  (calls.map fun c => c.nwritten.toNat).sum

/-- Every call is offered what the calls before it have not taken. -/
def Consecutive : List UInt8 → List Call → Prop
  | _, [] => True
  | rest, c :: cs => c.offered = rest ∧ Consecutive (rest.drop c.nwritten.toNat) cs

/-- No call of the list failed. -/
def Unbroken (calls : List Call) : Prop :=
  ∀ c ∈ calls, c.nwritten ≠ -1

instance decidableUnbroken (calls : List Call) : Decidable (Unbroken calls) :=
  inferInstanceAs (Decidable (∀ c ∈ calls, c.nwritten ≠ -1))

/-- Success exactly when no call failed, the total on success, and no byte of the buffer skipped
    or sent twice. -/
structure Sent (buf : List UInt8) (o : Outcome) : Prop where
  rc : o.rc = .ok () ↔ Unbroken o.calls
  total : o.rc = .ok () → o.nbWrite = accepted o.calls
  pieces : Consecutive buf o.calls

/-! ## The answers

Whether the whole buffer is taken is known from the answers alone. -/

theorem Peer.toNat_le (p : Peer) (i n : Nat) : (p.answer i n).toNat ≤ n := by
  have := p.answer_mem i n
  omega

theorem Peer.Takes.positive {p : Peer} {i n : Nat} (h : p.Takes i n) (hn : n ≠ 0) :
    0 < p.answer i n := by
  cases h with
  | done => exact absurd rfl hn
  | more hk _ hanswer _ =>
    rw [hanswer]
    exact Int.natCast_pos.mpr hk

theorem Peer.takes_iff_rest {p : Peer} {i n : Nat} (hpos : 0 < p.answer i n) :
    p.Takes i n ↔ p.Takes (i + 1) (n - (p.answer i n).toNat) := by
  constructor
  · intro h
    cases h with
    | done =>
      have hle := p.toNat_le i 0
      have hzero : (p.answer i 0).toNat = 0 := Nat.le_zero.mp hle
      rw [hzero]
      exact .done (i + 1)
    | more _ _ hanswer hrest =>
      rw [hanswer, Int.toNat_natCast]
      exact hrest
  · intro h
    exact .more (by omega) (p.toNat_le i n) (Int.toNat_of_nonneg (Int.le_of_lt hpos)).symm h

/-! ## The loop

Three ways lead out of it. Only the one that sends the whole buffer leaves the output variable as it
came in. -/

@[simp] theorem Loop.after_totlen (l : Loop) (c : Call) : (l.after c).totlen = l.totlen := rfl

@[simp] theorem Loop.after_nbWrite (l : Loop) (c : Call) : (l.after c).nbWrite = l.nbWrite := rfl

@[simp] theorem Loop.after_calls (l : Loop) (c : Call) : (l.after c).calls = c :: l.calls := rfl

theorem unbroken_cons {c : Call} {cs : List Call} :
    Unbroken (c :: cs) ↔ c.nwritten ≠ -1 ∧ Unbroken cs :=
  List.forall_mem_cons

/-- The three ways out of the loop, entered with `n` bytes left and `w` in the output variable. -/
inductive Ending (p : Peer) (nb i n : Nat) (w : Int) (l : Loop) : Prop
  | whole (htakes : p.Takes i n) (hnb : l.totlen = nb) (hw : l.nbWrite = w)
      (hcalls : Unbroken l.calls)
  | zero (hstuck : ¬ p.Takes i n) (hw : l.nbWrite = l.totlen) (hcalls : Unbroken l.calls)
  | failed (hstuck : ¬ p.Takes i n) (hw : l.nbWrite = -1) (hcalls : ¬ Unbroken l.calls)

/-- A call that took something leaves the ending of the rest. -/
theorem Ending.after {p : Peer} {nb i n : Nat} {w : Int} {l : Loop} {offered : List UInt8}
    (hpos : 0 < p.answer i n)
    (h : Ending p nb (i + 1) (n - (p.answer i n).toNat) w l) :
    Ending p nb i n w (l.after ⟨offered, p.answer i n⟩) := by
  have hhead : p.answer i n ≠ -1 := by omega
  have hcons : Unbroken (⟨offered, p.answer i n⟩ :: l.calls) ↔ Unbroken l.calls := by
    rw [unbroken_cons]
    exact and_iff_right hhead
  have htakes := p.takes_iff_rest hpos
  cases h with
  | whole hrest hnb hw hcalls => exact .whole (htakes.mpr hrest) hnb hw (hcons.mpr hcalls)
  | zero hstuck hw hcalls => exact .zero (mt htakes.mp hstuck) hw (hcons.mpr hcalls)
  | failed hstuck hw hcalls => exact .failed (mt htakes.mp hstuck) hw (mt hcons.mp hcalls)

/-- **What the loop does.** It offers consecutive pieces of the buffer, its counter is what was
    accepted, and it ends in one of the three ways. -/
theorem sendLoop_spec (p : Peer) {nb i totlen : Nat} {buf : List UInt8} (w : Int)
    (hle : totlen ≤ nb) (hbuf : buf.length = nb - totlen) :
    Consecutive buf (sendLoop p nb i totlen buf w).calls ∧
      (sendLoop p nb i totlen buf w).totlen =
        totlen + accepted (sendLoop p nb i totlen buf w).calls ∧
      Ending p nb i (nb - totlen) w (sendLoop p nb i totlen buf w) := by
  have htake : buf.take (nb - totlen) = buf := List.take_of_length_le (Nat.le_of_eq hbuf)
  fun_induction sendLoop p nb i totlen buf w with
  | case1 i totlen buf hne nwritten call hzero =>
    -- An answer of 0: the counter is written and the loop left.
    have hpos : ¬ 0 < p.answer i (nb - totlen) := by omega
    refine ⟨⟨htake, trivial⟩, ?_, .zero (fun h => hpos (h.positive (by omega))) rfl ?_⟩
    · simp [accepted, call, hzero]
    · simp [Unbroken, call, hzero]
  | case2 i totlen buf hne nwritten call hzero hfail =>
    have hpos : ¬ 0 < p.answer i (nb - totlen) := by omega
    refine ⟨⟨htake, trivial⟩, ?_, .failed (fun h => hpos (h.positive (by omega))) rfl ?_⟩
    · simp [accepted, call, hfail]
    · simp [Unbroken, call, hfail]
  | case3 i totlen buf hne nwritten call hzero hfail ih =>
    have hanswer := p.answer_mem i (nb - totlen)
    have hpos : 0 < p.answer i (nb - totlen) := by omega
    have hlen : (buf.drop nwritten.toNat).length = nb - (totlen + nwritten.toNat) := by
      rw [List.length_drop, hbuf, Nat.sub_sub]
    obtain ⟨hpieces, htotal, hend⟩ :=
      ih (by omega) hlen (List.take_of_length_le (Nat.le_of_eq hlen))
    refine ⟨⟨htake, hpieces⟩, ?_, ?_⟩
    · simp only [Loop.after_totlen, Loop.after_calls, htotal, accepted, List.map_cons,
        List.sum_cons, Nat.add_assoc, call]
    · rw [← Nat.sub_sub] at hend
      exact hend.after hpos
  | case4 i totlen buf heq =>
    have hzero : nb - totlen = 0 := by omega
    rw [hzero]
    exact ⟨trivial, rfl, .whole (.done i) (not_not.mp heq) rfl (by simp [Unbroken])⟩

/-! ## Behind the loop

The test for −1 cannot tell the mark of the loop from a −1 of the caller. -/

/-- What both functions test is the mark, and it can be the caller's own. -/
theorem Ending.rc_iff {p : Peer} {nb i n : Nat} {w : Int} {l : Loop} (h : Ending p nb i n w l) :
    (l.nbWrite ≠ -1 ↔ Unbroken l.calls) ↔ ¬ (w = -1 ∧ p.Takes i n) := by
  cases h with
  | whole htakes _ hw hcalls => simp [htakes, hw, hcalls]
  | zero hstuck hw hcalls =>
    have hmark : l.nbWrite ≠ -1 := by omega
    simp [hstuck, hmark, hcalls]
  | failed hstuck hw hcalls => simp [hstuck, hw, hcalls]

/-- The test behind the loop, with `v` written when it passes. -/
theorem sent_iff {l : Loop} {buf : List UInt8} {v : Int} (hpieces : Consecutive buf l.calls) :
    Sent buf (if l.nbWrite = -1 then ⟨.error .writeFailed, l.nbWrite, l.calls⟩
        else ⟨.ok (), v, l.calls⟩) ↔
      (l.nbWrite ≠ -1 ↔ Unbroken l.calls) ∧ (l.nbWrite ≠ -1 → v = accepted l.calls) := by
  by_cases hmark : l.nbWrite = -1
  · rw [if_pos hmark]
    constructor
    · intro h
      exact ⟨by simpa [hmark] using h.rc, fun hne => absurd hmark hne⟩
    · intro h
      exact ⟨by simpa [hmark] using h.1, fun hok => absurd hok (by simp), hpieces⟩
  · rw [if_neg hmark]
    constructor
    · intro h
      exact ⟨by simpa [hmark] using h.rc, fun _ => h.total rfl⟩
    · intro h
      exact ⟨by simpa [hmark] using h.1, fun _ => h.2 hmark, hpieces⟩

section
variable (p : Peer) {fd : Int} {buf : List UInt8} (hfd : 0 < fd) (hbuf : 0 < buf.length) (w : Int)

theorem sendLoop_start (buf : List UInt8) :
    Consecutive buf (sendLoop p buf.length 0 0 buf w).calls ∧
      (sendLoop p buf.length 0 0 buf w).totlen =
        accepted (sendLoop p buf.length 0 0 buf w).calls ∧
      Ending p buf.length 0 buf.length w (sendLoop p buf.length 0 0 buf w) := by
  have h := sendLoop_spec p (i := 0) w (Nat.zero_le buf.length) rfl
  rwa [Nat.zero_add] at h

include hfd hbuf

/-- `ina_net_write` writes the counter behind the test, so the mark is all that can go wrong. -/
theorem inaNetWrite_iff :
    Sent buf (inaNetWrite p fd buf buf.length w) ↔ ¬ (w = -1 ∧ p.Takes 0 buf.length) := by
  obtain ⟨hpieces, htotal, hend⟩ := sendLoop_start p w buf
  rw [inaNetWrite, if_neg (not_not.mpr ⟨hfd, hbuf⟩), sent_iff hpieces, ← hend.rc_iff]
  exact and_iff_left fun _ => congrArg Nat.cast htotal

/-- `ina_net_udp_send` leaves the caller's own value when everything was sent. -/
theorem inaNetUdpSend_iff :
    Sent buf (inaNetUdpSend p fd buf buf.length w) ↔ (p.Takes 0 buf.length → w = buf.length) := by
  obtain ⟨hpieces, htotal, hend⟩ := sendLoop_start p w buf
  rw [inaNetUdpSend, if_neg (not_not.mpr ⟨hfd, hbuf⟩), sent_iff hpieces, hend.rc_iff]
  cases hend with
  | whole htakes hnb hw _ =>
    rw [hw, ← htotal, hnb]
    constructor
    · intro h _
      exact h.2 fun hmark => h.1 ⟨hmark, htakes⟩
    · intro h
      have hlen := h htakes
      exact ⟨fun hmark => by omega, fun _ => hlen⟩
  | zero hstuck hw _ =>
    refine iff_of_true ⟨fun h => hstuck h.2, fun _ => ?_⟩ fun h => absurd h hstuck
    rw [hw, htotal]
  | failed hstuck hw _ =>
    exact iff_of_true ⟨fun h => hstuck h.2, fun h => absurd hw h⟩ fun h => absurd h hstuck

end

/-- **Which sends are answered rightly.** `ina_net_write` fails a complete send exactly when the
    output variable came in as −1; `ina_net_udp_send` is right about a complete send only when the
    output variable came in as the length. All sends that end early are answered rightly by both. -/
theorem send_answered_iff (p : Peer) {fd : Int} {buf : List UInt8} (hfd : 0 < fd)
    (hbuf : 0 < buf.length) (w : Int) :
    (Sent buf (inaNetWrite p fd buf buf.length w) ↔ ¬ (w = -1 ∧ p.Takes 0 buf.length)) ∧
      (Sent buf (inaNetUdpSend p fd buf buf.length w) ↔
        (p.Takes 0 buf.length → w = buf.length)) :=
  ⟨inaNetWrite_iff p hfd hbuf w, inaNetUdpSend_iff p hfd hbuf w⟩

/-- A kernel that takes all it is offered. -/
def willing : Peer where
  answer _ n := n
  answer_mem i n := by omega

theorem send_answered_iff_willing :
    (Sent [7, 8] (inaNetWrite willing 3 [7, 8] 2 0) ↔ ¬ ((0 : Int) = -1 ∧ willing.Takes 0 2)) ∧
      (Sent [7, 8] (inaNetUdpSend willing 3 [7, 8] 2 0) ↔ (willing.Takes 0 2 → (0 : Int) = 2)) :=
  send_answered_iff willing (by decide) (by decide) 0

/-- Both bytes are taken by the first call: one function reports an error, the other that nothing
    was sent. -/
theorem complete_send_misreported :
    ¬ Sent [7, 8] (inaNetWrite willing 3 [7, 8] 2 (-1)) ∧
      ¬ Sent [7, 8] (inaNetUdpSend willing 3 [7, 8] 2 0) := by
  constructor
  · intro h
    have hrc := h.rc
    simp [inaNetWrite, sendLoop, willing, Loop.after, Unbroken] at hrc
  · intro h
    have htotal := h.total
    simp [inaNetUdpSend, sendLoop, willing, Loop.after, accepted] at htotal

end Net
end Inac
