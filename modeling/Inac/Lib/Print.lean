import Inac.Lib.Buf
import Mathlib.Algebra.Ring.Int.Defs
import Mathlib.Algebra.Ring.Nat
import Mathlib.Data.List.TakeWhile

/-!
# Size-limited prints

`snprintf` prints into a bounded buffer: of the text at most one byte less than it is given, and a
NUL behind it. It answers with the length of the whole text, or with a negative number and the
buffer as it was. A print that would write outside the buffer has no result.
-/

namespace Inac
namespace Lib

/-- The answer of a print that failed. -/
abbrev Negative := {r : Int // r < 0}

/-- `snprintf(buf + pos, size, ..)`, given the text of the arguments or the failure to make it. A
    text whose length is no `int` is a failure. -/
def snprintf (buf : List UInt8) (pos size : Nat) :
    Except Negative (List UInt8) → Option (List UInt8 × Int)
  | .error r => some (buf, r)
  | .ok s =>
    if 2 ^ 31 ≤ s.length then some (buf, -1)
    else if size = 0 then some (buf, s.length)
    else (store buf pos (s.take (size - 1) ++ [0])).map (·, (s.length : Int))

/-- The C string a buffer holds. -/
def cString (buf : List UInt8) : List UInt8 := buf.takeWhile (· ≠ 0)

/-- What a print at `pos` with the answer `r` leaves of a buffer. -/
structure Printed (buf : List UInt8) (pos size : Nat) (buf' : List UInt8) (r : Int) : Prop where
  length : buf'.length = buf.length
  front : buf'.take pos = buf.take pos
  terminated : 0 ∈ buf.drop pos → 0 ∈ buf'.drop pos
  ends : 0 ≤ r → r < size → buf'[pos + r.toNat]? = some 0

/-- **A print into the buffer** has a result, and stays behind `pos`. -/
theorem snprintf_printed {buf : List UInt8} {pos size : Nat} (hsize : 1 ≤ size)
    (hroom : pos + size ≤ buf.length) (text : Except Negative (List UInt8)) :
    ∃ buf' r, snprintf buf pos size text = some (buf', r) ∧ Printed buf pos size buf' r := by
  -- A print that failed has left the buffer as it was.
  have hfailed : ∀ r : Int, r < 0 → Printed buf pos size buf r := fun r hr =>
    ⟨rfl, rfl, id, fun hpos => absurd hr (Int.not_lt.mpr hpos)⟩
  cases text with
  | error r => exact ⟨buf, r, rfl, hfailed r r.property⟩
  | ok s =>
    rw [snprintf]
    split
    · exact ⟨buf, -1, rfl, hfailed (-1) (by decide)⟩
    · rw [if_neg (Nat.ne_of_gt hsize)]
      have hlen : (s.take (size - 1)).length < size := by
        rw [List.length_take]
        omega
      have hfront : (buf.take pos).length = pos := List.length_take_of_le (by omega)
      rw [store_eq (by rw [List.length_append, List.length_singleton]; omega)]
      refine ⟨_, s.length, rfl, ?_, ?_, fun _ => ?_, fun _ hr => ?_⟩
      · simp only [List.length_append, List.length_drop, List.length_singleton, hfront]
        omega
      · rw [List.append_assoc, List.take_left' hfront]
      · rw [List.append_assoc, List.drop_left' hfront]
        simp
      · -- A text that fits is there as a whole.
        have hwhole : s.take (size - 1) = s := List.take_of_length_le (by omega)
        rw [hwhole, List.append_assoc, List.getElem?_append_right (by omega), hfront]
        simp

/-- What stands in front of a NUL stays in front of whatever is written behind it. -/
theorem cString_prefix {buf buf' : List UInt8} {pos : Nat} (hnul : buf[pos]? = some 0)
    (hfront : buf'.take pos = buf.take pos) : cString buf <+: cString buf' := by
  have hbuf : buf = buf.take pos ++ 0 :: buf.drop (pos + 1) := by
    obtain ⟨hpos, hget⟩ := List.getElem?_eq_some_iff.mp hnul
    rw [← hget, ← List.drop_eq_getElem_cons hpos, List.take_append_drop]
  have hbuf' : buf' = buf.take pos ++ buf'.drop pos := by
    rw [← hfront, List.take_append_drop]
  rw [cString, cString, hbuf, hbuf', List.takeWhile_append, List.takeWhile_append]
  split
  · simp
  · exact List.prefix_refl _

end Lib
end Inac
