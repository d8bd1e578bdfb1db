import Mathlib.Algebra.Group.Nat.Defs
import Mathlib.Data.Nat.Basic

/-!
# Hierarchical wheels

A clock counts in digits of base `b`. A wheel of level `w` turns once every `b ^ w` units of the
clock, so at time `t` its hand is at `t / b ^ w`, and it has `b` slots, one for each value of the
hand modulo `b`. An entry that is due at `x` hangs on some level in the slot of its *tick*: the
value of the hand at which the entry has to be looked at again. On the lowest level that is the
time it is due, on a higher one it is the last turn before.

Nothing is said about how the slots are stored. What is here is why such a clock misses nothing:
an entry may hang where `Hangs` says, and if the hand moves without its slot being passed it may
stay there.
-/

namespace Inac
namespace Lib

variable {b top w t n x : Nat}

/-- The value of the hand of level `w` at which an entry due at `x` is looked at. -/
def tick (b w x : Nat) : Nat := x / b ^ w - if w = 0 then 0 else 1

/-- An entry due at `x` may hang on level `w` at time `t`. The highest level `top` takes what is
    further ahead than one turn and passes it several times. -/
structure Hangs (b top w t x : Nat) : Prop where
  ahead : t / b ^ w < x / b ^ w
  near : w < top → tick b w x < t / b ^ w + b

theorem tick_zero (b x : Nat) : tick b 0 x = x := by
  simp [tick]

theorem tick_succ (b w x : Nat) : tick b (w + 1) x = x / b ^ (w + 1) - 1 := by
  simp [tick]

theorem tick_le (b w x : Nat) : tick b w x ≤ x / b ^ w := Nat.sub_le _ _

/-- An entry that hangs is not due. -/
theorem Hangs.lt (h : Hangs b top w t x) : t < x := by
  by_contra hle
  exact absurd h.ahead (Nat.not_lt.mpr (Nat.div_le_div_right (Nat.not_lt.mp hle)))

/-- The hand has not passed the tick. -/
theorem Hangs.le_tick (h : Hangs b top w t x) : t / b ^ w ≤ tick b w x := by
  have hahead := h.ahead
  rw [tick]
  split
  · exact Nat.le_of_lt hahead
  · exact Nat.le_sub_one_of_lt hahead

/-- On a higher level the tick is one turn early. -/
theorem Hangs.tick_add (h : Hangs b top w t x) :
    tick b w x + (if w = 0 then 0 else 1) = x / b ^ w := by
  have hpos : 0 < x / b ^ w := Nat.zero_lt_of_lt h.ahead
  rw [tick]
  split
  · rfl
  · exact Nat.sub_add_cancel hpos

/-- The level that the remaining time belongs to takes the entry. -/
theorem hangs_of_remaining (hb : 0 < b) (hlow : t + b ^ w ≤ x)
    (hhigh : w < top → x < t + b ^ (w + 1)) : Hangs b top w t x := by
  have hpos : 0 < b ^ w := Nat.pow_pos hb
  have hstep : t / b ^ w + 1 ≤ x / b ^ w := by
    calc t / b ^ w + 1 = (t + b ^ w) / b ^ w := (Nat.add_div_right t hpos).symm
      _ ≤ x / b ^ w := Nat.div_le_div_right hlow
  refine ⟨hstep, fun hw => ?_⟩
  have hx := hhigh hw
  cases w with
  | zero =>
    rw [tick_zero, Nat.pow_zero, Nat.div_one]
    simpa using hx
  | succ w =>
    have hturn : x / b ^ (w + 1) ≤ t / b ^ (w + 1) + b := by
      calc x / b ^ (w + 1) ≤ (t + b ^ (w + 1) * b) / b ^ (w + 1) :=
            Nat.div_le_div_right (Nat.le_of_lt (by rwa [← Nat.pow_succ]))
        _ = t / b ^ (w + 1) + b := Nat.add_mul_div_left t b hpos
    rw [tick_succ]
    exact Nat.lt_of_lt_of_le (Nat.sub_one_lt (Nat.ne_of_gt (Nat.zero_lt_of_lt hstep))) hturn

/-- The hand moves on from `t` to `n`. An entry whose slot it does not pass may stay. -/
theorem Hangs.stays (h : Hangs b top w t x) (hle : t ≤ n)
    (hpass : t / b ^ w = n / b ^ w ∨
      ∀ k, t / b ^ w ≤ k → k ≤ n / b ^ w → k % b ≠ tick b w x % b) : Hangs b top w n x := by
  rcases hpass with heq | hpass
  · exact ⟨heq ▸ h.ahead, fun hw => heq ▸ h.near hw⟩
  · have hmono : t / b ^ w ≤ n / b ^ w := Nat.div_le_div_right hle
    have hfar : n / b ^ w < tick b w x := by
      by_contra hc
      exact hpass _ h.le_tick (Nat.not_lt.mp hc) rfl
    refine ⟨Nat.lt_of_lt_of_le hfar (tick_le b w x), fun hw => ?_⟩
    have hnear := h.near hw
    omega

/-- When the hand of a level moves, the hand of the level below passes its slot zero. -/
theorem exists_carry (hlt : t / b ^ (w + 1) < n / b ^ (w + 1)) :
    ∃ k, t / b ^ w ≤ k ∧ k ≤ n / b ^ w ∧ k % b = 0 := by
  refine ⟨n / b ^ (w + 1) * b, ?_, ?_, Nat.mul_mod_left _ _⟩
  · rw [Nat.pow_succ, ← Nat.div_div_eq_div_mul, ← Nat.div_div_eq_div_mul] at hlt
    have hdigit := Nat.div_add_mod (t / b ^ w) b
    have hmod : (t / b ^ w) % b < b := by
      refine Nat.mod_lt _ (Nat.pos_of_ne_zero ?_)
      rintro rfl
      simp at hlt
    rw [Nat.pow_succ, ← Nat.div_div_eq_div_mul]
    have hmul : b * (t / b ^ w / b + 1) ≤ b * (n / b ^ w / b) := Nat.mul_le_mul_left b hlt
    rw [Nat.mul_add, Nat.mul_one] at hmul
    rw [Nat.mul_comm _ b]
    omega
  · rw [Nat.pow_succ, ← Nat.div_div_eq_div_mul]
    exact Nat.div_mul_le_self _ _

/-- No level moves above one that does not. -/
theorem hand_eq_of_le {v : Nat} (heq : t / b ^ w = n / b ^ w) (hle : w ≤ v) :
    t / b ^ v = n / b ^ v := by
  obtain ⟨d, rfl⟩ := Nat.exists_eq_add_of_le hle
  rw [Nat.pow_add, ← Nat.div_div_eq_div_mul, ← Nat.div_div_eq_div_mul, heq]

/-! ## How long nothing has to be done

A clock that is only asked for the next time has to look at the first slot ahead that is not empty.
-/

/-- The slots from the hand of level `w` to the tick of an entry. -/
def slotsAhead (b w t x : Nat) : Nat := (tick b w x % b + (b - t / b ^ w % b)) % b

/-- The time at which the hand comes to the slot `c` ahead of it, seen from `t`; on a higher level
    the turn after it. -/
def waitFor (b w t c : Nat) : Nat := (c + if w = 0 then 0 else 1) * b ^ w - t % b ^ w

theorem Hangs.slotsAhead_eq (hb : 0 < b) (h : Hangs b top w t x) :
    slotsAhead b w t x = (tick b w x - t / b ^ w) % b := by
  obtain ⟨d, hd⟩ := Nat.exists_eq_add_of_le h.le_tick
  rw [slotsAhead, hd, Nat.add_sub_cancel_left]
  have hlt := Nat.mod_lt (t / b ^ w) hb
  have hq := Nat.div_add_mod (t / b ^ w) b
  rw [← Nat.add_mod_mod (_ % b), Nat.mod_add_mod, Nat.add_mod_mod]
  have hsplit : t / b ^ w + d + (b - t / b ^ w % b) = d + b * (t / b ^ w / b + 1) := by
    rw [Nat.mul_add, Nat.mul_one]
    omega
  rw [hsplit, Nat.add_mul_mod_self_left]

theorem Hangs.slotsAhead_le (hb : 0 < b) (h : Hangs b top w t x) :
    slotsAhead b w t x ≤ tick b w x - t / b ^ w :=
  h.slotsAhead_eq hb ▸ Nat.mod_le _ _

/-- Waiting for a slot no further ahead than the one of an entry does not miss the entry. -/
theorem Hangs.waitFor_le (h : Hangs b top w t x) {c : Nat}
    (hc : c ≤ tick b w x - t / b ^ w) : waitFor b w t c ≤ x - t := by
  have hle := h.le_tick
  have hadd := h.tick_add
  have hturns : (c + if w = 0 then 0 else 1) ≤ x / b ^ w - t / b ^ w := by
    rw [← hadd, Nat.sub_add_comm hle]
    exact Nat.add_le_add_right hc _
  calc waitFor b w t c ≤ (x / b ^ w - t / b ^ w) * b ^ w - t % b ^ w :=
        Nat.sub_le_sub_right (Nat.mul_le_mul_right _ hturns) _
    _ = x / b ^ w * b ^ w - (t / b ^ w * b ^ w + t % b ^ w) := by rw [Nat.sub_mul, Nat.sub_sub]
    _ = x / b ^ w * b ^ w - t := by rw [Nat.div_add_mod']
    _ ≤ x - t := Nat.sub_le_sub_right (Nat.div_mul_le_self x _) t

/-- The wait ends at a turn of the level. -/
theorem waitFor_add (hb : 0 < b) {c : Nat} (hpos : 0 < c + if w = 0 then 0 else 1) :
    t + waitFor b w t c = (t / b ^ w + (c + if w = 0 then 0 else 1)) * b ^ w := by
  have hmod : t % b ^ w ≤ (c + if w = 0 then 0 else 1) * b ^ w :=
    Nat.le_trans (Nat.le_of_lt (Nat.mod_lt t (Nat.pow_pos hb))) (Nat.le_mul_of_pos_left _ hpos)
  calc t + waitFor b w t c
      = t / b ^ w * b ^ w + (t % b ^ w + waitFor b w t c) := by
        rw [← Nat.add_assoc, Nat.div_add_mod']
    _ = (t / b ^ w + (c + if w = 0 then 0 else 1)) * b ^ w := by
        rw [waitFor, Nat.add_sub_cancel' hmod, ← Nat.add_mul]

end Lib
end Inac
