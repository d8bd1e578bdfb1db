import Inac.Lz4.Count

/-!
# What the search finds

The hash table only says where to look: whatever stands in it lies before the place where the search
is, and a match is one because its bytes have been compared. So nothing is asked of the hashes, and
nothing of the table but that.

What is asked of the table is that it holds positions before the search (`Below`). A new table holds
zeros, and a position that is cut to sixteen bits only gets less, so this is never lost. The
distance of a match fits the two bytes of an offset for one of two reasons: the code tests it, or
the input is so short that it always does.
-/

namespace Inac
namespace Lz4

open Lib

variable {J : Job} {src : List UInt8} {p m ip anchor step nb h fuel n : Nat} {table : Table}

/-- What the callers of the compressor see to: the input is not too long for its table, and the steps
    of the search do not wrap. -/
structure Job.Proper (J : Job) : Prop where
  long : 13 ≤ J.source.length
  small : J.tableType = .byU16 → J.source.length < lz4_64Klimit
  positive : 1 ≤ J.acceleration
  steps : J.acceleration * 2 ^ 6 + J.source.length ≤ 2 ^ 32

/-- Every position of the table lies before `p`. -/
def Below (p : Nat) (table : Table) : Prop := ∀ h, table h < p

theorem Below.mono {q : Nat} (hb : Below p table) (h : p ≤ q) : Below q table :=
  fun i => Nat.lt_of_lt_of_le (hb i) h

/-- What is kept of a position is no further ahead than the position. -/
theorem Below.put (hb : Below p table) (hm : m < p) (h : Nat) (T : TableType) :
    Below p (lz4PutPositionOnHash m h table T) := by
  intro i
  cases T <;>
  · simp only [lz4PutPositionOnHash, Function.update_apply]
    split
    · exact Nat.lt_of_le_of_lt (Nat.mod_le ..) hm
    · exact hb i

theorem below_one : Below 1 fun _ => 0 := fun _ => Nat.one_pos

theorem lz4HashPosition_some (src : List UInt8) (T : TableType) (hp : p + 8 ≤ src.length) :
    ∃ h, lz4HashPosition src p T = some h := by
  rw [lz4HashPosition]
  split
  · rw [lz4Read_eq hp]
    exact ⟨_, rfl⟩
  · rw [lz4Read_eq (by omega)]
    exact ⟨_, rfl⟩

theorem lz4PutPosition_some (src : List UInt8) (table : Table) (T : TableType)
    (hp : p + 8 ≤ src.length) :
    ∃ h, lz4PutPosition src p table T = some (lz4PutPositionOnHash p h table T) := by
  obtain ⟨h, hh⟩ := lz4HashPosition_some _ T hp
  refine ⟨h, ?_⟩
  simp only [lz4PutPosition, hh, Option.bind_eq_bind, Option.bind_some]

theorem lz4GetPosition_some (src : List UInt8) (table : Table) (T : TableType)
    (hp : p + 8 ≤ src.length) :
    ∃ h, lz4GetPosition src p table T = some (table h) := by
  obtain ⟨h, hh⟩ := lz4HashPosition_some _ T hp
  refine ⟨h, ?_⟩
  simp only [lz4GetPosition, hh, Option.bind_eq_bind, Option.bind_some]

/-- **Words that are equal** are equal byte by byte. -/
theorem getElem?_of_lz4Read {a b : Nat} (hp : p + n ≤ src.length) (hm : m + n ≤ src.length)
    (ha : lz4Read n src m = some a) (hb : lz4Read n src p = some b) (heq : a = b) {i : Nat}
    (hi : i < n) : src[p + i]? = src[m + i]? := by
  rw [lz4Read_eq hm] at ha
  rw [lz4Read_eq hp] at hb
  cases Option.some.inj ha
  cases Option.some.inj hb
  have htake := (wordOf_inj ((length_take_drop _ hm).trans (length_take_drop _ hp).symm)).mp heq
  rw [← List.getElem?_drop, ← List.getElem?_take_of_lt hi, ← htake, List.getElem?_take_of_lt hi,
    List.getElem?_drop]

/-- A match of `n` bytes at `ip` that lies in reach. -/
structure IsMatch (src : List UInt8) (ip m n : Nat) : Prop where
  lt : m < ip
  near : ip ≤ m + 65535
  agrees : ∀ i < n, src[ip + i]? = src[m + i]?

/-- **The search** ends, and where it finds something it finds a match of four bytes. -/
theorem findMatch_spec (fuel ip step nb : Nat) (hJ : J.Proper) (hip : ip ≤ J.source.length)
    (hbelow : Below ip table)
    (hstep : 0 < step) (hnb : 2 ^ 6 ≤ nb) (hwrap : nb + (J.source.length - ip) ≤ 2 ^ 32)
    (hfuel : J.source.length < fuel + ip) :
    ∃ r, findMatch J fuel ip step nb h table = some r ∧ ∀ ip' m table', r = some (ip', m, table') →
      ip ≤ ip' ∧ ip' + 13 ≤ J.source.length ∧ IsMatch J.source ip' m 4 ∧ Below (ip' + 1) table' := by
  induction fuel generalizing ip step nb h table with
  | zero => omega
  | succ fuel ih =>
    simp only [findMatch, Option.bind_eq_bind]
    by_cases hend : J.source.length < ip + step + 12
    · rw [if_pos hend]
      exact ⟨none, rfl, nofun⟩
    rw [if_neg hend]
    obtain ⟨h', hh'⟩ := lz4HashPosition_some J.source (p := ip + step) J.tableType
      (by omega)
    have hput : Below (ip + 1) (lz4PutPositionOnHash ip h table J.tableType) :=
      (hbelow.mono (Nat.le_succ ip)).put (Nat.lt_succ_self ip) h J.tableType
    -- No match here: the search goes on further ahead. The counter does not wrap, by `hwrap`.
    have hnext : ∃ r, findMatch J fuel (ip + step) (nb / 2 ^ 6) ((nb + 1) % 2 ^ 32) h'
        (lz4PutPositionOnHash ip h table J.tableType) = some r ∧ ∀ ip' m table',
          r = some (ip', m, table') → ip ≤ ip' ∧ ip' + 13 ≤ J.source.length ∧
            IsMatch J.source ip' m 4 ∧ Below (ip' + 1) table' := by
      have hmod : (nb + 1) % 2 ^ 32 = nb + 1 := Nat.mod_eq_of_lt (by omega)
      rw [hmod]
      obtain ⟨r, hr, hfound⟩ := ih (ip + step) (nb / 2 ^ 6) (nb + 1) (h := h')
        (by omega) (hput.mono (by omega)) (by omega) (Nat.le_succ_of_le hnb) (by omega) (by omega)
      refine ⟨r, hr, fun ip' m table' he => ?_⟩
      obtain ⟨hle, hrest⟩ := hfound ip' m table' he
      exact ⟨by omega, hrest⟩
    have hm := hbelow h
    rw [hh', Option.bind_some]
    -- Too far away for an offset.
    by_cases hfar : J.tableType ≠ .byU16 ∧ table h + 65535 < ip
    · rw [if_pos hfar]
      exact hnext
    rw [if_neg hfar, lz4Read_eq (by omega), lz4Read_eq (by omega), Option.bind_some,
      Option.bind_some]
    split
    case isTrue => exact hnext
    case isFalse hsame =>
      refine ⟨_, rfl, fun ip' m table' he => ?_⟩
      cases Option.some.inj he
      -- The four bytes are equal as a word, so they are byte by byte.
      refine ⟨Nat.le_refl ip, by omega, ⟨hm, ?_, fun i hi => ?_⟩, hput⟩
      · by_cases hT : J.tableType = .byU16
        · have := hJ.small hT
          rw [lz4_64Klimit] at this
          omega
        · have : ¬ table h + 65535 < ip := fun hlt => hfar ⟨hT, hlt⟩
          omega
      · exact getElem?_of_lz4Read (by omega) (by omega) (lz4Read_eq (by omega))
          (lz4Read_eq (by omega)) (not_not.mp hsame) hi

/-- **Catching up** keeps the distance, and what is added to the match in front agrees. -/
theorem catchUp_spec (anchor : Nat) (hanchor : anchor ≤ ip) (hmatch : IsMatch J.source ip m n)
    (hip : ip ≤ J.source.length) (fuel : Nat) :
    ∃ ip' m', catchUp J anchor fuel ip m = some (ip', m') ∧ anchor ≤ ip' ∧ ip' ≤ ip ∧
      IsMatch J.source ip' m' (ip - ip' + n) := by
  induction fuel generalizing ip m n with
  | zero => exact ⟨ip, m, rfl, hanchor, Nat.le_refl ip, by simpa using hmatch⟩
  | succ fuel ih =>
    have hstay : ∃ ip' m', some (ip, m) = some (ip', m') ∧ anchor ≤ ip' ∧ ip' ≤ ip ∧
        IsMatch J.source ip' m' (ip - ip' + n) :=
      ⟨ip, m, rfl, hanchor, Nat.le_refl ip, by simpa using hmatch⟩
    have hlt := hmatch.lt
    rw [catchUp]
    by_cases hback : anchor < ip ∧ 0 < m
    · rw [if_pos hback, List.getElem?_eq_getElem (show ip - 1 < J.source.length by omega),
        List.getElem?_eq_getElem (show m - 1 < J.source.length by omega)]
      simp only [Option.bind_eq_bind, Option.bind_some]
      split
      case isFalse => exact hstay
      case isTrue hsame =>
        have hnear := hmatch.near
        -- One byte more in front agrees.
        have hmatch' : IsMatch J.source (ip - 1) (m - 1) (n + 1) := by
          refine ⟨by omega, by omega, fun i hi => ?_⟩
          cases i with
          | zero =>
            rw [Nat.add_zero, Nat.add_zero, List.getElem?_eq_getElem (by omega),
              List.getElem?_eq_getElem (by omega), hsame]
          | succ i =>
            have := hmatch.agrees i (by omega)
            rwa [show ip - 1 + (i + 1) = ip + i by omega,
              show m - 1 + (i + 1) = m + i by omega]
        obtain ⟨ip', m', hcatch, hle, hle', hfound⟩ := ih (by omega) hmatch' (by omega)
        refine ⟨ip', m', hcatch, hle, by omega, ?_⟩
        rwa [show ip - 1 - ip' + (n + 1) = ip - ip' + n by omega] at hfound
    · rw [if_neg hback]
      exact hstay

end Lz4
end Inac
