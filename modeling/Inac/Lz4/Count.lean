import Mathlib.Data.Nat.Bitwise
import Inac.Lz4.Accept
import Inac.Lz4.Compress

/-!
# How far two places agree

`LZ4_count` compares eight bytes at a time. Where a word differs the number of zeros below the lowest
one of the difference says in which byte, and where there is no room for a word four bytes are
compared, two, and one. It is what counting byte by byte gives.

The order of the lemmas is that of the code. A difference of words is a matter of their first bytes
that differ (`builtinCtz_xor`), by induction over the bytes. The words of the loop and the four, two
and one bytes of the tail are then the same step with another width (`tail_step`): if so many bytes
agree the places move on, and else fewer than that agree in the rest.
-/

namespace Inac
namespace Lz4

open Lib

/-- How many elements two lists begin with in common. -/
def commonLen {α : Type} [DecidableEq α] : List α → List α → Nat
  | x :: xs, y :: ys => if x = y then commonLen xs ys + 1 else 0
  | _, _ => 0

section CommonLen

variable {α : Type} [DecidableEq α] {a b xs ys : List α}

theorem commonLen_le_left (xs ys : List α) : commonLen xs ys ≤ xs.length := by
  induction xs generalizing ys with
  | nil => exact Nat.le_refl _
  | cons x xs ih =>
    cases ys with
    | nil => exact Nat.zero_le _
    | cons y ys =>
      rw [commonLen]
      split
      · exact Nat.succ_le_succ (ih ys)
      · exact Nat.zero_le _

theorem commonLen_append (a xs ys : List α) :
    commonLen (a ++ xs) (a ++ ys) = a.length + commonLen xs ys := by
  induction a with
  | nil => exact (Nat.zero_add _).symm
  | cons x a ih =>
    rw [List.cons_append, List.cons_append, commonLen, if_pos rfl, ih, List.length_cons]
    omega

theorem commonLen_append_of_ne (hlen : a.length = b.length) (hne : a ≠ b) (xs ys : List α) :
    commonLen (a ++ xs) (b ++ ys) = commonLen a b ∧ commonLen a b < a.length := by
  induction a generalizing b with
  | nil =>
    cases b with
    | nil => exact absurd rfl hne
    | cons => cases hlen
  | cons x a ih =>
    cases b with
    | nil => cases hlen
    | cons y b =>
      simp only [List.cons_append, commonLen]
      split
      case isTrue hxy =>
        obtain ⟨heq, hlt⟩ := ih (Nat.succ.inj hlen) fun h => hne (by rw [hxy, h])
        exact ⟨by rw [heq], Nat.succ_lt_succ hlt⟩
      case isFalse => exact ⟨rfl, Nat.succ_pos _⟩

theorem getElem?_of_lt_commonLen {i : Nat} (h : i < commonLen xs ys) : xs[i]? = ys[i]? := by
  induction xs generalizing ys i with
  | nil => exact absurd h (Nat.not_lt_zero _)
  | cons x xs ih =>
    cases ys with
    | nil => exact absurd h (Nat.not_lt_zero _)
    | cons y ys =>
      rw [commonLen] at h
      split at h
      case isFalse => exact absurd h (Nat.not_lt_zero _)
      case isTrue hxy =>
        cases i with
        | zero => rw [hxy]; rfl
        | succ i => exact ih (Nat.lt_of_succ_lt_succ h)

theorem le_commonLen {k : Nat} (hk : k ≤ xs.length) (h : ∀ i < k, xs[i]? = ys[i]?) :
    k ≤ commonLen xs ys := by
  induction xs generalizing ys k with
  | nil => exact hk
  | cons x xs ih =>
    cases k with
    | zero => exact Nat.zero_le _
    | succ k =>
      have hzero := h 0 (Nat.succ_pos k)
      cases ys with
      | nil => cases hzero
      | cons y ys =>
        rw [commonLen, if_pos (Option.some.inj hzero)]
        exact Nat.succ_le_succ (ih (Nat.le_of_succ_le_succ hk) fun i hi =>
          h (i + 1) (Nat.succ_lt_succ hi))

end CommonLen

/-! ## The first byte in which two words differ

A byte that is the same leaves zeros at the bottom of the exclusive or, and the first one that is
not leaves a one within its eight bits. -/

theorem builtinCtz_mul (k n w : Nat) : builtinCtz (n + k) (2 ^ k * w) = builtinCtz n w + k := by
  induction k with
  | zero => rw [Nat.pow_zero, Nat.one_mul]; rfl
  | succ k ih =>
    have hmod : 2 ^ (k + 1) * w % 2 ≠ 1 := by
      rw [Nat.pow_succ, Nat.mul_right_comm, Nat.mul_mod_left]
      decide
    have hdiv : 2 ^ (k + 1) * w / 2 = 2 ^ k * w := by
      rw [Nat.pow_succ, Nat.mul_right_comm, Nat.mul_div_cancel _ (by decide)]
    rw [← Nat.add_assoc, builtinCtz, if_neg hmod, hdiv, ih, Nat.add_assoc]

theorem builtinCtz_lt (k n : Nat) {v : Nat} (h : v % 2 ^ k ≠ 0) : builtinCtz (n + k) v < k := by
  induction k generalizing v with
  | zero => exact absurd (Nat.mod_one v) h
  | succ k ih =>
    rw [← Nat.add_assoc, builtinCtz]
    split
    case isTrue => exact Nat.succ_pos k
    case isFalse hodd =>
      refine Nat.succ_lt_succ (ih fun hz => h ?_)
      rw [Nat.pow_succ, Nat.mul_comm, Nat.mod_mul, hz]
      omega

/-- **`LZ4_NbCommonBytes`** of a difference is how many bytes agree. -/
theorem builtinCtz_xor {a b : List UInt8} (hlen : a.length = b.length) (hne : a ≠ b) :
    builtinCtz (8 * a.length) (wordOf a ^^^ wordOf b) / 8 = commonLen a b := by
  induction a generalizing b with
  | nil =>
    cases b with
    | nil => exact absurd rfl hne
    | cons => cases hlen
  | cons x a ih =>
    cases b with
    | nil => cases hlen
    | cons y b =>
      have hx : x.toNat < 2 ^ 8 := x.toNat_lt
      have hy : y.toNat < 2 ^ 8 := y.toNat_lt
      have hmod : (wordOf (x :: a) ^^^ wordOf (y :: b)) % 2 ^ 8 = x.toNat ^^^ y.toNat := by
        rw [Nat.xor_mod_two_pow, wordOf, wordOf, Nat.add_mul_mod_self_left,
          Nat.add_mul_mod_self_left, Nat.mod_eq_of_lt hx, Nat.mod_eq_of_lt hy]
      have hdiv : (wordOf (x :: a) ^^^ wordOf (y :: b)) / 2 ^ 8 = wordOf a ^^^ wordOf b := by
        rw [Nat.xor_div_two_pow, wordOf, wordOf, Nat.add_mul_div_left _ _ (by decide),
          Nat.add_mul_div_left _ _ (by decide), Nat.div_eq_of_lt hx, Nat.div_eq_of_lt hy,
          Nat.zero_add, Nat.zero_add]
      rw [commonLen, List.length_cons, Nat.mul_succ]
      -- Either the first bytes agree and the difference is one of the rest, or it is in the lowest
      -- byte.
      split
      case isTrue hxy =>
        subst hxy
        have hsplit : wordOf (x :: a) ^^^ wordOf (x :: b) = 2 ^ 8 * (wordOf a ^^^ wordOf b) := by
          rw [Nat.xor_self] at hmod
          rw [← hdiv, Nat.mul_div_cancel' (Nat.dvd_of_mod_eq_zero hmod)]
        rw [hsplit, builtinCtz_mul, Nat.add_div_right _ (by decide),
          ih (Nat.succ.inj hlen) fun h => hne (by rw [h])]
      case isFalse hxy =>
        refine Nat.div_eq_of_lt (builtinCtz_lt 8 _ ?_)
        rw [hmod]
        exact fun h => hxy (UInt8.toNat_inj.mp (Nat.xor_eq_zero_iff.mp h))

/-! ## The count

`agree` is the number that is to come out, counted in one go. -/

variable {src : List UInt8} {p m k limit start fuel : Nat}

/-- How far the bytes from `p` to `limit` agree with those from `m` on. -/
def agree (src : List UInt8) (p m limit : Nat) : Nat :=
  commonLen ((src.drop p).take (limit - p)) (src.drop m)

theorem lz4Read_eq {n : Nat} (h : p + n ≤ src.length) :
    lz4Read n src p = some (wordOf ((src.drop p).take n)) := by
  rw [lz4Read, load_eq h, Option.map_some]

theorem length_take_drop (src : List UInt8) {n : Nat} (h : p + n ≤ src.length) :
    ((src.drop p).take n).length = n := by
  rw [List.length_take, List.length_drop]
  omega

theorem agree_le (src : List UInt8) (p m limit : Nat) : agree src p m limit ≤ limit - p := by
  refine Nat.le_trans (commonLen_le_left ..) ?_
  rw [List.length_take]
  exact Nat.min_le_left ..

/-- The bytes compared, a block in front. -/
theorem take_drop_split (h : p + k ≤ limit) :
    (src.drop p).take (limit - p) = (src.drop p).take k ++ (src.drop (p + k)).take (limit - (p + k)) := by
  rw [← List.drop_drop, ← List.take_add]
  congr 1
  omega

theorem agree_eq_add (h : p + k ≤ limit) (hl : limit ≤ src.length)
    (heq : (src.drop m).take k = (src.drop p).take k) :
    agree src p m limit = k + agree src (p + k) (m + k) limit := by
  rw [agree, take_drop_split h, ← List.take_append_drop k (src.drop m), heq, commonLen_append,
    length_take_drop _ (by omega), List.drop_drop, agree]

theorem agree_of_ne (h : p + k ≤ limit) (hl : limit ≤ src.length) (hm : m ≤ p)
    (hne : (src.drop m).take k ≠ (src.drop p).take k) :
    agree src p m limit = commonLen ((src.drop p).take k) ((src.drop m).take k) ∧
      agree src p m limit < k := by
  have hp := length_take_drop src (p := p) (n := k) (by omega)
  have hm' := length_take_drop src (p := m) (n := k) (by omega)
  obtain ⟨heq, hlt⟩ := commonLen_append_of_ne (hp.trans hm'.symm) hne.symm
    ((src.drop (p + k)).take (limit - (p + k))) ((src.drop m).drop k)
  rw [← take_drop_split h, List.take_append_drop] at heq
  rw [agree, heq]
  exact ⟨rfl, Nat.lt_of_lt_of_eq hlt hp⟩

/-- **A step of the tail**: `k` bytes are compared where fewer than `2 * k` agree, and after it fewer
    than `k` do. -/
theorem tail_step (hk : 0 < k) (hl : limit ≤ src.length) (hm : m ≤ p)
    (hlt : agree src p m limit < 2 * k) :
    ∃ j, sameWord k src p m limit = some (decide (j = k)) ∧ (j = k ∨ j = 0) ∧
      j + agree src (p + j) (m + j) limit = agree src p m limit ∧
      agree src (p + j) (m + j) limit < k := by
  rw [sameWord]
  by_cases hroom : p + (k - 1) < limit
  · have hpk : p + k ≤ limit := by omega
    rw [if_pos hroom, lz4Read_eq (by omega), lz4Read_eq (by omega)]
    simp only [Option.bind_eq_bind, Option.bind_some]
    have hword := wordOf_inj (a := (src.drop m).take k) (b := (src.drop p).take k)
      (by rw [length_take_drop _ (by omega), length_take_drop _ (by omega)])
    -- All `k` bytes agree, or the next difference is among them.
    by_cases heq : (src.drop m).take k = (src.drop p).take k
    · have hadd := agree_eq_add hpk hl heq
      refine ⟨k, ?_, Or.inl rfl, hadd.symm, by omega⟩
      simp [heq]
    · refine ⟨0, ?_, Or.inr rfl, Nat.zero_add _, (agree_of_ne hpk hl hm heq).2⟩
      have hne : ¬ wordOf ((src.drop m).take k) = wordOf ((src.drop p).take k) :=
        fun h => heq (hword.mp h)
      simp only [Option.some.injEq]
      rw [beq_eq_false_iff_ne.mpr hne, eq_comm, decide_eq_false_iff_not]
      omega
  · rw [if_neg hroom]
    refine ⟨0, ?_, Or.inr rfl, Nat.zero_add _, ?_⟩
    · simp only [Option.some.injEq]
      rw [eq_comm, decide_eq_false_iff_not]
      omega
    · have := agree_le src p m limit
      simp only [Nat.add_zero]
      omega

/-- **The tail** counts on where fewer than eight bytes agree. -/
theorem countTail_eq (hl : limit ≤ src.length) (hm : m ≤ p) (hlt : agree src p m limit < 8) :
    countTail src p m limit start = some (p + agree src p m limit - start) := by
  obtain ⟨i, hfour, hi, hadd₁, hlt₁⟩ := tail_step (k := 4) (by decide) hl hm hlt
  obtain ⟨j, htwo, hj, hadd₂, hlt₂⟩ := tail_step (k := 2) (p := p + i) (m := m + i) (by decide) hl
    (by omega) hlt₁
  obtain ⟨k, hone, hk, hadd₃, hlt₃⟩ := tail_step (k := 1) (p := p + i + j) (m := m + i + j)
    (by decide) hl (by omega) hlt₂
  have hpair₁ : (if decide (i = 4) = true then (p + 4, m + 4) else (p, m)) = (p + i, m + i) := by
    rcases hi with rfl | rfl <;> rfl
  have hpair₂ : (if decide (j = 2) = true then (p + i + 2, m + i + 2) else (p + i, m + i)) =
      (p + i + j, m + i + j) := by
    rcases hj with rfl | rfl <;> rfl
  have hlast : (if decide (k = 1) = true then p + i + j + 1 else p + i + j) = p + i + j + k := by
    rcases hk with rfl | rfl <;> rfl
  simp only [countTail, Option.bind_eq_bind, hfour, Option.bind_some, hpair₁, htwo, hpair₂, hone,
    hlast]
  congr 2
  omega

/-- A word, and what its difference to another says. -/
theorem count_word (hroom : p + 7 < limit) (hl : limit ≤ src.length) (hm : m ≤ p) :
    ∃ a b, lz4Read 8 src m = some a ∧ lz4Read 8 src p = some b ∧
      (a ^^^ b = 0 → agree src p m limit = 8 + agree src (p + 8) (m + 8) limit) ∧
      (a ^^^ b ≠ 0 → lz4NbCommonBytes (a ^^^ b) = agree src p m limit) := by
  have hlm := length_take_drop src (p := m) (n := 8) (by omega)
  have hlp := length_take_drop src (p := p) (n := 8) (by omega)
  refine ⟨_, _, lz4Read_eq (by omega), lz4Read_eq (by omega), fun h => ?_, fun h => ?_⟩
  · exact agree_eq_add (by omega) hl
      ((wordOf_inj (hlm.trans hlp.symm)).mp (Nat.xor_eq_zero_iff.mp h))
  · have hne : (src.drop m).take 8 ≠ (src.drop p).take 8 := fun heq => h (by rw [heq, Nat.xor_self])
    rw [lz4NbCommonBytes, Nat.xor_comm, (agree_of_ne (by omega) hl hm hne).1,
      ← builtinCtz_xor (hlp.trans hlm.symm) hne.symm, hlp]

theorem countWords_eq (hl : limit ≤ src.length) (hm : m ≤ p) (hstart : start ≤ p)
    (hfuel : limit ≤ 8 * fuel + p) :
    countWords src fuel p m limit start = some (p + agree src p m limit - start) := by
  induction fuel generalizing p m with
  | zero =>
    have := agree_le src p m limit
    exact countTail_eq hl hm (by omega)
  | succ fuel ih =>
    rw [countWords]
    by_cases hroom : p + 7 < limit
    · obtain ⟨a, b, ha, hb, heq, hne⟩ := count_word hroom hl hm
      rw [if_pos hroom]
      simp only [ha, hb, Option.bind_eq_bind, Option.bind_some]
      by_cases hz : a ^^^ b = 0
      · rw [if_pos hz, ih (by omega) (by omega) (by omega), heq hz, Nat.add_assoc]
      · rw [if_neg hz, hne hz]
    · have := agree_le src p m limit
      rw [if_neg hroom]
      exact countTail_eq hl hm (by omega)

/-- **`LZ4_count`** counts the bytes that agree. -/
theorem lz4Count_eq (src : List UInt8) (limit : Nat) (hl : limit ≤ src.length) (hm : m ≤ p) :
    lz4Count src p m limit = some (agree src p m limit) := by
  rw [lz4Count]
  by_cases hroom : p + 7 < limit
  · obtain ⟨a, b, ha, hb, heq, hne⟩ := count_word hroom hl hm
    rw [if_pos hroom]
    simp only [ha, hb, Option.bind_eq_bind, Option.bind_some]
    by_cases hz : a ^^^ b = 0
    · rw [if_pos hz, countWords_eq hl (by omega) (by omega) (by omega), heq hz]
      congr 1
      omega
    · rw [if_neg hz, hne hz]
  · rw [if_neg hroom, countWords_eq hl hm (Nat.le_refl p) (by omega), Nat.add_sub_cancel_left]

/-- **What is counted agrees.** -/
theorem getElem?_of_lt_agree {i : Nat} (h : i < agree src p m limit) :
    src[p + i]? = src[m + i]? := by
  have hlt := Nat.lt_of_lt_of_le h (agree_le src p m limit)
  have heq := getElem?_of_lt_commonLen h
  rwa [List.getElem?_take_of_lt hlt, List.getElem?_drop, List.getElem?_drop] at heq

/-- Nothing that agrees is left out. -/
theorem le_agree (hk : p + k ≤ limit) (hl : limit ≤ src.length)
    (h : ∀ i < k, src[p + i]? = src[m + i]?) : k ≤ agree src p m limit := by
  refine le_commonLen ?_ fun i hi => ?_
  · rw [List.length_take, List.length_drop]
    omega
  · rw [List.getElem?_take_of_lt (by omega), List.getElem?_drop, List.getElem?_drop, h i hi]

/-- **What is counted, byte by byte**: all that agrees below the limit, and no more. -/
theorem count_exact (src : List UInt8) {pIn pMatch pInLimit : Nat} (hl : pInLimit ≤ src.length)
    (hm : pMatch ≤ pIn) :
    ∃ k, lz4Count src pIn pMatch pInLimit = some k ∧ k ≤ pInLimit - pIn ∧
      (∀ i < k, src[pIn + i]? = src[pMatch + i]?) ∧
      (pIn + k < pInLimit → src[pIn + k]? ≠ src[pMatch + k]?) := by
  refine ⟨_, lz4Count_eq _ _ hl hm, agree_le .., fun i hi => getElem?_of_lt_agree hi, fun hk heq => ?_⟩
  generalize hn : agree src pIn pMatch pInLimit = k at hk heq
  have hmore : k + 1 ≤ agree src pIn pMatch pInLimit := by
    refine le_agree (by omega) hl fun i hi => ?_
    rcases Nat.lt_succ_iff_lt_or_eq.mp hi with hlt | rfl
    · exact getElem?_of_lt_agree (hn ▸ hlt)
    · exact heq
  omega

/-- Nine bytes that agree with those in front of them, and one that does not. -/
theorem count_exact_nine :
    ∃ k, lz4Count [1, 2, 1, 2, 1, 2, 1, 2, 1, 2, 1, 3, 4] 2 0 13 = some k ∧ k ≤ 13 - 2 ∧
      (∀ i < k, [1, 2, 1, 2, 1, 2, 1, 2, 1, 2, 1, 3, 4][2 + i]? =
        [(1 : UInt8), 2, 1, 2, 1, 2, 1, 2, 1, 2, 1, 3, 4][0 + i]?) ∧
      (2 + k < 13 → [1, 2, 1, 2, 1, 2, 1, 2, 1, 2, 1, 3, 4][2 + k]? ≠
        [(1 : UInt8), 2, 1, 2, 1, 2, 1, 2, 1, 2, 1, 3, 4][0 + k]?) :=
  count_exact [1, 2, 1, 2, 1, 2, 1, 2, 1, 2, 1, 3, 4] (by decide) (by decide)

end Lz4
end Inac
