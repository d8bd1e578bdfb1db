import Inac.Lz4.Lengths
import Inac.Lz4.Compress

/-!
# What the compressor writes

Lengths are written byte by byte for literals and four bytes at a time for matches, with a token that
is completed afterwards. What is at the front of `dst` then is how the format writes them.

Every lemma has the same form: if the front of `dst` is `out` and there is room, the function
returns the next place, the front is `out` and what was to be written, and `dst` is as long as
before. So they chain, and the invariant of the main loop only speaks of the front.
-/

namespace Inac
namespace Lz4

open Lib

variable {out mid rest dst : List UInt8} {token op len hi lo fuel n : Nat} {x : UInt8}

/-- A byte changed inside the front. -/
theorem store_inside (h : out ++ x :: rest <+: dst) (y : UInt8) :
    ∃ dst', store dst out.length [y] = some dst' ∧ out ++ y :: rest <+: dst' ∧
      dst'.length = dst.length := by
  obtain ⟨behind, rfl⟩ := h
  refine ⟨out ++ y :: rest ++ behind, ?_, List.prefix_append .., by simp⟩
  rw [store_eq (by simp)]
  simp only [List.append_assoc, List.cons_append, List.take_left, List.length_singleton,
    List.nil_append]
  congr 2
  rw [← List.drop_drop, List.drop_left]
  rfl

/-- **A length byte by byte.** -/
theorem writeLength_spec (fuel op len : Nat) (h : out <+: dst) (hop : op = out.length)
    (hfuel : len < fuel)
    (hdst : op + (len / 255 + 1) ≤ dst.length) :
    ∃ dst', writeLength fuel dst op len = some (op + (len / 255 + 1), dst') ∧
      out ++ (List.replicate (len / 255) 255 ++ [.ofNat (len % 255)]) <+: dst' ∧
      dst'.length = dst.length := by
  induction fuel generalizing out dst op len with
  | zero => exact absurd hfuel (Nat.not_lt_zero _)
  | succ fuel ih =>
    rw [writeLength]
    -- One more byte of 255, or the byte that ends the length.
    by_cases hmore : 255 ≤ len
    · obtain ⟨dst₁, hstore, hpre, hlen⟩ := store_prefix [255] h hop
        (by rw [List.length_singleton]; omega)
      obtain ⟨dst₂, hrest, hpre₂, hlen₂⟩ := ih (op + 1) (len - 255) hpre
        (by rw [List.length_append, hop]; rfl) (by omega) (by omega)
      have hdiv : len / 255 = (len - 255) / 255 + 1 := by omega
      have hmod : len % 255 = (len - 255) % 255 := by omega
      rw [if_pos hmore]
      simp only [hstore, hrest, Option.bind_eq_bind, Option.bind_some]
      refine ⟨dst₂, ?_, ?_, hlen₂.trans hlen⟩
      · rw [hdiv]
        congr 2
        omega
      · rw [hdiv, hmod, List.replicate_succ, List.cons_append]
        rwa [List.append_assoc, List.singleton_append] at hpre₂
    · obtain ⟨dst₁, hstore, hpre, hlen⟩ := store_prefix [.ofNat len] h hop
        (by rw [List.length_singleton]; omega)
      have hdiv : len / 255 = 0 := Nat.div_eq_of_lt (by omega)
      have hmod : len % 255 = len := Nat.mod_eq_of_lt (by omega)
      rw [if_neg hmore]
      simp only [hstore, Option.bind_eq_bind, Option.bind_some]
      refine ⟨dst₁, by rw [hdiv], ?_, hlen⟩
      rw [hdiv, hmod]
      exact hpre

/-- **A token and the length of its literals.** -/
theorem writeLiteralLength_spec (out : List UInt8) (token : Nat) (h : out <+: dst)
    (htoken : token = out.length) (ll : Nat)
    (hdst : token + 1 + (lengthBytes ll).length ≤ dst.length) :
    ∃ dst', writeLiteralLength dst token (token + 1) ll =
        some (token + 1 + (lengthBytes ll).length, dst') ∧
      out ++ tokenByte ll 0 :: lengthBytes ll <+: dst' ∧ dst'.length = dst.length := by
  have hlen := length_lengthBytes ll
  rw [writeLiteralLength]
  -- A length of fifteen and more is continued behind the token.
  by_cases hlong : 15 ≤ ll
  · rw [if_neg (by omega)] at hlen
    obtain ⟨dst₁, hstore, hpre, hlen₁⟩ := store_prefix [.ofNat (15 * 2 ^ 4)] h htoken
      (by rw [List.length_singleton]; omega)
    obtain ⟨dst₂, hwrite, hpre₂, hlen₂⟩ := writeLength_spec (ll + 1) (token + 1) (ll - 15) hpre
      (by rw [List.length_append, htoken]; rfl) (by omega) (by omega)
    have htok : tokenByte ll 0 = .ofNat (15 * 2 ^ 4) := by
      rw [tokenByte, lengthCode_of_le hlong]
      rfl
    rw [if_pos hlong]
    simp only [hstore, hwrite, Option.bind_eq_bind, Option.bind_some]
    refine ⟨dst₂, by rw [hlen], ?_, hlen₂.trans hlen₁⟩
    rw [htok, lengthBytes, if_neg (by omega)]
    rwa [List.append_assoc, List.singleton_append] at hpre₂
  · obtain ⟨dst₁, hstore, hpre, hlen₁⟩ := store_prefix [.ofNat (ll * 2 ^ 4)] h htoken
      (by rw [List.length_singleton]; omega)
    have htok : tokenByte ll 0 = .ofNat (ll * 2 ^ 4) := by
      rw [tokenByte, lengthCode_of_lt (by omega), Nat.mul_comm]
      rfl
    rw [if_neg hlong]
    simp only [hstore, Option.bind_eq_bind, Option.bind_some]
    refine ⟨dst₁, ?_, ?_, hlen₁⟩
    · rw [lengthBytes_of_lt (by omega)]
      rfl
    · rw [htok, lengthBytes_of_lt (by omega)]
      exact hpre

/-! ## The length of a match

The words are all ones and are written one ahead: when the length is used up, four bytes of 255
stand behind it, and the last byte of the length goes over one of them. That is the reason why up to
three bytes too many are written, and why room for a whole word is asked for. -/

theorem addToken_spec (token : Nat) (h : out ++ x :: rest <+: dst) (htoken : token = out.length)
    (n : Nat) :
    ∃ dst', addToken dst token n = some dst' ∧ out ++ (x + .ofNat n) :: rest <+: dst' ∧
      dst'.length = dst.length := by
  subst htoken
  have hget : dst[out.length]? = some x := by
    obtain ⟨behind, rfl⟩ := h
    rw [List.append_assoc, List.getElem?_append_right (Nat.le_refl _), Nat.sub_self]
    rfl
  obtain ⟨dst', hstore, hpre, hlen⟩ := store_inside h (x + .ofNat n)
  refine ⟨dst', ?_, hpre, hlen⟩
  simp only [addToken, hget, Option.bind_eq_bind, Option.bind_some, hstore]

theorem tokenByte_add (hi lo : Nat) :
    tokenByte hi 0 + .ofNat (lengthCode lo) = tokenByte hi lo := by
  rw [tokenByte, tokenByte, ← UInt8.ofNat_add]
  rfl

theorem wordBytes_ones : wordBytes 4 0xFFFFFFFF = List.replicate 4 255 := rfl

/-- **Four bytes at a time**, and four of 255 stand behind them. -/
theorem writeWords_spec (fuel op n : Nat) (h : out ++ List.replicate 4 255 <+: dst)
    (hop : op = out.length) (hfuel : n < fuel) (hdst : op + 4 * (n / 1020) + 4 ≤ dst.length) :
    ∃ dst', writeWords fuel dst op n = some (op + 4 * (n / 1020), n % 1020, dst') ∧
      out ++ List.replicate (4 * (n / 1020)) 255 ++ List.replicate 4 255 <+: dst' ∧
      dst'.length = dst.length := by
  induction fuel generalizing out dst op n with
  | zero => exact absurd hfuel (Nat.not_lt_zero _)
  | succ fuel ih =>
    rw [writeWords]
    -- A word holds 1020 of the length; the four bytes behind the ones that count are carried along.
    by_cases hmore : 4 * 255 ≤ n
    · obtain ⟨dst₁, hstore, hpre, hlen⟩ := store_prefix (wordBytes 4 0xFFFFFFFF) (i := op + 4) h
        (by rw [List.length_append, List.length_replicate, hop])
        (by rw [wordBytes_length]; omega)
      rw [wordBytes_ones] at hpre
      obtain ⟨dst₂, hrest, hpre₂, hlen₂⟩ := ih (op + 4) (n - 1020) hpre
        (by rw [List.length_append, List.length_replicate, hop]) (by omega) (by omega)
      have hdiv : n / 1020 = (n - 1020) / 1020 + 1 := by omega
      rw [if_pos hmore]
      simp only [lz4Write32, hstore, Option.bind_eq_bind, Option.bind_some,
        show 4 * 255 = 1020 from rfl, hrest]
      refine ⟨dst₂, ?_, ?_, hlen₂.trans hlen⟩
      · rw [show op + 4 * (n / 1020) = op + 4 + 4 * ((n - 1020) / 1020) by omega,
          show n % 1020 = (n - 1020) % 1020 by omega]
      · rw [hdiv, show 4 * ((n - 1020) / 1020 + 1) = 4 + 4 * ((n - 1020) / 1020) by omega,
          ← List.replicate_append_replicate, ← List.append_assoc]
        exact hpre₂
    · have hdiv : n / 1020 = 0 := Nat.div_eq_of_lt (by omega)
      have hmod : n % 1020 = n := Nat.mod_eq_of_lt (by omega)
      rw [if_neg hmore, hdiv, hmod]
      exact ⟨dst, rfl, by simpa using h, rfl⟩

/-- **The length of a match**, with its token completed. -/
theorem writeMatchLength_spec (op : Nat) (h : out ++ tokenByte hi 0 :: mid <+: dst)
    (htoken : token = out.length) (hop : op = (out ++ tokenByte hi 0 :: mid).length) (n : Nat)
    (hdst : 15 ≤ n → op + (n - 15) / 255 + 4 ≤ dst.length) :
    ∃ dst', writeMatchLength dst token op n = some (op + (lengthBytes n).length, dst') ∧
      out ++ tokenByte hi n :: (mid ++ lengthBytes n) <+: dst' ∧ dst'.length = dst.length := by
  have hlength := length_lengthBytes n
  rw [writeMatchLength]
  by_cases hlong : 15 ≤ n
  · have hroom := hdst hlong
    rw [if_neg (by omega)] at hlength
    obtain ⟨dst₁, hadd, hpre₁, hlen₁⟩ := addToken_spec _ h htoken 15
    rw [show (15 : Nat) = lengthCode n from (lengthCode_of_le hlong).symm, tokenByte_add] at hpre₁
    have hop₁ : op = (out ++ tokenByte hi n :: mid).length := by
      rw [hop]
      simp
    obtain ⟨dst₂, hstore, hpre₂, hlen₂⟩ := store_prefix (wordBytes 4 0xFFFFFFFF) hpre₁ hop₁
      (by rw [wordBytes_length]; omega)
    rw [wordBytes_ones] at hpre₂
    obtain ⟨dst₃, hwords, hpre₃, hlen₃⟩ := writeWords_spec (n + 1) _ (n - 15) hpre₂ hop₁
      (by omega) (by omega)
    -- of the last four bytes of 255 those are kept that the length still asks for
    have hq : (n - 15) % 1020 / 255 ≤ 4 := by omega
    have hpre₄ : out ++ tokenByte hi n :: mid ++ List.replicate ((n - 15) / 255) 255 <+: dst₃ := by
      refine List.IsPrefix.trans ?_ hpre₃
      rw [List.append_assoc _ (List.replicate (4 * _) _), List.replicate_append_replicate]
      refine (List.prefix_append_right_inj _).mpr ?_
      rw [show (n - 15) / 255 = 4 * ((n - 15) / 1020) + (n - 15) % 1020 / 255 by omega]
      refine (List.prefix_iff_eq_take.mpr ?_)
      rw [List.length_replicate, List.take_replicate]
      congr 1
      omega
    obtain ⟨dst₅, hlast, hpre₅, hlen₅⟩ := store_prefix [.ofNat ((n - 15) % 255)]
      (i := op + (n - 15) / 255) hpre₄
      (by rw [List.length_append, List.length_replicate, ← hop₁])
      (by rw [List.length_singleton]; omega)
    rw [if_pos hlong]
    simp only [hadd, lz4Write32, hstore, hwords, Option.bind_eq_bind, Option.bind_some]
    rw [show op + 4 * ((n - 15) / 1020) + (n - 15) % 1020 / 255 = op + (n - 15) / 255 by omega,
      show (n - 15) % 1020 % 255 = (n - 15) % 255 by omega, hlast, Option.bind_some]
    refine ⟨dst₅, ?_, ?_, by omega⟩
    · rw [hlength]
      rfl
    · rw [lengthBytes, if_neg (by omega), ← List.cons_append, ← List.append_assoc,
        ← List.append_assoc]
      exact hpre₅
  · obtain ⟨dst₁, hadd, hpre₁, hlen₁⟩ := addToken_spec _ h htoken n
    rw [show n = lengthCode n from (lengthCode_of_lt (by omega)).symm, tokenByte_add] at hpre₁
    rw [if_neg hlong, lengthBytes_of_lt (by omega), List.append_nil]
    simp only [hadd, Option.bind_eq_bind, Option.bind_some]
    exact ⟨dst₁, rfl, hpre₁, hlen₁⟩

end Lz4
end Inac
