import Inac.Lz4.Decompress

/-!
# What the decoder's copies amount to

The decoder copies literals in blocks of eight and writes past their end. It copies a match in blocks
of eight as well, after it has got away from an offset below eight with two tables. The front of
`dst` is the same as if every byte had been copied on its own.

All statements are about prefixes: a copy that is asked for `n` bytes leaves a buffer that begins
with what was there and the `n` bytes, and may leave anything behind. A copy that goes past its end
is then no other case than one that does not. The bytes of a match are `copyBack` of
`Inac.Lib.Copy`, the byte-by-byte copy from a place behind.

That the tables are right is a fact about multiples: the bytes of a match repeat with its offset, so
they may be taken from any multiple of the offset back as well, and the two tables lead to the
smallest one that is four, and then eight, or more (`tables_mul`).
-/

namespace Inac
namespace Lz4

open Lib

variable {out dst src : List UInt8} {d s e m n op offset length outputSize : Nat}

/-! ## Blocks of eight

One rule for both uses of `LZ4_wildCopy`: if each block makes the front eight bytes longer, the loop
makes it as long as it is to be. -/

/-- **Blocks grow the front.** `f n` is the front after `n` bytes. -/
theorem wildBlocks_grow {other : Option (List UInt8)} {f : Nat → List UInt8}
    (hmono : ∀ {m n}, m ≤ n → f m <+: f n)
    (hstep : ∀ n, n = 0 ∨ d + n < e → ∀ dst', f n <+: dst' → dst'.length = dst.length →
      ∃ dst'', memcpy dst' (d + n) (other.getD dst') (s + n) 8 = some dst'' ∧ f (n + 8) <+: dst'' ∧
        dst''.length = dst'.length)
    (fuel n : Nat) (hn : n = 0 ∨ d + n < e) (hfuel : e - (d + n) < fuel) (dst' : List UInt8)
    (hf : f n <+: dst') (hlen : dst'.length = dst.length) :
    ∃ dst'', wildBlocks other fuel dst' (d + n) (s + n) e = some dst'' ∧ f (e - d) <+: dst'' ∧
      dst''.length = dst.length := by
  induction fuel generalizing n dst' with
  | zero => exact absurd hfuel (Nat.not_lt_zero _)
  | succ fuel ih =>
    obtain ⟨dst₁, hcopy, hf₁, hlen₁⟩ := hstep n hn dst' hf hlen
    simp only [wildBlocks, Option.bind_eq_bind, hcopy, Option.bind_some]
    by_cases hmore : d + n + 8 < e
    · rw [if_pos hmore]
      exact ih (n + 8) (Or.inr hmore) (by omega) dst₁ hf₁ (hlen₁.trans hlen)
    · rw [if_neg hmore]
      exact ⟨dst₁, rfl, (hmono (by omega)).trans hf₁, hlen₁.trans hlen⟩

/-- **Literals.** -/
theorem lz4WildCopy_from (src : List UInt8) (h : out <+: dst) (hd : d = out.length)
    (hs : s + 8 ≤ src.length) (hse : s + (e - d) + 7 ≤ src.length) (hdst : d + 8 ≤ dst.length)
    (he : e + 7 ≤ dst.length) :
    ∃ dst', lz4WildCopy (some src) dst d s e = some dst' ∧
      out ++ (src.drop s).take (e - d) <+: dst' ∧ dst'.length = dst.length := by
  refine wildBlocks_grow (f := fun n => out ++ (src.drop s).take n) ?_ ?_ _ 0 (Or.inl rfl)
    (by omega) dst (by simpa using h) rfl
  · intro m n hmn
    exact (List.prefix_append_right_inj out).mpr (List.take_prefix_take_left hmn)
  · intro n hn dst' hf hlen
    have hfn : (out ++ (src.drop s).take n).length = d + n := by
      rw [List.length_append, List.length_take, List.length_drop, hd]
      omega
    obtain ⟨dst'', hcopy, hpre, hlen'⟩ := memcpy_prefix src (s + n) 8 hf
      hfn.symm (by omega) (by omega)
    refine ⟨dst'', hcopy, ?_, hlen'⟩
    rwa [List.append_assoc, ← List.drop_drop, ← List.take_add] at hpre

/-- **A match** that begins at least eight bytes back. -/
theorem lz4WildCopy_within (h : out <+: dst) (hd : d = out.length) (hs : s + 8 ≤ d)
    (hdst : d + 8 ≤ dst.length) (he : e + 7 ≤ dst.length) :
    ∃ dst', lz4WildCopy none dst d s e = some dst' ∧ copyBack (d - s) (e - d) out <+: dst' ∧
      dst'.length = dst.length := by
  refine wildBlocks_grow (f := fun n => copyBack (d - s) n out) (fun hmn => copyBack_mono _ hmn _)
    ?_ _ 0 (Or.inl rfl) (by omega) dst h rfl
  intro n hn dst' hf hlen
  have hfn : (copyBack (d - s) n out).length = d + n := by rw [length_copyBack, hd]
  obtain ⟨dst'', hcopy, hpre, hlen'⟩ := memcpy_copyBack (s := s + n) (n := 8) hf hfn.symm
    (by omega) (by omega)
  refine ⟨dst'', hcopy, ?_, hlen'⟩
  rwa [Nat.add_sub_add_right, ← copyBack_add] at hpre

/-! ## Single bytes -/

theorem copyBytes_copyBack (op m : Nat) (h : out <+: dst) (hop : op = out.length) (hm : m < op)
    (hdst : op + n ≤ dst.length) :
    ∃ dst', copyBytes n dst op m = some dst' ∧ copyBack (op - m) n out <+: dst' ∧
      dst'.length = dst.length := by
  induction n generalizing out dst op m with
  | zero => exact ⟨dst, rfl, h, rfl⟩
  | succ n ih =>
    obtain ⟨dst₁, hcopy, hpre, hlen⟩ := memcpy_copyBack (s := m) (n := 1) h hop (by omega)
      (by omega)
    obtain ⟨dst₂, hrest, hpre₂, hlen₂⟩ := ih (op + 1) (m + 1) hpre
      (by rw [length_copyBack, hop]) (by omega) (by omega)
    refine ⟨dst₂, ?_, ?_, hlen₂.trans hlen⟩
    · simp only [copyBytes, Option.bind_eq_bind, hcopy, Option.bind_some, hrest]
    · rwa [Nat.add_sub_add_right, ← copyBack_add, Nat.add_comm 1] at hpre₂

/-- A byte copied onto itself. -/
theorem memcpy_self (hop : op < dst.length) : memcpy dst op dst op 1 = some dst := by
  have htake : (dst.drop op).take 1 = [dst[op]] := by
    rw [List.drop_eq_getElem_cons hop, List.take_succ_cons, List.take_zero]
  rw [memcpy, load_eq hop, Option.bind_some, htake, store_eq hop, List.append_assoc,
    List.singleton_append, List.length_singleton, ← List.drop_eq_getElem_cons hop,
    List.take_append_drop]

theorem copyBytes_self (hop : op + n ≤ dst.length) : copyBytes n dst op op = some dst := by
  induction n generalizing op with
  | zero => rfl
  | succ n ih =>
    simp only [copyBytes, Option.bind_eq_bind, memcpy_self (show op < dst.length by omega),
      Option.bind_some]
    exact ih (by omega)

/-! ## The match

In two parts, as in the source: the first eight bytes with their tables, then the rest, which is
copied in blocks if there is room behind it and byte by byte at the end of the output. -/

/-- **The tables.** What is copied from goes to a multiple of the offset for the second four bytes,
    and to another one, of at least eight, for what follows. -/
theorem tables_mul : ∀ offset < 8, 0 < offset → ∃ j ≤ 3, ∃ k ≤ 7,
    4 + offset = inc32table.getD offset 0 + (j + 1) * offset ∧ j * offset ≤ 4 ∧
    4 ≤ (j + 1) * offset ∧ k * offset ≤ 8 ∧ 8 ≤ (k + 1) * offset ∧
    (inc32table.getD offset 0 : Int) - dec64table.getD offset 0 + ((k + 1) * offset : Nat) =
      8 + offset := by
  decide

/-- **The first eight bytes**, and from where the rest may be copied. The offset has been written to
    where the match begins. -/
theorem matchHead_copyBack (h : out ++ wordBytes 4 offset <+: dst) (hop : op = out.length)
    (hoff : offset ≤ op) (hdst : op + 8 ≤ dst.length) :
    ∃ m dst', matchHead dst op offset = some (m, dst') ∧ copyBack offset 8 out <+: dst' ∧
      dst'.length = dst.length ∧ m ≤ op ∧
      ∀ n, copyBack (op + 8 - m) n (copyBack offset 8 out) = copyBack offset (8 + n) out := by
  have hout : out <+: dst := (List.prefix_append ..).trans h
  have hplace : matchPlace op offset = some (op - offset) := if_pos hoff
  simp only [matchHead, Option.bind_eq_bind, hplace, Option.bind_some]
  by_cases hnear : offset < 8
  · rw [if_pos hnear]
    rcases Nat.eq_zero_or_pos offset with rfl | hpos
    · -- the bytes copied are those of the offset
      have hfour : copyBack 0 4 out <+: dst := by rwa [copyBack_none]
      obtain ⟨dst₁, hcopy, hpre, hlen⟩ := memcpy_copyBack (d := op + 4) (s := op) (n := 4) hfour
        (by rw [length_copyBack, hop]) (by rw [length_copyBack]; omega) (by omega)
      rw [Nat.add_sub_cancel_left, copyBack_none_add (by omega) (by omega)] at hpre
      refine ⟨op, dst₁, ?_, hpre, hlen, Nat.le_refl op, fun n => ?_⟩
      · simp [copyBytes_self (show op + 4 ≤ dst.length by omega), inc32table, dec64table, hcopy]
      · rw [Nat.add_sub_cancel_left, copyBack_none_add (Nat.le_refl 8) (by omega)]
    · obtain ⟨j, -, k, -, hinc, hj, hj4, hk, hk8, hdec⟩ := tables_mul offset hnear hpos
      obtain ⟨dst₁, hbytes, hpre₁, hlen₁⟩ := copyBytes_copyBack _ (op - offset) (n := 4) hout hop
        (by omega) (by omega)
      have hsub : op - (op - offset) = offset := Nat.sub_sub_self hoff
      rw [hsub] at hpre₁
      have hlen4 : (copyBack offset 4 out).length = op + 4 := by rw [length_copyBack, hop]
      obtain ⟨dst₂, hcopy, hpre₂, hlen₂⟩ := memcpy_copyBack (d := op + 4)
        (s := op - offset + inc32table.getD offset 0) (n := 4) hpre₁ hlen4.symm
        (by rw [hlen4]; omega) (by omega)
      rw [show op + 4 - (op - offset + inc32table.getD offset 0) = (j + 1) * offset by omega,
        copyBack_mul hpos (hop ▸ hoff) hj] at hpre₂
      generalize hm : (((op - offset + inc32table.getD offset 0 : Nat) : Int) -
        dec64table.getD offset 0).toNat = m
      have hplus : m + (k + 1) * offset = op + 8 := by
        rw [Nat.add_one_mul] at hdec ⊢
        omega
      refine ⟨m, dst₂, ?_, hpre₂, hlen₂.trans hlen₁, by omega, fun n => ?_⟩
      · simp only [hbytes, Option.bind_some, hcopy, ← hm]
      · rw [← copyBack_mul hpos (hop ▸ hoff) hk, ← hplus, Nat.add_sub_cancel_left]
  · rw [if_neg hnear]
    obtain ⟨dst₁, hcopy, hpre, hlen⟩ := memcpy_copyBack (s := op - offset) (n := 8) hout hop
      (by omega) (by omega)
    rw [Nat.sub_sub_self hoff] at hpre
    refine ⟨op - offset + 8, dst₁, ?_, hpre, hlen, by omega, fun n => ?_⟩
    · simp only [hcopy, Option.bind_some]
    · rw [Nat.add_sub_add_right, Nat.sub_sub_self hoff, copyBack_add]

/-- **The rest of the match**, copied as far as `cpy` if the last bytes of the output are left to
    literals. -/
theorem matchTail_copyBack (m length outputSize : Nat) (h : out <+: dst) (hop : op = out.length)
    (hm : m + 8 ≤ op) (hlen : 4 ≤ length) (hdst : outputSize ≤ dst.length)
    (hend : op ≤ outputSize) :
    ∃ r, matchTail outputSize dst op m length (op - 8 + length) = some r ∧
      if outputSize < op - 8 + length + 5 then r = none
      else ∃ dst', r = some dst' ∧ copyBack (op - m) (op - 8 + length - op) out <+: dst' ∧
        dst'.length = dst.length := by
  generalize hcpy : op - 8 + length = cpy
  by_cases hfull : outputSize < cpy + 5
  · refine ⟨none, ?_, by rw [if_pos hfull]⟩
    rw [matchTail, if_pos (by omega), if_pos hfull]
  simp only [if_neg hfull]
  rw [matchTail]
  -- Twelve bytes before the end of the output the blocks may not go past the match.
  by_cases hclose : outputSize < cpy + 12
  · rw [if_pos hclose, if_neg hfull]
    -- Blocks as far as they go, and single bytes from there on.
    by_cases hroom : op + 7 < outputSize
    · obtain ⟨dst₁, hwild, hpre₁, hlen₁⟩ := lz4WildCopy_within (s := m) (e := outputSize - 7) h hop hm
        (by omega) (by omega)
      obtain ⟨dst₂, hbytes, hpre₂, hlen₂⟩ := copyBytes_copyBack (outputSize - 7)
        (m + (outputSize - 7 - op)) (n := cpy - (outputSize - 7)) hpre₁
        (by rw [length_copyBack]; omega) (by omega) (by omega)
      rw [show outputSize - 7 - (m + (outputSize - 7 - op)) = op - m by omega, ← copyBack_add]
        at hpre₂
      refine ⟨some dst₂, ?_, dst₂, rfl, ?_, by omega⟩
      · simp only [if_pos hroom, Option.bind_eq_bind, hwild, Option.bind_some, hbytes]
      · exact (copyBack_mono _ (by omega) _).trans hpre₂
    · obtain ⟨dst₁, hbytes, hpre₁, hlen₁⟩ := copyBytes_copyBack _ m (n := cpy - op) h hop
        (by omega) (by omega)
      refine ⟨some dst₁, ?_, dst₁, rfl, hpre₁, by omega⟩
      simp only [if_neg hroom, Option.bind_eq_bind, hbytes, Option.bind_some]
  · rw [if_neg hclose]
    obtain ⟨dst₁, hcopy, hpre₁, hlen₁⟩ := memcpy_copyBack (s := m) (n := 8) h hop (by omega)
      (by omega)
    simp only [Option.bind_eq_bind, hcopy, Option.bind_some]
    -- Eight bytes were copied in any case; more are copied if the match is longer than sixteen.
    by_cases hlong : 16 < length
    · obtain ⟨dst₂, hwild, hpre₂, hlen₂⟩ := lz4WildCopy_within (d := op + 8) (s := m + 8) (e := cpy)
        hpre₁ (by rw [length_copyBack, hop]) (by omega) (by omega) (by omega)
      rw [Nat.add_sub_add_right, ← copyBack_add] at hpre₂
      refine ⟨some dst₂, ?_, dst₂, rfl, ?_, by omega⟩
      · simp only [if_pos hlong, hwild, Option.bind_some]
      · exact (copyBack_mono _ (by omega) _).trans hpre₂
    · refine ⟨some dst₁, ?_, dst₁, rfl, ?_, by omega⟩
      · simp only [if_neg hlong]
      · exact (copyBack_mono _ (by omega) _).trans hpre₁

end Lz4
end Inac
