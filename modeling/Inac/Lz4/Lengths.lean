import Inac.Lz4.Decompress

/-!
# Lengths

Four bits of a token hold a length up to fourteen. Fifteen says that more follows: bytes that are
added up, the last of which is the first one below 255. So every length is written in one way only,
and the two loops of the decoder read back what is written.

The two loops differ in when they stop for other reasons. The one for literals does not go on if
fewer than fifteen bytes of the input are left, and the one for matches finds an error if it gets
into the last five. So there are three kinds of lemmas for each: what has been read if the loop
stops (`_read`), that a length which is written is read back (`_of_prefix`), and that the loop stops
at all within the bytes that are there (`_some`).
-/

namespace Inac
namespace Lz4

open Lib

/-- The bytes that follow a token for the length `n`. -/
def lengthBytes (n : Nat) : List UInt8 :=
  if n < 15 then [] else List.replicate ((n - 15) / 255) 255 ++ [.ofNat ((n - 15) % 255)]

/-- The four bits of the token. -/
def lengthCode (n : Nat) : Nat := min n 15

theorem lengthCode_lt (n : Nat) : lengthCode n < 16 := by
  rw [lengthCode]
  omega

theorem lengthCode_of_lt {n : Nat} (h : n < 15) : lengthCode n = n := Nat.min_eq_left (by omega)

theorem lengthCode_of_le {n : Nat} (h : 15 ≤ n) : lengthCode n = 15 := Nat.min_eq_right h

/-- A token: the length of the literals above, that of the match below. -/
def tokenByte (hi lo : Nat) : UInt8 := .ofNat (16 * lengthCode hi + lengthCode lo)

/-- The two codes are the two halves of the token, so each can be read back. -/
theorem tokenByte_toNat (hi lo : Nat) :
    (tokenByte hi lo).toNat = 16 * lengthCode hi + lengthCode lo := by
  have := lengthCode_lt hi
  have := lengthCode_lt lo
  rw [tokenByte, UInt8.toNat_ofNat']
  omega

theorem tokenByte_div (hi lo : Nat) : (tokenByte hi lo).toNat / 2 ^ 4 = lengthCode hi := by
  have := lengthCode_lt lo
  rw [tokenByte_toNat]
  omega

theorem tokenByte_mod (hi lo : Nat) : (tokenByte hi lo).toNat % 2 ^ 4 = lengthCode lo := by
  have := lengthCode_lt lo
  rw [tokenByte_toNat]
  omega

/-- A byte is the token of its two halves. -/
theorem eq_tokenByte {b : UInt8} {hi lo : Nat} (hhi : b.toNat / 2 ^ 4 = lengthCode hi)
    (hlo : b.toNat % 2 ^ 4 = lengthCode lo) : b = tokenByte hi lo := by
  have := tokenByte_toNat hi lo
  refine UInt8.toNat_inj.mp ?_
  omega

theorem lengthBytes_of_lt {n : Nat} (h : n < 15) : lengthBytes n = [] := if_pos h

/-- The bytes of a length from 15 on: a run of 255 and one byte that is less. -/
theorem lengthBytes_run (k : Nat) {b : UInt8} (hb : b ≠ 255) :
    lengthBytes (15 + 255 * k + b.toNat) = List.replicate k 255 ++ [b] := by
  have hlt : b.toNat < 255 := by
    have hle : b.toNat < 256 := b.toNat_lt
    have hne : b.toNat ≠ 255 := fun h => hb (UInt8.toNat_inj.mp h)
    omega
  have hdiv : (15 + 255 * k + b.toNat - 15) / 255 = k := by omega
  have hmod : (15 + 255 * k + b.toNat - 15) % 255 = b.toNat := by omega
  rw [lengthBytes, if_neg (by omega), hdiv, hmod, UInt8.ofNat_toNat]

/-- Every length from fifteen on is a run of 255 and a byte below. -/
theorem exists_run {n : Nat} (h : 15 ≤ n) :
    ∃ k, ∃ b : UInt8, b ≠ 255 ∧ n = 15 + 255 * k + b.toNat ∧
      lengthBytes n = List.replicate k 255 ++ [b] := by
  have hlt : (n - 15) % 255 < 255 := Nat.mod_lt _ (by decide)
  have hnat : (UInt8.ofNat ((n - 15) % 255)).toNat = (n - 15) % 255 := by
    rw [UInt8.toNat_ofNat']
    omega
  refine ⟨(n - 15) / 255, .ofNat ((n - 15) % 255), fun he => ?_, ?_, if_neg (by omega)⟩
  · rw [he] at hnat
    change 255 = (n - 15) % 255 at hnat
    omega
  · rw [hnat]
    omega

/-- How many bytes a length takes beside its code. -/
theorem length_lengthBytes (n : Nat) :
    (lengthBytes n).length = if n < 15 then 0 else (n - 15) / 255 + 1 := by
  rw [lengthBytes]
  split <;> simp

/-! ## Reading a byte

The input is looked at through `src.drop ip`, as what is written there is a prefix of it. -/

variable {D : Directives} {src : List UInt8} {srcSize ip ip' fuel length length' token : Nat}

theorem drop_of_getElem? {b : UInt8} (h : src[ip]? = some b) :
    src.drop ip = b :: src.drop (ip + 1) := by
  obtain ⟨hlt, rfl⟩ := List.getElem?_eq_some_iff.mp h
  exact List.drop_eq_getElem_cons hlt

theorem getElem?_of_prefix {b : UInt8} {bs : List UInt8} (h : b :: bs <+: src.drop ip) :
    src[ip]? = some b ∧ bs <+: src.drop (ip + 1) := by
  obtain ⟨rest, hrest⟩ := h
  have hb : (src.drop ip)[0]? = some b := by rw [← hrest]; rfl
  rw [List.getElem?_drop, Nat.add_zero] at hb
  rw [drop_of_getElem? hb] at hrest
  exact ⟨hb, rest, (List.cons.inj hrest).2⟩

/-- What is read in two pieces: the second one begins behind the first. -/
theorem prefix_drop_add {a b : List UInt8} (h : a ++ b <+: src.drop ip) :
    a <+: src.drop ip ∧ b <+: src.drop (ip + a.length) := by
  obtain ⟨rest, hrest⟩ := h
  refine ⟨⟨b ++ rest, by rw [← List.append_assoc, hrest]⟩, rest, ?_⟩
  rw [← List.drop_drop, ← hrest, List.append_assoc, List.drop_left]

theorem append_prefix_drop {a b : List UInt8} (ha : a <+: src.drop ip)
    (hb : b <+: src.drop (ip + a.length)) : a ++ b <+: src.drop ip := by
  obtain ⟨rest, hrest⟩ := ha
  rw [← List.drop_drop, ← hrest, List.drop_left] at hb
  rw [← hrest]
  exact (List.prefix_append_right_inj a).mpr hb

theorem prefix_drop_length {a : List UInt8} (h : a <+: src.drop ip) (hne : a ≠ []) :
    ip + a.length ≤ src.length := by
  have hle := h.length_le
  have hpos := List.length_pos_iff.mpr hne
  rw [List.length_drop] at hle
  omega

theorem load_of_prefix {a : List UInt8} (h : a <+: src.drop ip) (hip : ip ≤ src.length) :
    load src ip a.length = some a := by
  have hle := h.length_le
  rw [List.length_drop] at hle
  rw [load_eq (by omega), List.prefix_iff_eq_take.mp h |>.symm]

/-- A load shows the bytes at its place, all inside of the input. -/
theorem prefix_of_load {a : List UInt8} {n : Nat} (h : load src ip n = some a) :
    a <+: src.drop ip ∧ a.length = n ∧ ip + n ≤ src.length := by
  rw [load] at h
  split at h
  · cases Option.some.inj h
    refine ⟨List.take_prefix .., ?_, ‹_›⟩
    rw [List.length_take, List.length_drop]
    omega
  · cases h

/-! ## The literals

The loop may stop at a byte of 255 when the input is nearly over. That length is not one that is
written like this, and the check for the end of the block notices it later. -/

/-- **What the loop has read** when it stops: bytes of 255, and one that is less or is the last one
    that the loop looks at. -/
theorem literalBytes_read (h : literalBytes D src srcSize fuel ip length = some (ip', length')) :
    ∃ k, ∃ b : UInt8, List.replicate k 255 ++ [b] <+: src.drop ip ∧ ip' = ip + k + 1 ∧
      length' = length + 255 * k + b.toNat ∧
      (b = 255 → D.endOnInput = true ∧ srcSize ≤ ip' + 15) ∧
      (0 < k → D.endOnInput = true → ip + k + 15 < srcSize) := by
  induction fuel generalizing ip length with
  | zero => cases h
  | succ fuel ih =>
    rw [literalBytes, Option.bind_eq_bind] at h
    obtain ⟨b, hb, h⟩ := Option.bind_eq_some_iff.mp h
    split at h
    case isTrue hgo =>
      obtain ⟨hmore, rfl⟩ := hgo
      obtain ⟨k, c, hpre, rfl, rfl, hc, hk⟩ := ih h
      refine ⟨k + 1, c, ?_, by omega, ?_, hc, fun _ hE => ?_⟩
      · rw [drop_of_getElem? hb, List.replicate_succ, List.cons_append]
        exact List.cons_prefix_cons.mpr ⟨rfl, hpre⟩
      · change length + 255 + 255 * k + c.toNat = length + 255 * (k + 1) + c.toNat
        omega
      · -- The bytes after the first are counted from one further on.
        rcases Nat.eq_zero_or_pos k with rfl | hpos
        · exact hmore hE
        · have := hk hpos hE
          omega
    case isFalse hstop =>
      cases Option.some.inj h
      refine ⟨0, b, ?_, rfl, rfl, fun hb => ?_, fun h => absurd h (Nat.lt_irrefl 0)⟩
      · rw [drop_of_getElem? hb]
        exact ⟨_, rfl⟩
      · simp only [hb, and_true, Classical.not_imp, Nat.not_lt] at hstop
        exact ⟨hstop.1, hstop.2⟩

/-- **A length is read back**, if the literals that it counts are there. -/
theorem literalBytes_of_prefix {k : Nat} {b : UInt8} (hb : b ≠ 255) (hfuel : k < fuel)
    (hpre : List.replicate k 255 ++ [b] <+: src.drop ip)
    (hroom : D.endOnInput = true → 0 < k → ip + k + 15 < srcSize) :
    literalBytes D src srcSize fuel ip length = some (ip + k + 1, length + 255 * k + b.toNat) := by
  induction fuel generalizing ip length k with
  | zero => exact absurd hfuel (Nat.not_lt_zero _)
  | succ fuel ih =>
    rw [literalBytes, Option.bind_eq_bind]
    cases k with
    | zero =>
      -- The byte below 255: the loop stops.
      obtain ⟨hget, -⟩ := getElem?_of_prefix hpre
      rw [hget, Option.bind_some, if_neg fun h => hb h.2]
      rfl
    | succ k =>
      rw [List.replicate_succ, List.cons_append] at hpre
      obtain ⟨hget, hpre⟩ := getElem?_of_prefix hpre
      rw [hget, Option.bind_some, if_pos ⟨fun hE => by have := hroom hE (Nat.succ_pos k); omega, rfl⟩,
        ih (Nat.lt_of_succ_lt_succ hfuel) hpre fun hE _ => by
          have := hroom hE (Nat.succ_pos k)
          omega]
      congr 2
      · omega
      · change length + 255 + 255 * k + b.toNat = length + 255 * (k + 1) + b.toNat
        omega

/-- The loop ends, if there is a byte to look at. -/
theorem literalBytes_some (hE : D.endOnInput = true) (hsrc : srcSize ≤ src.length)
    (hip : ip < src.length) (hfuel : src.length < fuel + ip) :
    (literalBytes D src srcSize fuel ip length).isSome := by
  induction fuel generalizing ip length with
  | zero => omega
  | succ fuel ih =>
    rw [literalBytes, List.getElem?_eq_getElem hip, Option.bind_eq_bind, Option.bind_some]
    split
    case isTrue hgo =>
      have := hgo.1 hE
      exact ih (by omega) (by omega)
    case isFalse => rfl

/-- A literal length that was read stands there as the format has it. -/
theorem literalLength_read (htoken : token < 256)
    (h : literalLength D src srcSize token ip = some (ip', length))
    (hsize : ip' + length ≤ srcSize) :
    lengthBytes length <+: src.drop ip ∧ ip' = ip + (lengthBytes length).length ∧
      token / 2 ^ 4 = lengthCode length := by
  rw [literalLength] at h
  split at h
  case isTrue hlong =>
    obtain ⟨k, b, hpre, hip, rfl, hb, -⟩ := literalBytes_read h
    have hne : b ≠ 255 := by
      rintro rfl
      have hlast := (hb rfl).2
      have hnat : (255 : UInt8).toNat = 255 := rfl
      omega
    rw [lengthBytes_run k hne, lengthCode_of_le (by omega)]
    refine ⟨hpre, ?_, hlong⟩
    simp only [List.length_append, List.length_replicate, List.length_singleton]
    omega
  case isFalse hshort =>
    cases Option.some.inj h
    rw [lengthBytes_of_lt (by omega), lengthCode_of_lt (by omega)]
    exact ⟨List.nil_prefix, rfl, rfl⟩

/-- And the length that stands there is read, if the input goes on far enough behind it. -/
theorem literalLength_of_prefix (htoken : token / 2 ^ 4 = lengthCode length)
    (hpre : lengthBytes length <+: src.drop ip)
    (hroom : D.endOnInput = true → ip + (lengthBytes length).length + 15 ≤ srcSize ∨ length < 15) :
    literalLength D src srcSize token ip = some (ip + (lengthBytes length).length, length) := by
  rw [literalLength, htoken]
  rcases Nat.lt_or_ge length 15 with hshort | hlong
  · rw [lengthCode_of_lt hshort, if_neg (by omega), lengthBytes_of_lt hshort]
    rfl
  · obtain ⟨k, b, hb, hn, hbytes⟩ := exists_run hlong
    rw [hbytes] at hpre hroom ⊢
    simp only [List.length_append, List.length_replicate, List.length_singleton] at hroom ⊢
    have hfit := prefix_drop_length hpre (by simp)
    simp only [List.length_append, List.length_replicate, List.length_singleton] at hfit
    rw [lengthCode_of_le hlong, if_pos rfl, literalBytes_of_prefix hb (by omega) hpre fun hE _ => by
      have := hroom hE
      omega]
    rw [hn, Nat.add_assoc]

/-- Where the literals begin, whatever has been read. -/
theorem literalLength_le (hE : D.endOnInput = true)
    (h : literalLength D src srcSize token ip = some (ip', length)) :
    ip' ≤ ip + 1 ∨ ip' ≤ srcSize := by
  rw [literalLength] at h
  split at h
  case isTrue =>
    obtain ⟨k, -, -, rfl, -, -, hk⟩ := literalBytes_read h
    rcases Nat.eq_zero_or_pos k with rfl | hpos
    · exact Or.inl (Nat.le_refl _)
    · have := hk hpos hE
      omega
  case isFalse =>
    cases Option.some.inj h
    exact Or.inl (Nat.le_succ _)

/-- The decoder that ends on the input does not read outside of it here. -/
theorem literalLength_some (token : Nat) (hE : D.endOnInput = true) (hsrc : srcSize ≤ src.length)
    (hip : ip < src.length) : (literalLength D src srcSize token ip).isSome := by
  rw [literalLength]
  split
  · exact literalBytes_some hE hsrc hip (by omega)
  · rfl

/-! ## The match

The error of this loop has a place, one behind the byte that should not have been there. -/

theorem matchBytes_read (h : matchBytes D src srcSize fuel ip length = some (.ok (ip', length'))) :
    ∃ k, ∃ b : UInt8, b ≠ 255 ∧ List.replicate k 255 ++ [b] <+: src.drop ip ∧ ip' = ip + k + 1 ∧
      length' = length + 255 * k + b.toNat ∧ (D.endOnInput = true → ip' + 5 ≤ srcSize) := by
  induction fuel generalizing ip length with
  | zero => cases h
  | succ fuel ih =>
    rw [matchBytes, Option.bind_eq_bind] at h
    obtain ⟨b, hb, h⟩ := Option.bind_eq_some_iff.mp h
    split at h
    case isTrue => cases h
    case isFalse hroom =>
    split at h
    case isTrue hgo =>
      subst hgo
      obtain ⟨k, c, hc, hpre, rfl, rfl, hfit⟩ := ih h
      refine ⟨k + 1, c, hc, ?_, by omega, ?_, hfit⟩
      · rw [drop_of_getElem? hb, List.replicate_succ, List.cons_append]
        exact List.cons_prefix_cons.mpr ⟨rfl, hpre⟩
      · change length + 255 + 255 * k + c.toNat = length + 255 * (k + 1) + c.toNat
        omega
    case isFalse hstop =>
      cases Option.some.inj h
      refine ⟨0, b, hstop, ?_, rfl, rfl, fun hE => ?_⟩
      · rw [drop_of_getElem? hb]
        exact ⟨_, rfl⟩
      · simpa [hE] using hroom

theorem matchBytes_of_prefix {k : Nat} {b : UInt8} (hb : b ≠ 255) (hfuel : k < fuel)
    (hpre : List.replicate k 255 ++ [b] <+: src.drop ip)
    (hroom : D.endOnInput = true → ip + k + 1 + 5 ≤ srcSize) :
    matchBytes D src srcSize fuel ip length =
      some (.ok (ip + k + 1, length + 255 * k + b.toNat)) := by
  induction fuel generalizing ip length k with
  | zero => exact absurd hfuel (Nat.not_lt_zero _)
  | succ fuel ih =>
    rw [matchBytes, Option.bind_eq_bind]
    -- The last five bytes are not reached.
    have hclose : ¬ (D.endOnInput = true ∧ srcSize < ip + 1 + 5) := fun h => by
      have := hroom h.1
      omega
    cases k with
    | zero =>
      obtain ⟨hget, -⟩ := getElem?_of_prefix hpre
      rw [hget, Option.bind_some, if_neg hclose, if_neg hb]
      rfl
    | succ k =>
      rw [List.replicate_succ, List.cons_append] at hpre
      obtain ⟨hget, hpre⟩ := getElem?_of_prefix hpre
      rw [hget, Option.bind_some, if_neg hclose, if_pos rfl,
        ih (Nat.lt_of_succ_lt_succ hfuel) hpre fun hE => by
          have := hroom hE
          omega]
      congr 3
      · omega
      · change length + 255 + 255 * k + b.toNat = length + 255 * (k + 1) + b.toNat
        omega

/-- The loop ends, and where it says that there is an error it has read no further than to the end. -/
theorem matchBytes_some (hE : D.endOnInput = true) (hsrc : srcSize ≤ src.length)
    (hip : ip < srcSize) (hfuel : src.length < fuel + ip) :
    ∃ r, matchBytes D src srcSize fuel ip length = some r ∧ ∀ ip', r = .error ip' → ip' ≤ srcSize := by
  induction fuel generalizing ip length with
  | zero => omega
  | succ fuel ih =>
    rw [matchBytes, List.getElem?_eq_getElem (by omega), Option.bind_eq_bind, Option.bind_some]
    split
    case isTrue =>
      refine ⟨_, rfl, fun ip' h => ?_⟩
      cases Except.error.inj h
      exact hip
    case isFalse hroom =>
    simp only [hE, true_and, Nat.not_lt] at hroom
    split
    case isTrue => exact ih (by omega) (by omega)
    case isFalse => exact ⟨_, rfl, fun ip' h => by cases h⟩

/-- A match length that was read stands there as the format has it. -/
theorem matchLength_read
    (h : matchLength D src srcSize token ip = some (.ok (ip', length))) :
    lengthBytes length <+: src.drop ip ∧ ip' = ip + (lengthBytes length).length ∧
      token % 2 ^ 4 = lengthCode length ∧
      (D.endOnInput = true → ip' + 5 ≤ srcSize ∨ ip' = ip) := by
  rw [matchLength] at h
  split at h
  case isTrue hlong =>
    obtain ⟨k, b, hb, hpre, hip, rfl, hfit⟩ := matchBytes_read h
    rw [lengthBytes_run k hb, lengthCode_of_le (by omega)]
    refine ⟨hpre, ?_, hlong, fun h => ?_⟩
    · simp only [List.length_append, List.length_replicate, List.length_singleton]
      omega
    · exact Or.inl (hfit h)
  case isFalse hshort =>
    cases Except.ok.inj (Option.some.inj h)
    rw [lengthBytes_of_lt (by omega), lengthCode_of_lt (by omega)]
    exact ⟨List.nil_prefix, rfl, rfl, fun _ => Or.inr rfl⟩

/-- And one that stands there is read. -/
theorem matchLength_of_prefix (htoken : token % 2 ^ 4 = lengthCode length)
    (hpre : lengthBytes length <+: src.drop ip)
    (hroom : D.endOnInput = true → ip + (lengthBytes length).length + 5 ≤ srcSize) :
    matchLength D src srcSize token ip = some (.ok (ip + (lengthBytes length).length, length)) := by
  rw [matchLength, htoken]
  rcases Nat.lt_or_ge length 15 with hshort | hlong
  · rw [lengthCode_of_lt hshort, if_neg (by omega), lengthBytes_of_lt hshort]
    rfl
  · obtain ⟨k, b, hb, hn, hbytes⟩ := exists_run hlong
    rw [hbytes] at hpre hroom ⊢
    simp only [List.length_append, List.length_replicate, List.length_singleton] at hroom ⊢
    have hfit := prefix_drop_length hpre (by simp)
    simp only [List.length_append, List.length_replicate, List.length_singleton] at hfit
    rw [lengthCode_of_le hlong, if_pos rfl, matchBytes_of_prefix hb (by omega) hpre fun hE => by
      have := hroom hE
      omega]
    rw [hn, Nat.add_assoc]

theorem matchLength_some (token : Nat) (hE : D.endOnInput = true) (hsrc : srcSize ≤ src.length)
    (hip : ip < srcSize) :
    ∃ r, matchLength D src srcSize token ip = some r ∧ ∀ ip', r = .error ip' → ip' ≤ srcSize := by
  rw [matchLength]
  split
  · exact matchBytes_some hE hsrc hip (by omega)
  · exact ⟨_, rfl, fun ip' h => by cases h⟩

end Lz4
end Inac
