import Mathlib.Data.Nat.Bitwise
import Inac.Base64.Defs

/-!
# Base64 round trip

Between the encoder's index arithmetic and the decoder's shift register stands the base64 text of
the data, three bytes a group (`text`): the encoder writes it, the decoder reads it. Both halves
are an induction over the groups with the same three ends, and each group is arithmetic on four
numbers below 64.
-/

namespace Inac
namespace Base64

/-! ## The text

Numbers of six bits first, and then the characters that stand for them. -/

/-- The data six bits at a time; a last group of one or two bytes is filled up with zero bits. -/
def sextets : List UInt8 → List Nat
  | [] => []
  | [a] => [a.toNat / 4, a.toNat % 4 * 16]
  | [a, b] => [a.toNat / 4, a.toNat % 4 * 16 + b.toNat / 16, b.toNat % 16 * 4]
  | a :: b :: c :: rest =>
    a.toNat / 4 :: (a.toNat % 4 * 16 + b.toNat / 16) :: (b.toNat % 16 * 4 + c.toNat / 64) ::
      c.toNat % 64 :: sextets rest

/-- The character of six bits. -/
def char (v : Nat) : UInt8 := base64chars.getD v 0

/-- The padding that makes the text whole groups of four. -/
def padding (data : List UInt8) : List UInt8 := List.replicate ((3 - data.length % 3) % 3) equals

/-- The base64 text of the data. -/
def text (data : List UInt8) : List UInt8 := (sextets data).map char ++ padding data

theorem sextets_lt (data : List UInt8) : ∀ v ∈ sextets data, v < 64 := by
  induction data using sextets.induct with
  | case1 => intro v hv; exact absurd hv List.not_mem_nil
  | case2 a =>
    have ha := a.toNat_lt
    intro v hv
    simp only [sextets, List.mem_cons, List.not_mem_nil, or_false] at hv
    omega
  | case3 a b =>
    have ha := a.toNat_lt
    have hb := b.toNat_lt
    intro v hv
    simp only [sextets, List.mem_cons, List.not_mem_nil, or_false] at hv
    omega
  | case4 a b c rest ih =>
    have ha := a.toNat_lt
    have hb := b.toNat_lt
    have hc := c.toNat_lt
    intro v hv
    simp only [sextets, List.mem_cons] at hv
    rcases hv with hv | hv | hv | hv | hv
    · omega
    · omega
    · omega
    · omega
    · exact ih v hv

theorem length_sextets (data : List UInt8) :
    (sextets data).length + (3 - data.length % 3) % 3 = 4 * ((data.length + 2) / 3) := by
  induction data using sextets.induct with
  | case1 => rfl
  | case2 a => simp only [sextets, List.length_cons, List.length_nil]
  | case3 a b => simp only [sextets, List.length_cons, List.length_nil]
  | case4 a b c rest ih =>
    simp only [sextets, List.length_cons]
    omega

theorem length_text (data : List UInt8) : (text data).length = 4 * ((data.length + 2) / 3) := by
  rw [text, padding, List.length_append, List.length_map, List.length_replicate, length_sextets]

theorem char_mem {v : Nat} (hv : v < 64) : char v ∈ base64chars := by
  have hlen : v < base64chars.length := hv
  rw [char, List.getD_eq_getElem _ _ hlen]
  exact List.getElem_mem hlen

/-! ## Encoding

The loop over the index writes one group after the other. -/

theorem sextet_eq (v : Nat) : sextet v = char (v % 64) := by
  rw [sextet, char, show (63 : Nat) = 2 ^ 6 - 1 from rfl, Nat.and_two_pow_sub_one_eq_mod,
    Nat.mod_mod_of_dvd _ (show 2 ^ 6 ∣ 256 from ⟨4, rfl⟩)]
  rfl

/-- Characters written one after the other: all of them when there is room, and as many as there is
    room for when not. -/
theorem foldlM_put {resultSize : Nat} (cs : List UInt8) :
    ∀ result : List UInt8, result.length ≤ resultSize →
      cs.foldlM (put resultSize) result =
        if result.length + cs.length ≤ resultSize then .ok (result ++ cs)
        else .error (.bufferTooSmall, (result ++ cs).take resultSize) := by
  induction cs with
  | nil =>
    intro result h
    rw [List.length_nil, Nat.add_zero, if_pos h, List.append_nil]
    rfl
  | cons c cs ih =>
    intro result h
    rw [List.foldlM_cons, put, List.length_cons]
    by_cases hfull : result.length ≥ resultSize
    · rw [if_pos hfull, if_neg (by omega), List.take_append_of_le_length hfull,
        List.take_of_length_le h]
      rfl
    · rw [if_neg hfull]
      show cs.foldlM (put resultSize) (result ++ [c]) = _
      rw [ih _ (by rw [List.length_append, List.length_singleton]; omega), List.length_append,
        List.length_singleton, List.append_assoc, List.singleton_append, Nat.add_assoc,
        Nat.add_comm 1]

/-- The characters the loop's body writes at index `x`. -/
def groupAt (data : List UInt8) (x : Nat) : List UInt8 :=
  let n := (data.getD x 0).toNat <<< 16
  let n := if x + 1 < data.length then n + (data.getD (x + 1) 0).toNat <<< 8 else n
  let n := if x + 2 < data.length then n + (data.getD (x + 2) 0).toNat else n
  [sextet (n >>> 18), sextet (n >>> 12)] ++
    (if x + 1 < data.length then [sextet (n >>> 6)] else []) ++
    (if x + 2 < data.length then [sextet n] else [])

theorem encodeGroup_eq (data : List UInt8) (resultSize : Nat) (result : List UInt8) (x : Nat) :
    encodeGroup data resultSize result x = (groupAt data x).foldlM (put resultSize) result := by
  unfold encodeGroup groupAt
  by_cases h1 : x + 1 < data.length
  · by_cases h2 : x + 2 < data.length
    · simp only [if_pos h1, if_pos h2, List.cons_append, List.nil_append, List.foldlM_cons,
        List.foldlM_nil, bind_pure]
    · simp only [if_pos h1, if_neg h2, List.cons_append, List.nil_append, List.foldlM_cons,
        List.foldlM_nil, bind_pure]
  · have h2 : ¬ x + 2 < data.length := by omega
    simp only [if_neg h1, if_neg h2, List.cons_append, List.nil_append, List.foldlM_cons,
      List.foldlM_nil, bind_pure]

theorem group_sextets {a b c : Nat} (ha : a < 256) (hb : b < 256) (hc : c < 256) :
    (a <<< 16 + b <<< 8 + c) >>> 18 % 64 = a / 4 ∧
    (a <<< 16 + b <<< 8 + c) >>> 12 % 64 = a % 4 * 16 + b / 16 ∧
    (a <<< 16 + b <<< 8 + c) >>> 6 % 64 = b % 16 * 4 + c / 64 ∧
    (a <<< 16 + b <<< 8 + c) % 64 = c % 64 := by
  simp only [Nat.shiftRight_eq_div_pow, Nat.shiftLeft_eq]
  omega

theorem getD_append (pre rest : List UInt8) (i : Nat) :
    (pre ++ rest).getD (pre.length + i) 0 = rest.getD i 0 := by
  rw [List.getD_append_right _ _ _ _ (Nat.le_add_right _ _), Nat.add_sub_cancel_left]

theorem groupAt_one (pre : List UInt8) (a : UInt8) :
    groupAt (pre ++ [a]) pre.length = (sextets [a]).map char := by
  obtain ⟨h0, h1, -, -⟩ := group_sextets a.toNat_lt (Nat.two_pow_pos 8) (Nat.two_pow_pos 8)
  simp only [Nat.zero_shiftLeft, Nat.add_zero, Nat.zero_div] at h0 h1
  have hlen : (pre ++ [a]).length = pre.length + 1 := List.length_append
  have hb : ¬ pre.length + 1 < (pre ++ [a]).length := by omega
  have hc : ¬ pre.length + 2 < (pre ++ [a]).length := by omega
  have ha := getD_append pre [a] 0
  rw [Nat.add_zero, List.getD_cons_zero] at ha
  simp only [groupAt, if_neg hb, if_neg hc, ha, sextet_eq, h0, h1, List.append_nil, sextets,
    List.map_cons, List.map_nil]

theorem groupAt_two (pre : List UInt8) (a b : UInt8) :
    groupAt (pre ++ [a, b]) pre.length = (sextets [a, b]).map char := by
  obtain ⟨h0, h1, h2, -⟩ := group_sextets a.toNat_lt b.toNat_lt (Nat.two_pow_pos 8)
  simp only [Nat.add_zero, Nat.zero_div] at h0 h1 h2
  have hlen : (pre ++ [a, b]).length = pre.length + 2 := List.length_append
  have hb : pre.length + 1 < (pre ++ [a, b]).length := by omega
  have hc : ¬ pre.length + 2 < (pre ++ [a, b]).length := by omega
  have ha := getD_append pre [a, b] 0
  rw [Nat.add_zero, List.getD_cons_zero] at ha
  simp only [groupAt, if_pos hb, if_neg hc, ha, getD_append, List.getD_cons_succ,
    List.getD_cons_zero, sextet_eq, h0, h1, h2, List.append_nil, List.cons_append, List.nil_append,
    sextets, List.map_cons, List.map_nil]

theorem groupAt_three (pre : List UInt8) (a b c : UInt8) (rest : List UInt8) :
    groupAt (pre ++ a :: b :: c :: rest) pre.length = (sextets [a, b, c]).map char := by
  obtain ⟨h0, h1, h2, h3⟩ := group_sextets a.toNat_lt b.toNat_lt c.toNat_lt
  have hlen : (pre ++ a :: b :: c :: rest).length = pre.length + (rest.length + 3) :=
    List.length_append
  have hb : pre.length + 1 < (pre ++ a :: b :: c :: rest).length := by omega
  have hc : pre.length + 2 < (pre ++ a :: b :: c :: rest).length := by omega
  have ha := getD_append pre (a :: b :: c :: rest) 0
  rw [Nat.add_zero, List.getD_cons_zero] at ha
  simp only [groupAt, if_pos hb, if_pos hc, ha, getD_append, List.getD_cons_succ,
    List.getD_cons_zero, sextet_eq, h0, h1, h2, h3, List.cons_append, List.nil_append, sextets,
    List.map_cons, List.map_nil]

/-- The loop from an index on writes the characters of the bytes from there on. -/
theorem encodeLoop_eq (resultSize : Nat) (rest : List UInt8) :
    ∀ pre result : List UInt8,
      (List.range' pre.length ((rest.length + 2) / 3) 3).foldlM
          (encodeGroup (pre ++ rest) resultSize) result =
        ((sextets rest).map char).foldlM (put resultSize) result := by
  induction rest using sextets.induct with
  | case1 => intro pre result; rfl
  | case2 a =>
    intro pre result
    have hk : ([a].length + 2) / 3 = 1 := by simp only [List.length_cons, List.length_nil]
    rw [hk, List.range'_one, List.foldlM_cons, encodeGroup_eq, groupAt_one]
    exact bind_pure _
  | case3 a b =>
    intro pre result
    have hk : ([a, b].length + 2) / 3 = 1 := by simp only [List.length_cons, List.length_nil]
    rw [hk, List.range'_one, List.foldlM_cons, encodeGroup_eq, groupAt_two]
    exact bind_pure _
  | case4 a b c rest ih =>
    intro pre result
    have hk : ((a :: b :: c :: rest).length + 2) / 3 = (rest.length + 2) / 3 + 1 := by
      simp only [List.length_cons]
      omega
    have hsplit : sextets (a :: b :: c :: rest) = sextets [a, b, c] ++ sextets rest := rfl
    rw [hk, List.range'_succ, List.foldlM_cons, encodeGroup_eq, groupAt_three, hsplit,
      List.map_append, List.foldlM_append]
    congr 1
    funext r
    have h := ih (pre ++ [a, b, c]) r
    rw [List.length_append, List.append_assoc] at h
    exact h

theorem putPadding_eq (resultSize : Nat) (data result : List UInt8) :
    putPadding resultSize result (data.length % 3) =
      (padding data).foldlM (put resultSize) result := by
  unfold putPadding
  by_cases hpad : data.length % 3 > 0
  · have hcount : (3 - data.length % 3) % 3 = 3 - data.length % 3 := Nat.mod_eq_of_lt (by omega)
    rw [if_pos hpad, padding, hcount, ← List.foldlM_map (f := fun _ => equals), List.map_const',
      List.length_range']
  · have hzero : data.length % 3 = 0 := by omega
    rw [if_neg hpad, padding, hzero]
    rfl

/-- **The encoder.** It writes the text of the data and a NUL, as far as there is room. -/
theorem inaUtilBase64EncodeChunk_eq (data : List UInt8) (resultSize : Nat) :
    inaUtilBase64EncodeChunk (some data) (some resultSize) =
      if (text data).length + 1 ≤ resultSize then .ok (text data ++ [0])
      else .error (.bufferTooSmall, (text data ++ [0]).take resultSize) := by
  have hputs : inaUtilBase64EncodeChunk (some data) (some resultSize) =
      (text data ++ [0]).foldlM (put resultSize) [] := by
    have hloop := encodeLoop_eq resultSize data [] []
    rw [List.nil_append, List.length_nil] at hloop
    simp only [inaUtilBase64EncodeChunk, putPadding_eq, hloop, text, List.foldlM_append,
      List.foldlM_cons, List.foldlM_nil, bind_pure, bind_assoc]
  rw [hputs, foldlM_put _ _ (Nat.zero_le _), List.length_nil, Nat.zero_add, List.length_append,
    List.length_singleton, List.nil_append]

/-! ## Decoding

The register after one, two or three bytes, and after a group. -/

theorem and_two_pow_ne_zero_iff (x i : Nat) : x &&& 2 ^ i ≠ 0 ↔ x / 2 ^ i % 2 = 1 := by
  rw [Nat.and_two_pow, Nat.testBit_eq_decide_div_mod_eq]
  by_cases h : x / 2 ^ i % 2 = 1
  · simp [h]
  · simp [h]

theorem shift_or_eq {buf c : Nat} (hbuf : buf < 2 ^ 19) (hc : c < 64) :
    buf <<< 6 % 2 ^ 64 ||| c = buf * 64 + c := by
  rw [Nat.shiftLeft_eq, Nat.mod_eq_of_lt (by omega), ← Nat.shiftLeft_eq,
    ← Nat.shiftLeft_add_eq_or_of_lt hc, Nat.shiftLeft_eq]

theorem ofNat_eq {v : Nat} {a : UInt8} (h : v % 256 = a.toNat) : UInt8.ofNat v = a := by
  apply UInt8.toNat_inj.mp
  rw [UInt8.toNat_ofNat']
  exact h

theorem shiftIn_part {maxOut buf c : Nat} (len : Nat) (out : List UInt8) (hbuf : buf < 2 ^ 18)
    (hc : c < 64) : shiftIn maxOut ⟨buf, len, out⟩ c = (.ok (), ⟨buf * 64 + c, len, out⟩) := by
  have hbit : ¬ (buf * 64 + c) &&& 2 ^ 24 ≠ 0 := by
    rw [and_two_pow_ne_zero_iff]
    omega
  simp only [shiftIn, shift_or_eq (show buf < 2 ^ 19 by omega) hc]
  exact if_neg hbit

/-- The fourth character fills the register: behind the leading bit stand three bytes. -/
theorem shiftIn_full {maxOut buf v len : Nat} (out : List UInt8) (a b c : UInt8) (hv : v < 64)
    (hfull : buf * 64 + v = 2 ^ 24 + (a.toNat * 2 ^ 16 + b.toNat * 2 ^ 8 + c.toNat))
    (hroom : len + 3 ≤ maxOut) :
    shiftIn maxOut ⟨buf, len, out⟩ v = (.ok (), ⟨1, len + 3, out ++ [a, b, c]⟩) := by
  have ha := a.toNat_lt
  have hb := b.toNat_lt
  have hc := c.toNat_lt
  have hbit : (buf * 64 + v) &&& 2 ^ 24 ≠ 0 := by
    rw [and_two_pow_ne_zero_iff, hfull]
    omega
  have hbytes : [UInt8.ofNat ((buf * 64 + v) >>> 16), UInt8.ofNat ((buf * 64 + v) >>> 8),
      UInt8.ofNat (buf * 64 + v)] = [a, b, c] := by
    rw [hfull, Nat.shiftRight_eq_div_pow, Nat.shiftRight_eq_div_pow, ofNat_eq, ofNat_eq, ofNat_eq]
    all_goals omega
  simp only [shiftIn, shift_or_eq (show buf < 2 ^ 19 by omega) hv, hbytes]
  rw [if_neg (Nat.not_lt.mpr hroom)]
  exact if_pos hbit

theorem decodeTabAt_char : ∀ v < 64, decodeTabAt (char v) = some v := by decide

/-- A byte with digit `v` shifts it in. -/
theorem decodeLoop_digit {maxOut v : Nat} {b : UInt8} (hv : v < 64)
    (htab : decodeTabAt b = some v) (input : List UInt8) (r : Reg) :
    decodeLoop maxOut (b :: input) r =
      match shiftIn maxOut r v with
      | (.error e, r) => some (.error e, r)
      | (.ok _, r) => decodeLoop maxOut input r := by
  have hw : ¬ v = base64Whitespace := Nat.ne_of_lt hv
  have hi : ¬ v = base64Invalid := Nat.ne_of_lt (Nat.lt_trans hv (by decide))
  have he : ¬ v = base64Equals := Nat.ne_of_lt (Nat.lt_trans hv (by decide))
  rw [decodeLoop, htab]
  cases hshift : shiftIn maxOut r v with
  | mk rc r' => cases rc <;> simp only [if_neg hw, if_neg hi, if_neg he, hshift]

theorem decodeLoop_char {maxOut v : Nat} (hv : v < 64) (input : List UInt8) {r r' : Reg}
    (hshift : shiftIn maxOut r v = (.ok (), r')) :
    decodeLoop maxOut (char v :: input) r = decodeLoop maxOut input r' := by
  rw [decodeLoop_digit hv (decodeTabAt_char v hv), hshift]

/-- The first `=` ends the input. -/
theorem decodeLoop_padding (maxOut k : Nat) (r : Reg) :
    decodeLoop maxOut (List.replicate k equals) r = some (.ok (), r) := by
  cases k with
  | zero => rfl
  | succ k => rfl

theorem decodeLoop_two {maxOut s0 s1 : Nat} (h0 : s0 < 64) (h1 : s1 < 64) (input : List UInt8)
    (len : Nat) (out : List UInt8) :
    decodeLoop maxOut (char s0 :: char s1 :: input) ⟨1, len, out⟩ =
      decodeLoop maxOut input ⟨(1 * 64 + s0) * 64 + s1, len, out⟩ := by
  rw [decodeLoop_char h0 _ (shiftIn_part len out (by decide) h0),
    decodeLoop_char h1 _ (shiftIn_part len out (by omega) h1)]

theorem decodeLoop_three {maxOut s0 s1 s2 : Nat} (h0 : s0 < 64) (h1 : s1 < 64) (h2 : s2 < 64)
    (input : List UInt8) (len : Nat) (out : List UInt8) :
    decodeLoop maxOut (char s0 :: char s1 :: char s2 :: input) ⟨1, len, out⟩ =
      decodeLoop maxOut input ⟨((1 * 64 + s0) * 64 + s1) * 64 + s2, len, out⟩ := by
  rw [decodeLoop_two h0 h1, decodeLoop_char h2 _ (shiftIn_part len out (by omega) h2)]

/-- A whole group gives its three bytes and leaves the register empty. -/
theorem decodeLoop_group {maxOut : Nat} (a b c : UInt8) (input : List UInt8) {len : Nat}
    (out : List UInt8) (hroom : len + 3 ≤ maxOut) :
    decodeLoop maxOut ((sextets [a, b, c]).map char ++ input) ⟨1, len, out⟩ =
      decodeLoop maxOut input ⟨1, len + 3, out ++ [a, b, c]⟩ := by
  have ha := a.toNat_lt
  have hb := b.toNat_lt
  have hc := c.toNat_lt
  simp only [sextets, List.map_cons, List.map_nil, List.cons_append, List.nil_append]
  rw [decodeLoop_three (by omega) (by omega) (by omega),
    decodeLoop_char (by omega) _ (shiftIn_full out a b c (by omega) (by omega) hroom)]

theorem decodeTail_nil {maxOut : Nat} (len : Nat) (out : List UInt8) :
    decodeTail maxOut ⟨1, len, out⟩ = (.ok (), ⟨1, len, out⟩) := by
  have h18 : ¬ 1 &&& 2 ^ 18 ≠ 0 := by decide
  have h12 : ¬ 1 &&& 2 ^ 12 ≠ 0 := by decide
  exact (if_neg h18).trans (if_neg h12)

/-- One byte behind the leading bit, and four bits of filling. -/
theorem decodeTail_one {maxOut len : Nat} (out : List UInt8) (a : UInt8)
    (hroom : len + 1 ≤ maxOut) :
    decodeTail maxOut ⟨2 ^ 12 + a.toNat * 2 ^ 4, len, out⟩ =
      (.ok (), ⟨2 ^ 12 + a.toNat * 2 ^ 4, len + 1, out ++ [a]⟩) := by
  have ha := a.toNat_lt
  have h18 : ¬ (2 ^ 12 + a.toNat * 2 ^ 4) &&& 2 ^ 18 ≠ 0 := by
    rw [and_two_pow_ne_zero_iff]
    omega
  have h12 : (2 ^ 12 + a.toNat * 2 ^ 4) &&& 2 ^ 12 ≠ 0 := by
    rw [and_two_pow_ne_zero_iff]
    omega
  have hbyte : UInt8.ofNat ((2 ^ 12 + a.toNat * 2 ^ 4) >>> 4) = a := by
    rw [Nat.shiftRight_eq_div_pow]
    exact ofNat_eq (by omega)
  simp only [decodeTail, hbyte]
  rw [if_neg (Nat.not_lt.mpr hroom)]
  exact (if_neg h18).trans (if_pos h12)

theorem decodeTail_two {maxOut len : Nat} (out : List UInt8) (a b : UInt8)
    (hroom : len + 2 ≤ maxOut) :
    decodeTail maxOut ⟨2 ^ 18 + (a.toNat * 2 ^ 8 + b.toNat) * 2 ^ 2, len, out⟩ =
      (.ok (), ⟨2 ^ 18 + (a.toNat * 2 ^ 8 + b.toNat) * 2 ^ 2, len + 2, out ++ [a, b]⟩) := by
  have ha := a.toNat_lt
  have hb := b.toNat_lt
  have h18 : (2 ^ 18 + (a.toNat * 2 ^ 8 + b.toNat) * 2 ^ 2) &&& 2 ^ 18 ≠ 0 := by
    rw [and_two_pow_ne_zero_iff]
    omega
  have hbytes : [UInt8.ofNat ((2 ^ 18 + (a.toNat * 2 ^ 8 + b.toNat) * 2 ^ 2) >>> 10),
      UInt8.ofNat ((2 ^ 18 + (a.toNat * 2 ^ 8 + b.toNat) * 2 ^ 2) >>> 2)] = [a, b] := by
    rw [Nat.shiftRight_eq_div_pow, Nat.shiftRight_eq_div_pow, ofNat_eq, ofNat_eq]
    all_goals omega
  simp only [decodeTail, hbytes]
  rw [if_neg (Nat.not_lt.mpr hroom)]
  exact if_pos h18

/-- The loop and the tail over the text of the data, behind what was decoded before. -/
theorem decode_text {maxOut : Nat} (k : Nat) (data : List UInt8) :
    ∀ (len : Nat) (out : List UInt8), len + data.length ≤ maxOut →
      ∃ r, decodeLoop maxOut ((sextets data).map char ++ List.replicate k equals) ⟨1, len, out⟩ =
          some (.ok (), r) ∧
        decodeTail maxOut r = (.ok (), ⟨r.buf, len + data.length, out ++ data⟩) := by
  induction data using sextets.induct with
  | case1 =>
    intro len out _
    refine ⟨⟨1, len, out⟩, decodeLoop_padding maxOut k _, ?_⟩
    rw [List.append_nil, List.length_nil, Nat.add_zero]
    exact decodeTail_nil len out
  | case2 a =>
    intro len out hroom
    have ha := a.toNat_lt
    refine ⟨⟨2 ^ 12 + a.toNat * 2 ^ 4, len, out⟩, ?_, decodeTail_one out a hroom⟩
    simp only [sextets, List.map_cons, List.map_nil, List.cons_append, List.nil_append]
    -- The leading bit, and the bits of one byte with four zeros.
    have hbuf : (1 * 64 + a.toNat / 4) * 64 + a.toNat % 4 * 16 = 2 ^ 12 + a.toNat * 2 ^ 4 := by
      omega
    rw [decodeLoop_two (by omega) (by omega), decodeLoop_padding, hbuf]
  | case3 a b =>
    intro len out hroom
    have ha := a.toNat_lt
    have hb := b.toNat_lt
    refine ⟨⟨2 ^ 18 + (a.toNat * 2 ^ 8 + b.toNat) * 2 ^ 2, len, out⟩, ?_,
      decodeTail_two out a b hroom⟩
    simp only [sextets, List.map_cons, List.map_nil, List.cons_append, List.nil_append]
    have hbuf : ((1 * 64 + a.toNat / 4) * 64 + (a.toNat % 4 * 16 + b.toNat / 16)) * 64 +
        b.toNat % 16 * 4 = 2 ^ 18 + (a.toNat * 2 ^ 8 + b.toNat) * 2 ^ 2 := by
      omega
    rw [decodeLoop_three (by omega) (by omega) (by omega), decodeLoop_padding, hbuf]
  | case4 a b c rest ih =>
    intro len out hroom
    have hlen : len + (a :: b :: c :: rest).length = len + 3 + rest.length := by
      simp only [List.length_cons]
      omega
    rw [hlen] at hroom
    obtain ⟨r, hloop, htail⟩ := ih (len + 3) (out ++ [a, b, c]) hroom
    -- A whole group goes out as three bytes, and the register is as in the beginning.
    have hsplit : sextets (a :: b :: c :: rest) = sextets [a, b, c] ++ sextets rest := rfl
    refine ⟨r, ?_, ?_⟩
    · rw [hsplit, List.map_append, List.append_assoc,
        decodeLoop_group a b c _ out (by omega), hloop]
    · rw [htail, hlen, List.append_assoc]
      rfl

/-- **The decoder reads the text back.** -/
theorem inaUtilBase64DecodeChunk_text {maxOut : Nat} (data : List UInt8) (old : Nat)
    (hroom : data.length ≤ maxOut) :
    inaUtilBase64DecodeChunk (some (text data)) (some maxOut) (some old) =
      some { rc := .ok (), out := data, outLen := some data.length } := by
  have hroom' : 0 + data.length ≤ maxOut := by rw [Nat.zero_add]; exact hroom
  obtain ⟨r, hloop, htail⟩ := decode_text ((3 - data.length % 3) % 3) data 0 [] hroom'
  rw [Nat.zero_add, List.nil_append] at htail
  simp only [inaUtilBase64DecodeChunk, text, padding, hloop, htail, Option.bind_eq_bind,
    Option.bind_some]

/-! ## The round trip

Both functions, with any buffers that are large enough. -/

/-- **Encode, then decode.** With room for the text and its NUL the encoder writes them: four
    characters for every three bytes begun, of the alphabet but for the padding. With room for the
    data the decoder gets it back from the text. -/
theorem base64_round_trip (data : List UInt8) {resultSize maxOut : Nat}
    (hresult : 4 * ((data.length + 2) / 3) + 1 ≤ resultSize) (hout : data.length ≤ maxOut) :
    ∃ code pad, inaUtilBase64EncodeChunk (some data) (some resultSize) = .ok (code ++ pad ++ [0]) ∧
      (code ++ pad).length = 4 * ((data.length + 2) / 3) ∧
      (∀ c ∈ code, c ∈ base64chars) ∧
      pad = List.replicate ((3 - data.length % 3) % 3) equals ∧
      ∀ old, inaUtilBase64DecodeChunk (some (code ++ pad)) (some maxOut) (some old) =
        some { rc := .ok (), out := data, outLen := some data.length } := by
  refine ⟨(sextets data).map char, padding data, ?_, length_text data, ?_, rfl, ?_⟩
  · rw [inaUtilBase64EncodeChunk_eq, length_text, if_pos hresult]
    rfl
  · intro c hc
    obtain ⟨v, hv, rfl⟩ := List.mem_map.mp hc
    exact char_mem (sextets_lt data v hv)
  · intro old
    exact inaUtilBase64DecodeChunk_text data old hout

/-- Four bytes, the buffers just large enough. -/
theorem base64_round_trip_four :
    ∃ code pad, inaUtilBase64EncodeChunk (some [0, 255, 16, 128]) (some 9) =
        .ok (code ++ pad ++ [0]) ∧ pad = [equals, equals] ∧
      inaUtilBase64DecodeChunk (some (code ++ pad)) (some 4) (some 0) =
        some { rc := .ok (), out := [0, 255, 16, 128], outLen := some 4 } := by
  obtain ⟨code, pad, henc, -, -, hpad, hdec⟩ :=
    base64_round_trip [0, 255, 16, 128] (show 4 * ((4 + 2) / 3) + 1 ≤ 9 by decide) (Nat.le_refl 4)
  exact ⟨code, pad, henc, hpad, hdec 0⟩

end Base64
end Inac
