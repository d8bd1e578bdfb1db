import Inac.Base64.RoundTrip

/-!
# Base64 within its buffers

The decoder's register says by its leading bit how many of the characters read are still in it, so
the number of alphabet characters read is all its bounds depend on: `Holding r j` is the register
behind `j` of them. The loop goes on over alphabet characters and the one character that the table
marks as whitespace; what it does where it stops is read off the byte there (`decodeLoop_eq`).
-/

namespace Inac
namespace Base64

/-! ## The length of an encoding -/

/-- `ina_util_base64_encode_length`; `outLength` is given by what it points at before the call, and
    returned as it is behind it. -/
def inaUtilBase64EncodeLength (inLength lineLength : Nat) (outLength : Option Nat) :
    Except Err Unit × Option Nat :=
  if lineLength = 0 then (.error .invalidArgument, outLength)
  else
    match outLength with
    | none => (.error .invalidArgument, none)
    | some _ =>
      let adjustment := if inLength % 3 ≠ 0 then 3 - inLength % 3 else 0
      let codePaddedSize := (inLength + adjustment) % 2 ^ 64 / 3 * 4 % 2 ^ 64
      let newlineSize :=
        if lineLength > 0 then codePaddedSize / lineLength * 2 % 2 ^ 64 else 0
      (.ok (), some ((codePaddedSize + newlineSize + 1) % 2 ^ 64))

theorem inaUtilBase64EncodeLength_eq {inLength lineLength : Nat} (hlen : inLength < 2 ^ 60)
    (hline : lineLength ≠ 0) (old : Nat) :
    inaUtilBase64EncodeLength inLength lineLength (some old) =
      (.ok (), some (4 * ((inLength + 2) / 3) +
        4 * ((inLength + 2) / 3) / lineLength * 2 + 1)) := by
  have hadjust : inLength + (if inLength % 3 ≠ 0 then 3 - inLength % 3 else 0) =
      3 * ((inLength + 2) / 3) := by
    split <;> omega
  have hcode : (3 * ((inLength + 2) / 3)) % 2 ^ 64 / 3 * 4 % 2 ^ 64 = 4 * ((inLength + 2) / 3) := by
    rw [Nat.mod_eq_of_lt (show 3 * ((inLength + 2) / 3) < 2 ^ 64 by omega),
      Nat.mul_div_cancel_left _ (show 0 < 3 by decide), Nat.mul_comm, Nat.mod_eq_of_lt (by omega)]
  have hlines : 4 * ((inLength + 2) / 3) / lineLength ≤ 4 * ((inLength + 2) / 3) :=
    Nat.div_le_self _ _
  have hpos : lineLength > 0 := Nat.pos_of_ne_zero hline
  simp only [inaUtilBase64EncodeLength, if_neg hline, hadjust, hcode, if_pos hpos]
  rw [Nat.mod_eq_of_lt (show 4 * ((inLength + 2) / 3) / lineLength * 2 < 2 ^ 64 by omega),
    Nat.mod_eq_of_lt (by omega)]

/-- The bytes an encoder's call has written, whether it failed or not. -/
def Written.bytes : Written → List UInt8
  | .ok result => result
  | .error (_, result) => result

theorem encode_succeeds_iff (data : List UInt8) (resultSize : Nat) :
    (∃ result, inaUtilBase64EncodeChunk (some data) (some resultSize) = .ok result) ↔
      4 * ((data.length + 2) / 3) + 1 ≤ resultSize := by
  rw [inaUtilBase64EncodeChunk_eq, length_text]
  constructor
  · intro ⟨result, h⟩
    by_contra hroom
    rw [if_neg hroom] at h
    exact nomatch h
  · intro hroom
    exact ⟨_, if_pos hroom⟩

theorem encode_within (data : List UInt8) (resultSize : Nat) :
    (inaUtilBase64EncodeChunk (some data) (some resultSize)).bytes.length ≤ resultSize := by
  rw [inaUtilBase64EncodeChunk_eq]
  by_cases hroom : (text data).length + 1 ≤ resultSize
  · rw [if_pos hroom, Written.bytes, List.length_append]
    exact hroom
  · rw [if_neg hroom, Written.bytes]
    exact List.length_take_le _ _

/-! ## What the table says of a byte

A digit, a byte to be passed over, or the end. -/

def tab : UInt8 := 9

/-- The bytes the loop goes on over. -/
def taken (b : UInt8) : Bool := b ∈ base64chars ∨ b = tab

theorem exists_char {b : UInt8} (hb : b ∈ base64chars) : ∃ v < 64, b = char v := by
  obtain ⟨v, hv, rfl⟩ := List.mem_iff_getElem.mp hb
  exact ⟨v, hv, (List.getD_eq_getElem _ _ hv).symm⟩

theorem decodeTabAt_mem {b : UInt8} (hb : b ∈ base64chars) : ∃ v < 64, decodeTabAt b = some v := by
  obtain ⟨v, hv, rfl⟩ := exists_char hb
  exact ⟨v, hv, decodeTabAt_char v hv⟩

theorem decodeTabAt_low : ∀ n < 128, taken (UInt8.ofNat n) = false → UInt8.ofNat n ≠ equals →
    decodeTabAt (UInt8.ofNat n) = some base64Invalid := by
  decide +kernel

theorem decodeTabAt_invalid {b : UInt8} (hb : b.toNat < 128) (htaken : taken b = false)
    (hequals : b ≠ equals) : decodeTabAt b = some base64Invalid := by
  have h := decodeTabAt_low b.toNat hb
  rw [UInt8.ofNat_toNat] at h
  exact h htaken hequals

theorem decodeTabAt_high {b : UInt8} (hb : 128 ≤ b.toNat) : decodeTabAt b = none :=
  if_neg (Nat.not_lt.mpr hb)

/-! ## The register behind `j` characters

Six bits come in with each character, and with each fourth one three bytes go out. -/

/-- The register behind `j` characters of the alphabet: `j / 4` groups are written and fit, and the
    others stand behind the leading bit. -/
structure Holding (maxOut : Nat) (r : Reg) (j : Nat) : Prop where
  len_eq : r.len = 3 * (j / 4)
  out_length : r.out.length = 3 * (j / 4)
  room : 3 * (j / 4) ≤ maxOut
  leading : r.buf / 64 ^ (j % 4) = 1

theorem Holding.start (maxOut : Nat) : Holding maxOut ⟨1, 0, []⟩ 0 :=
  ⟨rfl, rfl, Nat.zero_le _, rfl⟩

theorem shiftIn_eq_part {maxOut : Nat} {r : Reg} {c : Nat} (hbuf : r.buf < 2 ^ 18) (hc : c < 64) :
    shiftIn maxOut r c = (.ok (), { r with buf := r.buf * 64 + c }) :=
  shiftIn_part r.len r.out hbuf hc

theorem shiftIn_eq_full (maxOut : Nat) {r : Reg} {c : Nat} (hbuf : r.buf / 2 ^ 18 = 1)
    (hc : c < 64) :
    ∃ bytes r', bytes.length = 3 ∧ r'.out = r.out ∧
      shiftIn maxOut r c = if maxOut < r.len + 3 then (.error .bufferOverflow, r')
        else (.ok (), ⟨1, r.len + 3, r.out ++ bytes⟩) := by
  have hbit : (r.buf * 64 + c) &&& 2 ^ 24 ≠ 0 := by
    rw [and_two_pow_ne_zero_iff]
    omega
  refine ⟨[UInt8.ofNat ((r.buf * 64 + c) >>> 16), UInt8.ofNat ((r.buf * 64 + c) >>> 8),
    UInt8.ofNat (r.buf * 64 + c)], { r with buf := r.buf * 64 + c, len := r.len + 3 }, rfl, rfl, ?_⟩
  simp only [shiftIn, shift_or_eq (show r.buf < 2 ^ 19 by omega) hc]
  exact if_pos hbit

/-- **One character more.** It fits exactly when the groups it completes do. -/
theorem Holding.shiftIn {maxOut j c : Nat} {r : Reg} (h : Holding maxOut r j) (hc : c < 64) :
    if 3 * ((j + 1) / 4) ≤ maxOut then
      ∃ r', Base64.shiftIn maxOut r c = (.ok (), r') ∧ Holding maxOut r' (j + 1)
    else ∃ r', Base64.shiftIn maxOut r c = (.error .bufferOverflow, r') ∧ r'.out = r.out := by
  obtain ⟨hlen, hout, hroom, hlead⟩ := h
  -- The fourth character of a group puts three bytes out, if they fit.
  by_cases hfull : j % 4 = 3
  · rw [hfull] at hlead
    have hnext : (j + 1) / 4 = j / 4 + 1 := by omega
    have hzero : (j + 1) % 4 = 0 := by omega
    obtain ⟨bytes, r', hbytes, hr', hshift⟩ := shiftIn_eq_full maxOut hlead hc
    rw [hnext]
    by_cases hfits : 3 * (j / 4 + 1) ≤ maxOut
    · rw [if_pos hfits]
      rw [if_neg (by omega)] at hshift
      refine ⟨_, hshift, ?_, ?_, ?_, ?_⟩
      · rw [hnext, hlen]
        rfl
      · rw [hnext, List.length_append, hout, hbytes]
        rfl
      · rw [hnext]
        exact hfits
      · simp [hzero]
    · rw [if_neg hfits]
      rw [if_pos (by omega)] at hshift
      exact ⟨r', hshift, hr'⟩
  · have hsame : (j + 1) / 4 = j / 4 := by omega
    have hmore : (j + 1) % 4 = j % 4 + 1 := by omega
    have hbuf : r.buf < 2 ^ 18 ∧ (r.buf * 64 + c) / 64 ^ (j % 4 + 1) = 1 := by
      have hcases : j % 4 = 0 ∨ j % 4 = 1 ∨ j % 4 = 2 := by omega
      rcases hcases with hj | hj | hj <;> rw [hj] at hlead ⊢ <;> omega
    rw [hsame, if_pos hroom]
    refine ⟨_, shiftIn_eq_part hbuf.1 hc, ?_, ?_, ?_, ?_⟩
    · rw [hsame]
      exact hlen
    · rw [hsame]
      exact hout
    · rw [hsame]
      exact hroom
    · rw [hmore]
      exact hbuf.2

/-- What is left in the register behind `j` characters makes `6 * j / 8` bytes of all of them. -/
theorem Holding.decodeTail {maxOut j : Nat} {r : Reg} (h : Holding maxOut r j) :
    if 6 * j / 8 ≤ maxOut then
      ∃ r', Base64.decodeTail maxOut r = (.ok (), r') ∧ r'.out.length = 6 * j / 8 ∧
        r'.len = 6 * j / 8
    else ∃ r', Base64.decodeTail maxOut r = (.error .bufferOverflow, r') ∧ r'.out = r.out := by
  obtain ⟨hlen, hout, hroom, hlead⟩ := h
  -- Three characters are left in the register, or two, or fewer: two bytes, one or none.
  have hcases : j % 4 = 3 ∨ j % 4 = 2 ∨ j % 4 < 2 := by omega
  rcases hcases with hj | hj | hj
  · rw [hj] at hlead
    have hbit : r.buf &&& 2 ^ 18 ≠ 0 := by
      rw [and_two_pow_ne_zero_iff]
      omega
    have htotal : 6 * j / 8 = 3 * (j / 4) + 2 := by omega
    have htail : Base64.decodeTail maxOut r = _ := if_pos hbit
    rw [htotal, htail, hlen]
    by_cases hfits : 3 * (j / 4) + 2 ≤ maxOut
    · rw [if_pos hfits, if_neg (Nat.not_lt.mpr hfits)]
      exact ⟨_, rfl, by rw [List.length_append, hout]; rfl, rfl⟩
    · rw [if_neg hfits, if_pos (Nat.lt_of_not_le hfits)]
      exact ⟨_, rfl, rfl⟩
  · rw [hj] at hlead
    have hbit18 : ¬ r.buf &&& 2 ^ 18 ≠ 0 := by
      rw [and_two_pow_ne_zero_iff]
      omega
    have hbit12 : r.buf &&& 2 ^ 12 ≠ 0 := by
      rw [and_two_pow_ne_zero_iff]
      omega
    have htotal : 6 * j / 8 = 3 * (j / 4) + 1 := by omega
    have htail : Base64.decodeTail maxOut r = _ := (if_neg hbit18).trans (if_pos hbit12)
    rw [htotal, htail, hlen]
    by_cases hfits : 3 * (j / 4) + 1 ≤ maxOut
    · rw [if_pos hfits, if_neg (Nat.not_lt.mpr hfits)]
      exact ⟨_, rfl, by rw [List.length_append, hout]; rfl, rfl⟩
    · rw [if_neg hfits, if_pos (Nat.lt_of_not_le hfits)]
      exact ⟨_, rfl, rfl⟩
  · have hsmall : r.buf < 2 ^ 12 := by
      have hcases : j % 4 = 0 ∨ j % 4 = 1 := by omega
      rcases hcases with hj | hj <;> rw [hj] at hlead <;> omega
    have hbit18 : ¬ r.buf &&& 2 ^ 18 ≠ 0 := by
      rw [and_two_pow_ne_zero_iff]
      omega
    have hbit12 : ¬ r.buf &&& 2 ^ 12 ≠ 0 := by
      rw [and_two_pow_ne_zero_iff]
      omega
    have htotal : 6 * j / 8 = 3 * (j / 4) := by omega
    have htail : Base64.decodeTail maxOut r = _ := (if_neg hbit18).trans (if_neg hbit12)
    rw [htotal, htail, if_pos hroom]
    exact ⟨_, rfl, hout, hlen⟩

/-! ## The loop

It takes the characters it knows, up to the first one it does not. -/

/-- The alphabet characters the loop goes over before it stops. -/
def digits (input : List UInt8) : Nat := (input.takeWhile taken).countP (· ∈ base64chars)

theorem digits_digit {b : UInt8} (hb : b ∈ base64chars) (input : List UInt8) :
    digits (b :: input) = digits input + 1 := by
  have htaken : taken b = true := by simp [taken, hb]
  rw [digits, List.takeWhile_cons_of_pos htaken, List.countP_cons_of_pos (by simpa using hb), digits]

theorem tab_not_mem : tab ∉ base64chars := by decide

theorem digits_tab (input : List UInt8) : digits (tab :: input) = digits input := by
  have htaken : taken tab = true := by simp [taken]
  rw [digits, List.takeWhile_cons_of_pos htaken,
    List.countP_cons_of_neg (by simpa using tab_not_mem), digits]

theorem digits_stop {b : UInt8} (hb : taken b = false) (input : List UInt8) :
    digits (b :: input) = 0 := by
  rw [digits, List.takeWhile_cons_of_neg (by simp [hb])]
  rfl

theorem decodeLoop_tab (maxOut : Nat) (input : List UInt8) (r : Reg) :
    decodeLoop maxOut (tab :: input) r = decodeLoop maxOut input r := rfl

/-- **The loop up to where it stops.** -/
theorem decodeLoop_taken {maxOut : Nat} (input : List UInt8) :
    ∀ {r : Reg} {j : Nat}, Holding maxOut r j →
      if 3 * ((j + digits input) / 4) ≤ maxOut then
        ∃ r', Holding maxOut r' (j + digits input) ∧
          decodeLoop maxOut input r = decodeLoop maxOut (input.dropWhile taken) r'
      else ∃ r', decodeLoop maxOut input r = some (.error .bufferOverflow, r') ∧
        r'.out.length ≤ maxOut := by
  induction input with
  | nil =>
    intro r j h
    have hzero : digits [] = 0 := rfl
    rw [hzero, Nat.add_zero, if_pos h.room]
    exact ⟨r, h, rfl⟩
  | cons b input ih =>
    intro r j h
    -- A character of the alphabet, the byte that is passed over, or the end of the loop.
    by_cases hb : b ∈ base64chars
    · obtain ⟨v, hv, htab⟩ := decodeTabAt_mem hb
      have htaken : taken b = true := by simp [taken, hb]
      have hstep := h.shiftIn hv
      rw [digits_digit hb, List.dropWhile_cons_of_pos htaken, ← Nat.add_assoc,
        Nat.add_right_comm j, decodeLoop_digit hv htab]
      by_cases hfits : 3 * ((j + 1) / 4) ≤ maxOut
      · rw [if_pos hfits] at hstep
        obtain ⟨r', hshift, hr'⟩ := hstep
        rw [hshift]
        exact ih hr'
      · rw [if_neg hfits] at hstep
        obtain ⟨r', hshift, hr'⟩ := hstep
        rw [if_neg (by omega), hshift]
        exact ⟨r', rfl, by rw [hr', h.out_length]; exact h.room⟩
    · by_cases htab : b = tab
      · subst htab
        have htaken : taken tab = true := by simp [taken]
        rw [digits_tab, List.dropWhile_cons_of_pos htaken, decodeLoop_tab]
        exact ih h
      · have htaken : taken b = false := by simp [taken, hb, htab]
        rw [digits_stop htaken, Nat.add_zero, if_pos h.room,
          List.dropWhile_cons_of_neg (by simp [htaken])]
        exact ⟨r, h, rfl⟩

theorem not_taken_of_dropWhile {input rest : List UInt8} {b : UInt8}
    (h : input.dropWhile taken = b :: rest) : taken b = false := by
  have hne : input.dropWhile taken ≠ [] := by simp [h]
  have hhead := List.head_dropWhile_not taken hne
  simpa only [h, List.head_cons] using hhead

/-! ## What a text is answered

By what stands where the loop stops. -/

/-- The end of the data is reached behind `j` alphabet characters. -/
def endVerdict (maxOut j : Nat) : Except Err Unit :=
  if 6 * j / 8 ≤ maxOut then .ok () else .error .bufferOverflow

/-- What the decoder returns for a text, read off the characters before the place its loop stops and
    the byte there; `none` where it reads outside the table. -/
def verdict (maxOut : Nat) (input : List UInt8) : Option (Except Err Unit) :=
  if 3 * (digits input / 4) ≤ maxOut then
    match input.dropWhile taken with
    | [] => some (endVerdict maxOut (digits input))
    | b :: _ =>
      if b = equals then some (endVerdict maxOut (digits input))
      else if b.toNat < 128 then some (.error .inputInvalid)
      else none
  else some (.error .bufferOverflow)

/-- A call that returned `rc` wrote no more than it may, and reports what it wrote. -/
def Answers (maxOut : Nat) (rc : Except Err Unit) (d : Decoded) : Prop :=
  d.rc = rc ∧ d.out.length ≤ maxOut ∧
    d.outLen = match rc with
      | .ok _ => some d.out.length
      | .error _ => some 0

theorem decode_of_error {maxOut : Nat} {input : List UInt8} {e : Err} {r : Reg} (old : Nat)
    (hloop : decodeLoop maxOut input ⟨1, 0, []⟩ = some (.error e, r))
    (hout : r.out.length ≤ maxOut) :
    ∃ d, inaUtilBase64DecodeChunk (some input) (some maxOut) (some old) = some d ∧
      Answers maxOut (.error e) d := by
  refine ⟨⟨.error e, r.out, some 0⟩, ?_, rfl, hout, rfl⟩
  simp only [inaUtilBase64DecodeChunk, hloop, Option.bind_eq_bind, Option.bind_some]

theorem decode_of_end {maxOut j : Nat} {input : List UInt8} {r : Reg} (old : Nat)
    (hloop : decodeLoop maxOut input ⟨1, 0, []⟩ = some (.ok (), r)) (h : Holding maxOut r j) :
    ∃ d, inaUtilBase64DecodeChunk (some input) (some maxOut) (some old) = some d ∧
      Answers maxOut (endVerdict maxOut j) d := by
  have htail := h.decodeTail
  by_cases hfits : 6 * j / 8 ≤ maxOut
  · rw [if_pos hfits] at htail
    obtain ⟨r', htail, hout, hlen⟩ := htail
    rw [endVerdict, if_pos hfits]
    refine ⟨⟨.ok (), r'.out, some r'.len⟩, ?_, rfl, by rw [hout]; exact hfits, ?_⟩
    · simp only [inaUtilBase64DecodeChunk, hloop, htail, Option.bind_eq_bind, Option.bind_some]
    · rw [hlen, hout]
  · rw [if_neg hfits] at htail
    obtain ⟨r', htail, hout⟩ := htail
    rw [endVerdict, if_neg hfits]
    refine ⟨⟨.error .bufferOverflow, r'.out, some 0⟩, ?_, rfl, ?_, rfl⟩
    · simp only [inaUtilBase64DecodeChunk, hloop, htail, Option.bind_eq_bind, Option.bind_some]
    · rw [hout, h.out_length]
      exact h.room

/-- **The decoder on any text.** -/
theorem inaUtilBase64DecodeChunk_verdict (maxOut : Nat) (input : List UInt8) (old : Nat) :
    match verdict maxOut input with
    | none => inaUtilBase64DecodeChunk (some input) (some maxOut) (some old) = none
    | some rc => ∃ d, inaUtilBase64DecodeChunk (some input) (some maxOut) (some old) = some d ∧
        Answers maxOut rc d := by
  have hrun := decodeLoop_taken input (Holding.start maxOut)
  rw [Nat.zero_add] at hrun
  unfold verdict
  by_cases hroom : 3 * (digits input / 4) ≤ maxOut
  · rw [if_pos hroom] at hrun ⊢
    obtain ⟨r, h, hloop⟩ := hrun
    -- The end of the text, the padding, or a byte that is neither.
    cases hrest : input.dropWhile taken with
    | nil =>
      rw [hrest] at hloop
      exact decode_of_end old hloop h
    | cons b rest =>
      have htaken := not_taken_of_dropWhile hrest
      rw [hrest, decodeLoop] at hloop
      simp only
      by_cases hequals : b = equals
      · subst hequals
        exact decode_of_end old hloop h
      · rw [if_neg hequals]
        by_cases hlow : b.toNat < 128
        · rw [decodeTabAt_invalid hlow htaken hequals] at hloop
          rw [if_pos hlow]
          exact decode_of_error old hloop (by rw [h.out_length]; exact h.room)
        · rw [decodeTabAt_high (Nat.le_of_not_lt hlow)] at hloop
          rw [if_neg hlow]
          simp only [inaUtilBase64DecodeChunk, hloop, Option.bind_eq_bind, Option.bind_none]
  · rw [if_neg hroom] at hrun ⊢
    obtain ⟨r, hloop, hout⟩ := hrun
    exact decode_of_error old hloop hout

theorem verdict_isSome (maxOut : Nat) {input : List UInt8} (hlow : ∀ b ∈ input, b.toNat < 128) :
    ∃ rc, verdict maxOut input = some rc := by
  unfold verdict
  by_cases hroom : 3 * (digits input / 4) ≤ maxOut
  · rw [if_pos hroom]
    cases hrest : input.dropWhile taken with
    | nil => exact ⟨_, rfl⟩
    | cons b rest =>
      have hmem : b ∈ input := (List.dropWhile_sublist taken).subset (by simp [hrest])
      simp only [if_pos (hlow b hmem)]
      split
      · exact ⟨_, rfl⟩
      · exact ⟨_, rfl⟩
  · rw [if_neg hroom]
    exact ⟨_, rfl⟩

/-- **Both functions keep to their buffers.** The encoder succeeds exactly when there is room for
    four characters for every three bytes begun and the NUL, writes nothing outside the room it has,
    and the length that is worked out for any lines is room enough. The decoder of ASCII text writes
    no more than it may, and a failed call reports no bytes. -/
theorem base64_within_buffers :
    (∀ data : List UInt8, data.length < 2 ^ 60 →
      (∀ resultSize, ((∃ result,
          inaUtilBase64EncodeChunk (some data) (some resultSize) = .ok result) ↔
            4 * ((data.length + 2) / 3) + 1 ≤ resultSize) ∧
        (inaUtilBase64EncodeChunk (some data) (some resultSize)).bytes.length ≤ resultSize) ∧
      ∀ lineLength, lineLength ≠ 0 → ∀ old, ∃ outLength,
        inaUtilBase64EncodeLength data.length lineLength (some old) = (.ok (), some outLength) ∧
        ∀ resultSize, outLength ≤ resultSize →
          ∃ result, inaUtilBase64EncodeChunk (some data) (some resultSize) = .ok result) ∧
    ∀ input : List UInt8, (∀ b ∈ input, b.toNat < 128) → ∀ maxOut old, ∃ d,
      inaUtilBase64DecodeChunk (some input) (some maxOut) (some old) = some d ∧
      d.out.length ≤ maxOut ∧ ∀ e, d.rc = .error e → d.outLen = some 0 := by
  constructor
  · intro data hdata
    refine ⟨fun resultSize => ⟨encode_succeeds_iff data resultSize, encode_within data resultSize⟩,
      fun lineLength hline old => ⟨_, inaUtilBase64EncodeLength_eq hdata hline old, ?_⟩⟩
    intro resultSize hroom
    exact (encode_succeeds_iff data resultSize).mpr (by omega)
  · intro input hlow maxOut old
    obtain ⟨rc, hrc⟩ := verdict_isSome maxOut hlow
    have hanswer := inaUtilBase64DecodeChunk_verdict maxOut input old
    rw [hrc] at hanswer
    obtain ⟨d, hd, hdrc, hout, hlen⟩ := hanswer
    refine ⟨d, hd, hout, fun e he => ?_⟩
    rw [← hdrc, he] at hlen
    exact hlen

/-- Four bytes need nine places, and get them at any line length; a text that is too long. -/
theorem base64_within_buffers_four :
    (∃ result, inaUtilBase64EncodeChunk (some [0, 255, 16, 128]) (some 9) = .ok result) ∧
    (¬ ∃ result, inaUtilBase64EncodeChunk (some [0, 255, 16, 128]) (some 8) = .ok result) ∧
    (∃ outLength, inaUtilBase64EncodeLength 4 76 (some 0) = (.ok (), some outLength)) ∧
    ∃ d, inaUtilBase64DecodeChunk (some [65, 65, 65, 65]) (some 2) (some 7) = some d ∧
      d.out.length ≤ 2 := by
  obtain ⟨henc, hlength⟩ := base64_within_buffers.1 [0, 255, 16, 128] (by decide)
  obtain ⟨outLength, hline, -⟩ := hlength 76 (by decide) 0
  obtain ⟨d, hd, hout, -⟩ := base64_within_buffers.2 [65, 65, 65, 65] (by simp) 2 7
  exact ⟨(henc 9).1.mpr (by decide), fun h => absurd ((henc 8).1.mp h) (by decide),
    ⟨outLength, hline⟩, d, hd, hout⟩

end Base64
end Inac
