import Mathlib.Data.List.TakeWhile
import Inac.Base64.Bounds

/-!
# Base64 text with whitespace in it

The table marks one byte as whitespace, and that is TAB: its entry stands at index 9. Space, LF and
CR are invalid there. So text broken into lines is not decoded, although `encode_length` reserves
two bytes for each line end, and of what may stand in a text the loop passes over TAB alone.

The table has 256 entries, but its index is a `char`: behind the register's bounds of the module
before, a byte from 128 on is read for only when the loop gets to it.
-/

namespace Inac
namespace Base64

/-- Space, TAB, LF and CR. -/
def whitespace : List UInt8 := [32, tab, 10, 13]

/-- The bytes before the first `=`, all the decoder reads. -/
def body (input : List UInt8) : List UInt8 := input.takeWhile (· ≠ equals)

theorem body_cons {b : UInt8} (hb : b ≠ equals) (input : List UInt8) :
    body (b :: input) = b :: body input :=
  List.takeWhile_cons_of_pos (by simpa using hb)

theorem equals_not_taken : taken equals = false := by decide

theorem ne_equals_of_taken {b : UInt8} (hb : taken b = true) : b ≠ equals := by
  rintro rfl
  exact absurd hb (by simp [equals_not_taken])

/-- What a computation says of each byte of a list. -/
theorem forall_mem_of_all {p : UInt8 → Prop} [DecidablePred p] {l : List UInt8}
    (h : (l.all fun b => decide (p b)) = true) : ∀ b ∈ l, p b :=
  fun b hb => of_decide_eq_true (List.all_eq_true.mp h b hb)

theorem ne_equals_of_whitespace : ∀ b ∈ whitespace, b ≠ equals :=
  forall_mem_of_all (by decide)

theorem whitespace_taken : ∀ b ∈ whitespace, taken b = true → b = tab :=
  forall_mem_of_all (by decide)

/-- The loop goes over the first bytes of the body, as far as they are taken. -/
theorem body_eq (input : List UInt8) :
    body input = input.takeWhile taken ++ body (input.dropWhile taken) := by
  have hall : ∀ b ∈ input.takeWhile taken, decide (b ≠ equals) = true := by
    intro b hb
    simpa using ne_equals_of_taken (List.mem_takeWhile_imp hb)
  calc body input
      = body (input.takeWhile taken ++ input.dropWhile taken) := by
        rw [List.takeWhile_append_dropWhile]
    _ = input.takeWhile taken ++ body (input.dropWhile taken) :=
        List.takeWhile_append_of_pos hall

/-- Where the loop stops within the body, or that it does not. -/
theorem dropWhile_body (input : List UInt8) :
    (body input).dropWhile taken = body (input.dropWhile taken) := by
  rw [body_eq input, List.dropWhile_append_of_pos (fun b hb => List.mem_takeWhile_imp hb)]
  cases hrest : input.dropWhile taken with
  | nil => rfl
  | cons b rest =>
    have htaken := not_taken_of_dropWhile hrest
    by_cases hb : b = equals
    · subst hb
      rfl
    · rw [body_cons hb, List.dropWhile_cons_of_neg (by simp [htaken])]

theorem verdict_end {input : List UInt8} (h : (body input).dropWhile taken = []) (maxOut : Nat) :
    verdict maxOut input =
      if 3 * (digits input / 4) ≤ maxOut then some (endVerdict maxOut (digits input))
      else some (.error .bufferOverflow) := by
  rw [dropWhile_body] at h
  unfold verdict
  cases hrest : input.dropWhile taken with
  | nil => rfl
  | cons b rest =>
    have hb : b = equals := by
      by_contra hb
      rw [hrest, body_cons hb] at h
      exact nomatch h
    subst hb
    rfl

theorem verdict_stop {input rest : List UInt8} {b : UInt8}
    (h : (body input).dropWhile taken = b :: rest) (maxOut : Nat) :
    verdict maxOut input =
      if 3 * (digits input / 4) ≤ maxOut then
        if b.toNat < 128 then some (.error .inputInvalid) else none
      else some (.error .bufferOverflow) := by
  rw [dropWhile_body] at h
  unfold verdict
  cases hrest : input.dropWhile taken with
  | nil =>
    rw [hrest] at h
    exact nomatch h
  | cons c rest' =>
    by_cases hc : c = equals
    · subst hc
      rw [hrest] at h
      exact nomatch h
    · rw [hrest, body_cons hc] at h
      rw [(List.cons.inj h).1] at hc ⊢
      simp only [if_neg hc]

/-! ## Inserted whitespace

Bytes that are put in at any place. A TAB is passed over, and any other ends the loop. -/

/-- `wrapped` is `text` with whitespace inserted between its characters. -/
inductive Wrapped : List UInt8 → List UInt8 → Prop
  | nil : Wrapped [] []
  | char {text wrapped : List UInt8} (c : UInt8) :
      Wrapped text wrapped → Wrapped (c :: text) (c :: wrapped)
  | space {text wrapped : List UInt8} {c : UInt8} (hc : c ∈ whitespace) :
      Wrapped text wrapped → Wrapped text (c :: wrapped)

theorem decodeLoop_equals (maxOut : Nat) (input : List UInt8) (r : Reg) :
    decodeLoop maxOut (equals :: input) r = some (.ok (), r) := rfl

theorem decodeLoop_cons_congr {maxOut : Nat} {input input' : List UInt8} (b : UInt8)
    (h : ∀ r, decodeLoop maxOut input r = decodeLoop maxOut input' r) (r : Reg) :
    decodeLoop maxOut (b :: input) r = decodeLoop maxOut (b :: input') r := by
  simp only [decodeLoop, h]

/-- A TAB in between leaves the register alone. -/
theorem Wrapped.decodeLoop_eq {maxOut : Nat} {text wrapped : List UInt8} (h : Wrapped text wrapped)
    (htabs : ∀ b ∈ body wrapped, b ∈ whitespace → b = tab) :
    ∀ r, decodeLoop maxOut wrapped r = decodeLoop maxOut text r := by
  induction h with
  | nil => intro r; rfl
  | @char text wrapped c h ih =>
    by_cases hc : c = equals
    · subst hc
      intro r
      rw [decodeLoop_equals, decodeLoop_equals]
    · rw [body_cons hc] at htabs
      exact decodeLoop_cons_congr c (ih fun b hb => htabs b (List.mem_cons_of_mem c hb))
  | @space text wrapped c hc h ih =>
    rw [body_cons (ne_equals_of_whitespace c hc)] at htabs
    have htab : c = tab := htabs c List.mem_cons_self hc
    subst htab
    intro r
    rw [decodeLoop_tab]
    exact ih (fun b hb => htabs b (List.mem_cons_of_mem tab hb)) r

/-- Of an accepted text the loop went over every byte before the padding. -/
theorem taken_of_accepted {maxOut : Nat} {input : List UInt8} {old : Nat} {d : Decoded}
    (hd : inaUtilBase64DecodeChunk (some input) (some maxOut) (some old) = some d)
    (hok : d.rc = .ok ()) : ∀ b ∈ body input, taken b = true := by
  cases hrest : (body input).dropWhile taken with
  | nil => exact List.dropWhile_eq_nil_iff.mp hrest
  | cons b rest =>
    have hverdict := inaUtilBase64DecodeChunk_verdict maxOut input old
    rw [verdict_stop hrest, hd] at hverdict
    by_cases hroom : 3 * (digits input / 4) ≤ maxOut
    · by_cases hlow : b.toNat < 128
      · rw [if_pos hroom, if_pos hlow] at hverdict
        obtain ⟨d', hd', hrc, -⟩ := hverdict
        rw [← Option.some.inj hd', hok] at hrc
        exact nomatch hrc
      · rw [if_pos hroom, if_neg hlow] at hverdict
        exact nomatch hverdict
    · rw [if_neg hroom] at hverdict
      obtain ⟨d', hd', hrc, -⟩ := hverdict
      rw [← Option.some.inj hd', hok] at hrc
      exact nomatch hrc

/-- **Text broken into lines.** An accepted text with whitespace inserted is decoded to the same
    exactly when none of the whitespace before the padding is other than TAB. -/
theorem decode_wrapped_iff {text wrapped : List UInt8} (h : Wrapped text wrapped) {maxOut : Nat}
    {old : Nat} {d : Decoded}
    (hd : inaUtilBase64DecodeChunk (some text) (some maxOut) (some old) = some d)
    (hok : d.rc = .ok ()) :
    inaUtilBase64DecodeChunk (some wrapped) (some maxOut) (some old) = some d ↔
      ∀ b ∈ body wrapped, b ∈ whitespace → b = tab := by
  constructor
  · intro hsame b hb hspace
    exact whitespace_taken b hspace (taken_of_accepted hsame hok b hb)
  · intro htabs
    rw [← hd]
    simp only [inaUtilBase64DecodeChunk, h.decodeLoop_eq htabs]

/-- `YW<TAB>Jj` is read as `YWJj` is. -/
theorem decode_wrapped_iff_tab :
    inaUtilBase64DecodeChunk (some [89, 87, tab, 74, 106]) (some 3) (some 0) =
      some { rc := .ok (), out := [97, 98, 99], outLen := some 3 } := by
  have h : Wrapped [89, 87, 74, 106] [89, 87, tab, 74, 106] :=
    .char 89 (.char 87 (.space (by decide) (.char 74 (.char 106 .nil))))
  exact (decode_wrapped_iff h (inaUtilBase64DecodeChunk_text [97, 98, 99] 0 (Nat.le_refl 3))
    rfl).mpr (forall_mem_of_all (by decide))

/-- Not so with the line ends that `encode_length` reserves room for: `YWJj<CR><LF>ZGVm`. -/
theorem decode_wrapped_crlf : ¬ ∀ (text wrapped : List UInt8) (maxOut old : Nat) (d : Decoded),
    Wrapped text wrapped →
    inaUtilBase64DecodeChunk (some text) (some maxOut) (some old) = some d → d.rc = .ok () →
    inaUtilBase64DecodeChunk (some wrapped) (some maxOut) (some old) = some d := by
  intro h
  have hwrapped : Wrapped [89, 87, 74, 106, 90, 71, 86, 109]
      [89, 87, 74, 106, 13, 10, 90, 71, 86, 109] :=
    .char 89 (.char 87 (.char 74 (.char 106 (.space (by decide) (.space (by decide)
      (.char 90 (.char 71 (.char 86 (.char 109 .nil)))))))))
  have hsame := h _ _ 6 0 _ hwrapped
    (inaUtilBase64DecodeChunk_text [97, 98, 99, 100, 101, 102] 0 (Nat.le_refl 6)) rfl
  have hrc := congrArg (Option.map Decoded.rc) hsame
  exact absurd hrc (by decide)

/-! ## Bytes that are no base64 text

What the decoder answers to them, and when it has no answer. -/

/-- Neither one of the 64 alphabet characters nor whitespace. -/
def Foreign (b : UInt8) : Prop := b ∉ base64chars ∧ b ∉ whitespace

/-- The alphabet characters before the padding. -/
def bodyDigits (input : List UInt8) : Nat := (body input).countP (· ∈ base64chars)

/-- The call reads the table inside its bounds, and with an output that is large enough it fails
    exactly when some byte before the padding is foreign. -/
def ToldApart (maxOut old : Nat) (input : List UInt8) : Prop :=
  ∃ d, inaUtilBase64DecodeChunk (some input) (some maxOut) (some old) = some d ∧
    (6 * bodyDigits input / 8 ≤ maxOut →
      ((∃ e, d.rc = .error e) ↔ ∃ b ∈ body input, Foreign b))

theorem not_foreign_of_taken {b : UInt8} (hb : taken b = true) : ¬ Foreign b := by
  rintro ⟨hchar, hspace⟩
  rcases of_decide_eq_true hb with h | rfl
  · exact hchar h
  · exact hspace (by decide)

/-- Foreign bytes stand only behind the place where the loop stops. -/
theorem foreign_iff (input : List UInt8) :
    (∃ b ∈ body input, Foreign b) ↔ ∃ b ∈ (body input).dropWhile taken, Foreign b := by
  constructor
  · intro ⟨b, hb, hforeign⟩
    refine ⟨b, ?_, hforeign⟩
    rw [← List.takeWhile_append_dropWhile (p := taken) (l := body input)] at hb
    rcases List.mem_append.mp hb with hb | hb
    · exact absurd hforeign (not_foreign_of_taken (List.mem_takeWhile_imp hb))
    · exact hb
  · intro ⟨b, hb, hforeign⟩
    exact ⟨b, (List.dropWhile_sublist taken).subset hb, hforeign⟩

/-- The byte the loop stops at is foreign, unless it is a space, LF or CR. -/
theorem foreign_stop_iff {input rest : List UInt8} {b : UInt8}
    (h : (body input).dropWhile taken = b :: rest) :
    (∃ c ∈ body input, Foreign c) ↔ (b ∈ whitespace → ∃ c ∈ rest, Foreign c) := by
  have hb : b ∉ base64chars := by
    intro hchar
    have htaken : taken b = true := by simp [taken, hchar]
    have hne : (body input).dropWhile taken ≠ [] := by simp [h]
    have hhead := List.head_dropWhile_not taken hne
    simp only [h, List.head_cons, htaken] at hhead
    exact Bool.noConfusion hhead
  rw [foreign_iff, h]
  constructor
  · rintro ⟨c, hc, hforeign⟩ hspace
    rcases List.mem_cons.mp hc with rfl | hc
    · exact absurd hspace hforeign.2
    · exact ⟨c, hc, hforeign⟩
  · intro hrest
    by_cases hspace : b ∈ whitespace
    · obtain ⟨c, hc, hforeign⟩ := hrest hspace
      exact ⟨c, List.mem_cons_of_mem b hc, hforeign⟩
    · exact ⟨b, List.mem_cons_self, hb, hspace⟩

/-- A call that is answered with an error tells the text apart if it is foreign. -/
theorem told_apart_of_error {maxOut old : Nat} {input : List UInt8} {e : Err}
    (h : verdict maxOut input = some (.error e)) :
    ToldApart maxOut old input ↔
      (6 * bodyDigits input / 8 ≤ maxOut → ∃ b ∈ body input, Foreign b) := by
  have hverdict := inaUtilBase64DecodeChunk_verdict maxOut input old
  rw [h] at hverdict
  obtain ⟨d, hd, hrc, -⟩ := hverdict
  constructor
  · intro ⟨d', hd', hiff⟩ hlarge
    rw [hd] at hd'
    exact (hiff hlarge).mp ⟨e, by rw [← Option.some.inj hd']; exact hrc⟩
  · intro hforeign
    exact ⟨d, hd, fun hlarge => ⟨fun _ => hforeign hlarge, fun _ => ⟨e, hrc⟩⟩⟩

/-- A text the loop goes over to its end has no foreign byte, and with room it is accepted. -/
theorem told_apart_of_end {input : List UInt8} (h : (body input).dropWhile taken = [])
    (maxOut old : Nat) : ToldApart maxOut old input := by
  have hdigits : bodyDigits input = digits input := by
    rw [bodyDigits, digits, body_eq input, ← dropWhile_body, h, List.append_nil]
  have hnone : ¬ ∃ b ∈ body input, Foreign b := by
    rw [foreign_iff, h]
    rintro ⟨b, hb, -⟩
    exact absurd hb List.not_mem_nil
  have hverdict := inaUtilBase64DecodeChunk_verdict maxOut input old
  rw [verdict_end h] at hverdict
  by_cases hlarge : 6 * digits input / 8 ≤ maxOut
  · have hroom : 3 * (digits input / 4) ≤ maxOut := by omega
    rw [if_pos hroom, endVerdict, if_pos hlarge] at hverdict
    obtain ⟨d, hd, hrc, -⟩ := hverdict
    refine ⟨d, hd, fun _ => ⟨?_, fun hforeign => absurd hforeign hnone⟩⟩
    rintro ⟨e, he⟩
    rw [hrc] at he
    cases he
  · rw [endVerdict, if_neg hlarge, ite_self] at hverdict
    obtain ⟨d, hd, -, -⟩ := hverdict
    exact ⟨d, hd, fun hroom => absurd (hdigits ▸ hroom) hlarge⟩

/-- A text in which the loop stops at a byte. -/
theorem told_apart_of_stop {input rest : List UInt8} {b : UInt8}
    (h : (body input).dropWhile taken = b :: rest) (maxOut old : Nat) :
    ToldApart maxOut old input ↔
      (128 ≤ b.toNat → maxOut < 3 * (digits input / 4)) ∧
      (b ∈ whitespace → 6 * bodyDigits input / 8 ≤ maxOut → ∃ c ∈ rest, Foreign c) := by
  have hverdict := verdict_stop h maxOut
  have hiff : (6 * bodyDigits input / 8 ≤ maxOut → ∃ b ∈ body input, Foreign b) ↔
      (b ∈ whitespace → 6 * bodyDigits input / 8 ≤ maxOut → ∃ c ∈ rest, Foreign c) := by
    rw [foreign_stop_iff h]
    exact ⟨fun h hspace hlarge => h hlarge hspace, fun h hlarge hspace => h hspace hlarge⟩
  by_cases hroom : 3 * (digits input / 4) ≤ maxOut
  · by_cases hlow : b.toNat < 128
    · rw [if_pos hroom, if_pos hlow] at hverdict
      rw [told_apart_of_error hverdict, hiff]
      exact ⟨fun h => ⟨fun hhigh => absurd hlow (Nat.not_lt.mpr hhigh), h⟩, fun h => h.2⟩
    · -- the read outside the table
      rw [if_pos hroom, if_neg hlow] at hverdict
      have hnone := inaUtilBase64DecodeChunk_verdict maxOut input old
      rw [hverdict] at hnone
      constructor
      · rintro ⟨d, hd, -⟩
        rw [hnone] at hd
        exact nomatch hd
      · intro h
        exact absurd hroom (Nat.not_le.mpr (h.1 (Nat.le_of_not_lt hlow)))
  · rw [if_neg hroom] at hverdict
    rw [told_apart_of_error hverdict, hiff]
    exact ⟨fun h => ⟨fun _ => Nat.lt_of_not_le hroom, h⟩, fun h => h.2⟩

/-- **What the decoder makes of any bytes.** It is right unless the loop reaches a byte from 128 on,
    or stops at a space, LF or CR in a text without a foreign byte. -/
theorem told_apart_iff (maxOut old : Nat) (input : List UInt8) :
    ToldApart maxOut old input ↔
      ∀ b rest, (body input).dropWhile taken = b :: rest →
        (128 ≤ b.toNat → maxOut < 3 * (digits input / 4)) ∧
        (b ∈ whitespace → 6 * bodyDigits input / 8 ≤ maxOut → ∃ c ∈ rest, Foreign c) := by
  cases hrest : (body input).dropWhile taken with
  | nil =>
    constructor
    · intro _ b rest h
      exact nomatch h
    · intro _
      exact told_apart_of_end hrest maxOut old
  | cons b rest =>
    rw [told_apart_of_stop hrest]
    constructor
    · intro h c rest' hcons
      obtain ⟨rfl, rfl⟩ := List.cons.inj hcons
      exact h
    · intro h
      exact h b rest rfl

/-- One byte of 128. -/
theorem told_apart_high : ¬ ∀ maxOut old input, ToldApart maxOut old input := by
  intro h
  obtain ⟨d, hd, -⟩ := h 3 0 [128]
  exact absurd hd (by simp [inaUtilBase64DecodeChunk, decodeLoop, decodeTabAt])

end Base64
end Inac
