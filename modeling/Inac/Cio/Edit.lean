import Inac.Cio.Line

/-!
# Editing a line

A line is what its bytes make of it from left to right: a printable one is appended, an erasing one
takes the last character away, and others do nothing.

To erase, the code takes the substring from the first character to the one in front of the last, but
counts to `ina_str_len - 1`, and `ina_str_substr` gives the character at its end too. So nothing is
erased, and the line is all that is printable. It holds up to 2^31 of that: the last growth sets the
top bit of the size, which is not part of it when room is looked for, and then the line no longer
grows.

What is documented is a fold over the bytes (`edited`), and what the code makes is all printable
bytes of the line (`characters`). They are the same exactly if no erasing byte comes behind a
character, which is a condition on the bytes (`Erased`), and the length decides whether the line is
returned at all. Both halves are shown apart: a line that is returned has all the characters
(`typed_line`), and one without erasing is returned up to 2^31 of them (`typed_grown`).
-/

namespace Inac
namespace Cio

open Str (Hdr inaStrNew inaStrAppendChr maxPrealloc)

/-! ## What is documented

Backspace and delete take a character away, other control characters do nothing, and carriage return
and newline end the line. -/

/-- A byte is dealt with. -/
def edit (s : List UInt8) (c : UInt8) : List UInt8 :=
  if erases c then s.dropLast else if printable c then s ++ [c] else s

/-- The bytes in front of the one that ends the line. -/
def before (bytes : List UInt8) : List UInt8 := bytes.takeWhile (!endsLine ·)

/-- The line that bytes make. -/
def edited (bytes : List UInt8) : List UInt8 := (before bytes).foldl edit []

/-- The string of a line, and its NUL. -/
structure Reads (h : Hdr) (s : List UInt8) : Prop where
  len : h.len = s.length
  data : h.data.take (h.len + 1) = s ++ [0]

/-- `ina_cio_read_line` returns the line that the bytes make. -/
def EditedLine (polls : List Poll) : Prop :=
  ∃ h rest, inaCioReadLine none polls = .returned (some h) (.ok ()) rest ∧
    Reads h (edited (input polls))

/-- Something stands there that an erasing byte would take away. -/
def Erased (bytes : List UInt8) : Prop :=
  ((before bytes).dropWhile (!printable ·)).any erases = true

instance (bytes : List UInt8) : Decidable (Erased bytes) := inferInstanceAs (Decidable (_ = true))

/-- The characters that are typed. -/
def characters (bytes : List UInt8) : List UInt8 := (before bytes).filter printable

/-! ## Editing

An erasing byte that finds something leaves fewer bytes than are typed, and later ones cannot make
up for it. -/

theorem erases_not_printable {c : UInt8} (hc : erases c = true) : printable c = false := by
  rw [erases, decide_eq_true_eq] at hc
  rcases hc with rfl | rfl <;> decide

theorem foldl_edit_length_le (s bytes : List UInt8) :
    (bytes.foldl edit s).length ≤ s.length + (bytes.filter printable).length := by
  induction bytes generalizing s with
  | nil => exact Nat.le_refl _
  | cons c bytes ih =>
    rw [List.foldl_cons, List.filter_cons]
    refine Nat.le_trans (ih _) ?_
    rw [edit]
    split
    · rename_i herase
      rw [erases_not_printable herase, List.length_dropLast, if_neg Bool.false_ne_true]
      omega
    · split
      · rw [List.length_append, List.length_cons, List.length_nil, List.length_cons]
        omega
      · exact Nat.le_refl _

/-- Behind a character, the first erasing byte makes the line shorter for good. -/
theorem foldl_edit_length_lt {s : List UInt8} (hs : s ≠ []) {bytes : List UInt8}
    (herase : bytes.any erases = true) :
    (bytes.foldl edit s).length < s.length + (bytes.filter printable).length := by
  induction bytes generalizing s with
  | nil => cases herase
  | cons c bytes ih =>
    rw [List.foldl_cons, List.filter_cons]
    by_cases hc : erases c = true
    · have hpos := List.length_pos_iff.mpr hs
      have hle := foldl_edit_length_le (edit s c) bytes
      rw [erases_not_printable hc, if_neg Bool.false_ne_true]
      rw [edit, if_pos hc, List.length_dropLast] at hle
      rw [edit, if_pos hc]
      omega
    · rw [List.any_cons, Bool.eq_false_iff.mpr hc, Bool.false_or] at herase
      rw [edit, if_neg hc]
      split
      · have hlt := ih (s := s ++ [c]) (by simp) herase
        rw [List.length_append, List.length_cons, List.length_nil] at hlt
        rw [List.length_cons]
        omega
      · exact ih hs herase

theorem foldl_edit_eq {s bytes : List UInt8} (hkeep : bytes.any erases = false) :
    bytes.foldl edit s = s ++ bytes.filter printable := by
  induction bytes generalizing s with
  | nil => exact (List.append_nil s).symm
  | cons c bytes ih =>
    rw [List.any_cons, Bool.or_eq_false_iff] at hkeep
    rw [List.foldl_cons, ih hkeep.2, List.filter_cons, edit, if_neg (Bool.eq_false_iff.mp hkeep.1)]
    split
    · rw [List.append_assoc, List.singleton_append]
    · rfl

/-- Nothing happens up to the first character. -/
theorem foldl_edit_dropWhile (bytes : List UInt8) :
    bytes.foldl edit [] = (bytes.dropWhile (!printable ·)).foldl edit [] := by
  induction bytes with
  | nil => rfl
  | cons c bytes ih =>
    rw [List.dropWhile_cons]
    split
    · rename_i hc
      rw [List.foldl_cons, ← ih, edit]
      rw [Bool.not_eq_true'] at hc
      rw [hc, if_neg Bool.false_ne_true, List.dropLast_nil, ite_self]
    · rfl

theorem filter_dropWhile (bytes : List UInt8) :
    (bytes.dropWhile (!printable ·)).filter printable = bytes.filter printable := by
  induction bytes with
  | nil => rfl
  | cons c bytes ih =>
    rw [List.dropWhile_cons]
    split
    · rename_i hc
      rw [Bool.not_eq_true'] at hc
      rw [ih, List.filter_cons, hc, if_neg Bool.false_ne_true]
    · rfl

/-- **The line is all that is typed unless something is erased.** -/
theorem edited_eq {bytes : List UInt8} (h : ¬ Erased bytes) : edited bytes = characters bytes := by
  rw [edited, characters, foldl_edit_dropWhile,
    foldl_edit_eq (Bool.eq_false_iff.mpr h), List.nil_append, filter_dropWhile]

theorem edited_length_lt {bytes : List UInt8} (h : Erased bytes) :
    (edited bytes).length < (characters bytes).length := by
  rw [edited, characters, foldl_edit_dropWhile, ← filter_dropWhile]
  rw [Erased] at h
  cases hb : (before bytes).dropWhile (!printable ·) with
  | nil =>
    rw [hb] at h
    cases h
  | cons c rest =>
    -- The first byte behind which something can be erased is a character.
    have hc : printable c = true := by
      have hhead := List.head?_dropWhile_not (!printable ·) (before bytes)
      rw [hb, List.head?_cons] at hhead
      simpa using hhead
    have hkeep : erases c ≠ true := fun he => by
      rw [erases_not_printable he] at hc
      cases hc
    rw [hb, List.any_cons, Bool.eq_false_iff.mpr hkeep, Bool.false_or] at h
    have hlt := foldl_edit_length_lt (s := [c]) (List.cons_ne_nil c []) h
    have hedit : edit [] c = [c] := by
      rw [edit, if_neg hkeep, if_pos hc]
      rfl
    rw [List.foldl_cons, hedit, List.filter_cons, if_pos hc, List.length_cons]
    rw [List.length_singleton] at hlt
    omega

/-! ## What the code makes of a line

By induction on the bytes: each of them adds its character to the string, or nothing. -/

theorem before_cons (c : UInt8) (bytes : List UInt8) :
    before (c :: bytes) = if endsLine c then [] else c :: before bytes := by
  rw [before, List.takeWhile_cons]
  cases endsLine c <;> rfl

theorem endsLine_not_printable {c : UInt8} (hc : endsLine c = true) : printable c = false := by
  rw [endsLine, decide_eq_true_eq] at hc
  rcases hc with rfl | rfl <;> decide

/-- The line is held and its string is `s`. -/
structure Line (h : Hdr) (s : List UInt8) : Prop where
  held : Held h
  reads : Reads h s

theorem Reads.take {h : Hdr} {s : List UInt8} (hr : Reads h s) : h.data.take h.len = s := by
  have hdata := congrArg (List.take h.len) hr.data
  rwa [List.take_take, Nat.min_eq_left (Nat.le_succ _), hr.len, List.take_left, ← hr.len] at hdata

/-- A new line. -/
theorem inaStrNew_reads (junk : Nat → UInt8) :
    ∃ h, inaStrNew junk readBufferChunkSize = some h ∧ Held h ∧ Reads h [] ∧ h.size = 129 ∧
      h.data.length = 129 := by
  obtain ⟨h, heq, hh, hsize, hlen, hcap, hfront⟩ := inaStrNew_held junk
  refine ⟨h, heq, hh, ⟨hlen, ?_⟩, hsize, hcap⟩
  rw [hlen, hfront]
  rfl

/-- **Erasing erases nothing.** -/
theorem inaStrSubstr_reads (junk : Nat → UInt8) {h : Hdr} {s : List UInt8} (hh : Held h)
    (hr : Reads h s) (hpos : 0 < h.len) :
    ∃ h', inaStrSubstr junk h 0 (Mempool.subSz h.len 1) = some h' ∧ Held h' ∧ Reads h' s := by
  have hroom := hh.room
  have hcap : (h.data.take h.len ++ [0]).length = h.len + 1 := by
    rw [List.length_append, List.length_take_of_le (Nat.le_of_lt hroom), List.length_singleton]
  refine ⟨_, inaStrSubstr_erase junk hh hpos, ⟨?_, ?_⟩, hr.len, ?_⟩
  · rw [hcap]
    exact Nat.lt_succ_self _
  · rw [hcap]
    exact Nat.lt_of_le_of_lt hroom hh.small
  · rw [List.take_of_length_le (Nat.le_of_eq hcap), hr.take]

/-- A character and a NUL behind a string, in the bytes of `d`. -/
theorem Reads.append {h d : Hdr} {s : List UInt8} {c : UInt8} {o : Option Hdr} (hr : Reads h s)
    (heq : o = some ⟨d.size, h.len + 1, h.data.take h.len ++ [c] ++ 0 :: d.data.drop (h.len + 2)⟩)
    (hroom : h.len + 1 < d.data.length) (hsmall : d.data.length < 2 ^ 32) :
    ∃ h', o = some h' ∧ Line h' (s ++ [c]) ∧ h'.size = d.size ∧ h'.data.length = d.data.length := by
  rw [hr.take] at heq
  have hlen : (s ++ [c]).length = h.len + 1 := by
    rw [List.length_append, List.length_singleton, hr.len]
  have hcap : (s ++ [c] ++ 0 :: d.data.drop (h.len + 2)).length = d.data.length := by
    rw [List.length_append, hlen, List.length_cons, List.length_drop]
    omega
  refine ⟨_, heq, ⟨⟨hcap.symm ▸ hroom, hcap.symm ▸ hsmall⟩, hlen.symm, ?_⟩, rfl, hcap⟩
  rw [← hlen, List.take_length_add_append]
  rfl

/-- What a byte adds to what is typed. -/
def character (c : UInt8) : List UInt8 := if printable c then [c] else []

theorem characters_cons (c : UInt8) (bytes : List UInt8) :
    characters (c :: bytes) = if endsLine c then [] else character c ++ characters bytes := by
  rw [characters, before_cons]
  split
  · rfl
  · rw [List.filter_cons, character]
    split
    · rfl
    · rfl

/-- A byte that is read as the first one starts the line. -/
theorem readByte_none (rcv : Bool) (c : UInt8) {junk : Nat → UInt8} {h : Hdr}
    (hnew : inaStrNew junk readBufferChunkSize = some h) :
    readByte rcv none c junk = readByte rcv (some h) c junk := by
  have hsame : ensureLine junk none = ensureLine junk (some h) := hnew
  rw [readByte, readByte, hsame]

/-- **A byte that is read** adds its character or nothing. -/
theorem readByte_line {h h' : Hdr} {s : List UInt8} (hl : Line h s) {c : UInt8}
    {junk : Nat → UInt8} {last : Bool} (hread : readByte false (some h) c junk = some (h', last)) :
    last = endsLine c ∧ Line h' (s ++ character c) := by
  rw [readByte, ensureLine, Option.bind_eq_bind, Option.bind_some] at hread
  by_cases hend : endsLine c = true
  · rw [if_pos hend] at hread
    obtain ⟨rfl, rfl⟩ := Prod.mk.inj (Option.some.inj hread)
    rw [character, endsLine_not_printable hend, if_neg Bool.false_ne_true, List.append_nil]
    exact ⟨hend.symm, hl⟩
  rw [if_neg hend] at hread
  rw [Bool.eq_false_iff.mpr hend]
  -- An erasing byte leaves the string as it is.
  by_cases herase : erases c = true
  · rw [if_pos herase] at hread
    rw [character, erases_not_printable herase, if_neg Bool.false_ne_true, List.append_nil]
    split at hread
    · rename_i hpos
      obtain ⟨d, heq, hheld, hreads⟩ := inaStrSubstr_reads junk hl.held hl.reads hpos
      rw [heq, Option.bind_some] at hread
      obtain ⟨rfl, rfl⟩ := Prod.mk.inj (Option.some.inj hread)
      exact ⟨rfl, hheld, hreads⟩
    · obtain ⟨rfl, rfl⟩ := Prod.mk.inj (Option.some.inj hread)
      exact ⟨rfl, hl⟩
  rw [if_neg herase] at hread
  by_cases hprint : printable c = true
  · rw [if_pos hprint] at hread
    rw [character, if_pos hprint]
    obtain ⟨d, hd, heq⟩ := Option.bind_eq_some_iff.mp hread
    obtain ⟨rfl, rfl⟩ := Prod.mk.inj (Option.some.inj heq)
    by_cases hroom : h.len + 1 < (Str.ensureSize junk h 1).data.length
    · obtain ⟨d', heq', hline, -⟩ :=
        hl.reads.append (inaStrAppendChr_some junk hl.held c hroom) hroom
          (ensureSize_small junk hl.held 1)
      obtain rfl := Option.some.inj (heq'.symm.trans hd)
      exact ⟨rfl, hline⟩
    · rw [inaStrAppendChr_none junk hl.held c hroom] at hd
      cases hd
  · rw [if_neg hprint] at hread
    obtain ⟨rfl, rfl⟩ := Prod.mk.inj (Option.some.inj hread)
    rw [character, if_neg hprint, List.append_nil]
    exact ⟨rfl, hl⟩

/-- **A line that is returned** has all characters that were typed. -/
theorem typed_line {h h' : Hdr} {s rest : List UInt8} (hl : Line h s)
    {bytes : List (UInt8 × (Nat → UInt8))} (ht : typed (some h) bytes = .line h' rest) :
    Reads h' (s ++ characters (bytes.map Prod.fst)) := by
  induction bytes generalizing h s with
  | nil => cases ht
  | cons b bytes ih =>
    obtain ⟨c, junk⟩ := b
    rw [List.map_cons, characters_cons]
    rw [typed] at ht
    split at ht
    · cases ht
    · rename_i h₁ hread
      obtain ⟨hend, hl'⟩ := readByte_line hl hread
      obtain ⟨rfl, -⟩ := Ending.line.inj ht
      have hnone : character c = [] := by
        rw [character, endsLine_not_printable hend.symm, if_neg Bool.false_ne_true]
      rw [hnone, List.append_nil] at hl'
      rw [← hend, if_pos rfl, List.append_nil]
      exact hl'.reads
    · rename_i h₁ hread
      obtain ⟨hend, hl'⟩ := readByte_line hl hread
      rw [← hend, if_neg Bool.false_ne_true, ← List.append_assoc]
      exact ih hl' ht

/-! ## How far a line grows

The size in the header doubles up to 512 KiB and then grows by as much, so below 2^31 it is always
one of the `Rung`s, and there is room. From there the next growth is one whose top bit does not
count. -/

/-- The lengths a line grows to: powers of two, and then multiples of 512 KiB. -/
def Rung (d : Nat) : Prop := (∃ k ≤ 19, d = 2 ^ k) ∨ 2 ^ 19 ∣ d

/-- The size of a line with `n` characters. -/
def Fits (size n : Nat) : Prop :=
  (∃ d, size = d + 1 ∧ n < d ∧ d ≤ 2 ^ 31 - 2 ^ 19 ∧ Rung d) ∨
    (size = 2 ^ 31 + 1 ∧ 0 < n ∧ n ≤ 2 ^ 31)

theorem Fits.lt {size n : Nat} (h : Fits size n) : n < size ∧ n ≤ 2 ^ 31 := by
  rcases h with ⟨d, rfl, hn, hd, -⟩ | ⟨rfl, -, hn⟩ <;> omega

/-- A line whose length is reached grows to the next one. -/
theorem Rung.grown {d n : Nat} (hr : Rung d) (hn : n + 1 = d) (hd : d ≤ 2 ^ 31 - 2 ^ 19) :
    Fits (Str.grownLen n 1 + 1) (n + 1) := by
  have hmax : maxPrealloc = 2 ^ 19 := rfl
  rw [Str.grownLen, hn, hmax]
  by_cases hsmall : d < 2 ^ 19
  · rw [if_pos hsmall]
    refine Or.inl ⟨d * 2, rfl, by omega, by omega, ?_⟩
    rcases hr with ⟨k, hk, rfl⟩ | hdvd
    · have hlt : k < 19 := (Nat.pow_lt_pow_iff_right (by decide)).mp hsmall
      exact Or.inl ⟨k + 1, hlt, (Nat.pow_succ ..).symm⟩
    · exact absurd (Nat.le_of_dvd (by omega) hdvd) (Nat.not_le.mpr hsmall)
  · rw [if_neg hsmall]
    have hdvd : 2 ^ 19 ∣ d := by
      rcases hr with ⟨k, hk, rfl⟩ | hdvd
      · have hle : 19 ≤ k := (Nat.pow_le_pow_iff_right (by decide)).mp (Nat.le_of_not_lt hsmall)
        exact Nat.pow_dvd_pow 2 hle
      · exact hdvd
    by_cases hlast : d + 2 ^ 19 ≤ 2 ^ 31 - 2 ^ 19
    · exact Or.inl ⟨d + 2 ^ 19, rfl, by omega, hlast, Or.inr (Nat.dvd_add hdvd (Nat.dvd_refl _))⟩
    · have htop : d + 2 ^ 19 = 2 ^ 31 := by omega
      exact Or.inr ⟨by rw [htop], by omega, by omega⟩

/-- What `__ina_ensure_size` finds unused. -/
theorem ensureSize_cases (junk : Nat → UInt8) (h : Hdr) :
    (h.size % 2 ^ 31 + 2 ^ 64 - h.len - 1) % 2 ^ 64 > 1 ∧ Str.ensureSize junk h 1 = h ∨
    ¬ (h.size % 2 ^ 31 + 2 ^ 64 - h.len - 1) % 2 ^ 64 > 1 ∧
      (Str.ensureSize junk h 1).size = (Str.grownLen h.len 1 + 1) % 2 ^ 32 ∧
      (Str.ensureSize junk h 1).data.length = (Str.grownLen h.len 1 + 1) % 2 ^ 32 := by
  simp only [Str.ensureSize, Nat.and_two_pow_sub_one_eq_mod]
  by_cases hroom : (h.size % 2 ^ 31 + 2 ^ 64 - h.len - 1) % 2 ^ 64 > 1
  · exact Or.inl ⟨hroom, if_pos hroom⟩
  · refine Or.inr ⟨hroom, ?_⟩
    simp only [if_neg hroom, Str.memRealloc_length, Str.grownLen, and_self]

/-- **Up to 2^31 characters** there is room for one more. -/
theorem Fits.ensureSize {h : Hdr} (hf : Fits h.size h.len) (hcap : h.size = h.data.length)
    (hlt : h.len < 2 ^ 31) (junk : Nat → UInt8) :
    (Str.ensureSize junk h 1).size = (Str.ensureSize junk h 1).data.length ∧
      Fits (Str.ensureSize junk h 1).size (h.len + 1) := by
  rcases ensureSize_cases junk h with ⟨hroom, heq⟩ | ⟨hfull, hsize, hdata⟩
  · rw [heq]
    refine ⟨hcap, ?_⟩
    rcases hf with ⟨d, hd, hn, hle, hr⟩ | ⟨hsize, hpos, hn⟩
    · rw [hd] at hroom ⊢
      exact Or.inl ⟨d, rfl, by omega, hle, hr⟩
    · exact Or.inr ⟨hsize, Nat.succ_pos _, hlt⟩
  · rcases hf with ⟨d, hd, hn, hle, hr⟩ | ⟨htop, hpos, hn⟩
    · -- The size is reached, and grows to the next one.
      have hreached : h.len + 1 = d := by
        rw [hd] at hfull
        omega
      have hgrown := hr.grown hreached hle
      have hlt32 : Str.grownLen h.len 1 + 1 < 2 ^ 32 := by
        have hbounds := (Str.grownLen_bounds h.len 1).2
        have hmax : maxPrealloc = 2 ^ 19 := rfl
        omega
      rw [Nat.mod_eq_of_lt hlt32] at hsize hdata
      rw [hsize]
      exact ⟨hdata.symm, hgrown⟩
    · rw [htop] at hfull
      omega

/-- With 2^31 characters there is none. -/
theorem Fits.full {h : Hdr} (hf : Fits h.size h.len) (hcap : h.size = h.data.length)
    (htop : h.len = 2 ^ 31) (junk : Nat → UInt8) :
    ¬ h.len + 1 < (Str.ensureSize junk h 1).data.length := by
  rcases hf with ⟨d, -, hn, hle, -⟩ | ⟨hsize, -, -⟩
  · omega
  · rcases ensureSize_cases junk h with ⟨-, heq⟩ | ⟨hfull, -, -⟩
    · rw [heq, ← hcap, hsize, htop]
      exact Nat.lt_irrefl _
    · rw [hsize, htop] at hfull
      exact absurd hfull (by decide)

/-- A line to which characters were appended only. -/
structure Grown (h : Hdr) (s : List UInt8) : Prop where
  line : Line h s
  cap : h.size = h.data.length
  fits : Fits h.size s.length

theorem Grown.append {h : Hdr} {s : List UInt8} (hg : Grown h s) (hlt : s.length < 2 ^ 31)
    (junk : Nat → UInt8) (c : UInt8) :
    ∃ h', inaStrAppendChr junk h c = some h' ∧ Grown h' (s ++ [c]) := by
  have hlen := hg.line.reads.len
  have hfits := hg.fits
  rw [← hlen] at hfits hlt
  obtain ⟨hcap, hfits'⟩ := hfits.ensureSize hg.cap hlt junk
  have hroom : h.len + 1 < (Str.ensureSize junk h 1).data.length := hcap ▸ hfits'.lt.1
  obtain ⟨h', heq, hline, hsize, hdata⟩ :=
    hg.line.reads.append (inaStrAppendChr_some junk hg.line.held c hroom) hroom
      (ensureSize_small junk hg.line.held 1)
  refine ⟨h', heq, hline, ?_, ?_⟩
  · rw [hsize, hdata, hcap]
  · rw [hsize, List.length_append, List.length_singleton, ← hlen]
    exact hfits'

theorem Grown.append_full {h : Hdr} {s : List UInt8} (hg : Grown h s) (htop : s.length = 2 ^ 31)
    (junk : Nat → UInt8) (c : UInt8) : inaStrAppendChr junk h c = none := by
  have hlen := hg.line.reads.len
  have hfits := hg.fits
  rw [← hlen] at hfits htop
  exact inaStrAppendChr_none junk hg.line.held c (hfits.full hg.cap htop junk)

theorem inaStrNew_grown (junk : Nat → UInt8) :
    ∃ h, inaStrNew junk readBufferChunkSize = some h ∧ Grown h [] := by
  obtain ⟨h, heq, hheld, hreads, hsize, hcap⟩ := inaStrNew_reads junk
  refine ⟨h, heq, ⟨hheld, hreads⟩, hsize.trans hcap.symm, Or.inl ⟨128, hsize, ?_, ?_, ?_⟩⟩
  · decide
  · decide
  · exact Or.inl ⟨7, by decide, by decide⟩

/-! ## Lines without erasing

A line that is only appended to is at most as long as what is typed, so the length can be counted
beside it. -/

/-- Nothing that is typed is erased later. -/
def Kept (s bytes : List UInt8) : Prop :=
  if s = [] then ¬ Erased bytes else (before bytes).any erases = false

theorem Kept.cons {s : List UInt8} {c : UInt8} {bytes : List UInt8} (hk : Kept s (c :: bytes))
    (hend : endsLine c = false) :
    (erases c = true → s = []) ∧ Kept (s ++ character c) bytes := by
  have hbefore : before (c :: bytes) = c :: before bytes := by
    rw [before_cons, hend, if_neg Bool.false_ne_true]
  rw [Kept, Erased, hbefore] at hk
  by_cases hs : s = []
  · rw [if_pos hs, List.dropWhile_cons] at hk
    refine ⟨fun _ => hs, ?_⟩
    rw [Kept, hs, character, List.nil_append]
    by_cases hc : printable c = true
    · rw [hc, Bool.not_true, if_neg Bool.false_ne_true, List.any_cons, Bool.or_eq_true,
        not_or] at hk
      rw [if_pos hc, if_neg (List.cons_ne_nil _ _)]
      exact Bool.eq_false_iff.mpr hk.2
    · rw [Bool.eq_false_iff.mpr hc, Bool.not_false, if_pos rfl] at hk
      rw [if_neg hc, if_pos rfl]
      exact hk
  · rw [if_neg hs, List.any_cons, Bool.or_eq_false_iff] at hk
    refine ⟨fun herase => absurd herase (Bool.eq_false_iff.mp hk.1), ?_⟩
    rw [Kept, if_neg fun hnil => hs (List.append_eq_nil_iff.mp hnil).1]
    exact hk.2

/-- A byte that ends nothing and erases nothing is read as long as there is room. -/
theorem Grown.read {h : Hdr} {s : List UInt8} (hg : Grown h s) {c : UInt8}
    (hend : endsLine c = false) (herase : erases c = true → s = [])
    (hfits : s.length + (character c).length ≤ 2 ^ 31) (junk : Nat → UInt8) :
    ∃ h', readByte false (some h) c junk = some (h', false) ∧ Grown h' (s ++ character c) := by
  rw [readByte, ensureLine, Option.bind_eq_bind, Option.bind_some, hend,
    if_neg Bool.false_ne_true]
  by_cases hc : erases c = true
  · have hempty : ¬ h.len > 0 := by
      rw [hg.line.reads.len, herase hc]
      exact Nat.lt_irrefl 0
    rw [if_pos hc, if_neg hempty, character, erases_not_printable hc, if_neg Bool.false_ne_true,
      List.append_nil]
    exact ⟨h, rfl, hg⟩
  rw [if_neg hc]
  by_cases hprint : printable c = true
  · rw [character, if_pos hprint, List.length_singleton] at hfits
    rw [if_pos hprint, character, if_pos hprint]
    obtain ⟨h', heq, hg'⟩ := hg.append hfits junk c
    rw [heq]
    exact ⟨h', rfl, hg'⟩
  · rw [if_neg hprint, character, if_neg hprint, List.append_nil]
    exact ⟨h, rfl, hg⟩

/-- The next character is written outside. -/
theorem Grown.read_full {h : Hdr} {s : List UInt8} (hg : Grown h s) (htop : s.length = 2 ^ 31)
    {c : UInt8} (hend : endsLine c = false) (hprint : printable c = true) (junk : Nat → UInt8) :
    readByte false (some h) c junk = none := by
  have hc : ¬ erases c = true := fun he => by
    rw [erases_not_printable he] at hprint
    cases hprint
  rw [readByte, ensureLine, Option.bind_eq_bind, Option.bind_some, hend,
    if_neg Bool.false_ne_true, if_neg hc, if_pos hprint, hg.append_full htop]
  rfl

/-- **A line without erasing** is returned with up to 2^31 characters, and written outside with
    more. -/
theorem typed_grown {h : Hdr} {s : List UInt8} (hg : Grown h s)
    {bytes : List (UInt8 × (Nat → UInt8))} (hk : Kept s (bytes.map Prod.fst))
    (hends : ∃ c ∈ bytes.map Prod.fst, endsLine c = true) :
    (s.length + (characters (bytes.map Prod.fst)).length ≤ 2 ^ 31 →
      ∃ h' rest, typed (some h) bytes = .line h' rest) ∧
    (2 ^ 31 < s.length + (characters (bytes.map Prod.fst)).length →
      typed (some h) bytes = .outside) := by
  induction bytes generalizing h s with
  | nil =>
    obtain ⟨c, hc, -⟩ := hends
    exact absurd hc List.not_mem_nil
  | cons b bytes ih =>
    obtain ⟨c, junk⟩ := b
    rw [List.map_cons] at hk hends ⊢
    rw [characters_cons, typed]
    have hle := hg.fits.lt.2
    by_cases hend : endsLine c = true
    · rw [readByte_ends false _ hend, ensureLine, Option.map_some, if_pos hend, List.length_nil,
        Nat.add_zero]
      exact ⟨fun _ => ⟨h, _, rfl⟩, fun hlt => absurd hlt (Nat.not_lt.mpr hle)⟩
    · rw [Bool.not_eq_true] at hend
      obtain ⟨herase, hk'⟩ := hk.cons hend
      have hends' : ∃ c ∈ bytes.map Prod.fst, endsLine c = true := by
        obtain ⟨d, hd, hdend⟩ := hends
        rcases List.mem_cons.mp hd with rfl | hd
        · rw [hend] at hdend
          cases hdend
        · exact ⟨d, hd, hdend⟩
      rw [hend, if_neg Bool.false_ne_true, List.length_append]
      -- As long as there is room the line goes on, and the first character without room is written
      -- outside.
      by_cases hroom : s.length + (character c).length ≤ 2 ^ 31
      · obtain ⟨h', hread, hg'⟩ := hg.read hend herase hroom junk
        have hrest := ih hg' hk' hends'
        rw [List.length_append, Nat.add_assoc] at hrest
        rw [hread]
        exact hrest
      · have hprint : printable c = true := by
          by_contra hc
          rw [character, if_neg hc] at hroom
          exact hroom hle
        rw [character, if_pos hprint, List.length_singleton] at hroom ⊢
        rw [hg.read_full (by omega) hend hprint]
        exact ⟨fun hfits => by omega, fun _ => rfl⟩

/-- The line of bytes on their own: the first of them starts it. -/
theorem typed_none {bytes : List (UInt8 × (Nat → UInt8))}
    (hends : ∃ c ∈ bytes.map Prod.fst, endsLine c = true) :
    ∃ h, Grown h [] ∧ typed none bytes = typed (some h) bytes := by
  cases bytes with
  | nil =>
    obtain ⟨c, hc, -⟩ := hends
    exact absurd hc List.not_mem_nil
  | cons b bytes =>
    obtain ⟨c, junk⟩ := b
    obtain ⟨h, hnew, hg⟩ := inaStrNew_grown junk
    refine ⟨h, hg, ?_⟩
    rw [typed, typed, readByte_none false c hnew]

theorem Reads.eq {h : Hdr} {s t : List UInt8} (hs : Reads h s) (ht : Reads h t) : s = t :=
  hs.take.symm.trans ht.take

section Edited

variable {polls : List Poll} (hends : ∃ c ∈ input polls, endsLine c = true)
include hends

/-- A line that is returned has all that was typed. -/
theorem returned_reads {h : Hdr} {rest : List Poll}
    (hline : inaCioReadLine none polls = .returned (some h) (.ok ()) rest) :
    Reads h (characters (input polls)) := by
  obtain ⟨h₀, hg, hnone⟩ := typed_none hends
  have his := inaCioReadLine_is none polls
  rw [hnone] at his
  exact typed_line hg.line (his.ending hline)

/-- It is no line of which something was to be erased. -/
theorem not_erased (hedited : EditedLine polls) : ¬ Erased (input polls) := by
  obtain ⟨h, rest, hline, hreads⟩ := hedited
  intro herased
  have hlt := edited_length_lt herased
  rw [hreads.eq (returned_reads hends hline)] at hlt
  exact Nat.lt_irrefl _ hlt

/-- Without erasing, it is a matter of length whether there is a line. -/
theorem returned_iff (hkept : ¬ Erased (input polls)) :
    (∃ h rest, inaCioReadLine none polls = .returned (some h) (.ok ()) rest) ↔
      (characters (input polls)).length ≤ 2 ^ 31 := by
  obtain ⟨h₀, hg, hnone⟩ := typed_none hends
  have his := inaCioReadLine_is none polls
  have hk : Kept [] (input polls) := by
    rw [Kept, if_pos rfl]
    exact hkept
  obtain ⟨hsmall, hlarge⟩ := typed_grown hg hk hends
  rw [List.length_nil, Nat.zero_add] at hsmall hlarge
  rw [hnone] at his
  constructor
  · rintro ⟨h, rest, hline⟩
    refine Nat.le_of_not_lt fun hlt => ?_
    have hout := (his.ending hline).symm.trans (hlarge hlt)
    cases hout
  · intro hfits
    obtain ⟨h, rest, htyped⟩ := hsmall hfits
    rw [htyped] at his
    obtain ⟨polls', hline, -⟩ := his.returned
    exact ⟨h, polls', hline⟩

/-- **A line is what its bytes make of it exactly when nothing is erased and it has at most 2^31
    characters.** -/
theorem editedLine_iff :
    EditedLine polls ↔ ¬ Erased (input polls) ∧ (characters (input polls)).length ≤ 2 ^ 31 := by
  constructor
  · intro hedited
    have hkept := not_erased hends hedited
    obtain ⟨h, rest, hline, -⟩ := hedited
    exact ⟨hkept, (returned_iff hends hkept).mp ⟨h, rest, hline⟩⟩
  · rintro ⟨hkept, hfits⟩
    obtain ⟨h, rest, hline⟩ := (returned_iff hends hkept).mpr hfits
    refine ⟨h, rest, hline, ?_⟩
    rw [edited_eq hkept]
    exact returned_reads hends hline

end Edited

/-- Two characters and a newline, with a pause. -/
theorem editedLine_iff_two :
    EditedLine [.byte 97 fun _ => 0, .idle, .byte 98 fun _ => 0, .byte 10 fun _ => 0] :=
  (editedLine_iff ⟨10, by decide, by decide⟩).mpr ⟨by decide, by decide⟩

/-- A character, a backspace and a newline: the character is still there. -/
theorem backspace_keeps :
    ¬ EditedLine [.byte 97 fun _ => 0, .byte 8 fun _ => 0, .byte 10 fun _ => 0] :=
  fun hedited => not_erased ⟨10, by decide, by decide⟩ hedited (by decide)

end Cio
end Inac
