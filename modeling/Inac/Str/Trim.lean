import Mathlib.Data.List.DropRight
import Inac.Str.Refine

/-!
# `ina_str_trim`

The two loops stop at the first and at the last byte that stays. They run on the same bytes, so
where every byte goes they cross: the front loop runs past the end, and the back loop stops at the
start without looking at it.

The function reads the bytes and `len` and nothing else of the header, so what holds of it holds of
every string (`Spells`), whatever its `size` says and wherever its memory is from.

What a byte is tried with is `strchr`, and `strchr` finds the terminator of the set as well. So there
are two notions here. `trimmed` is what the loops leave, with a NUL going like a byte of the set, and
it is what the correctness of the loops is stated with. `strip` is what trimming means: the bytes of
the set go and no others. The two come apart on a string that holds a NUL where the bytes of the set
end, and nowhere else (`trimmed_eq_strip_iff`).
-/

namespace Inac
namespace Str

open Lib

/-- The bytes of a string are `s`, with a NUL behind them; `len` is a `uint32_t`. -/
structure Spells (h : Hdr) (s : List UInt8) : Prop where
  data : ∃ rest, h.data = s ++ 0 :: rest
  len : h.len = s.length
  len_lt : s.length < 2 ^ 32

theorem Rep.spells {h : Hdr} {s : List UInt8} (hr : Rep h s) : Spells h s := by
  refine ⟨hr.data, hr.len, ?_⟩
  have hlen := hr.len_lt
  have hsize := hr.size
  have hlt := hr.size_lt
  have hslen := hr.len
  omega

theorem Spells.lt_length {h : Hdr} {s : List UInt8} (hs : Spells h s) :
    s.length < h.data.length := by
  obtain ⟨rest, hdata⟩ := hs.data
  rw [hdata, List.length_append, List.length_cons]
  omega

/-! ## Stripping

For any test of the elements, and with what happens if the test is widened. -/

section Strip

variable {α : Type} {p q : α → Bool} {s : List α} {a : α}

/-- The sequence without its longest prefix and its longest suffix of elements that pass `p`. -/
def stripBy (p : α → Bool) (s : List α) : List α := (s.dropWhile p).rdropWhile p

theorem stripBy_head (h : (stripBy p s).head? = some a) : p a = false := by
  have hne : stripBy p s ≠ [] := by
    intro hnil
    rw [hnil] at h
    cases h
  have hpre : stripBy p s <+: s.dropWhile p := List.rdropWhile_prefix _ _
  rw [List.head?_eq_some_head hne, hpre.head hne] at h
  rw [← Option.some.inj h]
  exact List.head_dropWhile_not p (hpre.ne_nil hne)

theorem stripBy_last (h : (stripBy p s).getLast? = some a) : p a = false := by
  have hne : (s.dropWhile p).rdropWhile p ≠ [] := by
    intro hnil
    rw [stripBy, hnil] at h
    cases h
  rw [stripBy, List.getLast?_eq_some_getLast hne] at h
  rw [← Option.some.inj h]
  exact Bool.eq_false_iff.mpr (List.rdropWhile_last_not p _ hne)

/-- A wider test drops no more from the front, if it does not pass what the narrower one stops
    at. -/
theorem dropWhile_eq_of_head (hpq : ∀ a, q a = true → p a = true)
    (h : ∀ a, (s.dropWhile q).head? = some a → p a = false) : s.dropWhile p = s.dropWhile q := by
  induction s with
  | nil => rfl
  | cons a s ih =>
    by_cases hq : q a = true
    · rw [List.dropWhile_cons_of_pos hq] at h ⊢
      rw [List.dropWhile_cons_of_pos (hpq a hq)]
      exact ih h
    · rw [List.dropWhile_cons_of_neg hq] at h ⊢
      have hp : p a = false := h a rfl
      rw [List.dropWhile_cons_of_neg (by rw [hp]; exact Bool.false_ne_true)]

/-- Nor does it strip more, if it does not pass the two ends of what the narrower one leaves. -/
theorem stripBy_eq_of_ends (hpq : ∀ a, q a = true → p a = true)
    (hhead : ∀ a, (stripBy q s).head? = some a → p a = false)
    (hlast : ∀ a, (stripBy q s).getLast? = some a → p a = false) :
    stripBy p s = stripBy q s := by
  by_cases hnil : stripBy q s = []
  · have hq : ∀ a ∈ s.dropWhile q, q a = true := List.rdropWhile_eq_nil_iff.mp hnil
    have hall : ∀ a ∈ s, p a = true := by
      intro a ha
      rw [← List.takeWhile_append_dropWhile (p := q) (l := s)] at ha
      rcases List.mem_append.mp ha with ha | ha
      · exact hpq a (List.mem_takeWhile_imp ha)
      · exact hpq a (hq a ha)
    rw [hnil, stripBy, List.dropWhile_eq_nil_iff.mpr hall, List.rdropWhile_nil]
  · have hpre : stripBy q s <+: s.dropWhile q := List.rdropWhile_prefix _ _
    have hfront : s.dropWhile p = s.dropWhile q := by
      refine dropWhile_eq_of_head hpq fun a ha => hhead a ?_
      rw [List.head?_eq_some_head (hpre.ne_nil hnil)] at ha
      rw [List.head?_eq_some_head hnil, hpre.head hnil, ha]
    rw [stripBy, hfront]
    refine congrArg List.reverse (dropWhile_eq_of_head hpq fun a ha => hlast a ?_)
    rw [stripBy, List.rdropWhile, List.getLast?_reverse]
    exact ha

end Strip

/-- The byte sequence without the bytes of `set` at both ends. -/
def strip (set s : List UInt8) : List UInt8 := stripBy (· ∈ set) s

/-- What the loops leave: the byte sequence without the bytes `strchr` finds at both ends, which are
    those of the set and NULs. -/
def trimmed (chars s : List UInt8) : List UInt8 := stripBy (strchr chars) s

/-! ## The loops

As functions on the bytes that are left, from either end. -/

theorem trimFront_eq (chars : List UInt8) {data : List UInt8} :
    ∀ (k sp : Nat), sp + k ≤ data.length →
      trimFront chars data sp k =
        sp + (((data.drop sp).take k).takeWhile (strchr chars)).length := by
  intro k
  induction k with
  | zero => intro sp _; rw [trimFront, List.take_zero]; rfl
  | succ k ih =>
    intro sp hlen
    have hsp : sp < data.length := by omega
    rw [trimFront, List.drop_eq_getElem_cons hsp, List.take_succ_cons, List.takeWhile_cons,
      List.getD_eq_getElem _ _ hsp]
    by_cases hp : strchr chars data[sp] = true
    · rw [if_pos hp, if_pos hp, ih (sp + 1) (by omega), List.length_cons]
      omega
    · rw [if_neg hp, if_neg hp]
      rfl

/-- The back loop stops at the last byte that stays, and at the start at the latest. -/
theorem trimBack_eq (chars : List UInt8) {data : List UInt8} :
    ∀ ep : Nat, ep < data.length →
      trimBack chars data ep + 1 =
        max 1 ((data.take (ep + 1)).rdropWhile (strchr chars)).length := by
  intro ep
  induction ep with
  | zero =>
    intro hlen
    have hle : ((data.take 1).rdropWhile (strchr chars)).length ≤ 1 :=
      Nat.le_trans (List.rdropWhile_prefix _ _).length_le (by rw [List.length_take]; omega)
    rw [trimBack, Nat.zero_add, Nat.max_eq_left hle]
  | succ ep ih =>
    intro hlen
    rw [trimBack, List.take_succ_eq_append_getElem hlen, List.rdropWhile_concat,
      List.getD_eq_getElem _ _ hlen]
    by_cases hp : strchr chars data[ep + 1] = true
    · rw [if_pos hp, if_pos hp]
      exact ih (by omega)
    · rw [if_neg hp, if_neg hp, List.length_append, List.length_take_of_le (by omega),
        List.length_singleton]
      omega

/-- A suffix some byte of which stays shields what stands before it. -/
theorem rdropWhile_append {α : Type} {p : α → Bool} {a t : List α} (ht : t.rdropWhile p ≠ []) :
    (a ++ t).rdropWhile p = a ++ t.rdropWhile p := by
  have hne : ¬ (t.reverse.dropWhile p).isEmpty = true := by
    intro hc
    apply ht
    rw [List.rdropWhile, List.isEmpty_iff.mp hc, List.reverse_nil]
  rw [List.rdropWhile, List.reverse_append, List.dropWhile_append, if_neg hne,
    List.reverse_append, List.reverse_reverse]
  rfl

/-- What the loops of `trim` compute, in terms of the bytes dropped in front and the bytes that
    stay. -/
theorem trim_bounds {h : Hdr} {s : List UInt8} (hs : Spells h s) (chars : List UInt8) :
    trimFront chars h.data 0 h.len = (s.takeWhile (strchr chars)).length ∧
    (∀ n, h.len = n + 1 →
      trimBack chars h.data n + 1 = max 1 (s.rdropWhile (strchr chars)).length) := by
  have hlt := hs.lt_length
  have hlen := hs.len
  have htake : h.data.take h.len = s := by
    obtain ⟨rest, hdata⟩ := hs.data
    rw [hdata, hlen, List.take_left]
  constructor
  · rw [trimFront_eq chars h.len 0 (by omega), List.drop_zero, htake, Nat.zero_add]
  · intro n hn
    rw [trimBack_eq chars n (by omega), ← hn, htake]

theorem trimmed_split (chars s : List UInt8) (hne : s.dropWhile (strchr chars) ≠ []) :
    trimmed chars s ≠ [] ∧
      s.rdropWhile (strchr chars) = s.takeWhile (strchr chars) ++ trimmed chars s := by
  have hstrip : trimmed chars s ≠ [] := by
    intro hc
    obtain ⟨c, rest, hcons⟩ := List.exists_cons_of_ne_nil hne
    have hall := List.rdropWhile_eq_nil_iff.mp hc c (by rw [hcons]; exact List.mem_cons_self)
    have hhead := List.head_dropWhile_not (strchr chars) hne
    simp only [hcons, List.head_cons] at hhead
    rw [hhead] at hall
    exact Bool.false_ne_true hall
  refine ⟨hstrip, ?_⟩
  have happ := rdropWhile_append (a := s.takeWhile (strchr chars)) hstrip
  rwa [List.takeWhile_append_dropWhile] at happ

theorem trim_len {h : Hdr} {s : List UInt8} (hs : Spells h s) (chars : List UInt8) :
    (if (trimFront chars h.data 0 h.len : Int) > trimEnd chars h.data h.len then 0
      else (trimEnd chars h.data h.len - trimFront chars h.data 0 h.len + 1).toNat) =
      (trimmed chars s).length := by
  obtain ⟨hfront, hback⟩ := trim_bounds hs chars
  have hlen := hs.len
  rw [hfront]
  have hsplit : (s.takeWhile (strchr chars)).length + (s.dropWhile (strchr chars)).length =
      s.length := by
    rw [← List.length_append, List.takeWhile_append_dropWhile]
  by_cases hnil : s.dropWhile (strchr chars) = []
  · -- nothing stays: the front loop ran to the end, the back loop to the start
    rw [hnil, List.length_nil, Nat.add_zero] at hsplit
    rw [trimmed, stripBy, hnil, List.rdropWhile_nil, List.length_nil, hsplit, if_pos]
    cases hn : h.len with
    | zero => rw [trimEnd]; omega
    | succ n =>
      have hall : s.rdropWhile (strchr chars) = [] := by
        rw [List.rdropWhile_eq_nil_iff]
        exact List.dropWhile_eq_nil_iff.mp hnil
      have hb := hback n hn
      rw [hall, List.length_nil] at hb
      rw [trimEnd]
      omega
  · obtain ⟨hne, hr'⟩ := trimmed_split chars s hnil
    have hpos : 0 < (trimmed chars s).length := List.length_pos_of_ne_nil hne
    cases hn : h.len with
    | zero =>
      rw [hn] at hlen
      rw [List.length_eq_zero_iff.mp hlen.symm] at hnil
      exact absurd rfl hnil
    | succ n =>
      have hb := hback n hn
      rw [hr', List.length_append] at hb
      rw [trimEnd, if_neg (by omega)]
      omega

/-! ## The function

It moves the bytes that stay to the front and writes the NUL. If nothing stays, the front loop has
gone past where the other one stops, and the length is zero. -/

/-- The string with the bytes `t` and a NUL written to its front. -/
def Hdr.refill (h : Hdr) (t : List UInt8) : Hdr :=
  { h with len := t.length, data := t ++ 0 :: h.data.drop (t.length + 1) }

theorem Hdr.refill_length {h : Hdr} {t : List UInt8} (hlt : t.length < h.data.length) :
    (h.refill t).data.length = h.data.length := by
  simp only [Hdr.refill, List.length_append, List.length_cons, List.length_drop]
  omega

theorem trimmed_length_le (chars s : List UInt8) :
    (s.takeWhile (strchr chars)).length + (trimmed chars s).length ≤ s.length := by
  have hpre : trimmed chars s <+: s.dropWhile (strchr chars) := List.rdropWhile_prefix _ _
  have hsplit : (s.takeWhile (strchr chars) ++ s.dropWhile (strchr chars)).length = s.length := by
    rw [List.takeWhile_append_dropWhile]
  rw [List.length_append] at hsplit
  have hle := hpre.length_le
  omega

/-- The bytes that stay stand behind the ones dropped in front. -/
theorem Spells.kept {h : Hdr} {s : List UInt8} (hs : Spells h s) (chars : List UInt8) :
    (h.data.drop (s.takeWhile (strchr chars)).length).take (trimmed chars s).length =
      trimmed chars s := by
  obtain ⟨rest, hdata⟩ := hs.data
  obtain ⟨rest', hrest⟩ : trimmed chars s <+: s.dropWhile (strchr chars) :=
    List.rdropWhile_prefix _ _
  have hsplit : h.data = s.takeWhile (strchr chars) ++ (trimmed chars s ++ (rest' ++ 0 :: rest)) := by
    rw [← List.append_assoc (trimmed chars s), hrest, ← List.append_assoc,
      List.takeWhile_append_dropWhile, hdata]
  rw [hsplit, List.drop_left, List.take_left]

/-- **`ina_str_trim`** writes the bytes that stay and a NUL to the front. -/
theorem inaStrTrim_eq {h : Hdr} {s : List UInt8} (hs : Spells h s) (chars : List UInt8) :
    inaStrTrim h (some chars) = some (h.refill (trimmed chars s)) := by
  have hlt := hs.lt_length
  have hle := trimmed_length_le chars s
  have hkept := hs.kept chars
  have hmod : (trimmed chars s).length % 2 ^ 32 = (trimmed chars s).length :=
    Nat.mod_eq_of_lt (by have := hs.len_lt; omega)
  have hroom : 0 + (trimmed chars s).length < h.data.length := by omega
  have hwrite := store_store_singleton (0 : UInt8) hroom
  rw [List.take_zero, List.nil_append, Nat.zero_add] at hwrite
  simp only [inaStrTrim, Option.bind_eq_bind]
  rw [trim_len hs chars, (trim_bounds hs chars).1, hkept, hmod]
  by_cases hsp : (s.takeWhile (strchr chars)).length = 0
  · -- nothing to move: the bytes that stay are in front already
    rw [hsp, List.drop_zero] at hkept
    have hsame : store h.data 0 (trimmed chars s) = some h.data := by
      rw [store_eq (Nat.le_of_lt hroom), List.take_zero, List.nil_append, Nat.zero_add]
      nth_rewrite 1 [← hkept]
      rw [List.take_append_drop]
    rw [if_neg (not_not.mpr hsp), ← hsame, ← Option.bind_assoc, hwrite]
    rfl
  · rw [if_pos hsp, ← Option.bind_assoc, hwrite]
    rfl

theorem inaStrTrim_yields {h : Hdr} {s : List UInt8} (hr : Rep h s) (chars : List UInt8) :
    Yields h (inaStrTrim h (some chars)) (trimmed chars s) := by
  have hlt := hr.spells.lt_length
  have hle := trimmed_length_le chars s
  have hlen := Hdr.refill_length (show (trimmed chars s).length < h.data.length by omega)
  refine ⟨_, inaStrTrim_eq hr.spells chars, ⟨⟨_, rfl⟩, rfl, ?_, hr.size_lt⟩, ?_⟩
  · rw [hlen]
    exact hr.size
  · rw [hlen]

/-! ## What is left of the string -/

theorem trimmed_idem (chars s : List UInt8) : trimmed chars (trimmed chars s) = trimmed chars s := by
  by_cases hnil : trimmed chars s = []
  · rw [hnil]
    rfl
  · have hpre : trimmed chars s <+: s.dropWhile (strchr chars) := List.rdropWhile_prefix _ _
    -- the first byte that stays is the first one the front loop stopped at
    have hfront : (trimmed chars s).dropWhile (strchr chars) = trimmed chars s := by
      rw [List.dropWhile_eq_self_iff]
      intro hpos
      have hne : s.dropWhile (strchr chars) ≠ [] := hpre.ne_nil hnil
      have hhead := List.head_dropWhile_not (strchr chars) hne
      rw [← hpre.head hnil, List.head_eq_getElem] at hhead
      rw [hhead]
      exact Bool.false_ne_true
    rw [trimmed, stripBy, hfront]
    exact List.rdropWhile_idempotent _ _

/-! ## What the set's terminator does

`strchr` with the set passes one byte more than membership in the set: the NUL. So the lemmas about
a wider test apply. -/

/-- A NUL stands at one of the ends. -/
def NulAtEnd (s : List UInt8) : Prop := s.head? = some 0 ∨ s.getLast? = some 0

instance (s : List UInt8) : Decidable (NulAtEnd s) := inferInstanceAs (Decidable (_ ∨ _))

/-- The characters a set given as a C string has. -/
def charSet (chars : List UInt8) : List UInt8 := chars.takeWhile (· ≠ 0)

/-- **What the loops leave is the stripped string** exactly if stripping leaves no NUL at an end. -/
theorem trimmed_eq_strip_iff (chars s : List UInt8) :
    trimmed chars s = strip (charSet chars) s ↔ ¬ NulAtEnd (strip (charSet chars) s) := by
  constructor
  · intro heq
    rw [← heq]
    have hnul : strchr chars 0 = true := by simp [strchr]
    rintro (hhead | hlast)
    · exact Bool.false_ne_true ((stripBy_head hhead).symm.trans hnul)
    · exact Bool.false_ne_true ((stripBy_last hlast).symm.trans hnul)
  · intro hnul
    have hset : ∀ c, decide (c ∈ charSet chars) = true → strchr chars c = true := by
      intro c hc
      rw [strchr, decide_eq_true_iff]
      exact .inr (of_decide_eq_true hc)
    -- a byte that stays is not in the set, so `strchr` finds it only if it is a NUL
    have hfound : ∀ c, decide (c ∈ charSet chars) = false → c ≠ 0 → strchr chars c = false := by
      intro c hc hc0
      rw [strchr, decide_eq_false_iff_not, not_or]
      exact ⟨hc0, of_decide_eq_false hc⟩
    refine stripBy_eq_of_ends hset (fun c hc => ?_) (fun c hc => ?_)
    · have hout := stripBy_head hc
      exact hfound c hout fun hc0 => hnul (.inl (hc0 ▸ hc))
    · have hout := stripBy_last hc
      exact hfound c hout fun hc0 => hnul (.inr (hc0 ▸ hc))

theorem mem_of_mem_strip {set s : List UInt8} {c : UInt8} (hc : c ∈ strip set s) : c ∈ s :=
  (List.dropWhile_suffix _).subset ((List.rdropWhile_prefix _ _).subset hc)

/-- So it is for a string without NULs. -/
theorem trimmed_eq {s set : List UInt8} (hs : 0 ∉ s) (hset : 0 ∉ set) (rest : List UInt8) :
    trimmed (set ++ 0 :: rest) s = strip set s := by
  have heq := trimmed_eq_strip_iff (set ++ 0 :: rest) s
  rw [charSet, takeWhile_cstr hset] at heq
  refine heq.mpr ?_
  rintro (hhead | hlast)
  · exact hs (mem_of_mem_strip (List.mem_of_mem_head? hhead))
  · exact hs (mem_of_mem_strip (List.mem_of_mem_getLast? hlast))

/-- **Trimming.** For every string without NULs and every set of characters, whatever stands behind
    the set's NUL: `ina_str_trim` leaves the string without its longest prefix and its longest
    suffix of characters in the set, with `len` and the NUL in their places and nothing else
    changed; trimmed once more it stays as it is. -/
theorem trim_strips {h : Hdr} {s : List UInt8} (hs : Spells h s) (hs0 : 0 ∉ s)
    {set : List UInt8} (hset : 0 ∉ set) (rest : List UInt8) :
    ∃ h', inaStrTrim h (some (set ++ 0 :: rest)) = some h' ∧
      Spells h' ((s.dropWhile (· ∈ set)).rdropWhile (· ∈ set)) ∧
      h'.size = h.size ∧ h'.data.length = h.data.length ∧
      inaStrTrim h' (some (set ++ 0 :: rest)) = some h' := by
  have hlt := hs.lt_length
  have hle := trimmed_length_le (set ++ 0 :: rest) s
  have hlen_lt := hs.len_lt
  have hspells : Spells (h.refill (trimmed (set ++ 0 :: rest) s)) (trimmed (set ++ 0 :: rest) s) :=
    ⟨⟨_, rfl⟩, rfl, by omega⟩
  refine ⟨_, inaStrTrim_eq hs _, ?_, rfl, Hdr.refill_length (by omega), ?_⟩
  · have heq := trimmed_eq hs0 hset rest
    rw [strip, stripBy] at heq
    rw [← heq]
    exact hspells
  · rw [inaStrTrim_eq hspells, trimmed_idem]
    simp only [Hdr.refill]
    rw [List.drop_append, List.drop_of_length_le (Nat.le_succ _), Nat.add_sub_cancel_left]
    rfl

/-- `"xx"` at `"x"`: the loops cross, and nothing is left. -/
theorem trim_strips_all :
    ∃ h', inaStrTrim ⟨3, 2, [120, 120, 0]⟩ (some [120, 0]) = some h' ∧ Spells h' [] ∧
      h'.data = [0, 120, 0] := by
  have hs : Spells ⟨3, 2, [120, 120, 0]⟩ [120, 120] := ⟨⟨[], rfl⟩, rfl, by decide⟩
  have hset : (0 : UInt8) ∉ [120] := by decide
  obtain ⟨h', htrim, hspells, -⟩ := trim_strips hs (by decide) hset []
  have heval : inaStrTrim ⟨3, 2, [120, 120, 0]⟩ (some [120, 0]) = some ⟨3, 0, [0, 120, 0]⟩ := by
    decide
  obtain rfl := Option.some.inj (heval.symm.trans htrim)
  exact ⟨_, heval, hspells, rfl⟩

end Str
end Inac
