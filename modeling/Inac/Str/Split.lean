import Inac.Lib.Pieces
import Inac.Str.Refine

/-!
# Splitting (`ina_str_split`)

The scan keeps an index `j`, the `start` of the token it is in, and an array of tokens that is
doubled when it has no room for the next token, the last one and the `NULL` behind them. `j` jumps
over each separator it finds. The invariant (`Scan.Ok`) says the three in one line each: the tokens
so far, each with the separator behind it, and the rest of the string from `start` on are the
string, and the array has room for two more. `Searched` says where the scan has looked: the tokens
are the pieces before the leftmost occurrences of the separator, and none is between `start` and
`j`. The loop ends at the last byte without looking at it, so a separator of one byte at the end of
the string stays in the last token.

The array is the buffer that was allocated, so a write outside it has no result (`fault`). That
doubling never wraps rests on what is in use: the string, the array and the tokens stand in one
address space, and an array of `2 ^ 60` slots does not fit beside its own tokens.
-/

namespace Inac
namespace Str

open Lib

/-! ## The allocator

Refusals are left to the allocator. The one law is that blocks do not overlap. -/

/-- The heap behind `ina_mem_alloc`: whether it gives `n` bytes while `used` are in use. Blocks do
    not overlap, so no more than the address space is ever in use. -/
structure Allocator where
  gives : Nat → Nat → Bool
  bounded : ∀ used n, gives used n = true → used + n ≤ 2 ^ 64

/-- `ina_mem_alloc`: the bytes in use afterwards, or `NULL`. -/
def Allocator.alloc (A : Allocator) (used n : Nat) : Option Nat :=
  if n ≠ 0 ∧ A.gives used n = true then some (used + n) else none

/-! ## The scan

The local variables of the source and its loop, whose rounds are bounded by the length. A token is a
string of its own, from `ina_str_new_fromblk`. -/

/-- An entry of the array of tokens. -/
inductive Cell where
  | unset
  | null
  | str (t : Hdr)
  deriving DecidableEq, Repr

/-- What `ina_str_split` returns: the array, with `*count`; `NULL` for its arguments, with
    `*count` zero; `NULL` since `bytes` were refused with `used` in use, with what `*count` is set
    to, if it is set. Or it writes outside the array, or does not return. -/
inductive SplitRet where
  | tokens (arr : List Cell) (count : Nat)
  | null
  | refused (used bytes : Nat) (count : Option Nat)
  | fault
  | hang
  deriving DecidableEq, Repr

/-- The local variables of the scan, and the bytes in use. -/
structure Scan where
  elements : Nat
  slots : Nat
  start : Nat
  tokens : List Cell
  used : Nat
  deriving DecidableEq, Repr

/-- Make room for the next element, the final one and the terminator. -/
def Scan.reserve (A : Allocator) (s : Scan) : Except SplitRet Scan :=
  if s.slots < s.elements + 3 then
    let bytes := 8 * s.slots * 2 % 2 ^ 64
    match A.alloc s.used bytes with
    | none => .error (.refused s.used bytes (some 0))
    | some used =>
      match store (List.replicate (bytes / 8) .unset) 0 (s.tokens.take s.slots) with
      | none => .error .fault
      | some tokens =>
        .ok { s with
          slots := s.slots * 2 % 2 ^ 64
          tokens := tokens
          used := used - 8 * s.tokens.length }
  else .ok s

/-- `tokens[elements] = ina_str_new_fromblk(str+start, n); elements++`. -/
def Scan.push (A : Allocator) (junk : Nat → UInt8) (str : List UInt8) (n : Nat) (s : Scan) :
    Except SplitRet Scan :=
  let bytes := (n + 1 + 8) % 2 ^ 64
  match A.alloc s.used bytes with
  | none => .error (.refused s.used bytes (some 0))
  | some used =>
    match inaStrNewFromblk junk (some (str.drop s.start)) n with
    | none => .error .fault
    | some t =>
      match store s.tokens s.elements [.str t] with
      | none => .error .fault
      | some tokens => .ok { s with elements := s.elements + 1, tokens := tokens, used := used }

/-- The test for a separator at `j`. -/
def isSep (str sep : List UInt8) (seplen j : Nat) : Prop :=
  (seplen = 1 ∧ str[j]? = sep[0]?) ∨ (str.drop j).take seplen = sep.take seplen

instance (str sep : List UInt8) (seplen j : Nat) : Decidable (isSep str sep seplen j) :=
  inferInstanceAs (Decidable (_ ∨ _))

/-- `for (j = 0; j < (len-1); j++)`. -/
def splitLoop (A : Allocator) (junk : Nat → UInt8) (str sep : List UInt8) (len seplen : Nat) :
    Nat → Nat → Scan → Except SplitRet Scan
  | 0, _, _ => .error .hang
  | fuel + 1, j, s =>
    if j < len - 1 then do
      let s ← s.reserve A
      if isSep str sep seplen j then
        let s ← s.push A junk str (j - s.start)
        -- skip the separator; the loop's own `j++` is the last one
        splitLoop A junk str sep len seplen fuel (j + seplen - 1 + 1) { s with start := j + seplen }
      else splitLoop A junk str sep len seplen fuel (j + 1) s
    else .ok s

/-- What follows the loop: the final element and the terminator. -/
def splitEnd (A : Allocator) (junk : Nat → UInt8) (str : List UInt8) (len : Nat) (s : Scan) :
    Except SplitRet SplitRet := do
  let s ← s.push A junk str (len - s.start)
  match store s.tokens s.elements [.null] with
  | none => .error .fault
  | some tokens => .ok (.tokens tokens s.elements)

/-- `ina_str_split`; `none` is `NULL`. `others` are the bytes in use besides `str`. -/
def inaStrSplit (A : Allocator) (junk : Nat → UInt8) (others : Nat) (str sep : Option (List UInt8)) :
    SplitRet :=
  match str, sep with
  | some str, some sep =>
    let len := strlen str
    let seplen := strlen sep
    if len = 0 ∨ seplen = 0 then .null
    else
      match A.alloc (others + (len + 1)) (8 * 5) with
      -- the one exit that leaves `*count` alone
      | none => .refused (others + (len + 1)) (8 * 5) none
      | some used =>
        let ret := do
          let s ← splitLoop A junk str sep len seplen (len + 1) 0
            ⟨0, 5, 0, List.replicate 5 .unset, used⟩
          splitEnd A junk str len s
        match ret with
        | .ok r => r
        | .error r => r
  | _, _ => .null

/-! ## C strings

The separator is compared with the bytes at `j`, which may go past the end of the string. -/

/-- Bytes without a NUL that start a C string lie before its end. -/
theorem prefix_cstr {p t rest : List UInt8} (hp : 0 ∉ p) (h : p <+: t ++ 0 :: rest) : p <+: t := by
  rcases Nat.le_total p.length t.length with hle | hle
  · exact List.prefix_of_prefix_length_le h (List.prefix_append ..) hle
  · obtain ⟨q, rfl⟩ := List.prefix_of_prefix_length_le (List.prefix_append t (0 :: rest)) h hle
    obtain ⟨r, hr⟩ := h
    rw [List.append_assoc, List.append_cancel_left_eq] at hr
    cases q with
    | nil => simp
    | cons x q =>
      rw [List.cons_append, List.cons.injEq] at hr
      rw [hr.1] at hp
      simp at hp

/-- **A match lies inside the string**, although `ina_mem_cmp` may be asked to look behind it. -/
theorem isSep.prefix {s p : List UInt8} {rest rest' : List UInt8} (hp : 0 ∉ p) {j : Nat}
    (hj : j < s.length) (h : isSep (s ++ 0 :: rest) (p ++ 0 :: rest') p.length j) :
    p <+: s.drop j := by
  have hdrop : (s ++ 0 :: rest).drop j = s.drop j ++ 0 :: rest :=
    List.drop_append_of_le_length (Nat.le_of_lt hj)
  rcases h with ⟨hone, hbyte⟩ | hcmp
  · obtain ⟨a, rfl⟩ := List.length_eq_one_iff.mp hone
    rw [List.getElem?_append_left hj, List.getElem?_eq_getElem hj] at hbyte
    obtain rfl : s[j] = a := Option.some.inj hbyte
    rw [List.drop_eq_getElem_cons hj]
    exact ⟨s.drop (j + 1), rfl⟩
  · rw [hdrop, List.take_append_of_le_length (Nat.le_refl _), List.take_length] at hcmp
    apply prefix_cstr hp
    rw [← hcmp]
    exact List.take_prefix ..

theorem isSep_of_starts {s p : List UInt8} {rest rest' : List UInt8} {j : Nat} (hj : j < s.length)
    (h : p <+: s.drop j) : isSep (s ++ 0 :: rest) (p ++ 0 :: rest') p.length j := by
  refine Or.inr ?_
  rw [List.drop_append_of_le_length (Nat.le_of_lt hj), List.take_append_of_le_length h.length_le,
    List.take_append_of_le_length (Nat.le_refl _), List.take_length]
  exact (List.prefix_iff_eq_take.mp h).symm

/-! ## The invariant of the scan

It is taken apart in two, as the parts are needed in different places: what has been cut off
(`Scan.Ok`) and where has been looked (`Searched`). -/

/-- The string a token of the bytes `b` is. -/
def token (b : List UInt8) : Hdr := ⟨(b.length + 1) % 2 ^ 32, b.length % 2 ^ 32, b ++ [0]⟩

/-- The characters of a string: the bytes before its first NUL. -/
def Hdr.cstr (h : Hdr) : List UInt8 := h.data.takeWhile (· ≠ 0)

/-- The array holds the tokens `bs`, and what is in use covers a string of `len` bytes, the array,
    and nine bytes for each token. -/
structure Scan.Holds (len : Nat) (sc : Scan) (bs : List (List UInt8)) : Prop where
  elements : sc.elements = bs.length
  cells : ∃ rest, sc.tokens = bs.map (fun b => Cell.str (token b)) ++ rest
  slots : sc.tokens.length = sc.slots
  five : 5 ≤ sc.slots
  used : len + 1 + 8 * sc.slots + 9 * sc.elements ≤ sc.used
  used_le : sc.used ≤ 2 ^ 64

/-- The invariant: the tokens with a separator behind each, and the rest, are the string. -/
structure Scan.Ok (s p : List UInt8) (sc : Scan) (bs : List (List UInt8)) : Prop where
  holds : sc.Holds s.length bs
  room : sc.elements + 2 ≤ sc.slots
  joined : bs.flatMap (· ++ p) ++ s.drop sc.start = s

/-- Where the scan has looked up to `j`: the tokens are cut at the leftmost separators, and there is
    none from `start` on. -/
structure Searched (s p : List UInt8) (start j : Nat) (bs : List (List UInt8)) : Prop where
  cut : ∀ bs', Leftmost p (s.drop start) bs' → Leftmost p s (bs ++ bs')
  clear : ∀ k, start ≤ k → k < j → ¬ p <+: s.drop k
  start_lt : p.length = 1 → start < s.length

/-- What a part of the function does: it goes on with `Q`, or returns `NULL` and counts no tokens
    since memory was refused. -/
def Runs {α : Type} (A : Allocator) (r : Except SplitRet α) (Q : α → Prop) : Prop :=
  match r with
  | .ok a => Q a
  | .error e => ∃ used bytes, e = .refused used bytes (some 0) ∧ A.alloc used bytes = none

theorem Runs.bind {α β : Type} {A : Allocator} {r : Except SplitRet α} {f : α → Except SplitRet β}
    {Q : α → Prop} {Q' : β → Prop} (hr : Runs A r Q) (hf : ∀ a, Q a → Runs A (f a) Q') :
    Runs A (r >>= f) Q' := by
  cases r with
  | ok a => exact hf a hr
  | error e => exact hr

theorem Runs.mono {α : Type} {A : Allocator} {r : Except SplitRet α} {Q Q' : α → Prop}
    (hr : Runs A r Q) (h : ∀ a, Q a → Q' a) : Runs A r Q' := by
  cases r with
  | ok a => exact h a hr
  | error e => exact hr

theorem Runs.refused {α : Type} {A : Allocator} {used bytes : Nat} {Q : α → Prop}
    (h : A.alloc used bytes = none) : Runs A (.error (.refused used bytes (some 0))) Q :=
  ⟨used, bytes, rfl, h⟩

theorem Allocator.alloc_some {A : Allocator} {used n used' : Nat}
    (h : A.alloc used n = some used') : used' = used + n ∧ used' ≤ 2 ^ 64 := by
  rw [Allocator.alloc] at h
  split at h
  · rename_i hg
    obtain rfl := Option.some.inj h
    exact ⟨rfl, A.bounded used n hg.2⟩
  · simp at h

/-- **Room for three.** The array is doubled when it has room for two only. -/
theorem Scan.reserve_runs (A : Allocator) {s p : List UInt8} {sc : Scan} {bs : List (List UInt8)}
    (hok : sc.Ok s p bs) :
    Runs A (sc.reserve A) fun sc' =>
      sc'.Ok s p bs ∧ sc'.elements + 3 ≤ sc'.slots ∧ sc'.start = sc.start := by
  have hh := hok.holds
  have hroom := hok.room
  have hfive := hh.five
  have hused := hh.used
  have hle := hh.used_le
  rw [Scan.reserve]
  split
  · -- the old array and its own tokens leave no room for `2 ^ 60` slots
    have hbytes : 8 * sc.slots * 2 % 2 ^ 64 = 8 * (sc.slots * 2) := by omega
    have hcells : 8 * (sc.slots * 2) / 8 = sc.slots * 2 := by omega
    have hnew : sc.slots * 2 % 2 ^ 64 = sc.slots * 2 := by omega
    simp only [hbytes, hcells, hnew]
    split
    · rename_i halloc
      exact Runs.refused halloc
    · rename_i used halloc
      obtain ⟨rfl, hle'⟩ := Allocator.alloc_some halloc
      have htake : sc.tokens.take sc.slots = sc.tokens :=
        List.take_of_length_le (Nat.le_of_eq hh.slots)
      have hstore : 0 + sc.tokens.length ≤ (List.replicate (sc.slots * 2) Cell.unset).length := by
        rw [List.length_replicate, hh.slots]
        omega
      rw [htake, store_eq hstore, List.take_zero, List.nil_append, Nat.zero_add]
      obtain ⟨rest, hcells'⟩ := hh.cells
      refine ⟨⟨⟨hh.elements, ?_, ?_, ?_, ?_, ?_⟩, ?_, hok.joined⟩, ?_, rfl⟩
      · exact ⟨rest ++ (List.replicate (sc.slots * 2) Cell.unset).drop sc.tokens.length, by
          simp only [hcells', List.append_assoc]⟩
      · simp only [List.length_append, List.length_drop, List.length_replicate, hh.slots]
        omega
      · simp only; omega
      · simp only [hh.slots]; omega
      · simp only [hh.slots]; omega
      · simp only; omega
      · simp only; omega
  · exact ⟨hok, by omega, rfl⟩

/-- **The next token.** -/
theorem Scan.push_runs (A : Allocator) (junk : Nat → UInt8) {s : List UInt8} (rest : List UInt8)
    {sc : Scan} {bs : List (List UInt8)} (hh : sc.Holds s.length bs)
    (hroom : sc.elements < sc.slots) {n : Nat} (hn : n ≤ (s.drop sc.start).length) :
    Runs A (sc.push A junk (s ++ 0 :: rest) n) fun sc' =>
      sc'.Holds s.length (bs ++ [(s.drop sc.start).take n]) ∧ sc'.elements = sc.elements + 1 ∧
        sc'.slots = sc.slots := by
  have hfive := hh.five
  have hused := hh.used
  have hle := hh.used_le
  have hnlen : n ≤ s.length := by rw [List.length_drop] at hn; omega
  -- The sum does not wrap, as the token is part of a string that is in memory.
  have hbytes : (n + 1 + 8) % 2 ^ 64 = n + 9 := by omega
  rw [Scan.push]
  simp only [hbytes]
  split
  · rename_i halloc
    exact Runs.refused halloc
  · rename_i used halloc
    obtain ⟨rfl, hle'⟩ := Allocator.alloc_some halloc
    have hblk : ((s ++ 0 :: rest).drop sc.start).take n = (s.drop sc.start).take n := by
      rw [List.drop_append, List.take_append_of_le_length hn]
    have hlen : ((s.drop sc.start).take n).length = n := List.length_take_of_le hn
    -- The token is a string of the bytes that were cut off.
    have hnew : inaStrNewFromblk junk (some ((s ++ 0 :: rest).drop sc.start)) n =
        some (token ((s.drop sc.start).take n)) := by
      rw [inaStrNewFromblk_eq junk, hblk, token, hlen]
      rw [List.drop_append, List.length_append]
      omega
    have hstore : sc.elements + [Cell.str (token ((s.drop sc.start).take n))].length ≤
        sc.tokens.length := by
      rw [hh.slots, List.length_singleton]
      exact hroom
    obtain ⟨cells, hcells⟩ := hh.cells
    -- The cells in front are those of the tokens there were.
    have hfront : sc.tokens.take sc.elements = bs.map fun b => Cell.str (token b) := by
      rw [hcells, hh.elements, List.take_left' (List.length_map ..)]
    rw [hnew]
    simp only [store_eq hstore]
    refine ⟨⟨?_, ⟨sc.tokens.drop (sc.elements + 1), ?_⟩, ?_, hfive, ?_, hle'⟩, rfl, rfl⟩
    · simp only [List.length_append, List.length_singleton, hh.elements]
    · simp only [hfront, List.map_append, List.map_cons, List.map_nil, List.length_singleton]
    · have htake := List.length_take_of_le (Nat.le_of_lt (hh.slots ▸ hroom))
      simp only [List.length_append, htake, List.length_drop, List.length_singleton, hh.slots]
      omega
    · simp only; omega

/-- A separator at `j` cuts what is left into the token, the separator and the rest. -/
theorem drop_eq_cut {s p : List UInt8} {start j : Nat} (hstart : start ≤ j)
    (h : p <+: s.drop j) :
    s.drop start = (s.drop start).take (j - start) ++ (p ++ s.drop (j + p.length)) := by
  obtain ⟨t, ht⟩ := h
  have hdrop : (s.drop start).drop (j - start) = p ++ s.drop (j + p.length) := by
    rw [List.drop_drop, Nat.add_sub_cancel' hstart, ← ht, ← List.drop_drop, ← ht, List.drop_left]
  rw [← hdrop, List.take_append_drop]

theorem Searched.found {s p : List UInt8} {start j : Nat} {bs : List (List UInt8)}
    (h : Searched s p start j bs) (hstart : start ≤ j) (hj : j < s.length - 1)
    (hsep : p <+: s.drop j) :
    Searched s p (j + p.length) (j + p.length) (bs ++ [(s.drop start).take (j - start)]) := by
  refine ⟨fun bs' hbs' => ?_, fun k hle hlt => by omega, fun hone => by omega⟩
  rw [List.append_assoc]
  apply h.cut
  have hcut := drop_eq_cut hstart hsep
  have hlen : ((s.drop start).take (j - start)).length ≤ j - start := List.length_take_le ..
  generalize (s.drop start).take (j - start) = t at hcut hlen
  rw [hcut]
  refine Leftmost.cut (fun k hk => ?_) hbs'
  rw [← hcut, List.drop_drop]
  exact h.clear (start + k) (by omega) (by omega)

theorem Searched.missed {s p : List UInt8} {start j : Nat} {bs : List (List UInt8)}
    (h : Searched s p start j bs) (hsep : ¬ p <+: s.drop j) : Searched s p start (j + 1) bs := by
  refine ⟨h.cut, fun k hle hlt => ?_, h.start_lt⟩
  rcases Nat.lt_succ_iff_lt_or_eq.mp hlt with hlt | rfl
  · exact h.clear k hle hlt
  · exact hsep

/-- **The loop** ends at the last byte, and keeps the invariants. -/
theorem splitLoop_runs (A : Allocator) (junk : Nat → UInt8) {s p : List UInt8}
    (rest rest' : List UInt8) (hp : 0 ∉ p) (hpos : p ≠ []) :
    ∀ (fuel j : Nat) {sc : Scan} {bs : List (List UInt8)}, sc.Ok s p bs →
      Searched s p sc.start j bs → sc.start ≤ j → j ≤ s.length → s.length < fuel + j →
      Runs A (splitLoop A junk (s ++ 0 :: rest) (p ++ 0 :: rest') s.length p.length fuel j sc)
        fun sc' => ∃ bs' j', sc'.Ok s p bs' ∧ Searched s p sc'.start j' bs' ∧
          s.length - 1 ≤ j' := by
  have hplen : 0 < p.length := List.length_pos_iff.mpr hpos
  intro fuel
  induction fuel with
  | zero => intro j _ _ _ _ _ hj hfuel; omega
  | succ fuel ih =>
    intro j sc bs hok hsearched hstart hj hfuel
    rw [splitLoop]
    split
    · rename_i hlt
      refine (sc.reserve_runs A hok).bind fun sc' ⟨hok', hroom, hsame⟩ => ?_
      rw [← hsame] at hstart hsearched
      split
      · rename_i hsep
        have hprefix := isSep.prefix hp (by omega) hsep
        have hin : j + p.length ≤ s.length := by
          have := hprefix.length_le
          rw [List.length_drop] at this
          omega
        have hn : j - sc'.start ≤ (s.drop sc'.start).length := by
          rw [List.length_drop]; omega
        refine (Scan.push_runs A junk rest hok'.holds (by omega) hn).bind
          fun sc'' ⟨hholds, helem, hslots⟩ => ?_
        have hskip : j + p.length - 1 + 1 = j + p.length := by omega
        rw [hskip]
        have hok'' : ({ sc'' with start := j + p.length } : Scan).Ok s p
            (bs ++ [(s.drop sc'.start).take (j - sc'.start)]) := by
          refine ⟨⟨hholds.1, hholds.2, hholds.3, hholds.4, hholds.5, hholds.6⟩, ?_, ?_⟩
          · simp only [helem, hslots]; omega
          · -- the token, the separator and the rest are the old rest
            calc (bs ++ [(s.drop sc'.start).take (j - sc'.start)]).flatMap (· ++ p) ++
                  s.drop (j + p.length)
                = bs.flatMap (· ++ p) ++ ((s.drop sc'.start).take (j - sc'.start) ++
                    (p ++ s.drop (j + p.length))) := by
                  simp [List.flatMap_append, List.append_assoc]
              _ = bs.flatMap (· ++ p) ++ s.drop sc'.start := by
                  rw [← drop_eq_cut hstart hprefix]
              _ = s := hok'.joined
        exact ih (j + p.length) hok'' (hsearched.found hstart hlt hprefix) (Nat.le_refl _) hin
          (by omega)
      · rename_i hsep
        have hmissed := hsearched.missed fun h => hsep (isSep_of_starts (by omega) h)
        exact ih (j + 1) hok' hmissed (by omega) (by omega) (by omega)
    · exact ⟨bs, j, hok, hsearched, by omega⟩

/-! ## The tokens joined

What the loop leaves is cut off as the last token, and joining all of them gives the string back. -/

theorem intercalate_append_singleton (p b : List UInt8) (bs : List (List UInt8)) :
    List.intercalate p (bs ++ [b]) = bs.flatMap (· ++ p) ++ b := by
  induction bs with
  | nil => simp [List.intercalate]
  | cons c bs ih =>
    rw [List.flatMap_cons, List.append_assoc, List.append_assoc, ← ih]
    cases bs <;> simp [List.intercalate, List.intersperse]

theorem token_cstr {b : List UInt8} (hb : 0 ∉ b) : (token b).cstr = b := takeWhile_cstr hb []

theorem map_token_cstr {bs : List (List UInt8)} (hzero : ∀ b ∈ bs, 0 ∉ b) :
    (bs.map token).map Hdr.cstr = bs := by
  rw [List.map_map]
  exact List.map_congr_left (fun b hb => token_cstr (hzero b hb)) |>.trans (List.map_id bs)

/-- What is returned: tokens that joined give the string, `*count` of them, and behind them in the
    array a `NULL`. -/
structure Splits (s p : List UInt8) (arr : List Cell) (count : Nat) (ts : List Hdr) : Prop where
  joined : List.intercalate p (ts.map Hdr.cstr) = s
  count : count = ts.length
  held : ∀ i (hi : i < ts.length), arr[i]? = some (.str (ts.get ⟨i, hi⟩))
  terminator : arr[ts.length]? = some .null ∧ ts.length < arr.length
  terminated : ∀ t ∈ ts, t.data = t.cstr ++ [0] ∧ t.len = t.cstr.length % 2 ^ 32

/-- The cells of the array start with the tokens. -/
theorem Splits.cells {s p : List UInt8} {arr : List Cell} {count : Nat} {ts : List Hdr}
    (h : Splits s p arr count ts) : ts.map Cell.str <+: arr := by
  rw [List.prefix_iff_getElem?]
  intro i hi
  rw [List.length_map] at hi
  rw [h.held i hi, List.getElem_map]
  rfl

theorem Splits.of_tokens {s p : List UInt8} {bs : List (List UInt8)} (rest : List Cell)
    (hjoined : List.intercalate p bs = s) (hzero : ∀ b ∈ bs, 0 ∉ b) :
    Splits s p ((bs.map fun b => Cell.str (token b)) ++ .null :: rest) bs.length
      (bs.map token) := by
  have hcstr := map_token_cstr hzero
  refine ⟨by rw [hcstr, hjoined], (List.length_map ..).symm, ?_, ⟨?_, ?_⟩, ?_⟩
  · intro i hi
    rw [List.length_map] at hi
    rw [List.getElem?_append_left (by rw [List.length_map]; exact hi)]
    simp [hi]
  · rw [List.getElem?_append_right (by simp)]
    simp
  · simp
  · intro t ht
    obtain ⟨b, hb, rfl⟩ := List.mem_map.mp ht
    rw [token_cstr (hzero b hb)]
    exact ⟨rfl, rfl⟩

theorem splitEnd_runs (A : Allocator) (junk : Nat → UInt8) {s p : List UInt8} (rest : List UInt8)
    (hs : 0 ∉ s) {sc : Scan} {bs : List (List UInt8)} (hok : sc.Ok s p bs) :
    Runs A (splitEnd A junk (s ++ 0 :: rest) s.length sc) fun r =>
      ∃ arr count ts, r = .tokens arr count ∧ Splits s p arr count ts ∧
        ts.map Hdr.cstr = bs ++ [s.drop sc.start] := by
  have hroom := hok.room
  have hn : s.length - sc.start ≤ (s.drop sc.start).length := Nat.le_of_eq List.length_drop.symm
  refine (Scan.push_runs A junk rest hok.holds (by omega) hn).bind
    fun sc' ⟨hholds, helem, hslots⟩ => ?_
  rw [List.take_of_length_le (Nat.le_of_eq List.length_drop)] at hholds
  have hstore : sc'.elements + [Cell.null].length ≤ sc'.tokens.length := by
    rw [hholds.slots, hslots, helem, List.length_singleton]
    exact hroom
  have hjoined : List.intercalate p (bs ++ [s.drop sc.start]) = s := by
    rw [intercalate_append_singleton, hok.joined]
  -- every token is part of the string, so it has no NUL of its own
  have hzero : ∀ b ∈ bs ++ [s.drop sc.start], 0 ∉ b := by
    intro b hb h0
    apply hs
    rw [← hok.joined]
    rcases List.mem_append.mp hb with hb | hb
    · exact List.mem_append_left _ (List.mem_flatMap.mpr ⟨b, hb, List.mem_append_left _ h0⟩)
    · rw [List.mem_singleton.mp hb] at h0
      exact List.mem_append_right _ h0
  obtain ⟨cells, hcells⟩ := hholds.cells
  have hfront : sc'.tokens.take sc'.elements =
      (bs ++ [s.drop sc.start]).map fun b => Cell.str (token b) := by
    rw [hcells, hholds.elements, List.take_left' (List.length_map ..)]
  rw [store_eq hstore, hfront, hholds.elements, List.append_assoc]
  exact ⟨_, _, _, rfl, Splits.of_tokens _ hjoined hzero, map_token_cstr hzero⟩

/-- The return of the tokens that were cut off and the rest of the string. -/
def Returns (s p : List UInt8) (r : SplitRet) : Prop :=
  ∃ arr count ts, r = .tokens arr count ∧ Splits s p arr count ts ∧
    ∃ bs start j, ts.map Hdr.cstr = bs ++ [s.drop start] ∧ Searched s p start j bs ∧
      s.length - 1 ≤ j

/-- `ina_str_split` of non-empty C strings returns, unless memory is refused; then it counts no
    tokens. -/
theorem inaStrSplit_runs (A : Allocator) (junk : Nat → UInt8) (others : Nat)
    {s p : List UInt8} (hs : s ≠ []) (hp : p ≠ []) (hs0 : 0 ∉ s) (hp0 : 0 ∉ p)
    (rest rest' : List UInt8) :
    Returns s p (inaStrSplit A junk others (some (s ++ 0 :: rest)) (some (p ++ 0 :: rest'))) ∨
    ∃ used bytes count,
      inaStrSplit A junk others (some (s ++ 0 :: rest)) (some (p ++ 0 :: rest')) =
        .refused used bytes count ∧ A.alloc used bytes = none ∧ count.getD 0 = 0 := by
  have hslen : s.length ≠ 0 := fun h => hs (List.length_eq_zero_iff.mp h)
  have hplen : p.length ≠ 0 := fun h => hp (List.length_eq_zero_iff.mp h)
  simp only [inaStrSplit, strlen_cstr hs0, strlen_cstr hp0, hslen, hplen, or_self, if_false]
  split
  · rename_i halloc
    exact Or.inr ⟨_, _, _, rfl, halloc, rfl⟩
  · rename_i used halloc
    obtain ⟨rfl, hle⟩ := Allocator.alloc_some halloc
    have hok : Scan.Ok s p ⟨0, 5, 0, List.replicate 5 .unset, others + (s.length + 1) + 8 * 5⟩ [] :=
      ⟨⟨rfl, ⟨_, rfl⟩, rfl, Nat.le_refl 5, by simp only; omega, hle⟩, by simp only; omega, rfl⟩
    have hsearched : Searched s p 0 0 [] :=
      ⟨fun _ h => h, fun k _ hk => absurd hk (Nat.not_lt_zero k), fun _ => Nat.pos_of_ne_zero hslen⟩
    -- From the end of the loop on: the last token, and the `NULL` behind it.
    have hend : ∀ sc : Scan, (∃ bs j, sc.Ok s p bs ∧ Searched s p sc.start j bs ∧
        s.length - 1 ≤ j) → Runs A (splitEnd A junk (s ++ 0 :: rest) s.length sc) (Returns s p) := by
      rintro sc ⟨bs, j, hok', hsearched', hj⟩
      refine (splitEnd_runs A junk rest hs0 hok').mono ?_
      rintro r ⟨arr, count, ts, hr, hsplits, hts⟩
      exact ⟨arr, count, ts, hr, hsplits, bs, sc.start, j, hts, hsearched', hj⟩
    -- The loop, and what follows it.
    have hrun := (splitLoop_runs A junk rest rest' hp0 hp (s.length + 1) 0 hok hsearched
      (Nat.le_refl 0) (Nat.zero_le _) (Nat.lt_succ_self _)).bind hend
    revert hrun
    generalize (splitLoop A junk (s ++ 0 :: rest) (p ++ 0 :: rest') s.length p.length
      (s.length + 1) 0 _ >>= fun sc => splitEnd A junk (s ++ 0 :: rest) s.length sc) = ret
    intro hrun
    cases ret with
    | ok r => exact Or.inl hrun
    | error r =>
      obtain ⟨used, bytes, rfl, hnone⟩ := hrun
      exact Or.inr ⟨used, bytes, some 0, rfl, hnone, rfl⟩

/-- **Splitting and joining.** For non-empty C strings, whatever stands behind their NULs,
    `ina_str_split` returns unless memory is refused, and then the tokens joined with the separator
    give the string back, and the array holds them and a `NULL`. -/
theorem split_joins_back (A : Allocator) (junk : Nat → UInt8) (others : Nat)
    {s p : List UInt8} (hs : s ≠ []) (hp : p ≠ []) (hs0 : 0 ∉ s) (hp0 : 0 ∉ p)
    (rest rest' : List UInt8) :
    (∃ arr count ts,
      inaStrSplit A junk others (some (s ++ 0 :: rest)) (some (p ++ 0 :: rest')) =
        .tokens arr count ∧ Splits s p arr count ts) ∨
    ∃ used bytes count,
      inaStrSplit A junk others (some (s ++ 0 :: rest)) (some (p ++ 0 :: rest')) =
        .refused used bytes count ∧ A.alloc used bytes = none := by
  rcases inaStrSplit_runs A junk others hs hp hs0 hp0 rest rest' with
    ⟨arr, count, ts, hret, hsplits, -⟩ | ⟨used, bytes, count, hret, hnone, -⟩
  · exact Or.inl ⟨arr, count, ts, hret, hsplits⟩
  · exact Or.inr ⟨used, bytes, count, hret, hnone⟩

/-- An allocator that gives what fits the address space. -/
def Allocator.ample : Allocator where
  gives used n := used + n ≤ 2 ^ 64
  bounded _ _ h := of_decide_eq_true h

/-- `"a,,b,"` at `","`. The separator at the very end is not one: the scan stops before it. -/
theorem split_joins_back_commas :
    ∃ arr count ts,
      inaStrSplit .ample (fun _ => 0) 0 (some [97, 44, 44, 98, 44, 0]) (some [44, 0]) =
        .tokens arr count ∧ Splits [97, 44, 44, 98, 44] [44] arr count ts := by
  have hs : (0 : UInt8) ∉ [97, 44, 44, 98, 44] := by decide
  have hp : (0 : UInt8) ∉ [44] := by decide
  refine (split_joins_back .ample (fun _ => 0) 0 (List.cons_ne_nil _ _) (List.cons_ne_nil _ _)
    hs hp [] []).resolve_right ?_
  rintro ⟨used, bytes, count, hret, -⟩
  have heval : inaStrSplit .ample (fun _ => 0) 0 (some [97, 44, 44, 98, 44, 0]) (some [44, 0]) =
      .tokens [.str (token [97]), .str (token []), .str (token [98, 44]), .null, .unset] 3 := by
    decide
  exact SplitRet.noConfusion (heval.symm.trans hret)

/-! ## Separators that are left

The loop does not look at the last byte. A separator of two bytes or more that ends there begins
before it and is found. -/

/-- The tokens are cut at every leftmost occurrence of the separator, and none is left in one. -/
structure Consumes (s p : List UInt8) (ts : List Hdr) : Prop where
  leftmost : Leftmost p s (ts.map Hdr.cstr)
  none_left : ∀ t ∈ ts, ¬ p <:+: t.cstr

/-- What is left when the loop ends holds a separator exactly when that is the last byte. -/
theorem Searched.infix_rest_iff {s p : List UInt8} {start j : Nat} {bs : List (List UInt8)}
    (h : Searched s p start j bs) (hp : p ≠ []) (hj : s.length - 1 ≤ j) :
    p <:+: s.drop start ↔ p.length = 1 ∧ p <:+ s := by
  have hpos : 0 < p.length := List.length_pos_iff.mpr hp
  constructor
  · intro hin
    obtain ⟨k, hle, hk⟩ := infix_drop_iff.mp hin
    have hjk : j ≤ k := Nat.le_of_not_lt fun hlt => h.clear k hle hlt hk
    have hlen := hk.length_le
    rw [List.length_drop] at hlen
    refine ⟨by omega, ?_⟩
    rw [hk.eq_of_length (by rw [List.length_drop]; omega)]
    exact List.drop_suffix ..
  · rintro ⟨hone, hsuffix⟩
    have hlt := h.start_lt hone
    have hrest : p <:+ s.drop start :=
      List.suffix_of_suffix_length_le hsuffix (List.drop_suffix ..)
        (by rw [List.length_drop]; omega)
    exact hrest.isInfix

/-- **Every separator is consumed, except one byte at the end.** For non-empty C strings
    `ina_str_split` returns unless memory is refused, and then the tokens are cut at every leftmost
    occurrence of the separator, and none holds one, if and only if the separator is not a single
    byte that the string ends with. -/
theorem split_consumes_iff (A : Allocator) (junk : Nat → UInt8) (others : Nat)
    {s p : List UInt8} (hs : s ≠ []) (hp : p ≠ []) (hs0 : 0 ∉ s) (hp0 : 0 ∉ p)
    (rest rest' : List UInt8) :
    (∃ arr count ts,
      inaStrSplit A junk others (some (s ++ 0 :: rest)) (some (p ++ 0 :: rest')) =
        .tokens arr count ∧ Splits s p arr count ts ∧
        (Consumes s p ts ↔ ¬ (p.length = 1 ∧ p <:+ s))) ∨
    ∃ used bytes count,
      inaStrSplit A junk others (some (s ++ 0 :: rest)) (some (p ++ 0 :: rest')) =
        .refused used bytes count ∧ A.alloc used bytes = none := by
  rcases inaStrSplit_runs A junk others hs hp hs0 hp0 rest rest' with
    ⟨arr, count, ts, hret, hsplits, bs, start, j, hts, hsearched, hj⟩ |
      ⟨used, bytes, count, hret, hnone, -⟩
  swap
  · exact Or.inr ⟨used, bytes, count, hret, hnone⟩
  refine Or.inl ⟨arr, count, ts, hret, hsplits, ?_⟩
  rw [← hsearched.infix_rest_iff hp hj]
  have hmem : (∀ t ∈ ts, ¬ p <:+: t.cstr) ↔ ∀ b ∈ ts.map Hdr.cstr, ¬ p <:+: b := by
    rw [List.forall_mem_map]
  constructor
  · intro hconsumes
    refine hmem.mp hconsumes.none_left _ ?_
    rw [hts]
    exact List.mem_append_right _ (List.mem_singleton_self _)
  · intro hrest
    have hleft : Leftmost p s (ts.map Hdr.cstr) := by
      rw [hts]
      exact hsearched.cut _ (Leftmost.last hrest)
    exact ⟨hleft, hmem.mpr (hleft.not_infix hp)⟩

/-- `"--a--"` at `"--"`: the separators at both ends are consumed. -/
theorem split_consumes_iff_dashes :
    ∃ arr count ts,
      inaStrSplit .ample (fun _ => 0) 0 (some [45, 45, 97, 45, 45, 0]) (some [45, 45, 0]) =
        .tokens arr count ∧ Splits [45, 45, 97, 45, 45] [45, 45] arr count ts ∧
        Consumes [45, 45, 97, 45, 45] [45, 45] ts := by
  have hs : (0 : UInt8) ∉ [45, 45, 97, 45, 45] := by decide
  have hp : (0 : UInt8) ∉ [45, 45] := by decide
  rcases split_consumes_iff .ample (fun _ => 0) 0 (List.cons_ne_nil _ _) (List.cons_ne_nil _ _)
    hs hp [] [] with ⟨arr, count, ts, hret, hsplits, hiff⟩ | ⟨used, bytes, count, hret, -⟩
  · exact ⟨arr, count, ts, hret, hsplits, hiff.mpr fun h => absurd h.1 (by decide)⟩
  · have heval : inaStrSplit .ample (fun _ => 0) 0 (some [45, 45, 97, 45, 45, 0])
        (some [45, 45, 0]) =
        .tokens [.str (token []), .str (token [97]), .str (token []), .null, .unset] 3 := by
      decide
    exact SplitRet.noConfusion (heval.symm.trans hret)

/-- `"a,"` at `","`: one token, which ends with the separator. -/
theorem last_comma_stays :
    ∃ arr count ts,
      inaStrSplit .ample (fun _ => 0) 0 (some [97, 44, 0]) (some [44, 0]) = .tokens arr count ∧
        Splits [97, 44] [44] arr count ts ∧ ¬ Consumes [97, 44] [44] ts ∧
        ∃ t ∈ ts, [44] <:+: t.cstr := by
  have hzero : ∀ b ∈ ([[97, 44]] : List (List UInt8)), 0 ∉ b := by decide
  have hjoined : List.intercalate [44] [[97, 44]] = ([97, 44] : List UInt8) := rfl
  have hsplits := Splits.of_tokens [.unset, .unset, .unset] hjoined hzero
  refine ⟨_, _, _, by decide, hsplits, fun h => ?_, ?_⟩
  · exact h.none_left _ (List.mem_singleton_self _) ⟨[97], [], by decide⟩
  · exact ⟨_, List.mem_singleton_self _, [97], [], by decide⟩

/-! ## Separators of one byte -/

/-- Behind the last cut a separator of one byte is the last byte, if it is there. -/
theorem Searched.not_mem_dropLast {s : List UInt8} {x : UInt8} {start j : Nat}
    {bs : List (List UInt8)} (h : Searched s [x] start j bs) (hj : s.length - 1 ≤ j) :
    x ∉ (s.drop start).dropLast := by
  intro hmem
  obtain ⟨k, hk, hx⟩ := List.mem_iff_getElem.mp hmem
  rw [List.length_dropLast, List.length_drop] at hk
  refine h.clear (start + k) (Nat.le_add_right _ _) (by omega) ?_
  have hlt : start + k < s.length := by omega
  rw [List.getElem_dropLast, List.getElem_drop] at hx
  rw [List.drop_eq_getElem_cons hlt, hx]
  exact ⟨s.drop (start + k + 1), rfl⟩

/-- No token but the last holds a separator of one byte. -/
theorem Searched.not_mem_pieces {s : List UInt8} {x : UInt8} {start j : Nat}
    {bs : List (List UInt8)} (h : Searched s [x] start j bs) (hj : s.length - 1 ≤ j) :
    ∀ b ∈ bs, x ∉ b := by
  have hlt : start < s.length := h.start_lt rfl
  have hne : s.drop start ≠ [] := by
    rw [Ne, List.drop_eq_nil_iff]
    omega
  have hlast := List.dropLast_append_getLast hne
  have hclear := h.not_mem_dropLast hj
  obtain ⟨bs', hbs'⟩ : ∃ bs', Leftmost [x] (s.drop start) bs' := by
    by_cases hend : (s.drop start).getLast hne = x
    · -- the last byte is a separator that the scan did not come to
      rw [hend] at hlast
      refine ⟨[(s.drop start).dropLast, []], ?_⟩
      have hcut : Leftmost [x] ((s.drop start).dropLast ++ ([x] ++ []))
          [(s.drop start).dropLast, []] := by
        refine Leftmost.cut (fun k hk hprefix => ?_) (.last (by simp))
        rw [List.drop_append_of_le_length (Nat.le_of_lt hk),
          List.drop_eq_getElem_cons hk] at hprefix
        obtain ⟨rest, hrest⟩ := hprefix
        exact hclear ((List.cons.inj hrest).1 ▸ List.getElem_mem hk)
      rw [List.append_nil, hlast] at hcut
      exact hcut
    · refine ⟨_, .last fun hin => ?_⟩
      rw [List.singleton_infix_iff, ← hlast] at hin
      rcases List.mem_append.mp hin with hin | hin
      · exact hclear hin
      · exact hend (List.mem_singleton.mp hin).symm
  intro b hb hx
  have hcut := h.cut _ hbs'
  exact hcut.not_infix (List.cons_ne_nil _ _) b (List.mem_append_left _ hb)
    ((List.singleton_infix_iff x b).mpr hx)

end Str
end Inac
