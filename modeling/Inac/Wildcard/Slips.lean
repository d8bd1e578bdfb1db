import Mathlib.Data.List.TakeWhile
import Inac.Wildcard.Bounds

/-!
# Where the shortcut does harm

What the matcher gets wrong is said here of the text and the pattern alone, without its pointers and
bookmarks.

The matcher looks for each stretch of the pattern in turn, from where the text before it has been
matched (`Cut`). An attempt that goes wrong on the very symbol its stretch begins with `Slips`: the
shortcut starts the next attempt there and jumps over the places in between. A place that lies in
such a jump is `Straddled`. A text that matches is accepted as long as each stretch that can still be
matched can be matched at a place that is not straddled (`Spared`), and the terminators are not
passed as long as no attempt that can be made slips on the last symbol of the text before a pattern
that lets the loop move on from there (`Guarded`).

Both conditions are enough and neither is necessary. The matcher goes back to its bookmark when an
attempt fails for good, so a straddled place can be tried after all: `"aaabc"` and `"*a?b*"`, whose
only match is jumped over, and found when the attempt behind the jump has failed. Whether that
happens hangs on how the attempts after the jump end, one by one.
-/

namespace Inac
namespace Wildcard

open Lib

/-! ## Slips

An attempt and the place at which it goes wrong, in terms of the text and the stretch. -/

instance {α : Type} [DecidableEq α] : DecidableRel (Tok.Admits (α := α))
  | .one, _ => isTrue trivial
  | .lit a, x => inferInstanceAs (Decidable (a = x))
  | .many, _ => isFalse id

instance (y : List (Tok UInt8)) (x : List UInt8) : Decidable (Fits y x) :=
  inferInstanceAs (Decidable (List.Forall₂ Tok.Admits y x))

/-- Read from `p`, the stretch at the front of `wb` fits `m` symbols and goes wrong on the next one,
    which is the symbol it begins with. -/
def Slips (wb p : List UInt8) (m : Nat) : Prop :=
  0 < m ∧ m < p.length ∧ Fits (toks (wb.take m)) (p.take m) ∧
    (wb.drop m).head? ≠ some star ∧ (wb.drop m).head? ≠ some quest ∧
    (wb.drop m).head? ≠ (p.drop m).head? ∧ wb.head? = (p.drop m).head?

instance (wb p : List UInt8) (m : Nat) : Decidable (Slips wb p m) :=
  inferInstanceAs (Decidable (_ ∧ _))

/-- The place `q` lies in a jump: behind a place of `t` where an attempt slips, and before the symbol
    it slips on. Where the stretch is a single symbol at the end of pattern and text, that symbol is
    jumped over too. -/
def Straddled (wb t q : List UInt8) : Prop :=
  ∃ p ∈ t.tails, q.length < p.length ∧ ∃ m < p.length, Slips wb p m ∧
    ((p.drop m).length < q.length ∨ wb.length = 1 ∧ (p.drop m).length = 1 ∧ q = p.drop m)

instance (wb t q : List UInt8) : Decidable (Straddled wb t q) :=
  inferInstanceAs (Decidable (∃ p ∈ t.tails, _ ∧ ∃ m < p.length, _))

/-- The pattern from the first symbol behind the stars at `i` on. -/
def stretch (wildcard : List UInt8) (i : Nat) : List UInt8 := skipStars (wildcard.drop i)

/-- A star stands at `i`, no other right before it, and not stars alone behind it; and what the
    pattern has before it matches the first `j` symbols of the text. -/
def Cut (tame wildcard : List UInt8) (i j : Nat) : Prop :=
  wildcard[i]? = some star ∧ (wildcard.take i).getLast? ≠ some star ∧ stretch wildcard i ≠ [] ∧
    Matches (wildcard.take i) (tame.take j)

instance (tame wildcard : List UInt8) (i j : Nat) : Decidable (Cut tame wildcard i j) :=
  inferInstanceAs (Decidable (_ ∧ _))

instance (w t : List UInt8) : Decidable (MatchesFrom w t) := decidableGlob (.many :: toks w) t

/-- Wherever the search for a stretch can begin, and what is left of the pattern still matches
    somewhere, it matches at a place that is not straddled. -/
def Spared (tame wildcard : List UInt8) : Prop :=
  ∀ i < wildcard.length, ∀ j ≤ tame.length, Cut tame wildcard i j →
    MatchesFrom (stretch wildcard i) (tame.drop j) →
    ∃ q ∈ (tame.drop j).tails, Matches (stretch wildcard i) q ∧
      ¬ Straddled (stretch wildcard i) (tame.drop j) q

instance (tame wildcard : List UInt8) : Decidable (Spared tame wildcard) :=
  inferInstanceAs (Decidable (∀ i < wildcard.length, ∀ j ≤ tame.length, _))

/-- An attempt from `p` would slip on the last symbol of the text, and the search comes to it: all
    matches before it are straddled. -/
def Trips (wb t p : List UInt8) : Prop :=
  Slips wb p (p.length - 1) ∧
    ∀ q ∈ t.tails, p.length < q.length → Matches wb q → Straddled wb t q

instance (wb t p : List UInt8) : Decidable (Trips wb t p) :=
  inferInstanceAs (Decidable (_ ∧ ∀ q ∈ t.tails, _))

/-- An empty text meets a guarded pattern; and wherever the search for a stretch can begin, and the
    pattern is unguarded behind the first symbol of the stretch, no attempt trips. -/
def Guarded (tame wildcard : List UInt8) : Prop :=
  (tame = [] → ¬ Unguarded wildcard) ∧
    ∀ i < wildcard.length, ∀ j ≤ tame.length, Cut tame wildcard i j →
      Unguarded (stretch wildcard i).tail →
      ∀ p ∈ (tame.drop j).tails, ¬ Trips (stretch wildcard i) (tame.drop j) p

instance (tame wildcard : List UInt8) : Decidable (Guarded tame wildcard) :=
  inferInstanceAs (Decidable (_ ∧ ∀ i < wildcard.length, ∀ j ≤ tame.length, _))

/-! ## What the matcher is looking for

`Searching` is kept by every round. It says where in the text and in the pattern the present stretch
begins, and that no place before the bookmark is left, except for those that were jumped over. -/

/-- All matches of `wb` in `t` before the place where the attempt began are straddled; and so are all
    there are, once the attempt stands on the two terminators. -/
structure Passed (wb t : List UInt8) (s : State) : Prop where
  before : ∀ q, q <:+ t → s.tame.length + wb.length < q.length + s.wild.length → Matches wb q →
    Straddled wb t q
  ended : s.tame = [] → s.wild = [] → ∀ q, q <:+ t → Matches wb q → Straddled wb t q

/-- The invariant of the run: before the first star the pattern has been read symbol by symbol, and
    from then on the search is for a stretch of the pattern, from a place where it can begin. -/
structure Searching (tame wildcard : List UInt8) (s : State) : Prop where
  opening : s.marks = none → ∃ y x, wildcard = y ++ s.wild ∧ tame = x ++ s.tame ∧ Fits (toks y) x
  search : ∀ tb wb, s.marks = some (tb, wb) → ∃ i j, i < wildcard.length ∧ j ≤ tame.length ∧
    Cut tame wildcard i j ∧ wb = stretch wildcard i ∧ tb <:+ tame.drop j ∧
    Passed wb (tame.drop j) s

theorem searching_start (tame wildcard : List UInt8) :
    Searching tame wildcard (start tame wildcard) := by
  refine ⟨fun _ => ⟨[], [], rfl, rfl, List.Forall₂.nil⟩, ?_⟩
  intro tb wb hm
  cases hm

/-- Suffixes of one text that are of the same length are the same. -/
theorem suffix_eq_of_length {p q t : List UInt8} (hp : p <:+ t) (hq : q <:+ t)
    (hlen : p.length = q.length) : p = q :=
  (List.suffix_of_suffix_length_le hp hq (Nat.le_of_eq hlen)).eq_of_length hlen

theorem not_star_of_fits {y x : List UInt8} (h : Fits (toks y) x) : y.getLast? ≠ some star := by
  intro hlast
  exact h.ne_many _ (List.mem_map_of_mem (List.mem_of_mem_getLast? hlast)) tok_star

/-! ## A new stretch

At a star the attempt has succeeded, and what was matched so far is one stretch longer. -/

/-- Patterns one behind the other match texts one behind the other. -/
theorem Matches.append {w w' t t' : List UInt8} (h : Matches w t) (h' : Matches w' t') :
    Matches (w ++ w') (t ++ t') := by
  rw [Matches, toks_append]
  exact Glob.append h h'

theorem matches_of_fits {y x : List UInt8} (h : Fits (toks y) x) : Matches y x := by
  have hiff := h.glob_append (w := []) (t := [])
  rw [List.append_nil, List.append_nil] at hiff
  exact hiff.mpr rfl

/-- The stars at the front match anything. -/
theorem matches_stars {w : List UInt8} (hw : w.head? = some star) (t : List UInt8) :
    Matches (w.takeWhile (· = star)) t := by
  have hhead : (w.takeWhile (· = star)).head? = some star := by
    cases w with
    | nil => simp at hw
    | cons c w => simp_all
  have hnone : skipStars (w.takeWhile (· = star)) = [] :=
    List.dropWhile_eq_nil_iff.mpr fun c hc => by simpa using List.mem_takeWhile_imp hc
  rw [matches_star hhead, hnone]
  exact matchesFrom_iff.mpr ⟨[], List.nil_suffix, rfl⟩

/-- What the pattern has before the star matches what the text has before the place. -/
theorem Searching.matches_front {tame wildcard : List UInt8} {s : State}
    (h : Searching tame wildcard s) (hinv : Inv s) (hstar : s.wild.head? = some star) :
    ∃ pre u, wildcard = pre ++ s.wild ∧ tame = u ++ s.tame ∧ Matches pre u ∧
      pre.getLast? ≠ some star := by
  cases hm : s.marks with
  | none =>
    obtain ⟨y, x, hw, ht, hfits⟩ := h.opening hm
    exact ⟨y, x, hw, ht, matches_of_fits hfits, not_star_of_fits hfits⟩
  | some marks =>
    obtain ⟨tb, wb⟩ := marks
    obtain ⟨i, j, hi, hj, ⟨hati, -, -, hmatch⟩, rfl, htb, -⟩ := h.search tb wb hm
    have hmark := hinv tb _ hm
    obtain ⟨y, x, hwb, hsuf, hfits, -⟩ := hmark.attempt
    obtain ⟨v, hv⟩ := hsuf.trans htb
    -- the pattern is what stands before the star, the stars, what the attempt has read, and the rest
    have hstars : wildcard.drop i = (wildcard.drop i).takeWhile (· = star) ++ stretch wildcard i :=
      List.takeWhile_append_dropWhile.symm
    have hhead : (wildcard.drop i).head? = some star := by
      rw [List.head?_drop]
      exact hati
    have hy : y ≠ [] := by
      rintro rfl
      obtain ⟨c, w', hcons, hc⟩ := hmark.head
      rw [hcons] at hwb
      rw [← List.nil_append s.wild, ← hwb] at hstar
      exact hc (Option.some.inj hstar)
    refine ⟨wildcard.take i ++ (wildcard.drop i).takeWhile (· = star) ++ y,
      tame.take j ++ v ++ x, ?_, ?_, ?_, ?_⟩
    · rw [List.append_assoc, ← hwb, List.append_assoc, ← hstars, List.take_append_drop]
    · rw [List.append_assoc, List.append_assoc, hv, List.take_append_drop]
    · exact (hmatch.append (matches_stars hhead v)).append (matches_of_fits hfits)
    · rw [List.getLast?_append_of_ne_nil _ hy]
      exact not_star_of_fits hfits

/-- **A commit** begins the search for the next stretch, at a place where it can begin. -/
theorem Searching.commit {tame wildcard : List UInt8} {s : State} (h : Searching tame wildcard s)
    (hinv : Inv s) (hstar : s.wild.head? = some star) {x c : UInt8} {t w : List UInt8}
    (ht : t ≠ []) (hsuf : x :: t <:+ s.tame) (hskip : skipStars s.wild = c :: w)
    (hfirst : ∀ q, q <:+ s.tame → (x :: t).length < q.length → ¬ Matches (c :: w) q) :
    Searching tame wildcard ⟨t, w, some (x :: t, c :: w)⟩ := by
  obtain ⟨pre, u, hw, htame, hmatch, hlast⟩ := h.matches_front hinv hstar
  refine ⟨fun hm => absurd hm (Option.some_ne_none _), fun tb wb hm => ?_⟩
  cases hm
  have hpre : wildcard.take pre.length = pre := by rw [hw, List.take_left]
  have hdrop : wildcard.drop pre.length = s.wild := by rw [hw, List.drop_left]
  have hu : tame.take u.length = u := by rw [htame, List.take_left]
  have hrest : tame.drop u.length = s.tame := by rw [htame, List.drop_left]
  have hstretch : stretch wildcard pre.length = c :: w := by rw [stretch, hdrop, hskip]
  have hi : pre.length < wildcard.length := by
    have hne : s.wild ≠ [] := by
      intro hnil
      rw [hnil] at hstar
      cases hstar
    rw [hw, List.length_append]
    have := List.length_pos_of_ne_nil hne
    omega
  have hj : u.length ≤ tame.length := by
    rw [htame, List.length_append]
    omega
  refine ⟨pre.length, u.length, hi, hj, ⟨?_, ?_, ?_, ?_⟩, hstretch.symm, ?_, ?_, ?_⟩
  · rw [← List.head?_drop, hdrop]
    exact hstar
  · rw [hpre]
    exact hlast
  · rw [hstretch]
    exact List.cons_ne_nil c w
  · rw [hpre, hu]
    exact hmatch
  · rw [hrest]
    exact hsuf
  · intro q hq hlt hq'
    rw [hrest] at hq
    refine absurd hq' (hfirst q hq ?_)
    simp only [List.length_cons] at hlt ⊢
    omega
  · exact fun hnil => absurd hnil ht

/-! ## The same stretch

A round that reads on, goes back, takes the shortcut or tries the next place. -/

/-- The attempt slips, on the symbol the shortcut takes. -/
theorem Marked.slips {x c : UInt8} {tb t w wb : List UInt8} (h : Marked tb (c :: wb) (x :: t) w)
    (hj : Jumps ⟨x :: t, w, some (tb, c :: wb)⟩) :
    ∃ p m, p <:+ tb ∧ m < p.length ∧ p.drop m = x :: t ∧
      p.length + w.length = (x :: t).length + (c :: wb).length ∧ Slips (c :: wb) p m ∧
      (Matches (c :: wb) p ↔ Matches w (x :: t)) := by
  obtain ⟨y, x', hwb, hsuf, hfits, -⟩ := h.attempt
  obtain ⟨hstar, ⟨hne, hquest⟩, tb', wb', hm, hread, hhead⟩ := hj
  cases hm
  have hlen : y.length = x'.length := by
    rw [← hfits.length_eq, toks, List.length_map]
  have hy : 0 < y.length := by
    refine List.length_pos_of_ne_nil ?_
    rintro rfl
    exact hread hwb.symm
  have hdrop : (x' ++ x :: t).drop x'.length = x :: t := List.drop_left
  have hrest : (c :: wb).drop x'.length = w := by rw [hwb, ← hlen, List.drop_left]
  have hlt : x'.length < (x' ++ x :: t).length := by
    rw [List.length_append, List.length_cons]
    omega
  refine ⟨x' ++ x :: t, x'.length, hsuf, hlt, hdrop, ?_, ⟨?_, hlt, ?_, ?_, ?_, ?_, ?_⟩, ?_⟩
  · rw [hwb, List.length_append, List.length_append]
    omega
  · omega
  · rw [List.take_left, hwb, ← hlen, List.take_left]
    exact hfits
  · rw [hrest]
    exact hstar
  · rw [hrest]
    exact hquest
  · rw [hrest, hdrop]
    exact fun he => hne he.symm
  · rw [hdrop]
    exact hhead.symm
  · rw [hwb, Matches, toks_append, hfits.glob_append]
    rfl

/-- **The shortcut** straddles the places it jumps over. -/
theorem Passed.jump {x c : UInt8} {tb t w wb t₀ : List UInt8}
    (h : Passed (c :: wb) t₀ ⟨x :: t, w, some (tb, c :: wb)⟩) (htb : tb <:+ t₀)
    (hmark : Marked tb (c :: wb) (x :: t) w) (hj : Jumps ⟨x :: t, w, some (tb, c :: wb)⟩) :
    Passed (c :: wb) t₀ ⟨t, wb, some (tb, c :: wb)⟩ := by
  obtain ⟨p, m, hp, hm, hdrop, hlen, hslips, hmatch⟩ := hmark.slips hj
  have hmis := not_matches_of_mismatch hj.1 hj.2.1.1 hj.2.1.2
  have hin : p ∈ t₀.tails := (List.mem_tails _ _).mpr (hp.trans htb)
  have hpos := hslips.1
  have hplen : p.length = m + (x :: t).length := by
    rw [← hdrop, List.length_drop]
    omega
  refine ⟨fun q hq hlt hq' => ?_, fun ht hwb q hq hq' => ?_⟩
  · simp only [List.length_cons] at hlt hplen hlen
    rcases Nat.lt_trichotomy q.length p.length with hless | hsame | hmore
    · refine ⟨p, hin, hless, m, hm, hslips, .inl ?_⟩
      rw [hdrop, List.length_cons]
      omega
    · rw [suffix_eq_of_length hq (hp.trans htb) hsame, hmatch] at hq'
      exact absurd hq' hmis
    · refine h.before q hq ?_ hq'
      simp only [List.length_cons]
      omega
  · -- the stretch is a single symbol, and it matches the last one only
    simp only at ht hwb
    subst ht hwb
    obtain ⟨c', w', hcons, hc⟩ := hmark.head
    obtain ⟨rfl, -⟩ := List.cons.inj hcons
    have hone : q.length = 1 := by
      cases q with
      | nil => exact absurd hq' (not_matches_cons_nil hc)
      | cons z q =>
        have hnil : q = [] := ((matches_cons_cons hc).mp hq').2
        rw [hnil]
        rfl
    have hlast : [x] <:+ t₀ := by
      rw [← hdrop]
      exact (List.drop_suffix m p).trans (hp.trans htb)
    refine ⟨p, hin, ?_, m, hm, hslips, .inr ⟨rfl, ?_, ?_⟩⟩
    · rw [hone, hplen, List.length_singleton]
      omega
    · rw [hdrop]
      rfl
    · rw [hdrop]
      exact suffix_eq_of_length hq hlast hone

theorem Round.searching {tame wildcard : List UInt8} {s s' : State} (h : Round s s')
    (hinv : Inv s) (hs : Searching tame wildcard s) : Searching tame wildcard s' := by
  cases h with
  | @read x c t w marks ht hadm =>
    refine ⟨fun hm => ?_, fun tb wb hm => ?_⟩
    · obtain ⟨y, x', hw, htame, hfits⟩ := hs.opening hm
      refine ⟨y ++ [c], x' ++ [x], ?_, ?_, ?_⟩
      · rw [hw, List.append_assoc]; rfl
      · rw [htame, List.append_assoc]; rfl
      · rw [toks_append]
        exact hfits.snoc hadm
    · obtain ⟨i, j, hi, hj, hcut, hwb, htb, hpassed⟩ := hs.search tb wb hm
      refine ⟨i, j, hi, hj, hcut, hwb, htb, fun q hq hlt => ?_, fun hnil => absurd hnil ht⟩
      refine hpassed.before q hq ?_
      simp only [List.length_cons] at hlt ⊢
      omega
  | commit ht hsuf hstar hskip hfirst => exact hs.commit hinv hstar ht hsuf hskip hfirst
  | @back z t w tb wb hback =>
    refine ⟨fun hm => absurd hm (Option.some_ne_none _), fun tb' wb' hm => ?_⟩
    cases hm
    obtain ⟨i, j, hi, hj, hcut, hwb, htb, hpassed⟩ := hs.search _ _ rfl
    have hmark := hinv _ _ rfl
    refine ⟨i, j, hi, hj, hcut, hwb, (List.suffix_cons z tb).trans htb, fun q hq hlt hq' => ?_, ?_⟩
    · simp only at hlt
      by_cases hsame : q.length = (z :: tb).length
      · rw [suffix_eq_of_length hq htb hsame] at hq'
        exact absurd hq' hback
      · -- the attempt that failed began at the bookmark or behind it
        obtain ⟨y, x, hsplit, hsuf, hfits, -⟩ := hmark.attempt
        refine hpassed.before q hq ?_ hq'
        have hlen := hsuf.length_le
        have hylen := hfits.length_eq
        have hwblen := congrArg List.length hsplit
        simp only [toks, List.length_map, List.length_append, List.length_cons] at *
        omega
    · intro _ hnil
      obtain ⟨c, w', hcons, -⟩ := hmark.head
      rw [hcons] at hnil
      cases hnil
  | @jump x c t w tb wb hj =>
    refine ⟨fun hm => absurd hm (Option.some_ne_none _), fun tb' wb' hm => ?_⟩
    cases hm
    obtain ⟨i, j, hi, hj', hcut, hwb, htb, hpassed⟩ := hs.search _ _ rfl
    exact ⟨i, j, hi, hj', hcut, hwb, htb, hpassed.jump htb (hinv _ _ rfl) hj⟩
  | @next x t tb wb hnext =>
    refine ⟨fun hm => absurd hm (Option.some_ne_none _), fun tb' wb' hm => ?_⟩
    cases hm
    obtain ⟨i, j, hi, hj, hcut, hwb, htb, hpassed⟩ := hs.search _ _ rfl
    have hmark := hinv _ _ rfl
    refine ⟨i, j, hi, hj, hcut, hwb, htb, fun q hq hlt hq' => ?_, ?_⟩
    · simp only at hlt
      by_cases hsame : q.length = (x :: t).length
      · rw [suffix_eq_of_length hq (hmark.suffix.trans htb) hsame] at hq'
        exact absurd hq' hnext
      · refine hpassed.before q hq ?_ hq'
        simp only [List.length_cons] at *
        omega
    · intro _ hnil
      obtain ⟨c, w', hcons, -⟩ := hmark.head
      rw [hcons] at hnil
      cases hnil

theorem Searching.reached {tame wildcard : List UInt8} {s : State}
    (h : Reached (start tame wildcard) s) : Searching tame wildcard s := by
  induction h with
  | refl => exact searching_start tame wildcard
  | tail hpre hstep ih =>
    have hinv := ((inv_start tame wildcard).reached hpre).1
    exact (round_of_step hinv hstep).searching hinv ih

/-! ## Completeness

A state that misses has left out the last place at which its stretch could still be matched, and
`Spared` gives another one. -/

/-- An attempt that ends has missed nothing where some match is not straddled. -/
theorem Searching.not_misses {tame wildcard : List UInt8} {s : State}
    (h : Searching tame wildcard s) (hinv : Inv s) (hspared : Spared tame wildcard) :
    ¬ Misses s := by
  intro hmiss
  have hlive := hmiss.live hinv
  obtain ⟨tb, wb, hm, hends, hcase⟩ := hmiss
  obtain ⟨i, j, hi, hj, hcut, rfl, htb, hpassed⟩ := h.search tb wb hm
  have hmark := hinv _ _ hm
  unfold Live at hlive
  rw [hm] at hlive
  obtain ⟨r, hr, hrmatch⟩ := matchesFrom_iff.mp hlive
  obtain ⟨q, hq, hqmatch, hfree⟩ :=
    hspared i hi j hj hcut (matchesFrom_iff.mpr ⟨r, hr.trans htb, hrmatch⟩)
  rw [List.mem_tails] at hq
  rcases hcase with ⟨ht, hw⟩ | ⟨hw, -⟩
  · exact hfree (hpassed.ended ht hw q hq hqmatch)
  · by_cases hlt : s.tame.length + (stretch wildcard i).length < q.length + s.wild.length
    · exact hfree (hpassed.before q hq hlt hqmatch)
    · -- the match is where the attempt began, or behind, so the attempt has not failed
      have hle := Nat.le_of_not_lt hlt
      obtain ⟨y, x, hwb, hsuf, hfits, -⟩ := hmark.attempt
      have hshort : q.length ≤ tb.length := by
        have hlen := hsuf.length_le
        have hylen := hfits.length_eq
        have hwblen := congrArg List.length hwb
        simp only [toks, List.length_map, List.length_append] at hlen hylen hwblen
        omega
      have hqtb := List.suffix_of_suffix_length_le hq htb hshort
      exact hw (hmark.rest_matches hends hqtb hqmatch hle)

/-- A round that overruns is an attempt that trips. -/
theorem Searching.not_overruns {tame wildcard : List UInt8} {s : State}
    (h : Searching tame wildcard s) (hinv : Inv s) (hguarded : Guarded tame wildcard) :
    ¬ Overruns s := by
  rintro ⟨hone, hj, tb, wb, hm, hopen⟩
  obtain ⟨i, j, hi, hj', hcut, rfl, htb, hpassed⟩ := h.search tb wb hm
  have hmark := hinv _ _ hm
  obtain ⟨c, w', hwb, -⟩ := hmark.head
  obtain ⟨t, w, marks⟩ := s
  obtain ⟨x, rfl⟩ := List.length_eq_one_iff.mp hone
  simp only at hm
  subst hm
  rw [hwb] at hmark hj hpassed
  obtain ⟨p, m, hp, hlt, hdrop, hlen, hslips, -⟩ := hmark.slips hj
  have hlast : m = p.length - 1 := by
    have hdlen := congrArg List.length hdrop
    rw [List.length_drop, List.length_singleton] at hdlen
    omega
  rw [hlast, ← hwb] at hslips
  refine hguarded.2 i hi j hj' hcut hopen p ((List.mem_tails _ _).mpr (hp.trans htb)) ⟨hslips, ?_⟩
  intro q hq hlonger hq'
  rw [hwb] at hq' ⊢
  refine hpassed.before q ((List.mem_tails _ _).mp hq) ?_ hq'
  simp only [List.length_cons] at hlen hlonger ⊢
  omega

end Wildcard
end Inac
