import Mathlib.Logic.Relation
import Inac.Wildcard.Attempt

/-!
# Runs of the wildcard matcher

The matcher returns on every text and pattern, and what it accepts matches. A text that matches is
accepted unless some attempt of the run ends although an earlier place would have matched. Only
the shortcut leaves such a place out.

The proofs rest on three things. `Round` lists the ways the loop goes on, each with what the round has
found out about the places it leaves behind. `rank` gets smaller with each of them, so there is no
run without an end. And `Misses` names the states from which a match that is still to be found is
lost for good; a run that meets none of them finds it (`success_of_live`), and a run that meets one
does not (`not_success_of_misses`).
-/

namespace Inac
namespace Wildcard

open Lib

/-! ## What the shortcut can miss

A place in front of the attempt that was jumped over. It is missed for good if the attempt ends
well, at a star or at the end. -/

/-- An attempt ends here, on the two terminators, or without a match of what is left although the
    pattern from its bookmark on matches at a place between the bookmark in the text and the
    place where the attempt began, `wb.length - s.wild.length` symbols back. -/
def Misses (s : State) : Prop :=
  ∃ tb wb, s.marks = some (tb, wb) ∧ Ends s ∧
    (s.tame = [] ∧ s.wild = [] ∨
      ¬ Matches s.wild s.tame ∧
        ∃ q, q <:+ tb ∧ s.tame.length + wb.length < q.length + s.wild.length ∧ Matches wb q)

/-- What matches at the place where the attempt began, or behind it, leaves the rest of the attempt a
    match when it ends. -/
theorem Marked.rest_matches {tb wb : List UInt8} {s : State} (h : Marked tb wb s.tame s.wild)
    (hends : Ends s) {q : List UInt8} (hq : q <:+ tb) (hmatch : Matches wb q)
    (hle : q.length + s.wild.length ≤ s.tame.length + wb.length) : Matches s.wild s.tame := by
  obtain ⟨y, x, rfl, -, hfits, -⟩ := h.attempt
  rw [Matches, toks_append] at hmatch
  obtain ⟨t, ht, hlen, hrest⟩ := hmatch.split hfits.ne_many
  -- what `q` leaves is at most as long as what the attempt leaves, so it is a part of that
  have hshort : t.length ≤ s.tame.length := by
    simp only [toks, List.length_map, List.length_append] at hlen hle
    omega
  have hsuf : t <:+ s.tame := List.suffix_of_suffix_length_le (ht.trans hq) h.suffix hshort
  by_cases hstar : s.wild.head? = some star
  · obtain ⟨r, hr, hm⟩ := matchesFrom_iff.mp ((matches_star hstar).mp hrest)
    exact (matches_star hstar).mpr (matchesFrom_iff.mpr ⟨r, hr.trans hsuf, hm⟩)
  · obtain ⟨heq, hone⟩ := hends.resolve_left hstar
    have hsame : t = s.tame := by
      cases hwild : s.wild with
      | nil =>
        rw [hwild] at heq
        have hempty : s.tame = [] := by simpa using heq
        rw [hempty] at hsuf ⊢
        exact List.suffix_nil.mp hsuf
      | cons c w =>
        rw [hwild] at hstar hrest
        have hc : c ≠ star := by simpa using hstar
        refine hsuf.eq_of_length ?_
        cases t with
        | nil => exact absurd hrest (not_matches_cons_nil hc)
        | cons z t => simp only [List.length_cons] at hshort ⊢; omega
    exact hsame ▸ hrest

/-- Places behind the one where the attempt began do not matter when it ends. -/
theorem Marked.earlier {tb wb : List UInt8} {s : State} (h : Marked tb wb s.tame s.wild)
    (hends : Ends s) (hlive : MatchesFrom wb tb) (hw : ¬ Matches s.wild s.tame) :
    ∃ q, q <:+ tb ∧ s.tame.length + wb.length < q.length + s.wild.length ∧ Matches wb q := by
  obtain ⟨q, hq, hmatch⟩ := matchesFrom_iff.mp hlive
  refine ⟨q, hq, ?_, hmatch⟩
  by_contra hle
  exact hw (h.rest_matches hends hq hmatch (Nat.le_of_not_lt hle))

theorem Misses.live {s : State} (hinv : Inv s) (h : Misses s) : Live s := by
  obtain ⟨tb, wb, hm, -, hcase⟩ := h
  rcases hcase with ⟨ht, hw⟩ | ⟨-, q, hq, -, hmatch⟩
  · refine hinv.live ?_
    rw [ht, hw]
    rfl
  · unfold Live
    rw [hm]
    exact matchesFrom_iff.mpr ⟨q, hq, hmatch⟩

/-! ## Runs

The states that are reached, and the first of them in which the loop stops. -/

/-- The states of a run. -/
def Reached (s s' : State) : Prop := Relation.ReflTransGen (fun s s' => step s = .goOn s') s s'

/-- A round finds nothing that was not left to find, and keeps the invariant. -/
theorem Inv.step {s s' : State} (hinv : Inv s) (h : Wildcard.step s = .goOn s') :
    Inv s' ∧ (Live s' → Live s) := by
  obtain ⟨hinv', ⟨-, hiff⟩ | ⟨-, hiff⟩⟩ := step_goOn hinv h
  · exact ⟨hinv', fun hl => hinv.live (hiff.mp hl)⟩
  · exact ⟨hinv', hiff.mp⟩

theorem Inv.reached {s s' : State} (hinv : Inv s) (h : Reached s s') :
    Inv s' ∧ (Live s' → Live s) := by
  induction h with
  | refl => exact ⟨hinv, id⟩
  | tail _ hstep ih =>
    obtain ⟨hinv', hlive⟩ := ih.1.step hstep
    exact ⟨hinv', fun hl => ih.2 (hlive hl)⟩

/-- The run from a state that was reached ends as the run that reached it. -/
theorem loop_of_reached {s s' : State} (h : Reached s s') {n : Nat} {r : Result}
    (hn : loop n s = some r) : ∃ m, loop m s' = some r := by
  induction h with
  | refl => exact ⟨n, hn⟩
  | tail _ hstep ih =>
    obtain ⟨m, hm⟩ := ih
    cases m with
    | zero => cases hm
    | succ m =>
      rw [loop, hstep] at hm
      exact ⟨m, hm⟩

/-- **Soundness**: where the loop returns `INA_SUCCESS` there was a match to find. -/
theorem live_of_success {n : Nat} {s : State} (hinv : Inv s) (h : loop n s = some .success) :
    Live s := by
  induction n generalizing s with
  | zero => cases h
  | succ n ih =>
    rw [loop] at h
    cases hstep : step s with
    | goOn s' =>
      rw [hstep] at h
      obtain ⟨hinv', hlive⟩ := hinv.step hstep
      exact hlive (ih hinv' h)
    | stop r =>
      rw [hstep] at h
      cases h
      rcases step_stop hinv hstep with ⟨-, hsound, -⟩ | ⟨-, hne, -⟩
      · exact hinv.live (hsound rfl)
      · exact absurd rfl hne

theorem inv_start (tame wildcard : List UInt8) : Inv (start tame wildcard) := by
  intro tb wb hm
  cases hm

/-- What the matcher accepts matches as a whole. -/
theorem wildcard_sound (tame wildcard : List UInt8)
    (h : wildcardMatch tame wildcard = some .success) : Matches wildcard tame :=
  live_of_success (inv_start tame wildcard) h

/-- `"mississippi"` and `"*sip*"`, through all the ways to resume. -/
theorem wildcard_sound_mississippi :
    Matches [42, 115, 105, 112, 42] [109, 105, 115, 115, 105, 115, 115, 105, 112, 112, 105] :=
  wildcard_sound [109, 105, 115, 115, 105, 115, 115, 105, 112, 112, 105]
    [42, 115, 105, 112, 42] (by decide +kernel)

/-! ## The ways the loop goes on

Five of them, each with what it says of the two states. -/

/-- The round takes the shortcut: the symbol that does not match is the one the stretch after the
    star begins with. -/
def Jumps (s : State) : Prop :=
  s.wild.head? ≠ some star ∧ (s.tame.head? ≠ s.wild.head? ∧ s.wild.head? ≠ some quest) ∧
    ∃ tb wb, s.marks = some (tb, wb) ∧ s.wild ≠ wb ∧ s.tame.head? = wb.head?

/-- The ways the loop goes on, with what the round has found out about the places it leaves. -/
inductive Round : State → State → Prop where
  | read {x c t w marks} : t ≠ [] → (tok c).Admits x → Round ⟨x :: t, c :: w, marks⟩ ⟨t, w, marks⟩
  | commit {x c t w t' w' marks} : t ≠ [] → x :: t <:+ t' → w'.head? = some star →
      skipStars w' = c :: w → (∀ q, q <:+ t' → (x :: t).length < q.length → ¬ Matches (c :: w) q) →
      Round ⟨t', w', marks⟩ ⟨t, w, some (x :: t, c :: w)⟩
  | back {z t w tb wb} : ¬ Matches wb (z :: tb) →
      Round ⟨t, w, some (z :: tb, wb)⟩ ⟨tb, wb, some (tb, wb)⟩
  | jump {x c t w tb wb} : Jumps ⟨x :: t, w, some (tb, c :: wb)⟩ →
      Round ⟨x :: t, w, some (tb, c :: wb)⟩ ⟨t, wb, some (tb, c :: wb)⟩
  | next {x t tb wb} : ¬ Matches wb (x :: t) →
      Round ⟨x :: t, wb, some (tb, wb)⟩ ⟨t, wb, some (tb, wb)⟩

/-- The fast-forward stops at the first place with the symbol. -/
theorem fastForward_first {c : UInt8} {t t' : List UInt8} (h : fastForward c t = .ok t') :
    ∀ q, q <:+ t → t'.length < q.length → q.head? ≠ some c := by
  induction t with
  | nil => cases h
  | cons x t ih =>
    rw [fastForward] at h
    intro q hq hlt
    by_cases hx : x = c
    · rw [if_pos hx] at h
      cases h
      exact absurd hq.length_le (Nat.not_le_of_lt hlt)
    · rw [if_neg hx] at h
      by_cases ht : t = []
      · rw [if_pos ht] at h
        cases h
      · rw [if_neg ht] at h
        rcases List.suffix_cons_iff.mp hq with rfl | hq
        · exact fun he => hx (Option.some.inj he)
        · exact ih h q hq hlt

theorem advance_goOn {s s' : State} (h : advance s = .goOn s') :
    ∃ x t, s.tame = x :: t ∧ t ≠ [] ∧ s' = ⟨t, s.wild.tail, s.marks⟩ := by
  obtain ⟨tame, wild, marks⟩ := s
  cases tame with
  | nil => cases h
  | cons x t =>
    by_cases ht : t = []
    · rw [ht] at h; cases h
    · simp only [advance, if_neg ht] at h
      exact ⟨x, t, rfl, ht, (Next.goOn.inj h).symm⟩

theorem skipStars_length_lt {w : List UInt8} (h : w.head? = some star) :
    (skipStars w).length < w.length := by
  cases w with
  | nil => simp at h
  | cons c w =>
    obtain rfl : c = star := by simpa using h
    have hskip : skipStars (star :: w) = skipStars w := rfl
    have hsuf : skipStars w <:+ w := List.dropWhile_suffix _
    rw [hskip, List.length_cons]
    exact Nat.lt_succ_of_le hsuf.length_le

theorem onStar_round {s s' : State} (hstar : s.wild.head? = some star)
    (h : onStar s = .goOn s') : Round s s' := by
  unfold onStar at h
  cases hskip : skipStars s.wild with
  | nil => rw [hskip] at h; cases h
  | cons c w =>
    rw [hskip] at h
    have hc := skipStars_cons hskip
    by_cases hq : c = quest
    · simp only [if_pos hq] at h
      obtain ⟨x, t, ht, hne, rfl⟩ := advance_goOn h
      simp only at ht
      simp only [ht]
      refine .commit hne (by rw [ht]) hstar hskip fun q hq hlt => ?_
      rw [ht] at hq
      exact absurd hq.length_le (Nat.not_le_of_lt hlt)
    · have hff := fastForward_spec hc hq w s.tame
      simp only [if_neg hq] at h
      cases he : fastForward c s.tame with
      | error r => rw [he] at h; cases h
      | ok tb =>
        rw [he] at h hff
        obtain ⟨x, t, ht, hne, rfl⟩ := advance_goOn h
        simp only at ht
        simp only [ht]
        refine .commit hne (ht ▸ hff.2.1) hstar hskip fun q hq' hlt hmatch => ?_
        -- a place before has another symbol, and the stretch begins with no `'?'`
        have hhead := fastForward_first he q hq' (ht ▸ hlt)
        cases q with
        | nil => exact not_matches_cons_nil hc hmatch
        | cons z q =>
          rcases (tok_admits hc).mp ((matches_cons_cons hc).mp hmatch).1 with hquest | hz
          · exact hq hquest
          · exact hhead (congrArg some hz)

theorem onMismatch_round {s s' : State} (hinv : Inv s) (hstar : s.wild.head? ≠ some star)
    (hmis : s.tame.head? ≠ s.wild.head? ∧ s.wild.head? ≠ some quest)
    (h : onMismatch s = .goOn s') : Round s s' := by
  have hw := not_matches_of_mismatch hstar hmis.1 hmis.2
  obtain ⟨t, w, marks⟩ := s
  cases marks with
  | none => cases h
  | some marks =>
    obtain ⟨tb, wb⟩ := marks
    have hm : Marked tb wb t w := hinv tb wb rfl
    obtain ⟨c, wb, rfl, -⟩ := hm.head
    -- The next place, the shortcut, or back.
    by_cases hne : w = c :: wb
    · subst hne
      cases t with
      | nil => simp [onMismatch] at h
      | cons x t =>
        have hgo : onMismatch ⟨x :: t, c :: wb, some (tb, c :: wb)⟩
            = .goOn ⟨t, c :: wb, some (tb, c :: wb)⟩ := by simp [onMismatch]
        rw [hgo] at h
        cases h
        exact .next hw
    · by_cases hhead : t.head? = some c
      · cases t with
        | nil => simp at hhead
        | cons x t =>
          have hgo : onMismatch ⟨x :: t, w, some (tb, c :: wb)⟩
              = .goOn ⟨t, wb, some (tb, c :: wb)⟩ := by
            have hx : x = c := by simpa using hhead
            simp [onMismatch, hne, hx]
          rw [hgo] at h
          cases h
          exact .jump ⟨hstar, hmis, tb, c :: wb, rfl, hne, hhead⟩
      · cases tb with
        | nil => simp [onMismatch, hne, hhead] at h
        | cons z tb =>
          have hgo : onMismatch ⟨t, w, some (z :: tb, c :: wb)⟩
              = .goOn ⟨tb, c :: wb, some (tb, c :: wb)⟩ := by simp [onMismatch, hne, hhead]
          rw [hgo] at h
          cases h
          exact .back (hm.not_matches hne hw)

theorem round_of_step {s s' : State} (hinv : Inv s) (h : step s = .goOn s') : Round s s' := by
  unfold step at h
  by_cases hstar : s.wild.head? = some star
  · rw [if_pos hstar] at h
    exact onStar_round hstar h
  · rw [if_neg hstar] at h
    by_cases hmis : s.tame.head? ≠ s.wild.head? ∧ s.wild.head? ≠ some quest
    · rw [if_pos hmis] at h
      exact onMismatch_round hinv hstar hmis h
    · rw [if_neg hmis] at h
      obtain ⟨x, t, ht, hne, rfl⟩ := advance_goOn h
      obtain ⟨tame, wild, marks⟩ := s
      simp only at ht
      subst ht
      cases wild with
      | nil => simp at hmis
      | cons c w =>
        rw [not_and_or, not_not, not_not] at hmis
        exact .read hne (tok_admits_of_test (by simpa using hstar) hmis)

/-- The loop does not go on at the end of the text before there are bookmarks. -/
theorem Round.tame_ne_nil {s s' : State} (h : Round s s') (hm : s'.marks = none) :
    s'.tame ≠ [] := by
  cases h with
  | read hne _ => exact hne
  | commit _ _ _ _ _ => cases hm
  | back _ => cases hm
  | jump _ => cases hm
  | next _ => cases hm

/-! ## Termination

The rank counts what is left of the pattern from the present stretch on, the places at which the
stretch can still be tried, and what is left of the text, in this order. -/

/-- What is left to do, most significant first: the pattern from its bookmark on, the text from
    its bookmark on, the text. -/
def rank (n : Nat) (s : State) : Nat :=
  match s.marks with
  | none => (s.wild.length + 1) * (n + 1) * (n + 1) + s.tame.length
  | some (tb, wb) => (wb.length * (n + 1) + tb.length) * (n + 1) + s.tame.length

/-- The text is no longer than `n`. -/
def Within (n : Nat) (s : State) : Prop :=
  match s.marks with
  | none => s.tame.length ≤ n
  | some (tb, _) => tb.length ≤ n

theorem pack_lt {n a b a' b' : Nat} (ha : a' < a) (hb : b' ≤ n) :
    a' * (n + 1) + b' < a * (n + 1) + b := by
  have h : (a' + 1) * (n + 1) ≤ a * (n + 1) := Nat.mul_le_mul_right _ ha
  rw [Nat.succ_mul] at h
  omega

theorem Round.rank_lt {n : Nat} {s s' : State} (hinv : Inv s) (hn : Within n s)
    (h : Round s s') : Within n s' ∧ rank n s' < rank n s := by
  cases h with
  -- The attempt has read a symbol more.
  | @read x c t w marks hne _ =>
    cases marks with
    | none =>
      have ht : t.length ≤ n := Nat.le_of_succ_le hn
      refine ⟨ht, ?_⟩
      simp only [rank, List.length_cons]
      exact Nat.add_lt_add_of_le_of_lt (Nat.mul_le_mul_right _
        (Nat.mul_le_mul_right _ (by omega))) (by omega)
    | some marks => exact ⟨hn, by simp [rank]⟩
  -- There is a stretch less in the pattern.
  | @commit x c t w t' w' marks hne hsuf hstar hskip _ =>
    have hlen := skipStars_length_lt hstar
    rw [hskip] at hlen
    cases marks with
    | none =>
      have ht' : t'.length ≤ n := hn
      have ht : (x :: t).length ≤ n := hsuf.length_le.trans ht'
      have hwild : (c :: w).length * (n + 1) + (x :: t).length
          < (w'.length + 1) * (n + 1) + 0 := pack_lt (Nat.lt_succ_of_lt hlen) ht
      exact ⟨ht, pack_lt hwild (Nat.le_of_succ_le ht)⟩
    | some marks =>
      obtain ⟨tb, wb⟩ := marks
      have hm : Marked tb wb t' w' := hinv tb wb rfl
      obtain ⟨y, x', rfl, -, -, -⟩ := hm.attempt
      have htb : tb.length ≤ n := hn
      have ht : (x :: t).length ≤ n := (hsuf.trans hm.suffix).length_le.trans htb
      have hwb : (c :: w).length < (y ++ w').length := by
        rw [List.length_append]; omega
      exact ⟨ht, pack_lt (pack_lt hwb ht) (Nat.le_of_succ_le ht)⟩
  | @back z t w tb wb _ =>
    have htb : tb.length ≤ n := Nat.le_of_succ_le hn
    refine ⟨htb, ?_⟩
    simp only [rank, List.length_cons]
    exact pack_lt (by omega) htb
  | jump _ => exact ⟨hn, by simp [rank]⟩
  | next _ => exact ⟨hn, by simp [rank]⟩

theorem loop_returns {n m : Nat} {s : State} (hinv : Inv s) (hn : Within n s)
    (hm : rank n s < m) : ∃ r, loop m s = some r := by
  induction m generalizing s with
  | zero => omega
  | succ m ih =>
    rw [loop]
    cases hstep : step s with
    | stop r => exact ⟨r, rfl⟩
    | goOn s' =>
      obtain ⟨hn', hlt⟩ := (round_of_step hinv hstep).rank_lt hinv hn
      exact ih (hinv.step hstep).1 hn' (by omega)

/-- The matcher returns, or leaves the strings. -/
theorem wildcardMatch_returns (tame wildcard : List UInt8) :
    ∃ r, wildcardMatch tame wildcard = some r := by
  have hwithin : Within tame.length (start tame wildcard) := Nat.le_refl _
  exact loop_returns (inv_start tame wildcard) hwithin (Nat.lt_succ_self _)

/-! ## Completeness

A match that can still be found is found in the end, if no state on the way misses it. -/

/-- An attempt that ends without missing anything ends in a match, if there is one to find. -/
theorem Inv.matches_of_live {s : State} (hinv : Inv s) (hopen : s.marks = none → s.tame ≠ [])
    (hlive : Live s) (hends : Ends s) (hmiss : ¬ Misses s) :
    Matches s.wild s.tame ∧ ¬ (s.tame = [] ∧ s.wild = []) := by
  unfold Live at hlive
  cases hm : s.marks with
  | none =>
    rw [hm] at hlive
    exact ⟨hlive, fun hnil => hopen hm hnil.1⟩
  | some marks =>
    rw [hm] at hlive
    refine ⟨?_, fun hnil => hmiss ⟨marks.1, marks.2, hm, hends, .inl hnil⟩⟩
    by_contra hw
    exact hmiss ⟨marks.1, marks.2, hm, hends, .inr ⟨hw, (hinv _ _ hm).earlier hends hlive hw⟩⟩

/-- **Completeness of a run that misses nothing**: it finds what there is to find. -/
theorem success_of_live {n : Nat} {s : State} {r : Result} (hinv : Inv s)
    (hopen : s.marks = none → s.tame ≠ []) (hlive : Live s)
    (hmiss : ∀ s', Reached s s' → ¬ Misses s') (h : loop n s = some r) : r = .success := by
  induction n generalizing s with
  | zero => cases h
  | succ n ih =>
    rw [loop] at h
    cases hstep : step s with
    | goOn s' =>
      rw [hstep] at h
      obtain ⟨hinv', hcase⟩ := step_goOn hinv hstep
      have hlive' : Live s' := by
        rcases hcase with ⟨hends, hiff⟩ | ⟨-, hiff⟩
        · exact hiff.mpr (hinv.matches_of_live hopen hlive hends (hmiss s .refl)).1
        · exact hiff.mpr hlive
      exact ih hinv' (round_of_step hinv hstep).tame_ne_nil hlive'
        (fun s'' hreach => hmiss s'' (.head hstep hreach)) h
    | stop r' =>
      rw [hstep] at h
      cases h
      rcases step_stop hinv hstep with ⟨hends, -, hcomplete⟩ | ⟨-, -, hdead⟩
      · obtain ⟨hw, hnil⟩ := hinv.matches_of_live hopen hlive hends (hmiss s .refl)
        exact (hcomplete hw).resolve_right hnil
      · exact absurd hlive hdead

/-- Nothing makes up for a miss. -/
theorem not_success_of_misses {n : Nat} {s : State} (hinv : Inv s) (h : Misses s) :
    loop n s ≠ some .success := by
  obtain ⟨tb, wb, hm, hends, hcase⟩ := h
  intro hsuccess
  cases n with
  | zero => cases hsuccess
  | succ n =>
    rw [loop] at hsuccess
    rcases hcase with ⟨ht, hw⟩ | ⟨hw, -⟩
    · -- both pointers move on from their terminators
      have hstep : step s = .stop .outOfBounds := by
        simp [step, advance, ht, hw]
      rw [hstep] at hsuccess
      cases hsuccess
    · cases hstep : step s with
      | goOn s' =>
        rw [hstep] at hsuccess
        obtain ⟨hinv', ⟨-, hiff⟩ | ⟨hnot, -⟩⟩ := step_goOn hinv hstep
        · exact hw (hiff.mp (live_of_success hinv' hsuccess))
        · exact hnot hends
      | stop r =>
        rw [hstep] at hsuccess
        cases hsuccess
        rcases step_stop hinv hstep with ⟨-, hsound, -⟩ | ⟨hnot, -⟩
        · exact hw (hsound rfl)
        · exact hnot hends

/-- **When the matcher finds a match.** A text that is not empty and matches is accepted exactly
    if no attempt of the run misses an earlier place. -/
theorem wildcard_complete_iff (tame wildcard : List UInt8) (hne : tame ≠ []) :
    (Matches wildcard tame → wildcardMatch tame wildcard = some .success) ↔
      ∀ s, Reached (start tame wildcard) s → ¬ Misses s := by
  constructor
  · intro h s hreach hmiss
    obtain ⟨hinv, hlive⟩ := (inv_start tame wildcard).reached hreach
    obtain ⟨m, hm⟩ := loop_of_reached hreach (h (hlive (hmiss.live hinv)))
    exact not_success_of_misses hinv hmiss hm
  · intro hmiss hmatch
    obtain ⟨r, hr⟩ := wildcardMatch_returns tame wildcard
    rw [hr, success_of_live (inv_start tame wildcard) (fun _ => hne) hmatch hmiss hr]

end Wildcard
end Inac
