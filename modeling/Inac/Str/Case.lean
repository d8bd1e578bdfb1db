import Inac.Str.Refine

/-!
# Upper and lower case (`ina_str_toupper`, `ina_str_tolower`, `ina_str_casecmp`)

The conversions look at the top three bits of a byte and flip bit 5: `toupper` for all of 0x60 to
0x7F, `tolower` for all of 0x40 to 0x5F. The letters fill all but six places of each range, and the
six others are converted like them: "`" to "@", "{" to "[", and so on. The comparison folds letters
only, so the two agree exactly on strings without such bytes (`case_iff_no_mistaken`).

`strcasecmp` is the one of the C locale: it compares byte by byte after `tolower`, up to the first
difference or the NUL.
-/

namespace Inac
namespace Str

/-! ## The code

A byte is flipped if its top bits are those of one range, and the loop ends after the NUL. -/

/-- `if (top == (224 & c)) c ^= 32`. -/
def flipCase (top c : UInt8) : UInt8 := if top = 224 &&& c then c ^^^ 32 else c

/-- `do { .. } while (*s++);`; without a NUL it runs out of the string. -/
def caseLoop (top : UInt8) : List UInt8 → Option (List UInt8)
  | [] => none
  | c :: bytes =>
    -- the test is of the byte as it is now
    if flipCase top c ≠ 0 then (caseLoop top bytes).map (flipCase top c :: ·)
    else some (flipCase top c :: bytes)

def inaStrToupper (str : List UInt8) : Option (List UInt8) := caseLoop 96 str

def inaStrTolower (str : List UInt8) : Option (List UInt8) := caseLoop 64 str

/-- `tolower` in the C locale. -/
def tolower (c : UInt8) : UInt8 := if 65 ≤ c ∧ c ≤ 90 then c + 32 else c

def strcasecmp : List UInt8 → List UInt8 → Option Int
  | a :: as, b :: bs =>
    let result := ((tolower a).toNat : Int) - (tolower b).toNat
    if result ≠ 0 ∨ a = 0 then some result else strcasecmp as bs
  | _, _ => none

def inaStrCasecmp (lhs rhs : List UInt8) : Option Int := strcasecmp lhs rhs

/-! ## Bytes

Statements about a single byte, which are decided by going through all of them. -/

def isLetter (c : UInt8) : Prop := 65 ≤ c ∧ c ≤ 90 ∨ 97 ≤ c ∧ c ≤ 122

instance (c : UInt8) : Decidable (isLetter c) := inferInstanceAs (Decidable (_ ∨ _))

/-- A byte between the letters, which one of the two conversions takes for a letter. -/
def Mistaken (c : UInt8) : Prop := 64 ≤ c ∧ c ≤ 127 ∧ ¬ isLetter c

instance (c : UInt8) : Decidable (Mistaken c) := inferInstanceAs (Decidable (_ ∧ _))

/-- The top bits that the conversions look for. -/
def IsTop (top : UInt8) : Prop := top = 96 ∨ top = 64

theorem flipCase_zero_iff {top : UInt8} (htop : IsTop top) (c : UInt8) :
    flipCase top c = 0 ↔ c = 0 := by
  have htable : ∀ b : BitVec 8, (flipCase 96 (.ofBitVec b) = 0 ↔ UInt8.ofBitVec b = 0) ∧
      (flipCase 64 (.ofBitVec b) = 0 ↔ UInt8.ofBitVec b = 0) := by decide +kernel
  rcases htop with rfl | rfl
  · exact (htable c.toBitVec).1
  · exact (htable c.toBitVec).2

theorem flipCase_other_iff {c : UInt8} (hc : ¬ isLetter c) :
    flipCase 96 c = c ∧ flipCase 64 c = c ↔ ¬ Mistaken c := by
  have htable : ∀ b : BitVec 8, ¬ isLetter (.ofBitVec b) →
      (flipCase 96 (.ofBitVec b) = .ofBitVec b ∧ flipCase 64 (.ofBitVec b) = .ofBitVec b ↔
        ¬ Mistaken (.ofBitVec b)) := by decide +kernel
  exact htable c.toBitVec hc

/-- Folding sees no difference, and forgets nothing that the conversion keeps. -/
theorem flipCase_fold {top : UInt8} (htop : IsTop top) {c : UInt8} (hc : ¬ Mistaken c) :
    tolower (flipCase top c) = tolower c ∧ flipCase top (tolower c) = flipCase top c := by
  have htable : ∀ b : BitVec 8, ¬ Mistaken (.ofBitVec b) →
      (tolower (flipCase 96 (.ofBitVec b)) = tolower (.ofBitVec b) ∧
        flipCase 96 (tolower (.ofBitVec b)) = flipCase 96 (.ofBitVec b)) ∧
      (tolower (flipCase 64 (.ofBitVec b)) = tolower (.ofBitVec b) ∧
        flipCase 64 (tolower (.ofBitVec b)) = flipCase 64 (.ofBitVec b)) := by decide +kernel
  rcases htop with rfl | rfl
  · exact (htable c.toBitVec hc).1
  · exact (htable c.toBitVec hc).2

theorem tolower_zero_iff (c : UInt8) : tolower c = 0 ↔ c = 0 := by
  have htable : ∀ b : BitVec 8, tolower (.ofBitVec b) = 0 ↔ UInt8.ofBitVec b = 0 := by
    decide +kernel
  exact htable c.toBitVec

/-! ## Strings

From bytes to strings, by induction up to the NUL. -/

/-- **The conversions** go byte by byte up to the NUL. -/
theorem caseLoop_eq {top : UInt8} (htop : IsTop top) {s : List UInt8} (hs : 0 ∉ s)
    (rest : List UInt8) :
    caseLoop top (s ++ 0 :: rest) = some (s.map (flipCase top) ++ 0 :: rest) := by
  induction s with
  | nil =>
    have hzero : flipCase top 0 = 0 := (flipCase_zero_iff htop 0).mpr rfl
    rw [List.nil_append, caseLoop, hzero]
    rfl
  | cons c s ih =>
    obtain ⟨hc, hs'⟩ := not_or.mp (List.mem_cons.not.mp hs)
    have hne : flipCase top c ≠ 0 := fun h => hc ((flipCase_zero_iff htop c).mp h).symm
    rw [List.cons_append, caseLoop, if_pos hne, ih hs']
    rfl

theorem map_flipCase_ne_zero {top : UInt8} (htop : IsTop top) {s : List UInt8} (hs : 0 ∉ s) :
    0 ∉ s.map (flipCase top) := by
  intro h
  obtain ⟨c, hc, hzero⟩ := List.mem_map.mp h
  rw [(flipCase_zero_iff htop c).mp hzero] at hc
  exact hs hc

/-- **The comparison** is of the folded strings. -/
theorem strcasecmp_eq_zero_iff {a b : List UInt8} (ha : 0 ∉ a) (hb : 0 ∉ b)
    (ra rb : List UInt8) :
    strcasecmp (a ++ 0 :: ra) (b ++ 0 :: rb) = some 0 ↔ a.map tolower = b.map tolower := by
  -- a byte against the NUL of the other string decides
  have hdiff : ∀ {x y : UInt8}, tolower x ≠ tolower y →
      ((tolower x).toNat : Int) - (tolower y).toNat ≠ 0 := by
    intro x y hne heq
    exact hne (UInt8.toNat_inj.mp (by omega))
  induction a generalizing b with
  | nil =>
    cases b with
    | nil => simp [strcasecmp]
    | cons y b =>
      obtain ⟨hy, -⟩ := not_or.mp (List.mem_cons.not.mp hb)
      have hne : tolower 0 ≠ tolower y := fun h =>
        hy ((tolower_zero_iff y).mp (h.symm.trans ((tolower_zero_iff 0).mpr rfl))).symm
      rw [List.nil_append, List.cons_append, strcasecmp, if_pos (Or.inl (hdiff hne))]
      exact iff_of_false (fun h => hdiff hne (Option.some.inj h)) (by simp)
  | cons x a ih =>
    obtain ⟨hx, ha'⟩ := not_or.mp (List.mem_cons.not.mp ha)
    cases b with
    | nil =>
      have hne : tolower x ≠ tolower 0 := fun h =>
        hx ((tolower_zero_iff x).mp (h.trans ((tolower_zero_iff 0).mpr rfl))).symm
      rw [List.nil_append, List.cons_append, strcasecmp, if_pos (Or.inl (hdiff hne))]
      exact iff_of_false (fun h => hdiff hne (Option.some.inj h)) (by simp)
    | cons y b =>
      obtain ⟨-, hb'⟩ := not_or.mp (List.mem_cons.not.mp hb)
      rw [List.cons_append, List.cons_append, strcasecmp, List.map_cons, List.map_cons,
        List.cons.injEq]
      by_cases hxy : tolower x = tolower y
      · have hgo : ¬ (((tolower x).toNat : Int) - (tolower y).toNat ≠ 0 ∨ x = 0) := by
          rw [hxy, Int.sub_self]
          exact fun h => h.elim (fun h => h rfl) fun h => hx h.symm
        rw [if_neg hgo]
        exact (ih ha' hb').trans (and_iff_right hxy).symm
      · rw [if_pos (Or.inl (hdiff hxy))]
        exact iff_of_false (fun h => hdiff hxy (Option.some.inj h)) fun h => hxy h.1

/-! ## Conversion and comparison -/

/-- The characters before the first NUL. -/
def cstrOf (bytes : List UInt8) : List UInt8 := bytes.takeWhile (· ≠ 0)

/-- A conversion returns, and leaves every byte that is not a letter as it is. -/
def KeepsOthers (convert : List UInt8 → Option (List UInt8)) (str : List UInt8) : Prop :=
  ∃ str', convert str = some str' ∧
    ∀ (i : Nat) (c : UInt8), str[i]? = some c → ¬ isLetter c → str'[i]? = some c

/-- Two strings are converted to the same exactly when they compare as equal, and no conversion
    changes anything but letters. -/
structure CaseRight (a b : List UInt8) : Prop where
  upper : (inaStrToupper a).map cstrOf = (inaStrToupper b).map cstrOf ↔ inaStrCasecmp a b = some 0
  lower : (inaStrTolower a).map cstrOf = (inaStrTolower b).map cstrOf ↔ inaStrCasecmp a b = some 0
  others : ∀ s ∈ [a, b], KeepsOthers inaStrToupper s ∧ KeepsOthers inaStrTolower s

theorem keepsOthers_iff {top : UInt8} (htop : IsTop top) {s : List UInt8} (hs : 0 ∉ s)
    (rest : List UInt8) :
    KeepsOthers (caseLoop top) (s ++ 0 :: rest) ↔ ∀ c ∈ s, ¬ isLetter c → flipCase top c = c := by
  rw [KeepsOthers, caseLoop_eq htop hs]
  constructor
  · rintro ⟨str', hstr', hkept⟩ c hc hother
    obtain rfl := Option.some.inj hstr'
    obtain ⟨i, hi, rfl⟩ := List.getElem_of_mem hc
    have hsame := hkept i s[i] (by rw [List.getElem?_append_left hi, List.getElem?_eq_getElem hi])
      hother
    rw [List.getElem?_append_left (by rw [List.length_map]; exact hi), List.getElem?_map,
      List.getElem?_eq_getElem hi] at hsame
    exact Option.some.inj hsame
  · intro hkept
    refine ⟨_, rfl, fun i c hi hother => ?_⟩
    rcases Nat.lt_or_ge i s.length with hlt | hge
    · rw [List.getElem?_append_left hlt] at hi
      rw [List.getElem?_append_left (by rw [List.length_map]; exact hlt), List.getElem?_map, hi]
      exact congrArg some (hkept c (List.mem_of_getElem? hi) hother)
    · rw [List.getElem?_append_right hge] at hi
      rw [List.getElem?_append_right (by rw [List.length_map]; exact hge), List.length_map]
      exact hi

/-- Without a mistaken byte, a conversion merges what folding merges. -/
theorem caseLoop_eq_iff {top : UInt8} (htop : IsTop top) {a b : List UInt8} (ha : 0 ∉ a)
    (hb : 0 ∉ b) (hgood : ∀ c ∈ a ++ b, ¬ Mistaken c) (ra rb : List UInt8) :
    (caseLoop top (a ++ 0 :: ra)).map cstrOf = (caseLoop top (b ++ 0 :: rb)).map cstrOf ↔
      inaStrCasecmp (a ++ 0 :: ra) (b ++ 0 :: rb) = some 0 := by
  obtain ⟨hagood, hbgood⟩ := List.forall_mem_append.mp hgood
  have hfold : ∀ {s : List UInt8}, (∀ c ∈ s, ¬ Mistaken c) →
      (s.map (flipCase top)).map tolower = s.map tolower ∧
      (s.map tolower).map (flipCase top) = s.map (flipCase top) := by
    intro s hs
    rw [List.map_map, List.map_map]
    exact ⟨List.map_congr_left fun c hc => (flipCase_fold htop (hs c hc)).1,
      List.map_congr_left fun c hc => (flipCase_fold htop (hs c hc)).2⟩
  rw [inaStrCasecmp, strcasecmp_eq_zero_iff ha hb, caseLoop_eq htop ha, caseLoop_eq htop hb,
    Option.map_some, Option.map_some, Option.some.injEq, cstrOf, cstrOf,
    takeWhile_cstr (map_flipCase_ne_zero htop ha), takeWhile_cstr (map_flipCase_ne_zero htop hb)]
  constructor
  · intro h
    rw [← (hfold hagood).1, h, (hfold hbgood).1]
  · intro h
    rw [← (hfold hagood).2, h, (hfold hbgood).2]

/-- **Conversion and comparison agree** on two strings, and nothing but letters is converted, if and
    only if neither string has one of the twelve bytes of 0x40 to 0x7F that are not letters. -/
theorem case_iff_no_mistaken {a b : List UInt8} (ha : 0 ∉ a) (hb : 0 ∉ b) (ra rb : List UInt8) :
    CaseRight (a ++ 0 :: ra) (b ++ 0 :: rb) ↔ ∀ c ∈ a ++ b, ¬ Mistaken c := by
  -- A byte that is no letter is kept by both conversions exactly if it is not mistaken.
  have hothers : ∀ {s : List UInt8}, 0 ∉ s → ∀ rest, KeepsOthers inaStrToupper (s ++ 0 :: rest) ∧
      KeepsOthers inaStrTolower (s ++ 0 :: rest) ↔ ∀ c ∈ s, ¬ Mistaken c := by
    intro s hs rest
    refine (and_congr (keepsOthers_iff (Or.inl rfl) hs rest)
      (keepsOthers_iff (Or.inr rfl) hs rest)).trans ?_
    constructor
    · rintro ⟨hupper, hlower⟩ c hc hbad
      exact (flipCase_other_iff hbad.2.2).mp ⟨hupper c hc hbad.2.2, hlower c hc hbad.2.2⟩ hbad
    · intro hgood
      exact ⟨fun c hc hother => ((flipCase_other_iff hother).mpr (hgood c hc)).1,
        fun c hc hother => ((flipCase_other_iff hother).mpr (hgood c hc)).2⟩
  constructor
  · intro h
    refine List.forall_mem_append.mpr ⟨?_, ?_⟩
    · exact (hothers ha ra).mp (h.others _ List.mem_cons_self)
    · exact (hothers hb rb).mp (h.others _ (List.mem_cons_of_mem _ List.mem_cons_self))
  · intro hgood
    obtain ⟨hagood, hbgood⟩ := List.forall_mem_append.mp hgood
    refine ⟨caseLoop_eq_iff (Or.inl rfl) ha hb hgood ra rb,
      caseLoop_eq_iff (Or.inr rfl) ha hb hgood ra rb, ?_⟩
    exact List.forall_mem_cons.mpr ⟨(hothers ha ra).mpr hagood,
      List.forall_mem_cons.mpr ⟨(hothers hb rb).mpr hbgood, fun _ h => absurd h List.not_mem_nil⟩⟩

/-- `"aB1"` and `"Ab1"`. -/
theorem case_iff_no_mistaken_letters : CaseRight [97, 66, 49, 0] [65, 98, 49, 0] := by
  have ha : (0 : UInt8) ∉ [97, 66, 49] := by decide
  have hb : (0 : UInt8) ∉ [65, 98, 49] := by decide
  exact (case_iff_no_mistaken ha hb [] []).mpr (by simp [Mistaken, isLetter])

/-- "`" and "@" are merged by `toupper`, and compare as different. -/
theorem backquote_merged :
    inaStrToupper [96, 0] = some [64, 0] ∧ inaStrToupper [64, 0] = some [64, 0] ∧
      inaStrCasecmp [96, 0] [64, 0] = some 32 ∧ ¬ CaseRight [96, 0] [64, 0] := by
  refine ⟨by decide, by decide, by decide, fun h => ?_⟩
  have hmerged : (inaStrToupper [96, 0]).map cstrOf = (inaStrToupper [64, 0]).map cstrOf := by
    decide
  exact absurd (h.upper.mp hmerged) (by decide)

end Str
end Inac
