import Inac.Lz4.Copies
import Inac.Lz4.Lengths

/-!
# The decoder without its tricks

`plainLoop` decodes one sequence after the other and copies every byte on its own: the output is a
list, literals are appended to it and a match is copied from where it is. What it knows of the end of
a block is what the format says.

Two kinds of tricks separate the decoder from it. The copies in blocks, the tables for matches that
are close and the byte loop at the end of the output change nothing: that is shown here, against a
decoder (`laxLoop`) that copies as the plain one does and makes the decisions of the real one. After
every turn the real decoder's output buffer begins with its list.

The shortcut for short sequences is the other kind. It leaves out the checks for the end of the block,
which is why `laxLoop` has it too. What that comes to is the subject of `Inac.Lz4.Shortcut`.

There are two reasons to have the decoder with plain copies and real decisions. The statements about
any input need the real decisions, as they are about what the code returns; and the statements about
blocks need to say what is put out without eight bytes too many. The step between the two is
`Mirrors`: the turn of the real decoder has the same kind, the same places and a buffer that begins
with the list. It is proved for each of the pieces of a turn in the order in which they are
composed, the shortcut, the match and the literals.

Both plain decoders are made of the same parts. They differ in one branch of `laxSequence`, so what
is said about literals and matches is said once.
-/

namespace Inac
namespace Lz4

open Lib

/-! ## The plain decoder

The output is what has been put out, so the place in it is its length, and a match is copied with
`copyBack`. `Ends` and `Amiss` are the two conditions of the literals: whether the block is to end
here, and whether it does so where it should. -/

/-- What a turn comes to, with the output so far. -/
inductive PlainTurn where
  | next (ip : Nat) (out : List UInt8)
  | finish (ip : Nat) (out : List UInt8)
  | outputError (ip : Nat)
  deriving DecidableEq, Repr

section Plain

variable (D : Directives) (src : List UInt8) (srcSize outputSize : Nat)

/-- From the offset on. The match may not end in the last five bytes. -/
def plainMatch (token ip : Nat) (out : List UInt8) : Option PlainTurn := do
  let offset ← lz4ReadLE16 src ip
  if D.endOnInput = true ∧ D.dictSize < 2 ^ 16 ∧ out.length + D.prefixSize + D.dictSize < offset then
    some (.outputError (ip + 2))
  else
    match ← matchLength D src srcSize token (ip + 2) with
    | .error ip => some (.outputError ip)
    | .ok (ip, length) => do
      let _ ← matchPlace out.length offset
      if outputSize < out.length + (length + 4) + 5 then some (.outputError ip)
      else some (.next ip (copyBack offset (length + 4) out))

/-- The literals that end at `cpy` in the output and at `ip` in the input are the last ones. -/
def Ends (ip cpy : Nat) : Prop :=
  (D.endOnInput = true ∧ (outputSize < cpy + 12 ∨ srcSize < ip + 8)) ∨
    (D.endOnInput = false ∧ outputSize < cpy + 8)

/-- They do not end where the block is to end. -/
def Amiss (ip cpy : Nat) : Prop :=
  (D.endOnInput = false ∧ cpy ≠ outputSize) ∨
    (D.endOnInput = true ∧ (ip ≠ srcSize ∨ outputSize < cpy))

instance : DecidablePred (Ends D srcSize outputSize ip) := fun _ => by
  unfold Ends; infer_instance

instance : DecidablePred (Amiss D srcSize outputSize ip) := fun _ => by
  unfold Amiss; infer_instance

/-- The literals: the last ones end the block. -/
def plainLiterals (token ip : Nat) (out : List UInt8) : Option PlainTurn := do
  let (ip, length) ← literalLength D src srcSize token ip
  if Ends D srcSize outputSize (ip + length) (out.length + length) then
    if Amiss D srcSize outputSize (ip + length) (out.length + length) then some (.outputError ip)
    else do
      let lits ← load src ip length
      some (.finish (ip + length) (out ++ lits))
  else do
    let lits ← load src ip length
    plainMatch D src srcSize outputSize token (ip + length) (out ++ lits)

def plainSequence (ip : Nat) (out : List UInt8) : Option PlainTurn := do
  let token ← src[ip]?
  plainLiterals D src srcSize outputSize token.toNat (ip + 1) out

/-- What the plain decoder returns, and what it has put out; nothing, if there is an error. -/
def plainLoop : Nat → Nat → List UInt8 → Option (Int × List UInt8)
  | 0, _, _ => none
  | fuel + 1, ip, out => do
    match ← plainSequence D src srcSize outputSize ip out with
    | .next ip out => plainLoop fuel ip out
    | .finish ip out => some (if D.endOnInput then out.length else ip, out)
    | .outputError ip => some (-(ip : Int) - 1, [])

/-! ## The plain copies with the real decisions

`laxShortcut` puts out the literals and the match that the token says, without the sixteen and
eighteen bytes that the code writes. -/

/-- A short sequence, with no look at the end of the block. -/
def laxShortcut (token ip off : Nat) (out : List UInt8) : Option PlainTurn := do
  let lits ← load src ip (token / 2 ^ 4)
  let _ ← matchPlace (out ++ lits).length off
  some (.next (ip + token / 2 ^ 4 + 2) (copyBack off (token % 2 ^ 4 + 4) (out ++ lits)))

def laxSequence (ip : Nat) (out : List UInt8) : Option PlainTurn := do
  let token ← src[ip]?
  match ← shortcutOffset D src srcSize outputSize token.toNat (ip + 1) out.length with
  | some off => laxShortcut src token.toNat (ip + 1) off out
  | none => plainLiterals D src srcSize outputSize token.toNat (ip + 1) out

/-- What the decoder returns, and what stands at the front of `dst` then, if it is no error. -/
def laxLoop : Nat → Nat → List UInt8 → Option (Int × List UInt8)
  | 0, _, _ => none
  | fuel + 1, ip, out => do
    match ← laxSequence D src srcSize outputSize ip out with
    | .next ip out => laxLoop fuel ip out
    | .finish ip out => some (if D.endOnInput then out.length else ip, out)
    | .outputError ip => some (-(ip : Int) - 1, [])

end Plain

/-! ## One turn

`Roomy` is only asked of the decoder that does not know where its input ends. It has no check that
could keep a copy in blocks inside the input, so it may be used for input that is known to be a
block. -/

/-- The decoder does with a buffer of `cap` bytes what is done with a list. -/
def Mirrors (cap : Nat) : PlainTurn → Turn → Prop
  | .next ip out, .next ip' op dst => ip = ip' ∧ op = out.length ∧ out <+: dst ∧ dst.length = cap
  | .finish ip out, .finish ip' op dst =>
    ip = ip' ∧ op = out.length ∧ out <+: dst ∧ dst.length = cap
  | .outputError ip, .outputError ip' dst => ip = ip' ∧ dst.length = cap
  | _, _ => False

variable {D : Directives} {src out dst : List UInt8} {srcSize outputSize token ip off : Nat}
  {t : PlainTurn}

theorem matchPlace_some {op offset m : Nat} (h : matchPlace op offset = some m) : offset ≤ op := by
  rw [matchPlace] at h
  split at h
  · assumption
  · cases h

/-- **The shortcut** puts out the short sequence, and some bytes more behind it. -/
theorem shortcut_mirrors (h : out <+: dst) (hdst : outputSize ≤ dst.length)
    (hsrc : srcSize ≤ src.length)
    (hoff : shortcutOffset D src srcSize outputSize token ip out.length = some (some off))
    (ht : laxShortcut src token ip off out = some t) :
    ∃ t', shortcut src token ip out.length off dst = some t' ∧ Mirrors dst.length t t' := by
  rw [shortcutOffset] at hoff
  split at hoff
  case isFalse => simp at hoff
  case isTrue hroom =>
  obtain ⟨hip, hop, htoken, hne⟩ := hroom
  obtain ⟨o, -, ho⟩ := Option.map_eq_some_iff.mp hoff
  split at ho
  case isFalse => cases ho
  case isTrue hfar =>
  cases Option.some.inj ho
  have hll : token / 2 ^ 4 ≤ 14 := by omega
  have hml : token % 2 ^ 4 + 4 ≤ 18 := by omega
  generalize hlls : token / 2 ^ 4 = ll at *
  have hload : load src ip ll = some ((src.drop ip).take ll) := load_eq (by omega)
  have hlen : (out ++ (src.drop ip).take ll).length = out.length + ll := by
    rw [List.length_append, List.length_take, List.length_drop]
    omega
  simp only [laxShortcut, hlls, hload, Option.bind_eq_bind, Option.bind_some, hlen] at ht
  obtain ⟨m, hm, ht⟩ := Option.bind_eq_some_iff.mp ht
  cases Option.some.inj ht
  have hback := matchPlace_some hm
  rw [matchPlace, if_pos hback] at hm
  cases Option.some.inj hm
  -- Sixteen bytes of literals, of which the first `ll` count, and eighteen of the match.
  obtain ⟨dst₁, hcopy₁, hpre₁, hlen₁⟩ := memcpy_prefix _ ip 16 h rfl
    (show _ ≤ src.length by omega) (by omega)
  have hpre₁' : out ++ (src.drop ip).take ll <+: dst₁ :=
    ((List.prefix_append_right_inj out).mpr (List.take_prefix_take_left (by omega))).trans hpre₁
  obtain ⟨dst₂, hcopy₂, hpre₂, hlen₂⟩ := memcpy_copyBack (s := out.length + ll - off) (n := 18)
    hpre₁' hlen.symm (by omega) (by omega)
  rw [Nat.sub_sub_self hback] at hpre₂
  refine ⟨.next (ip + ll + 2) (out.length + ll + (token % 2 ^ 4 + 4)) dst₂, ?_, rfl, ?_,
    (copyBack_mono _ hml _).trans hpre₂, by omega⟩
  · simp only [shortcut, hlls, matchPlace, if_pos hback, hcopy₁, hcopy₂, Option.bind_eq_bind,
      Option.bind_some]
  · rw [length_copyBack, hlen]

/-- **A match.** -/
theorem decodeMatch_mirrors (h : out <+: dst) (hdst : outputSize ≤ dst.length)
    (hroom : out.length + 8 ≤ outputSize)
    (ht : plainMatch D src srcSize outputSize token ip out = some t) :
    ∃ t', decodeMatch D src srcSize outputSize token ip out.length dst = some t' ∧
      Mirrors dst.length t t' := by
  rw [plainMatch, Option.bind_eq_bind] at ht
  obtain ⟨offset, hoffset, ht⟩ := Option.bind_eq_some_iff.mp ht
  simp only [decodeMatch, Option.bind_eq_bind, hoffset, Option.bind_some]
  split at ht
  case isTrue hbad =>
    cases Option.some.inj ht
    exact ⟨_, if_pos hbad, rfl, rfl⟩
  case isFalse hok =>
  rw [if_neg hok]
  -- The offset is written where the match is to begin, and overwritten by it.
  obtain ⟨dst₁, hwrite, hpre₁, hlen₁⟩ := store_prefix _ h rfl
    (show _ + (wordBytes 4 offset).length ≤ _ by rw [wordBytes_length]; omega)
  obtain ⟨r, hr, ht⟩ := Option.bind_eq_some_iff.mp ht
  simp only [lz4Write32, hwrite, hr, Option.bind_some]
  cases r with
  | error ip =>
    cases Option.some.inj ht
    exact ⟨_, rfl, rfl, hlen₁⟩
  | ok r =>
    obtain ⟨ip', length⟩ := r
    obtain ⟨m, hm, ht⟩ := Option.bind_eq_some_iff.mp ht
    obtain ⟨m', dst₂, hhead, hpre₂, hlen₂, hm', hgo⟩ := matchHead_copyBack hpre₁ rfl
      (matchPlace_some hm) (by omega)
    obtain ⟨r, htail, hr⟩ := matchTail_copyBack m' (length + 4) outputSize hpre₂ rfl
      (by rw [length_copyBack]; omega) (by omega) (by omega) (by rw [length_copyBack]; omega)
    rw [length_copyBack, Nat.add_sub_cancel] at htail hr
    simp only [hhead, htail, Option.bind_some]
    -- A match that ends in the last five bytes is an error, in both.
    by_cases hfull : outputSize < out.length + (length + 4) + 5
    · rw [if_pos hfull] at ht hr
      cases Option.some.inj ht
      subst hr
      exact ⟨_, rfl, rfl, by omega⟩
    · rw [if_neg hfull] at ht hr
      cases Option.some.inj ht
      obtain ⟨dst₃, rfl, hpre₃, hlen₃⟩ := hr
      rw [hgo] at hpre₃
      exact ⟨_, rfl, rfl, by rw [length_copyBack],
        (copyBack_mono _ (by omega) _).trans hpre₃, by omega⟩

/-- A decoder that stops at the end of the output does not look where its input ends. It has to find
    six bytes behind a sequence, as there are in a block, and may not run into an error. -/
def PlainTurn.Roomy (src : List UInt8) : PlainTurn → Prop
  | .next ip _ => ip + 6 ≤ src.length
  | .finish _ _ => True
  | .outputError _ => False

/-- A match that is decoded has six bytes behind it, so a copy of literals before it may go eight
    bytes past its end. -/
theorem plainMatch_roomy (ht : plainMatch D src srcSize outputSize token ip out = some t)
    (hroomy : t.Roomy src) : ip + 8 ≤ src.length := by
  rw [plainMatch, Option.bind_eq_bind] at ht
  obtain ⟨offset, -, ht⟩ := Option.bind_eq_some_iff.mp ht
  split at ht
  case isTrue =>
    cases Option.some.inj ht
    exact hroomy.elim
  case isFalse =>
  obtain ⟨r, hr, ht⟩ := Option.bind_eq_some_iff.mp ht
  cases r with
  | error ip =>
    cases Option.some.inj ht
    exact hroomy.elim
  | ok r =>
    obtain ⟨m, -, ht⟩ := Option.bind_eq_some_iff.mp ht
    obtain ⟨-, hle, -⟩ := matchLength_read hr
    split at ht <;> cases Option.some.inj ht
    · exact hroomy.elim
    · change _ ≤ _ at hroomy
      omega

/-- **A turn of the main loop** copies what the plain copies do. -/
theorem decodeSequence_mirrors (h : out <+: dst) (hdst : outputSize ≤ dst.length)
    (hsrc : srcSize ≤ src.length)
    (hroomy : D.endOnInput = false → t.Roomy src)
    (ht : laxSequence D src srcSize outputSize ip out = some t) :
    ∃ t', decodeSequence D src srcSize outputSize ip out.length dst = some t' ∧
      Mirrors dst.length t t' := by
  rw [laxSequence, Option.bind_eq_bind] at ht
  obtain ⟨token, htoken, ht⟩ := Option.bind_eq_some_iff.mp ht
  obtain ⟨r, hr, ht⟩ := Option.bind_eq_some_iff.mp ht
  simp only [decodeSequence, Option.bind_eq_bind, htoken, hr, Option.bind_some]
  cases r with
  | some off => exact shortcut_mirrors h hdst hsrc hr ht
  | none =>
    simp only [plainLiterals, Option.bind_eq_bind] at ht
    obtain ⟨⟨ip', length⟩, hl, ht⟩ := Option.bind_eq_some_iff.mp ht
    simp only [decodeLiterals, Option.bind_eq_bind, hl, Option.bind_some]
    change ∃ t', (if Ends D srcSize outputSize (ip' + length) (out.length + length) then
      if Amiss D srcSize outputSize (ip' + length) (out.length + length) then _ else _ else _) =
      some t' ∧ _
    by_cases hends : Ends D srcSize outputSize (ip' + length) (out.length + length)
    · rw [if_pos hends] at ht ⊢
      by_cases hamiss : Amiss D srcSize outputSize (ip' + length) (out.length + length)
      · rw [if_pos hamiss] at ht ⊢
        cases Option.some.inj ht
        exact ⟨_, rfl, rfl, rfl⟩
      · rw [if_neg hamiss] at ht ⊢
        obtain ⟨lits, hlits, ht⟩ := Option.bind_eq_some_iff.mp ht
        cases Option.some.inj ht
        have hsize : ip' + length ≤ src.length := by
          rw [load] at hlits
          split at hlits
          · assumption
          · cases hlits
        -- The last literals are copied exactly, so they have to fit.
        have hcpy : out.length + length ≤ outputSize := by
          rw [Amiss] at hamiss
          cases hE : D.endOnInput <;> simp [hE] at hamiss <;> omega
        obtain ⟨dst₁, hcopy, hpre, hlen⟩ := memcpy_prefix src ip' length h rfl
          hsize (by omega)
        rw [load_eq hsize] at hlits
        cases Option.some.inj hlits
        refine ⟨.finish (ip' + length) (out.length + length) dst₁, ?_, rfl, ?_, hpre,
          hlen⟩
        · simp only [hcopy, Option.bind_some]
        · rw [List.length_append, List.length_take, List.length_drop]
          omega
    · rw [if_neg hends] at ht ⊢
      obtain ⟨lits, hlits, ht⟩ := Option.bind_eq_some_iff.mp ht
      -- Literals that do not end the block have eight bytes behind them, in the input and in the
      -- output: a decoder that is told where its input ends has looked, and for the other one it is
      -- assumed.
      have hroom : out.length + length + 8 ≤ outputSize ∧ ip' + length + 8 ≤ src.length := by
        cases hE : D.endOnInput with
        | false =>
          have hsize := plainMatch_roomy ht (hroomy hE)
          simp [Ends, hE] at hends
          exact ⟨hends, hsize⟩
        | true =>
          simp [Ends, hE] at hends
          omega
      obtain ⟨dst₁, hwild, hpre, hlen⟩ := lz4WildCopy_from src (s := ip')
        (e := out.length + length) h rfl (by omega) (by omega) (by omega) (by omega)
      rw [Nat.add_sub_cancel_left] at hpre
      rw [load_eq (by omega)] at hlits
      cases Option.some.inj hlits
      have hop : (out ++ (src.drop ip').take length).length = out.length + length := by
        rw [List.length_append, List.length_take, List.length_drop]
        omega
      simp only [hwild, Option.bind_some]
      rw [← hop]
      rw [← hlen]
      exact decodeMatch_mirrors hpre (hlen ▸ hdst) (by omega) ht

end Lz4
end Inac
