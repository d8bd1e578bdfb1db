import Inac.Lz4.Format
import Inac.Lz4.Plain

/-!
# What the decoder accepts

`LZ4_decompress_safe` may be given anything. It stays inside `dst`, reads at most two bytes behind its
input, and what it accepts is a block that it puts out as the block says. It accepts less than all
blocks, as it relies on the ends of blocks being as the format asks for, but all of those.

`LZ4_decompress_fast` is only told how long the output is to be, and is good for such blocks alone.

Soundness is a statement about one turn: what a turn has read, if it is no error, is a sequence
whose bytes stand at `ip`, or the last literals up to the end of the input; and what it has put out
is what the sequence says. That the sequence copies from what is there is the decoder's own check.
It tests that the offset is not too large and not that it is not zero, so a zero gets through.
-/

namespace Inac
namespace Lz4

open Lib

/-- The directives of `LZ4_decompress_safe`. -/
abbrev safe : Directives := ⟨true, 0, 0⟩

/-- The directives of `LZ4_decompress_fast`. -/
abbrev fast : Directives := ⟨false, 2 ^ 16, 2 ^ 16⟩

variable {D : Directives} {src out dst : List UInt8} {srcSize outputSize ip ip' token N fuel : Nat}
  {s : Seq} {ss : List Seq} {last : List UInt8} {low : Nat} {t : PlainTurn}

/-! ## How sequences are written

`Parts` names the pieces of a sequence where the decoder comes across them, and is the same as the
whole sequence being written there. -/

theorem lz4ReadLE16_read {offset : Nat} (h : lz4ReadLE16 src ip = some offset) :
    wordBytes 2 offset <+: src.drop ip ∧ offset < 2 ^ 16 ∧ ip + 2 ≤ src.length := by
  obtain ⟨bs, hload, rfl⟩ := Option.map_eq_some_iff.mp h
  obtain ⟨hpre, hlen, hip⟩ := prefix_of_load hload
  have hlt := wordOf_lt bs
  have hbytes := wordBytes_wordOf bs
  rw [hlen] at hlt hbytes
  exact ⟨hbytes.symm ▸ hpre, hlt, hip⟩

theorem lz4ReadLE16_of_prefix {offset : Nat} (h : wordBytes 2 offset <+: src.drop ip)
    (hoff : offset < 2 ^ 16) : lz4ReadLE16 src ip = some offset := by
  have hfit := prefix_drop_length h (by simp [wordBytes])
  have hload := load_of_prefix h (by omega)
  rw [wordBytes_length] at hload
  rw [lz4ReadLE16, hload, Option.map_some, wordOf_wordBytes, Nat.mod_eq_of_lt hoff]

/-- The parts of a sequence in `src`. -/
structure Parts (src : List UInt8) (ip : Nat) (s : Seq) : Prop where
  token : src[ip]? = some (tokenByte s.lits.length (s.len - 4))
  more : lengthBytes s.lits.length <+: src.drop (ip + 1)
  lits : s.lits <+: src.drop (ip + 1 + (lengthBytes s.lits.length).length)
  offset : wordBytes 2 s.offset <+:
    src.drop (ip + 1 + (lengthBytes s.lits.length).length + s.lits.length)
  len : lengthBytes (s.len - 4) <+:
    src.drop (ip + 1 + (lengthBytes s.lits.length).length + s.lits.length + 2)

theorem parts_iff : Parts src ip s ↔ s.bytes <+: src.drop ip := by
  constructor
  · rintro ⟨htoken, hmore, hlits, hoffset, hlen⟩
    rw [drop_of_getElem? htoken]
    refine List.cons_prefix_cons.mpr ⟨rfl, append_prefix_drop hmore (append_prefix_drop hlits
      (append_prefix_drop hoffset ?_))⟩
    rwa [wordBytes_length]
  · intro h
    obtain ⟨htoken, h₁⟩ := getElem?_of_prefix h
    obtain ⟨hmore, h₂⟩ := prefix_drop_add h₁
    obtain ⟨hlits, h₃⟩ := prefix_drop_add h₂
    obtain ⟨hoffset, hlen⟩ := prefix_drop_add h₃
    rw [wordBytes_length] at hlen
    exact ⟨htoken, hmore, hlits, hoffset, hlen⟩

/-! ## What is accepted is a block

In three cases: the shortcut, a match behind literals that are not the last ones, and the last
literals. -/

/-- What a turn at `ip` has read. -/
def PlainTurn.Sound (src : List UInt8) (srcSize outputSize ip : Nat) (out : List UInt8) :
    PlainTurn → Prop
  | .next ip' out' => ∃ s : Seq, s.bytes <+: src.drop ip ∧ ip' = ip + s.bytes.length ∧
      ip' ≤ srcSize ∧ s.offset ≤ out.length + s.lits.length ∧ out' = s.apply out ∧
      out'.length ≤ outputSize
  | .finish ip' out' => ∃ last low, low ≤ 15 ∧ lastBytes last low <+: src.drop ip ∧
      ip' = srcSize ∧ ip' = ip + (lastBytes last low).length ∧ out' = out ++ last ∧
      out'.length ≤ outputSize
  | .outputError ip' => ip' ≤ srcSize + 2

theorem laxShortcut_sound {b : UInt8} {off : Nat} (hb : src[ip]? = some b)
    (hoff : shortcutOffset safe src srcSize outputSize b.toNat (ip + 1) out.length =
      some (some off))
    (ht : laxShortcut src b.toNat (ip + 1) off out = some t) :
    t.Sound src srcSize outputSize ip out := by
  rw [shortcutOffset] at hoff
  split at hoff
  case isFalse => simp at hoff
  case isTrue hroom =>
  obtain ⟨hip, hop, hhi, hlo⟩ := hroom
  obtain ⟨o, ho, hsome⟩ := Option.map_eq_some_iff.mp hoff
  split at hsome
  case isFalse => cases hsome
  case isTrue hfar =>
  cases Option.some.inj hsome
  obtain ⟨hword, hlt, -⟩ := lz4ReadLE16_read ho
  have hmod : b.toNat % 2 ^ 4 < 15 := by omega
  have hll : b.toNat / 2 ^ 4 < 15 := by omega
  rw [laxShortcut, Option.bind_eq_bind] at ht
  obtain ⟨lits, hlits, ht⟩ := Option.bind_eq_some_iff.mp ht
  obtain ⟨m, -, ht⟩ := Option.bind_eq_some_iff.mp ht
  cases Option.some.inj ht
  obtain ⟨hpre, hlen, -⟩ := prefix_of_load hlits
  rw [← hlen] at hword hll hfar ⊢
  let s : Seq := ⟨lits, off, b.toNat % 2 ^ 4 + 4, hlt, Nat.le_add_left ..⟩
  have hparts : Parts src ip s := by
    refine ⟨?_, ?_, ?_, ?_, ?_⟩
    · rw [hb, eq_tokenByte (hlen.symm.trans (lengthCode_of_lt hll).symm)
        (lengthCode_of_lt hmod).symm]
      rfl
    · rw [lengthBytes_of_lt hll]
      exact List.nil_prefix
    · rw [lengthBytes_of_lt hll]
      exact hpre
    · rw [lengthBytes_of_lt hll]
      exact hword
    · rw [show s.len - 4 = b.toNat % 2 ^ 4 from rfl, lengthBytes_of_lt hmod]
      exact List.nil_prefix
  have hbytes : s.bytes.length = 3 + lits.length := by
    rw [Seq.length_bytes, show s.len - 4 = b.toNat % 2 ^ 4 from rfl, lengthBytes_of_lt hmod,
      lengthBytes_of_lt hll]
    rfl
  refine ⟨s, parts_iff.mp hparts, by omega, by omega, hfar.2, rfl, ?_⟩
  rw [length_copyBack, List.length_append]
  omega

theorem plainMatch_sound {b : UInt8} {lits : List UInt8} (hb : src[ip]? = some b)
    (hmore : lengthBytes lits.length <+: src.drop (ip + 1))
    (hip : ip' = ip + 1 + (lengthBytes lits.length).length)
    (hlits : lits <+: src.drop ip') (hhi : b.toNat / 2 ^ 4 = lengthCode lits.length)
    (hroom : ip' + lits.length + 8 ≤ srcSize) (hsrc : srcSize ≤ src.length)
    (ht : plainMatch safe src srcSize outputSize b.toNat (ip' + lits.length) (out ++ lits) =
      some t) :
    t.Sound src srcSize outputSize ip out := by
  subst hip
  rw [plainMatch, Option.bind_eq_bind] at ht
  obtain ⟨offset, hoffset, ht⟩ := Option.bind_eq_some_iff.mp ht
  obtain ⟨hword, hlt, -⟩ := lz4ReadLE16_read hoffset
  split at ht
  case isTrue =>
    cases Option.some.inj ht
    change _ ≤ _
    omega
  case isFalse hnear =>
  obtain ⟨r, hr, ht⟩ := Option.bind_eq_some_iff.mp ht
  cases r with
  | error e =>
    cases Option.some.inj ht
    obtain ⟨r, hr', hle⟩ := matchLength_some b.toNat (D := safe) rfl hsrc
      (show ip + 1 + (lengthBytes lits.length).length + lits.length + 2 < srcSize by omega)
    rw [hr] at hr'
    have := hle e (Option.some.inj hr').symm
    change _ ≤ _
    omega
  | ok r =>
    obtain ⟨ip', length⟩ := r
    obtain ⟨m, hm, ht⟩ := Option.bind_eq_some_iff.mp ht
    obtain ⟨hlen, hip', hlo, hend⟩ := matchLength_read hr
    have hback := matchPlace_some hm
    rw [List.length_append] at hback
    have hend := hend rfl
    split at ht
    case isTrue =>
      cases Option.some.inj ht
      change _ ≤ _
      omega
    case isFalse hfull =>
      cases Option.some.inj ht
      rw [List.length_append] at hfull
      let s : Seq := ⟨lits, offset, length + 4, hlt, Nat.le_add_left ..⟩
      have hparts : Parts src ip s := by
        refine ⟨?_, hmore, hlits, hword, hlen⟩
        rw [hb, eq_tokenByte hhi hlo]
        rfl
      have hbytes : s.bytes.length = 3 + (lengthBytes lits.length).length + lits.length +
          (lengthBytes length).length := Seq.length_bytes s
      refine ⟨s, parts_iff.mp hparts, by omega, by omega, hback, rfl, ?_⟩
      rw [length_copyBack, List.length_append]
      omega

/-- **A turn reads a sequence** or the last literals, or finds that there is neither. -/
theorem laxSequence_sound (hip : ip ≤ srcSize) (hsrc : srcSize ≤ src.length)
    (ht : laxSequence safe src srcSize outputSize ip out = some t) :
    t.Sound src srcSize outputSize ip out := by
  rw [laxSequence, Option.bind_eq_bind] at ht
  obtain ⟨b, hb, ht⟩ := Option.bind_eq_some_iff.mp ht
  obtain ⟨r, hr, ht⟩ := Option.bind_eq_some_iff.mp ht
  cases r with
  | some off => exact laxShortcut_sound hb hr ht
  | none =>
    simp only [plainLiterals, Option.bind_eq_bind] at ht
    obtain ⟨⟨ip', length⟩, hl, ht⟩ := Option.bind_eq_some_iff.mp ht
    -- The lengthening bytes go at most two behind the input.
    have hle : ip' ≤ srcSize + 2 := by
      have := literalLength_le rfl hl
      omega
    simp only at ht
    split at ht
    case isTrue =>
      split at ht
      case isTrue =>
        cases Option.some.inj ht
        exact hle
      case isFalse hamiss =>
        obtain ⟨lits, hlits, ht⟩ := Option.bind_eq_some_iff.mp ht
        cases Option.some.inj ht
        obtain ⟨hpre, rfl, -⟩ := prefix_of_load hlits
        simp only [Amiss, reduceCtorEq, false_and, true_and, false_or, not_or, Nat.not_lt,
          not_not] at hamiss
        obtain ⟨hmore, hip', hhi⟩ := literalLength_read b.toNat_lt hl (by omega)
        have hlow : b.toNat % 2 ^ 4 ≤ 15 := by omega
        refine ⟨lits, b.toNat % 2 ^ 4, hlow, ?_, hamiss.1, ?_, rfl, ?_⟩
        · rw [drop_of_getElem? hb]
          refine List.cons_prefix_cons.mpr ⟨?_, append_prefix_drop hmore (hip' ▸ hpre)⟩
          exact (eq_tokenByte hhi (Nat.min_eq_left hlow).symm).symm
        · rw [length_lastBytes]
          omega
        · rw [List.length_append]
          exact hamiss.2
    case isFalse hends =>
      obtain ⟨lits, hlits, ht⟩ := Option.bind_eq_some_iff.mp ht
      obtain ⟨hpre, rfl, -⟩ := prefix_of_load hlits
      simp only [Ends, true_and, reduceCtorEq, false_and, or_false, not_or, Nat.not_lt] at hends
      obtain ⟨hmore, hip', hhi⟩ := literalLength_read b.toNat_lt hl (by omega)
      exact plainMatch_sound hb hmore hip' hpre hhi hends.2 hsrc ht

end Lz4
end Inac
