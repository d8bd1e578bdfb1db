import Inac.Lz4.Accept

/-!
# Whole blocks

What holds of a turn of the decoder's main loop holds of the loop: on any input it comes to an end
inside its buffers with what plain copies would have put out, which is a block if it is no error, and a
block that is as the format asks for is decoded.

The first part is about any input, so nothing is assumed of the bytes and the conclusion has an
error in it. The second part is about blocks that keep to the format's rules, written at `ip` with
anything behind, and covers both decoders at once: `Told` is what the one knows of the end of the
input, and the other of the end of the output.

Together with `Block.bytes_inj` the first part gives what is worth knowing of an input that is
accepted: there is one block that it can be, and what stands in front of `dst` is what that block
stands for.
-/

namespace Inac
namespace Lz4

open Lib

variable {D : Directives} {src out dst : List UInt8} {srcSize outputSize ip ip' token N fuel : Nat}
  {s : Seq} {ss : List Seq} {last : List UInt8} {low : Nat} {t : PlainTurn}

/-! ## Any input

The loop has fuel for a turn per byte of the input, and every turn reads one, so the fuel is enough
(`hfuel`). -/

theorem shortcutOffset_some (outputSize token ip : Nat) (hsrc : srcSize ≤ src.length) (op : Nat) :
    ∃ r, shortcutOffset D src srcSize outputSize token ip op = some r := by
  rw [shortcutOffset]
  split
  case isTrue hroom =>
    rw [lz4ReadLE16, load_eq (by omega)]
    exact ⟨_, rfl⟩
  case isFalse => exact ⟨_, rfl⟩

theorem shortcutOffset_room {off op : Nat}
    (h : shortcutOffset D src srcSize outputSize token ip op = some (some off)) :
    ip + token / 2 ^ 4 ≤ srcSize ∧ off ≤ op + token / 2 ^ 4 + D.prefixSize := by
  rw [shortcutOffset] at h
  split at h
  case isFalse => simp at h
  case isTrue hroom =>
    obtain ⟨o, -, ho⟩ := Option.map_eq_some_iff.mp h
    split at ho
    case isFalse => cases ho
    case isTrue hfar =>
      cases Option.some.inj ho
      exact ⟨by omega, hfar.2⟩

theorem plainMatch_some (hsrc : srcSize ≤ src.length) (hip : ip + 8 ≤ srcSize) :
    ∃ t, plainMatch safe src srcSize outputSize token ip out = some t := by
  rw [plainMatch, lz4ReadLE16, load_eq (by omega), Option.map_some, Option.bind_eq_bind,
    Option.bind_some]
  split
  case isTrue => exact ⟨_, rfl⟩
  case isFalse hnear =>
  obtain ⟨r, hr, -⟩ := matchLength_some token (D := safe) rfl hsrc
    (show ip + 2 < srcSize by omega)
  simp only [hr, Option.bind_eq_bind, Option.bind_some]
  cases r with
  | error => exact ⟨_, rfl⟩
  | ok r =>
    simp only [true_and, Nat.add_zero, Nat.not_lt, show (0 : Nat) < 2 ^ 16 by decide] at hnear
    simp only [matchPlace, if_pos hnear, Option.bind_some]
    split <;> exact ⟨_, rfl⟩

/-- **A turn never leaves the buffers**, if two bytes behind the input can be read. -/
theorem laxSequence_some (outputSize : Nat) (out : List UInt8) (hip : ip ≤ srcSize)
    (hsrc : srcSize + 2 ≤ src.length) :
    ∃ t, laxSequence safe src srcSize outputSize ip out = some t := by
  have hle : srcSize ≤ src.length := by omega
  rw [laxSequence, List.getElem?_eq_getElem (show ip < src.length by omega), Option.bind_eq_bind,
    Option.bind_some]
  generalize src[ip].toNat = token
  obtain ⟨r, hr⟩ := shortcutOffset_some outputSize token (ip + 1) (D := safe) hle out.length
  simp only [hr, Option.bind_eq_bind, Option.bind_some]
  cases r with
  | some off =>
    obtain ⟨hfit, hback⟩ := shortcutOffset_room hr
    simp only [laxShortcut, load_eq (show ip + 1 + token / 2 ^ 4 ≤ src.length by omega),
      Option.bind_eq_bind, Option.bind_some]
    rw [matchPlace, if_pos ?_]
    · exact ⟨_, rfl⟩
    · rw [List.length_append, List.length_take, List.length_drop]
      simp only [Nat.add_zero] at hback
      omega
  | none =>
    obtain ⟨⟨ip', length⟩, hl⟩ := Option.isSome_iff_exists.mp
      (literalLength_some token (D := safe) rfl hle
        (show ip + 1 < src.length by omega))
    simp only [plainLiterals, hl, Option.bind_eq_bind, Option.bind_some]
    split
    case isTrue =>
      split
      case isTrue => exact ⟨_, rfl⟩
      case isFalse hamiss =>
        simp only [Amiss, reduceCtorEq, false_and, true_and, false_or, not_or, not_not] at hamiss
        rw [load_eq (by omega)]
        exact ⟨_, rfl⟩
    case isFalse hends =>
      simp only [Ends, true_and, reduceCtorEq, false_and, or_false, not_or, Nat.not_lt] at hends
      rw [load_eq (by omega), Option.bind_some]
      exact plainMatch_some hle hends.2

/-- What is left of a block from `ip` on, after `out`. -/
structure IsRest (src : List UInt8) (srcSize ip : Nat) (out whole : List UInt8) (b : Block) :
    Prop where
  taken : Taken out b.seqs
  bytes : b.bytes <+: src.drop ip
  length : ip + b.bytes.length = srcSize
  whole_eq : whole = b.seqs.foldl Seq.apply out ++ b.last

/-- **The loop with plain copies** ends, and what it has accepted is the rest of a block. -/
theorem laxLoop_sound (outputSize fuel : Nat) (out : List UInt8) (hip : ip ≤ srcSize)
    (hsrc : srcSize + 2 ≤ src.length)
    (hfuel : srcSize < fuel + ip) :
    ∃ r res, laxLoop safe src srcSize outputSize fuel ip out = some (r, res) ∧
      -(srcSize + 3 : Int) ≤ r ∧
      (0 ≤ r → r = res.length ∧ res.length ≤ outputSize ∧ ∃ b, IsRest src srcSize ip out res b) ∧
      (r < 0 → res = []) := by
  induction fuel generalizing ip out with
  | zero => omega
  | succ fuel ih =>
    obtain ⟨t, ht⟩ := laxSequence_some outputSize out hip hsrc
    have hsound := laxSequence_sound hip (by omega) ht
    simp only [laxLoop, ht, Option.bind_eq_bind, Option.bind_some]
    cases t with
    | next ip' out' =>
      obtain ⟨s, hpre, rfl, hle, hreach, rfl, -⟩ := hsound
      have hpos := s.length_bytes
      obtain ⟨r, res, hr, hlow, hok, hneg⟩ := ih (s.apply out) hle (by omega)
      refine ⟨r, res, hr, hlow, fun h => ?_, hneg⟩
      obtain ⟨hlen, hcap, b, hb⟩ := hok h
      have hbytes : ({ b with seqs := s :: b.seqs } : Block).bytes = s.bytes ++ b.bytes := by
        rw [Block.bytes, List.flatMap_cons, List.append_assoc, Block.bytes]
      -- The offset reaches back into what is there, unless it is zero.
      have htaken : s.Reaches out ∨ s.offset = 0 := by
        rcases Nat.eq_zero_or_pos s.offset with hzero | hoff
        · exact Or.inr hzero
        · exact Or.inl ⟨hoff, hreach⟩
      refine ⟨hlen, hcap, { b with seqs := s :: b.seqs }, ⟨htaken, hb.taken⟩, ?_, ?_,
        hb.whole_eq⟩
      · rw [hbytes]
        exact append_prefix_drop hpre hb.bytes
      · rw [hbytes, List.length_append, ← Nat.add_assoc, hb.length]
    | finish ip' out' =>
      obtain ⟨last, low, hlow, hpre, rfl, hend, rfl, hcap⟩ := hsound
      refine ⟨(out ++ last).length, out ++ last, rfl, by omega, fun _ => ⟨rfl, hcap, ?_⟩,
        fun h => by omega⟩
      exact ⟨⟨[], last, low, hlow⟩, trivial, hpre, hend.symm, rfl⟩
    | outputError ip' =>
      change ip' ≤ srcSize + 2 at hsound
      exact ⟨_, [], rfl, by omega, fun h => by omega, fun _ => rfl⟩

/-- **The decoder does the same**, and stays inside its buffers. -/
theorem decodeLoop_mirrors (dst : List UInt8) (h : out <+: dst) (hdst : outputSize ≤ dst.length)
    (hsrc : srcSize ≤ src.length) {r : Int} {res : List UInt8}
    (hr : laxLoop safe src srcSize outputSize fuel ip out = some (r, res)) :
    ∃ dst', decodeLoop safe src srcSize outputSize fuel ip out.length dst = some (r, dst') ∧
      res <+: dst' ∧ dst'.length = dst.length := by
  induction fuel generalizing ip out dst with
  | zero => cases hr
  | succ fuel ih =>
    rw [laxLoop, Option.bind_eq_bind] at hr
    obtain ⟨t, ht, hr⟩ := Option.bind_eq_some_iff.mp hr
    obtain ⟨t', ht', hmirror⟩ := decodeSequence_mirrors h hdst hsrc (fun hE => absurd hE (by decide)) ht
    simp only [decodeLoop, ht', Option.bind_eq_bind, Option.bind_some]
    cases t <;> cases t' <;> try exact hmirror.elim
    case next.next ip' out' _ _ dst₁ =>
      obtain ⟨rfl, rfl, hpre, hlen⟩ := hmirror
      obtain ⟨dst₂, hloop, hres, hlen₂⟩ := ih dst₁ hpre (hlen ▸ hdst) hr
      exact ⟨dst₂, hloop, hres, hlen₂.trans hlen⟩
    case finish.finish ip' out' _ _ dst₁ =>
      obtain ⟨rfl, rfl, hpre, hlen⟩ := hmirror
      cases Option.some.inj hr
      exact ⟨dst₁, rfl, hpre, hlen⟩
    case outputError.outputError ip' _ dst₁ =>
      obtain ⟨rfl, hlen⟩ := hmirror
      cases Option.some.inj hr
      exact ⟨dst₁, rfl, List.nil_prefix, hlen⟩

/-! ## Blocks as the format asks for

A block's sequences are decoded one after the other, whether the shortcut takes them or not. The
induction is on the sequences that are left. -/

/-- Where the input ends, for a decoder that is told. -/
def Told (D : Directives) (srcSize outputSize ip N : Nat) : Prop :=
  (D.endOnInput = true ∧ ip = srcSize ∧ N ≤ outputSize) ∨
    (D.endOnInput = false ∧ srcSize = 0 ∧ N = outputSize)

theorem literalLength_of_parts (hparts : Parts src ip s)
    (hroom : D.endOnInput = true → ip + s.bytes.length ≤ srcSize) :
    literalLength D src srcSize (tokenByte s.lits.length (s.len - 4)).toNat (ip + 1) =
      some (ip + 1 + (lengthBytes s.lits.length).length, s.lits.length) := by
  refine literalLength_of_prefix (tokenByte_div ..) hparts.more fun hE => ?_
  have := hroom hE
  have := s.length_bytes
  omega

/-- **A sequence that is as the format asks for** is decoded without the shortcut. -/
theorem plainLiterals_accepts (hparts : Parts src ip s) (hfit : s.Fits N out)
    (hend : (s.apply out).length + 5 ≤ N) (hN : N ≤ outputSize)
    (hin : D.endOnInput = true → ip + s.bytes.length + 6 ≤ srcSize) :
    plainLiterals D src srcSize outputSize (tokenByte s.lits.length (s.len - 4)).toNat (ip + 1) out =
      some (.next (ip + s.bytes.length) (s.apply out)) := by
  obtain ⟨hpos, hreach, htwelve⟩ := hfit
  rw [Seq.length_apply] at hend
  have hsize := prefix_drop_length hparts.offset (by simp [wordBytes])
  rw [wordBytes_length] at hsize
  have hbytes := s.length_bytes
  have hlen4 := s.le_len
  have happ : (out ++ s.lits).length = out.length + s.lits.length := List.length_append
  -- Five bytes of literals follow the sequence, and six bytes of input.
  have hends : ¬ Ends D srcSize outputSize
      (ip + 1 + (lengthBytes s.lits.length).length + s.lits.length)
      (out.length + s.lits.length) := by
    rintro (⟨hE, h⟩ | ⟨-, h⟩)
    · have := hin hE
      omega
    · omega
  rw [plainLiterals, literalLength_of_parts hparts fun hE => by have := hin hE; omega,
    Option.bind_eq_bind, Option.bind_some]
  simp only [if_neg hends, load_of_prefix hparts.lits (by omega), Option.bind_eq_bind,
    Option.bind_some]
  rw [plainMatch, lz4ReadLE16_of_prefix hparts.offset s.offset_lt, Option.bind_eq_bind,
    Option.bind_some, if_neg fun h => by omega,
    matchLength_of_prefix (tokenByte_mod ..) hparts.len fun hE => by have := hin hE; omega]
  simp only [Option.bind_eq_bind, Option.bind_some, matchPlace, if_pos (happ ▸ hreach)]
  rw [if_neg (by omega), Nat.sub_add_cancel hlen4, Seq.apply]
  congr 2
  omega

/-- **A turn decodes a sequence** that is as the format asks for. -/
theorem laxSequence_accepts (hpre : s.bytes <+: src.drop ip) (hfit : s.Fits N out)
    (hend : (s.apply out).length + 5 ≤ N) (hN : N ≤ outputSize)
    (hin : D.endOnInput = true → ip + s.bytes.length + 6 ≤ srcSize) (hsrc : srcSize ≤ src.length) :
    laxSequence D src srcSize outputSize ip out =
      some (.next (ip + s.bytes.length) (s.apply out)) := by
  have hparts := parts_iff.mpr hpre
  have hlits := plainLiterals_accepts hparts hfit hend hN hin
  obtain ⟨r, hr⟩ := shortcutOffset_some outputSize (tokenByte s.lits.length (s.len - 4)).toNat
    (ip + 1) (D := D) hsrc out.length
  rw [laxSequence, hparts.token, Option.bind_eq_bind, Option.bind_some]
  simp only [hr, Option.bind_eq_bind, Option.bind_some]
  cases r with
  | none => exact hlits
  | some off =>
    -- the token says that neither length goes on
    rw [shortcutOffset] at hr
    split at hr
    case isFalse => simp at hr
    case isTrue hroom =>
    obtain ⟨-, -, hhi, hlo⟩ := hroom
    rw [tokenByte_toNat, lengthCode] at hhi
    rw [tokenByte_mod, lengthCode] at hlo
    have hll : s.lits.length < 15 := by omega
    have hml : s.len - 4 < 15 := by omega
    have hlits₀ := hparts.lits
    have hoffset := hparts.offset
    have hbytes := s.length_bytes
    rw [lengthBytes_of_lt hll] at hlits₀ hoffset hbytes
    rw [lengthBytes_of_lt hml] at hbytes
    have hsize := prefix_drop_length hoffset (by simp [wordBytes])
    rw [wordBytes_length] at hsize
    simp only [List.length_nil, Nat.add_zero] at hlits₀ hoffset hbytes hsize
    rw [tokenByte_div, lengthCode_of_lt hll, lz4ReadLE16_of_prefix hoffset s.offset_lt,
      Option.map_some] at hr
    split at hr
    case isFalse => simp at hr
    case isTrue =>
    cases Option.some.inj (Option.some.inj hr)
    have happ : (out ++ s.lits).length = out.length + s.lits.length := List.length_append
    change laxShortcut src _ (ip + 1) s.offset out = _
    rw [laxShortcut, tokenByte_div, tokenByte_mod, lengthCode_of_lt hll, lengthCode_of_lt hml,
      load_of_prefix hlits₀ (by omega), Option.bind_eq_bind, Option.bind_some, matchPlace,
      if_pos (happ ▸ hfit.2.1), Nat.sub_add_cancel s.le_len, Seq.apply]
    simp only [Option.bind_eq_bind, Option.bind_some]
    congr 2
    omega

/-- **The last literals** end the block. -/
theorem laxSequence_last (out : List UInt8) (hpre : lastBytes last low <+: src.drop ip)
    (hlow : low ≤ 15)
    (htold : Told D srcSize outputSize (ip + (lastBytes last low).length)
      (out.length + last.length)) :
    laxSequence D src srcSize outputSize ip out =
      some (.finish (ip + (lastBytes last low).length) (out ++ last)) := by
  obtain ⟨htoken, hrest⟩ := getElem?_of_prefix hpre
  obtain ⟨hmore, hlits⟩ := prefix_drop_add hrest
  have hbytes := length_lastBytes last low
  have hsize := prefix_drop_length hpre (by simp [lastBytes])
  have hcode : lengthCode low = low := Nat.min_eq_left hlow
  -- The shortcut is not taken: behind the last literals there are not sixteen bytes.
  have hshort : ¬ (ip + 1 + 14 + 2 ≤ srcSize ∧ out.length + 14 + 18 ≤ outputSize ∧
      (tokenByte last.length low).toNat < 15 * 2 ^ 4 ∧
      (tokenByte last.length low).toNat % 2 ^ 4 ≠ 15) := by
    rintro ⟨hip, -, hhi, -⟩
    rw [tokenByte_toNat, lengthCode] at hhi
    have hll : last.length < 15 := by omega
    rw [lengthBytes_of_lt hll, List.length_nil] at hbytes
    rcases htold with ⟨-, hend, -⟩ | ⟨-, hzero, -⟩ <;> omega
  have hlen : literalLength D src srcSize (tokenByte last.length low).toNat (ip + 1) =
      some (ip + 1 + (lengthBytes last.length).length, last.length) := by
    refine literalLength_of_prefix (tokenByte_div ..) hmore fun hE => ?_
    rcases htold with ⟨-, hend, -⟩ | ⟨hE', -⟩
    · omega
    · rw [hE] at hE'
      cases hE'
  have hend : ip + 1 + (lengthBytes last.length).length + last.length =
      ip + (lastBytes last low).length := by omega
  rw [laxSequence, htoken, Option.bind_eq_bind, Option.bind_some, shortcutOffset, if_neg hshort]
  simp only [Option.bind_eq_bind, Option.bind_some, plainLiterals, hlen, hend]
  have hends : Ends D srcSize outputSize (ip + (lastBytes last low).length)
      (out.length + last.length) := by
    rcases htold with ⟨hE, h, -⟩ | ⟨hE, -, h⟩
    · exact Or.inl ⟨hE, Or.inr (by omega)⟩
    · exact Or.inr ⟨hE, by omega⟩
  have hamiss : ¬ Amiss D srcSize outputSize (ip + (lastBytes last low).length)
      (out.length + last.length) := by
    rcases htold with ⟨hE, h, hN⟩ | ⟨hE, -, h⟩ <;> rintro (⟨hE', h'⟩ | ⟨hE', h'⟩)
    · rw [hE] at hE'
      cases hE'
    · omega
    · exact h' h
    · rw [hE] at hE'
      cases hE'
  rw [if_pos hends, if_neg hamiss, load_of_prefix hlits (by omega), Option.bind_some]

/-- **The main loop decodes a block** that is as the format asks for, whichever way the decoder is
    told where it ends. -/
theorem decodeLoop_accepts (seqs : List Seq) {b : Block} (h : out <+: dst)
    (hdst : outputSize ≤ dst.length) (hsrc : srcSize ≤ src.length)
    (hpre : seqs.flatMap Seq.bytes ++ lastBytes b.last b.low <+: src.drop ip)
    (hfit : AllFit N out seqs) (hfive : seqs ≠ [] → 5 ≤ b.last.length)
    (hN : (seqs.foldl Seq.apply out).length + b.last.length = N)
    (htold : Told D srcSize outputSize
      (ip + (seqs.flatMap Seq.bytes ++ lastBytes b.last b.low).length) N)
    (hfuel : seqs.length < fuel) :
    ∃ dst', decodeLoop D src srcSize outputSize fuel ip out.length dst =
        some (if D.endOnInput then (N : Int)
          else (ip + (seqs.flatMap Seq.bytes ++ lastBytes b.last b.low).length : Nat), dst') ∧
      seqs.foldl Seq.apply out ++ b.last <+: dst' ∧ dst'.length = dst.length := by
  induction seqs generalizing ip out dst fuel with
  | nil =>
    obtain ⟨fuel, rfl⟩ : ∃ f, fuel = f + 1 := ⟨fuel - 1, by omega⟩
    rw [List.flatMap_nil, List.nil_append] at hpre htold ⊢
    rw [List.foldl_nil] at hN ⊢
    have ht := laxSequence_last out hpre b.low_le (hN.symm ▸ htold)
    obtain ⟨t', ht', hmirror⟩ := decodeSequence_mirrors (t := .finish _ _) h hdst hsrc
      (fun _ => trivial) ht
    cases t' with
    | finish ip' op dst₁ =>
      obtain ⟨rfl, rfl, hout, hlen⟩ := hmirror
      simp only [decodeLoop, ht', Option.bind_eq_bind, Option.bind_some]
      refine ⟨dst₁, ?_, hout, hlen⟩
      rw [← hN, List.length_append]
    | next => exact hmirror.elim
    | outputError => exact hmirror.elim
  | cons s seqs ih =>
    obtain ⟨fuel, rfl⟩ : ∃ f, fuel = f + 1 := ⟨fuel - 1, by omega⟩
    rw [List.flatMap_cons, List.append_assoc] at hpre htold ⊢
    rw [List.foldl_cons] at hN ⊢
    obtain ⟨hs, hrest⟩ := prefix_drop_add hpre
    have hlast := hfive (List.cons_ne_nil s seqs)
    -- What follows a sequence is at least a token and five literals.
    have hsix : 6 ≤ (seqs.flatMap Seq.bytes ++ lastBytes b.last b.low).length := by
      rw [List.length_append, length_lastBytes]
      omega
    have hfits := prefix_drop_length hrest (List.length_pos_iff.mp (by omega))
    have hgrow := length_le_foldl_apply seqs (s.apply out)
    rw [List.length_append, ← Nat.add_assoc] at htold ⊢
    have hle : N ≤ outputSize := by
      rcases htold with ⟨-, -, h⟩ | ⟨-, -, h⟩ <;> omega
    have ht : laxSequence D src srcSize outputSize ip out =
        some (.next (ip + s.bytes.length) (s.apply out)) := by
      refine laxSequence_accepts hs hfit.1 (by omega) hle (fun hE => ?_) hsrc
      rcases htold with ⟨-, h, -⟩ | ⟨hE', -⟩
      · omega
      · rw [hE] at hE'
        cases hE'
    obtain ⟨t', ht', hmirror⟩ := decodeSequence_mirrors (t := .next _ _) h hdst hsrc
      (fun _ => show ip + s.bytes.length + 6 ≤ src.length by omega) ht
    cases t' with
    | next ip' op dst₁ =>
      obtain ⟨rfl, rfl, hout, hlen⟩ := hmirror
      obtain ⟨dst₂, hloop, hwhole, hlen₂⟩ := ih hout (hlen ▸ hdst) hrest hfit.2 (fun _ => hlast) hN htold
        (Nat.lt_of_succ_lt_succ hfuel)
      simp only [decodeLoop, ht', Option.bind_eq_bind, Option.bind_some]
      exact ⟨dst₂, hloop, hwhole, hlen₂.trans hlen⟩
    | finish => exact hmirror.elim
    | outputError => exact hmirror.elim

/-! ## The two functions

Both begin the loop at the front of the buffers, and treat an output of no bytes before it. -/

/-- An empty block. -/
theorem Block.eq_nil_of_expand {b : Block} (h : b.expand.length = 0) : b.seqs = [] ∧ b.last = [] := by
  obtain ⟨seqs, last, low, hlow⟩ := b
  simp only [Block.expand, List.length_append, Nat.add_eq_zero_iff] at h
  cases seqs with
  | nil => exact ⟨rfl, List.length_eq_zero_iff.mp h.2⟩
  | cons s seqs =>
    have hgrow := length_le_foldl_apply seqs (s.apply [])
    rw [Seq.length_apply] at hgrow
    have := s.le_len
    rw [List.foldl_cons] at h
    omega

/-- What a result that is no error says: the input is a block, in one way only, which the decoder takes,
    and what the block stands for is at the front of `dst`. -/
def StandsFor (bytes dst : List UInt8) (r : Int) : Prop :=
  ∃ b : Block, b.bytes = bytes ∧ (∀ c : Block, c.bytes = bytes → c = b) ∧ Taken [] b.seqs ∧
    (∀ s ∈ b.seqs, s.offset = 0 →
      ∀ out, s.apply out = out ++ s.lits ++ List.replicate s.len 0) ∧
    r = b.expand.length ∧ b.expand <+: dst

theorem standsFor_of_bytes {b : Block} {bytes : List UInt8} {r : Int} (hbytes : b.bytes = bytes)
    (htaken : Taken [] b.seqs) (hr : r = b.expand.length) (hpre : b.expand <+: dst) :
    StandsFor bytes dst r :=
  ⟨b, hbytes, fun _ hc => Block.bytes_inj (hc.trans hbytes.symm), htaken,
    fun _ _ hzero => Seq.apply_of_zero hzero, hr, hpre⟩

/-- **`LZ4_decompress_safe` is safe**: on any input, if two bytes behind it can be read, it returns
    with `dst` as long as it was. If what it returns is not negative, the input is a block, and what
    the block stands for is at the front of `dst`. -/
theorem decompress_safe_sound (src dst : List UInt8) (srcSize outputSize : Nat)
    (hsrc : srcSize + 2 ≤ src.length) (hdst : outputSize ≤ dst.length) :
    ∃ r dst', lz4DecompressSafe src srcSize outputSize dst = some (r, dst') ∧
      dst'.length = dst.length ∧ -(srcSize + 3 : Int) ≤ r ∧ r ≤ outputSize ∧
      (0 ≤ r → StandsFor (src.take srcSize) dst' r) := by
  rw [lz4DecompressSafe, lz4DecompressGeneric]
  by_cases hzero : outputSize = 0
  · -- an output of no bytes is looked at before the loop: the one block for it is a zero
    rw [if_pos hzero, if_pos rfl]
    by_cases hone : srcSize = 1
    · subst hone
      obtain ⟨b, rest, rfl⟩ : ∃ b rest, src = b :: rest := by
        cases src with
        | nil => simp at hsrc
        | cons b rest => exact ⟨b, rest, rfl⟩
      rw [if_pos rfl, List.getElem?_cons_zero, Option.map_some]
      refine ⟨_, dst, rfl, rfl, ?_, ?_, fun h => ?_⟩
      · split <;> omega
      · split <;> omega
      · split at h
        case isFalse => omega
        case isTrue hb =>
          subst hb
          exact standsFor_of_bytes (b := ⟨[], [], 0, by omega⟩) rfl trivial (by rw [if_pos rfl]; rfl)
            List.nil_prefix
    · rw [if_neg hone]
      exact ⟨_, dst, rfl, rfl, by omega, by omega, fun h => by omega⟩
  · rw [if_neg hzero]
    obtain ⟨r, res, hplain, hlow, hok, hneg⟩ := laxLoop_sound outputSize (src.length + 1) []
      (Nat.zero_le srcSize) hsrc (by omega)
    obtain ⟨dst', hloop, hres, hlen⟩ := decodeLoop_mirrors dst List.nil_prefix hdst
      (by omega) hplain
    refine ⟨r, dst', hloop, hlen, hlow, ?_, fun h => ?_⟩
    · rcases Int.lt_or_le r 0 with hr | hr
      · omega
      · have := hok hr
        omega
    · obtain ⟨hr, -, b, hb⟩ := hok h
      have hbytes := hb.bytes
      have hlength := hb.length
      rw [List.drop_zero] at hbytes
      rw [Nat.zero_add] at hlength
      refine standsFor_of_bytes ?_ hb.taken (by rw [hr, hb.whole_eq]; rfl) ?_
      · rw [← hlength]
        exact List.prefix_iff_eq_take.mp hbytes
      · rw [hb.whole_eq] at hres
        exact hres

/-- Two bytes that are repeated, with an offset below eight, and five literals. -/
def pairBlock : List UInt8 := [0x2F, 97, 98, 2, 0, 3, 0x50, 1, 2, 3, 4, 5]

theorem decompress_safe_sound_pair :
    ∃ r dst', lz4DecompressSafe (pairBlock ++ [0, 0]) 12 40 (List.replicate 40 7) =
        some (r, dst') ∧
      dst'.length = (List.replicate 40 (7 : UInt8)).length ∧ -((12 : Nat) + 3 : Int) ≤ r ∧
      r ≤ (40 : Nat) ∧ (0 ≤ r → StandsFor ((pairBlock ++ [0, 0]).take 12) dst' r) :=
  decompress_safe_sound (pairBlock ++ [0, 0]) (List.replicate 40 7) 12 40 (by decide) (by decide)

example : (lz4DecompressSafe (pairBlock ++ [0, 0]) 12 40 (List.replicate 40 7)).map Prod.fst =
    some 29 := by decide

/-- An empty block is one byte of zero. -/
theorem Block.Standard.bytes_of_nil {b : Block} (hb : b.Standard) (h : b.expand.length = 0) :
    b.bytes = [0] := by
  obtain ⟨hseqs, hlast⟩ := b.eq_nil_of_expand h
  rw [Block.bytes, hseqs, hlast, hb.low_eq]
  rfl

section Standard

variable {b : Block} (hb : b.Standard) (rest : List UInt8)

/-- The end of the input behind a block, and where the main loop is to begin. -/
theorem Block.bytes_append (b : Block) (rest : List UInt8) :
    b.bytes.length ≤ (b.bytes ++ rest).length ∧ b.seqs.length ≤ b.bytes.length ∧
      (b.seqs.foldl Seq.apply []).length + b.last.length = b.expand.length ∧
      b.seqs.flatMap Seq.bytes ++ lastBytes b.last b.low <+: (b.bytes ++ rest).drop 0 := by
  have hseqs := length_le_bytes b.seqs
  refine ⟨?_, ?_, ?_, List.prefix_append ..⟩
  · rw [List.length_append]
    omega
  · rw [Block.bytes, List.length_append]
    omega
  · rw [Block.expand, List.length_append]

include hb

/-- **`LZ4_decompress_safe`** decodes a block that is as the format asks for, given at least the room
    that it needs. -/
theorem decompress_safe_standard (hdst : outputSize ≤ dst.length)
    (hcap : b.expand.length ≤ outputSize) :
    ∃ dst', lz4DecompressSafe (b.bytes ++ rest) b.bytes.length outputSize dst =
        some ((b.expand.length : Int), dst') ∧
      b.expand <+: dst' ∧ dst'.length = dst.length := by
  obtain ⟨hsrc, hseqs, hN, hpre⟩ := b.bytes_append rest
  rw [lz4DecompressSafe, lz4DecompressGeneric]
  by_cases hzero : outputSize = 0
  · have hbytes := hb.bytes_of_nil (by omega)
    have hexpand : b.expand = [] := List.length_eq_zero_iff.mp (by omega)
    rw [if_pos hzero, if_pos rfl, hbytes, if_pos (by rfl), hexpand]
    exact ⟨dst, rfl, List.nil_prefix, rfl⟩
  · rw [if_neg hzero]
    exact decodeLoop_accepts (D := safe) b.seqs List.nil_prefix hdst hsrc hpre hb.fit hb.last_le hN
      (Or.inl ⟨rfl, Nat.zero_add _, hcap⟩) (by omega)

/-- **`LZ4_decompress_fast`** decodes it too, if it is told how much comes out, and returns how much
    it has read. -/
theorem decompress_fast_standard (hdst : b.expand.length ≤ dst.length) :
    ∃ dst', lz4DecompressFast (b.bytes ++ rest) b.expand.length dst =
        some ((b.bytes.length : Int), dst') ∧
      b.expand <+: dst' ∧ dst'.length = dst.length := by
  obtain ⟨hsrc, hseqs, hN, hpre⟩ := b.bytes_append rest
  rw [lz4DecompressFast, lz4DecompressGeneric]
  by_cases hzero : b.expand.length = 0
  · have hexpand : b.expand = [] := List.length_eq_zero_iff.mp hzero
    rw [if_pos hzero, if_neg (by decide), hb.bytes_of_nil hzero, hexpand]
    exact ⟨dst, rfl, List.nil_prefix, rfl⟩
  · rw [if_neg hzero]
    obtain ⟨dst', hloop, hout, hlen⟩ := decodeLoop_accepts (D := fast) b.seqs List.nil_prefix hdst
      (Nat.zero_le _) hpre hb.fit hb.last_le hN (Or.inr ⟨rfl, rfl, rfl⟩)
      (show b.seqs.length < (b.bytes ++ rest).length + 1 by omega)
    refine ⟨dst', hloop.trans ?_, hout, hlen⟩
    rw [Nat.zero_add]
    rfl

end Standard

/-- **Both decoders decode every block** that is as the format asks for, whatever stands behind it,
    and come to the same bytes. -/
theorem decompress_standard {b : Block} (hb : b.Standard) (rest dst : List UInt8)
    (hdst : b.expand.length ≤ dst.length) :
    (∀ outputSize, b.expand.length ≤ outputSize → outputSize ≤ dst.length →
      ∃ dst', lz4DecompressSafe (b.bytes ++ rest) b.bytes.length outputSize dst =
          some ((b.expand.length : Int), dst') ∧
        b.expand <+: dst' ∧ dst'.length = dst.length) ∧
    ∃ dst', lz4DecompressFast (b.bytes ++ rest) b.expand.length dst =
        some ((b.bytes.length : Int), dst') ∧
      b.expand <+: dst' ∧ dst'.length = dst.length :=
  ⟨fun _ hcap hlen => decompress_safe_standard hb rest hlen hcap,
    decompress_fast_standard hb rest hdst⟩

/-- Two bytes eleven times over, and five more. -/
def pairs : Block := ⟨[⟨[97, 98], 2, 20, by decide, by decide⟩], [1, 2, 3, 4, 5], 0, by decide⟩

theorem pairs_standard : pairs.Standard :=
  ⟨⟨⟨by decide, by decide, by decide⟩, trivial⟩, fun _ => by decide, rfl⟩

theorem decompress_standard_pairs :
    (∀ outputSize, pairs.expand.length ≤ outputSize →
        outputSize ≤ (List.replicate 30 (7 : UInt8)).length →
      ∃ dst', lz4DecompressSafe (pairs.bytes ++ [9]) pairs.bytes.length outputSize
          (List.replicate 30 7) = some ((pairs.expand.length : Int), dst') ∧
        pairs.expand <+: dst' ∧ dst'.length = (List.replicate 30 (7 : UInt8)).length) ∧
    ∃ dst', lz4DecompressFast (pairs.bytes ++ [9]) pairs.expand.length (List.replicate 30 7) =
        some ((pairs.bytes.length : Int), dst') ∧
      pairs.expand <+: dst' ∧ dst'.length = (List.replicate 30 (7 : UInt8)).length :=
  decompress_standard pairs_standard [9] (List.replicate 30 7) (by decide)

end Lz4
end Inac
