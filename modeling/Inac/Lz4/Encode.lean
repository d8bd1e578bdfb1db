import Inac.Lz4.Decode
import Inac.Lz4.Emit
import Inac.Lz4.Search

/-!
# What the compressor puts out

At every label of the compressor the front of `dst` is a list of sequences that stands for the input
up to `anchor`. From `_next_match` on the last of them is under way. So what is there at the end is a
block as the format asks for, and it stands for the input.

Whether there is room is another matter. Without a limit there is, as no sequence takes more than a
255th above what it stands for. With one the code looks before it writes, but what it allows for the
length of a match falls short of what is written, by one byte for every 65280 that are matched.

`Written` is the invariant, and its fields are of two kinds. Some say what is there: the sequences
`ss`, their bytes at the front, and that they stand for the input up to `anchor`. The others say how
much has been used: `grown` bounds the output by the input, which is what makes the bound of
`LZ4_compressBound` enough. `Stage.Ok` is what it comes to at each label, with the fuel that is
left; the fuel falls by two for each place the search moves on, since a turn may pass two labels.

The margin for an output with a limit (`overshoot`) is zero below about 134000 bytes, so small
inputs stay within their limit. For long ones it cannot be left out: see `Inac.Lz4.Overrun`.
-/

namespace Inac
namespace Lz4

open Lib

variable {J : Job} {cap fuel : Nat} {ss : List Seq} {s : State} {dst : List UInt8}

/-! ## Room

The check of the code before literals and before the length of a match, put against what is then
written. -/

/-- How far beyond its limit the compressor may write. -/
def overshoot (n : Nat) : Nat := (n + 61185) / 65280 - 2

/-- The output buffer is long enough. -/
def Roomy (J : Job) (cap : Nat) : Prop :=
  if J.outputLimited then J.maxOutputSize + overshoot J.source.length ≤ cap
  else J.source.length + J.source.length / 255 + 16 ≤ cap

theorem length_lengthBytes_le (n : Nat) : 255 * (lengthBytes n).length ≤ n + 240 := by
  rw [length_lengthBytes]
  split <;> omega

/-- **Room for literals**, and for an offset behind them. -/
theorem Roomy.literals {op anchor : Nat} (ll : Nat) (h : Roomy J cap)
    (hgrown : 255 * op ≤ 256 * anchor) (hend : anchor + ll + 8 ≤ J.source.length)
    (hcheck : ¬ (J.outputLimited = true ∧
      J.maxOutputSize < op + 1 + ll + (2 + 1 + 5) + ll / 255)) :
    op + 1 + (lengthBytes ll).length + ll + 7 ≤ cap ∧
      op + 1 + (lengthBytes ll).length + 8 ≤ cap := by
  have hlen := length_lengthBytes ll
  have hle := length_lengthBytes_le ll
  rw [Roomy] at h
  cases hJ : J.outputLimited
  · simp only [hJ, Bool.false_eq_true, if_false] at h
    omega
  · simp only [hJ, if_true, true_and, Nat.not_lt] at h hcheck
    split at hlen <;> omega

/-- **Room for the length of a match**, and for a token and an offset behind it. -/
theorem Roomy.length {c token anchor : Nat} (ll : Nat) (h : Roomy J cap)
    (hgrown : 255 * token ≤ 256 * anchor) (hend : anchor + ll + 4 + c + 5 ≤ J.source.length)
    (hcheck : ¬ (J.outputLimited = true ∧ J.maxOutputSize <
      token + 1 + (lengthBytes ll).length + ll + 2 + (1 + 5) + c / 2 ^ 8)) :
    (15 ≤ c → token + 1 + (lengthBytes ll).length + ll + 2 + (c - 15) / 255 + 4 ≤ cap) ∧
      token + 1 + (lengthBytes ll).length + ll + 2 + (lengthBytes c).length + 3 ≤ cap := by
  have hlen := length_lengthBytes c
  have hle := length_lengthBytes_le ll
  rw [Roomy] at h
  cases hJ : J.outputLimited
  · simp only [hJ, Bool.false_eq_true, if_false] at h
    split at hlen <;> omega
  · simp only [hJ, if_true, true_and, Nat.not_lt, overshoot] at h hcheck
    split at hlen <;> omega

/-! ## What holds at the labels

One lemma leads from a label to the next, and takes the invariant along. -/

theorem allFit_snoc {N : Nat} {q : Seq} (out : List UInt8) (ss : List Seq) :
    AllFit N out (ss ++ [q]) ↔ AllFit N out ss ∧ q.Fits N (ss.foldl Seq.apply out) := by
  induction ss generalizing out with
  | nil => simp [AllFit]
  | cons s ss ih => simp only [List.cons_append, AllFit, List.foldl_cons, ih, and_assoc]

/-- The sequences `ss` are written, and stand for the input up to `anchor`. -/
structure Written (J : Job) (cap : Nat) (ss : List Seq) (anchor op : Nat) (dst : List UInt8) :
    Prop where
  expand : ss.foldl Seq.apply [] = J.source.take anchor
  anchor_le : anchor ≤ J.source.length
  bytes : ss.flatMap Seq.bytes <+: dst
  op_eq : op = (ss.flatMap Seq.bytes).length
  dst_length : dst.length = cap
  fit : AllFit J.source.length [] ss
  five : ss ≠ [] → anchor + 5 ≤ J.source.length
  grown : 255 * op ≤ 256 * anchor

/-- The literals from `anchor` to `ip`, written behind a token that is not complete. -/
def underWay (J : Job) (anchor ip : Nat) : List UInt8 :=
  tokenByte (ip - anchor) 0 ::
    (lengthBytes (ip - anchor) ++ (J.source.drop anchor).take (ip - anchor))

/-- What holds at a label, from which `fuel` steps are enough. -/
def Stage.Ok (J : Job) (cap fuel : Nat) : Stage → Prop
  | .mainLoop _ s => (∃ ss, Written J cap ss s.anchor s.op s.dst) ∧ s.anchor ≤ s.ip ∧
      s.ip ≤ J.source.length ∧ Below s.ip s.table ∧ 2 * (J.source.length - s.ip) + 2 ≤ fuel
  | .nextMatch m token s => ∃ ss n, Written J cap ss s.anchor token s.dst ∧ s.anchor ≤ s.ip ∧
      ss.flatMap Seq.bytes ++ underWay J s.anchor s.ip <+: s.dst ∧
      s.op = token + (underWay J s.anchor s.ip).length ∧ s.op + 2 ≤ cap ∧ 4 ≤ n ∧
      IsMatch J.source s.ip m n ∧ Below (s.ip + n) s.table ∧ s.ip + n + 8 ≤ J.source.length ∧
      2 * (J.source.length - (s.ip + n)) + 3 ≤ fuel
  | .lastLiterals s => (∃ ss, Written J cap ss s.anchor s.op s.dst) ∧ 1 ≤ fuel
  | .noRoom dst => J.outputLimited = true ∧ dst.length = cap ∧ 1 ≤ fuel

theorem length_underWay {anchor ip : Nat} (h : anchor ≤ ip) (hip : ip ≤ J.source.length) :
    (underWay J anchor ip).length = 1 + (lengthBytes (ip - anchor)).length + (ip - anchor) := by
  rw [underWay, List.length_cons, List.length_append, length_take_drop _ (by omega)]
  omega

/-- **From the main loop.** -/
theorem seek_ok (hJ : J.Proper) (hroom : Roomy J cap) {forwardH : Nat}
    (h : (Stage.mainLoop forwardH s).Ok J cap (fuel + 1)) :
    ∃ st, seek J forwardH s = some st ∧ st.Ok J cap fuel := by
  obtain ⟨⟨ss, hw⟩, hanchor, hip, hbelow, hfuel⟩ := h
  have hlong := hJ.long
  have hsteps := hJ.steps
  have hpos := hJ.positive
  have hnb : J.acceleration * 2 ^ 6 % 2 ^ 32 = J.acceleration * 2 ^ 6 :=
    Nat.mod_eq_of_lt (by omega)
  obtain ⟨r, hr, hfound⟩ := findMatch_spec (J.source.length + 1) _ 1 (J.acceleration * 2 ^ 6)
    (h := forwardH) hJ hip hbelow Nat.one_pos (by omega) (by omega) (by omega)
  simp only [seek, Option.bind_eq_bind, hnb, hr, Option.bind_some]
  cases r with
  | none => exact ⟨_, rfl, ⟨ss, hw⟩, by omega⟩
  | some r =>
    obtain ⟨ip₁, m₁, table⟩ := r
    obtain ⟨hle₁, hend₁, hmatch₁, hbelow₁⟩ := hfound ip₁ m₁ table rfl
    -- The match may begin earlier, and the literals then end there.
    obtain ⟨ip₂, m₂, hcatch, hle₂, hle, hmatch₂⟩ := catchUp_spec s.anchor
      (Nat.le_trans hanchor hle₁) hmatch₁ (by omega) ip₁
    simp only [hcatch, Option.bind_some]
    split
    case isTrue hfull => exact ⟨_, rfl, hfull.1, hw.dst_length, by omega⟩
    case isFalse hcheck =>
      obtain ⟨hfit, hfit₈⟩ := hroom.literals (ip₂ - s.anchor) hw.grown (by omega) hcheck
      obtain ⟨dst₁, hwrite, hpre₁, hlen₁⟩ := writeLiteralLength_spec _ _ hw.bytes hw.op_eq
        (ip₂ - s.anchor) (by rw [hw.dst_length]; omega)
      obtain ⟨dst₂, hwild, hpre₂, hlen₂⟩ := lz4WildCopy_from J.source (s := s.anchor)
        (d := s.op + 1 + (lengthBytes (ip₂ - s.anchor)).length)
        (e := s.op + 1 + (lengthBytes (ip₂ - s.anchor)).length + (ip₂ - s.anchor)) hpre₁
        (by rw [List.length_append, List.length_cons, hw.op_eq]; omega) (by omega) (by omega)
        (by rw [hlen₁, hw.dst_length]; omega) (by rw [hlen₁, hw.dst_length]; omega)
      rw [Nat.add_sub_cancel_left, List.append_assoc, List.cons_append] at hpre₂
      simp only [hwrite, hwild, Option.bind_some]
      have hway := length_underWay (J := J) hle₂ (show ip₂ ≤ J.source.length by omega)
      refine ⟨_, rfl, ss, ip₁ - ip₂ + 4, ?_, hle₂, hpre₂, ?_, ?_, by omega, hmatch₂, ?_, ?_, ?_⟩
      · exact { hw with
          bytes := (List.prefix_append ..).trans hpre₂
          dst_length := hlen₂.trans (hlen₁.trans hw.dst_length) }
      · simp only [hway]
        omega
      · simp only
        omega
      · exact hbelow₁.mono (by simp only; omega)
      · simp only
        omega
      · simp only
        omega

/-- What has been compared and what has been counted make one match. -/
theorem IsMatch.extend {src : List UInt8} {ip m : Nat} (limit : Nat) (h : IsMatch src ip m 4) :
    IsMatch src ip m (4 + agree src (ip + 4) (m + 4) limit) := by
  refine ⟨h.lt, h.near, fun i hi => ?_⟩
  rcases Nat.lt_or_ge i 4 with hlt | hge
  · exact h.agrees i hlt
  · obtain ⟨j, rfl⟩ := Nat.exists_eq_add_of_le hge
    have := getElem?_of_lt_agree (show j < agree src (ip + 4) (m + 4) limit by omega)
    rwa [Nat.add_assoc, Nat.add_assoc] at this

/-- **A match is a copy** of what is before it. -/
theorem IsMatch.copyBack {src : List UInt8} {ip m n : Nat} (h : IsMatch src ip m n)
    (hend : ip + n ≤ src.length) :
    copyBack (ip - m) n (src.take ip) = src.take (ip + n) := by
  have hlt := h.lt
  refine copyBack_take (fun i hi hin => ?_) (by omega) (by omega) hend
  have := h.agrees (i - ip) (by omega)
  rw [show ip + (i - ip) = i by omega, show m + (i - ip) = i - (ip - m) by omega] at this
  rw [List.getD_eq_getElem?_getD, List.getD_eq_getElem?_getD, this]

/-- **A sequence is complete**: its match takes the input up to where it ends. -/
theorem Written.snoc {anchor ip token m c : Nat} {dst' : List UInt8}
    (hw : Written J cap ss anchor token dst) (hle : anchor ≤ ip)
    (hmatch : IsMatch J.source ip m (4 + c)) (hend : ip + (4 + c) + 5 ≤ J.source.length)
    (hfit : ip + 12 ≤ J.source.length)
    (hpre : ss.flatMap Seq.bytes ++ tokenByte (ip - anchor) c :: (lengthBytes (ip - anchor) ++
      (J.source.drop anchor).take (ip - anchor) ++ wordBytes 2 (ip - m) ++ lengthBytes c) <+: dst')
    (hlen : dst'.length = dst.length) :
    ∃ ss', ss' ≠ [] ∧ Written J cap ss' (ip + (4 + c))
      (token + (underWay J anchor ip).length + 2 + (lengthBytes c).length) dst' := by
  have hlt := hmatch.lt
  have hnear := hmatch.near
  have hlits : ((J.source.drop anchor).take (ip - anchor)).length = ip - anchor :=
    length_take_drop _ (by omega)
  -- The sequence that is complete now: the pending literals, and the match.
  let q : Seq := ⟨(J.source.drop anchor).take (ip - anchor), ip - m, 4 + c, by omega,
    Nat.le_add_right ..⟩
  have hbytes : q.bytes = tokenByte (ip - anchor) c :: (lengthBytes (ip - anchor) ++
      (J.source.drop anchor).take (ip - anchor) ++ wordBytes 2 (ip - m) ++ lengthBytes c) := by
    simp only [Seq.bytes, q, hlits, Nat.add_sub_cancel_left, List.append_assoc]
  have hout : (J.source.take anchor).length + q.lits.length = ip := by
    rw [List.length_take_of_le hw.anchor_le, hlits]
    omega
  have htake : J.source.take anchor ++ q.lits = J.source.take ip := by
    rw [← List.take_add]
    congr 1
    omega
  have hway := length_underWay (J := J) hle (show ip ≤ J.source.length by omega)
  refine ⟨ss ++ [q], by simp, ?_, by omega, ?_, ?_, hlen.trans hw.dst_length, ?_, fun _ => hend, ?_⟩
  · rw [List.foldl_append, List.foldl_cons, List.foldl_nil, hw.expand, Seq.apply, htake]
    exact hmatch.copyBack (by omega)
  · rw [List.flatMap_append, List.flatMap_singleton, hbytes]
    exact hpre
  · rw [List.flatMap_append, List.flatMap_singleton, List.length_append, ← hw.op_eq,
      Seq.length_bytes]
    simp only [q, hlits, Nat.add_sub_cancel_left]
    omega
  · rw [allFit_snoc, hw.expand]
    refine ⟨hw.fit, ?_, ?_, ?_⟩
    · change 0 < ip - m
      omega
    · rw [hout]
      exact Nat.sub_le ..
    · rw [hout]
      exact hfit
  · have hgrown := hw.grown
    have hll := length_lengthBytes_le (ip - anchor)
    have hc := length_lengthBytes c
    split at hc <;> omega

/-- What is counted behind the four bytes that are known to agree, and what comes of it. -/
theorem IsMatch.count {ip m n : Nat} (h : IsMatch J.source ip m n) (hn : 4 ≤ n)
    (hend : ip + n + 8 ≤ J.source.length) :
    ∃ c, lz4Count J.source (ip + 4) (m + 4) (J.source.length - 5) = some c ∧
      IsMatch J.source ip m (4 + c) ∧ n ≤ 4 + c ∧ ip + (4 + c) + 5 ≤ J.source.length := by
  have hlt := h.lt
  have hfour : IsMatch J.source ip m 4 := ⟨hlt, h.near, fun i hi => h.agrees i (by omega)⟩
  refine ⟨agree J.source (ip + 4) (m + 4) (J.source.length - 5),
    lz4Count_eq _ _ (Nat.sub_le ..) (by omega), hfour.extend _, ?_, ?_⟩
  · have hge : n - 4 ≤ agree J.source (ip + 4) (m + 4) (J.source.length - 5) := by
      refine le_agree (by omega) (Nat.sub_le ..) fun i hi => ?_
      have := h.agrees (4 + i) (by omega)
      rwa [← Nat.add_assoc, ← Nat.add_assoc] at this
    omega
  · have hle := agree_le J.source (ip + 4) (m + 4) (J.source.length - 5)
    omega

/-- **Behind a match**: another one with no literals, or the main loop. -/
theorem testNext_ok {ip op : Nat} {table : Table} (hw : Written J cap ss ip op dst)
    (hbelow : Below ip table) (hip : 0 < ip) (hend : ip + 12 ≤ J.source.length)
    (hroom : op + 3 ≤ cap)
    (hfuel : 2 * (J.source.length - ip) ≤ fuel) :
    ∃ st, testNext J ip op table dst = some st ∧ st.Ok J cap fuel := by
  obtain ⟨h₁, hput₁⟩ := lz4PutPosition_some J.source table (p := ip - 2) J.tableType (by omega)
  have hbelow₁ := hbelow.put (show ip - 2 < ip by omega) h₁ J.tableType
  rw [testNext, hput₁]
  generalize lz4PutPositionOnHash (ip - 2) h₁ table J.tableType = table₁ at hbelow₁ ⊢
  obtain ⟨h₂, hget⟩ := lz4GetPosition_some J.source table₁ (p := ip) J.tableType (by omega)
  have hm := hbelow₁ h₂
  generalize table₁ h₂ = m at hget hm
  obtain ⟨h₃, hput₂⟩ := lz4PutPosition_some J.source table₁ (p := ip) J.tableType (by omega)
  have hbelow₂ := (hbelow₁.mono (Nat.le_succ ip)).put (Nat.lt_succ_self ip) h₃ J.tableType
  have hreadm : lz4Read 4 J.source m = some _ := lz4Read_eq (by omega)
  have hreadi : lz4Read 4 J.source ip = some _ := lz4Read_eq (by omega)
  simp only [hget, hput₂, hreadm, hreadi, Option.bind_eq_bind, Option.bind_some]
  split
  case isTrue hsame =>
    obtain ⟨dst₃, hzero, hpre₃, hlen₃⟩ := store_prefix [0] hw.bytes hw.op_eq
      (by rw [List.length_singleton, hw.dst_length]; omega)
    have hway₀ : underWay J ip ip = [0] := by
      rw [underWay, Nat.sub_self]
      rfl
    have hw' : Written J cap ss ip op dst₃ :=
      { hw with
        bytes := (List.prefix_append ..).trans hpre₃
        dst_length := hlen₃.trans hw.dst_length }
    -- Four bytes agree at once: a match without literals is under way.
    have hagree : IsMatch J.source ip m 4 :=
      ⟨hm, hsame.1, fun i hi => getElem?_of_lz4Read (by omega) (by omega) hreadm hreadi hsame.2 hi⟩
    simp only [hzero, Option.bind_some]
    refine ⟨_, rfl, ss, 4, hw', Nat.le_refl ip, hway₀ ▸ hpre₃, ?_, ?_, Nat.le_refl 4, hagree,
      hbelow₂.mono (by simp only; omega), ?_, ?_⟩
    · rw [hway₀]
      rfl
    all_goals
      simp only
      omega
  case isFalse =>
    obtain ⟨h₄, hhash⟩ := lz4HashPosition_some J.source (p := ip + 1) J.tableType (by omega)
    simp only [hhash, Option.bind_some]
    exact ⟨_, rfl, ⟨ss, hw⟩, Nat.le_succ ip, by simp only; omega, hbelow₂, by simp only; omega⟩

/-- **From `_next_match`.** -/
theorem emit_ok (hroom : Roomy J cap) {m token : Nat}
    (h : (Stage.nextMatch m token s).Ok J cap (fuel + 1)) :
    ∃ st, emit J m token s = some st ∧ st.Ok J cap fuel := by
  obtain ⟨ss, n, hw, hanchor, hpre, hop, hfit, hfour, hmatch, hbelow, hend, hfuel⟩ := h
  have hway := length_underWay (J := J) hanchor (show s.ip ≤ J.source.length by omega)
  -- the offset, and how far the match goes
  obtain ⟨dst₁, hstore, hpre₁, hlen₁⟩ := store_prefix (wordBytes 2 (s.ip - m)) (i := s.op) hpre
    (by rw [List.length_append, ← hw.op_eq, hop])
    (by rw [wordBytes_length, hw.dst_length]; omega)
  obtain ⟨c, hcount, hgo, hge, hle⟩ := hmatch.count hfour hend
  rw [emit, hstore, Option.bind_eq_bind, Option.bind_some, hcount, Option.bind_eq_bind,
    Option.bind_some]
  split
  case isTrue hfull => exact ⟨_, rfl, hfull.1, hlen₁.trans hw.dst_length, by omega⟩
  case isFalse hcheck =>
  rw [hop, hway] at hcheck
  obtain ⟨hwords, hnext⟩ := hroom.length (s.ip - s.anchor) (c := c) hw.grown (by omega)
    (by rintro ⟨hJ, h⟩; exact hcheck ⟨hJ, by omega⟩)
  -- its length completes the sequence
  rw [underWay, List.append_assoc, List.cons_append] at hpre₁
  obtain ⟨dst₂, hwrite, hpre₂, hlen₂⟩ := writeMatchLength_spec (s.op + 2) hpre₁ hw.op_eq
    (by
      simp only [List.length_append, List.length_cons, wordBytes_length,
        length_take_drop _ (show s.anchor + (s.ip - s.anchor) ≤ J.source.length by omega),
        ← hw.op_eq]
      omega)
    c (fun hc => by rw [hlen₁, hw.dst_length]; have := hwords hc; omega)
  obtain ⟨ss', hne, hw'⟩ := hw.snoc hanchor hgo (by omega) (by omega) hpre₂ (hlen₂.trans hlen₁)
  rw [← hop] at hw'
  simp only [hwrite, Option.bind_eq_bind, Option.bind_some]
  split
  case isTrue => exact ⟨_, rfl, ⟨ss', hw'⟩, by omega⟩
  case isFalse hmore =>
    exact testNext_ok hw' (hbelow.mono (by omega)) (by omega) (by omega) (by omega) (by omega)

/-! ## What comes out

The last literals have a check of their own, which is right, so what is written at the end is within
the limit even if more was written in between. -/

/-- The result of the compressor: nothing where there is a limit, or a block that stands for the
    input. -/
def Outcome (J : Job) (r : Nat) (dst : List UInt8) : Prop :=
  (r = 0 ∧ J.outputLimited = true) ∨
    ∃ b : Block, b.Standard ∧ b.expand = J.source ∧ b.bytes <+: dst ∧ r = b.bytes.length ∧
      255 * r ≤ 256 * J.source.length + 495 ∧ (J.outputLimited = true → r ≤ J.maxOutputSize)

/-- **The last literals.** -/
theorem finish_ok (ss : List Seq) (hroom : Roomy J cap)
    (hw : Written J cap ss s.anchor s.op s.dst) :
    ∃ r dst', finish J s = some (r, dst') ∧ dst'.length = cap ∧ Outcome J r dst' := by
  rw [finish]
  split
  case isTrue hfull => exact ⟨0, s.dst, rfl, hw.dst_length, Or.inl ⟨rfl, hfull.1⟩⟩
  case isFalse hcheck =>
    have hle := hw.anchor_le
    -- It takes no more than it stands for and a 255th.
    have hgrown := hw.grown
    have hlen := length_lengthBytes (J.source.length - s.anchor)
    have hll := length_lengthBytes_le (J.source.length - s.anchor)
    generalize hrun : J.source.length - s.anchor = lastRun at *
    -- There is room: without a limit by the bound, with one by the check.
    have hfit : s.op + 1 + (lengthBytes lastRun).length + lastRun ≤ cap ∧
        (J.outputLimited = true →
          s.op + 1 + (lengthBytes lastRun).length + lastRun ≤ J.maxOutputSize) := by
      rw [Roomy] at hroom
      cases hJ : J.outputLimited
      · simp only [hJ, Bool.false_eq_true, if_false] at hroom
        refine ⟨by omega, nofun⟩
      · simp only [hJ, if_true, true_and, Nat.not_lt] at hroom hcheck
        split at hlen <;> refine ⟨by omega, fun _ => by omega⟩
    obtain ⟨dst₁, hwrite, hpre₁, hlen₁⟩ := writeLiteralLength_spec _ _ hw.bytes hw.op_eq lastRun
      (by rw [hw.dst_length]; omega)
    obtain ⟨dst₂, hcopy, hpre₂, hlen₂⟩ := memcpy_prefix J.source s.anchor lastRun
      (d := s.op + 1 + (lengthBytes lastRun).length) hpre₁
      (by rw [List.length_append, List.length_cons, ← hw.op_eq]; omega) (by omega)
      (by rw [hlen₁, hw.dst_length]; omega)
    have hdrop : (J.source.drop s.anchor).take lastRun = J.source.drop s.anchor :=
      List.take_of_length_le (by rw [List.length_drop]; omega)
    have hlast : (J.source.drop s.anchor).length = lastRun := by rw [List.length_drop, hrun]
    -- The block that has been written.
    let b : Block := ⟨ss, J.source.drop s.anchor, 0, by decide⟩
    have hexpand : b.expand = J.source := by
      rw [Block.expand, hw.expand, List.take_append_drop]
    have hbytes : b.bytes = ss.flatMap Seq.bytes ++ tokenByte lastRun 0 ::
        (lengthBytes lastRun ++ J.source.drop s.anchor) := by
      rw [Block.bytes, lastBytes, hlast]
    have hblen : b.bytes.length = s.op + 1 + (lengthBytes lastRun).length + lastRun := by
      rw [hbytes, List.length_append, List.length_cons, List.length_append, ← hw.op_eq, hlast]
      omega
    simp only [hwrite, Option.bind_eq_bind, Option.bind_some, hcopy]
    refine ⟨_, dst₂, rfl, by rw [hlen₂, hlen₁, hw.dst_length], Or.inr ⟨b, ⟨?_, fun hne => ?_, rfl⟩,
      hexpand, ?_, hblen.symm, by omega, hfit.2⟩⟩
    · rw [hexpand]
      exact hw.fit
    · have := hw.five hne
      change 5 ≤ (J.source.drop s.anchor).length
      omega
    · rw [hbytes]
      rwa [hdrop, List.append_assoc, List.cons_append] at hpre₂

/-- **A run from any label.** -/
theorem run_ok (hJ : J.Proper) (hroom : Roomy J cap) {st : Stage} (h : st.Ok J cap fuel) :
    ∃ r dst', run J fuel st = some (r, dst') ∧ dst'.length = cap ∧ Outcome J r dst' := by
  induction fuel generalizing st with
  | zero =>
    cases st with
    | mainLoop _ s => obtain ⟨-, -, -, -, hfuel⟩ := h; omega
    | nextMatch m token s => obtain ⟨ss, n, -, -, -, -, -, -, -, -, -, hfuel⟩ := h; omega
    | lastLiterals s => exact absurd h.2 (by omega)
    | noRoom dst => exact absurd h.2.2 (by omega)
  | succ fuel ih =>
    cases st with
    | mainLoop forwardH s =>
      obtain ⟨st, hst, hok⟩ := seek_ok hJ hroom h
      rw [run, hst, Option.bind_some]
      exact ih hok
    | nextMatch m token s =>
      obtain ⟨st, hst, hok⟩ := emit_ok hroom h
      rw [run, hst, Option.bind_some]
      exact ih hok
    | lastLiterals s =>
      obtain ⟨⟨ss, hw⟩, -⟩ := h
      exact finish_ok _ hroom hw
    | noRoom dst => exact ⟨0, dst, rfl, h.2.1, Or.inl ⟨rfl, h.1⟩⟩

/-- Nothing is written yet. -/
theorem written_nil (J : Job) (dest : List UInt8) : Written J dest.length [] 0 0 dest :=
  ⟨by simp, Nat.zero_le _, List.nil_prefix, rfl, rfl, trivial, fun h => absurd rfl h, Nat.zero_le _⟩

/-- **`LZ4_compress_generic`** on an input that is not too long. -/
theorem lz4CompressGeneric_spec (dest : List UInt8) (hroom : Roomy J dest.length)
    (hmax : J.source.length ≤ lz4MaxInputSize)
    (hsmall : J.tableType = .byU16 → J.source.length < lz4_64Klimit) (hpos : 1 ≤ J.acceleration)
    (hsteps : J.acceleration * 2 ^ 6 + J.source.length ≤ 2 ^ 32) :
    ∃ r dst', lz4CompressGeneric J dest = some (r, dst') ∧ dst'.length = dest.length ∧
      Outcome J r dst' := by
  simp only [lz4CompressGeneric]
  rw [if_neg (Nat.not_lt.mpr hmax), if_neg fun h => absurd (hsmall h.1) (Nat.not_lt.mpr h.2)]
  split
  case isTrue => exact finish_ok [] hroom (written_nil J dest)
  case isFalse hlong =>
    have hJ : J.Proper := ⟨by omega, hsmall, hpos, hsteps⟩
    obtain ⟨h₀, hput⟩ := lz4PutPosition_some J.source (fun _ => 0) (p := 0)
      J.tableType (by omega)
    obtain ⟨h₁, hhash⟩ := lz4HashPosition_some J.source (p := 1) J.tableType (by omega)
    simp only [hput, hhash, Option.bind_eq_bind, Option.bind_some]
    refine run_ok hJ hroom ⟨⟨[], written_nil J dest⟩, Nat.zero_le _, by simp only; omega,
      below_one.put Nat.zero_lt_one _ _, by simp only; omega⟩

end Lz4
end Inac
