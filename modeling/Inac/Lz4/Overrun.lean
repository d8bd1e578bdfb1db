import Inac.Lz4.Encode

/-!
# Where the compressor writes too far

With a limit on its output the compressor looks whether there is room for the length of a match before
it writes it, and takes it that a byte stands for 256 bytes of the match. A byte stands for 255. A run
of one byte long enough makes the difference greater than what is set aside, and the length is written
past the limit before that is noticed.

The example is a run of zeros, since what the compressor does with it can be followed exactly: one
literal, then a match of all but the last five bytes, found at the first try. Whether the limit is
kept is then a question of one length. Its words take four bytes for every 1020 that are matched and
the check allows four for 1024, so the words reach `8 + 4 * ((n - 25) / 1020)` while the check is
content with `10 + (n - 10) / 256`.

That something is written there is said without regard to what the model calls an error: a buffer
that is longer holds the written byte afterwards, whatever it held before, and the call returns 0 as
if nothing had happened.
-/

namespace Inac
namespace Lz4

open Lib

variable {n p m op fuel limit : Nat} {dst : List UInt8} {T : TableType}

/-- The words of a length go past the end of `dst`. -/
theorem writeWords_none (hfuel : n < fuel) (hop : op + 4 ≤ dst.length)
    (hdst : dst.length < op + 4 * (n / 1020) + 4) : writeWords fuel dst op n = none := by
  induction fuel generalizing op dst n with
  | zero => exact absurd hfuel (Nat.not_lt_zero _)
  | succ fuel ih =>
    have hmore : 4 * 255 ≤ n := by omega
    rw [writeWords, if_pos hmore, lz4Write32, store, wordBytes_length]
    split
    case isFalse => rfl
    case isTrue hroom =>
      simp only [Option.bind_eq_bind, Option.bind_some]
      refine ih (by omega) ?_ ?_
      all_goals
        simp only [List.length_append, List.length_take, List.length_drop, wordBytes_length]
        omega

/-! ## A run of zeros

All words of it are the same, so every hash is, and every comparison succeeds. -/

/-- So many bytes of zero. -/
def zeros (n : Nat) : List UInt8 := List.replicate n 0

@[simp] theorem length_zeros (n : Nat) : (zeros n).length = n := List.length_replicate ..

theorem take_drop_zeros {k : Nat} (h : p + k ≤ n) : ((zeros n).drop p).take k = zeros k := by
  rw [zeros, List.drop_replicate, List.take_replicate, Nat.min_eq_left (by omega), zeros]

theorem wordOf_zeros (k : Nat) : wordOf (zeros k) = 0 := by
  induction k with
  | zero => rfl
  | succ k ih =>
    rw [zeros, List.replicate_succ, wordOf]
    rw [zeros] at ih
    rw [ih]
    rfl

theorem lz4Read_zeros {k : Nat} (h : p + k ≤ n) : lz4Read k (zeros n) p = some 0 := by
  rw [lz4Read_eq (by rwa [length_zeros]), take_drop_zeros h, wordOf_zeros]

theorem lz4HashPosition_zeros (T : TableType) (h : p + 8 ≤ n) :
    lz4HashPosition (zeros n) p T = some 0 := by
  have h5 : lz4Hash5 0 T = 0 := by cases T <;> rfl
  have h4 : lz4Hash4 0 T = 0 := by cases T <;> rfl
  rw [lz4HashPosition]
  split
  · rw [lz4Read_zeros h, Option.map_some, h5]
  · rw [lz4Read_zeros (by omega), Option.map_some, h4]

theorem lz4PutPosition_zeros (T : TableType) (h : 8 ≤ n) :
    lz4PutPosition (zeros n) 0 (fun _ => 0) T = some fun _ => 0 := by
  rw [lz4PutPosition, lz4HashPosition_zeros T (by omega)]
  cases T <;> simp [lz4PutPositionOnHash]

/-- All of it agrees. -/
theorem agree_zeros (hp : p ≤ limit) (hl : limit ≤ n) (hm : m ≤ p) :
    agree (zeros n) p m limit = limit - p := by
  refine Nat.le_antisymm (agree_le ..) (le_agree (by omega) (by rwa [length_zeros]) fun i hi => ?_)
  rw [zeros, List.getElem?_replicate, List.getElem?_replicate, if_pos (by omega),
    if_pos (by omega)]

/-- The search finds the byte in front at once. -/
theorem findMatch_zeros {J : Job} (hJ : J.source = zeros n) (hn : 14 ≤ n) (nb : Nat) (fuel : Nat) :
    findMatch J (fuel + 1) 1 1 nb 0 (fun _ => 0) =
      some (some (1, 0, lz4PutPositionOnHash 1 0 (fun _ => 0) J.tableType)) := by
  simp only [findMatch, hJ, length_zeros, Option.bind_eq_bind]
  rw [if_neg (by omega), lz4HashPosition_zeros _ (by omega), Option.bind_some, if_neg (by omega),
    lz4Read_zeros (by omega), lz4Read_zeros (by omega), Option.bind_some, Option.bind_some,
    if_neg fun h => h rfl]

/-- **Up to the first match**: one literal, and the zeros behind it are found to agree with it. -/
theorem start_zeros {limit : Nat} {dest : List UInt8} (hmax : n ≤ lz4MaxInputSize) (hn : 40 ≤ n)
    (hbound : ¬ lz4CompressBound n ≤ limit) (hlimit : 10 ≤ limit) (hdest : 10 ≤ dest.length) :
    ∃ J table fuel, J.source = zeros n ∧ J.maxOutputSize = limit ∧ J.outputLimited = true ∧
      ∃ dst, [tokenByte 1 0, 0] <+: dst ∧ dst.length = dest.length ∧
        lz4CompressFastExtState (zeros n) dest limit 1 =
          (emit J 0 0 ⟨1, 0, 2, table, dst⟩).bind (run J (fuel + 1)) := by
  rw [lz4CompressFastExtState, length_zeros]
  generalize hT : (if n < lz4_64Klimit then TableType.byU16 else TableType.byU32) = T
  have hsmall : ¬ (T = .byU16 ∧ lz4_64Klimit ≤ n) := by
    rintro ⟨h, hle⟩
    rw [if_neg (Nat.not_lt.mpr hle)] at hT
    exact TableType.noConfusion (hT.trans h)
  rw [if_neg hbound]
  generalize hJ : (⟨zeros n, limit, true, T, if (1 : Int) < 1 then 1 else (1 : Int).toNat⟩ : Job) = J
  have hsource : J.source = zeros n := by rw [← hJ]
  have hlimit' : J.maxOutputSize = limit := by rw [← hJ]
  have htype : J.tableType = T := by rw [← hJ]
  simp only [lz4CompressGeneric, hsource, length_zeros, htype]
  rw [if_neg (Nat.not_lt.mpr hmax), if_neg hsmall, if_neg (by omega),
    lz4PutPosition_zeros T (by omega), lz4HashPosition_zeros T (by omega)]
  simp only [Option.bind_eq_bind, Option.bind_some]
  obtain ⟨fuel, hfuel⟩ : ∃ f, 2 * n + 2 = f + 1 + 1 + 1 := ⟨2 * n - 1, by omega⟩
  rw [hfuel, run]
  obtain ⟨dst₁, hwrite, hpre₁, hlen₁⟩ := writeLiteralLength_spec [] 0
    List.nil_prefix rfl 1 (show 0 + 1 + (lengthBytes 1).length ≤ dest.length by
      rw [lengthBytes_of_lt (by decide)]
      simp only [List.length_nil]
      omega)
  rw [lengthBytes_of_lt (by decide), List.nil_append] at hpre₁
  obtain ⟨dst₂, hwild, hpre₂, hlen₂⟩ := lz4WildCopy_from (zeros n) (s := 0) (d := 1) (e := 2)
    hpre₁ rfl (by rw [length_zeros]; omega) (by rw [length_zeros]; omega) (by omega) (by omega)
  have hseek : seek J 0 ⟨1, 0, 0, fun _ => 0, dest⟩ = some (.nextMatch 0 0 ⟨1, 0, 2,
      lz4PutPositionOnHash 1 0 (fun _ => 0) J.tableType, dst₂⟩) := by
    simp only [seek, findMatch_zeros hsource (show 14 ≤ n by omega), Option.bind_eq_bind,
      Option.bind_some]
    rw [catchUp, if_neg (by omega), Option.bind_some, if_neg (by rintro ⟨-, h⟩; omega)]
    rw [lengthBytes_of_lt (by decide)] at hwrite
    simp only [hsource, List.length_nil, Nat.add_zero, Nat.zero_add, Nat.sub_zero] at hwrite ⊢
    simp only [hwrite, hwild, Option.bind_some]
  have hzero : ((zeros n).drop 0).take (2 - 1) = [0] := take_drop_zeros (by omega)
  rw [hzero] at hpre₂
  refine ⟨J, lz4PutPositionOnHash 1 0 (fun _ => 0) J.tableType, fuel, hsource, hlimit', by rw [← hJ],
    dst₂, hpre₂, by omega, ?_⟩
  rw [hseek, Option.bind_some, run]

/-- **The match** is all that is left but five bytes, and passes the check. -/
theorem emit_zeros {J : Job} (hJ : J.source = zeros n) (hn : 40 ≤ n)
    (hcheck : 10 + (n - 10) / 2 ^ 8 ≤ J.maxOutputSize) (table : Table)
    (hpre : [tokenByte 1 0, 0] <+: dst) (hdst : 10 ≤ dst.length) :
    ∃ dst', [tokenByte 1 0, 0, 1, 0] <+: dst' ∧ dst'.length = dst.length ∧
      emit J 0 0 ⟨1, 0, 2, table, dst⟩ = (writeMatchLength dst' 0 4 (n - 10)).map fun r =>
        .lastLiterals ⟨n - 5, n - 5, r.1, table, r.2⟩ := by
  obtain ⟨dst', hstore, hpre', hlen⟩ := store_prefix (wordBytes 2 (1 - 0)) (i := 2) hpre rfl
    (by rw [wordBytes_length]; omega)
  have hcount : lz4Count (zeros n) (1 + 4) (0 + 4) (n - 5) = some (n - 10) := by
    rw [lz4Count_eq _ _ (by rw [length_zeros]; omega) (by omega),
      agree_zeros (by omega) (by omega) (by omega)]
    rfl
  refine ⟨dst', hpre', hlen, ?_⟩
  rw [emit]
  simp only [hJ, length_zeros, hstore, hcount, Option.bind_eq_bind, Option.bind_some]
  rw [if_neg (by rintro ⟨-, h⟩; omega)]
  cases writeMatchLength dst' 0 (2 + 2) (n - 10) with
  | none => rfl
  | some r =>
    rw [Option.bind_some, if_pos (by omega), show 1 + (4 + (n - 10)) = n - 5 by omega]
    rfl

/-! ## A length of words -/

/-- Behind four bytes the length of a match is written word by word, and its last byte into the last
    of the words. -/
theorem writeMatchLength_words {front : List UInt8} (hfront : front.length = 3)
    (hpre : tokenByte 1 0 :: front <+: dst) (hc : 15 ≤ n) (hdst : 8 ≤ dst.length) :
    ∃ dst', (tokenByte 1 0 + .ofNat 15) :: front ++ List.replicate 4 255 <+: dst' ∧
      dst'.length = dst.length ∧
      writeMatchLength dst 0 4 n = (writeWords (n + 1) dst' 4 (n - 15)).bind fun r =>
        (store r.2.2 (r.1 + r.2.1 / 255) [.ofNat (r.2.1 % 255)]).map fun d =>
          (r.1 + r.2.1 / 255 + 1, d) := by
  obtain ⟨dst₁, hadd, hpre₁, hlen₁⟩ : ∃ dst', addToken dst 0 15 = some dst' ∧
      [] ++ (tokenByte 1 0 + .ofNat 15) :: front <+: dst' ∧ dst'.length = dst.length :=
    addToken_spec 0 hpre rfl 15
  rw [List.nil_append] at hpre₁
  obtain ⟨dst₂, hword, hpre₂, hlen₂⟩ := store_prefix (wordBytes 4 0xFFFFFFFF) (i := 4) hpre₁
    (by rw [List.length_cons, hfront]) (by rw [wordBytes_length]; omega)
  rw [wordBytes_ones] at hpre₂
  refine ⟨dst₂, hpre₂, by omega, ?_⟩
  rw [writeMatchLength, if_pos hc]
  simp only [hadd, lz4Write32, hword, Option.bind_eq_bind, Option.bind_some]
  cases writeWords (n + 1) dst₂ 4 (n - 15) with
  | none => rfl
  | some r =>
    simp only [Option.bind_some]
    cases store r.2.2 (r.1 + r.2.1 / 255) [.ofNat (r.2.1 % 255)] <;> rfl

theorem store_one {i : Nat} (hi : i < dst.length) (y : UInt8) :
    store dst i [y] = some (dst.set i y) := by
  rw [store_eq (by rw [List.length_singleton]; omega), List.set_eq_take_append_cons_drop, if_pos hi]
  simp

/-- What the bytes of the length are: words of 255, and somewhere in the last one the rest. -/
def lengthByte (n i : Nat) : UInt8 :=
  if i = 4 + (n - 15) / 255 then .ofNat ((n - 15) % 255) else 255

/-- **With room for the words** the length is written, and fills all of them. -/
theorem writeMatchLength_fills {front : List UInt8} (hfront : front.length = 3)
    (hpre : tokenByte 1 0 :: front <+: dst) (hn : 15 ≤ n)
    (hdst : 8 + 4 * ((n - 15) / 1020) ≤ dst.length) :
    ∃ dst', writeMatchLength dst 0 4 n = some (4 + (n - 15) / 255 + 1, dst') ∧
      ∀ i, 4 ≤ i → i < 8 + 4 * ((n - 15) / 1020) → dst'[i]? = some (lengthByte n i) := by
  obtain ⟨dst₁, hpre₁, hlen₁, hwrite⟩ := writeMatchLength_words hfront hpre hn (by omega)
  have hfour : ((tokenByte 1 0 + .ofNat 15) :: front).length = 4 := by
    rw [List.length_cons, hfront]
  obtain ⟨dst₂, hwords, hpre₂, hlen₂⟩ := writeWords_spec (n + 1) 4 (n - 15) hpre₁ hfour.symm
    (by omega) (by omega)
  have hplace : 4 + 4 * ((n - 15) / 1020) + (n - 15) % 1020 / 255 = 4 + (n - 15) / 255 := by omega
  have hrest : (n - 15) % 1020 % 255 = (n - 15) % 255 := by omega
  have hstore : store dst₂ (4 + (n - 15) / 255) [.ofNat ((n - 15) % 255)] = some (dst₂.set _ _) :=
    store_one (by omega) _
  simp only [hwrite, hwords, Option.bind_some, hplace, hrest, hstore, Option.map_some]
  refine ⟨_, rfl, fun i hi hlt => ?_⟩
  rw [lengthByte, List.getElem?_set]
  split
  case isTrue heq => rw [if_pos (by omega), if_pos heq.symm]
  case isFalse hne =>
    rw [if_neg (Ne.symm hne)]
    obtain ⟨behind, rfl⟩ := hpre₂
    rw [List.append_assoc, List.append_assoc, List.getElem?_append_right (by
      rw [List.length_cons, hfront]; exact hi), ← List.append_assoc,
      List.replicate_append_replicate, List.getElem?_append_left (by
        rw [List.length_replicate, List.length_cons, hfront]; omega),
      List.getElem?_replicate, if_pos (by rw [List.length_cons, hfront]; omega)]

/-- **Without** it a word goes past the end of `dst`. -/
theorem writeMatchLength_none {front : List UInt8} (hfront : front.length = 3)
    (hpre : tokenByte 1 0 :: front <+: dst) (hn : 15 ≤ n) (hmin : 8 ≤ dst.length)
    (hdst : dst.length < 8 + 4 * ((n - 15) / 1020)) : writeMatchLength dst 0 4 n = none := by
  obtain ⟨dst₁, -, hlen₁, hwrite⟩ := writeMatchLength_words hfront hpre hn hmin
  rw [hwrite, writeWords_none (by omega) (by omega) (by omega)]
  rfl

/-! ## The result -/

/-- **A run of zeros is compressed past the limit**: a buffer that ends before the words of the length
    do is left, and in one that does not the byte at the limit is written, with the same value
    whatever was there. -/
theorem zeros_overrun {limit : Nat} (hmax : n ≤ lz4MaxInputSize)
    (hcheck : 10 + (n - 10) / 2 ^ 8 ≤ limit) (hover : limit < 8 + 4 * ((n - 25) / 1020)) :
    (∀ dest : List UInt8, limit ≤ dest.length → dest.length < 8 + 4 * ((n - 25) / 1020) →
      lz4CompressFastExtState (zeros n) dest limit 1 = none) ∧
    ∃ v, ∀ dest : List UInt8, 8 + 4 * ((n - 25) / 1020) ≤ dest.length →
      ∃ dest', lz4CompressFastExtState (zeros n) dest limit 1 = some (0, dest') ∧
        dest'[limit]? = some v := by
  have hlit : lz4MaxInputSize = 2113929216 := rfl
  have hbound : ¬ lz4CompressBound n ≤ limit := by
    rw [lz4CompressBound, if_neg (Nat.not_lt.mpr hmax)]
    omega
  have hstart : ∀ dest : List UInt8, limit ≤ dest.length → ∃ J table fuel dst,
      J.source = zeros n ∧ J.maxOutputSize = limit ∧ J.outputLimited = true ∧
      [tokenByte 1 0, 0, 1, 0] <+: dst ∧ dst.length = dest.length ∧
      lz4CompressFastExtState (zeros n) dest limit 1 =
        ((writeMatchLength dst 0 4 (n - 10)).map fun r =>
          Stage.lastLiterals ⟨n - 5, n - 5, r.1, table, r.2⟩).bind (run J (fuel + 1)) := by
    intro dest hdest
    obtain ⟨J, table, fuel, hJ, hlimit, hlimited, dst₁, hpre₁, hlen₁, hrun⟩ :=
      start_zeros hmax (by omega) hbound (by omega) (show 10 ≤ dest.length by omega)
    obtain ⟨dst₂, hpre₂, hlen₂, hemit⟩ := emit_zeros hJ (by omega) (hlimit ▸ hcheck) table hpre₁
      (by omega)
    exact ⟨J, table, fuel, dst₂, hJ, hlimit, hlimited, hpre₂, hlen₂.trans hlen₁, hemit ▸ hrun⟩
  have hsub : n - 10 - 15 = n - 25 := Nat.sub_sub ..
  refine ⟨fun dest hge hlt => ?_, lengthByte (n - 10) limit, fun dest hge => ?_⟩
  · obtain ⟨J, table, fuel, dst, -, -, -, hpre, hlen, hrun⟩ := hstart dest hge
    rw [hrun, writeMatchLength_none rfl hpre (by omega) (by omega) (by rw [hsub]; omega)]
    rfl
  · obtain ⟨J, table, fuel, dst, hJ, hlimit, hlimited, hpre, hlen, hrun⟩ := hstart dest (by omega)
    obtain ⟨dst', hwrite, hfills⟩ := writeMatchLength_fills rfl hpre (show 15 ≤ n - 10 by omega)
      (by rw [hsub]; omega)
    refine ⟨dst', ?_, hfills limit (by omega) (by rw [hsub]; omega)⟩
    -- behind the length there is no room for the last literals, which is noticed now
    rw [hrun, hwrite, Option.map_some, Option.bind_some, run, finish]
    simp only [hJ, length_zeros, hlimit, hlimited]
    rw [if_pos ⟨trivial, by omega⟩]

/-- A run that is long enough, with less room than the bound. -/
theorem zeros_overrun_400000 :
    (∀ dest : List UInt8, 1572 ≤ dest.length → dest.length < 8 + 4 * ((400000 - 25) / 1020) →
      lz4CompressFastExtState (zeros 400000) dest 1572 1 = none) ∧
    ∃ v, ∀ dest : List UInt8, 8 + 4 * ((400000 - 25) / 1020) ≤ dest.length →
      ∃ dest', lz4CompressFastExtState (zeros 400000) dest 1572 1 = some (0, dest') ∧
        dest'[1572]? = some v :=
  zeros_overrun (by decide) (by decide) (by decide)

end Lz4
end Inac
