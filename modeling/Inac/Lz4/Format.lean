import Inac.Lz4.Lengths

/-!
# Blocks

A block is a list of sequences and a run of literals that ends it. A sequence is a run of literals
and a match: so many bytes from so far back in what has been put out. What a block stands for is said
here without regard to any program, and so is how it is written: no block is written in two ways, and
no two blocks are written in the same way.

The format asks for more than a decoder needs: the last five bytes are literals, and the last match
begins at least twelve bytes before the end. That is what lets a decoder copy in blocks.

A block is data here and not a string of bytes, so that the two directions meet in it: the
compressor's output is `Block.bytes` of a block that stands for its input, and the decoder puts out
`Block.expand` of the block it has read. Its fields keep what the bytes cannot say otherwise: an
offset has two bytes, a match is at least four long, and the lower half of the last token, which
nobody reads, is part of the block.
-/

namespace Inac
namespace Lz4

open Lib

structure Seq where
  lits : List UInt8
  offset : Nat
  len : Nat
  offset_lt : offset < 2 ^ 16
  le_len : 4 ≤ len

structure Block where
  seqs : List Seq
  last : List UInt8
  /-- The bits of the last token that say nothing. -/
  low : Nat
  low_le : low ≤ 15

/-- What stands at the end of the output after a sequence. -/
def Seq.apply (out : List UInt8) (s : Seq) : List UInt8 := copyBack s.offset s.len (out ++ s.lits)

/-- What a block stands for. -/
def Block.expand (b : Block) : List UInt8 := b.seqs.foldl Seq.apply [] ++ b.last

def Seq.bytes (s : Seq) : List UInt8 :=
  tokenByte s.lits.length (s.len - 4) :: (lengthBytes s.lits.length ++ (s.lits ++
    (wordBytes 2 s.offset ++ lengthBytes (s.len - 4))))

/-- The last literals. -/
def lastBytes (last : List UInt8) (low : Nat) : List UInt8 :=
  tokenByte last.length low :: (lengthBytes last.length ++ last)

def Block.bytes (b : Block) : List UInt8 := b.seqs.flatMap Seq.bytes ++ lastBytes b.last b.low

/-- A sequence copies from what has been put out. -/
def Seq.Reaches (out : List UInt8) (s : Seq) : Prop :=
  0 < s.offset ∧ s.offset ≤ out.length + s.lits.length

/-- A sequence only copies what there is, and begins its match early enough. -/
def Seq.Fits (N : Nat) (out : List UInt8) (s : Seq) : Prop :=
  0 < s.offset ∧ s.offset ≤ out.length + s.lits.length ∧ out.length + s.lits.length + 12 ≤ N

/-- So do the sequences that follow `out`. -/
def AllFit (N : Nat) : List UInt8 → List Seq → Prop
  | _, [] => True
  | out, s :: ss => s.Fits N out ∧ AllFit N (s.apply out) ss

/-- What the format asks for. -/
structure Block.Standard (b : Block) : Prop where
  fit : AllFit b.expand.length [] b.seqs
  last_le : b.seqs ≠ [] → 5 ≤ b.last.length
  low_eq : b.low = 0

/-- What the decoder takes: sequences that copy from what has been put out, and such with an offset of
    zero, which the format does not have. -/
def Taken : List UInt8 → List Seq → Prop
  | _, [] => True
  | out, s :: ss => (s.Reaches out ∨ s.offset = 0) ∧ Taken (s.apply out) ss

/-! ## Lengths

How long the bytes of a block are, and what it stands for. -/

variable {s : Seq} {ss : List Seq} {out : List UInt8}

/-- A match with an offset of zero is a run of zero bytes. -/
theorem Seq.apply_of_zero (h : s.offset = 0) (out : List UInt8) :
    s.apply out = out ++ s.lits ++ List.replicate s.len 0 := by
  rw [Seq.apply, h]
  exact copyBack_none ..

@[simp] theorem Seq.length_apply (out : List UInt8) (s : Seq) :
    (s.apply out).length = out.length + s.lits.length + s.len := by
  rw [Seq.apply, length_copyBack, List.length_append]

theorem Seq.length_bytes (s : Seq) :
    s.bytes.length = 3 + (lengthBytes s.lits.length).length + s.lits.length +
      (lengthBytes (s.len - 4)).length := by
  simp only [Seq.bytes, List.length_cons, List.length_append, wordBytes_length]
  omega

theorem length_lastBytes (last : List UInt8) (low : Nat) :
    (lastBytes last low).length = 1 + (lengthBytes last.length).length + last.length := by
  simp only [lastBytes, List.length_cons, List.length_append]
  omega

theorem length_le_foldl_apply (ss : List Seq) (out : List UInt8) :
    out.length ≤ (ss.foldl Seq.apply out).length := by
  induction ss generalizing out with
  | nil => exact Nat.le_refl _
  | cons s ss ih =>
    refine Nat.le_trans ?_ (ih (s.apply out))
    rw [Seq.length_apply]
    omega

theorem length_le_bytes (ss : List Seq) : ss.length ≤ (ss.flatMap Seq.bytes).length := by
  induction ss with
  | nil => exact Nat.le_refl _
  | cons s ss ih =>
    rw [List.length_cons, List.flatMap_cons, List.length_append, Seq.length_bytes]
    omega

/-! ## One way to write a block

The bytes of a sequence determine it and are never a prefix of those of another one, so a block can
be read from the front. This makes the block of an accepted input unique (`StandsFor`). -/

/-- **No length begins another.** -/
theorem lengthBytes_append_inj {m n : Nat} {a b : List UInt8} (hcode : lengthCode m = lengthCode n)
    (h : lengthBytes m ++ a = lengthBytes n ++ b) : m = n ∧ a = b := by
  have hrun : ∀ (j k : Nat) (x y : UInt8), x ≠ 255 → y ≠ 255 →
      List.replicate j 255 ++ [x] ++ a = List.replicate k 255 ++ [y] ++ b →
      j = k ∧ x = y ∧ a = b := by
    intro j
    induction j with
    | zero =>
      intro k x y hx hy he
      cases k with
      | zero => exact ⟨rfl, List.cons.inj he⟩
      | succ k => exact absurd (List.cons.inj he).1 hx
    | succ j ih =>
      intro k x y hx hy he
      cases k with
      | zero => exact absurd (List.cons.inj he).1.symm hy
      | succ k =>
        obtain ⟨rfl, hrest⟩ := ih k x y hx hy (List.cons.inj he).2
        exact ⟨rfl, hrest⟩
  rcases Nat.lt_or_ge m 15 with hm | hm
  · have hn : n < 15 := by
      rw [lengthCode_of_lt hm, lengthCode] at hcode
      omega
    rw [lengthCode_of_lt hm, lengthCode_of_lt hn] at hcode
    subst hcode
    exact ⟨rfl, List.append_cancel_left h⟩
  · have hn : 15 ≤ n := by
      rw [lengthCode_of_le hm, lengthCode] at hcode
      omega
    obtain ⟨j, x, hx, hmx, hbm⟩ := exists_run hm
    obtain ⟨k, y, hy, hny, hbn⟩ := exists_run hn
    rw [hbm, hbn] at h
    obtain ⟨rfl, rfl, hrest⟩ := hrun j k x y hx hy h
    exact ⟨hmx.trans hny.symm, hrest⟩

/-- The token and what lengthens the literals say which literals there are. -/
theorem literals_append_inj {l l' : List UInt8} {lo lo' : Nat} {a b : List UInt8}
    (h : tokenByte l.length lo :: (lengthBytes l.length ++ (l ++ a)) =
      tokenByte l'.length lo' :: (lengthBytes l'.length ++ (l' ++ b))) :
    lengthCode lo = lengthCode lo' ∧ l = l' ∧ a = b := by
  obtain ⟨htoken, h⟩ := List.cons.inj h
  have hhi := tokenByte_div l.length lo
  have hlo := tokenByte_mod l.length lo
  rw [htoken, tokenByte_div] at hhi
  rw [htoken, tokenByte_mod] at hlo
  obtain ⟨hlen, h⟩ := lengthBytes_append_inj hhi.symm h
  obtain ⟨rfl, rfl⟩ := List.append_inj h hlen
  exact ⟨hlo.symm, rfl, rfl⟩

theorem Seq.bytes_append_inj {s t : Seq} {a b : List UInt8} (h : s.bytes ++ a = t.bytes ++ b) :
    s = t ∧ a = b := by
  obtain ⟨lits, offset, len, hoff, hlen⟩ := s
  obtain ⟨lits', offset', len', hoff', hlen'⟩ := t
  simp only [Seq.bytes, List.cons_append, List.append_assoc] at h
  obtain ⟨hcode, rfl, hmatch⟩ := literals_append_inj h
  obtain ⟨hword, hrest⟩ := List.append_inj hmatch rfl
  obtain ⟨hl, rfl⟩ := lengthBytes_append_inj hcode hrest
  have hword := congrArg wordOf hword
  rw [wordOf_wordBytes, wordOf_wordBytes, Nat.mod_eq_of_lt hoff, Nat.mod_eq_of_lt hoff'] at hword
  subst hword
  obtain rfl : len = len' := by omega
  exact ⟨rfl, rfl⟩

/-- Behind the last literals nothing follows, so a sequence is not taken for them. -/
theorem Seq.bytes_append_ne_last {s : Seq} {a last : List UInt8} {low : Nat} :
    s.bytes ++ a ≠ lastBytes last low := by
  intro h
  have happ : lastBytes last low =
      tokenByte last.length low :: (lengthBytes last.length ++ (last ++ [])) := by
    rw [List.append_nil]
    rfl
  rw [happ, Seq.bytes] at h
  simp only [List.cons_append, List.append_assoc] at h
  obtain ⟨-, -, hnil⟩ := literals_append_inj h
  have := congrArg List.length hnil
  simp only [List.length_append, wordBytes_length, List.length_nil] at this
  omega

/-- **Blocks that are written alike** are the same. -/
theorem Block.bytes_inj {b c : Block} (h : b.bytes = c.bytes) : b = c := by
  obtain ⟨seqs, last, low, hlow⟩ := b
  obtain ⟨seqs', last', low', hlow'⟩ := c
  change seqs.flatMap Seq.bytes ++ lastBytes last low =
    seqs'.flatMap Seq.bytes ++ lastBytes last' low' at h
  induction seqs generalizing seqs' with
  | nil =>
    cases seqs' with
    | nil =>
      have h' : tokenByte last.length low :: (lengthBytes last.length ++ (last ++ [])) =
          tokenByte last'.length low' :: (lengthBytes last'.length ++ (last' ++ [])) := by
        simpa only [List.append_nil, List.flatMap_nil, List.nil_append, lastBytes] using h
      obtain ⟨hcode, rfl, -⟩ := literals_append_inj h'
      rw [lengthCode, lengthCode, Nat.min_eq_left hlow, Nat.min_eq_left hlow'] at hcode
      subst hcode
      rfl
    | cons t seqs' =>
      rw [List.flatMap_cons, List.append_assoc] at h
      exact absurd h.symm Seq.bytes_append_ne_last
  | cons s seqs ih =>
    cases seqs' with
    | nil =>
      rw [List.flatMap_cons, List.append_assoc] at h
      exact absurd h Seq.bytes_append_ne_last
    | cons t seqs' =>
      rw [List.flatMap_cons, List.flatMap_cons, List.append_assoc, List.append_assoc] at h
      obtain ⟨rfl, hrest⟩ := Seq.bytes_append_inj h
      have heq := ih seqs' hrest
      simp only [Block.mk.injEq] at heq ⊢
      obtain ⟨rfl, rfl, rfl⟩ := heq
      exact ⟨rfl, rfl, rfl⟩

end Lz4
end Inac
