import Mathlib.Data.List.Infix
import Inac.Hashtable.Bucket

/-!
# The representation invariant, and one step of each operation

A node hits a probe exactly when the probe is a **prefix** of the node's sixteen bytes
(`Node.keyIs_iff`). So what a table can tell apart is not keys but keys up to prefixes, and the
invariant is relative to a set `K` of keys in use: no key of `K` is hit by two visible nodes of
its bucket. It needs of `K` only that no two keys *of one bucket* are one a prefix of the other
(`PrefixFree`), which fixed-width keys satisfy by their length.

The three step lemmas say what `Table.read`, which `ina_hashtable_get` reports, is after a
`set`, a `remove` and a `clear`. `SetOk` is the exact condition under which a `set` takes effect:
the key's low word is not zero, and no node whose low word *is* zero stands between the start of
the bucket and the slot the key would go to.

The invariant has to hold after calls that go wrong too, since what is claimed of a table is claimed
of all runs: a `set` that does not take effect leaves a bucket in which no key of `K` is visible
twice, only with less of it visible. So keeping the invariant (`Bucket.Inv.set`) and taking effect
(`Bucket.Inv.lookup_set`) are two lemmas with different conditions.
-/

namespace Inac
namespace Hashtable

open Lib

variable {δ : Type}

/-! ## Hits are prefixes

A probe that is a prefix of the node's bytes hits it, so of two probes that hit one node the shorter
is a prefix of the longer. -/

theorem Node.keyIs_iff {n : Node δ} {key : List UInt8} :
    n.keyIs key = true ↔ key <+: n.key := by
  rw [Node.keyIs, beq_iff_eq, List.prefix_iff_eq_take, eq_comm]

theorem Node.store_keyIs (n : Node δ) (key : List UInt8) (d : δ) :
    (n.store key d).keyIs key = true :=
  Node.keyIs_iff.mpr (List.prefix_append _ _)

/-- No two keys of the set are one a prefix of the other. -/
def PrefixFree (K : Set (List UInt8)) : Prop :=
  ∀ p ∈ K, ∀ q ∈ K, p <+: q → p = q

theorem PrefixFree.hit_unique {K : Set (List UInt8)} (hK : PrefixFree K) {n : Node δ}
    {p q : List UInt8} (hp : p ∈ K) (hq : q ∈ K) (hnp : n.keyIs p = true)
    (hnq : n.keyIs q = true) : p = q := by
  rcases List.prefix_or_prefix_of_prefix (Node.keyIs_iff.mp hnp) (Node.keyIs_iff.mp hnq) with h | h
  · exact hK p hp q hq h
  · exact (hK q hq p hp h).symm

theorem PrefixFree.miss_of_ne {K : Set (List UInt8)} (hK : PrefixFree K) {n : Node δ}
    {p q : List UInt8} (hp : p ∈ K) (hq : q ∈ K) (hnq : n.keyIs q = true) (hne : p ≠ q) :
    n.keyIs p = false := by
  by_contra hc
  exact hne (hK.hit_unique hp hq (by simpa using hc) hnq)

/-! ## The low word

The scans stop at a zero in the first four bytes, and a key has those four bytes whatever is behind
it. -/

theorem lowWord_eq_zero_iff {key : List UInt8} :
    lowWord key = 0 ↔ ∀ b ∈ key.take 4, b = 0 := by
  unfold lowWord
  induction key.take 4 with
  | nil => simp
  | cons b bs ih =>
    rw [List.foldr_cons, List.forall_mem_cons, ← ih, Nat.add_eq_zero_iff]
    constructor
    · rintro ⟨hb, hbs⟩
      exact ⟨UInt8.toNat_inj.mp hb, by omega⟩
    · rintro ⟨rfl, hbs⟩
      exact ⟨rfl, by omega⟩

/-- A key with a nonzero low word leaves a nonzero `key.u32`, whatever bytes follow it. -/
theorem Node.store_u32_ne_zero {key : List UInt8} (h : lowWord key ≠ 0) (n : Node δ) (d : δ) :
    (n.store key d).u32 ≠ 0 := by
  intro hz
  refine h (lowWord_eq_zero_iff.mpr fun b hb => lowWord_eq_zero_iff.mp hz b ?_)
  show b ∈ (key ++ n.key.drop key.length).take 4
  rw [List.take_append]
  exact List.mem_append_left _ hb

theorem Node.u32_of_keyIs {n : Node δ} {key : List UInt8} (h : n.keyIs key = true)
    (hlen : 4 ≤ key.length) : n.u32 = lowWord key := by
  obtain ⟨rest, hrest⟩ := Node.keyIs_iff.mp h
  rw [Node.u32, lowWord, ← hrest, List.take_append_of_le_length hlen, ← lowWord]

/-! ## Visibility of an updated bucket

What is visible ends at the first node whose low word is zero, so a changed node changes what is
behind it too: the visible part stays, is cut off there, or grows by what was hidden. -/

theorem takeWhile_dropWhile_nil {α : Type} (p : α → Bool) :
    ∀ l : List α, (l.dropWhile p).takeWhile p = []
  | [] => rfl
  | a :: l => by
    by_cases ha : p a = true
    · rw [List.dropWhile_cons_of_pos ha]; exact takeWhile_dropWhile_nil p l
    · rw [List.dropWhile_cons_of_neg ha, List.takeWhile_cons_of_neg ha]

theorem Bucket.takeWhile_visible_append (b : Bucket δ) (r : List (Node δ))
    (hr : ∀ n ∈ r, n.u32 ≠ 0) :
    (r ++ b.hidden).takeWhile (fun n => n.u32 ≠ 0) = r := by
  rw [List.takeWhile_append_of_pos (fun n hn => by simpa using hr n hn), Bucket.hidden,
    takeWhile_dropWhile_nil, List.append_nil]

theorem Bucket.u32_of_split {b : Bucket δ} {l r : List (Node δ)} {n : Node δ}
    (hvis : b.visible = l ++ n :: r) : (∀ a ∈ l, a.u32 ≠ 0) ∧ n.u32 ≠ 0 ∧ ∀ a ∈ r, a.u32 ≠ 0 := by
  refine ⟨fun a ha => ?_, ?_, fun a ha => ?_⟩ <;>
    exact b.u32_ne_zero (by rw [hvis]; simp [*])

/-- A visible node replaced by one with a nonzero `key.u32` leaves the same shape visible. -/
theorem Bucket.visible_replace {b b' : Bucket δ} {l r : List (Node δ)} {n n' : Node δ}
    (hvis : b.visible = l ++ n :: r) (hused : b'.used = l ++ n' :: (r ++ b.hidden))
    (hn' : n'.u32 ≠ 0) : b'.visible = l ++ n' :: r := by
  obtain ⟨hl, -, hr⟩ := Bucket.u32_of_split hvis
  rw [Bucket.visible_eq, hused, List.takeWhile_append_of_pos (fun a ha => by simpa using hl a ha),
    List.takeWhile_cons_of_pos (by simpa using hn'), b.takeWhile_visible_append r hr]

/-- Replaced by one whose `key.u32` is zero, it cuts the bucket off. -/
theorem Bucket.visible_cut {b b' : Bucket δ} {l r : List (Node δ)} {n n' : Node δ}
    (hvis : b.visible = l ++ n :: r) (hused : b'.used = l ++ n' :: (r ++ b.hidden))
    (hn' : n'.u32 = 0) : b'.visible = l := by
  obtain ⟨hl, -, -⟩ := Bucket.u32_of_split hvis
  rw [Bucket.visible_eq, hused, List.takeWhile_append_of_pos (fun a ha => by simpa using hl a ha),
    List.takeWhile_cons_of_neg (by simpa using hn'), List.append_nil]

theorem Bucket.visible_append {b b' : Bucket δ} {n : Node δ} (hused : b'.used = b.used ++ [n]) :
    b'.visible = if b.hidden = [] ∧ n.u32 ≠ 0 then b.visible ++ [n] else b.visible := by
  rw [Bucket.visible_eq, hused, b.used_eq, List.append_assoc,
    List.takeWhile_append_of_pos (fun a ha => by simpa using b.u32_ne_zero ha)]
  cases hh : b.hidden with
  | nil =>
    by_cases hn : n.u32 ≠ 0
    · rw [if_pos ⟨rfl, hn⟩, List.nil_append, List.takeWhile_cons_of_pos (by simpa using hn),
        List.takeWhile_nil]
    · rw [if_neg (fun h => hn h.2), List.nil_append,
        List.takeWhile_cons_of_neg (by simpa using hn), List.append_nil]
  | cons a rest =>
    -- The first hidden node is hidden because its own `key.u32` is zero.
    have ha : a.u32 = 0 := by
      by_contra hp
      have hnil := takeWhile_dropWhile_nil (fun n : Node δ => decide (n.u32 ≠ 0)) b.used
      rw [show b.used.dropWhile (fun n : Node δ => decide (n.u32 ≠ 0)) = a :: rest from hh,
        List.takeWhile_cons_of_pos (by simpa using hp)] at hnil
      exact absurd hnil (by simp)
    rw [if_neg (fun h => absurd h.1 (by simp)), List.cons_append,
      List.takeWhile_cons_of_neg (by simpa using ha), List.append_nil]

/-! ## The invariant of a bucket -/

/-- A bucket whose bounds hold and in which no key of `K` is visible twice. -/
structure Bucket.Inv (K : Set (List UInt8)) (b : Bucket δ) : Prop where
  ok : b.Ok
  unique : Slots.Unique Node.keyIs K b.visible

/-- The exact condition for a `set` of this key to take effect on the bucket. -/
def Bucket.SetOk (b : Bucket δ) (key : List UInt8) : Prop :=
  lowWord key ≠ 0 ∧
    (b.hidden = [] ∨ ∃ n ∈ b.visible, n.keyIs key = true ∨ n.data = none)

section BucketStep

variable {K : Set (List UInt8)} {b : Bucket δ} {key : List UInt8} {d : δ}

theorem PrefixFree.store_hits (hK : PrefixFree K) (hkey : key ∈ K) (n : Node δ) (d : δ) :
    ∀ p ∈ K, (n.store key d).keyIs p = true → p = key :=
  fun _ hp hh => hK.hit_unique hp hkey hh (n.store_keyIs key d)

/-- **`set` keeps the invariant**, whether or not it takes effect. -/
theorem Bucket.Inv.set (hb : b.Inv K) (hK : PrefixFree K) (hkey : key ∈ K) :
    (b.set key d).1.Inv K := by
  obtain ⟨heff, hok⟩ := hb.ok.set_effect key d
  refine ⟨hok, ?_⟩
  have hu := hb.unique
  cases heff with
  | found l r n hvis _ _ hused _ =>
    rw [hvis] at hu
    rw [Bucket.visible_replace hvis hused (Bucket.u32_of_split hvis).2.1]
    exact hu.replace_sub fun _ _ hh => hh
  | reuse l r n hvis hmiss _ hused _ =>
    rw [hvis] at hu hmiss
    by_cases hz : (n.store key d).u32 = 0
    · rw [Bucket.visible_cut hvis hused hz]
      exact hu.prefix
    · rw [Bucket.visible_replace hvis hused hz]
      exact hu.replace_fresh hmiss (hK.store_hits hkey n d)
  | append n hmiss _ hused _ =>
    rw [Bucket.visible_append hused]
    split
    · exact hu.append_fresh hmiss (hK.store_hits hkey n d)
    · exact hu

/-- **A `set` that meets `SetOk` is read back, and changes no other answer.** -/
theorem Bucket.Inv.lookup_set (hb : b.Inv K) (hK : PrefixFree K) (hkey : key ∈ K)
    (hset : b.SetOk key) :
    (b.set key d).1.lookup key = some d ∧
      ∀ p ∈ K, p ≠ key → (b.set key d).1.lookup p = b.lookup p := by
  obtain ⟨heff, -⟩ := hb.ok.set_effect key d
  have hu := hb.unique
  unfold Bucket.lookup
  cases heff with
  | found l r n hvis hn _ hused _ =>
    rw [hvis] at hu
    obtain ⟨hl, hr⟩ := hu.miss_around hkey hn
    rw [Bucket.visible_replace hvis hused (Bucket.u32_of_split hvis).2.1, hvis]
    refine ⟨Slots.lookup_hit (n := { n with data := some d }) hn hl hr, fun p hp hne => ?_⟩
    have hmiss : n.keyIs p = false := hK.miss_of_ne hp hkey hn hne
    exact Slots.lookup_replace_miss hmiss hmiss
  | reuse l r n hvis hmiss hvac hused _ =>
    rw [hvis] at hu hmiss
    rw [Bucket.visible_replace hvis hused (Node.store_u32_ne_zero hset.1 n d), hvis]
    refine ⟨Slots.lookup_hit (n.store_keyIs key d) (fun a ha => hmiss a (by simp [ha]))
      (fun a ha => hmiss a (by simp [ha])), fun p hp hne => ?_⟩
    exact Slots.lookup_replace_vacant hu hp hvac
      (hK.miss_of_ne hp hkey (n.store_keyIs key d) hne)
  | append n hmiss hfull hused _ =>
    -- Neither a hit nor a vacant node is visible, so `SetOk` leaves only an unhidden bucket.
    have hh : b.hidden = [] := by
      rcases hset.2 with hh | ⟨a, ha, hit | hvac⟩
      · exact hh
      · rw [hmiss a ha] at hit; exact Bool.noConfusion hit
      · exact absurd hvac (hfull a ha)
    rw [Bucket.visible_append hused, if_pos ⟨hh, Node.store_u32_ne_zero hset.1 n d⟩]
    refine ⟨Slots.lookup_hit (n.store_keyIs key d) hmiss (by simp), fun p hp hne => ?_⟩
    rw [Slots.lookup_append, Slots.lookup_eq_none (l := [n.store key d])]
    · simp
    · intro a ha
      rw [List.mem_singleton.mp ha]
      exact hK.miss_of_ne hp hkey (n.store_keyIs key d) hne

/-- **A `set` that does not meet `SetOk` is not read back**, at keys of four bytes or more. -/
theorem Bucket.Ok.lookup_set_of_not_setOk (hb : b.Ok) (hlen : 4 ≤ key.length)
    (hset : ¬ b.SetOk key) : (b.set key d).1.lookup key = none := by
  by_cases hz : lowWord key = 0
  · -- Every visible node has a nonzero low word, the key has not.
    refine Slots.lookup_eq_none fun n hn => ?_
    by_contra hc
    exact (b.set key d).1.u32_ne_zero hn ((Node.u32_of_keyIs (by simpa using hc) hlen).trans hz)
  · obtain ⟨heff, -⟩ := hb.set_effect key d
    have hno : ¬ (b.hidden = [] ∨ ∃ n ∈ b.visible, n.keyIs key = true ∨ n.data = none) :=
      fun h => hset ⟨hz, h⟩
    cases heff with
    | found l r n hvis hn _ _ _ =>
      exact absurd (Or.inr ⟨n, by rw [hvis]; simp, Or.inl hn⟩) hno
    | reuse l r n hvis _ hvac _ _ =>
      exact absurd (Or.inr ⟨n, by rw [hvis]; simp, Or.inr hvac⟩) hno
    | append n hmiss _ hused _ =>
      rw [Bucket.lookup, Bucket.visible_append hused,
        if_neg (fun h => hno (Or.inl h.1))]
      exact Slots.lookup_eq_none hmiss

theorem Bucket.Ok.remove {b' : Bucket δ} (hb : b.Ok) (h : b.remove key = some (d, b')) :
    b'.Ok := by
  obtain ⟨_, _, _, -, -, -, -, -, hcount, hmax, hlen⟩ := Bucket.remove_some h
  exact ⟨by rw [hcount, hmax]; exact hb.count_le, by rw [hmax, hlen]; exact hb.length⟩

/-- **`remove` vacates the one node of the key**: the key reads as absent, nothing else
    changes. -/
theorem Bucket.Inv.remove {b' : Bucket δ} (hb : b.Inv K) (hK : PrefixFree K) (hkey : key ∈ K)
    (h : b.remove key = some (d, b')) :
    b'.Inv K ∧ b.lookup key = some d ∧ b'.lookup key = none ∧
      ∀ p ∈ K, p ≠ key → b'.lookup p = b.lookup p := by
  obtain ⟨l, n, r, hvis, hn, hd, -, hused, -, -, -⟩ := Bucket.remove_some h
  have hvis' : b'.visible = l ++ { n with data := none } :: r :=
    Bucket.visible_replace hvis hused (Bucket.u32_of_split hvis).2.1
  have hu := hb.unique
  rw [hvis] at hu
  obtain ⟨hl, hr⟩ := hu.miss_around hkey hn
  refine ⟨⟨hb.ok.remove h, ?_⟩, ?_, ?_, fun p hp hne => ?_⟩
  · rw [hvis']
    exact hu.replace_sub fun _ _ hh => hh
  · rw [Bucket.lookup, hvis, Slots.lookup_hit hn hl hr, hd]
  · rw [Bucket.lookup, hvis']
    exact Slots.lookup_hit (n := { n with data := none }) hn hl hr
  · rw [Bucket.lookup, Bucket.lookup, hvis', hvis]
    have hmiss : n.keyIs p = false := hK.miss_of_ne hp hkey hn hne
    exact Slots.lookup_replace_miss hmiss hmiss

theorem Bucket.visible_clear (b : Bucket δ) : b.clear.visible = [] := by
  simp [Bucket.visible_eq, Bucket.used, Bucket.clear]

end BucketStep

end Hashtable
end Inac
