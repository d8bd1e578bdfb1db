import Mathlib.Data.List.Sort
import Inac.Dir.Walker

/-!
# What a walk shows

A visit of a directory should be a walk along a list of its entries, each of them once, in an order
of the chosen comparison: a read gives the next of them, the reads behind the last one report the
end, and a reset goes back to the first. This holds of every session of visits, with reloads in
between, in which no directory with more than 1024 entries is listed (`walked_iff`).
-/

namespace Inac
namespace Dir

open Lib Str

/-! ## The walk

What a client should see, along one list of the entries. -/

/-- The calls of a visit along `es`, from the place `pos` on. -/
def along (es : List Entry) : Nat → List Call → List Out
  | _, [] => []
  | _, .reset :: cs => .success :: along es 0 cs
  | pos, .getNextEntry :: cs =>
    match es[pos]? with
    | some e => .entry pos e :: along es (pos + 1) cs
    | none => .error .enumerationEndOf :: along es pos cs

/-- The comparison that was chosen. -/
def Walker.chosen (w : Walker) : Option SortCb := sortCbOf w.sortOrder w.sortAttrib

/-- A visit of a directory with the entries `fs`. -/
structure Visit where
  fs : List Dirent
  calls : List Call

/-- The visit walks along the entries of the directory, each once and in order, stored inside of
    the array. -/
structure Shows (cb : Option SortCb) (v : Visit) (outs : List Out) (es : List Entry) : Prop where
  perm : es.Perm (v.fs.map Dirent.entry)
  sorted : ∀ c, cb = some c → es.Pairwise fun a b => c.cmp a b ≤ 0
  outs : outs = along es 0 v.calls
  inside : es.length ≤ maxEntries ∨ .getNextEntry ∉ v.calls

/-- Every visit of a session shows what it should; the walker is reloaded after each. -/
def Walked (q : Qsort) : Walker → List Visit → Prop
  | _, [] => True
  | w, v :: vs => ∃ outs w', visit q v.fs w v.calls = some (outs, w') ∧
      (∃ es, Shows w.chosen v outs es) ∧ Walked q (reload w') vs

/-! ## The comparisons

`qsort` needs an order. That of the names is the lexicographic one of the folded bytes. -/

/-- A name as `strcasecmp` reads it. -/
def Name.folded (n : Name) : List Nat := n.bytes.map fun c => (tolower c).toNat

theorem tolower_ne_zero {c : UInt8} (hc : c ≠ 0) : (tolower c).toNat ≠ 0 := by
  intro h
  exact hc ((tolower_zero_iff c).mp (UInt8.toNat_inj.mp h))

theorem strcasecmp_nonpos_iff {a b : List UInt8} (ha : 0 ∉ a) (hb : 0 ∉ b) :
    ∃ r, strcasecmp (a ++ [0]) (b ++ [0]) = some r ∧
      (r ≤ 0 ↔ List.le (a.map fun c => (tolower c).toNat) (b.map fun c => (tolower c).toNat)) := by
  have hzero : (tolower 0).toNat = 0 := rfl
  induction a generalizing b with
  | nil =>
    cases b with
    | nil => exact ⟨0, by simp [strcasecmp], by simp [List.le]⟩
    | cons y b =>
      have hy := tolower_ne_zero (c := y) fun h => hb (h ▸ List.mem_cons_self)
      refine ⟨0 - (tolower y).toNat, ?_, ?_⟩
      · simp [strcasecmp, hzero, hy]
      · simp [List.le]
  | cons x a ih =>
    obtain ⟨hx, ha'⟩ := not_or.mp (List.mem_cons.not.mp ha)
    have hx' := tolower_ne_zero (Ne.symm hx)
    cases b with
    | nil =>
      refine ⟨(tolower x).toNat - 0, ?_, ?_⟩
      · simp [strcasecmp, hzero, hx']
      · simpa [List.le] using hx'
    | cons y b =>
      obtain ⟨-, hb'⟩ := not_or.mp (List.mem_cons.not.mp hb)
      have hcons : ∀ (m n : Nat) (l k : List Nat),
          List.le (m :: l) (n :: k) ↔ m < n ∨ m = n ∧ List.le l k :=
        fun _ _ _ _ => List.cons_le_cons_iff
      rw [List.cons_append, List.cons_append, strcasecmp, List.map_cons, List.map_cons, hcons]
      -- The first bytes fold to the same, and the rest decides; or they decide themselves.
      by_cases hxy : (tolower x).toNat = (tolower y).toNat
      · obtain ⟨r, hr, hle⟩ := ih ha' hb'
        have hgo : ¬ (((tolower x).toNat : Int) - (tolower y).toNat ≠ 0 ∨ x = 0) := by
          rw [hxy, Int.sub_self]
          exact fun h => h.elim (fun h => h rfl) fun h => hx h.symm
        refine ⟨r, by rw [if_neg hgo, hr], ?_⟩
        simp [hle, hxy]
      · have hstop : ((tolower x).toNat : Int) - (tolower y).toNat ≠ 0 := by omega
        refine ⟨_, if_pos (.inl hstop), ?_⟩
        simp only [hxy, false_and, or_false]
        omega

/-- The comparison of names is that of the folded names. -/
theorem cmpName_nonpos_iff (a b : Entry) :
    cmpName a b ≤ 0 ↔ List.le a.name.folded b.name.folded := by
  obtain ⟨r, hr, hle⟩ := strcasecmp_nonpos_iff a.name.nulFree b.name.nulFree
  rw [cmpName, hr]
  exact hle

theorem cmpType_nonpos_iff (a b : Entry) : cmpType a b ≤ 0 ↔ a.type.toNat ≤ b.type.toNat := by
  unfold cmpType
  cases a.type <;> cases b.type <;> decide

theorem Consistent.flip {α : Type} {cmp : α → α → Int} (h : Consistent cmp) :
    Consistent fun a b => cmp b a where
  total a b := h.total b a
  trans a b c hab hbc := h.trans c b a hbc hab

/-- All four comparisons are orders that `qsort` can sort by. -/
theorem SortCb.consistent (cb : SortCb) : Consistent cb.cmp := by
  have hname : Consistent cmpName := by
    constructor
    · intro a b
      rw [cmpName_nonpos_iff, cmpName_nonpos_iff]
      exact List.le_total a.name.folded b.name.folded
    · intro a b c
      rw [cmpName_nonpos_iff, cmpName_nonpos_iff, cmpName_nonpos_iff]
      exact fun hab hbc => List.le_trans hab hbc
  have htype : Consistent cmpType := by
    constructor
    · intro a b
      simp only [cmpType_nonpos_iff]
      exact Nat.le_total _ _
    · intro a b c
      simp only [cmpType_nonpos_iff]
      exact Nat.le_trans
  cases cb with
  | nameAscend => exact hname
  | nameDescend => exact hname.flip
  | typeAscend => exact htype
  | typeDescend => exact htype.flip

/-! ## Listing a directory

The entries go to the array one after the other, and `qsort` puts them into order there. -/

/-- What the array holds after a listing. -/
def arrange (q : Qsort) (cb : Option SortCb) (es : List Entry) : List Entry :=
  match cb with
  | none => es
  | some cb => q.sort cb.cmp es

theorem arrange_perm (q : Qsort) (cb : Option SortCb) (es : List Entry) :
    (arrange q cb es).Perm es := by
  cases cb with
  | none => exact .refl es
  | some cb => exact q.perm _ es cb.consistent

theorem arrange_sorted (q : Qsort) (es : List Entry) (cb : SortCb) :
    (arrange q (some cb) es).Pairwise fun a b => cb.cmp a b ≤ 0 :=
  q.sorted _ es cb.consistent

/-- The array holds `es`, and `first` and `last` point to its ends. -/
structure Stored (w : Walker) (es : List Entry) : Prop where
  ne : es ≠ []
  first : w.first = some 0
  last : w.last = some (es.length - 1)
  entries : ∀ i (hi : i < es.length), w.entries i = es[i]

theorem Stored.length_pos {w : Walker} {es : List Entry} (h : Stored w es) : 0 < es.length :=
  List.length_pos_iff.mpr h.ne

/-- Where `current` points to is no part of it. -/
theorem Stored.at {w : Walker} {es : List Entry} (h : Stored w es) (current : Option Nat) :
    Stored { w with current := current } es :=
  ⟨h.ne, h.first, h.last, h.entries⟩

theorem Stored.toFirst {w : Walker} {es : List Entry} (h : Stored w es) : Stored w.toFirst es :=
  h.at w.first

/-- The settings of two walkers are the same. -/
structure SameSettings (w w' : Walker) : Prop where
  sortOrder : w'.sortOrder = w.sortOrder
  sortAttrib : w'.sortAttrib = w.sortAttrib
  sortCb : w'.sortCb = w.sortCb

theorem SameSettings.trans {w w' w'' : Walker} (h : SameSettings w w')
    (h' : SameSettings w' w'') : SameSettings w w'' :=
  ⟨h'.sortOrder.trans h.sortOrder, h'.sortAttrib.trans h.sortAttrib, h'.sortCb.trans h.sortCb⟩

theorem sameSettings_reset (w : Walker) : SameSettings w (reset w) := ⟨rfl, rfl, rfl⟩

/-- The first entry goes to the front of the array. -/
theorem readEntry_first {w : Walker} (hfirst : w.first = none) (f : Dirent) :
    ∃ w', readEntry w f = some w' ∧ Stored w' [f.entry] ∧ SameSettings w w' := by
  refine ⟨w.store 0 f.entry, by simp [readEntry, hfirst, maxEntries],
    ⟨by simp, ?_, rfl, ?_⟩, ⟨rfl, rfl, rfl⟩⟩
  · rw [Walker.store, hfirst]
    rfl
  · intro i hi
    obtain rfl : i = 0 := by simpa using hi
    exact putBytes_at w.entries 0 hi

/-- Each further one goes behind the last, as long as that is in the array. -/
theorem readEntry_next {w : Walker} {es : List Entry} (h : Stored w es) (f : Dirent) :
    (es.length < maxEntries →
      ∃ w', readEntry w f = some w' ∧ Stored w' (es ++ [f.entry]) ∧ SameSettings w w') ∧
    (¬ es.length < maxEntries → readEntry w f = none) := by
  have hpos := h.length_pos
  have hlast : es.length - 1 + 1 = es.length := Nat.sub_add_cancel hpos
  constructor
  · intro hlt
    refine ⟨w.store es.length f.entry, by simp [readEntry, h.first, h.last, hlast, hlt],
      ⟨by simp, ?_, by simp [Walker.store], ?_⟩, ⟨rfl, rfl, rfl⟩⟩
    · rw [Walker.store, h.first]
      rfl
    · intro i hi
      rcases Nat.lt_or_ge i es.length with hold | hnew
      · rw [List.getElem_append_left hold, ← h.entries i hold]
        exact putBytes_of_lt w.entries [f.entry] hold
      · obtain rfl : i = es.length := by
          simp only [List.length_append, List.length_singleton] at hi
          omega
        rw [List.getElem_append_right (Nat.le_refl _)]
        have hat := putBytes_at w.entries es.length (show 0 < [f.entry].length by simp)
        rw [Nat.add_zero] at hat
        simpa [Walker.store] using hat
  · intro hge
    simp [readEntry, h.first, h.last, hlast, hge]

theorem foldlM_readEntry (fs : List Dirent) {w : Walker} {es : List Entry} (h : Stored w es)
    (hes : es.length ≤ maxEntries) :
    (es.length + fs.length ≤ maxEntries → ∃ w', fs.foldlM readEntry w = some w' ∧
      Stored w' (es ++ fs.map Dirent.entry) ∧ SameSettings w w') ∧
    (¬ es.length + fs.length ≤ maxEntries → fs.foldlM readEntry w = none) := by
  induction fs generalizing w es with
  | nil =>
    constructor
    · intro _
      exact ⟨w, rfl, by simpa using h, ⟨rfl, rfl, rfl⟩⟩
    · intro hno
      exact absurd hes hno
  | cons f fs ih =>
    obtain ⟨hread, hfull⟩ := readEntry_next h f
    -- There is a place for the next entry, or it is stored outside and the listing has no result.
    by_cases hlt : es.length < maxEntries
    · obtain ⟨w', hw', hstored, hsame⟩ := hread hlt
      have hlen : (es ++ [f.entry]).length = es.length + 1 := by simp
      obtain ⟨hfits, hno⟩ := ih hstored (hlen ▸ hlt)
      rw [hlen] at hfits hno
      rw [List.foldlM_cons, hw', List.length_cons]
      constructor
      · intro hle
        obtain ⟨w'', hw'', hstored', hsame'⟩ := hfits (by omega)
        exact ⟨w'', hw'', by simpa using hstored', hsame.trans hsame'⟩
      · intro hgt
        exact hno (by omega)
    · rw [List.foldlM_cons, hfull hlt, List.length_cons]
      exact ⟨fun hle => by omega, fun _ => rfl⟩

/-- The sort puts the entries into their order. -/
theorem sortEntries_stored (q : Qsort) {w : Walker} {es : List Entry} (h : Stored w es) :
    Stored (sortEntries q w) (arrange q w.sortCb es) ∧ SameSettings w (sortEntries q w) := by
  have hperm := arrange_perm q w.sortCb es
  have hlen := hperm.length_eq
  unfold sortEntries
  cases hcb : w.sortCb with
  | none => simpa [h.first, h.last, arrange] using ⟨h, ⟨rfl, rfl, rfl⟩⟩
  | some cb =>
    have hlisted : (List.range (es.length - 1 - 0 + 1)).map (fun i => w.entries (0 + i)) = es := by
      apply List.ext_getElem
      · have := h.length_pos
        simp
        omega
      · intro i _ hi
        simpa using h.entries i hi
    rw [hcb] at hperm hlen
    simp only [h.first, h.last, hlisted]
    refine ⟨⟨fun hnil => h.ne ?_, rfl, ?_, fun i hi => ?_⟩, ⟨rfl, rfl, hcb.symm⟩⟩
    · rw [hnil] at hperm
      exact hperm.nil_eq.symm
    · rw [hlen]
    · have hat := putBytes_at w.entries 0 hi
      rw [Nat.zero_add] at hat
      exact hat

/-- **Listing** a directory arranges its entries in the array, or stores one outside of it. -/
theorem load_spec (q : Qsort) {w : Walker} (hfirst : w.first = none) {fs : List Dirent}
    (hfs : fs ≠ []) :
    (fs.length ≤ maxEntries → ∃ w', load q (some fs) w = some w' ∧ w'.current = some 0 ∧
      Stored w' (arrange q w.sortCb (fs.map Dirent.entry)) ∧ SameSettings w w') ∧
    (¬ fs.length ≤ maxEntries → load q (some fs) w = none) := by
  cases fs with
  | nil => exact absurd rfl hfs
  | cons f fs =>
    obtain ⟨w₁, hw₁, hstored, hsame⟩ :=
      readEntry_first (w := { w with last := none }) hfirst f
    obtain ⟨hfits, hno⟩ := foldlM_readEntry fs hstored (by simp [maxEntries])
    simp only [List.length_cons, List.length_nil, Nat.zero_add, Nat.add_comm 1] at hfits hno
    constructor
    · intro hle
      obtain ⟨w₂, hw₂, hstored₂, hsame₂⟩ := hfits hle
      obtain ⟨horder, hattrib, hcb⟩ := hsame.trans hsame₂
      obtain ⟨hsorted, horder', hattrib', hcb'⟩ := sortEntries_stored q hstored₂.toFirst
      rw [show w₂.toFirst.sortCb = w.sortCb from hcb] at hsorted
      exact ⟨(sortEntries q w₂.toFirst).toFirst, by simp [load, hw₁, hw₂], hsorted.first,
        hsorted.toFirst, horder'.trans horder, hattrib'.trans hattrib, hcb'.trans hcb⟩
    · intro hgt
      simp [load, hw₁, hno hgt]

/-! ## Stepping through the array -/

/-- The walker has `es` in its array and has shown the first `pos` of them. -/
structure Standing (w : Walker) (es : List Entry) (pos : Nat) : Prop where
  stored : Stored w es
  le : pos ≤ es.length
  current : w.current = if pos = 0 then none else some (pos - 1)

/-- A read shows the entry at the position, or that there is none. -/
theorem Standing.getNextEntry {w : Walker} {es : List Entry} {pos : Nat}
    (h : Standing w es pos) (q : Qsort) (dir : Option (List Dirent)) :
    (∀ hpos : pos < es.length, ∃ w',
      getNextEntry q dir w = some (.ok (pos, es[pos]), w') ∧ Standing w' es (pos + 1) ∧
        SameSettings w w') ∧
    (pos = es.length → getNextEntry q dir w = some (.error .enumerationEndOf, w)) := by
  have hlen := h.stored.length_pos
  constructor
  · intro hpos
    have hentry := h.stored.entries pos hpos
    refine ⟨{ w with current := some pos }, ?_,
      ⟨h.stored.at (some pos), hpos, by simp⟩, ⟨rfl, rfl, rfl⟩⟩
    by_cases hzero : pos = 0
    · subst hzero
      simp [Dir.getNextEntry, h.stored.first, h.current, Walker.answer, hentry]
    · have hnotlast : ¬ pos - 1 = es.length - 1 := by omega
      have hnext : pos - 1 + 1 = pos := by omega
      simp [Dir.getNextEntry, h.stored.first, h.stored.last, h.current, hzero, hnotlast, hnext,
        Walker.answer, hentry]
  · intro hend
    simp [Dir.getNextEntry, h.stored.first, h.stored.last, h.current, hend, h.stored.ne]

theorem Standing.reset {w : Walker} {es : List Entry} {pos : Nat} (h : Standing w es pos) :
    Standing (reset w) es 0 :=
  ⟨h.stored.at none, Nat.zero_le _, rfl⟩

/-- **From a walker that has listed the directory** a visit goes along what is in the array. -/
theorem Standing.visit {w : Walker} {es : List Entry} {pos : Nat} (h : Standing w es pos)
    (q : Qsort) (fs : List Dirent) (calls : List Call) :
    ∃ w', visit q fs w calls = some (along es pos calls, w') ∧ SameSettings w w' := by
  induction calls generalizing w pos with
  | nil => exact ⟨w, rfl, rfl, rfl, rfl⟩
  | cons c calls ih =>
    cases c with
    | reset =>
      obtain ⟨w', hw', hsame⟩ := ih h.reset
      exact ⟨w', by simp [Dir.visit, step, hw', along], (sameSettings_reset w).trans hsame⟩
    | getNextEntry =>
      obtain ⟨hread, hend⟩ := h.getNextEntry q (some fs)
      -- There is an entry at the position, or the walk is at its end and stays there.
      rcases Nat.lt_or_eq_of_le h.le with hlt | heq
      · obtain ⟨w', hw', hstanding, hsame⟩ := hread hlt
        obtain ⟨w'', hw'', hsame'⟩ := ih hstanding
        exact ⟨w'', by simp [Dir.visit, step, hw', hw'', along, hlt, Out.ofRead],
          hsame.trans hsame'⟩
      · obtain ⟨w', hw', hsame⟩ := ih h
        exact ⟨w', by simp [Dir.visit, step, hend heq, hw', along, heq, Out.ofRead], hsame⟩

/-- **From a walker that has not**, it does when the directory fits and it is read at all. -/
theorem visit_spec (q : Qsort) {fs : List Dirent} (hfs : fs ≠ []) {w : Walker}
    (hfirst : w.first = none) (calls : List Call) :
    ((.getNextEntry ∈ calls → fs.length ≤ maxEntries) → ∃ w', visit q fs w calls =
        some (along (arrange q w.sortCb (fs.map Dirent.entry)) 0 calls, w') ∧
      SameSettings w w') ∧
    (¬ (.getNextEntry ∈ calls → fs.length ≤ maxEntries) → visit q fs w calls = none) := by
  induction calls generalizing w with
  | nil => exact ⟨fun _ => ⟨w, rfl, rfl, rfl, rfl⟩, fun h => absurd (fun hmem => by cases hmem) h⟩
  | cons c calls ih =>
    cases c with
    | reset =>
      obtain ⟨hfits, hno⟩ := ih (w := reset w) hfirst
      have hmem : (Call.getNextEntry ∈ Call.reset :: calls ↔ Call.getNextEntry ∈ calls) := by simp
      rw [hmem]
      constructor
      · intro h
        obtain ⟨w', hw', hsame⟩ := hfits h
        exact ⟨w', by simp [visit, step, hw', along, (sameSettings_reset w).sortCb],
          (sameSettings_reset w).trans hsame⟩
      · intro h
        simp [visit, step, hno h]
    | getNextEntry =>
      obtain ⟨hload, hfull⟩ := load_spec q hfirst hfs
      simp only [List.mem_cons, true_or, forall_const]
      constructor
      · intro hle
        obtain ⟨w₁, hw₁, hcurrent, hstored, hsame⟩ := hload hle
        have hlen := hstored.length_pos
        have hstanding : Standing w₁ _ 1 := ⟨hstored, hlen, hcurrent⟩
        obtain ⟨w₂, hw₂, hsame'⟩ := hstanding.visit q fs calls
        have hentry := hstored.entries 0 hlen
        refine ⟨w₂, ?_, hsame.trans hsame'⟩
        simp [visit, step, getNextEntry, hfirst, hw₁, hcurrent, hw₂, along, hlen, Walker.answer,
          hentry, Out.ofRead]
      · intro hgt
        simp [visit, step, getNextEntry, hfirst, hfull hgt]

/-! ## Sessions

A reload makes the walker list its directory again. The settings stay, so every visit begins like
the first. -/

/-- The comparison is the one of the settings. -/
theorem setSort_sortCb (settings : List Setting) (w : Walker) (h : w.sortCb = w.chosen) :
    (settings.foldl setSort w).sortCb = (settings.foldl setSort w).chosen := by
  induction settings generalizing w with
  | nil => exact h
  | cons s settings ih =>
    apply ih
    cases s <;> rfl

theorem setSort_first (settings : List Setting) (w : Walker) :
    (settings.foldl setSort w).first = w.first := by
  induction settings generalizing w with
  | nil => rfl
  | cons s settings ih =>
    rw [List.foldl_cons, ih]
    cases s <;> rfl

/-- A visit is a walk exactly when what is listed fits. -/
theorem shows_iff (q : Qsort) {v : Visit} (hfs : v.fs ≠ []) {w : Walker} (hfirst : w.first = none)
    (hcb : w.sortCb = w.chosen) :
    (∃ outs w', visit q v.fs w v.calls = some (outs, w') ∧ (∃ es, Shows w.chosen v outs es) ∧
        SameSettings w w') ↔
      (.getNextEntry ∈ v.calls → v.fs.length ≤ maxEntries) := by
  obtain ⟨hfits, hno⟩ := visit_spec q hfs hfirst v.calls
  constructor
  · rintro ⟨outs, w', hvisit, -⟩
    by_contra hgt
    rw [hno hgt] at hvisit
    cases hvisit
  · intro h
    obtain ⟨w', hw', hsame⟩ := hfits h
    have hperm := arrange_perm q w.sortCb (v.fs.map Dirent.entry)
    refine ⟨_, w', hw', ⟨_, hperm, ?_, rfl, ?_⟩, hsame⟩
    · intro c hc
      rw [hcb, hc]
      exact arrange_sorted q _ c
    · rw [hperm.length_eq, List.length_map]
      exact (em _).elim (fun hmem => .inl (h hmem)) .inr

theorem walked_iff_of_unlisted (q : Qsort) {vs : List Visit} (hvs : ∀ v ∈ vs, v.fs ≠ [])
    {w : Walker} (hfirst : w.first = none) (hcb : w.sortCb = w.chosen) :
    Walked q w vs ↔ ∀ v ∈ vs, .getNextEntry ∈ v.calls → v.fs.length ≤ maxEntries := by
  induction vs generalizing w with
  | nil => simp [Walked]
  | cons v vs ih =>
    obtain ⟨hfs, hrest⟩ := List.forall_mem_cons.mp hvs
    have hshows := shows_iff q hfs hfirst hcb
    have hchosen : ∀ {w' : Walker}, SameSettings w w' → (reload w').sortCb = (reload w').chosen :=
      fun hsame => by
        rw [reload, hsame.sortCb, hcb, Walker.chosen, Walker.chosen, hsame.sortOrder,
          hsame.sortAttrib]
    rw [List.forall_mem_cons, Walked]
    constructor
    · rintro ⟨outs, w', hvisit, hshow, hwalked⟩
      obtain ⟨w'', hvisit', hsame⟩ := (visit_spec q hfs hfirst v.calls).1 (by_contra fun hgt => by
        rw [(visit_spec q hfs hfirst v.calls).2 hgt] at hvisit
        cases hvisit)
      obtain ⟨-, rfl⟩ := Prod.mk.inj (Option.some.inj (hvisit.symm.trans hvisit'))
      exact ⟨hshows.mp ⟨outs, w', hvisit, hshow, hsame⟩, (ih hrest rfl (hchosen hsame)).mp hwalked⟩
    · rintro ⟨hv, hall⟩
      obtain ⟨outs, w', hvisit, hshow, hsame⟩ := hshows.mpr hv
      exact ⟨outs, w', hvisit, hshow, (ih hrest rfl (hchosen hsame)).mpr hall⟩

/-- **Which directories are walked.** A session from a new walker shows every directory as it should
    exactly when none that it lists has more than 1024 entries. -/
theorem walked_iff (q : Qsort) (memory : Nat → Entry) (settings : List Setting) {vs : List Visit}
    (hvs : ∀ v ∈ vs, v.fs ≠ []) :
    Walked q (settings.foldl setSort (inaDirWalkerNew memory)) vs ↔
      ∀ v ∈ vs, .getNextEntry ∈ v.calls → v.fs.length ≤ maxEntries :=
  walked_iff_of_unlisted q hvs (setSort_first settings _) (setSort_sortCb settings _ rfl)

/-- A sort to run the walker with. -/
def mergeQsort : Qsort where
  sort cmp l := l.mergeSort fun a b => decide (cmp a b ≤ 0)
  perm _ l _ := l.mergeSort_perm _
  sorted cmp l h := by
    have hsorted : (l.mergeSort fun a b => decide (cmp a b ≤ 0)).Pairwise
        fun a b => decide (cmp a b ≤ 0) = true := List.pairwise_mergeSort
      (fun a b c hab hbc => by simpa using h.trans a b c (by simpa using hab) (by simpa using hbc))
      (fun a b => by simpa using h.total a b) l
    exact hsorted.imp fun hle => by simpa using hle

/-- The names of a directory that was just made. -/
def dot : Dirent := ⟨⟨[46], by decide⟩, .dir⟩

def dotdot : Dirent := ⟨⟨[46, 46], by decide⟩, .dir⟩

theorem walked_iff_empty_directory :
    Walked mergeQsort ([.order .descend].foldl setSort (inaDirWalkerNew fun _ => dot.entry))
        [⟨[dot, dotdot], [.getNextEntry, .getNextEntry, .getNextEntry, .reset, .getNextEntry]⟩] ↔
      ∀ v ∈ [(⟨[dot, dotdot], [.getNextEntry, .getNextEntry, .getNextEntry, .reset,
        .getNextEntry]⟩ : Visit)], .getNextEntry ∈ v.calls → v.fs.length ≤ maxEntries :=
  walked_iff mergeQsort _ _ (by simp)

/-- A file with a name of two characters. -/
def file (i : Nat) : Dirent where
  dName := {
    bytes := [UInt8.ofNat (65 + i / 32 % 64), UInt8.ofNat (65 + i % 32)]
    nulFree := by
      have hne : ∀ n < 64, UInt8.ofNat (65 + n) ≠ 0 := by decide
      have hhigh := hne (i / 32 % 64) (Nat.mod_lt _ (by decide))
      have hlow := hne (i % 32) (Nat.lt_trans (Nat.mod_lt _ (by decide)) (by decide))
      rw [List.mem_cons, List.mem_singleton, not_or]
      exact ⟨hhigh.symm, hlow.symm⟩ }
  dType := .reg

/-- A directory with more files than the array has room for. -/
def crowd : List Dirent := (List.range 1025).map file

theorem length_crowd : crowd.length = 1025 := by
  rw [crowd, List.length_map, List.length_range]

/-- The first read stores the last of its entries outside of the array. -/
theorem crowded_directory :
    ¬ Walked mergeQsort (inaDirWalkerNew fun _ => dot.entry) [⟨crowd, [.getNextEntry]⟩] := by
  have hne : crowd ≠ [] := List.ne_nil_of_length_pos (by rw [length_crowd]; exact Nat.succ_pos 1024)
  have hnone := (visit_spec mergeQsort hne (w := inaDirWalkerNew fun _ => dot.entry) rfl
    [.getNextEntry]).2 (by rw [length_crowd]; simp [maxEntries])
  simp only [Walked, hnone]
  simp

end Dir
end Inac
