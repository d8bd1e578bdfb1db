import Inac.Mempool.Wrap
import Inac.Str.Run

/-!
# Strings of two gigabytes

Lengths are `size_t`, and the header keeps the capacity in 32 bits, whose top bit says that the
string is from a pool. `Inac.Str.Defs` stays far below that. Here are the same functions at every
length, with `malloc` and `realloc` that may refuse, and with the sums of `size_t` as they wrap.

`ina_str_new` asks for all the bytes and keeps what is left of their number in 32 bits. The growth
rule is the other way round: it keeps what is left of the new number, and asks for that many. So
from 2^31 on a new string has more bytes than it says, and one that grew may have fewer than it
needs.

The two models are compared and not proved anew: where no sum wraps, the size keeps clear of the top
bit and memory is given, the functions here do what those of `Inac.Str.Defs` do. What is left is the
other case, in which it is shown that the result is never right.
-/

namespace Inac
namespace Str

open Lib
open Mempool (Malloc Given inaMemAlloc addSz subSz)

/-! ## The code

An operation that grows is one function with what it does afterwards as an argument, as all three
ask for room in the same way. -/

/-- What stands behind the heap: `malloc`, and for how many bytes `realloc` gives memory. -/
structure Mem where
  malloc : Malloc
  realloc : Nat → Bool

/-- How a call ends. -/
inductive Ends where
  | str (hdr : Hdr)
  | null
  | fault  -- it stores through `NULL`
  | outside  -- it writes outside the bytes it has
  deriving DecidableEq, Repr

def Ends.hdr : Ends → Option Hdr
  | .str hdr => some hdr
  | _ => none

/-- What has no result wrote outside. -/
def Ends.of : Option Hdr → Ends
  | some hdr => .str hdr
  | none => .outside

/-- `sizeof(ina_str_hdr_t)`. -/
def hdrBytes : Nat := 8

/-- How many of the `n` bytes that were asked for are in the block. -/
def there (g : Given) (n : Nat) : Nat :=
  if g.base ≤ g.ptr then min n (g.base + g.bytes - g.ptr) else 0

/-- The bytes `ina_str_new` asks for. -/
def newStrBytes (len : Nat) : Nat := addSz (addSz len 1) hdrBytes

/-- `ina_str_new`. -/
def Mem.inaStrNew (M : Mem) (junk : Nat → UInt8) (len : Nat) : Ends :=
  match inaMemAlloc M.malloc (newStrBytes len) with
  | none => .null
  | some g =>
    .of ((store (memAlloc junk (there g (newStrBytes len) - hdrBytes)) 0 [0]).map fun data =>
      { size := addSz len 1 % 2 ^ 32, len := 0, data := data })

/-- What `ina_mem_realloc` asks `realloc` for. -/
def reallocBytes (nb : Nat) : Nat := nb + 8 - 1 + 8

/-- `__ina_ensure_size`. When `realloc` gives nothing, `ina_mem_realloc` stores through `NULL`. -/
def Mem.ensureSize (M : Mem) (junk : Nat → UInt8) (hdr : Hdr) (len : Nat) : Option Hdr :=
  let size := hdr.size &&& (2 ^ 31 - 1)
  if subSz (subSz size hdr.len) 1 > len then some hdr
  else
    let newlen := addSz hdr.len len
    let newlen := if newlen < maxPrealloc then newlen * 2 else addSz newlen maxPrealloc
    let size := addSz newlen 1 % 2 ^ 32
    if M.realloc (reallocBytes (hdrBytes + size)) then
      some { hdr with size := size, data := memRealloc junk hdr.data size }
    else none

/-- An operation that may grow the string: what it does then is `rest`. -/
def Mem.grow (M : Mem) (junk : Nat → UInt8) (dest : Hdr) (n : Nat) (rest : Hdr → Option Hdr) :
    Ends :=
  (M.ensureSize junk dest n).elim .fault fun d => .of (rest d)

def ncpyTo (src : List UInt8) (n : Nat) (d : Hdr) : Option Hdr := do
  let data ← memCpy d.data 0 src n
  let data ← store data n [0]
  some { d with len := n % 2 ^ 32, data := data }

def ncatTo (src : List UInt8) (n : Nat) (d : Hdr) : Option Hdr := do
  let data ← memCpy d.data d.len src n
  let len := (d.len + n) % 2 ^ 32
  let data ← store data len [0]
  some { d with len := len, data := data }

def chrTo (c : UInt8) (d : Hdr) : Option Hdr := do
  let data ← store d.data d.len [c]
  let len := (d.len + 1) % 2 ^ 32
  let data ← store data len [0]
  some { d with len := len, data := data }

def Mem.inaStrNcpy (M : Mem) (junk : Nat → UInt8) (dest : Hdr) (src : Option (List UInt8))
    (n : Nat) : Ends :=
  match src with
  | none => .str dest
  | some src => M.grow junk dest n (ncpyTo src n)

def Mem.inaStrNcat (M : Mem) (junk : Nat → UInt8) (dest : Hdr) (src : Option (List UInt8))
    (n : Nat) : Ends :=
  match src with
  | none => .str dest
  | some src => M.grow junk dest n (ncatTo src n)

def Mem.inaStrAppendChr (M : Mem) (junk : Nat → UInt8) (dest : Hdr) (c : UInt8) : Ends :=
  M.grow junk dest 1 (chrTo c)

def Mem.apply (M : Mem) (call : Call) (hdr : Hdr) : Ends :=
  match call.op with
  | .ncpy src n => M.inaStrNcpy call.junk hdr src n
  | .ncat src n => M.inaStrNcat call.junk hdr src n
  | .appendChr c => M.inaStrAppendChr call.junk hdr c
  | .truncate pos => .of (inaStrTruncate hdr pos)
  | .trim chars => .of (inaStrTrim hdr chars)

/-- One call of a run. There is no string when none was made, and none when the program is down. -/
def Mem.step (M : Mem) (hdr : Option Hdr) (call : Call) : Ends × Option Hdr :=
  match hdr with
  | none => (.null, none)
  | some hdr => (M.apply call hdr, (M.apply call hdr).hdr)

def inaStrSize (hdr : Hdr) : Nat := hdr.size &&& (2 ^ 31 - 1)

/-- `ina_str_free` gives the memory back: the string is not marked as pooled. -/
def inaStrFree (hdr : Hdr) : Bool := hdr.size &&& 2 ^ 31 = 0

/-- A string whose size is the number of bytes there are and that is freed as one from the heap, or
    none. -/
def Ends.Right : Ends → Prop
  | .str hdr => inaStrSize hdr = hdr.data.length ∧ inaStrFree hdr = true
  | .outside => False
  | .null | .fault => True

/-! ## The size field

What is kept of a number in 32 bits, and what its top bit is taken for. -/

theorem inaStrFree_iff {hdr : Hdr} (hlt : hdr.size < 2 ^ 32) :
    inaStrFree hdr = true ↔ hdr.size < 2 ^ 31 := by
  rw [inaStrFree, decide_eq_true_eq, Nat.and_two_pow]
  by_cases hsize : hdr.size < 2 ^ 31
  · simp only [Nat.testBit_lt_two_pow hsize, hsize, Bool.toNat_false, Nat.zero_mul]
  · have hbit : hdr.size.testBit 31 = true := by
      rw [Nat.testBit_eq_decide_div_mod_eq, decide_eq_true_eq]
      omega
    rw [hbit, iff_false_right hsize]
    decide

theorem Rep.right {h : Hdr} {s : List UInt8} (hr : Rep h s) : (Ends.str h).Right := by
  have hlt := hr.size_lt
  refine ⟨?_, (inaStrFree_iff (by omega)).mpr hlt⟩
  rw [inaStrSize, Nat.and_two_pow_sub_one_eq_mod, Nat.mod_eq_of_lt hlt, hr.size]

/-- What is kept of the new size when a string grows. -/
def keptSize (len n : Nat) : Nat :=
  let newlen := addSz len n
  addSz (if newlen < maxPrealloc then newlen * 2 else addSz newlen maxPrealloc) 1 % 2 ^ 32

theorem keptSize_lt (len n : Nat) : keptSize len n < 2 ^ 32 := Nat.mod_lt _ (Nat.two_pow_pos 32)

theorem keptSize_eq {len n : Nat} (hlt : grownLen len n + 1 < 2 ^ 32) :
    keptSize len n = grownLen len n + 1 := by
  have hmax : maxPrealloc = 2 ^ 19 := rfl
  have hsum : addSz len n = len + n := Nat.mod_eq_of_lt (by
    have := (grownLen_bounds len n).1
    omega)
  simp only [keptSize, hsum]
  rw [grownLen] at hlt ⊢
  split at hlt
  · rename_i hsmall
    rw [if_pos hsmall, if_pos hsmall, addSz]
    omega
  · rename_i hlarge
    rw [if_neg hlarge, if_neg hlarge, addSz, addSz]
    omega

/-- From 2^32 on what is kept is less than what the string grew for. -/
theorem keptSize_lt_of_wrap {len n : Nat} (hlen : len < 2 ^ 31)
    (hwrap : 2 ^ 32 ≤ grownLen len n + 1) : keptSize len n < n := by
  have hmax : maxPrealloc = 2 ^ 19 := rfl
  have hlt := keptSize_lt len n
  have hbound := (grownLen_bounds len n).2
  by_cases hfits : len + n + maxPrealloc + 1 < 2 ^ 64
  · have hsum : addSz len n = len + n := Nat.mod_eq_of_lt (by omega)
    have hlarge : ¬ len + n < maxPrealloc := by
      intro hc
      rw [grownLen, if_pos hc] at hwrap
      omega
    have hnew : addSz (len + n) maxPrealloc = len + n + maxPrealloc := Nat.mod_eq_of_lt (by omega)
    simp only [keptSize, hsum, if_neg hlarge, hnew]
    rw [addSz]
    omega
  · omega

/-! ## Growing

The new size is computed by the old rule. It is only the number of bytes kept of it, and asked for,
that may be less. -/

theorem Rep.unused_sz {h : Hdr} {s : List UInt8} (hr : Rep h s) :
    subSz (subSz (h.size &&& (2 ^ 31 - 1)) h.len) 1 = h.size - h.len - 1 := by
  have hlen := hr.len_lt
  have hsize := hr.size
  have hlt := hr.size_lt
  have hfree : subSz h.size h.len = h.size - h.len := Mempool.subSz_of_le (by omega) (by omega)
  rw [Nat.and_two_pow_sub_one_eq_mod, Nat.mod_eq_of_lt hlt, hfree]
  exact Mempool.subSz_of_le (by omega) (by omega)

/-- What `__ina_ensure_size` does to a string that is in order. -/
theorem Mem.ensureSize_eq (M : Mem) {h : Hdr} {s : List UInt8} (hr : Rep h s) (junk : Nat → UInt8)
    (n : Nat) :
    M.ensureSize junk h n =
      if h.size - h.len - 1 > n then some h
      else if M.realloc (reallocBytes (hdrBytes + keptSize h.len n)) then
        some { h with
          size := keptSize h.len n
          data := memRealloc junk h.data (keptSize h.len n) }
      else none := by
  simp only [Mem.ensureSize, hr.unused_sz]
  rfl

/-- **The two models agree** where the new size leaves the top bit alone and `realloc` gives. -/
theorem Mem.ensureSize_small (M : Mem) {h : Hdr} {s : List UInt8} (hr : Rep h s)
    (junk : Nat → UInt8) {n : Nat}
    (hn : h.size - h.len - 1 > n ∨ grownLen h.len n + 1 < 2 ^ 31) :
    M.ensureSize junk h n = none ∨ M.ensureSize junk h n = some (Str.ensureSize junk h n) := by
  rw [M.ensureSize_eq hr]
  simp only [Str.ensureSize, hr.unused]
  by_cases hroom : h.size - h.len - 1 > n
  · rw [if_pos hroom, if_pos hroom]
    exact Or.inr rfl
  · have hsmall := hn.resolve_left hroom
    rw [if_neg hroom, if_neg hroom]
    split
    · refine Or.inr ?_
      have hkept : keptSize h.len n = grownLen h.len n + 1 := keptSize_eq (by omega)
      rw [hkept, ← grownLen, Nat.mod_eq_of_lt (by omega)]
    · exact Or.inl rfl

theorem Mem.grow_none {M : Mem} {junk : Nat → UInt8} {dest : Hdr} {n : Nat}
    (hnone : M.ensureSize junk dest n = none) (rest : Hdr → Option Hdr) :
    M.grow junk dest n rest = .fault := by
  rw [Mem.grow, hnone, Option.elim_none]

theorem Mem.grow_some {M : Mem} {junk : Nat → UInt8} {dest d : Hdr} {n : Nat}
    (hsome : M.ensureSize junk dest n = some d) (rest : Hdr → Option Hdr) :
    M.grow junk dest n rest = .of (rest d) := by
  rw [Mem.grow, hsome, Option.elim_some]

/-! ## One call

A call that asks for no room is the old one. For the others the question is what is kept of the new
size. -/

/-- The bytes an operation makes room for. -/
def Op.asks : Op → Option Nat
  | .ncpy (some _) n | .ncat (some _) n => some n
  | .appendChr _ => some 1
  | .ncpy none _ | .ncat none _ | .truncate _ | .trim _ => none

/-- What an operation that makes room does then. -/
def Op.rest : Op → Hdr → Option Hdr
  | .ncpy (some src) n => ncpyTo src n
  | .ncat (some src) n => ncatTo src n
  | .appendChr c => chrTo c
  | .ncpy none _ | .ncat none _ | .truncate _ | .trim _ => some

theorem Call.asks_some {call : Call} {n : Nat} (hasks : call.op.asks = some n) (M : Mem) (h : Hdr) :
    M.apply call h = M.grow call.junk h n call.op.rest := by
  obtain ⟨junk, op⟩ := call
  match op, hasks with
  | .ncpy (some src) _, rfl => rfl
  | .ncat (some src) _, rfl => rfl
  | .appendChr c, rfl => rfl

theorem Call.asks_none {call : Call} (hasks : call.op.asks = none) (M : Mem) (h : Hdr) :
    M.apply call h = .of (call.apply h) := by
  obtain ⟨junk, op⟩ := call
  match op, hasks with
  | .ncpy none _, _ => rfl
  | .ncat none _, _ => rfl
  | .truncate _, _ => rfl
  | .trim _, _ => rfl

/-- What the caller owes: the bytes of the source, and a position of the string. -/
def Op.Held (len : Nat) : Op → Prop
  | .ncpy (some src) n | .ncat (some src) n => n ≤ src.length
  | .truncate pos => pos ≤ len
  | .ncpy none _ | .ncat none _ | .appendChr _ | .trim _ => True

/-- The call makes the string grow to a size that reaches the top bit, and `realloc` gives what is
    kept of it. -/
def TooLarge (M : Mem) (s : Option Hdr) (call : Call) : Prop :=
  ∃ h n, s = some h ∧ call.op.asks = some n ∧ h.size - h.len - 1 ≤ n ∧
    2 ^ 31 ≤ grownLen h.len n + 1 ∧ M.realloc (reallocBytes (hdrBytes + keptSize h.len n))

theorem memCpy_length {buf src buf' : List UInt8} {i n : Nat}
    (hs : memCpy buf i src n = some buf') : i + n ≤ buf.length := by
  rw [memCpy] at hs
  split at hs
  · rename_i hsrc
    have hlen := store_length hs
    rwa [List.length_take_of_le hsrc] at hlen
  · cases hs

/-- What an operation that asked for room needs, and leaves alone. -/
theorem Op.rest_some {op : Op} {n : Nat} (hasks : op.asks = some n) {d h' : Hdr}
    (hrest : op.rest d = some h') : h'.size = d.size ∧ n ≤ d.data.length := by
  match op, hasks with
  | .ncpy (some src) n, rfl =>
    obtain ⟨b, hb, data, -, rfl⟩ := by
      simpa only [Op.rest, ncpyTo, Option.bind_eq_bind, Option.bind_eq_some_iff,
        Option.some.injEq] using hrest
    exact ⟨rfl, Nat.le_trans (Nat.le_add_left ..) (memCpy_length hb)⟩
  | .ncat (some src) n, rfl =>
    obtain ⟨b, hb, data, -, rfl⟩ := by
      simpa only [Op.rest, ncatTo, Option.bind_eq_bind, Option.bind_eq_some_iff,
        Option.some.injEq] using hrest
    exact ⟨rfl, Nat.le_trans (Nat.le_add_left ..) (memCpy_length hb)⟩
  | .appendChr c, rfl =>
    obtain ⟨b, hb, data, -, rfl⟩ := by
      simpa only [Op.rest, chrTo, Option.bind_eq_bind, Option.bind_eq_some_iff,
        Option.some.injEq] using hrest
    exact ⟨rfl, Nat.le_trans (Nat.le_add_left ..) (store_length hb)⟩

theorem Op.rest_yields {op : Op} {n : Nat} (hasks : op.asks = some n) {h : Hdr} (hv : op.Held h.len)
    {junk : Nat → UInt8} {s : List UInt8} (hens : Ensures h (ensureSize junk h n) s n) :
    ∃ h', op.rest (ensureSize junk h n) = some h' ∧ Rep h' (op.left s) := by
  match op, hasks, hv with
  | .ncpy (some src) n, rfl, hv =>
    obtain ⟨h', heq, hr, -⟩ := inaStrNcpy_yields hens hv
    exact ⟨h', heq, hr⟩
  | .ncat (some src) n, rfl, hv =>
    obtain ⟨h', heq, hr, -⟩ := inaStrNcat_yields hens hv
    exact ⟨h', heq, hr⟩
  | .appendChr c, rfl, _ =>
    obtain ⟨h', heq, hr, -⟩ := inaStrAppendChr_yields hens c
    exact ⟨h', heq, hr⟩

theorem Call.apply_yields_none {call : Call} (hasks : call.op.asks = none) {h : Hdr}
    {s : List UInt8} (hr : Rep h s) (hv : call.op.Held h.len) :
    ∃ h', call.apply h = some h' ∧ Rep h' (call.op.left s) := by
  have hlen := hr.len
  obtain ⟨junk, op⟩ := call
  have hvalid : op.Valid s := by
    match op, hasks, hv with
    | .ncpy none _, _, _ => trivial
    | .ncat none _, _, _ => trivial
    | .truncate _, _, hv => exact Nat.le_trans hv (Nat.le_of_eq hlen)
    | .trim _, _, _ => trivial
  obtain ⟨h', heq, hr', -⟩ := Call.apply_yields hr ⟨junk, op⟩ hvalid
  exact ⟨h', heq, hr'⟩

/-- A call that is not too large ends in order, or with `realloc` refused. -/
theorem Mem.apply_small (M : Mem) {h : Hdr} {s : List UInt8} (hr : Rep h s) {call : Call}
    (hv : call.op.Held h.len) (hno : ¬ TooLarge M (some h) call) :
    M.apply call h = .fault ∨ ∃ h' s', M.apply call h = .str h' ∧ Rep h' s' := by
  cases hasks : call.op.asks with
  | none =>
    obtain ⟨h', heq, hr'⟩ := Call.apply_yields_none hasks hr hv
    refine Or.inr ⟨h', _, ?_, hr'⟩
    rw [Call.asks_none hasks, heq]
    rfl
  | some n =>
    rw [Call.asks_some hasks M h]
    by_cases hsmall : h.size - h.len - 1 > n ∨ grownLen h.len n + 1 < 2 ^ 31
    · rcases M.ensureSize_small hr call.junk hsmall with hnone | hsome
      · exact Or.inl (Mem.grow_none hnone _)
      · obtain ⟨h', heq, hr'⟩ :=
          Op.rest_yields hasks hv (ensureSize_ensures hr call.junk hsmall)
        refine Or.inr ⟨h', _, ?_, hr'⟩
        rw [Mem.grow_some hsome, heq]
        rfl
    · -- it would be too large, so `realloc` refuses
      obtain ⟨hfull, hlarge⟩ := not_or.mp hsmall
      rw [Nat.not_lt] at hfull hlarge
      have hrefused : ¬ M.realloc (reallocBytes (hdrBytes + keptSize h.len n)) = true :=
        fun hgives => hno ⟨h, n, rfl, hasks, hfull, hlarge, hgives⟩
      have hens := M.ensureSize_eq hr call.junk n
      rw [if_neg (Nat.not_lt.mpr hfull), if_neg hrefused] at hens
      exact Or.inl (Mem.grow_none hens _)

/-- A call that is too large writes outside, or leaves a string that counts as pooled. -/
theorem Mem.apply_large (M : Mem) {h : Hdr} {s : List UInt8} (hr : Rep h s) {call : Call}
    (hlarge : TooLarge M (some h) call) : ¬ (M.apply call h).Right := by
  obtain ⟨_, n, hsome, hasks, hfull, hsize, hgives⟩ := hlarge
  obtain rfl := Option.some.inj hsome
  have hens := M.ensureSize_eq hr call.junk n
  rw [if_neg (Nat.not_lt.mpr hfull), if_pos hgives] at hens
  rw [Call.asks_some hasks M h, Mem.grow_some hens]
  generalize hd : Hdr.mk (keptSize h.len n) h.len
    (memRealloc call.junk h.data (keptSize h.len n)) = d
  have hcap : d.data.length = keptSize h.len n := by
    rw [← hd]
    exact memRealloc_length ..
  have hkept : d.size = keptSize h.len n := by rw [← hd]
  cases hrest : call.op.rest d with
  | none => exact id
  | some h' =>
    obtain ⟨hsame, hroom⟩ := Op.rest_some hasks hrest
    rw [hcap] at hroom
    rw [hkept] at hsame
    have hlen : h.len < 2 ^ 31 := by
      have hlt := hr.len_lt
      have hsz := hr.size
      have hszlt := hr.size_lt
      omega
    have hlt := keptSize_lt h.len n
    rintro ⟨-, hfree⟩
    rw [inaStrFree_iff (by rw [hsame]; exact hlt), hsame] at hfree
    -- below 2^32 the top bit is set, and from there on the bytes are too few
    by_cases hwrap : grownLen h.len n + 1 < 2 ^ 32
    · rw [keptSize_eq hwrap] at hfree
      omega
    · have hfew := keptSize_lt_of_wrap hlen (Nat.le_of_not_lt hwrap)
      omega

/-! ## A new string

The sum goes through `ina_str_new` and `ina_mem_alloc_aligned`, and either of them may wrap it. -/

theorem there_of_holds {g : Given} {n : Nat} (hg : g.Holds n) : there g n = n := by
  obtain ⟨hlo, hhi⟩ := hg
  rw [there, if_pos (by omega)]
  omega

/-- Of a size that wraps in `ina_mem_alloc` not even a header is there. -/
theorem there_of_wrap {M : Malloc} {n : Nat} (hn : n < 2 ^ 64) (hwrap : 2 ^ 64 ≤ n + 15) {g : Given}
    (hg : inaMemAlloc M n = some g) : there g n < 8 := by
  have hzero : n ≠ 0 := by omega
  have hbytes : Mempool.mallocBytes 8 n = n + 15 - 2 ^ 64 := by
    rw [Mempool.mallocBytes_eq]
    omega
  rw [inaMemAlloc, Mempool.inaMemAllocAligned, if_neg hzero, if_neg (by decide), hbytes] at hg
  obtain ⟨p, hp, rfl⟩ := Option.map_eq_some_iff.mp hg
  have hfits := M.fits _ p hp
  rw [there]
  dsimp only
  by_cases htop : p + 15 < 2 ^ 64
  · have hlo : p + 8 ≤ subSz (addSz (addSz p 8) 8) 1 &&& (2 ^ 64 - 1 - (8 - 1)) :=
      (Mempool.given_ptr (k := 3) (by decide) htop).1
    split <;> omega
  · -- the pointer wraps, and is not in the block
    have hsum : subSz (addSz (addSz p 8) 8) 1 ≤ 15 := by
      rw [subSz, addSz, addSz]
      omega
    have hptr : subSz (addSz (addSz p 8) 8) 1 &&& (2 ^ 64 - 1 - (8 - 1)) ≤ _ := Nat.and_le_left
    rw [if_neg (by omega)]
    exact Nat.zero_lt_succ _

/-- **The two models agree** where `ina_mem_alloc` gives and the sum does not wrap. -/
theorem Mem.inaStrNew_some {M : Mem} (junk : Nat → UInt8) {len : Nat} (hlen : len + 24 < 2 ^ 64)
    {g : Given} (hg : inaMemAlloc M.malloc (newStrBytes len) = some g) :
    M.inaStrNew junk len = .of (Str.inaStrNew junk len) := by
  have hone : addSz len 1 = len + 1 := Mempool.addSz_of_lt (by omega)
  have hbytes : newStrBytes len = len + 9 := by
    rw [newStrBytes, hone]
    exact Mempool.addSz_of_lt (show len + 1 + 8 < 2 ^ 64 by omega)
  have hthere : there g (newStrBytes len) = len + 9 := by
    rw [there_of_holds (Mempool.inaMemAlloc_holds _ (by omega) hg), hbytes]
  simp only [Mem.inaStrNew, hg, hthere, hone]
  rfl

/-- Where the sum wraps, the header or the first byte is outside. -/
theorem Mem.inaStrNew_wraps {M : Mem} (junk : Nat → UInt8) {len : Nat} (hlen : len < 2 ^ 64)
    (hwrap : 2 ^ 64 ≤ len + 24) {g : Given}
    (hg : inaMemAlloc M.malloc (newStrBytes len) = some g) : M.inaStrNew junk len = .outside := by
  have hfew : there g (newStrBytes len) - hdrBytes = 0 := by
    have hbytes : newStrBytes len = (len + 9) % 2 ^ 64 := by
      rw [newStrBytes, addSz, addSz, hdrBytes]
      omega
    have hlt : newStrBytes len < 2 ^ 64 := Nat.mod_lt _ (Nat.two_pow_pos 64)
    have hhdr : hdrBytes = 8 := rfl
    by_cases htop : 2 ^ 64 ≤ newStrBytes len + 15
    · have hshort := there_of_wrap hlt htop hg
      omega
    · have hle : there g (newStrBytes len) ≤ newStrBytes len := by
        rw [there]
        split <;> omega
      omega
  simp only [Mem.inaStrNew, hg, hfew]
  rfl

/-- **`ina_str_new`** is right when nothing is given, and otherwise below 2^31 bytes. -/
theorem Mem.inaStrNew_right_iff (M : Mem) (junk : Nat → UInt8) {len : Nat} (hlen : len < 2 ^ 64) :
    (M.inaStrNew junk len).Right ↔
      inaMemAlloc M.malloc (newStrBytes len) = none ∨ len + 1 < 2 ^ 31 := by
  cases hg : inaMemAlloc M.malloc (newStrBytes len) with
  | none =>
    have hnull : M.inaStrNew junk len = .null := by simp only [Mem.inaStrNew, hg]
    rw [hnull]
    exact ⟨fun _ => Or.inl rfl, fun _ => trivial⟩
  | some g =>
    have hsome : some g ≠ none := Option.some_ne_none g
    rw [or_iff_right hsome]
    by_cases hwrap : len + 24 < 2 ^ 64
    · rw [Mem.inaStrNew_some junk hwrap hg, inaStrNew_eq, Ends.of, Ends.Right, inaStrSize,
        Nat.and_two_pow_sub_one_eq_mod, inaStrFree_iff (Nat.mod_lt _ (Nat.two_pow_pos 32)),
        List.length_cons, List.length_drop, memAlloc_length]
      dsimp only
      omega
    · rw [Mem.inaStrNew_wraps junk hlen (Nat.le_of_not_lt hwrap) hg]
      exact ⟨False.elim, fun hc => by omega⟩

/-! ## Runs

Up to the first call that is too large all strings are in order, so the condition can be read off
the string that a call meets. -/

/-- There is no string, or one that is in order. -/
def InOrder (s : Option Hdr) : Prop := ∀ h, s = some h → ∃ bs, Rep h bs

theorem Mem.inaStrNew_inOrder (M : Mem) (junk : Nat → UInt8) {len : Nat} (hlen : len + 1 < 2 ^ 31) :
    InOrder (M.inaStrNew junk len).hdr := by
  intro h hh
  cases hg : inaMemAlloc M.malloc (newStrBytes len) with
  | none =>
    simp only [Mem.inaStrNew, hg, Ends.hdr] at hh
    cases hh
  | some g =>
    rw [Mem.inaStrNew_some junk (by omega) hg, inaStrNew_eq] at hh
    obtain rfl := Option.some.inj hh
    refine ⟨[], ⟨⟨_, rfl⟩, rfl, ?_, ?_⟩⟩
    · rw [List.length_cons, List.length_drop, memAlloc_length]
      dsimp only
      omega
    · dsimp only
      omega

/-- What the caller owes in the state the call meets. -/
def CallHeld (s : Option Hdr) (call : Call) : Prop := ∀ h, s = some h → call.op.Held h.len

theorem InOrder.right_iff {M : Mem} {s : Option Hdr} (hs : InOrder s) {call : Call}
    (hv : CallHeld s call) : (M.step s call).1.Right ↔ ¬ TooLarge M s call := by
  cases s with
  | none =>
    refine ⟨fun _ hl => ?_, fun _ => trivial⟩
    obtain ⟨_, _, hsome, _⟩ := hl
    cases hsome
  | some h =>
    obtain ⟨bs, hr⟩ := hs h rfl
    constructor
    · intro hright hl
      exact M.apply_large hr hl hright
    · intro hno
      rw [Mem.step]
      dsimp only
      rcases M.apply_small hr (hv h rfl) hno with heq | ⟨h', s', heq, hr'⟩
      · rw [heq]
        exact trivial
      · rw [heq]
        exact hr'.right

theorem InOrder.step {M : Mem} {s : Option Hdr} (hs : InOrder s) {call : Call}
    (hv : CallHeld s call) (hno : ¬ TooLarge M s call) : InOrder (M.step s call).2 := by
  intro h' hh
  cases s with
  | none => cases hh
  | some h =>
    obtain ⟨bs, hr⟩ := hs h rfl
    rw [Mem.step] at hh
    dsimp only at hh
    rcases M.apply_small hr (hv h rfl) hno with heq | ⟨h'', s', heq, hr'⟩
    · rw [heq] at hh
      cases hh
    · rw [heq] at hh
      obtain rfl := Option.some.inj hh
      exact ⟨s', hr'⟩

/-- **Sizes are right exactly below 2^31.** For every heap and length, and every run of calls after
    `ina_str_new`: each string that is returned has as many bytes as `ina_str_size` says and counts
    as one from the heap, if and only if the first was given nothing or fewer than 2^31 bytes, and
    no call makes a string grow to 2^31 bytes or more. -/
theorem sized_iff_never_too_large (M : Mem) (junk : Nat → UInt8) {len : Nat} (hlen : len < 2 ^ 64)
    {calls : List Call} (hcalls : Along M.step CallHeld (M.inaStrNew junk len).hdr calls) :
    ((M.inaStrNew junk len).Right ∧
      Along M.step (fun s call => (M.step s call).1.Right) (M.inaStrNew junk len).hdr calls) ↔
    ((inaMemAlloc M.malloc (newStrBytes len) = none ∨ len + 1 < 2 ^ 31) ∧
      Never M.step (TooLarge M) (M.inaStrNew junk len).hdr calls) := by
  rw [M.inaStrNew_right_iff junk hlen]
  refine and_congr_right fun hnew => ?_
  have hstart : InOrder (M.inaStrNew junk len).hdr := by
    rcases hnew with hnone | hsmall
    · intro h hh
      simp only [Mem.inaStrNew, hnone, Ends.hdr] at hh
      cases hh
    · exact M.inaStrNew_inOrder junk hsmall
  exact along_iff_never (I := InOrder) (fun _ _ hv hno hs => hs.step hv hno)
    (fun _ _ hv hs => hs.right_iff hv) hcalls hstart

/-- Memory up to four gigabytes, and `realloc` always gives. -/
def Mem.small : Mem := ⟨.small, fun _ => true⟩

/-- A string that grows twice. -/
theorem sized_iff_never_too_large_grown :
    (Mem.small.inaStrNew (fun _ => 7) 1).Right ∧
      Along Mem.small.step (fun s call => (Mem.small.step s call).1.Right)
        (Mem.small.inaStrNew (fun _ => 7) 1).hdr
        [⟨fun _ => 7, .ncat (some [65, 66, 67]) 3⟩, ⟨fun _ => 7, .appendChr 68⟩] := by
  have hnew : (Mem.small.inaStrNew (fun _ => 7) 1).hdr = some ⟨2, 0, [0, 7]⟩ := by decide
  have hcat : (Mem.small.step (some ⟨2, 0, [0, 7]⟩) ⟨fun _ => 7, .ncat (some [65, 66, 67]) 3⟩).2 =
      some ⟨7, 3, [65, 66, 67, 0, 7, 7, 7]⟩ := by decide
  refine (sized_iff_never_too_large Mem.small (fun _ => 7) (by decide) ?_).mpr
    ⟨Or.inr (by decide), ?_, ?_, trivial⟩
  · exact ⟨fun _ _ => Nat.le_refl 3, fun _ _ => trivial, trivial⟩
  · rw [hnew]
    rintro ⟨h, n, hs, hasks, -, hlarge, -⟩
    obtain rfl := Option.some.inj hs
    obtain rfl := Option.some.inj hasks
    exact absurd hlarge (by decide)
  · rw [hnew, hcat]
    rintro ⟨h, n, hs, hasks, -, hlarge, -⟩
    obtain rfl := Option.some.inj hs
    obtain rfl := Option.some.inj hasks
    exact absurd hlarge (by decide)

/-- A string of 2^31 bytes says it has none, and counts as pooled. -/
theorem two_gigabytes_pooled :
    ∃ h, Mem.small.inaStrNew (fun _ => 0) (2 ^ 31 - 1) = .str h ∧
      inaStrSize h = 0 ∧ h.data.length = 2 ^ 31 ∧ inaStrFree h = false ∧
      ¬ (Mem.small.inaStrNew (fun _ => 0) (2 ^ 31 - 1)).Right := by
  have hg : inaMemAlloc Mem.small.malloc (newStrBytes (2 ^ 31 - 1)) =
      some ⟨4096, 2 ^ 31 + 23, 4104⟩ := by decide
  have hstr := Mem.inaStrNew_some (fun _ => 0) (by decide) hg
  rw [inaStrNew_eq, Ends.of] at hstr
  refine ⟨_, hstr, by decide, ?_, by decide, ?_⟩
  · rw [List.length_cons, List.length_drop, memAlloc_length]
    decide
  · rw [hstr]
    intro hright
    exact absurd hright.2 (by decide)

end Str
end Inac
