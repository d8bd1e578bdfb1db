import Inac.Hashtable.Own
import Inac.Process.Fsm

/-!
# Process objects and their recycling (`src/process.c`)

A context allocates process objects from its pool and never gives one back: `ina_process_free` sets
the object's descriptor to `NULL`, and `ina_process_new` looks in the table of all objects for one
without a descriptor. It goes on to the end of the table, clears every such object it meets and
takes the last; the object is then set in the table once more, under the address it has there
already. So the objects in use are those with a descriptor, and the table holds each object once.

Allocation succeeds: `place k` is the address of the `k`-th object the pool hands out. Of what
`struct ina_process_s` holds, only the fields are kept that these functions read or set to more than
zero; the copies of a descriptor's strings are the strings.
-/

namespace Inac
namespace Process
namespace Pool

open Hashtable Lib

/-! ## The code

The table of the context is the hash table of `Inac.Hashtable`, with addresses as keys and as data.
-/

/-- `ina_process_descriptor_t`. -/
structure Descriptor where
  fullPath : Option (List UInt8)
  workingDir : Option (List UInt8)
  startupArgs : Option (List UInt8)
  stopWaitTimeMs : Int
  cf : Nat
  cRef : Nat
  deriving DecidableEq, Repr

/-- `struct ina_process_s`. -/
structure Object where
  init : Bool
  descriptor : Option Descriptor
  status : Status
  exitCode : Int
  deriving DecidableEq, Repr

/-- `ina_mem_set(*process, 0, sizeof(ina_process_t))`. -/
def Object.zero : Object := ⟨false, none, ⟨.start, .startable⟩, 0⟩

/-- `struct ina_process_ctx_s`: the table, the memory behind the addresses, and the number of
    objects allocated from the pool. -/
structure Ctx where
  processes : Table Addr
  objects : Addr → Object
  allocated : Nat

/-- `ina_process_ctx_new`; what stands in the memory is not known. -/
def inaProcessCtxNew (hashFn : HashFn) (memory : Addr → Object) : Except Err Ctx :=
  (inaHashtableNew .ptr hashFn 32 0).map fun processes => ⟨processes, memory, 0⟩

/-- The body of the loop for a recyclable process, on the memory and `*process`. -/
def recycleTurn (s : (Addr → Object) × Option Addr) (p : Addr) :
    (Addr → Object) × Option Addr :=
  if (s.1 p).descriptor = none then (Function.update s.1 p Object.zero, some p) else s

/-- `while (INA_SUCCEED(ina_hashtable_iter_next(iter, (void**)&p)))`, for a number of turns. -/
def recycleLoop (ht : Table Addr) : Nat → Iter → (Addr → Object) × Option Addr →
    Option ((Addr → Object) × Option Addr)
  | 0, _, _ => none
  | turns + 1, iter, s =>
    match inaHashtableIterNext ht iter with
    | (.ok p, iter) => recycleLoop ht turns iter (recycleTurn s p)
    | (.error _, _) => some s

/-- The search for a recyclable process. A table is walked in as many turns as it has data, and one
    that finds the end; there is no result where the loop goes on. -/
def recycle (ctx : Ctx) : Option ((Addr → Object) × Option Addr) :=
  if ctx.processes.count ≠ 0 then
    recycleLoop ctx.processes (ctx.processes.yields.length + 1)
      (inaHashtableIterReset ctx.processes) (ctx.objects, none)
  else some (ctx.objects, none)

/-- The fields that `ina_process_new` sets. -/
def Object.startable (o : Object) (ds : Descriptor) : Object :=
  { o with
    descriptor := some { ds with cRef := 1 }, exitCode := -1, init := true
    status := { o.status with state := .startable } }

/-- `ina_process_new`: what it returns, `*process`, and the context. -/
def inaProcessNew (place : Nat → Addr) (ctx : Ctx) (ds : Descriptor) :
    Option ((Except Err Unit × Option Addr) × Ctx) :=
  if ds.cRef > 0 then some ((.error .descriptorInUse, none), ctx)
  else
    (recycle ctx).map fun (objects, process) =>
      -- if not found, allocate a new one
      let (p, allocated) := match process with
        | some p => (p, ctx.allocated)
        | none => (place ctx.allocated, ctx.allocated + 1)
      ((.ok (), some p),
        { processes := (inaHashtableSet ctx.processes (intKey p) (some p)).2
          objects := Function.update objects p ((objects p).startable ds)
          allocated := allocated })

/-- `ina_process_free`. The descriptor whose `c_ref` goes down belongs to the object alone. -/
def inaProcessFree (ctx : Ctx) (process : Option Addr) : Ctx :=
  match process with
  | none => ctx
  | some p =>
    { ctx with
      objects := Function.update ctx.objects p
        { ctx.objects p with init := true, descriptor := none } }

/-! ## A client

The calls of a client that keeps the pointers it got, and frees an object through one of them.
Nothing keeps it from freeing one twice. -/

/-- A context, and what each call of `ina_process_new` so far has left in `*process`. -/
structure Client where
  ctx : Ctx
  got : List (Option Addr)

/-- A call; an object is freed through a copy of the pointer that call `k` returned. -/
inductive Call where
  | new (ds : Descriptor)
  | free (k : Nat)

inductive Out where
  | new (rc : Except Err Unit) (process : Option Addr)
  | hang
  | freed (process : Option Addr)

def step (place : Nat → Addr) (s : Client) : Call → Out × Client
  | .new ds =>
    match inaProcessNew place s.ctx ds with
    | some ((rc, p), ctx) => (.new rc p, ⟨ctx, s.got ++ [p]⟩)
    | none => (.hang, s)
  | .free k => (.freed (s.got.getD k none), { s with
      ctx := inaProcessFree s.ctx (s.got.getD k none) })

/-- What one call does to the objects in use. -/
def use (held : List Addr) : Out → List Addr
  | .new _ (some p) => p :: held
  | .freed (some p) => held.filter (· ≠ p)
  | _ => held

/-- The objects returned and not freed since, by what the calls returned. -/
def inUse (os : List Out) : List Addr := os.foldl use []

/-- The addresses of the first `k` objects. -/
def issued (place : Nat → Addr) : Nat → List Addr
  | 0 => []
  | k + 1 => place k :: issued place k

/-! ## The search

The iterator yields every object of the table once, so the loop is a fold over them. -/

/-- With turns enough the loop takes its turn on everything the iterator returns. -/
theorem recycleLoop_eq {ht : Table Addr} {iter : Iter} {l : List Addr} (h : Iterates ht iter l) :
    ∀ (turns : Nat) (s : (Addr → Object) × Option Addr), l.length < turns →
      recycleLoop ht turns iter s = some (l.foldl recycleTurn s) := by
  induction h with
  | @done iter hend =>
    intro turns s hturns
    obtain ⟨turns, rfl⟩ : ∃ t, turns = t + 1 := ⟨turns - 1, by omega⟩
    rw [recycleLoop]
    cases hnext : inaHashtableIterNext ht iter with
    | mk rc iter' =>
      rw [hnext] at hend
      cases hend
      rfl
  | @more iter iter' p l hnext _ ih =>
    intro turns s hturns
    obtain ⟨turns, rfl⟩ : ∃ t, turns = t + 1 := ⟨turns - 1, by omega⟩
    rw [recycleLoop, hnext]
    exact ih turns (recycleTurn s p) (Nat.lt_of_succ_lt_succ hturns)

/-- A turn leaves the descriptors as they are: it clears an object that has none. -/
theorem recycleTurn_descriptor (s : (Addr → Object) × Option Addr) (p a : Addr) :
    ((recycleTurn s p).1 a).descriptor = (s.1 a).descriptor := by
  unfold recycleTurn
  by_cases hp : (s.1 p).descriptor = none
  · rw [if_pos hp]
    dsimp only
    by_cases ha : a = p
    · rw [ha, Function.update_self, hp]
      rfl
    · rw [Function.update_of_ne ha]
  · rw [if_neg hp]

theorem recycleFold_descriptor (l : List Addr) (s : (Addr → Object) × Option Addr) (a : Addr) :
    ((l.foldl recycleTurn s).1 a).descriptor = (s.1 a).descriptor := by
  induction l generalizing s with
  | nil => rfl
  | cons p l ih => rw [List.foldl_cons, ih, recycleTurn_descriptor]

/-- An object is taken from those without a descriptor, unless there is none among them. -/
theorem recycleFold_process (l : List Addr) (s : (Addr → Object) × Option Addr) :
    match (l.foldl recycleTurn s).2 with
    | none => s.2 = none ∧ ∀ a ∈ l, (s.1 a).descriptor ≠ none
    | some p => s.2 = some p ∨ p ∈ l ∧ (s.1 p).descriptor = none := by
  induction l generalizing s with
  | nil =>
    rw [List.foldl_nil]
    cases hs : s.2 with
    | none => exact ⟨rfl, fun a ha => absurd ha List.not_mem_nil⟩
    | some p => exact .inl rfl
  | cons q l ih =>
    rw [List.foldl_cons]
    have hrest := ih (recycleTurn s q)
    have hdesc := recycleTurn_descriptor s q
    -- The object at hand is recyclable, and taken until a later one is; or it is passed over.
    by_cases hq : (s.1 q).descriptor = none
    · have hprocess : (recycleTurn s q).2 = some q := by rw [recycleTurn, if_pos hq]
      cases hfold : (l.foldl recycleTurn (recycleTurn s q)).2 with
      | none =>
        rw [hfold] at hrest
        rw [hprocess] at hrest
        exact nomatch hrest.1
      | some p =>
        rw [hfold] at hrest
        rcases hrest with hp | ⟨hp, hnone⟩
        · rw [hprocess] at hp
          rw [← Option.some.inj hp]
          exact .inr ⟨List.mem_cons_self, hq⟩
        · rw [hdesc] at hnone
          exact .inr ⟨List.mem_cons_of_mem q hp, hnone⟩
    · have hsame : recycleTurn s q = s := by rw [recycleTurn, if_neg hq]
      rw [hsame] at hrest ⊢
      cases hfold : (l.foldl recycleTurn s).2 with
      | none =>
        rw [hfold] at hrest
        exact ⟨hrest.1, List.forall_mem_cons.mpr ⟨hq, hrest.2⟩⟩
      | some p =>
        rw [hfold] at hrest
        exact hrest.imp_right fun h => ⟨List.mem_cons_of_mem q h.1, h.2⟩

/-! ## The invariant

`Right` says how the table, the descriptors and the objects in use go together. Both calls keep it.
-/

theorem mem_issued {place : Nat → Addr} {k : Nat} {a : Addr} :
    a ∈ issued place k ↔ ∃ i < k, place i = a := by
  induction k with
  | zero => simp [issued]
  | succ k ih =>
    rw [issued, List.mem_cons, ih]
    constructor
    · rintro (rfl | ⟨i, hi, rfl⟩)
      · exact ⟨k, Nat.lt_succ_self k, rfl⟩
      · exact ⟨i, Nat.lt_succ_of_lt hi, rfl⟩
    · rintro ⟨i, hi, rfl⟩
      rcases Nat.lt_succ_iff_lt_or_eq.mp hi with hi | rfl
      · exact .inr ⟨i, hi, rfl⟩
      · exact .inl rfl

theorem length_issued (place : Nat → Addr) (k : Nat) : (issued place k).length = k := by
  induction k with
  | zero => rfl
  | succ k ih => rw [issued, List.length_cons, ih]

/-- The first `n + 1` objects have addresses of their own, and no low word of them is zero. -/
structure Places (place : Nat → Addr) (n : Nat) : Prop where
  inj : Set.InjOn place {i | i ≤ n}
  low : ∀ i ≤ n, (place i).toNat % 2 ^ 32 ≠ 0

theorem Places.fresh {place : Nat → Addr} {n k : Nat} (h : Places place n) (hk : k ≤ n) :
    place k ∉ issued place k := by
  intro hmem
  obtain ⟨i, hi, heq⟩ := mem_issued.mp hmem
  have hik : i = k := h.inj (show i ≤ n by omega) hk heq
  omega

theorem Places.nodup {place : Nat → Addr} {n k : Nat} (h : Places place n) (hk : k ≤ n + 1) :
    (issued place k).Nodup := by
  induction k with
  | zero => exact List.nodup_nil
  | succ k ih =>
    exact List.nodup_cons.mpr ⟨h.fresh (Nat.le_of_succ_le_succ hk), ih (Nat.le_of_succ_le hk)⟩

/-- The table holds the objects allocated, and those in use are the ones with a descriptor. -/
structure Right (place : Nat → Addr) (ctx : Ctx) (held : List Addr) : Prop where
  table : ctx.processes.Owns (issued place ctx.allocated)
  held_iff : ∀ a, a ∈ held ↔
    a ∈ issued place ctx.allocated ∧ (ctx.objects a).descriptor ≠ none
  nodup : held.Nodup

section Calls

variable {place : Nat → Addr} {ctx : Ctx} {held : List Addr} {n : Nat}

/-- The search comes to an end, and finds an object without a descriptor if there is one. -/
theorem Right.recycle (h : Right place ctx held) :
    ∃ objects process, Pool.recycle ctx = some (objects, process) ∧
      (∀ a, (objects a).descriptor = (ctx.objects a).descriptor) ∧
      match process with
      | none => ∀ a ∈ issued place ctx.allocated, (ctx.objects a).descriptor ≠ none
      | some p => p ∈ issued place ctx.allocated ∧ (ctx.objects p).descriptor = none := by
  unfold Pool.recycle
  by_cases hcount : ctx.processes.count ≠ 0
  · rw [if_pos hcount,
      recycleLoop_eq h.table.ok.iterates _ _ (Nat.lt_succ_self _)]
    refine ⟨_, _, rfl, recycleFold_descriptor _ _, ?_⟩
    have hfold := recycleFold_process ctx.processes.yields (ctx.objects, none)
    cases hprocess : (ctx.processes.yields.foldl recycleTurn (ctx.objects, none)).2 with
    | none =>
      rw [hprocess] at hfold
      exact fun a ha => hfold.2 a (h.table.yields.mem_iff.mpr ha)
    | some p =>
      rw [hprocess] at hfold
      rcases hfold with hp | ⟨hp, hnone⟩
      · exact nomatch hp
      · exact ⟨h.table.yields.mem_iff.mp hp, hnone⟩
  · rw [if_neg hcount]
    refine ⟨_, _, rfl, fun a => rfl, fun a ha => ?_⟩
    have hzero : ctx.allocated = 0 := by
      have hlen := h.table.count
      rw [not_not.mp hcount, length_issued] at hlen
      exact Int.ofNat.inj hlen.symm
    rw [hzero] at ha
    exact absurd ha List.not_mem_nil

theorem Right.mem_of_mem {a : Addr} (h : Right place ctx held) (ha : a ∈ held) :
    a ∈ issued place ctx.allocated := ((h.held_iff a).mp ha).1

/-- Object `p` is given out: it was not in use, and it stands in the table. -/
theorem Right.give {p : Addr} {allocated : Nat} {objects : Addr → Object} {ds : Descriptor}
    {processes : Table Addr} (h : Right place ctx held)
    (htable : processes.Owns (issued place allocated))
    (hissued : ∀ a, a ∈ issued place allocated ↔ a = p ∨ a ∈ issued place ctx.allocated)
    (hp : p ∉ held)
    (hobjects : ∀ a, (objects a).descriptor = (ctx.objects a).descriptor) :
    Right place
      ⟨processes, Function.update objects p ((objects p).startable ds), allocated⟩
      (p :: held) where
  table := htable
  held_iff := by
    intro a
    dsimp only
    rw [List.mem_cons, hissued]
    by_cases ha : a = p
    · rw [ha, Function.update_self]
      exact ⟨fun _ => ⟨.inl rfl, nofun⟩, fun _ => .inl rfl⟩
    · rw [Function.update_of_ne ha, hobjects, h.held_iff]
      simp only [ha, false_or]
  nodup := List.nodup_cons.mpr ⟨hp, h.nodup⟩

/-- **One call of `ina_process_new`.** -/
theorem Right.new (hplaces : Places place n) (h : Right place ctx held)
    (hle : ctx.allocated ≤ n) {ds : Descriptor} (hds : ds.cRef = 0) :
    ∃ p ctx', inaProcessNew place ctx ds = some ((.ok (), some p), ctx') ∧ p ∉ held ∧
      Right place ctx' (p :: held) ∧ ctx.allocated ≤ ctx'.allocated ∧
      ctx'.allocated ≤ ctx.allocated + 1 ∧
      (ctx'.allocated ≠ ctx.allocated → ∀ a ∈ issued place ctx.allocated, a ∈ held) := by
  obtain ⟨objects, process, hrecycle, hobjects, hprocess⟩ := h.recycle
  have hcref : ¬ ds.cRef > 0 := by rw [hds]; exact Nat.lt_irrefl 0
  rw [inaProcessNew, if_neg hcref, hrecycle, Option.map_some]
  -- An object was found, and the table has it already; or the pool gives the next one, which is new
  -- to the table.
  cases process with
  | some p =>
    obtain ⟨hp, hnone⟩ := hprocess
    obtain ⟨i, hi, hplace⟩ := mem_issued.mp hp
    have hlow : p.toNat % 2 ^ 32 ≠ 0 := by
      rw [← hplace]
      exact hplaces.low i (by omega)
    have htable := h.table.set hlow
    rw [if_pos hp] at htable
    have hfree : p ∉ held := fun hheld => ((h.held_iff p).mp hheld).2 hnone
    refine ⟨p, _, rfl, hfree, h.give htable (fun a => ?_) hfree hobjects, Nat.le_refl _,
      Nat.le_succ _, fun hne => absurd rfl hne⟩
    exact ⟨.inr, fun ha => ha.elim (fun heq => heq ▸ hp) id⟩
  | none =>
    have hfresh := hplaces.fresh hle
    have htable := h.table.set (hplaces.low _ hle)
    rw [if_neg hfresh] at htable
    have hfree : place ctx.allocated ∉ held := fun hheld => hfresh (h.mem_of_mem hheld)
    exact ⟨_, _, rfl, hfree, h.give htable (fun a => List.mem_cons) hfree hobjects,
      Nat.le_succ _, Nat.le_refl _, fun _ a ha => (h.held_iff a).mpr ⟨ha, hprocess a ha⟩⟩

/-- **One call of `ina_process_free`.** -/
theorem Right.free (h : Right place ctx held) (process : Option Addr) :
    Right place (inaProcessFree ctx process) (use held (.freed process)) := by
  cases process with
  | none => exact h
  | some p =>
    refine ⟨h.table, fun a => ?_, h.nodup.filter _⟩
    rw [use, List.mem_filter, h.held_iff]
    dsimp only [inaProcessFree]
    by_cases ha : a = p
    · rw [ha, Function.update_self]
      simp
    · rw [Function.update_of_ne ha]
      simp [ha]

end Calls

/-! ## Runs

By induction on the calls, with the objects in use as the calls so far have told them. -/

theorem inUse_concat (os : List Out) (o : Out) : inUse (os ++ [o]) = use (inUse os) o := by
  rw [inUse, List.foldl_append]
  rfl

theorem Right.ctxNew {hashFn : HashFn} {memory : Addr → Object} {ctx : Ctx} (place : Nat → Addr)
    (hnew : inaProcessCtxNew hashFn memory = .ok ctx) :
    Right place ctx [] ∧ ctx.allocated = 0 := by
  unfold inaProcessCtxNew at hnew
  cases htable : (inaHashtableNew .ptr hashFn 32 0 : Except Err (Table Addr)) with
  | error e =>
    rw [htable] at hnew
    exact nomatch hnew
  | ok ht =>
    rw [htable] at hnew
    obtain rfl := Except.ok.inj hnew
    exact ⟨⟨Table.Owns.new htable, fun a => by simp [issued], List.nodup_nil⟩, rfl⟩

/-- One call keeps the invariant, and allocates one object at most. -/
theorem Right.step {place : Nat → Addr} {n : Nat} (hplaces : Places place n) {s : Client}
    {held : List Addr} (h : Right place s.ctx held) (hle : s.ctx.allocated ≤ n) (c : Call) :
    Right place (Pool.step place s c).2.ctx (use held (Pool.step place s c).1) ∧
      (Pool.step place s c).2.ctx.allocated ≤ s.ctx.allocated + 1 := by
  cases c with
  | new ds =>
    by_cases hds : ds.cRef = 0
    · obtain ⟨p, ctx', hcall, -, hright, -, hmore, -⟩ := h.new hplaces hle hds
      simp only [Pool.step, hcall]
      exact ⟨hright, hmore⟩
    · have hcall : inaProcessNew place s.ctx ds =
          some ((.error .descriptorInUse, none), s.ctx) := if_pos (Nat.pos_of_ne_zero hds)
      simp only [Pool.step, hcall]
      exact ⟨h, Nat.le_succ _⟩
  | free k =>
    refine ⟨h.free _, ?_⟩
    show (inaProcessFree s.ctx (s.got.getD k none)).allocated ≤ _
    cases s.got.getD k none with
    | none => exact Nat.le_succ _
    | some p => exact Nat.le_succ _

theorem right_exec {hashFn : HashFn} {memory : Addr → Object} {place : Nat → Addr} {ctx₀ : Ctx}
    (hnew : inaProcessCtxNew hashFn memory = .ok ctx₀) (calls : List Call)
    (hplaces : Places place calls.length) :
    Right place (exec (step place) ⟨ctx₀, []⟩ calls).ctx
        (inUse (outs (step place) ⟨ctx₀, []⟩ calls)) ∧
      (exec (step place) ⟨ctx₀, []⟩ calls).ctx.allocated ≤ calls.length := by
  -- as many objects as calls so far, so that the next one has a fresh address
  let I : List Out → Client → Prop := fun os s => os.length ≤ calls.length →
    Right place s.ctx (inUse os) ∧ s.ctx.allocated ≤ os.length
  have hstep : ∀ os s c, I os s → I (os ++ [(step place s c).1]) (step place s c).2 := by
    intro os s c h hlen
    rw [List.length_append, List.length_singleton] at hlen ⊢
    obtain ⟨hright, hle⟩ := h (by omega)
    obtain ⟨hnext, hmore⟩ := hright.step hplaces (by omega) c
    rw [inUse_concat]
    exact ⟨hnext, by omega⟩
  have hstart : I [] ⟨ctx₀, []⟩ := fun _ =>
    ⟨(Right.ctxNew place hnew).1, Nat.le_of_eq (Right.ctxNew place hnew).2⟩
  have hrun : I ([] ++ outs (step place) ⟨ctx₀, []⟩ calls)
      (exec (step place) ⟨ctx₀, []⟩ calls) := exec_history hstep hstart
  rw [List.nil_append] at hrun
  have hlen := length_outs (step place) ⟨ctx₀, []⟩ calls
  obtain ⟨hright, hle⟩ := hrun (Nat.le_of_eq hlen)
  exact ⟨hright, hlen ▸ hle⟩

/-- **A process object is given to one user at a time.** After any calls the objects in use are
    distinct, and every object allocated stands in the table once, under its own address. A further
    `ina_process_new` returns, with an object that is not in use unless the descriptor is; and it
    allocates one only when all the others are in use. -/
theorem pool_right (hashFn : HashFn) (memory : Addr → Object) (place : Nat → Addr) (ctx₀ : Ctx)
    (hnew : inaProcessCtxNew hashFn memory = .ok ctx₀) (calls : List Call)
    (hplaces : Places place calls.length) :
    let ctx := (exec (step place) ⟨ctx₀, []⟩ calls).ctx
    let held := inUse (outs (step place) ⟨ctx₀, []⟩ calls)
    held.Nodup ∧
    (∀ a, ctx.processes.yields.count a = if a ∈ issued place ctx.allocated then 1 else 0) ∧
    (∀ a ∈ issued place ctx.allocated, inaHashtableGet ctx.processes (intKey a) = .ok a) ∧
    ∀ ds, ∃ rc process ctx', inaProcessNew place ctx ds = some ((rc, process), ctx') ∧
      (rc = .ok () ↔ ds.cRef = 0) ∧ (process.isSome ↔ ds.cRef = 0) ∧
      (∀ p, process = some p → p ∉ held) ∧
      (ctx'.allocated ≠ ctx.allocated → ∀ a ∈ issued place ctx.allocated, a ∈ held) := by
  intro ctx held
  obtain ⟨h, hle⟩ := right_exec hnew calls hplaces
  have hnodup : ctx.processes.yields.Nodup :=
    h.table.yields.nodup_iff.mpr (hplaces.nodup (Nat.le_succ_of_le hle))
  refine ⟨h.nodup, fun a => ?_, fun a ha => h.table.get ha, fun ds => ?_⟩
  · rw [h.table.yields.count_eq]
    by_cases ha : a ∈ issued place ctx.allocated
    · rw [if_pos ha]
      exact List.count_eq_one_of_mem (h.table.yields.nodup_iff.mp hnodup) ha
    · rw [if_neg ha]
      exact List.count_eq_zero_of_not_mem ha
  · by_cases hds : ds.cRef = 0
    · obtain ⟨p, ctx', hcall, hp, -, -, -, hfull⟩ := h.new hplaces hle hds
      refine ⟨_, _, ctx', hcall, by simp [hds], by simp [hds], fun q hq => ?_, hfull⟩
      rw [← Option.some.inj hq]
      exact hp
    · refine ⟨_, _, ctx, if_pos (Nat.pos_of_ne_zero hds), by simp [hds], by simp [hds], nofun, ?_⟩
      intro hne
      exact absurd rfl hne

/-- A descriptor as `ina_process_exec` makes it. -/
def sleepDescriptor : Descriptor := ⟨some [115, 108, 101, 101, 112], none, some [49], 20, 0, 0⟩

/-- Objects 64 bytes apart, as many as a run of four calls can take. -/
def spaced (k : Nat) : Addr := BitVec.ofNat 64 (64 * k + 64)

theorem spaced_places : Places spaced 4 where
  inj := by
    intro i hi j hj heq
    have hnat := congrArg BitVec.toNat heq
    have hi4 : i ≤ 4 := hi
    have hj4 : j ≤ 4 := hj
    rw [spaced, spaced, BitVec.toNat_ofNat, BitVec.toNat_ofNat, Nat.mod_eq_of_lt (by omega),
      Nat.mod_eq_of_lt (by omega)] at hnat
    omega
  low := by
    intro i hi
    rw [spaced, BitVec.toNat_ofNat, Nat.mod_eq_of_lt (by omega)]
    omega

/-- Of two objects the first is freed, and the third call takes it. -/
theorem pool_right_two :
    ∃ ctx₀ : Ctx, inaProcessCtxNew (.hash64 fun _ _ => 0) (fun _ => Object.zero) = .ok ctx₀ ∧
      let calls : List Call :=
        [.new sleepDescriptor, .new sleepDescriptor, .free 0, .new sleepDescriptor]
      inUse (outs (step spaced) ⟨ctx₀, []⟩ calls) = [spaced 0, spaced 1] ∧
      ∀ a, (exec (step spaced) ⟨ctx₀, []⟩ calls).ctx.processes.yields.count a =
        if a ∈ issued spaced (exec (step spaced) ⟨ctx₀, []⟩ calls).ctx.allocated then 1 else 0 := by
  refine ⟨_, rfl, ?_, ?_⟩
  · decide +kernel
  · exact (pool_right (.hash64 fun _ _ => 0) (fun _ => Object.zero) spaced _ rfl
      [.new sleepDescriptor, .new sleepDescriptor, .free 0, .new sleepDescriptor]
      spaced_places).2.1

end Pool
end Process
end Inac
