import Inac.Hashtable.Iter
import Inac.Cron.Reading

/-!
# The events of a context

`ina_cron_event_new` looks its id up in the table of the context, and if there is no event with this
id it makes one and returns it. It does not put the new event into the table, and does not set its
`ctx`. Nothing else does, so the table stays as `ina_cron_ctx_new` made it: no id is ever found, the
iterator has nothing to return, and `ina_cron_event_free` takes no event out.

An event is an address in a list of all events ever made, where a freed one leaves `none`. `rc` is
the last error of the thread, which `ina_err_get_rc` returns. Assertions are compiled out, as in a
release build; with them `ina_cron_event_free` aborts for every event that is not running.
-/

namespace Inac
namespace Cron

open Lib

/-- `struct ina_cron_event_s` with the fields that making and freeing an event read and set; `ctx`
    is whether the pointer is set. -/
structure Record extends Event where
  ctx : Bool
  destroy : Bool
  id : List UInt8
  pattern : List Char

/-- `struct ina_cron_ctx_s` as far as its events go. -/
structure Registry where
  events : Hashtable.Table Nat
  heap : List (Option Record)
  rc : Option Err

/-- `ina_cron_ctx_new`, with the hash function and the last error of the thread. -/
def inaCronCtxNew (hashFn : Hashtable.HashFn) (rc : Option Err) : Except Err Registry := do
  -- `INA_HASHTABLE_DEFAULT_CAPACITY`, `INA_HASHTABLE_CF_DEFAULT`
  let events ← Hashtable.inaHashtableNew .str hashFn 32 0
  .ok { events := events, heap := [], rc := rc }

/-- What a call returns, and what it stores in `*event`. -/
abbrev Out := Except Fail Unit × Option Nat

def inaCronEventNew (s : Registry) (id : List UInt8) (pattern : List Char) (cf : BitVec 32) :
    Out × Registry :=
  if id.takeWhile (· ≠ 0) = [] then
    ((.error (.rc .invalidArgument), none), { s with rc := some .invalidArgument })
  else
    match Hashtable.inaHashtableGetStr s.events id with
    | .ok a =>
      -- `INA_RETURN_IF_SUCCEED` returns the last error
      ((match s.rc with | none => .ok () | some e => .error (.rc e), some a), s)
    | .error e =>
      match parsePattern pattern .zero with
      | .ok tt =>
        let r : Record :=
          { cf := cf, key := 0, pushCb := false, ready := false, canPull := false, tt := tt,
            ctx := false, destroy := false, id := id, pattern := pattern }
        ((.ok (), some s.heap.length), { s with heap := s.heap ++ [some r], rc := some e })
      | .error (.rc e) =>
        ((.error (.rc e), none), { s with heap := s.heap ++ [none], rc := some e })
      | .error .fault =>
        ((.error .fault, none), { s with heap := s.heap ++ [none], rc := some e })

def inaCronEventFree (s : Registry) (a : Nat) : Out × Registry :=
  match s.heap.getD a none with
  | none => ((.ok (), none), s)
  | some r =>
    if r.ctx && !r.destroy then
      -- `remove_str` is given the pointer variable itself to store into, and what is freed then
      -- is not the event
      ((.error .fault, none),
        { s with events := (Hashtable.inaHashtableRemoveStr s.events r.id).2 })
    else ((.ok (), none), { s with heap := s.heap.set a none })

def inaCronEventById (s : Registry) (id : List UInt8) : Out × Registry :=
  match Hashtable.inaHashtableGetStr s.events id with
  | .ok a => ((.ok (), some a), s)
  | .error e => ((.error (.rc e), none), { s with rc := some e })

/-- What `ina_cron_event_iter_next` returns after `ina_cron_event_iter_new`, until the end. -/
def Registry.Iterates (s : Registry) (l : List Nat) : Prop :=
  Hashtable.Iterates s.events (Hashtable.inaHashtableIterReset s.events) l

/-- A call that is made in a context. -/
inductive EventOp where
  | new (id : List UInt8) (pattern : List Char) (cf : BitVec 32)
  | free (a : Nat)
  | byId (id : List UInt8)

def eventStep (s : Registry) : EventOp → Out × Registry
  | .new id pattern cf => inaCronEventNew s id pattern cf
  | .free a => inaCronEventFree s a
  | .byId id => inaCronEventById s id

/-! ## What the table is for

Stated for any call, in terms of what a caller sees: the lookup, the second creation, and the
iterator. -/

/-- There is an event at this address. -/
def Registry.Live (s : Registry) (a : Nat) (r : Record) : Prop := s.heap[a]? = some (some r)

/-- The iterator returns one event for each id that an event has. -/
def IterRight (s : Registry) : Prop :=
  ∃ l, s.Iterates l ∧ l.Nodup ∧ (∀ a ∈ l, ∃ r, s.Live a r) ∧
    ∀ a r, s.Live a r → ∃! a', a' ∈ l ∧ ∃ r', s.Live a' r' ∧ r'.id = r.id

/-- After a call of `ina_cron_event_new` that succeeds, the event is found by its id, and another
    call with the id returns it. After every call, the iterator is right. -/
def Registered (s : Registry) (op : EventOp) : Prop :=
  (∀ id pattern cf a, op = .new id pattern cf → (eventStep s op).1 = (.ok (), some a) →
    (inaCronEventById (eventStep s op).2 id).1 = (.ok (), some a) ∧
    ∀ pattern' cf', (inaCronEventNew (eventStep s op).2 id pattern' cf').1 = (.ok (), some a)) ∧
  IterRight (eventStep s op).2

/-- The call makes an event: it has an id, and its pattern is accepted. -/
def EventOp.Creates : EventOp → Prop
  | .new id pattern _ => id.takeWhile (· ≠ 0) ≠ [] ∧ ∃ tt, parsePattern pattern .zero = .ok tt
  | _ => False

/-! ## The table stays empty

There is no call that writes to it, so this is an invariant of every run. -/

/-- The table has nothing, and no event knows its context. -/
structure Detached (s : Registry) : Prop where
  missing : ∀ id, Hashtable.inaHashtableGetStr s.events id = .error .notFound
  empty : s.Iterates []
  ctx : ∀ a r, s.Live a r → r.ctx = false

theorem detached_new {hashFn : Hashtable.HashFn} {rc : Option Err} {s : Registry}
    (h : inaCronCtxNew hashFn rc = .ok s) : Detached s ∧ ∀ a r, ¬ s.Live a r := by
  unfold inaCronCtxNew at h
  cases hnew : (Hashtable.inaHashtableNew .str hashFn 32 0 : Except Err (Hashtable.Table Nat)) with
  | error e => rw [hnew] at h; cases h
  | ok ht =>
    rw [hnew] at h
    cases h
    have hnone : ∀ a r, ¬ Registry.Live ⟨ht, [], rc⟩ a r := by
      intro a r hlive
      cases hlive
    refine ⟨⟨fun id => ?_, ?_, fun a r hlive => absurd hlive (hnone a r)⟩, hnone⟩
    · rw [Hashtable.inaHashtableGetStr, Hashtable.inaHashtableGet_read,
        Hashtable.Table.read_new hnew]
      rfl
    · have hall := (Hashtable.Table.Ok.new hnew).iterates
      rw [Hashtable.Table.yields_new hnew] at hall
      exact hall

theorem Registry.live_append {s : Registry} {x : Option Record} {rc : Option Err} {a : Nat}
    {r : Record} (h : Registry.Live { s with heap := s.heap ++ [x], rc := rc } a r) :
    s.Live a r ∨ x = some r := by
  unfold Registry.Live at h ⊢
  rcases Nat.lt_or_ge a s.heap.length with hlt | hge
  · exact .inl (by rwa [List.getElem?_append_left hlt] at h)
  · rw [List.getElem?_append_right hge] at h
    exact .inr (List.mem_singleton.mp (List.mem_of_getElem? h)).symm

theorem Registry.live_set {s : Registry} {a b : Nat} {r : Record}
    (h : Registry.Live { s with heap := s.heap.set a none } b r) : s.Live b r := by
  unfold Registry.Live at h ⊢
  rw [List.getElem?_set] at h
  by_cases hab : a = b
  · rw [if_pos hab] at h
    split at h <;> cases h
  · rwa [if_neg hab] at h

section

variable {s : Registry} (h : Detached s)

include h

theorem eventNew_ok {id : List UInt8} {pattern : List Char} {cf : BitVec 32}
    (hmakes : EventOp.Creates (.new id pattern cf)) :
    ∃ r : Record, r.ctx = false ∧ inaCronEventNew s id pattern cf =
      ((.ok (), some s.heap.length),
        { s with heap := s.heap ++ [some r], rc := some .notFound }) := by
  obtain ⟨hid, tt, hok⟩ := hmakes
  rw [inaCronEventNew, if_neg hid, h.missing, hok]
  exact ⟨_, rfl, rfl⟩

theorem eventNew_error {id : List UInt8} {pattern : List Char} {cf : BitVec 32}
    (hno : ¬ EventOp.Creates (.new id pattern cf)) :
    ∃ e heap rc, (heap = s.heap ∨ heap = s.heap ++ [none]) ∧
      inaCronEventNew s id pattern cf =
        ((.error e, none), { s with heap := heap, rc := rc }) := by
  rw [inaCronEventNew]
  by_cases hid : id.takeWhile (· ≠ 0) = []
  · rw [if_pos hid]
    exact ⟨_, s.heap, _, .inl rfl, rfl⟩
  · rw [if_neg hid, h.missing]
    cases hparse : parsePattern pattern .zero with
    | ok tt => exact absurd ⟨hid, tt, hparse⟩ hno
    | error f =>
      cases f with
      | rc e => exact ⟨_, _, _, .inr rfl, rfl⟩
      | fault => exact ⟨_, _, _, .inr rfl, rfl⟩

theorem eventFree_eq (a : Nat) :
    ∃ heap, (heap = s.heap ∨ heap = s.heap.set a none) ∧
      (inaCronEventFree s a).2 = { s with heap := heap } := by
  rw [inaCronEventFree]
  cases hget : s.heap.getD a none with
  | none => exact ⟨s.heap, .inl rfl, rfl⟩
  | some r =>
    have hlive : s.Live a r := by
      rw [List.getD_eq_getElem?_getD] at hget
      cases hnode : s.heap[a]? with
      | none => rw [hnode] at hget; cases hget
      | some x => rw [hnode] at hget; rw [Registry.Live, hnode]; exact congrArg some hget
    have hctx : (r.ctx && !r.destroy) = false := by rw [h.ctx a r hlive, Bool.false_and]
    dsimp only
    rw [hctx]
    exact ⟨_, .inr rfl, rfl⟩

/-- **One call** leaves the table as it is, and an event is new only if the call makes one. -/
theorem eventStep_spec (op : EventOp) :
    (eventStep s op).2.events = s.events ∧
      ∀ a r, (eventStep s op).2.Live a r → s.Live a r ∨ op.Creates ∧ r.ctx = false := by
  cases op with
  | new id pattern cf =>
    rw [eventStep]
    -- Only this call makes an event, which has no context.
    by_cases hmakes : EventOp.Creates (.new id pattern cf)
    · obtain ⟨r, hctx, hstep⟩ := eventNew_ok h hmakes
      rw [hstep]
      constructor
      · rfl
      · intro a r' hlive
        rcases Registry.live_append hlive with hlive | hnew
        · exact .inl hlive
        · cases hnew
          exact .inr ⟨hmakes, hctx⟩
    · obtain ⟨e, heap, rc, hheap, hstep⟩ := eventNew_error h hmakes
      rw [hstep]
      constructor
      · rfl
      · intro a r' hlive
        rcases hheap with rfl | rfl
        · exact .inl hlive
        · exact .inl ((Registry.live_append hlive).resolve_right (by simp))
  | free a =>
    obtain ⟨heap, hheap, hstep⟩ := eventFree_eq h a
    rw [eventStep, hstep]
    constructor
    · rfl
    · intro b r hlive
      rcases hheap with rfl | rfl
      · exact .inl hlive
      · exact .inl (Registry.live_set hlive)
  | byId id =>
    rw [eventStep, inaCronEventById, h.missing]
    exact ⟨rfl, fun a r hlive => .inl hlive⟩

/-- Every call keeps the table empty. -/
theorem Detached.step (op : EventOp) : Detached (eventStep s op).2 := by
  obtain ⟨hevents, hlive⟩ := eventStep_spec h op
  refine ⟨by rw [hevents]; exact h.missing, ?_, fun a r hr => ?_⟩
  · rw [Registry.Iterates, hevents]
    exact h.empty
  · rcases hlive a r hr with hold | ⟨-, hctx⟩
    · exact h.ctx a r hold
    · exact hctx

end

/-! ## When the events are registered

Up to the first call that makes an event there is none, and an empty table is right. The call that
makes one breaks all three parts. -/

/-- A call registers its event exactly if it does not make one. -/
theorem registered_iff {s : Registry} (h : Detached s) (hnone : ∀ a r, ¬ s.Live a r)
    (op : EventOp) : Registered s op ↔ ¬ op.Creates := by
  have hdet := Detached.step h op
  constructor
  · intro hreg hmakes
    cases op with
    | free a => exact hmakes
    | byId id => exact hmakes
    | new id pattern cf =>
      obtain ⟨r, -, hstep⟩ := eventNew_ok h hmakes
      have hout : (eventStep s (.new id pattern cf)).1 = (.ok (), some s.heap.length) := by
        rw [eventStep, hstep]
      have hfound := (hreg.1 id pattern cf _ rfl hout).1
      rw [inaCronEventById, hdet.missing] at hfound
      cases hfound
  · intro hno
    refine ⟨fun id pattern cf a hop hout => ?_, [], hdet.empty, List.nodup_nil, by simp, ?_⟩
    · subst hop
      obtain ⟨e, heap, rc, -, hstep⟩ := eventNew_error h hno
      rw [eventStep, hstep] at hout
      cases hout
    · intro a r hlive
      rcases (eventStep_spec h op).2 a r hlive with hold | ⟨hmakes, -⟩
      · exact absurd hold (hnone a r)
      · exact absurd hmakes hno

/-- **When the events of a context are registered**: in the runs in which none is made. -/
theorem registered_run_iff (hashFn : Hashtable.HashFn) (rc : Option Err) (s : Registry)
    (h : inaCronCtxNew hashFn rc = .ok s) (ops : List EventOp) :
    Along eventStep Registered s ops ↔ ∀ op ∈ ops, ¬ op.Creates := by
  obtain ⟨hdet, hnone⟩ := detached_new h
  have hall : Along eventStep (fun _ _ => True) s ops :=
    along_of_invariant (I := fun _ => True) (fun _ _ _ => ⟨trivial, trivial⟩) trivial
  have hinv : ∀ (s : Registry) (op : EventOp), True → ¬ op.Creates →
      (Detached s ∧ ∀ a r, ¬ s.Live a r) →
      Detached (eventStep s op).2 ∧ ∀ a r, ¬ (eventStep s op).2.Live a r := by
    rintro s op - hno ⟨hdet, hnone⟩
    constructor
    · exact Detached.step hdet op
    · intro a r hlive
      rcases (eventStep_spec hdet op).2 a r hlive with hold | ⟨hmakes, -⟩
      · exact hnone a r hold
      · exact hno hmakes
  rw [along_iff_never hinv (fun s op _ hs => registered_iff hs.1 hs.2 op) hall ⟨hdet, hnone⟩]
  exact never_iff_forall

/-- A context in which an id is looked up and a call without an id is refused. -/
theorem registered_run_iff_refused :
    ∃ s, inaCronCtxNew (.hash32 fun _ _ => 0) none = .ok s ∧
      Along eventStep Registered s [.byId [116, 49], .new [] ['*'] 0] := by
  obtain ⟨s, hs⟩ : ∃ s, inaCronCtxNew (.hash32 fun _ _ => 0) none = .ok s := ⟨_, rfl⟩
  refine ⟨s, hs, (registered_run_iff _ _ s hs _).mpr ?_⟩
  intro op hop
  rcases List.mem_cons.mp hop with rfl | hop
  · exact fun hmakes => hmakes
  · obtain rfl := List.mem_singleton.mp hop
    exact fun hmakes => hmakes.1 rfl

/-- `ina_cron_event_new` makes the event `"t1"` with `"0 * * * *"`, and it is not found. -/
theorem registered_run_fails :
    ∃ s, inaCronCtxNew (.hash32 fun _ _ => 0) none = .ok s ∧
      ¬ Along eventStep Registered s
        [.new [116, 49] ['0', ' ', '*', ' ', '*', ' ', '*', ' ', '*'] 0] := by
  obtain ⟨s, hs⟩ : ∃ s, inaCronCtxNew (.hash32 fun _ _ => 0) none = .ok s := ⟨_, rfl⟩
  obtain ⟨hdet, hnone⟩ := detached_new hs
  refine ⟨s, hs, fun hreg => (registered_iff hdet hnone _).mp hreg.1 ⟨by decide, ?_⟩⟩
  exact ⟨_, (parsePattern_ok_iff (by decide)).mpr ⟨by decide +kernel, rfl⟩⟩

end Cron
end Inac
