import Inac.Cron.Window

/-!
# Events that are pulled

The scan of `ina_cron_process` sets `can_pull` of an event whose timetable matches, unless its push
callback was called and failed. `ina_cron_try_pull` looks for the first event with the flag, from
the start of the table in every call, clears the flag and returns the key. So the flag is the
memory of one bit between the two: that a minute has passed the event since it was pulled last.

Which minutes passed is reported by `passes`, which follows the scan and what it asks. What is
pending is then said of the history alone, that is of the outputs of the calls so far.

The argument has one invariant, `Tracks`: the flag of an event is set exactly if the event is owed.
The scan and the pulls are then two lemmas each, on what they do to the flags and on what their
output adds to the history.
-/

namespace Inac
namespace Cron

open Lib

/-! ## `ina_cron_try_pull`

Key 0 stands for no event, and is what `*key` is set to if none is found. -/

/-- The loop over the events: the place and the key of the event that is pulled, if any. -/
def tryPullEvents : List Event → Option (Nat × BitVec 32) × List Event
  | [] => (none, [])
  | e :: es =>
    if e.cf &&& cronCfPull ≠ 0 ∧ e.canPull then
      (some (0, e.key), { e with canPull := false } :: es)
    else
      let (found, es) := tryPullEvents es
      (found.map fun p => (p.1 + 1, p.2), e :: es)

/-- `ina_cron_try_pull`: what is stored in `*key`, the place of the event whose `pull_data` is
    stored in `*user_data`, and the context. -/
def inaCronTryPull (ctx : Ctx) : (BitVec 32 × Option Nat) × Ctx :=
  let (found, events) := tryPullEvents ctx.events
  ((match found with
    | some (i, key) => (key, some i)
    | none => (0, none)), { ctx with events := events })

variable (env : Env)

/-! ## Which minutes pass an event

The questions to the outside are asked in the same order as in the scan, so that the answers are the
same ones. -/

/-- The events that match at a local time and whose push callback, if it is called, succeeds, in
    the order in which `testEvents` asks. -/
def passEvents (tp : Tm) : List Event → Asked → List Bool
  | [], _ => []
  | e :: es, w =>
    if e.tt.hits tp then
      (!(pushFails env w e).1) :: passEvents tp es (markEvent env w e).2.2
    else false :: passEvents tp es w

/-- The minutes of `testLoop`, with the events that they pass. -/
def passLoop (t1 t2 : Int) : Nat → Int → Jobs → List Test
  | 0, _, _ => []
  | fuel + 1, t, j =>
    if t ≤ t2 then
      if t > t1 then
        ⟨t, passEvents env (env.localtime t) j.events j.asked⟩ ::
          passLoop t1 t2 fuel (t + 60) (testMinute env t j)
      else passLoop t1 t2 fuel (t + 60) j
    else []

/-- The minutes that a call of `ina_cron_process` tests, with the events that they pass. -/
def passes (ctx : Ctx) (c : Call) : List Test :=
  let dt := c.now - ctx.t1
  if dt < -60 * 60 ∨ dt > 60 * 60 then []
  else if dt > 0 then
    let t := ctx.t1 - ctx.t1.tmod 60
    passLoop env ctx.t1 c.now ((c.now - t) / 60 + 1).toNat t
      { events := ctx.events, asked := ctx.asked, njobs := 0, tests := [] }
  else []

/-- One of these minutes passes the event at `i`. -/
def Passed (tests : List Test) (i : Nat) : Prop := ∃ test ∈ tests, test.matched[i]? = some true

/-! ## The two calls as one machine

A history is the list of what the calls put out. It says nothing of the flags. -/

inductive PullOp where
  | process (c : Call)
  | tryPull

/-- What the calls did: the minutes tested with the events that they pass, or the key. -/
inductive PullOut where
  | processed (passes : List Test)
  | pulled (key : BitVec 32)
  deriving DecidableEq, Repr

def pullStep (ctx : Ctx) : PullOp → PullOut × Ctx
  | .process c => (.processed (passes env ctx c), (inaCronProcess env ctx c).2)
  | .tryPull => (.pulled (inaCronTryPull ctx).1.1, (inaCronTryPull ctx).2)

/-- A minute has passed the event at `i` since the key was returned last. -/
def Owed (hist : List PullOut) (i : Nat) (key : BitVec 32) : Prop :=
  ∃ before tests after, hist = before ++ .processed tests :: after ∧
    Passed tests i ∧ .pulled key ∉ after

/-- The key is that of an event which has passed since it was pulled last. -/
def Pending (events : List Event) (hist : List PullOut) (key : BitVec 32) : Prop :=
  key ≠ 0 ∧ ∃ (i : Nat) (e : Event), events[i]? = some e ∧ e.key = key ∧ Owed hist i key

/-- The keys that are not 0 are pairwise distinct, and come with the flag, as
    `ina_cron_event_set_pull_params` sets them. -/
structure PullKeys (events : List Event) : Prop where
  distinct : events.Pairwise fun e e' => e.key ≠ 0 → e.key ≠ e'.key
  flagged : ∀ e ∈ events, e.key ≠ 0 → e.cf &&& cronCfPull ≠ 0

/-! ## What the scan does to the flags

`Marked` composes: over the events of a minute, and then over the minutes. -/

/-- What the two calls leave alone. -/
def Event.ids (e : Event) : BitVec 32 × BitVec 32 := (e.cf, e.key)

/-- The scan sets the flag of an event that `passed` and has a key. -/
structure Marked (passed : Prop) (e e' : Event) : Prop where
  ids : e'.ids = e.ids
  canPull : e'.canPull = true ↔
    e.canPull = true ∨ (passed ∧ e.cf &&& cronCfPull ≠ 0 ∧ e.key ≠ 0)

theorem Marked.of_not {passed : Prop} (h : ¬ passed) (e : Event) : Marked passed e e :=
  ⟨rfl, ⟨.inl, fun h' => h'.resolve_right fun hp => h hp.1⟩⟩

theorem Marked.congr {passed passed' : Prop} {e e' : Event} (h : Marked passed e e')
    (hp : passed ↔ passed') : Marked passed' e e' :=
  ⟨h.ids, by rw [h.canPull, hp]⟩

theorem Marked.trans {passed passed' : Prop} {e e' e'' : Event} (h : Marked passed e e')
    (h' : Marked passed' e' e'') : Marked (passed ∨ passed') e e'' := by
  obtain ⟨hcf, hkey⟩ := Prod.mk.inj h.ids
  refine ⟨h'.ids.trans h.ids, ?_⟩
  rw [h'.canPull, h.canPull, hcf, hkey]
  tauto

theorem markPull_marked (e : Event) : Marked True e (markPull e) := by
  unfold markPull
  by_cases h : e.cf &&& cronCfPull ≠ 0 ∧ e.key ≠ 0
  · rw [if_pos h]
    exact ⟨rfl, ⟨fun _ => .inr ⟨trivial, h⟩, fun _ => rfl⟩⟩
  · rw [if_neg h]
    exact ⟨rfl, ⟨.inl, fun h' => h'.resolve_right fun hp => h hp.2⟩⟩

theorem markEvent_marked (w : Asked) (e : Event) :
    Marked ((pushFails env w e).1 = false) e (markEvent env w e).1 := by
  unfold markEvent
  dsimp only
  cases hfailed : (pushFails env w e).1 with
  | true => exact .of_not (by simp) e
  | false =>
    rw [if_neg Bool.false_ne_true]
    split
    · have hmark := markPull_marked { e with ready := true }
      exact ⟨hmark.ids, by rw [hmark.canPull]; simp⟩
    · exact (markPull_marked e).congr (by simp)

/-- Every event comes from the one at its place, as the places that passed say. -/
def MarkedAll (passed : Nat → Prop) (es es' : List Event) : Prop :=
  es'.length = es.length ∧
    ∀ (i : Nat) (e e' : Event), es[i]? = some e → es'[i]? = some e' → Marked (passed i) e e'

theorem MarkedAll.of_not {passed : Nat → Prop} (h : ∀ i, ¬ passed i) (es : List Event) :
    MarkedAll passed es es := by
  refine ⟨rfl, fun i e e' he he' => ?_⟩
  obtain rfl := Option.some.inj (he.symm.trans he')
  exact .of_not (h i) e

theorem MarkedAll.cons {passed : Nat → Prop} {e e' : Event} {es es' : List Event}
    (h : Marked (passed 0) e e') (hs : MarkedAll (fun i => passed (i + 1)) es es') :
    MarkedAll passed (e :: es) (e' :: es') := by
  refine ⟨congrArg (· + 1) hs.1, fun i a a' ha ha' => ?_⟩
  cases i with
  | zero =>
    cases ha
    cases ha'
    exact h
  | succ i => exact hs.2 i a a' ha ha'

theorem MarkedAll.congr {passed passed' : Nat → Prop} {es es' : List Event}
    (h : MarkedAll passed es es') (hp : ∀ i, passed i ↔ passed' i) : MarkedAll passed' es es' :=
  ⟨h.1, fun i e e' he he' => (h.2 i e e' he he').congr (hp i)⟩

theorem MarkedAll.trans {passed passed' : Nat → Prop} {es es' es'' : List Event}
    (h : MarkedAll passed es es') (h' : MarkedAll passed' es' es'') :
    MarkedAll (fun i => passed i ∨ passed' i) es es'' := by
  refine ⟨h'.1.trans h.1, fun i e e'' he he'' => ?_⟩
  obtain ⟨hi, -⟩ := List.getElem?_eq_some_iff.mp he
  have hi' : i < es'.length := by rw [h.1]; exact hi
  have he' : es'[i]? = some es'[i] := List.getElem?_eq_getElem hi'
  exact (h.2 i e _ he he').trans (h'.2 i _ e'' he' he'')

theorem testEvents_marked (tp : Tm) (es : List Event) (njobs : BitVec 16) (w : Asked) :
    MarkedAll (fun i => (passEvents env tp es w)[i]? = some true) es
      (testEvents env tp es njobs w).1 := by
  induction es generalizing njobs w with
  | nil => exact .of_not (fun i => by simp [passEvents]) []
  | cons e es ih =>
    rw [testEvents, passEvents]
    by_cases hhit : e.tt.hits tp = true
    · rw [if_pos hhit, if_pos hhit]
      exact .cons ((markEvent_marked env w e).congr (by simp)) (ih _ _)
    · rw [if_neg hhit, if_neg hhit]
      exact .cons (.of_not (by simp) e) (ih _ _)

theorem passed_nil (i : Nat) : ¬ Passed [] i := fun ⟨_, h, _⟩ => absurd h List.not_mem_nil

theorem passed_cons {t : Int} {matched : List Bool} {tests : List Test} {i : Nat} :
    Passed (⟨t, matched⟩ :: tests) i ↔ matched[i]? = some true ∨ Passed tests i := by
  unfold Passed
  rw [List.exists_mem_cons_iff]

theorem testLoop_marked (t1 t2 : Int) (fuel : Nat) (t : Int) (j : Jobs) :
    MarkedAll (Passed (passLoop env t1 t2 fuel t j)) j.events
      (testLoop env t1 t2 fuel t j).events := by
  induction fuel generalizing t j with
  | zero => exact .of_not passed_nil _
  | succ fuel ih =>
    rw [testLoop, passLoop]
    by_cases ht : t ≤ t2
    · rw [if_pos ht, if_pos ht]
      by_cases ht1 : t > t1
      · rw [if_pos ht1, if_pos ht1]
        have hhere := testEvents_marked env (env.localtime t) j.events j.njobs j.asked
        exact (hhere.trans (ih (t + 60) (testMinute env t j))).congr fun i => passed_cons.symm
      · rw [if_neg ht1, if_neg ht1]
        exact ih _ _
    · rw [if_neg ht, if_neg ht]
      exact .of_not passed_nil _

theorem runWindow_events (ctx : Ctx) :
    (runWindow env ctx).2.events = (testJobs env ctx.t1 ctx.t2 ctx.events ctx.asked).events := by
  unfold runWindow
  dsimp only
  split <;> rfl

/-- A call sets the flags of the events that it reports as passed. -/
theorem process_marked (ctx : Ctx) (c : Call) :
    MarkedAll (Passed (passes env ctx c)) ctx.events (inaCronProcess env ctx c).2.events := by
  unfold inaCronProcess passes
  dsimp only
  split
  · exact .of_not passed_nil _
  · split
    · rw [runWindow_events]
      exact testLoop_marked env ctx.t1 c.now _ _ _
    · exact .of_not passed_nil _

/-! ## What a pull does to the flags

The list of keys that are due loses its first one. -/

/-- Nothing is found, or the flag of one event is cleared. -/
theorem tryPullEvents_cases (es : List Event) :
    tryPullEvents es = (none, es) ∨
      ∃ (i : Nat) (e : Event), es[i]? = some e ∧
        tryPullEvents es = (some (i, e.key), es.set i { e with canPull := false }) := by
  induction es with
  | nil => exact .inl rfl
  | cons e es ih =>
    rw [tryPullEvents]
    split
    · exact .inr ⟨0, e, rfl, rfl⟩
    · rcases ih with heq | ⟨i, e', he', heq⟩
      · rw [heq]
        exact .inl rfl
      · rw [heq]
        exact .inr ⟨i + 1, e', he', rfl⟩

theorem ids_set_canPull {es : List Event} {i : Nat} {e : Event} (he : es[i]? = some e) :
    (es.set i { e with canPull := false }).map Event.ids = es.map Event.ids := by
  have hself : es.set i e = es := by
    obtain ⟨hi, rfl⟩ := List.getElem?_eq_some_iff.mp he
    exact List.set_getElem_self hi
  calc (es.set i { e with canPull := false }).map Event.ids
      = (es.set i e).map Event.ids := by rw [List.map_set, List.map_set]; rfl
    _ = es.map Event.ids := by rw [hself]

/-- The keys of the events whose flag is set, in the order of the table. -/
def due (es : List Event) : List (BitVec 32) := (es.filter Event.canPull).map Event.key

theorem tryPullEvents_due {es : List Event}
    (h : ∀ e ∈ es, e.canPull = true → e.cf &&& cronCfPull ≠ 0) :
    (tryPullEvents es).1.map Prod.snd = (due es).head? ∧
      due (tryPullEvents es).2 = (due es).tail := by
  induction es with
  | nil => exact ⟨rfl, rfl⟩
  | cons e es ih =>
    obtain ⟨he, hes⟩ := List.forall_mem_cons.mp h
    obtain ⟨hfound, hrest⟩ := ih hes
    rw [tryPullEvents]
    cases hcan : e.canPull with
    | true =>
      rw [if_pos ⟨he hcan, rfl⟩]
      simp [due, hcan]
    | false =>
      rw [if_neg fun hpull => Bool.false_ne_true hpull.2]
      have hdue : ∀ l, due (e :: l) = due l := fun l => by simp [due, hcan]
      refine ⟨?_, ?_⟩
      · rw [hdue, ← hfound, Option.map_map]
        rfl
      · rw [hdue, hdue]
        exact hrest

theorem inaCronTryPull_due {ctx : Ctx}
    (h : ∀ e ∈ ctx.events, e.canPull = true → e.cf &&& cronCfPull ≠ 0) :
    (inaCronTryPull ctx).1.1 = (due ctx.events).headD 0 ∧
      due (inaCronTryPull ctx).2.events = (due ctx.events).tail := by
  obtain ⟨hfound, hrest⟩ := tryPullEvents_due h
  refine ⟨?_, hrest⟩
  rw [List.headD_eq_head?_getD, ← hfound]
  unfold inaCronTryPull
  dsimp only
  cases (tryPullEvents ctx.events).1 <;> rfl

/-! ## The history

A minute that passes makes an event owed, and a pull of its key settles it. -/

theorem owed_nil (i : Nat) (key : BitVec 32) : ¬ Owed [] i key := by
  rintro ⟨before, tests, after, h, -⟩
  cases before <;> cases h

/-- What one more output changes. -/
theorem owed_snoc {hist : List PullOut} {o : PullOut} {i : Nat} {key : BitVec 32} :
    Owed (hist ++ [o]) i key ↔
      (∃ tests, o = .processed tests ∧ Passed tests i) ∨ (Owed hist i key ∧ o ≠ .pulled key) := by
  constructor
  · rintro ⟨before, tests, after, h, hpassed, hafter⟩
    rcases List.eq_nil_or_concat after with rfl | ⟨after, o', rfl⟩
    · obtain ⟨-, ho⟩ := List.append_inj' h rfl
      exact .inl ⟨tests, List.singleton_inj.mp ho, hpassed⟩
    · rw [List.concat_eq_append] at h hafter
      rw [← List.cons_append, ← List.append_assoc] at h
      obtain ⟨rfl, ho⟩ := List.append_inj' h rfl
      obtain rfl := List.singleton_inj.mp ho
      rw [List.mem_append, not_or, List.mem_singleton] at hafter
      exact .inr ⟨⟨before, tests, after, rfl, hpassed, hafter.1⟩, Ne.symm hafter.2⟩
  · rintro (⟨tests, rfl, hpassed⟩ | ⟨⟨before, tests, after, rfl, hpassed, hafter⟩, hne⟩)
    · exact ⟨hist, tests, [], rfl, hpassed, List.not_mem_nil⟩
    · refine ⟨before, tests, after ++ [o], ?_, hpassed, ?_⟩
      · rw [List.append_assoc, List.cons_append]
      · rw [List.mem_append, not_or, List.mem_singleton]
        exact ⟨hafter, Ne.symm hne⟩

theorem owed_processed {hist : List PullOut} {tests : List Test} {i : Nat} {key : BitVec 32} :
    Owed (hist ++ [.processed tests]) i key ↔ Passed tests i ∨ Owed hist i key := by
  simp [owed_snoc]

theorem owed_pulled {hist : List PullOut} {key' : BitVec 32} {i : Nat} {key : BitVec 32} :
    Owed (hist ++ [.pulled key']) i key ↔ Owed hist i key ∧ key' ≠ key := by
  simp [owed_snoc]

/-! ## The flags are the history

With distinct keys a pull settles one event only, so its flag and its debt go together. -/

theorem MarkedAll.ids {passed : Nat → Prop} {es es' : List Event} (h : MarkedAll passed es es') :
    es'.map Event.ids = es.map Event.ids := by
  refine List.ext_getElem (by simp [h.1]) fun i hi' hi => ?_
  rw [List.length_map] at hi hi'
  rw [List.getElem_map, List.getElem_map]
  exact (h.2 i _ _ (List.getElem?_eq_getElem hi) (List.getElem?_eq_getElem hi')).ids

theorem getElem?_of_ids {es es' : List Event} (h : es'.map Event.ids = es.map Event.ids) {i : Nat}
    {e' : Event} (he' : es'[i]? = some e') : ∃ e, es[i]? = some e ∧ e.ids = e'.ids := by
  have hi : (es.map Event.ids)[i]? = some e'.ids := by rw [← h, List.getElem?_map, he']; rfl
  rw [List.getElem?_map] at hi
  exact Option.map_eq_some_iff.mp hi

theorem PullKeys.of_ids {es es' : List Event} (hk : PullKeys es)
    (h : es'.map Event.ids = es.map Event.ids) : PullKeys es' := by
  refine ⟨?_, fun e' he' hkey => ?_⟩
  · have hids : (es.map Event.ids).Pairwise fun p p' => p.2 ≠ 0 → p.2 ≠ p'.2 :=
      List.pairwise_map.mpr hk.distinct
    rw [← h] at hids
    exact List.pairwise_map.mp hids
  · obtain ⟨i, hi⟩ := List.getElem?_of_mem he'
    obtain ⟨e, he, heq⟩ := getElem?_of_ids h hi
    obtain ⟨hcf, hkey'⟩ := Prod.mk.inj heq
    rw [← hcf]
    exact hk.flagged e (List.mem_of_getElem? he) (by rw [hkey']; exact hkey)

/-- No two events have one key. -/
theorem PullKeys.place {es : List Event} (hk : PullKeys es) {i j : Nat} {e e' : Event}
    (he : es[i]? = some e) (he' : es[j]? = some e') (hkey : e.key = e'.key) (h0 : e.key ≠ 0) :
    i = j := by
  obtain ⟨hi, rfl⟩ := List.getElem?_eq_some_iff.mp he
  obtain ⟨hj, rfl⟩ := List.getElem?_eq_some_iff.mp he'
  have hpair := List.pairwise_iff_getElem.mp hk.distinct
  rcases Nat.lt_trichotomy i j with hlt | heq | hgt
  · exact absurd hkey (hpair i j hi hj hlt h0)
  · exact heq
  · exact absurd hkey.symm (hpair j i hj hi hgt (hkey ▸ h0))

/-- The flag of an event is set exactly if the event is owed. -/
structure Tracks (events : List Event) (hist : List PullOut) (ctx : Ctx) : Prop where
  ids : ctx.events.map Event.ids = events.map Event.ids
  canPull : ∀ (i : Nat) (e : Event), ctx.events[i]? = some e →
    (e.canPull = true ↔ e.key ≠ 0 ∧ Owed hist i e.key)

theorem Tracks.new {ctx : Ctx} (h : ∀ e ∈ ctx.events, e.canPull = false) :
    Tracks ctx.events [] ctx := by
  refine ⟨rfl, fun i e he => ?_⟩
  rw [h e (List.mem_of_getElem? he)]
  exact ⟨fun hfalse => absurd hfalse Bool.false_ne_true, fun howed => absurd howed.2 (owed_nil i _)⟩

theorem Tracks.process {events : List Event} (hk : PullKeys events) {hist : List PullOut}
    {ctx : Ctx} (h : Tracks events hist ctx) (c : Call) :
    Tracks events (hist ++ [.processed (passes env ctx c)]) (inaCronProcess env ctx c).2 := by
  have hmark := process_marked env ctx c
  refine ⟨hmark.ids.trans h.ids, fun i e' he' => ?_⟩
  obtain ⟨e, he, -⟩ := getElem?_of_ids hmark.ids he'
  obtain ⟨hids, hcan⟩ := hmark.2 i e e' he he'
  have hflag := (hk.of_ids h.ids).flagged e (List.mem_of_getElem? he)
  rw [hcan, h.canPull i e he, (Prod.mk.inj hids).2, owed_processed]
  tauto

theorem Tracks.tryPull {events : List Event} (hk : PullKeys events) {hist : List PullOut}
    {ctx : Ctx} (h : Tracks events hist ctx) :
    Tracks events (hist ++ [.pulled (inaCronTryPull ctx).1.1]) (inaCronTryPull ctx).2 := by
  unfold inaCronTryPull
  dsimp only
  rcases tryPullEvents_cases ctx.events with heq | ⟨j, d, hd, heq⟩
  · rw [heq]
    refine ⟨h.ids, fun i e he => ?_⟩
    rw [h.canPull i e he, owed_pulled]
    tauto
  · rw [heq]
    refine ⟨(ids_set_canPull hd).trans h.ids, fun i e he => ?_⟩
    rw [owed_pulled]
    dsimp only at he
    rw [List.getElem?_set] at he
    by_cases hij : j = i
    · rw [if_pos hij] at he
      obtain ⟨-, he⟩ := Option.ite_none_right_eq_some.mp he
      obtain rfl := Option.some.inj he
      exact ⟨fun hfalse => absurd hfalse Bool.false_ne_true, fun howed => absurd rfl howed.2.2⟩
    · rw [if_neg hij] at he
      rw [h.canPull i e he]
      -- the key that was returned is the key of no other event
      have hne : e.key ≠ 0 → d.key ≠ e.key := fun h0 hkey =>
        hij ((hk.of_ids h.ids).place he hd hkey.symm h0).symm
      tauto

theorem Tracks.step {events : List Event} (hk : PullKeys events) (hist : List PullOut) (ctx : Ctx)
    (op : PullOp) (h : Tracks events hist ctx) :
    Tracks events (hist ++ [(pullStep env ctx op).1]) (pullStep env ctx op).2 := by
  cases op with
  | process c => exact h.process env hk c
  | tryPull => exact h.tryPull hk

theorem Tracks.mem_due {events : List Event} {hist : List PullOut} {ctx : Ctx}
    (h : Tracks events hist ctx) (key : BitVec 32) :
    key ∈ due ctx.events ↔ Pending events hist key := by
  rw [due, List.mem_map]
  constructor
  · rintro ⟨e, he, rfl⟩
    obtain ⟨hmem, hcan⟩ := List.mem_filter.mp he
    obtain ⟨i, hi⟩ := List.getElem?_of_mem hmem
    obtain ⟨h0, howed⟩ := (h.canPull i e hi).mp hcan
    obtain ⟨e₀, he₀, hids⟩ := getElem?_of_ids h.ids hi
    exact ⟨h0, i, e₀, he₀, (Prod.mk.inj hids).2, howed⟩
  · rintro ⟨h0, i, e₀, he₀, hkey, howed⟩
    obtain ⟨e, he, hids⟩ := getElem?_of_ids h.ids.symm he₀
    have hkey' : e.key = key := (Prod.mk.inj hids).2.trans hkey
    refine ⟨e, List.mem_filter.mpr ⟨List.mem_of_getElem? he, ?_⟩, hkey'⟩
    rw [h.canPull i e he, hkey']
    exact ⟨h0, howed⟩

section
variable {events : List Event} (hk : PullKeys events) {hist : List PullOut} {ctx : Ctx}
  (h : Tracks events hist ctx)
include hk h

theorem Tracks.flagged : ∀ e ∈ ctx.events, e.canPull = true → e.cf &&& cronCfPull ≠ 0 := by
  intro e he hcan
  obtain ⟨i, hi⟩ := List.getElem?_of_mem he
  exact (hk.of_ids h.ids).flagged e he ((h.canPull i e hi).mp hcan).1

theorem Tracks.nodup_due : (due ctx.events).Nodup := by
  refine List.pairwise_map.mpr ?_
  refine ((hk.of_ids h.ids).distinct.filter Event.canPull).imp_of_mem ?_
  intro e e' he _ hne
  obtain ⟨hmem, hcan⟩ := List.mem_filter.mp he
  obtain ⟨i, hi⟩ := List.getElem?_of_mem hmem
  exact hne ((h.canPull i e hi).mp hcan).1

/-- Pulls alone return what is due, and then 0. -/
theorem Tracks.drains (m : Nat) :
    outs (pullStep env) ctx (List.replicate ((due ctx.events).length + m) .tryPull) =
      (due ctx.events).map .pulled ++ List.replicate m (.pulled 0) := by
  generalize hdue : due ctx.events = keys
  induction keys generalizing ctx hist with
  | nil =>
    rw [List.length_nil, Nat.zero_add, List.map_nil, List.nil_append]
    induction m generalizing ctx hist with
    | zero => rfl
    | succ m ih =>
      obtain ⟨hkey, hrest⟩ := inaCronTryPull_due (h.flagged hk)
      rw [hdue] at hkey hrest
      rw [List.replicate_succ, List.replicate_succ, outs, pullStep, hkey]
      exact congrArg _ (ih (h.tryPull hk) hrest)
  | cons key keys ih =>
    obtain ⟨hkey, hrest⟩ := inaCronTryPull_due (h.flagged hk)
    rw [hdue] at hkey hrest
    rw [List.length_cons, Nat.add_right_comm, List.replicate_succ, outs, pullStep, hkey]
    exact congrArg _ (ih (h.tryPull hk) hrest)

end

/-- **Every pass is pulled once.** After any calls of `ina_cron_process` and `ina_cron_try_pull`,
    a pull returns a key other than 0 only if it is pending, and pulls alone return each key that
    is pending once, and then 0. -/
theorem pulls_what_passed (ctx : Ctx) (ops : List PullOp) (hk : PullKeys ctx.events)
    (hnew : ∀ e ∈ ctx.events, e.canPull = false) :
    (∀ key ≠ 0, (pullStep env (exec (pullStep env) ctx ops) .tryPull).1 = .pulled key →
      Pending ctx.events (outs (pullStep env) ctx ops) key) ∧
    ∃ keys : List (BitVec 32), keys.Nodup ∧
      (∀ key, key ∈ keys ↔ Pending ctx.events (outs (pullStep env) ctx ops) key) ∧
      ∀ m, outs (pullStep env) (exec (pullStep env) ctx ops)
          (List.replicate (keys.length + m) .tryPull) =
        keys.map .pulled ++ List.replicate m (.pulled 0) := by
  have htracks : Tracks ctx.events (outs (pullStep env) ctx ops) (exec (pullStep env) ctx ops) :=
    exec_history (I := Tracks ctx.events) (Tracks.step env hk) (Tracks.new hnew)
  refine ⟨fun key h0 hpulled => ?_, due (exec (pullStep env) ctx ops).events,
    htracks.nodup_due hk, htracks.mem_due, htracks.drains env hk⟩
  rw [← htracks.mem_due]
  obtain ⟨hkey, -⟩ := inaCronTryPull_due (htracks.flagged hk)
  obtain rfl := PullOut.pulled.inj hpulled
  rw [hkey] at h0 ⊢
  cases hdue : due (exec (pullStep env) ctx ops).events with
  | nil => rw [hdue] at h0; exact absurd rfl h0
  | cons key keys => exact List.mem_cons_self

/-- An event of every minute with this key, and with a push callback or without. -/
def everyMinute (key : BitVec 32) (pushCb : Bool) : Event :=
  ⟨cronCfPull ||| (if pushCb then cronCfPush else 0), key, pushCb, false, false,
    ⟨fun _ => true, fun _ => true, fun _ => true, fun _ => true, fun _ => true⟩⟩

/-- The push callback of the second event fails in the first minute. -/
theorem pulls_what_passed_two :
    let env : Env := ⟨fun _ => ⟨0, 0, 1, 0, 0⟩, fun n => n ≠ 0, fun _ => none⟩
    let ctx : Ctx := ⟨0, 0, 60, [everyMinute 7 false, everyMinute 9 true], ⟨0, 0⟩⟩
    let ops : List PullOp := [.process ⟨60, 60⟩, .tryPull, .process ⟨120, 120⟩, .tryPull]
    outs (pullStep env) ctx (ops ++ [.tryPull, .tryPull]) =
      [.processed [⟨60, [true, false]⟩], .pulled 7, .processed [⟨120, [true, true]⟩], .pulled 7,
        .pulled 9, .pulled 0] ∧
      Pending ctx.events (outs (pullStep env) ctx ops) 9 := by
  intro env ctx ops
  refine ⟨by decide, ?_⟩
  have hk : PullKeys ctx.events := ⟨by simp [ctx, everyMinute], by simp [ctx, everyMinute]; decide⟩
  have hnew : ∀ e ∈ ctx.events, e.canPull = false := by simp [ctx, everyMinute]
  exact (pulls_what_passed env ctx ops hk hnew).1 9 (by decide) (by decide)

end Cron
end Inac
