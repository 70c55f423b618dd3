import CacheFlow.Connector.Scheduler

/-!
# The leases of the scheduler side

A lookup that pins returns a lease, and someone has to give it back: the connector itself,
when it drops the plan, or the workers, once a load with the lease has been emitted. The
leases are counted: those granted against those submitted for release, emitted in a load,
and held by the plan of a request.

## Main definitions

* `Sched.Accounted` — no lease is missing, and none is in two places.
* `Sched.Careful` — a call that loses no lease.

## Main results

* `Sched.leases_of_run` — where the leases are after a run.
-/

namespace CacheFlow

open List Dict Option

namespace Sched

/-! ### The accounts -/

/-- The leases the server has granted. -/
def granted (c : Sched) : List ℤ := c.trace.filterMap fun
  | .looked _ r => r.lease
  | _ => none

/-- The leases whose release has been handed to the background thread. -/
def submitted (c : Sched) : List ℤ := c.trace.filterMap fun
  | .submitted _ lease => some lease
  | _ => none

/-- The leases of the loads in metadata. -/
def leasesOf (md : Metadata) : List ℤ := md.loads.values.filterMap fun spec => spec.lease

/-- The leases that have been emitted with a load. -/
def emitted (c : Sched) : List ℤ := c.trace.flatMap fun
  | .built _ md => leasesOf md
  | _ => []

/-- The leases of the plans that have not been sent. -/
def held (c : Sched) : List ℤ := c.states.values.filterMap heldLease

/-- Every lease granted is submitted, emitted or held, and none is emitted or held twice. -/
structure Accounted (c : Sched) : Prop where
  /-- Nothing is missing. -/
  covered : ∀ l, c.granted.count l ≤ c.submitted.count l + c.emitted.count l + c.held.count l
  once : ∀ l, c.emitted.count l + c.held.count l ≤ c.granted.count l

variable {cfg : SchedConfig} {c : Sched}

theorem mem_held {l : ℤ} : l ∈ c.held ↔ ∃ rid st, c.states.get? rid = some st ∧ heldLease st = some l := by
  rw [held, mem_filterMap]
  constructor
  · rintro ⟨st, hst, hl⟩
    obtain ⟨rid, hget⟩ := mem_values_iff.mp hst
    exact ⟨rid, st, hget, hl⟩
  · rintro ⟨rid, st, hget, hl⟩
    exact ⟨st, mem_values_iff.mpr ⟨rid, hget⟩, hl⟩

/-- The lease a request holds. -/
def heldBy (c : Sched) (rid : String) : Option ℤ := (c.states.get? rid).bind heldLease

theorem count_filterMap_cons {α : Type} (f : α → Option ℤ) (a : α) (as : List α) (l : ℤ) :
    ((a :: as).filterMap f).count l = (f a).toList.count l + (as.filterMap f).count l := by
  rw [filterMap_cons]
  cases f a with
  | none => simp
  | some b => rw [toList_some, ← count_append]; rfl

theorem count_held (c : Sched) (rid : String) (l : ℤ) : c.held.count l =
    (c.heldBy rid).toList.count l + ((c.states.erase rid).values.filterMap heldLease).count l := by
  unfold held heldBy
  cases hget : c.states.get? rid with
  | none => simp [erase_of_get?_eq_none hget]
  | some st =>
    rw [((values_perm_of_get? hget).filterMap heldLease).count_eq, count_filterMap_cons,
      bind_some]

/-- Changing the state of a request changes the lease it holds, and no other. -/
theorem count_held_put (rid : String) (st : ReqState) (l : ℤ) :
    (c.put rid st).held.count l + (c.heldBy rid).toList.count l =
      c.held.count l + (heldLease st).toList.count l := by
  have hafter : (c.put rid st).held.count l = (heldLease st).toList.count l +
      ((c.states.erase rid).values.filterMap heldLease).count l := by
    rw [held, put_states, ((values_set_perm c.states rid st).filterMap heldLease).count_eq,
      count_filterMap_cons]
  rw [hafter, count_held c rid l]
  omega

/-! ### The accounts after the small steps -/

@[simp] theorem held_note (e : SchedEvent) : (c.note e).held = c.held := rfl

@[simp] theorem granted_put (rid : String) (st : ReqState) : (c.put rid st).granted = c.granted := rfl

@[simp] theorem submitted_put (rid : String) (st : ReqState) :
    (c.put rid st).submitted = c.submitted := rfl

@[simp] theorem emitted_put (rid : String) (st : ReqState) : (c.put rid st).emitted = c.emitted := rfl

/-- A note of something that has nothing to do with leases. -/
theorem Accounted.note (h : c.Accounted) {e : SchedEvent} (hg : (c.note e).granted = c.granted)
    (hs : (c.note e).submitted = c.submitted) (he : (c.note e).emitted = c.emitted) :
    (c.note e).Accounted :=
  ⟨fun l => by rw [hg, hs, he, held_note]; exact h.covered l,
    fun l => by rw [hg, he, held_note]; exact h.once l⟩

/-- Releasing a lease takes nothing off the submitted ones and leaves the other accounts
alone. -/
theorem releaseLease_accounts (lease : Option ℤ) :
    (c.releaseLease lease).granted = c.granted ∧ (c.releaseLease lease).emitted = c.emitted ∧
      (c.releaseLease lease).held = c.held ∧
      ∀ l, c.submitted.count l ≤ (c.releaseLease lease).submitted.count l := by
  cases lease with
  | none => exact ⟨rfl, rfl, rfl, fun _ => le_rfl⟩
  | some lease =>
    unfold releaseLease releaseAsync
    cases c.schedSession <;> simp [Sched.note, submitted, granted, emitted, held]

/-- With a session, a lease that is to be released is submitted. -/
theorem count_releaseLease {lease : Option ℤ} (hsession : lease.isSome → c.schedSession.isSome) (l : ℤ) :
    (c.releaseLease lease).submitted.count l = c.submitted.count l + lease.toList.count l ∧
      (c.releaseLease lease).granted = c.granted ∧ (c.releaseLease lease).emitted = c.emitted ∧
      (c.releaseLease lease).held = c.held := by
  cases lease with
  | none => simp [releaseLease]
  | some lease =>
    obtain ⟨s, hs⟩ := isSome_iff_exists.mp (hsession rfl)
    simp [releaseLease, releaseAsync, hs, Sched.note, submitted, granted, emitted, held]

variable {rid : String} {st : ReqState}

/-- A change of state that keeps the lease the request holds. -/
theorem Accounted.put (h : c.Accounted)
    (hkeep : heldLease st = c.heldBy rid) : (c.put rid st).Accounted := by
  have hheld : ∀ l, (c.put rid st).held.count l = c.held.count l := by
    intro l
    have := @count_held_put c rid st l
    rw [hkeep] at this
    omega
  exact ⟨fun l => by rw [hheld]; exact h.covered l, fun l => by rw [hheld]; exact h.once l⟩

theorem heldLease_dropPlan : heldLease (c.dropPlan rid st).1 = none := by
  unfold heldLease
  split_ifs <;> rfl

/-- Dropping a plan moves its lease from the held ones to the submitted ones. -/
theorem Accounted.dropPlan (h : c.Accounted) (hst : c.states.get? rid = some st)
    (hsession : (heldLease st).isSome → c.schedSession.isSome) : (c.dropPlan rid st).2.Accounted := by
  have hby : (c.releaseLease (heldLease st)).heldBy rid = heldLease st := by
    rw [heldBy, releaseLease_states, hst, bind_some]
  have hnone : heldLease { st with plan := none, planComputed := -1 } = none :=
    @heldLease_dropPlan c rid st
  constructor <;> intro l
  all_goals
    obtain ⟨hs, hg, he, hh⟩ := count_releaseLease hsession l
    have hput := @count_held_put (c.releaseLease (heldLease st)) rid
      { st with plan := none, planComputed := -1 } l
    rw [hby, hnone, hh] at hput
    have hc := h.covered l
    have ho := h.once l
    simp only [Sched.dropPlan, granted_put, submitted_put, emitted_put, hg, he, hs,
      toList_none, count_nil] at hput ⊢
    omega

/-! ### A query -/

/-- A request that has no state yet gets one without a plan. -/
theorem state_spec {request : VllmRequest} {c' : Sched}
    (h : c.state cfg rid request = .ok (st, c')) : c'.states.get? rid = some st ∧
      c'.schedSession = c.schedSession ∧ c'.heldBy rid = c.heldBy rid ∧
      (c.Accounted → c'.Accounted) := by
  rcases state_cases h with ⟨hget, rfl⟩ | ⟨hget, keys, -, hst, rfl⟩
  · exact ⟨hget, rfl, rfl, id⟩
  · have hby : c.heldBy rid = none := by rw [heldBy, hget]; rfl
    have hnone : heldLease st = none := by rw [hst]; rfl
    refine ⟨get?_set_self _ _ _, rfl, ?_, fun hacc => ?_⟩
    · rw [hby, heldBy, note_states, put_states, get?_set_self, bind_some, hnone]
    · refine (hacc.put (hnone.trans hby.symm)).note ?_ ?_ ?_
      all_goals simp [Sched.note, granted, submitted, emitted]

/-- The lease of an answer ends up submitted or held, unless the answer has no key of the
pool's memory. -/
theorem Accounted.answered (h : c.Accounted) {n : ℕ}
    {r : LookupAnswer} {now : ℚ} (hst : c.states.get? rid = some st) (hheld : heldLease st = none)
    (hsession : c.schedSession.isSome) (hrkey : r.lease.isSome → r.rkey.isSome) :
    (c.answered cfg rid st n r now).2.Accounted := by
  -- the answer is noted first
  have hgranted : ∀ l, (c.note (.looked rid r)).granted.count l =
      c.granted.count l + r.lease.toList.count l := by
    intro l
    cases hl : r.lease <;> simp [Sched.note, granted, hl]
  have hsubmitted : (c.note (.looked rid r)).submitted = c.submitted := by
    simp [Sched.note, submitted]
  have hemitted : (c.note (.looked rid r)).emitted = c.emitted := by simp [Sched.note, emitted]
  have hby : (c.note (.looked rid r)).heldBy rid = none := by
    rw [heldBy, note_states, hst, bind_some, hheld]
  have hput : ∀ st' l, ((c.note (.looked rid r)).put rid st').held.count l =
      c.held.count l + (heldLease st').toList.count l := by
    intro st' l
    have := @count_held_put (c.note (.looked rid r)) rid st' l
    rwa [hby, toList_none, count_nil, Nat.add_zero, held_note] at this
  have hkeep : heldLease { st with dpuHits := max st.dpuHits r.hits } = none := hheld
  unfold Sched.answered
  dsimp only
  generalize min ((if cfg.enableLoad then r.hits else 0) * cfg.chunkTokens) (st.promptLen - 1) = loadable
  split_ifs with hcovered
  · -- nothing to load: the lease goes back at once
    constructor <;> intro l
    all_goals
      obtain ⟨hs, hg, he, hh⟩ := @count_releaseLease
        ((c.note (.looked rid r)).put rid { st with dpuHits := max st.dpuHits r.hits }) r.lease
        (fun _ => hsession) l
      have hc := h.covered l
      have ho := h.once l
      rw [hg, he, hh, hput, hkeep, granted_put, emitted_put, hgranted, hemitted]
      simp only [hs, submitted_put, hsubmitted, toList_none, count_nil]
      omega
  · cases hr : r.rkey with
    | none =>
      -- only an answer without a lease has no key
      have hlease : r.lease = none := by
        cases hl : r.lease with
        | none => rfl
        | some l => rw [hl, hr] at hrkey; exact absurd (hrkey rfl) (by simp)
      constructor <;> intro l
      all_goals
        have hc := h.covered l
        have ho := h.once l
        have hg := hgranted l
        simp only [hput, hkeep, hlease, granted_put, submitted_put, emitted_put, hsubmitted, hemitted,
          toList_none, count_nil] at hg ⊢
        omega
    | some rkey =>
      constructor <;> intro l
      all_goals
        have hc := h.covered l
        have ho := h.once l
        have hg := hgranted l
        simp only [hput, granted_put, submitted_put, emitted_put, hsubmitted, hemitted]
        simp only [heldLease, Bool.false_eq_true, if_false, bind_some]
        omega

/-- A lease that a request holds can be released. -/
def CanRelease (c : Sched) (rid : String) : Prop := (c.heldBy rid).isSome → c.schedSession.isSome

theorem Accounted.session (h : c.Accounted) (env : QueryEnv) : (c.session env).2.Accounted := by
  obtain ⟨hstates, htrace, -⟩ := @session_spec c env
  have hg : (c.session env).2.granted = c.granted := by rw [granted, htrace, granted]
  have hs : (c.session env).2.submitted = c.submitted := by rw [submitted, htrace, submitted]
  have he : (c.session env).2.emitted = c.emitted := by rw [emitted, htrace, emitted]
  have hh : (c.session env).2.held = c.held := by rw [held, hstates, held]
  exact ⟨fun l => by rw [hg, hs, he, hh]; exact h.covered l,
    fun l => by rw [hg, he, hh]; exact h.once l⟩

theorem Accounted.query (h : c.Accounted) {request : VllmRequest} {n : ℕ} {env : QueryEnv}
    (hcan : c.CanRelease rid)
    (hrkey : ∀ req r, env.reply req = some r → r.lease.isSome → r.rkey.isSome) :
    (c.getNumNewMatchedTokens cfg rid request n env).2.Accounted := by
  rcases @query_cases cfg c rid request n env with hc | ⟨-, st, c₁, hstate, hrest⟩
  · rwa [hc]
  obtain ⟨hget, hsession₁, hby, hacc⟩ := state_spec hstate
  rcases hrest with hc | ⟨c₂, rfl, hrest⟩
  · rw [hc]
    exact hacc h
  -- the old plan is dropped before the session is looked at
  have hdrop : (c₁.dropPlan rid st).2.Accounted := by
    refine (hacc h).dropPlan hget fun hheld => ?_
    rw [hsession₁]
    refine hcan ?_
    rwa [← hby, heldBy, hget, bind_some]
  rcases hrest with hc | ⟨r, hreply, hsome, hc⟩
  · rw [hc]
    exact hdrop.session env
  · rw [hc]
    exact (hdrop.session env).answered (get?_session_dropPlan env) heldLease_dropPlan hsome
      (hrkey _ r hreply)

/-! ### The other hooks -/

theorem Accounted.alloc (h : c.Accounted) {n : ℕ} (hcan : n = 0 → c.CanRelease rid) :
    (c.updateStateAfterAlloc rid n).Accounted := by
  unfold updateStateAfterAlloc
  cases hget : c.states.get? rid with
  | none => exact h
  | some st =>
    dsimp only
    split_ifs with hdrop
    · refine h.dropPlan hget fun hheld => hcan hdrop.1 ?_
      rwa [heldBy, hget, bind_some]
    · exact h

/-- A finished request gives its lease back. -/
theorem Accounted.finish (h : c.Accounted) (hcan : c.CanRelease rid) :
    (c.requestFinished rid).Accounted := by
  unfold requestFinished
  cases hget : c.states.get? rid with
  | none =>
    refine h.note ?_ ?_ ?_
    all_goals simp [Sched.note, granted, submitted, emitted]
  | some st =>
    have hby : c.heldBy rid = heldLease st := by rw [heldBy, hget, bind_some]
    dsimp only
    generalize hrest : ({ c with states := c.states.erase rid } : Sched) = d
    obtain ⟨hg, hs, he, hsession, hh⟩ : d.granted = c.granted ∧ d.submitted = c.submitted ∧
        d.emitted = c.emitted ∧ d.schedSession = c.schedSession ∧
        ∀ l, c.held.count l = (heldLease st).toList.count l + d.held.count l := by
      subst hrest
      exact ⟨rfl, rfl, rfl, rfl, fun l => by rw [count_held c rid l, hby]; rfl⟩
    obtain ⟨hg', he', hh', hs'⟩ := @releaseLease_accounts d (st.plan.bind Plan.lease)
    have hnote : ∀ e : Sched, e.Accounted → (e.note (.finished rid)).Accounted := by
      intro e hacc
      refine hacc.note ?_ ?_ ?_
      all_goals simp [Sched.note, granted, submitted, emitted]
    apply hnote
    constructor <;> intro l
    all_goals
      have hc := h.covered l
      have ho := h.once l
      have hhold := hh l
      have hle := hs' l
      rw [hg', he', hh', hg, he]
      rw [hs] at hle
    · -- a plan that was emitted may be released in vain: its lease counts as emitted
      cases hheld : heldLease st with
      | none =>
        rw [hheld, toList_none, count_nil] at hhold
        omega
      | some lease =>
        have hplan : st.plan.bind Plan.lease = some lease := by
          unfold heldLease at hheld
          split_ifs at hheld
          exact hheld
        have hsome : c.schedSession.isSome := hcan (by rw [hby, hheld]; rfl)
        obtain ⟨hs'', -⟩ := @count_releaseLease d (st.plan.bind Plan.lease)
          (fun _ => by rw [hsession]; exact hsome) l
        rw [hplan, hs] at hs''
        rw [hplan] at hle ⊢
        rw [hheld] at hhold
        omega
    · omega

theorem heldLease_afterEmit (st : ReqState) (tokens : ℕ) : heldLease (afterEmit cfg st tokens) = none := by
  have hnone : ∀ st : ReqState,
      heldLease { st with loadEmitted := st.loadEmitted || st.plan.isSome } = none := by
    intro st
    unfold heldLease
    cases hplan : st.plan <;> simp
  unfold afterEmit
  dsimp only
  split_ifs
  · exact hnone st
  · exact hnone _

theorem emitLoad_lease (st : ReqState) :
    ((emitLoad st).bind fun spec => spec.lease) = heldLease st := by
  unfold emitLoad heldLease
  split_ifs
  · rfl
  · cases st.plan <;> rfl

/-- A round of the loop moves the lease of its request from the held ones into the
metadata. -/
theorem count_emitItem {cm : Sched × Metadata} {it : StepItem}
    (hfresh : cm.2.loads.get? it.rid = none) (l : ℤ) :
    (emitItem cfg cm it).1.held.count l + (leasesOf (emitItem cfg cm it).2).count l =
      cm.1.held.count l + (leasesOf cm.2).count l := by
  cases hget : cm.1.states.get? it.rid with
  | none => rw [emitItem_of_none hget]
  | some st =>
    have hput := @count_held_put cm.1 it.rid (afterEmit cfg (it.blocked st) it.reach) l
    have hby : cm.1.heldBy it.rid = heldLease (it.blocked st) := by
      rw [heldBy, hget, bind_some]
      rfl
    rw [heldLease_afterEmit, hby, ← emitLoad_lease, toList_none, count_nil] at hput
    have hloads : ∀ (spec : Option PlannedLoad) (saves : Dict String SaveSpec),
        (leasesOf ⟨setSome cm.2.loads it.rid spec, saves⟩).count l =
          (spec.bind fun spec => spec.lease).toList.count l + (leasesOf cm.2).count l := by
      intro spec saves
      cases spec with
      | none => simp [setSome, leasesOf]
      | some spec =>
        unfold leasesOf setSome
        rw [((values_set_perm_of_get?_eq_none hfresh spec).filterMap _).count_eq,
          count_filterMap_cons]
        rfl
    rw [emitItem_of_some hget, hloads]
    dsimp only
    omega

theorem count_emitItems (l : ℤ) : ∀ {items : List StepItem} {cm : Sched × Metadata},
    (items.map StepItem.rid).Nodup → (∀ it ∈ items, cm.2.loads.get? it.rid = none) →
      (items.foldl (emitItem cfg) cm).1.held.count l +
          (leasesOf (items.foldl (emitItem cfg) cm).2).count l =
        cm.1.held.count l + (leasesOf cm.2).count l := by
  intro items
  induction items with
  | nil => exact fun _ _ => rfl
  | cons it items ih =>
    intro cm hnodup hfresh
    rw [map_cons, nodup_cons] at hnodup
    rw [foldl_cons, ih hnodup.2, count_emitItem (hfresh it mem_cons_self)]
    -- the loads of the other requests are still to come
    intro it' hit'
    have hne : it'.rid ≠ it.rid := fun h => hnodup.1 (mem_map.mpr ⟨it', hit', h⟩)
    cases hget : cm.1.states.get? it.rid with
    | none =>
      rw [emitItem_of_none hget]
      exact hfresh it' (mem_cons_of_mem _ hit')
    | some st =>
      rw [emitItem_of_some hget, get?_setSome, if_neg hne]
      exact hfresh it' (mem_cons_of_mem _ hit')

theorem Accounted.build (h : c.Accounted) (out : SchedulerOutput) :
    (c.buildConnectorMeta cfg out).2.Accounted := by
  unfold buildConnectorMeta
  split_ifs with henabled
  · refine h.note ?_ ?_ ?_
    all_goals simp [Sched.note, granted, submitted, emitted, leasesOf]
  · have htrace := @emitItems_trace cfg out.items (c, ⟨∅, ∅⟩)
    have hcount := fun l => @count_emitItems cfg l out.items (c, ⟨∅, ∅⟩) (nodup_items out)
      fun it _ => rfl
    generalize out.items.foldl (emitItem cfg) (c, ⟨∅, ∅⟩) = cm at htrace hcount ⊢
    obtain ⟨c', md⟩ := cm
    dsimp only at htrace hcount ⊢
    have hg : (c'.note (.built out md)).granted = c.granted := by simp [Sched.note, granted, htrace]
    have hs : (c'.note (.built out md)).submitted = c.submitted := by
      simp [Sched.note, submitted, htrace]
    have he : (c'.note (.built out md)).emitted = c.emitted ++ leasesOf md := by
      simp [Sched.note, emitted, htrace]
    constructor <;> intro l
    all_goals
      have hc := h.covered l
      have ho := h.once l
      have hmove : c'.held.count l + (leasesOf md).count l = c.held.count l := hcount l
      rw [hg, he, held_note, count_append]
    · rw [hs]
      omega
    · omega

/-! ### Runs -/

/-- A call that cannot lose a lease: a request that holds one is only dropped, asked about
or finished while there is a session, and an answer with a lease has the key of the pool's
memory. -/
def Careful (c : Sched) : SchedCall → Prop
  | .query rid _ _ env =>
    c.CanRelease rid ∧ ∀ req r, env.reply req = some r → r.lease.isSome → r.rkey.isSome
  | .alloc rid n => n = 0 → c.CanRelease rid
  | .build _ => True
  | .finish rid => c.CanRelease rid

variable (cfg) in
/-- The states of runs whose calls are all careful. -/
inductive CarefulRun : Sched → Prop
  | init : CarefulRun Sched.init
  | call {c : Sched} {k : SchedCall} (h : CarefulRun c) (hk : c.Careful k) : CarefulRun (c.call cfg k)

theorem Accounted.call (h : c.Accounted) {k : SchedCall} (hk : c.Careful k) :
    (c.call cfg k).Accounted := by
  cases k with
  | query rid request n env => exact h.query hk.1 hk.2
  | alloc rid n => exact h.alloc hk
  | build out => exact h.build out
  | finish rid => exact h.finish hk

theorem accounted_of_run (h : CarefulRun cfg c) : c.Accounted := by
  induction h with
  | init => exact ⟨fun _ => le_rfl, fun _ => le_rfl⟩
  | call _ hk ih => exact ih.call hk

/-- In a list without duplicates that is balanced against two others, nothing is in both. -/
theorem Accounted.count_le_one (h : c.Accounted) (hnodup : c.granted.Nodup) (l : ℤ) :
    c.emitted.count l + c.held.count l ≤ 1 :=
  (h.once l).trans (nodup_iff_count_le_one.mp hnodup l)

/-- Two requests do not hold one lease. -/
theorem Accounted.rid_eq (h : c.Accounted) (hnodup : c.granted.Nodup) {rid' : String} {l : ℤ}
    (hheld : c.heldBy rid = some l) (hheld' : c.heldBy rid' = some l) : rid = rid' := by
  by_contra hne
  have hcount := count_held c rid l
  rw [hheld, toList_some, count_singleton_self] at hcount
  -- the other request is still there when the first is taken out
  have hmem : l ∈ (c.states.erase rid).values.filterMap heldLease := by
    obtain ⟨st, hst, hl⟩ := bind_eq_some_iff.mp hheld'
    refine mem_filterMap.mpr ⟨st, mem_values_iff.mpr ⟨rid', ?_⟩, hl⟩
    rw [get?_erase_of_ne _ (Ne.symm hne), hst]
  have hpos := count_pos_iff.mpr hmem
  have hle := h.count_le_one hnodup l
  omega

/-- **Where the leases are.** In a run of careful calls, every lease granted has been submitted for
release, or emitted in a load, or is held by the plan of a request that has not emitted it. If no
lease was granted twice, none is in two loads, and one that is held is held by one request and has
not been emitted. -/
theorem leases_of_run (h : CarefulRun cfg c) :
    (∀ l ∈ c.granted, l ∈ c.submitted ∨ l ∈ c.emitted ∨ ∃ rid, c.heldBy rid = some l) ∧
    (c.granted.Nodup → c.emitted.Nodup ∧ ∀ l rid, c.heldBy rid = some l →
      l ∉ c.emitted ∧ ∀ rid', c.heldBy rid' = some l → rid' = rid) := by
  have hacc := accounted_of_run h
  constructor
  · intro l hl
    have hpos := count_pos_iff.mpr hl
    have hcovered := hacc.covered l
    by_contra hnot
    rw [not_or, not_or, not_exists] at hnot
    obtain ⟨hsubmitted, hemitted, hheld⟩ := hnot
    -- a lease that is held is held by a request
    have hnone : l ∉ c.held := by
      intro hmem
      obtain ⟨rid, st, hst, hlease⟩ := mem_held.mp hmem
      exact hheld rid (by rw [heldBy, hst, bind_some, hlease])
    rw [count_eq_zero.mpr hsubmitted, count_eq_zero.mpr hemitted,
      count_eq_zero.mpr hnone] at hcovered
    omega
  · intro hnodup
    refine ⟨nodup_iff_count_le_one.mpr fun l => ?_, fun l rid hheld => ⟨fun hmem => ?_, ?_⟩⟩
    · exact (Nat.le_add_right _ _).trans (hacc.count_le_one hnodup l)
    · have hpos := count_pos_iff.mpr hmem
      have hcount := count_held c rid l
      rw [hheld, toList_some, count_singleton_self] at hcount
      have hle := hacc.count_le_one hnodup l
      omega
    · exact fun rid' hheld' => hacc.rid_eq hnodup hheld' hheld

theorem leases_of_one_load : 1 ∈ (run sampleSchedConfig sampleCalls).granted ∧
    1 ∉ (run sampleSchedConfig sampleCalls).submitted ∧
    1 ∈ (run sampleSchedConfig sampleCalls).emitted := by
  have hquery : CarefulRun sampleSchedConfig (run sampleSchedConfig (sampleCalls.take 1)) := by
    have hcareful : init.Careful (.query "a" (BlockHasher.adapterRequest none [5, 6]) 0
        (sampleQuery 0 true true 1 (some 7))) := by
      refine ⟨(fun h => nomatch h), fun req r hr _ => ?_⟩
      cases hr
      rfl
    exact CarefulRun.init.call hcareful
  have halloc : CarefulRun sampleSchedConfig (run sampleSchedConfig (sampleCalls.take 2)) :=
    @CarefulRun.call _ _ (.alloc "a" 1) hquery fun hzero => absurd hzero Nat.one_ne_zero
  have hrun : CarefulRun sampleSchedConfig (run sampleSchedConfig sampleCalls) :=
    @CarefulRun.call _ _ (.build sampleStep) halloc trivial
  have hgranted : 1 ∈ (run sampleSchedConfig sampleCalls).granted := by decide +kernel
  have hsubmitted : 1 ∉ (run sampleSchedConfig sampleCalls).submitted := by decide +kernel
  refine ⟨hgranted, hsubmitted, ?_⟩
  rcases (leases_of_run hrun).1 1 hgranted with h | h | ⟨rid, h⟩
  · exact absurd h hsubmitted
  · exact h
  · obtain ⟨st, hst, hl⟩ := bind_eq_some_iff.mp h
    have hheld : (1 : ℤ) ∉ (run sampleSchedConfig sampleCalls).held := by decide +kernel
    exact absurd (mem_held.mpr ⟨rid, st, hst, hl⟩) hheld

/-- Two ways to lose lease 1: the plan of a request is dropped after the connection broke and
another request could not reconnect; and the answer has no key of the pool's memory. -/
theorem not_accounted_after_lost_session :
    let lost := run sampleSchedConfig [
      .query "a" (BlockHasher.adapterRequest none [5, 6]) 0 (sampleQuery 0 true true 1 (some 7)),
      .query "b" (BlockHasher.adapterRequest none [5, 6]) 0 (sampleQuery 1 false false 2 (some 7)),
      .alloc "a" 0]
    let keyless := run sampleSchedConfig [
      .query "a" (BlockHasher.adapterRequest none [5, 6]) 0 (sampleQuery 0 true true 1 none)]
    (1 ∈ lost.granted ∧ 1 ∉ lost.submitted ∧ 1 ∉ lost.emitted ∧ 1 ∉ lost.held) ∧
      1 ∈ keyless.granted ∧ 1 ∉ keyless.submitted ∧ 1 ∉ keyless.emitted ∧ 1 ∉ keyless.held := by
  decide +kernel

end Sched

end CacheFlow
