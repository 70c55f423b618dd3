import CacheFlow.Lib.Recency
import CacheFlow.Lib.Steps

/-!
# Several connectors at once

`MultiConnector` of `kv_connector/v1/multi_connector.py` stands for a list of connectors: it
forwards the calls of the engine to each of them, lets one of them load, and reports a request as
sent when all that save it have. There is one instance in the scheduler and one in the worker. How
many reports to wait for is known to the scheduler, from the answers to `request_finished`, and goes
to the worker with the metadata of the next step.

The connectors themselves are arbitrary: what they answer comes with the call. They keep to the
contract of `get_finished` in `kv_connector/v1/base.py`: a connector reports a request once, after
it has announced an asynchronous save for it and the worker knows that the request has finished.

The counts are right. But `handle_preemptions` is not forwarded, the method is inherited from the
base class, which does nothing; a connector that saves asynchronously is never told that the blocks
it reads are about to be overwritten. And if two connectors return transfer parameters,
`request_finished` raises before it has reached the others.

## Main definitions

* `MultiRun.Transparent` — the connectors have seen what they would have seen alone.

## Main results

* `MultiRun.always_transparent_iff` — **exactly the runs without preemptions in which no two
  connectors return parameters for a request.**
-/

namespace CacheFlow.Connector

open List Function Option Steps

/-! ### Calls -/

/-- A call of the engine, as a connector sees it. `R` are the request ids. -/
inductive HookCall (R : Type) where
  | getNumNewMatchedTokens (r : R) (numComputedTokens : ℕ)
  | updateStateAfterAlloc (r : R) (blocks : List ℕ) (numExternalTokens : ℕ)
  | buildConnectorMeta
  | updateConnectorOutput
  | requestFinished (r : R) (blocks : List ℕ)
  | bindConnectorMetadata
  | clearConnectorMetadata
  | startLoadKv
  | waitForLayerLoad (layer : ℕ)
  | saveKvLayer (layer : ℕ)
  | waitForSave
  | handlePreemptions (preempted : List R)
  | getFinished (finished : List R)
  deriving DecidableEq, Repr

namespace HookCall

variable {R : Type}

/-- The call tells a connector which blocks to load. -/
def isAlloc : HookCall R → Bool
  | .updateStateAfterAlloc _ _ _ => true
  | _ => false

/-- The call is to reach all connectors: it is not part of the choice of the one that loads. -/
def isShared : HookCall R → Bool
  | .getNumNewMatchedTokens _ _ | .updateStateAfterAlloc _ _ _ => false
  | _ => true

end HookCall

/-! ### The connector -/

/-- `MultiConnector`. `P` are the transfer parameters. -/
structure MultiConnector (R : Type) where
  /-- `_requests_to_connector`: the connector that was chosen to load a request. -/
  requestsToConnector : Dict R ℕ
  /-- `_extra_async_saves`: how many saves of a request remain, beyond one. -/
  extraAsyncSaves : Dict R ℕ

/-- What the scheduler sends to the worker: the requests that have finished, and
`MultiKVConnectorMetadata.extra_async_saves`. -/
structure MultiMetadata (R : Type) where
  /-- `finished_req_ids` of the scheduler's output. -/
  finishedReqIds : List R
  /-- The counts. -/
  extraAsyncSaves : Dict R ℕ

namespace MultiConnector

variable {R P : Type} [DecidableEq R]

/-- A new instance. -/
def new : MultiConnector R := ⟨∅, ∅⟩

/-- The loop of `get_num_new_matched_tokens` from the connector of index `i` on, over the answers
`(toks, load_async)`. It returns the result, the choice and how many connectors were asked. -/
def matchLoop (r : R) : List (Option ℕ × Bool) → ℕ → ℕ × Bool → Dict R ℕ →
    (Option ℕ × Bool) × Dict R ℕ × ℕ
  | [], i, toReturn, chosen => ((some toReturn.1, toReturn.2), chosen, i)
  | (none, _) :: _, i, _, chosen => ((none, false), chosen, i + 1)
  | (some toks, loadAsync) :: answers, i, toReturn, chosen =>
    if toReturn.1 = 0 ∧ 0 < toks then
      matchLoop r answers (i + 1) (toks, loadAsync) (chosen.set r i)
    else matchLoop r answers (i + 1) toReturn chosen

/-- `get_num_new_matched_tokens`. -/
def getNumNewMatchedTokens (m : MultiConnector R) (r : R) (answers : List (Option ℕ × Bool)) :
    (Option ℕ × Bool) × MultiConnector R × ℕ :=
  let out := matchLoop r answers 0 (0, false) m.requestsToConnector
  (out.1, { m with requestsToConnector := out.2.1 }, out.2.2)

/-- The loop of `request_finished`, over the answers `(async_save, txfer_params)`. It raises at the
second connector that returns parameters. With the result comes how many connectors were told. -/
def finishLoop : List (Bool × Option P) → ℕ → Option P → ℕ → Option (ℕ × Option P) × ℕ
  | [], asyncSaves, params, told => (some (asyncSaves, params), told)
  | (asyncSave, some new) :: answers, asyncSaves, none, told =>
    finishLoop answers (asyncSaves + asyncSave.toNat) (some new) (told + 1)
  | (_, some _) :: _, _, some _, told => (none, told + 1)
  | (asyncSave, none) :: answers, asyncSaves, params, told =>
    finishLoop answers (asyncSaves + asyncSave.toNat) params (told + 1)

/-- `request_finished`: nothing if it raises. -/
def requestFinished (m : MultiConnector R) (r : R) (answers : List (Bool × Option P)) :
    Option ((Bool × Option P) × MultiConnector R) :=
  match (finishLoop answers 0 none 0).1 with
  | none => none
  | some (asyncSaves, params) =>
    some ((0 < asyncSaves, params),
      { requestsToConnector := m.requestsToConnector.erase r
        extraAsyncSaves :=
          if 1 < asyncSaves then m.extraAsyncSaves.set r (asyncSaves - 1)
          else m.extraAsyncSaves })

/-- `bind_connector_metadata`: the counts are added to those of the worker. -/
def bindConnectorMetadata (m : MultiConnector R) (metadata : MultiMetadata R) : MultiConnector R :=
  { m with
    extraAsyncSaves :=
      metadata.extraAsyncSaves.items.foldl (fun d p => d.set p.1 p.2) m.extraAsyncSaves }

/-- One completion in `get_finished`: the request is added to the set of finished ones, or its count
goes down. It raises if the count is not positive. -/
def drain (acc : Dict R ℕ × List R) (r : R) : Option (Dict R ℕ × List R) :=
  match acc.1.get? r with
  | none => some (acc.1, if r ∈ acc.2 then acc.2 else acc.2 ++ [r])
  | some 0 => none
  | some 1 => some (acc.1.erase r, acc.2)
  | some (extraPending + 2) => some (acc.1.set r (extraPending + 1), acc.2)

/-- The completions that the connectors report, with the index of the connector. -/
def completions (answers : List (List R × List R)) : List (ℕ × R) :=
  answers.zipIdx.flatMap fun p => p.1.1.map fun r => (p.2, r)

/-- `get_finished`, over the answers `(sending, recving)`: the requests that are reported as sent,
nothing if it raises. -/
def getFinished (m : MultiConnector R) (answers : List (List R × List R)) :
    Option (MultiConnector R × List R) :=
  (((completions answers).map Prod.snd).foldlM drain (m.extraAsyncSaves, [])).map fun acc =>
    ({ m with extraAsyncSaves := acc.1 }, acc.2)

/-- How many connectors `get_finished` asks when it raises. -/
def numAsked (m : MultiConnector R) (answers : List (List R × List R)) : ℕ :=
  (List.range answers.length).findIdx (fun k => (m.getFinished (answers.take (k + 1))).isNone) + 1

end MultiConnector

/-! ### Runs -/

/-- A call of the engine, with what the connectors answer. -/
inductive MultiCall (R P : Type) where
  /-- The connectors are asked what they could load. -/
  | getNumNewMatchedTokens (r : R) (numComputedTokens : ℕ) (answers : List (Option ℕ × Bool))
  /-- The blocks to load into. -/
  | updateStateAfterAlloc (r : R) (blocks : List ℕ) (numExternalTokens : ℕ)
  /-- The scheduler ends its step. -/
  | buildConnectorMeta
  /-- The scheduler passes the output of the worker on. -/
  | updateConnectorOutput
  | requestFinished (r : R) (blocks : List ℕ) (answers : List (Bool × Option P))
  /-- The worker begins the next step. -/
  | bindConnectorMetadata
  /-- The worker ends the step. -/
  | clearConnectorMetadata
  /-- The loads of the step begin. -/
  | startLoadKv
  /-- A layer is needed. -/
  | waitForLayerLoad (layer : ℕ)
  /-- A layer is computed. -/
  | saveKvLayer (layer : ℕ)
  /-- The saves of the step end. -/
  | waitForSave
  /-- The blocks of preempted requests will be overwritten. -/
  | handlePreemptions (preempted : List R)
  /-- The connectors are asked which transfers have ended. -/
  | getFinished (answers : List (List R × List R))

/-- The state of a run. The last seven fields record what has happened. -/
structure MultiRun (R : Type) where
  /-- The instance of the scheduler. -/
  scheduler : MultiConnector R
  /-- The instance of the worker. -/
  worker : MultiConnector R
  /-- The requests that have finished since the last step. -/
  finishedReqIds : List R
  /-- Metadata that was built and is not bound yet. -/
  channel : List (MultiMetadata R)
  /-- The finished requests of the step that the worker is in. -/
  current : List R
  /-- A call has raised. -/
  raised : Bool
  /-- The calls of the engine. -/
  made : List (HookCall R)
  /-- The allocations, with the connector that was chosen. -/
  allocs : List (HookCall R × Option ℕ)
  /-- The calls that each connector has seen. -/
  seen : ℕ → List (HookCall R)
  /-- The requests that have finished, in the order of their finishing. -/
  finished : List R
  /-- Those of them whose step has reached the worker. -/
  delivered : List R
  /-- The connectors that save a request asynchronously. -/
  announced : R → List ℕ
  reported : R → List ℕ
  /-- What `get_finished` has returned. -/
  reports : List R

namespace MultiRun

open MultiConnector

variable {R P : Type} [DecidableEq R]

/-- Before the first call. -/
def start : MultiRun R where
  scheduler := .new
  worker := .new
  finishedReqIds := []
  channel := []
  current := []
  raised := false
  made := []
  allocs := []
  seen := fun _ => []
  finished := []
  delivered := []
  announced := fun _ => []
  reported := fun _ => []
  reports := []

/-- The first `told` connectors see a call. -/
def tell (t : MultiRun R) (told : ℕ) (c : HookCall R) : ℕ → List (HookCall R) := fun i =>
  if i < told then t.seen i ++ [c] else t.seen i

/-- What a connector sees of an allocation: the blocks only if it was chosen. -/
def forwarded (c : HookCall R) (chosen : Option ℕ) (i : ℕ) : HookCall R :=
  match c with
  | .updateStateAfterAlloc r _ _ => if chosen = some i then c else .updateStateAfterAlloc r [] 0
  | c => c

/-- A call that is forwarded to all `n` connectors and changes nothing else. -/
def shared (n : ℕ) (t : MultiRun R) (c : HookCall R) : MultiRun R :=
  { t with made := t.made ++ [c], seen := t.tell n c }

/-- The connectors that announce an asynchronous save. -/
def savers (answers : List (Bool × Option P)) : List ℕ :=
  (answers.zipIdx.filter fun p => p.1.1).map Prod.snd

/-- The requests that were reported so far, and those that are reported now. -/
def reportedAfter (reported : R → List ℕ) (done : List (ℕ × R)) : R → List ℕ :=
  done.foldl (fun f p => update f p.2 (f p.2 ++ [p.1])) reported

/-- What the engine and the connectors keep to: `n` connectors answer, a request finishes once, and
a connector reports a request once, if it has announced a save of it and knows that it has
finished. -/
def Allowed (n : ℕ) (t : MultiRun R) : MultiCall R P → Prop
  | .getNumNewMatchedTokens _ _ answers => answers.length = n
  | .requestFinished r _ answers => answers.length = n ∧ r ∉ t.finished
  | .bindConnectorMetadata => t.channel ≠ []
  | .getFinished answers =>
    answers.length = n ∧ (completions answers).Nodup ∧
      ∀ p ∈ completions answers, p.1 ∈ t.announced p.2 ∧ p.1 ∉ t.reported p.2 ∧ p.2 ∈ t.delivered
  | _ => True

instance (n : ℕ) (t : MultiRun R) (c : MultiCall R P) : Decidable (t.Allowed n c) := by
  cases c <;> unfold Allowed <;> infer_instance

/-- The state after a call. -/
def after (n : ℕ) (t : MultiRun R) : MultiCall R P → MultiRun R
  | .getNumNewMatchedTokens r numComputedTokens answers =>
    let out := t.scheduler.getNumNewMatchedTokens r answers
    { t with
      scheduler := out.2.1
      made := t.made ++ [.getNumNewMatchedTokens r numComputedTokens]
      seen := t.tell out.2.2 (.getNumNewMatchedTokens r numComputedTokens) }
  | .updateStateAfterAlloc r blocks numExternalTokens =>
    let c : HookCall R := .updateStateAfterAlloc r blocks numExternalTokens
    let chosen := t.scheduler.requestsToConnector.get? r
    { t with
      made := t.made ++ [c]
      allocs := t.allocs ++ [(c, chosen)]
      seen := fun i => if i < n then t.seen i ++ [forwarded c chosen i] else t.seen i }
  | .buildConnectorMeta =>
    { t.shared n .buildConnectorMeta with
      scheduler := { t.scheduler with extraAsyncSaves := ∅ }
      finishedReqIds := []
      channel := t.channel ++ [⟨t.finishedReqIds, t.scheduler.extraAsyncSaves⟩] }
  | .updateConnectorOutput => t.shared n .updateConnectorOutput
  | .requestFinished r blocks answers =>
    match t.scheduler.requestFinished r answers with
    | none =>
      { t with
        raised := true
        made := t.made ++ [.requestFinished r blocks]
        seen := t.tell (finishLoop answers 0 none 0).2 (.requestFinished r blocks) }
    | some (_, scheduler) =>
      { t.shared n (.requestFinished r blocks) with
        scheduler := scheduler
        finishedReqIds := t.finishedReqIds ++ [r]
        finished := t.finished ++ [r]
        announced := update t.announced r (savers answers) }
  | .bindConnectorMetadata =>
    match t.channel with
    | [] => t
    | metadata :: channel =>
      { t.shared n .bindConnectorMetadata with
        worker := t.worker.bindConnectorMetadata metadata
        channel := channel
        current := metadata.finishedReqIds
        delivered := t.delivered ++ metadata.finishedReqIds }
  | .clearConnectorMetadata => t.shared n .clearConnectorMetadata
  | .startLoadKv => t.shared n .startLoadKv
  | .waitForLayerLoad layer => t.shared n (.waitForLayerLoad layer)
  | .saveKvLayer layer => t.shared n (.saveKvLayer layer)
  | .waitForSave => t.shared n .waitForSave
  | .handlePreemptions preempted =>
    -- the method of the base class
    { t with made := t.made ++ [.handlePreemptions preempted] }
  | .getFinished answers =>
    match t.worker.getFinished answers with
    | none =>
      { t with
        raised := true
        made := t.made ++ [.getFinished t.current]
        seen := t.tell (t.worker.numAsked answers) (.getFinished t.current) }
    | some (worker, finishedSending) =>
      { t.shared n (.getFinished t.current) with
        worker := worker
        reported := reportedAfter t.reported (completions answers)
        reports := t.reports ++ finishedSending }

/-- One call. After a call that has raised there are no more. -/
def step (n : ℕ) (t : MultiRun R) (c : MultiCall R P) : Option (MultiRun R) :=
  if t.raised = false ∧ t.Allowed n c then some (t.after n c) else none

/-- **The connectors do not notice each other.** -/
structure Transparent (n : ℕ) (t : MultiRun R) : Prop where
  returned : t.raised = false
  /-- Each connector has seen the calls of the engine. -/
  hooks : ∀ i < n, (t.seen i).filter HookCall.isShared = t.made.filter HookCall.isShared
  /-- The blocks to load into went to the chosen connector only. -/
  loads : ∀ i < n, (t.seen i).filter HookCall.isAlloc = t.allocs.map fun a => forwarded a.1 a.2 i
  /-- A request is reported once, when all connectors that save it have reported it. -/
  reports : ∀ r, t.reports.count r =
    if t.announced r ≠ [] ∧ ∀ i ∈ t.announced r, i ∈ t.reported r then 1 else 0

/-- There is nobody to tell of a preemption, and at most one connector returns parameters. -/
def Harmless (n : ℕ) : MultiCall R P → Prop
  | .handlePreemptions _ => n = 0
  | .requestFinished _ _ answers => answers.countP (·.2.isSome) ≤ 1
  | _ => True

/-! ### Counting down -/

/-- The count of a request that `k` connectors save, after `d` of them have reported it. -/
def remaining (k d : ℕ) : Option ℕ := if d + 1 < k then some (k - 1 - d) else none

/-- What the worker counts is what remains. -/
structure Counted (announced reported : R → List ℕ) (delivered : List R) (extra : Dict R ℕ)
    (reports : List R) : Prop where
  announced_nodup : ∀ r, (announced r).Nodup
  reported_nodup : ∀ r, (reported r).Nodup
  subset : ∀ r, reported r ⊆ announced r
  early : ∀ r ∉ delivered, reported r = []
  /-- The counts. -/
  extra : ∀ r, extra.get? r =
    if r ∈ delivered then remaining (announced r).length (reported r).length else none
  reports : ∀ r, reports.count r =
    if announced r ≠ [] ∧ (reported r).length = (announced r).length then 1 else 0

section Counting

variable {announced reported : R → List ℕ} {delivered reports : List R} {extra : Dict R ℕ}

/-- All savers have reported a request when as many have as there are. -/
theorem Counted.length_eq_iff (h : Counted announced reported delivered extra reports) (r : R) :
    (reported r).length = (announced r).length ↔ ∀ i ∈ announced r, i ∈ reported r := by
  have hsub : (reported r).Subperm (announced r) :=
    subperm_of_subset (h.reported_nodup r) (h.subset r)
  constructor
  · intro hlen i hi
    exact (hsub.perm_of_length_le hlen.ge).mem_iff.mpr hi
  · intro hall
    refine le_antisymm hsub.length_le ?_
    exact (subperm_of_subset (h.announced_nodup r) hall).length_le

variable {r : R}

theorem Counted.report (h : Counted announced reported delivered extra reports) {i : ℕ}
    (hi : i ∈ announced r) (hnew : i ∉ reported r) :
    (reported r).length < (announced r).length ∧ (reported r ++ [i]).Nodup ∧
      reported r ++ [i] ⊆ announced r := by
  have hnd : (reported r ++ [i]).Nodup := by
    refine nodup_append.mpr ⟨h.reported_nodup r, nodup_singleton i, ?_⟩
    rintro j hj k hk rfl
    exact hnew (mem_singleton.mp hk ▸ hj)
  have hsub : reported r ++ [i] ⊆ announced r := by
    intro j hj
    rcases mem_append.mp hj with hj | hj
    · exact h.subset r hj
    · exact mem_singleton.mp hj ▸ hi
  have hle := (subperm_of_subset hnd hsub).length_le
  rw [length_append, length_singleton] at hle
  exact ⟨hle, hnd, hsub⟩

/-- **One completion.** The count goes down, or the request is reported. -/
theorem Counted.drain {base acc : List R}
    (h : Counted announced reported delivered extra (base ++ acc)) {i : ℕ}
    (hi : i ∈ announced r) (hnew : i ∉ reported r) (hr : r ∈ delivered) :
    ∃ extra' acc', MultiConnector.drain (extra, acc) r = some (extra', acc') ∧
      Counted announced (update reported r (reported r ++ [i])) delivered extra'
        (base ++ acc') := by
  obtain ⟨hlt, hnd, hsub⟩ := h.report hi hnew
  have hne : announced r ≠ [] := ne_nil_of_mem hi
  have hcount := h.extra r
  have hreport := h.reports r
  rw [if_neg (by omega)] at hreport
  -- it is enough to say what becomes of the count and of the reports
  have hbuild : ∀ extra' acc', (∀ r' ≠ r, extra'.get? r' = extra.get? r') →
      extra'.get? r = remaining (announced r).length ((reported r).length + 1) →
      (∀ r' ≠ r, (base ++ acc').count r' = (base ++ acc).count r') →
      ((base ++ acc').count r = if (reported r).length + 1 = (announced r).length then 1 else 0) →
      Counted announced (update reported r (reported r ++ [i])) delivered extra'
        (base ++ acc') := by
    intro extra' acc' hother hthis hotherReports hthisReports
    refine ⟨h.announced_nodup, fun r' => ?_, fun r' => ?_, fun r' hr' => ?_, fun r' => ?_,
      fun r' => ?_⟩
    all_goals by_cases hrr : r' = r
    · subst hrr
      rw [update_self]
      exact hnd
    · rw [update_of_ne hrr]
      exact h.reported_nodup r'
    · subst hrr
      rw [update_self]
      exact hsub
    · rw [update_of_ne hrr]
      exact h.subset r'
    · exact absurd (hrr ▸ hr) hr'
    · rw [update_of_ne hrr]
      exact h.early r' hr'
    · subst hrr
      rw [update_self, if_pos hr, hthis, length_append, length_singleton]
    · rw [update_of_ne hrr, hother r' hrr]
      exact h.extra r'
    · subst hrr
      rw [update_self, hthisReports, length_append, length_singleton]
      simp only [ne_eq, hne, not_false_eq_true, true_and]
    · rw [update_of_ne hrr, hotherReports r' hrr]
      exact h.reports r'
  unfold remaining at hcount
  unfold MultiConnector.drain
  split_ifs at hcount with hmore
  · -- others are to follow
    obtain ⟨left, hleft⟩ : ∃ left, (announced r).length - 1 - (reported r).length = left + 1 :=
      ⟨_, (Nat.succ_pred_eq_of_pos (by omega)).symm⟩
    rw [hleft] at hcount
    simp only [hcount]
    cases left with
    | zero =>
      -- one more is to come, which the source notes by no entry
      refine ⟨_, _, rfl, hbuild _ _ (fun r' hrr => Dict.get?_erase_of_ne _ hrr) ?_
        (fun _ _ => rfl) ?_⟩
      · rw [Dict.get?_erase_self, remaining, if_neg (by omega)]
      · rw [hreport, if_neg (by omega)]
    | succ left =>
      refine ⟨_, _, rfl, hbuild _ _ (fun r' hrr => Dict.get?_set_of_ne _ hrr _) ?_
        (fun _ _ => rfl) ?_⟩
      · rw [Dict.get?_set_self, remaining, if_pos (by omega)]
        congr 1
        omega
      · rw [hreport, if_neg (by omega)]
  · -- it was the last one
    have hnot : r ∉ acc := by
      rw [count_append] at hreport
      exact count_eq_zero.mp (by omega)
    simp only [hcount, if_neg hnot]
    refine ⟨_, _, rfl, hbuild _ _ (fun _ _ => rfl) ?_ (fun r' hrr => ?_) ?_⟩
    · rw [hcount, remaining, if_neg (by omega)]
    · rw [← append_assoc, count_append, count_singleton]
      simp [Ne.symm hrr]
    · rw [← append_assoc, count_append, hreport, count_singleton_self,
        if_pos (by omega)]

/-- **All completions of a call.** -/
theorem Counted.drainAll {base : List R} (done : List (ℕ × R)) {reported : R → List ℕ}
    {extra : Dict R ℕ} {acc : List R}
    (h : Counted announced reported delivered extra (base ++ acc)) (hnd : done.Nodup)
    (hall : (∀ p ∈ done, p.1 ∈ announced p.2 ∧ p.1 ∉ reported p.2 ∧ p.2 ∈ delivered)) :
    ∃ extra' acc', (done.map Prod.snd).foldlM MultiConnector.drain (extra, acc)
          = some (extra', acc') ∧
        Counted announced (reportedAfter reported done) delivered extra' (base ++ acc') := by
  induction done generalizing reported extra acc with
  | nil => exact ⟨extra, acc, rfl, h⟩
  | cons p done ih =>
    obtain ⟨hnot, hnd⟩ := nodup_cons.mp hnd
    obtain ⟨hi, hnew, hr⟩ := hall p (by simp)
    obtain ⟨extra₁, acc₁, hdrain, h₁⟩ := h.drain hi hnew hr
    obtain ⟨extra', acc', hfold, h'⟩ := ih h₁ hnd fun q hq => by
      obtain ⟨hqi, hqnew, hqr⟩ := hall q (mem_cons_of_mem p hq)
      refine ⟨hqi, fun hmem => ?_, hqr⟩
      by_cases hreq : q.2 = p.2
      · rw [hreq, update_self, mem_append, mem_singleton] at hmem
        rcases hmem with hmem | hmem
        · exact hqnew (hreq ▸ hmem)
        · exact hnot (Prod.ext hmem hreq ▸ hq)
      · rw [update_of_ne hreq] at hmem
        exact hqnew hmem
    refine ⟨extra', acc', ?_, h'⟩
    rw [map_cons, foldlM_cons, hdrain]
    exact hfold

/-! ### The counts on their way -/

/-- The counts of the requests that have finished in a step. -/
def Carries (announced : R → List ℕ) (m : MultiMetadata R) : Prop :=
  ∀ r, m.extraAsyncSaves.get? r =
    if r ∈ m.finishedReqIds then remaining (announced r).length 0 else none

variable {m : MultiMetadata R}

theorem Carries.other (h : Carries announced m) (hr : r ∉ m.finishedReqIds) (savers : List ℕ) :
    Carries (update announced r savers) m := by
  intro r'
  rw [h r']
  by_cases hrr : r' = r
  · rw [hrr, if_neg hr, if_neg hr]
  · rw [update_of_ne hrr]

theorem Carries.finish (h : Carries announced m) (hr : r ∉ m.finishedReqIds) (savers : List ℕ) :
    Carries (update announced r savers) ⟨m.finishedReqIds ++ [r],
      if 1 < savers.length then m.extraAsyncSaves.set r (savers.length - 1)
      else m.extraAsyncSaves⟩ := by
  intro r'
  have hold := h r'
  by_cases hrr : r' = r
  · subst hrr
    rw [if_neg hr] at hold
    rw [if_pos (mem_append_right _ (mem_singleton_self r')), update_self,
      remaining, Nat.zero_add]
    split_ifs
    · rw [Dict.get?_set_self, Nat.sub_zero]
    · exact hold
  · simp only [mem_append, mem_singleton, hrr, or_false, update_of_ne hrr]
    rw [← hold]
    split_ifs
    · exact Dict.get?_set_of_ne _ hrr _
    · rfl

theorem Counted.bind (h : Counted announced reported delivered extra reports)
    (hm : Carries announced m) (hnew : ∀ r ∈ m.finishedReqIds, r ∉ delivered) :
    Counted announced reported (delivered ++ m.finishedReqIds)
      (m.extraAsyncSaves.items.foldl (fun d p => d.set p.1 p.2) extra) reports := by
  refine { h with early := fun r hr => ?_, extra := fun r => ?_ }
  · exact h.early r fun hmem => hr (mem_append_left _ hmem)
  · rw [Dict.get?_foldl_set_items, hm r, h.extra r]
    by_cases hr : r ∈ m.finishedReqIds
    · have hearly := h.early r (hnew r hr)
      rw [if_pos hr, if_neg (hnew r hr), or_none, if_pos (mem_append_right _ hr),
        hearly]
      rfl
    · rw [if_neg hr, none_or]
      simp only [mem_append, hr, or_false]

/-- A request finishes that was unknown to the worker. -/
theorem Counted.announce (h : Counted announced reported delivered extra reports)
    (hr : r ∉ delivered) (hnone : announced r = []) {savers : List ℕ} (hnd : savers.Nodup) :
    Counted (update announced r savers) reported delivered extra reports := by
  have hearly := h.early r hr
  refine ⟨fun r' => ?_, h.reported_nodup, fun r' => ?_, h.early, fun r' => ?_, fun r' => ?_⟩
  all_goals by_cases hrr : r' = r
  · subst hrr
    rw [update_self]
    exact hnd
  · rw [update_of_ne hrr]
    exact h.announced_nodup r'
  · subst hrr
    rw [hearly]
    exact nil_subset _
  · rw [update_of_ne hrr]
    exact h.subset r'
  · subst hrr
    have hextra := h.extra r'
    rw [if_neg hr] at hextra ⊢
    exact hextra
  · rw [update_of_ne hrr]
    exact h.extra r'
  · subst hrr
    have hreports := h.reports r'
    rw [update_self, hreports, hnone, hearly, if_neg (by simp), if_neg]
    rintro ⟨hne, hlen⟩
    exact hne (eq_nil_of_length_eq_zero hlen.symm)
  · rw [update_of_ne hrr]
    exact h.reports r'

end Counting

/-! ### The answers to `request_finished` -/

section

variable (answers : List (Bool × Option P))

/-- `request_finished` raises if two connectors return parameters, and otherwise counts the
savers. -/
theorem finishLoop_eq (asyncSaves : ℕ) (params : Option P)
    (told : ℕ) :
    (answers.countP (·.2.isSome) + params.isSome.toNat ≤ 1 →
      ∃ params', (finishLoop answers asyncSaves params told).1
        = some (asyncSaves + answers.countP (·.1), params')) ∧
    (1 < answers.countP (·.2.isSome) + params.isSome.toNat →
      (finishLoop answers asyncSaves params told).1 = none) := by
  induction answers generalizing asyncSaves params told with
  | nil =>
    refine ⟨fun _ => ⟨params, rfl⟩, fun h => ?_⟩
    cases params <;> simp at h
  | cons a answers ih =>
    obtain ⟨asyncSave, new⟩ := a
    cases new with
    | none =>
      obtain ⟨hok, hraise⟩ := ih (asyncSaves + asyncSave.toNat) params (told + 1)
      simp only [finishLoop, countP_cons, isSome_none, Bool.false_eq_true, if_false,
        Nat.add_zero]
      refine ⟨fun h => ?_, hraise⟩
      obtain ⟨params', heq⟩ := hok h
      refine ⟨params', ?_⟩
      rw [heq]
      cases asyncSave with
      | false => simp
      | true =>
        simp
        omega
    | some new =>
      cases params with
      | none =>
        obtain ⟨hok, hraise⟩ := ih (asyncSaves + asyncSave.toNat) (some new) (told + 1)
        simp only [finishLoop, countP_cons, isSome_some, isSome_none, if_true,
          Bool.toNat_true, Bool.toNat_false, Nat.add_zero] at hok hraise ⊢
        refine ⟨fun h => ?_, hraise⟩
        obtain ⟨params', heq⟩ := hok h
        refine ⟨params', ?_⟩
        rw [heq]
        cases asyncSave with
        | false => simp
        | true =>
          simp
          omega
      | some old =>
        -- a second connector returns parameters: the loop raises
        simp only [finishLoop, countP_cons, isSome_some, if_true, Bool.toNat_true]
        refine ⟨fun h => ?_, fun _ => trivial⟩
        omega

theorem length_savers : (savers answers).length = answers.countP (·.1) := by
  have hfst := countP_map (p := fun a : Bool × Option P => a.1) (f := Prod.fst)
    (l := answers.zipIdx)
  rw [zipIdx_map_fst] at hfst
  rw [savers, length_map, ← countP_eq_length_filter, hfst]
  rfl

theorem nodup_savers : (savers answers).Nodup := by
  have hsnd : (answers.zipIdx.map Prod.snd).Nodup := by
    rw [zipIdx_map_snd]
    exact nodup_range'
  exact hsnd.sublist (filter_sublist.map Prod.snd)

end

/-! ### What the connectors see -/

variable {n : ℕ} {t : MultiRun R} {c : MultiCall R P}

/-- What the connectors have seen. -/
structure Observed (n : ℕ) (t : MultiRun R) : Prop where
  /-- The calls that go to all of them. -/
  hooks : ∀ i < n, (t.seen i).filter HookCall.isShared = t.made.filter HookCall.isShared
  loads : ∀ i < n, (t.seen i).filter HookCall.isAlloc = t.allocs.map fun a => forwarded a.1 a.2 i

omit [DecidableEq R] in
/-- A call that all connectors see. -/
theorem Observed.shared (h : t.Observed n) {c : HookCall R} (halloc : c.isAlloc = false)
    {t' : MultiRun R} (hmade : t'.made = t.made ++ [c]) (hallocs : t'.allocs = t.allocs)
    (hseen : t'.seen = t.tell n c) : t'.Observed n := by
  refine ⟨fun i hi => ?_, fun i hi => ?_⟩
  · rw [hseen, hmade, tell, if_pos hi, filter_append, filter_append, h.hooks i hi]
  · rw [hseen, hallocs, tell, if_pos hi, filter_append, h.loads i hi]
    simp [halloc]

omit [DecidableEq R] in
/-- A call that is no part of what is asked. -/
theorem Observed.private (h : t.Observed n) {c : HookCall R} (hshared : c.isShared = false)
    (halloc : c.isAlloc = false) {told : ℕ} {t' : MultiRun R} (hmade : t'.made = t.made ++ [c])
    (hallocs : t'.allocs = t.allocs) (hseen : t'.seen = t.tell told c) : t'.Observed n := by
  have htell : ∀ (p : HookCall R → Bool), p c = false → ∀ i,
      (t'.seen i).filter p = (t.seen i).filter p := by
    intro p hp i
    rw [hseen, tell]
    split_ifs
    · simp [hp]
    · rfl
  refine ⟨fun i hi => ?_, fun i hi => ?_⟩
  · rw [htell _ hshared, h.hooks i hi, hmade, filter_append]
    simp [hshared]
  · rw [htell _ halloc, h.loads i hi, hallocs]

theorem Observed.alloc (h : t.Observed n) (r : R) (blocks : List ℕ) (ext : ℕ) :
    (t.after n (.updateStateAfterAlloc r blocks ext : MultiCall R P)).Observed n := by
  have hfwd : ∀ i, ∃ blocks' ext', forwarded (.updateStateAfterAlloc r blocks ext)
      (t.scheduler.requestsToConnector.get? r) i = .updateStateAfterAlloc r blocks' ext' := by
    intro i
    unfold forwarded
    split_ifs
    · exact ⟨_, _, rfl⟩
    · exact ⟨_, _, rfl⟩
  refine ⟨fun i hi => ?_, fun i hi => ?_⟩
  · obtain ⟨blocks', ext', heq⟩ := hfwd i
    simp only [after, if_pos hi, filter_append, h.hooks i hi, heq]
    rfl
  · obtain ⟨blocks', ext', heq⟩ := hfwd i
    simp only [after, if_pos hi, filter_append, h.loads i hi, heq, map_append,
      map_cons, map_nil]
    rfl

/-! ### Every run -/

/-- The metadata that the scheduler is about to send. -/
def pending (t : MultiRun R) : MultiMetadata R := ⟨t.finishedReqIds, t.scheduler.extraAsyncSaves⟩

/-- The invariant: the counts are with the scheduler, on their way, or with the worker. -/
structure Inv (n : ℕ) (t : MultiRun R) : Prop where
  returned : t.raised = false
  observed : t.Observed n
  /-- The worker's counts. -/
  counted : Counted t.announced t.reported t.delivered t.worker.extraAsyncSaves t.reports
  /-- The requests that have finished, where they are known. -/
  order : t.finished =
    t.delivered ++ (t.channel.flatMap (·.finishedReqIds) ++ t.finishedReqIds)
  nodup : t.finished.Nodup
  fresh : ∀ r ∉ t.finished, t.announced r = []
  carries : ∀ m ∈ t.channel ++ [t.pending], Carries t.announced m

theorem inv_start : (start : MultiRun R).Inv n := by
  refine ⟨rfl, ⟨fun _ _ => rfl, fun _ _ => rfl⟩, ⟨fun _ => nodup_nil, fun _ => nodup_nil,
    fun _ => nil_subset _, fun _ _ => rfl, fun _ => rfl, fun _ => rfl⟩, rfl, nodup_nil,
    fun _ _ => rfl, fun m hm => ?_⟩
  rw [mem_singleton.mp hm]
  exact fun _ => rfl

section

variable (h : t.Inv n)
include h

theorem Inv.transparent : t.Transparent n := by
  refine ⟨h.returned, h.observed.hooks, h.observed.loads, fun r => ?_⟩
  rw [h.counted.reports r]
  simp only [h.counted.length_eq_iff r]

/-- A call that only the connectors take note of. -/
theorem Inv.shared {c : HookCall R} (halloc : c.isAlloc = false) : (t.shared n c).Inv n :=
  { h with observed := h.observed.shared halloc rfl rfl rfl }

/-- The scheduler ends its step: the counts are on their way. -/
theorem Inv.build : (t.after n (.buildConnectorMeta : MultiCall R P)).Inv n := by
  refine ⟨h.returned, h.observed.shared rfl rfl rfl rfl, h.counted, ?_, h.nodup, h.fresh,
    fun m hm => ?_⟩
  · simp only [after, flatMap_append, flatMap_cons, flatMap_nil, append_nil]
    exact h.order
  · rcases mem_append.mp hm with hm | hm
    · exact h.carries m hm
    · rw [mem_singleton.mp hm]
      exact fun _ => rfl

theorem Inv.bind : (t.after n (.bindConnectorMetadata : MultiCall R P)).Inv n := by
  unfold after
  cases hchannel : t.channel with
  | nil => exact h
  | cons m channel =>
    have horder := h.order
    rw [hchannel, flatMap_cons, append_assoc] at horder
    have hnd := h.nodup
    rw [horder, nodup_append] at hnd
    refine ⟨h.returned, h.observed.shared rfl rfl rfl rfl,
      h.counted.bind (h.carries m (by simp [hchannel])) fun r hr hmem => ?_, ?_, h.nodup, h.fresh,
      fun m' hm' => h.carries m' ?_⟩
    · exact hnd.2.2 r hmem r (mem_append_left _ hr) rfl
    · simp only [MultiRun.shared]
      rw [horder, append_assoc]
    · rw [hchannel]
      exact mem_cons_of_mem m hm'

/-- A request finishes: the scheduler knows how many connectors save it. -/
theorem Inv.finish {r : R} (hr : r ∉ t.finished) (blocks : List ℕ)
    {answers : List (Bool × Option P)} (hparams : answers.countP (·.2.isSome) ≤ 1) :
    (t.after n (.requestFinished r blocks answers)).Inv n := by
  obtain ⟨params, hloop⟩ := (finishLoop_eq answers 0 none 0).1 (by simpa using hparams)
  rw [Nat.zero_add] at hloop
  simp only [after, MultiConnector.requestFinished, hloop]
  refine ⟨h.returned, h.observed.shared rfl rfl rfl rfl, ?_, ?_, ?_, fun r' hr' => ?_,
    fun m hm => ?_⟩
  · refine h.counted.announce (fun hmem => hr ?_) (h.fresh r hr) (nodup_savers answers)
    rw [h.order]
    exact mem_append_left _ hmem
  · simp only [MultiRun.shared]
    rw [h.order]
    simp only [append_assoc]
  · refine nodup_append.mpr ⟨h.nodup, nodup_singleton r, ?_⟩
    rintro a ha b hb rfl
    exact hr (mem_singleton.mp hb ▸ ha)
  · rw [mem_append, not_or, mem_singleton] at hr'
    dsimp only
    rw [update_of_ne hr'.2]
    exact h.fresh r' hr'.1
  · -- neither the metadata on its way nor that of this step knows the request
    rcases mem_append.mp hm with hm | hm
    · refine (h.carries m (mem_append_left _ hm)).other (fun hmem => hr ?_) (savers answers)
      rw [h.order]
      refine mem_append_right _ (mem_append_left _ ?_)
      exact mem_flatMap.mpr ⟨m, hm, hmem⟩
    · rw [mem_singleton.mp hm, ← length_savers]
      refine (h.carries t.pending (by simp)).finish (fun hmem => hr ?_) (savers answers)
      rw [h.order]
      exact mem_append_right _ (mem_append_right _ hmem)

/-- The connectors report completions, and the counts go down. -/
theorem Inv.getFinished {answers : List (List R × List R)}
    (hallowed : t.Allowed n (.getFinished answers : MultiCall R P)) :
    (t.after n (.getFinished answers : MultiCall R P)).Inv n := by
  have hcounted : Counted t.announced t.reported t.delivered t.worker.extraAsyncSaves
      (t.reports ++ []) := by
    rw [append_nil]
    exact h.counted
  obtain ⟨extra, sent, hfold, hcounted'⟩ := hcounted.drainAll _ hallowed.2.1 hallowed.2.2
  simp only [after, MultiConnector.getFinished, hfold, map_some]
  exact { h with observed := h.observed.shared rfl rfl rfl rfl, counted := hcounted' }

/-- **A harmless call keeps the invariant.** -/
theorem Inv.after (hallowed : t.Allowed n c) (hharm : Harmless n c) : (t.after n c).Inv n := by
  cases c with
  | getNumNewMatchedTokens r computed answers =>
    exact { h with observed := h.observed.private rfl rfl rfl rfl rfl }
  | updateStateAfterAlloc r blocks ext =>
    exact { h with observed := h.observed.alloc r blocks ext }
  | buildConnectorMeta => exact h.build
  | updateConnectorOutput => exact h.shared rfl
  | requestFinished r blocks answers => exact h.finish hallowed.2 blocks hharm
  | bindConnectorMetadata => exact h.bind
  | clearConnectorMetadata | startLoadKv | waitForLayerLoad | saveKvLayer | waitForSave =>
    exact h.shared rfl
  | handlePreemptions preempted =>
    -- there is no connector that should have seen it
    obtain rfl : n = 0 := hharm
    have hnone : ∀ {i : ℕ} {p : Prop}, i < 0 → p := fun hi => absurd hi (Nat.not_lt_zero _)
    exact { h with observed := ⟨fun _ => hnone, fun _ => hnone⟩ }
  | getFinished answers => exact h.getFinished hallowed

/-- **A call after which the connectors have still seen everything is harmless.** -/
theorem Inv.harmless (ht : (t.after n c).Transparent n) : Harmless n c := by
  cases c with
  | handlePreemptions preempted =>
    by_contra hn
    have hn : 0 < n := Nat.pos_of_ne_zero hn
    have hhooks := ht.hooks 0 hn
    simp only [MultiRun.after, h.observed.hooks 0 hn, filter_append] at hhooks
    have hlen := congrArg List.length hhooks
    simp [HookCall.isShared] at hlen
  | requestFinished r blocks answers =>
    by_contra hparams
    have hnone := (finishLoop_eq answers 0 none 0).2 (by
      simp only [Harmless, not_le] at hparams
      simpa using hparams)
    have hret := ht.returned
    simp only [MultiRun.after, MultiConnector.requestFinished, hnone] at hret
    cases hret
  | _ => trivial

end

/-- **A run is transparent if and only if it has no preemptions, or no connectors, and no two
connectors return parameters for a request.** -/
theorem always_transparent_iff (n : ℕ) (cs : List (MultiCall R P)) {t : MultiRun R}
    (hrun : run (step n) start cs = some t) :
    Always (step n) (Transparent n) (start : MultiRun R) cs ↔
      Each (step n) (fun _ => Harmless n) start cs := by
  refine (always_iff_each (I := Inv n) inv_start (fun t h => h.transparent)
    (fun t c t' h hstep => ?_) hrun).1
  unfold step at hstep
  split_ifs at hstep with hcan
  obtain rfl := Option.some.inj hstep
  exact ⟨h.harmless, h.after hcan.2⟩

/-- A request that two connectors save. They report it in different calls. -/
def twoSavers : List (MultiCall ℕ Unit) :=
  [.requestFinished 0 [] [(true, none), (true, some ())], .buildConnectorMeta,
    .bindConnectorMetadata, .getFinished [([], []), ([0], [])], .getFinished [([0], []), ([], [])]]

theorem always_transparent_twoSavers :
    ∃ t, run (step 2) start twoSavers = some t ∧ t.reports = [0] ∧
      Always (step 2) (Transparent 2) start twoSavers := by
  refine ⟨_, rfl, rfl, (always_transparent_iff 2 twoSavers rfl).mpr ?_⟩
  intro cs₁ c cs₂ t hsplit _
  have hmem : c ∈ twoSavers := by
    rw [hsplit]
    exact mem_append_right _ mem_cons_self
  simp only [twoSavers, mem_cons, not_mem_nil, or_false] at hmem
  rcases hmem with rfl | rfl | rfl | rfl | rfl
  · exact Nat.le_refl 1
  all_goals trivial

/-- A preemption that the only connector does not see; and three connectors of which two return
parameters, so that the third does not see that the request has finished. -/
theorem not_always_transparent :
    ¬ Always (step 1) (Transparent 1) (start : MultiRun ℕ)
      [(.handlePreemptions [0] : MultiCall ℕ Unit)] ∧
    ¬ Always (step 3) (Transparent 3) (start : MultiRun ℕ)
      [.requestFinished 0 [] [(false, some ()), (false, some ()), (false, none)]] := by
  constructor
  · intro h
    have hhooks := (h [_] [] _ rfl rfl).hooks 0 Nat.one_pos
    cases hhooks
  · intro h
    have hhooks := (h [_] [] _ rfl rfl).hooks 2 (by decide)
    cases hhooks

end MultiRun

end CacheFlow.Connector
