import CacheFlow.Connector.BlockHash
import CacheFlow.Worker.LoadStep

/-!
# The scheduler side of the connector

For each request the scheduler asks the connector how many tokens of the prompt it can
supply. The connector looks the keys of the prompt up on the server, keeps what it will
load as a *plan* under a lease, and puts the plan as a load into the metadata of the next
step. From the progress the scheduler makes with the prompt it also decides which chunks
the workers save in a step.

A call of a hook can find the server gone: `QueryEnv` says what a query meets. What the
connector asked the server for, what it handed to its background thread and what it emitted
is kept in `Sched.trace`.

## Main definitions

* `Sched.call`, `Sched.run` — the hooks called in any order.

## Main results

* `Sched.emitItems_get?` — what a step does with a request, and what it emits for it.
-/

namespace CacheFlow

open List

/-- The settings the scheduler side uses. -/
structure SchedConfig extends KeyConfig where
  enableLoad : Bool
  enableSave : Bool
  /-- Whether to save only what a lookup has not found in the pool. -/
  skipSaveIfPrefixCached : Bool
  /-- How long a lease lasts, in milliseconds. -/
  leaseMs : ℤ
  /-- The number of ranks. -/
  world : ℤ
  /-- The digest of the keys. -/
  digest : Digest
  /-- The seed of the keys. -/
  seed : List UInt8
  /-- Whether the model is one the connector supports. -/
  enabled : Bool

/-- What a step of the workers loads for a request, with where the chunks are in the pool. -/
structure PlannedLoad extends LoadSpec where
  /-- The addresses of the chunks, by rank. -/
  entries : List (List ℤ)
  /-- The key of the pool's memory. -/
  rkey : ℤ
  /-- The number of the first chunk. -/
  chunk0 : ℕ

/-- What a step of the workers saves for a request. -/
structure SaveSpec where
  /-- The keys of the chunks from `chunk0` on. -/
  keys : List String
  /-- The number of the first chunk. -/
  chunk0 : ℕ
  blockIds : List ℕ

/-- `CacheFlowV3Metadata`, what the scheduler side sends to the workers in a step. -/
structure Metadata where
  /-- The loads, by request. -/
  loads : Dict String PlannedLoad
  /-- The saves, by request. -/
  saves : Dict String SaveSpec

/-- `_Plan`, a load that has not been sent yet. -/
structure Plan where
  /-- The lease on the entries. -/
  lease : Option ℤ
  entries : List (List ℤ)
  rkey : ℤ
  /-- The number of the first chunk. -/
  chunk0 : ℕ
  /-- The first token to load. -/
  tokStart : ℕ
  /-- The token after the last one to load. -/
  tokStop : ℕ
  /-- When it was made, in seconds. -/
  created : ℚ

/-- `_ReqState`. -/
structure ReqState where
  /-- Tokens in the prompt. -/
  promptLen : ℕ
  /-- The keys of its chunks. -/
  keys : List String
  /-- Leading chunks known to be in the pool. -/
  dpuHits : ℕ := 0
  /-- The chunks below this number have been handled by saves. -/
  savedUpto : ℕ := 0
  /-- The load to send. -/
  plan : Option Plan := none
  /-- The tokens computed locally when the plan was made. -/
  planComputed : ℤ := -1
  /-- Whether the plan has been sent. -/
  loadEmitted : Bool := false
  blockIds : List ℕ := []

/-- A `lookup` request. -/
structure LookupRequest where
  keys : List String
  ranks : ℤ
  /-- Whether the entries are to be pinned under a lease. -/
  pin : Bool
  leaseMs : ℤ

/-- The answer to a `lookup`. -/
structure LookupAnswer where
  /-- Chunks in the hit prefix. -/
  hits : ℕ
  /-- The new lease, if there is one. -/
  lease : Option ℤ
  /-- The addresses of the entries, by rank. -/
  entries : List (List ℤ)
  /-- The key of the pool's memory; a session that came in at an address without an RDMA
  port has none. -/
  rkey : Option ℤ

/-- What a query meets: the readings of the clock, the connection and the server. -/
structure QueryEnv where
  /-- The clock when the age of the plan is checked. -/
  asked : ℚ
  /-- Whether the control connection is alive. -/
  alive : Bool
  /-- The clock when a reconnect is considered. -/
  tried : ℚ
  /-- Whether a connection can be made. -/
  connects : Bool
  /-- The clock when it could not. -/
  failed : ℚ
  /-- The answer of the server; none if the request raises. -/
  reply : LookupRequest → Option LookupAnswer
  /-- The clock when the plan is made. -/
  planned : ℚ

/-- A request that is scheduled for the first time. -/
structure NewRequestData where
  reqId : String
  /-- Its blocks, by group. -/
  blockIds : List (List ℕ)
  numComputedTokens : ℕ

/-- A request that has been scheduled before. -/
structure CachedRequestData where
  reqId : String
  /-- Whether it comes back from a preemption. -/
  resumed : Bool
  /-- Its new blocks, by group; none if it has none. -/
  newBlockIds : List (List ℕ)
  numComputedTokens : ℕ

/-- What the scheduler has decided for a step. -/
structure SchedulerOutput where
  scheduledNewReqs : List NewRequestData
  scheduledCachedReqs : List CachedRequestData
  numScheduledTokens : Dict String ℕ
  /-- A request is scheduled once in a step. -/
  nodup : (scheduledNewReqs.map NewRequestData.reqId ++
    scheduledCachedReqs.map CachedRequestData.reqId).Nodup

/-- What the connector has done, as seen from outside. -/
inductive SchedEvent where
  /-- A request got its state. -/
  | created (rid : String) : SchedEvent
  /-- The server answered the lookup of a request. -/
  | looked (rid : String) (answer : LookupAnswer) : SchedEvent
  /-- The release of a lease was handed to the background thread, for a session. -/
  | submitted (session : ℕ) (lease : ℤ) : SchedEvent
  /-- A lease was to be released while there was no session. -/
  | unsent (lease : ℤ) : SchedEvent
  /-- Metadata was emitted for a step. -/
  | built (out : SchedulerOutput) (md : Metadata) : SchedEvent
  /-- A request was finished. -/
  | finished (rid : String) : SchedEvent

/-- The scheduler side of the connector. -/
structure Sched where
  states : Dict String ReqState
  /-- The number of the session, if there is one. -/
  schedSession : Option ℕ
  /-- When to try to connect again. -/
  schedRetryAt : ℚ
  /-- The number the next session gets. -/
  nextSession : ℕ
  /-- What it has done. -/
  trace : List SchedEvent

namespace Sched

variable (cfg : SchedConfig) (c : Sched)

/-- A connector that has not been called yet. -/
def init : Sched := ⟨∅, none, 0, 0, []⟩

/-- Note something that was done. -/
def note (e : SchedEvent) : Sched := { c with trace := c.trace ++ [e] }

/-- Change the state of a request. -/
def put (rid : String) (st : ReqState) : Sched := { c with states := c.states.set rid st }

/-- `_session`. -/
def session (env : QueryEnv) : Option ℕ × Sched :=
  if c.schedSession.isSome ∧ env.alive then (c.schedSession, c)
  else if env.tried < c.schedRetryAt then (none, c)
  else if env.connects then
    (some c.nextSession,
      { c with schedSession := some c.nextSession, nextSession := c.nextSession + 1 })
  else (none, { c with schedSession := none, schedRetryAt := env.failed + 5 })

/-- `_state`. -/
def state (rid : String) (request : VllmRequest) : Except PyErr (ReqState × Sched) :=
  match c.states.get? rid with
  | some st => .ok (st, c)
  | none =>
    match cfg.keysOf cfg.digest cfg.seed request.tokenIds with
    | .error e => .error e
    | .ok keys =>
      let st : ReqState := { promptLen := request.tokenIds.length, keys := keys }
      .ok (st, (c.put rid st).note (.created rid))

/-- `_release_async`: nothing is done without a session. -/
def releaseAsync (lease : ℤ) : Sched :=
  match c.schedSession with
  | some s => c.note (.submitted s lease)
  | none => c.note (.unsent lease)

/-- Release a lease, if it is one. -/
def releaseLease : Option ℤ → Sched
  | some lease => c.releaseAsync lease
  | none => c

/-- The lease of a plan that has not been sent. -/
def heldLease (st : ReqState) : Option ℤ :=
  if st.loadEmitted then none else st.plan.bind Plan.lease

/-- `_drop_plan`. -/
def dropPlan (rid : String) (st : ReqState) : ReqState × Sched :=
  let c := c.releaseLease (heldLease st)
  let st := { st with plan := none, planComputed := -1 }
  (st, c.put rid st)

/-- The plan, if it is a fresh one for the same question. -/
def reusable (st : ReqState) (numComputedTokens : ℕ) (now : ℚ) : Option Plan :=
  st.plan.filter fun p => st.planComputed = numComputedTokens ∧ !st.loadEmitted ∧
    (now - p.created) * 1000 < cfg.leaseMs / 2

/-- The lookup of a request; the entries are pinned if there is something to load. -/
def lookupRequest (st : ReqState) (numComputedTokens : ℕ) : LookupRequest :=
  ⟨st.keys, cfg.world,
    cfg.enableLoad && numComputedTokens < st.keys.length * cfg.chunkTokens, cfg.leaseMs⟩

/-- The end of `get_num_new_matched_tokens`, with the answer of the server. -/
def answered (rid : String) (st : ReqState) (numComputedTokens : ℕ) (r : LookupAnswer) (now : ℚ) :
    Except PyErr (ℕ × Bool) × Sched :=
  let c := c.note (.looked rid r)
  let st := { st with dpuHits := max st.dpuHits r.hits }
  let hits := if cfg.enableLoad then r.hits else 0
  -- vLLM must compute at least one token itself
  let loadable := min (hits * cfg.chunkTokens) (st.promptLen - 1)
  if loadable ≤ numComputedTokens then (.ok (0, false), (c.put rid st).releaseLease r.lease)
  else
    match r.rkey with
    | none => (.error .typeError, c.put rid st)
    | some rkey =>
      let ext := loadable - numComputedTokens
      let c0 := numComputedTokens / cfg.chunkTokens
      let c1 := (numComputedTokens + ext + cfg.chunkTokens - 1) / cfg.chunkTokens
      let plan : Plan := ⟨r.lease, r.entries.map fun row => (row.take c1).drop c0, rkey, c0,
        numComputedTokens, numComputedTokens + ext, now⟩
      let st := { st with plan := some plan, planComputed := numComputedTokens, loadEmitted := false }
      (.ok (ext, false), c.put rid st)

/-- `get_num_new_matched_tokens`. -/
def getNumNewMatchedTokens (rid : String) (request : VllmRequest) (numComputedTokens : ℕ)
    (env : QueryEnv) : Except PyErr (ℕ × Bool) × Sched :=
  if !cfg.enabled then (.ok (0, false), c)
  else match c.state cfg rid request with
    | .error e => (.error e, c)
    | .ok (st, c) =>
      if st.keys = [] then (.ok (0, false), c)
      else match reusable cfg st numComputedTokens env.asked with
        | some p => (.ok (p.tokStop - p.tokStart, false), c)
        | none =>
          let (st, c) := c.dropPlan rid st
          match c.session env with
          | (none, c) => (.ok (0, false), c)
          | (some _, c) =>
            match env.reply (lookupRequest cfg st numComputedTokens) with
            | none => (.ok (0, false), c)
            | some r => c.answered cfg rid st numComputedTokens r env.planned

/-- `update_state_after_alloc`. -/
def updateStateAfterAlloc (rid : String) (numExternalTokens : ℕ) : Sched :=
  match c.states.get? rid with
  | none => c
  | some st => if numExternalTokens = 0 ∧ st.plan.isSome then (c.dropPlan rid st).2 else c

/-- The load of `_emit`. -/
def emitLoad (st : ReqState) : Option PlannedLoad :=
  if st.loadEmitted then none
  else st.plan.map fun p =>
    { lease := p.lease, tokStart := p.tokStart, tokStop := p.tokStop, blockIds := st.blockIds
      entries := p.entries, rkey := p.rkey, chunk0 := p.chunk0 }

/-- How many chunks are computed when `tokens` of the prompt are. -/
def chunksUpto (st : ReqState) (tokens : ℕ) : ℕ :=
  min (min tokens st.promptLen / cfg.chunkTokens) st.keys.length

/-- The first chunk `_emit` would save. -/
def saveStart (st : ReqState) : ℕ :=
  if cfg.skipSaveIfPrefixCached then max st.savedUpto st.dpuHits else st.savedUpto

/-- The save of `_emit`, when `tokens` of the prompt are computed. -/
def emitSave (st : ReqState) (tokens : ℕ) : Option SaveSpec :=
  if st.keys = [] ∨ !cfg.enableSave then none
  else
    let upto := chunksUpto cfg st tokens
    let start := saveStart cfg st
    if start < upto then some ⟨(st.keys.take upto).drop start, start, st.blockIds⟩ else none

/-- The state of the request after `_emit`. -/
def afterEmit (st : ReqState) (tokens : ℕ) : ReqState :=
  let st := { st with loadEmitted := st.loadEmitted || st.plan.isSome }
  if st.keys = [] ∨ !cfg.enableSave then st
  else { st with savedUpto := max st.savedUpto (chunksUpto cfg st tokens) }

/-- Assign to a key, if there is a value. -/
def setSome {V : Type} (d : Dict String V) (k : String) : Option V → Dict String V
  | none => d
  | some v => d.set k v

/-- A request of a step, as the loops of `build_connector_meta` see it. -/
structure StepItem where
  rid : String
  /-- The blocks of its first group, if it has any. -/
  blocks : List ℕ
  /-- Whether they take the place of those it has. -/
  replace : Bool
  /-- The tokens computed before the step. -/
  computed : ℕ
  /-- The tokens of the step. -/
  scheduled : ℕ

/-- The blocks of a request after the step has given it new ones. -/
def StepItem.newBlocks (it : StepItem) (blockIds : List ℕ) : List ℕ :=
  if it.replace then it.blocks else blockIds ++ it.blocks

/-- The bodies of the loops of `build_connector_meta`. -/
def emitItem (cm : Sched × Metadata) (it : StepItem) : Sched × Metadata :=
  match cm.1.states.get? it.rid with
  | none => cm
  | some st =>
    let st := { st with blockIds := it.newBlocks st.blockIds }
    (cm.1.put it.rid (afterEmit cfg st (it.computed + it.scheduled)),
      { loads := setSome cm.2.loads it.rid (emitLoad st)
        saves := setSome cm.2.saves it.rid (emitSave cfg st (it.computed + it.scheduled)) })

end Sched

/-- A new request as an item of the step. -/
def NewRequestData.item (req : NewRequestData) (sched : Dict String ℕ) : Sched.StepItem :=
  ⟨req.reqId, req.blockIds.headD [], true, req.numComputedTokens, (sched.get? req.reqId).getD 0⟩

/-- A request that was scheduled before as an item of the step. -/
def CachedRequestData.item (req : CachedRequestData) (sched : Dict String ℕ) : Sched.StepItem :=
  ⟨req.reqId, req.newBlockIds.headD [], req.resumed, req.numComputedTokens,
    (sched.get? req.reqId).getD 0⟩

/-- The items of a step: the new requests first. -/
def SchedulerOutput.items (out : SchedulerOutput) : List Sched.StepItem :=
  out.scheduledNewReqs.map (fun req => req.item out.numScheduledTokens) ++
    out.scheduledCachedReqs.map fun req => req.item out.numScheduledTokens

namespace Sched

variable (cfg : SchedConfig) (c : Sched)

/-- `build_connector_meta`. -/
def buildConnectorMeta (out : SchedulerOutput) : Metadata × Sched :=
  if !cfg.enabled then (⟨∅, ∅⟩, c.note (.built out ⟨∅, ∅⟩))
  else
    let (c, md) := out.items.foldl (emitItem cfg) (c, ⟨∅, ∅⟩)
    (md, c.note (.built out md))

/-- `request_finished`. -/
def requestFinished (rid : String) : Sched :=
  let c' := match c.states.get? rid with
    | none => c
    | some st =>
      -- the worker releases the lease too
      ({ c with states := c.states.erase rid }).releaseLease (st.plan.bind Plan.lease)
  c'.note (.finished rid)

end Sched

/-- A call of a hook. -/
inductive SchedCall where
  /-- `get_num_new_matched_tokens`. -/
  | query (rid : String) (request : VllmRequest) (numComputedTokens : ℕ) (env : QueryEnv) : SchedCall
  /-- `update_state_after_alloc`. -/
  | alloc (rid : String) (numExternalTokens : ℕ) : SchedCall
  /-- `build_connector_meta`. -/
  | build (out : SchedulerOutput) : SchedCall
  /-- `request_finished`. -/
  | finish (rid : String) : SchedCall

namespace Sched

variable (cfg : SchedConfig)

/-- The connector after a call. -/
def call (c : Sched) : SchedCall → Sched
  | .query rid request numComputedTokens env =>
    (c.getNumNewMatchedTokens cfg rid request numComputedTokens env).2
  | .alloc rid numExternalTokens => c.updateStateAfterAlloc rid numExternalTokens
  | .build out => (c.buildConnectorMeta cfg out).2
  | .finish rid => c.requestFinished rid

/-- The connector after a sequence of calls. -/
def run (calls : List SchedCall) : Sched := calls.foldl (call cfg) init

/-! ### What the small steps leave alone -/

section Frame

variable {cfg} {c : Sched}

theorem get?_setSome {V : Type} (d : Dict String V) (k k' : String) (v : Option V) :
    (setSome d k v).get? k' = if k' = k then v.or (d.get? k) else d.get? k' := by
  cases v with
  | none => by_cases h : k' = k <;> simp [setSome, h]
  | some v => rw [setSome, Dict.get?_set]; rfl

@[simp] theorem note_states (e : SchedEvent) : (c.note e).states = c.states := rfl

@[simp] theorem put_states (rid : String) (st : ReqState) :
    (c.put rid st).states = c.states.set rid st := rfl

@[simp] theorem releaseLease_states (lease : Option ℤ) :
    (c.releaseLease lease).states = c.states := by
  cases lease with
  | none => rfl
  | some l => unfold releaseLease releaseAsync; cases c.schedSession <;> rfl

theorem dropPlan_states {rid : String} {st : ReqState} :
    (c.dropPlan rid st).2.states = c.states.set rid (c.dropPlan rid st).1 := by
  show ((c.releaseLease (heldLease st)).put rid _).states = _
  rw [put_states, releaseLease_states]
  rfl

/-- Looking for the session changes neither the states nor the trace, and a session that is
returned is kept. -/
theorem session_spec (env : QueryEnv) : (c.session env).2.states = c.states ∧
    (c.session env).2.trace = c.trace ∧
      ((c.session env).1.isSome → (c.session env).2.schedSession.isSome) := by
  unfold session
  split_ifs with h
  · exact ⟨rfl, rfl, fun hs => hs⟩
  · exact ⟨rfl, rfl, fun hs => nomatch hs⟩
  · exact ⟨rfl, rfl, fun _ => rfl⟩
  · exact ⟨rfl, rfl, fun hs => nomatch hs⟩

variable {rid : String} {request : VllmRequest} {st : ReqState} {c' : Sched}

theorem state_cases (h : c.state cfg rid request = .ok (st, c')) :
    (c.states.get? rid = some st ∧ c' = c) ∨ (c.states.get? rid = none ∧
      ∃ keys, cfg.keysOf cfg.digest cfg.seed request.tokenIds = .ok keys ∧
        st = { promptLen := request.tokenIds.length, keys := keys } ∧
        c' = (c.put rid st).note (.created rid)) := by
  unfold state at h
  cases hget : c.states.get? rid with
  | some st' =>
    simp only [hget, Except.ok.injEq, Prod.mk.injEq] at h
    exact Or.inl ⟨congrArg some h.1, h.2.symm⟩
  | none =>
    cases hkeys : cfg.keysOf cfg.digest cfg.seed request.tokenIds with
    | error e => simp [hget, hkeys] at h
    | ok keys =>
      simp only [hget, hkeys, Except.ok.injEq, Prod.mk.injEq] at h
      obtain ⟨rfl, rfl⟩ := h
      exact Or.inr ⟨rfl, keys, rfl, rfl, rfl⟩

/-- **What a query can do.** It changes nothing, or gets the state of the request and ends there;
otherwise it drops the plan and looks for the session, and the lookup is answered or not. -/
theorem query_cases (rid : String) (request : VllmRequest) (n : ℕ) (env : QueryEnv) :
    (c.getNumNewMatchedTokens cfg rid request n env).2 = c ∨
    cfg.enabled = true ∧ ∃ st c₁, c.state cfg rid request = .ok (st, c₁) ∧
      ((c.getNumNewMatchedTokens cfg rid request n env).2 = c₁ ∨
        ∃ c₂, ((c₁.dropPlan rid st).2.session env).2 = c₂ ∧
          ((c.getNumNewMatchedTokens cfg rid request n env).2 = c₂ ∨ ∃ r,
            env.reply (lookupRequest cfg (c₁.dropPlan rid st).1 n) = some r ∧
            c₂.schedSession.isSome ∧ c.getNumNewMatchedTokens cfg rid request n env =
              c₂.answered cfg rid (c₁.dropPlan rid st).1 n r env.planned)) := by
  unfold getNumNewMatchedTokens
  split_ifs with henabled
  · exact Or.inl rfl
  rw [Bool.not_eq_true', Bool.not_eq_false] at henabled
  cases c.state cfg rid request with
  | error e => exact Or.inl rfl
  | ok p =>
    obtain ⟨st, c₁⟩ := p
    refine Or.inr ⟨henabled, st, c₁, rfl, ?_⟩
    dsimp only
    -- nothing to ask for, or nobody to ask: no plan is made
    split_ifs with hkeys
    · exact Or.inl rfl
    cases reusable cfg st n env.asked with
    | some p => exact Or.inl rfl
    | none =>
      refine Or.inr ⟨_, rfl, ?_⟩
      have hkept := (@session_spec (c₁.dropPlan rid st).2 env).2.2
      generalize (c₁.dropPlan rid st).2.session env = q at hkept ⊢
      obtain ⟨session, c₂⟩ := q
      cases session with
      | none => exact Or.inl rfl
      | some s =>
        cases env.reply (lookupRequest cfg (c₁.dropPlan rid st).1 n) with
        | none => exact Or.inl rfl
        | some r => exact Or.inr ⟨r, rfl, hkept rfl, rfl⟩

theorem get?_session_dropPlan (env : QueryEnv) :
    ((c.dropPlan rid st).2.session env).2.states.get? rid = some (c.dropPlan rid st).1 := by
  rw [(session_spec env).1]
  exact Dict.get?_set_self _ _ _

end Frame

/-! ### The loops of a step -/

section Step

variable {cfg}

/-- The state of a request when a step has given it new blocks. -/
def StepItem.blocked (it : StepItem) (st : ReqState) : ReqState :=
  { st with blockIds := it.newBlocks st.blockIds }

/-- The tokens of the prompt that are computed when the step is done. -/
def StepItem.reach (it : StepItem) : ℕ := it.computed + it.scheduled

theorem emitItem_of_none {cm : Sched × Metadata} {it : StepItem}
    (hst : cm.1.states.get? it.rid = none) : emitItem cfg cm it = cm := by
  rw [emitItem, hst]

theorem emitItem_of_some {cm : Sched × Metadata} {it : StepItem} {st : ReqState}
    (hst : cm.1.states.get? it.rid = some st) : emitItem cfg cm it =
      (cm.1.put it.rid (afterEmit cfg (it.blocked st) it.reach),
        ⟨setSome cm.2.loads it.rid (emitLoad (it.blocked st)),
          setSome cm.2.saves it.rid (emitSave cfg (it.blocked st) it.reach)⟩) := by
  rw [emitItem, hst]
  rfl

/-- What one round of the loop does, seen from a request. -/
theorem emitItem_get? (cm : Sched × Metadata) (it : StepItem) (rid : String) :
    (emitItem cfg cm it).1.states.get? rid = (if rid = it.rid then
        (cm.1.states.get? rid).map fun st => afterEmit cfg (it.blocked st) it.reach
      else cm.1.states.get? rid) ∧
    (emitItem cfg cm it).2.saves.get? rid = (if rid = it.rid then
        ((cm.1.states.get? rid).bind fun st => emitSave cfg (it.blocked st) it.reach).or
          (cm.2.saves.get? rid)
      else cm.2.saves.get? rid) := by
  cases hst : cm.1.states.get? it.rid with
  | none =>
    rw [emitItem_of_none hst]
    by_cases h : rid = it.rid
    · subst h
      simp [hst]
    · simp [h]
  | some st =>
    rw [emitItem_of_some hst]
    by_cases h : rid = it.rid
    · subst h
      simp [get?_setSome, hst]
    · simp [h, Dict.get?_set, get?_setSome]

/-- **What a step does with a request.** Its state becomes the one after its item, and the
save of its item is emitted; a request without an item is left alone. -/
theorem emitItems_get? : ∀ {items : List StepItem} {cm : Sched × Metadata},
    (items.map StepItem.rid).Nodup → ∀ rid,
      (∀ it ∈ items, it.rid = rid →
        (items.foldl (emitItem cfg) cm).1.states.get? rid =
            (cm.1.states.get? rid).map (fun st => afterEmit cfg (it.blocked st) it.reach) ∧
          (items.foldl (emitItem cfg) cm).2.saves.get? rid =
            ((cm.1.states.get? rid).bind fun st => emitSave cfg (it.blocked st) it.reach).or
              (cm.2.saves.get? rid)) ∧
      ((∀ it ∈ items, it.rid ≠ rid) →
        (items.foldl (emitItem cfg) cm).1.states.get? rid = cm.1.states.get? rid ∧
          (items.foldl (emitItem cfg) cm).2.saves.get? rid = cm.2.saves.get? rid) := by
  intro items
  induction items with
  | nil => exact fun _ _ => ⟨fun _ h => absurd h not_mem_nil, fun _ => ⟨rfl, rfl⟩⟩
  | cons it items ih =>
    intro cm hnodup rid
    rw [map_cons, nodup_cons] at hnodup
    obtain ⟨hfresh, hnodup⟩ := hnodup
    obtain ⟨hitem, hother⟩ := @ih (emitItem cfg cm it) hnodup rid
    obtain ⟨hstate, hsave⟩ := @emitItem_get? cfg cm it rid
    rw [foldl_cons]
    constructor
    · intro it' hit' hrid
      rcases mem_cons.mp hit' with rfl | hit'
      · -- no later item is for the same request
        have hlater : ∀ it ∈ items, it.rid ≠ rid := by
          intro it hit heq
          exact hfresh (mem_map.mpr ⟨it, hit, heq.trans hrid.symm⟩)
        rw [(hother hlater).1, (hother hlater).2, hstate, hsave, if_pos hrid.symm, if_pos hrid.symm]
        exact ⟨rfl, rfl⟩
      · have hne : rid ≠ it.rid := by
          rintro rfl
          exact hfresh (mem_map.mpr ⟨it', hit', hrid⟩)
        rw [(hitem it' hit' hrid).1, (hitem it' hit' hrid).2, hstate, hsave, if_neg hne, if_neg hne]
        exact ⟨rfl, rfl⟩
    · intro hnone
      have hne : rid ≠ it.rid := fun h => hnone it mem_cons_self h.symm
      have hlater := hother fun it' hit' => hnone it' (mem_cons_of_mem _ hit')
      rw [hlater.1, hlater.2, hstate, hsave, if_neg hne, if_neg hne]
      exact ⟨rfl, rfl⟩

/-- A step notes nothing until it is done, and keeps the session. -/
theorem emitItems_trace (items : List StepItem) (cm : Sched × Metadata) :
    (items.foldl (emitItem cfg) cm).1.trace = cm.1.trace := by
  induction items generalizing cm with
  | nil => exact rfl
  | cons it items ih =>
    rw [foldl_cons, ih]
    unfold emitItem
    cases cm.1.states.get? it.rid <;> rfl

theorem nodup_items (out : SchedulerOutput) : (out.items.map StepItem.rid).Nodup := by
  have h := out.nodup
  rw [SchedulerOutput.items, map_append, map_map, map_map]
  exact h

end Step

/-! ### A small run -/

/-- Chunks of one token, one rank, leases of a second. -/
def sampleSchedConfig : SchedConfig :=
  { chunkTokens := 1, maxCachedTokens := 0, minCachedTokens := 0, chunkTokens_pos := Nat.one_pos
    enableLoad := true, enableSave := true, skipSaveIfPrefixCached := true, leaseMs := 1000
    world := 1, digest := id, seed := [], enabled := true }

/-- A query at second `now` that gets an answer with a lease on one chunk. -/
def sampleQuery (now : ℚ) (alive connects : Bool) (lease : ℤ) (rkey : Option ℤ) : QueryEnv :=
  ⟨now, alive, now, connects, now, fun _ => some ⟨1, some lease, [[4096]], rkey⟩, now⟩

/-- A step with one new request, whose second token is computed. -/
def sampleStep : SchedulerOutput :=
  ⟨[⟨"a", [[0]], 1⟩], [], (∅ : Dict String ℕ).set "a" 1, by decide⟩

/-- The load of one request is planned and emitted. -/
def sampleCalls : List SchedCall :=
  [.query "a" (BlockHasher.adapterRequest none [5, 6]) 0 (sampleQuery 0 true true 1 (some 7)),
    .alloc "a" 1, .build sampleStep]

end Sched

end CacheFlow
