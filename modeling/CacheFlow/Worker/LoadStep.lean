import CacheFlow.Lib.Dict
import CacheFlow.Lib.Exec

/-!
# The loads of a worker step

The worker side of the connector for loads: `start_load_kv` begins the loads of a step,
`wait_for_layer_load` injects a layer of each of them, and `wait_for_save` ends those that
are still open. A load that cannot begin, that fails at a layer, or some layer of which
was never asked for is reported with the blocks of its tokens; the next
`get_block_ids_with_load_errors` returns them.

Which calls raise is decided by the environment, `LoadEnv`.

## Main definitions

* `LoadWorker.loadStep` — the hooks in the order in which vLLM calls them.

## Main results

* `LoadWorker.loads_of_run` — each load is injected in every layer once, or reported with all its
  blocks.
-/

namespace CacheFlow

open List Dict

/-- A load the scheduler asks for. -/
structure LoadSpec where
  lease : Option ℤ
  tokStart : ℕ
  tokStop : ℕ
  blockIds : List ℕ

/-- The blocks of the tokens, as far as the table reaches. -/
def LoadSpec.failedBlocks (spec : LoadSpec) (blockSize : ℕ) : List ℕ :=
  (List.range' spec.tokStart (spec.tokStop - spec.tokStart)).filterMap fun t =>
    spec.blockIds[t / blockSize]?

/-- A load on its way. -/
structure LoadJob where
  lease : Option ℤ
  slice : ℕ
  /-- The blocks of the tokens. -/
  failedBlocks : List ℕ
  /-- How many layers have been injected. -/
  layersDone : ℕ
  failed : Bool
  /-- The layers that have been scattered into the KV cache. -/
  scattered : List ℕ

/-- How `begin_load` ends. -/
inductive BeginOutcome where
  /-- It raises before it has staging memory: there is none, or too little. -/
  | refused : BeginOutcome
  /-- It raises when it posts the operations. -/
  | postFails : BeginOutcome
  /-- The operations are posted. -/
  | posted : BeginOutcome
  deriving DecidableEq, Repr

/-- How `load_layer` ends. -/
inductive LayerOutcome where
  /-- The layer has arrived and is scattered. -/
  | injected : LayerOutcome
  /-- It raises, before the scatter or after it. -/
  | fails (scattered : Bool) : LayerOutcome
  deriving DecidableEq, Repr

/-- What happens outside of the connector during a step. -/
structure LoadEnv where
  /-- Which queued slices the GPU has finished with when the load of a request begins. -/
  ready : String → ℕ → Bool
  /-- How `begin_load` ends, for each request. -/
  begin : String → BeginOutcome
  /-- How `load_layer` ends, for each request and layer. -/
  layer : String → ℕ → LayerOutcome

/-- The part of the connector and its engine that loads use. -/
structure LoadWorker where
  loads : Dict String LoadJob
  /-- The set of the blocks to report; some may be listed twice. -/
  loadErrors : List ℕ
  /-- The slices queued for release. -/
  deferred : List ℕ
  /-- The slices that have been released. -/
  released : List ℕ
  /-- The number of the next slice. -/
  nextSlice : ℕ
  /-- The leases that have been given back, in order. -/
  leaseReleases : List ℤ
  /-- The loads that have ended, in order. -/
  finished : List (String × LoadJob)

namespace LoadWorker

variable (w : LoadWorker)

/-- A worker that has done nothing yet. -/
def init : LoadWorker := ⟨∅, [], [], [], 0, [], []⟩

/-- `_reap_deferred`. -/
def reapDeferred (ready : ℕ → Bool) : LoadWorker :=
  { w with
    released := w.released ++ w.deferred.filter ready
    deferred := w.deferred.filter fun s => !ready s }

/-- `begin_load`. -/
def beginLoad (blockSize : ℕ) (env : LoadEnv) (rid : String) (spec : LoadSpec) :
    Except PyErr LoadJob × LoadWorker :=
  let w := w.reapDeferred (env.ready rid)
  match env.begin rid with
  | .refused => (.error .runtimeError, w)
  | .postFails =>
    -- the slice is released before the exception goes on
    (.error .runtimeError,
      { w with nextSlice := w.nextSlice + 1, released := w.released ++ [w.nextSlice] })
  | .posted =>
    (.ok ⟨spec.lease, w.nextSlice, spec.failedBlocks blockSize, 0, false, []⟩,
      { w with nextSlice := w.nextSlice + 1 })

/-- `start_load_kv`, for one request. -/
def startLoad (blockSize : ℕ) (env : LoadEnv) (p : String × LoadSpec) : LoadWorker :=
  match w.beginLoad blockSize env p.1 p.2 with
  | (.ok job, w) => { w with loads := w.loads.set p.1 job }
  | (.error _, w) =>
    { w with
      loadErrors := w.loadErrors ++ p.2.failedBlocks blockSize
      leaseReleases := w.leaseReleases ++ p.2.lease.toList }

/-- `start_load_kv`. -/
def startLoadKv (blockSize : ℕ) (env : LoadEnv) (specs : Dict String LoadSpec) : LoadWorker :=
  specs.items.foldl (fun w p => w.startLoad blockSize env p) w

/-- Change the jobs, and report the blocks of those that have failed by it. -/
def updateJobs (f : String → LoadJob → LoadJob) : LoadWorker :=
  { w with
    loads := w.loads.mapValues f
    loadErrors := w.loadErrors ++ w.loads.items.flatMap fun p =>
      if (f p.1 p.2).failed && !p.2.failed then p.2.failedBlocks else [] }

/-- `load_layer`, unless the job has failed; a job it raises for has failed. -/
def loadLayer (env : LoadEnv) (layer : ℕ) (rid : String) (job : LoadJob) : LoadJob :=
  if job.failed then job
  else match env.layer rid layer with
    | .injected =>
      { job with layersDone := job.layersDone + 1, scattered := layer :: job.scattered }
    | .fails scattered =>
      { job with
        failed := true
        scattered := if scattered then layer :: job.scattered else job.scattered }

/-- A job with a layer that was never injected has failed. -/
def checkLayers (numLayers : ℕ) (job : LoadJob) : LoadJob :=
  if !job.failed && job.layersDone < numLayers then { job with failed := true } else job

/-- `_finish_loads`, with `finish_load` for every job. -/
def finishLoads (numLayers : ℕ) : LoadWorker :=
  let w := w.updateJobs fun _ => checkLayers numLayers
  { w with
    loads := ∅
    deferred := w.deferred ++ w.loads.values.map LoadJob.slice
    leaseReleases := w.leaseReleases ++ w.loads.values.filterMap LoadJob.lease
    finished := w.finished ++ w.loads.items }

/-- `wait_for_layer_load`, for the layer of a name or for a name that is not registered. -/
def waitForLayerLoad (numLayers : ℕ) (env : LoadEnv) (layer : Option ℕ) : LoadWorker :=
  if w.loads.items = [] then w
  else match layer with
    | none => w
    | some l =>
      let w := w.updateJobs (loadLayer env l)
      if l + 1 = numLayers then w.finishLoads numLayers else w

/-- `wait_for_save`, as far as it is about loads. -/
def waitForSave (numLayers : ℕ) : LoadWorker :=
  if w.loads.items = [] then w else w.finishLoads numLayers

/-- `get_block_ids_with_load_errors`. -/
def getBlockIdsWithLoadErrors : List ℕ × LoadWorker := (w.loadErrors, { w with loadErrors := [] })

end LoadWorker

/-- What vLLM does with the connector in one step. -/
structure LoadStep where
  env : LoadEnv
  specs : Dict String LoadSpec
  /-- The layers it asks for during the forward pass, in order. -/
  waits : List (Option ℕ)

namespace LoadWorker

/-- A step: the hooks in the order in which vLLM calls them. -/
def loadStep (blockSize numLayers : ℕ) (w : LoadWorker) (step : LoadStep) : LoadWorker :=
  (step.waits.foldl (fun w layer => w.waitForLayerLoad numLayers step.env layer)
    (w.startLoadKv blockSize step.env step.specs)).waitForSave numLayers

/-- Steps, after some of which the errors are asked for. -/
def loadRun (blockSize numLayers : ℕ) (w : LoadWorker) (steps : List (LoadStep × Bool)) : LoadWorker :=
  steps.foldl (fun w s =>
    let w := w.loadStep blockSize numLayers s.1
    if s.2 then w.getBlockIdsWithLoadErrors.2 else w) w

end LoadWorker

/-! ### What holds during a step -/

/-- What holds of a job when the layers `seen` have been asked for and `errors` are to be
reported. -/
structure LoadJob.Ok (job : LoadJob) (seen errors : List ℕ) : Prop where
  /-- A failed job is reported. -/
  reported : job.failed = true → ∀ b ∈ job.failedBlocks, b ∈ errors
  counted : job.failed = false → job.layersDone = job.scattered.length
  nodup : job.scattered.Nodup
  seen : ∀ l ∈ job.scattered, l ∈ seen

theorem LoadJob.Ok.append {job : LoadJob} {seen errors : List ℕ} (h : job.Ok seen errors)
    (more : List ℕ) : job.Ok seen (errors ++ more) :=
  { h with reported := fun hf b hb => mem_append_left _ (h.reported hf b hb) }

/-- A job after a hook, when the layers `seen` have been asked for. -/
structure LoadJob.Advanced (job job' : LoadJob) (seen : List ℕ) : Prop where
  slice : job'.slice = job.slice
  failedBlocks : job'.failedBlocks = job.failedBlocks
  failed : job.failed = true → job'.failed = true
  counted : job'.failed = false → job'.layersDone = job'.scattered.length
  nodup : job'.scattered.Nodup
  seen : ∀ l ∈ job'.scattered, l ∈ seen

namespace LoadWorker

/-- What holds during a step, when the layers `seen` have been asked for. -/
structure Inv (w : LoadWorker) (seen : List ℕ) : Prop where
  /-- Every slice is held by one job, queued, or released, and only once. -/
  slices : (w.loads.values.map LoadJob.slice ++ (w.deferred ++ w.released)).Perm
    (List.range w.nextSlice)
  jobs : ∀ p ∈ w.loads.items, p.2.Ok seen w.loadErrors

/-- What has become of a load since the loads `old` had ended: its job is there, its
blocks are reported, or it has ended with every layer scattered once. -/
def Served (numLayers : ℕ) (old : List (String × LoadJob)) (w : LoadWorker) (rid : String)
    (blocks : List ℕ) : Prop :=
  (∃ job, (rid, job) ∈ w.loads.items ∧ job.failedBlocks = blocks) ∨
  (∀ b ∈ blocks, b ∈ w.loadErrors) ∨
  ∃ new job, w.finished = old ++ new ∧ (rid, job) ∈ new ∧
    job.scattered.Perm (List.range numLayers)

variable {w : LoadWorker} {seen : List ℕ} {numLayers blockSize : ℕ} {env : LoadEnv}

theorem advanced_loadLayer {job : LoadJob} {errors : List ℕ} (h : job.Ok seen errors) {l : ℕ}
    (hl : l ∉ seen) (rid : String) : job.Advanced (loadLayer env l rid job) (l :: seen) := by
  have hnodup : (l :: job.scattered).Nodup :=
    nodup_cons.mpr ⟨fun hmem => hl (h.seen l hmem), h.nodup⟩
  have hseen : ∀ k ∈ job.scattered, k ∈ l :: seen := fun k hk => mem_cons_of_mem _ (h.seen k hk)
  have hseen' : ∀ k ∈ l :: job.scattered, k ∈ l :: seen := by
    intro k hk
    rcases mem_cons.mp hk with rfl | hk
    · exact mem_cons_self
    · exact hseen k hk
  unfold loadLayer
  cases hfailed : job.failed with
  | true => exact ⟨rfl, rfl, id, h.counted, h.nodup, hseen⟩
  | false =>
    cases env.layer rid l with
    | injected =>
      refine ⟨rfl, rfl, fun ht => ?_, fun _ => ?_, hnodup, hseen'⟩
      · exact absurd (hfailed.symm.trans ht) Bool.false_ne_true
      · exact congrArg (· + 1) (h.counted hfailed)
    | fails scattered =>
      cases scattered with
      | true => exact ⟨rfl, rfl, fun _ => rfl, fun hf => absurd hf.symm Bool.false_ne_true, hnodup, hseen'⟩
      | false =>
        exact ⟨rfl, rfl, fun _ => rfl, fun hf => absurd hf.symm Bool.false_ne_true, h.nodup, hseen⟩

/-- The last check advances a job, and leaves only jobs that have failed or are complete. -/
theorem advanced_checkLayers {job : LoadJob} {errors : List ℕ} (h : job.Ok seen errors) :
    job.Advanced (checkLayers numLayers job) seen ∧
      ((checkLayers numLayers job).failed = false →
        numLayers ≤ (checkLayers numLayers job).layersDone) := by
  unfold checkLayers
  by_cases hshort : (!job.failed && decide (job.layersDone < numLayers)) = true
  · rw [if_pos hshort]
    exact ⟨⟨rfl, rfl, fun _ => rfl, fun hf => absurd hf.symm Bool.false_ne_true, h.nodup, h.seen⟩,
      fun hf => absurd hf.symm Bool.false_ne_true⟩
  · rw [if_neg hshort]
    refine ⟨⟨rfl, rfl, id, h.counted, h.nodup, h.seen⟩, fun hf => ?_⟩
    simpa [hf] using hshort

theorem Inv.updateJobs (h : w.Inv seen) {f : String → LoadJob → LoadJob} {seen' : List ℕ}
    (hf : ∀ p ∈ w.loads.items, p.2.Advanced (f p.1 p.2) seen') : (w.updateJobs f).Inv seen' := by
  refine ⟨?_, ?_⟩
  · have hslices : (w.updateJobs f).loads.values.map LoadJob.slice =
        w.loads.values.map LoadJob.slice := by
      simp only [LoadWorker.updateJobs, values, mapValues, map_map]
      exact map_congr_left fun p hp => (hf p hp).slice
    rw [hslices]
    exact h.slices
  · intro q hq
    obtain ⟨p, hp, rfl⟩ := mem_map.mp hq
    have hadv := hf p hp
    refine { hadv with reported := ?_ }
    intro hfailed b hb
    dsimp only at hfailed
    rw [hadv.failedBlocks] at hb
    apply mem_append.mpr
    by_cases hold : p.2.failed = true
    · exact Or.inl ((h.jobs p hp).reported hold b hb)
    · -- it has failed just now
      right
      refine mem_flatMap.mpr ⟨p, hp, ?_⟩
      rw [if_pos (by simp [hfailed, hold])]
      exact hb

theorem Served.updateJobs {old : List (String × LoadJob)} {rid : String} {blocks : List ℕ}
    (h : w.Served numLayers old rid blocks) {f : String → LoadJob → LoadJob} {seen' : List ℕ}
    (hf : ∀ p ∈ w.loads.items, p.2.Advanced (f p.1 p.2) seen') :
    (w.updateJobs f).Served numLayers old rid blocks := by
  rcases h with ⟨job, hmem, hblocks⟩ | herrors | hfinished
  · left
    refine ⟨f rid job, mem_map.mpr ⟨(rid, job), hmem, rfl⟩, ?_⟩
    rw [(hf _ hmem).failedBlocks, hblocks]
  · exact Or.inr (Or.inl fun b hb => mem_append_left _ (herrors b hb))
  · exact Or.inr (Or.inr hfinished)

theorem scattered_perm {job : LoadJob} {errors : List ℕ} (h : job.Ok seen errors)
    (hseen : ∀ l ∈ seen, l < numLayers) (hfailed : job.failed = false)
    (hdone : numLayers ≤ job.layersDone) : job.scattered.Perm (List.range numLayers) := by
  have hsub : job.scattered.Subperm (List.range numLayers) :=
    h.nodup.subperm fun l hl => mem_range.mpr (hseen l (h.seen l hl))
  apply hsub.perm_of_length_le
  rw [length_range, ← h.counted hfailed]
  exact hdone

/-- `_finish_loads` queues the slices of the jobs, and no load is left open. -/
theorem Inv.finishLoads (h : w.Inv seen) (seen' : List ℕ) : (w.finishLoads numLayers).Inv seen' := by
  have hup : (w.updateJobs fun _ => checkLayers numLayers).Inv seen :=
    h.updateJobs fun p hp => (advanced_checkLayers (h.jobs p hp)).1
  refine ⟨?_, fun p hp => absurd hp not_mem_nil⟩
  -- the slices of the jobs move behind those queued before
  have hslices := hup.slices
  rw [← append_assoc] at hslices
  exact (perm_append_comm.append_right _).trans hslices

/-- After `_finish_loads`, a load is reported or complete. -/
theorem Served.finishLoads {old : List (String × LoadJob)} {rid : String} {blocks : List ℕ}
    (hserved : w.Served numLayers old rid blocks) (h : w.Inv seen)
    (hseen : ∀ l ∈ seen, l < numLayers) (hold : ∃ new, w.finished = old ++ new) :
    (w.finishLoads numLayers).Served numLayers old rid blocks := by
  have hadv : ∀ p ∈ w.loads.items, p.2.Advanced (checkLayers numLayers p.2) seen :=
    fun p hp => (advanced_checkLayers (h.jobs p hp)).1
  have hup : (w.updateJobs fun _ => checkLayers numLayers).Inv seen := h.updateJobs hadv
  obtain ⟨new, hnew⟩ := hold
  rcases hserved with ⟨job, hmem, hblocks⟩ | herrors | ⟨new', job, hfinished, hjob, hperm⟩
  · have hmem' : (rid, checkLayers numLayers job) ∈
        (w.updateJobs fun _ => checkLayers numLayers).loads.items :=
      mem_map.mpr ⟨(rid, job), hmem, rfl⟩
    have hok := hup.jobs _ hmem'
    -- a job with a layer missing is reported, any other is complete
    cases hfailed : (checkLayers numLayers job).failed with
    | true =>
      right; left
      intro b hb
      rw [← hblocks, ← (hadv _ hmem).failedBlocks] at hb
      exact hok.reported hfailed b hb
    | false =>
      right; right
      refine ⟨new ++ (w.updateJobs fun _ => checkLayers numLayers).loads.items, _, ?_,
        mem_append_right _ hmem', ?_⟩
      · rw [← append_assoc, ← hnew]
        rfl
      · exact scattered_perm hok hseen hfailed ((advanced_checkLayers (h.jobs _ hmem)).2 hfailed)
  · exact Or.inr (Or.inl fun b hb => mem_append_left _ (herrors b hb))
  · right; right
    refine ⟨new' ++ (w.updateJobs fun _ => checkLayers numLayers).loads.items, job, ?_,
      mem_append_left _ hjob, hperm⟩
    rw [← append_assoc, ← hfinished]
    rfl

/-! ### The hooks -/

theorem Inv.reapDeferred (h : w.Inv seen) (ready : ℕ → Bool) : (w.reapDeferred ready).Inv seen := by
  refine ⟨List.Perm.trans ?_ h.slices, h.jobs⟩
  apply List.Perm.append_left
  have hsplit := (filter_append_perm ready w.deferred).append_left w.released
  rw [← append_assoc] at hsplit
  exact (perm_append_comm.trans hsplit).trans perm_append_comm

/-- `start_load_kv` for one more request keeps the invariant. -/
theorem Inv.startLoad (h : w.Inv seen) {p : String × LoadSpec} (hnew : p.1 ∉ w.loads.keys) :
    (w.startLoad blockSize env p).Inv seen := by
  have hreap := h.reapDeferred (env.ready p.1)
  have hrange := range_succ (n := w.nextSlice)
  unfold LoadWorker.startLoad beginLoad
  cases env.begin p.1 with
  | refused => exact ⟨hreap.slices, fun q hq => (hreap.jobs q hq).append _⟩
  | postFails =>
    refine ⟨?_, fun q hq => (hreap.jobs q hq).append _⟩
    change (_ ++ (_ ++ (_ ++ [w.nextSlice]))).Perm (List.range (w.nextSlice + 1))
    rw [hrange, ← append_assoc, ← append_assoc, append_assoc (List.map _ _)]
    exact hreap.slices.append_right _
  | posted =>
    refine ⟨?_, ?_⟩
    · change List.Perm _ (List.range (w.nextSlice + 1))
      rw [hrange]
      -- the new slice is the number that the next range adds
      refine List.Perm.trans ?_ (perm_append_comm.trans (hreap.slices.append_right _))
      exact ((values_set_perm_of_get?_eq_none (get?_eq_none_iff.mpr hnew) _).map
        LoadJob.slice).append_right _
    · rintro ⟨k, job⟩ hq
      rw [mem_items_iff, get?_set] at hq
      split_ifs at hq with hk
      · cases hq
        exact ⟨fun hf => absurd hf Bool.false_ne_true, fun _ => rfl, nodup_nil,
          fun l hl => absurd hl not_mem_nil⟩
      · exact hreap.jobs (k, job) (mem_items_iff.mpr hq)

/-- The request of `start_load_kv` is served from then on, and so are those before it. -/
theorem Served.startLoad {old : List (String × LoadJob)} {p : String × LoadSpec}
    (hnew : p.1 ∉ w.loads.keys) :
    (w.startLoad blockSize env p).Served numLayers old p.1 (p.2.failedBlocks blockSize) ∧
    (∀ {rid blocks}, w.Served numLayers old rid blocks →
      (w.startLoad blockSize env p).Served numLayers old rid blocks) ∧
    (∀ k ∈ (w.startLoad blockSize env p).loads.keys, k = p.1 ∨ k ∈ w.loads.keys) ∧
    (w.startLoad blockSize env p).finished = w.finished := by
  -- the two ways in which `begin_load` raises differ in the slice only
  have herror : ∀ w' : LoadWorker, w'.loads = w.loads → w'.finished = w.finished →
      w'.loadErrors = w.loadErrors ++ p.2.failedBlocks blockSize →
      w'.Served numLayers old p.1 (p.2.failedBlocks blockSize) ∧
      (∀ {rid blocks}, w.Served numLayers old rid blocks → w'.Served numLayers old rid blocks) ∧
      (∀ k ∈ w'.loads.keys, k = p.1 ∨ k ∈ w.loads.keys) ∧ w'.finished = w.finished := by
    intro w' hloads hfinished herrors
    refine ⟨Or.inr (Or.inl fun b hb => ?_), ?_, fun k hk => Or.inr (hloads ▸ hk), hfinished⟩
    · rw [herrors]
      exact mem_append_right _ hb
    · intro rid blocks hserved
      unfold Served at hserved ⊢
      rw [hloads, hfinished, herrors]
      exact hserved.imp_right (Or.imp_left fun h b hb => mem_append_left _ (h b hb))
  unfold LoadWorker.startLoad beginLoad
  cases env.begin p.1 with
  | refused => exact herror _ rfl rfl rfl
  | postFails => exact herror _ rfl rfl rfl
  | posted =>
    refine ⟨Or.inl ⟨_, mem_items_iff.mpr (get?_set_self _ _ _), rfl⟩, ?_, ?_, rfl⟩
    · intro rid blocks hserved
      refine hserved.imp_left fun ⟨job, hmem, hblocks⟩ => ⟨job, ?_, hblocks⟩
      have hne : rid ≠ p.1 := fun heq => hnew (heq ▸ mem_map_of_mem (f := Prod.fst) hmem)
      rw [mem_items_iff] at hmem ⊢
      exact (get?_set_of_ne _ hne _).trans hmem
    · intro k hk
      exact mem_keys_set.mp hk

/-- After `start_load_kv`, all requests are served. -/
theorem Inv.startLoads {old : List (String × LoadJob)} : ∀ {l : List (String × LoadSpec)}
    {w : LoadWorker}, w.Inv seen → (l.map Prod.fst).Nodup → (∀ p ∈ l, p.1 ∉ w.loads.keys) →
    let w' := l.foldl (fun w p => w.startLoad blockSize env p) w
    w'.Inv seen ∧ w'.finished = w.finished ∧
    (∀ {rid blocks}, w.Served numLayers old rid blocks → w'.Served numLayers old rid blocks) ∧
    ∀ p ∈ l, w'.Served numLayers old p.1 (p.2.failedBlocks blockSize) := by
  intro l
  induction l with
  | nil => exact fun h _ _ => ⟨h, rfl, id, fun p hp => absurd hp not_mem_nil⟩
  | cons p l ih =>
    intro w h hnodup hnew
    obtain ⟨hp, hrest⟩ := nodup_cons.mp hnodup
    have hpnew := hnew p mem_cons_self
    obtain ⟨hserved, hkeep, hkeys, hfinished⟩ :=
      @Served.startLoad w numLayers blockSize env old p hpnew
    obtain ⟨hinv, hfin, hkeep', hall⟩ := ih (h.startLoad hpnew) hrest fun q hq hmem => by
      rcases hkeys q.1 hmem with heq | hold
      · exact hp (heq ▸ mem_map_of_mem hq)
      · exact hnew q (mem_cons_of_mem _ hq) hold
    refine ⟨hinv, hfin.trans hfinished, fun hs => hkeep' (hkeep hs), fun q hq => ?_⟩
    rcases mem_cons.mp hq with rfl | hq
    · exact hkeep' hserved
    · exact hall q hq

/-- `wait_for_layer_load` keeps the invariant and every load served. -/
theorem Inv.waitForLayerLoad (h : w.Inv seen) {layer : Option ℕ}
    (hlayer : ∀ l ∈ layer, l ∉ seen ∧ l < numLayers) (hseen : ∀ l ∈ seen, l < numLayers)
    {old : List (String × LoadJob)} (hold : ∃ new, w.finished = old ++ new) :
    let w' := w.waitForLayerLoad numLayers env layer
    w'.Inv (layer.toList ++ seen) ∧ (∃ new, w'.finished = old ++ new) ∧
    ∀ {rid blocks}, w.Served numLayers old rid blocks → w'.Served numLayers old rid blocks := by
  unfold LoadWorker.waitForLayerLoad
  by_cases hnone : w.loads.items = []
  · rw [if_pos hnone]
    refine ⟨⟨h.slices, fun p hp => ?_⟩, hold, id⟩
    rw [hnone] at hp
    exact absurd hp not_mem_nil
  · rw [if_neg hnone]
    cases layer with
    | none => exact ⟨h, hold, id⟩
    | some l =>
      obtain ⟨hl, hlt⟩ := hlayer l rfl
      have hadv : ∀ p ∈ w.loads.items, p.2.Advanced (loadLayer env l p.1 p.2) (l :: seen) :=
        fun p hp => advanced_loadLayer (h.jobs p hp) hl p.1
      have hup := h.updateJobs hadv
      have hseen' : ∀ k ∈ l :: seen, k < numLayers := by
        intro k hk
        rcases mem_cons.mp hk with rfl | hk
        · exact hlt
        · exact hseen k hk
      dsimp only
      split_ifs with hlast
      · -- the last layer: the loads end here
        refine ⟨hup.finishLoads _, ?_, fun hs => (hs.updateJobs hadv).finishLoads hup hseen' hold⟩
        obtain ⟨new, hnew⟩ := hold
        exact ⟨new ++ _, by rw [← append_assoc, ← hnew]; rfl⟩
      · exact ⟨hup, hold, fun hs => hs.updateJobs hadv⟩

/-- The waits of a forward pass, one after the other. -/
theorem Inv.waits {old : List (String × LoadJob)} : ∀ {waits : List (Option ℕ)} {seen : List ℕ}
    {w : LoadWorker}, w.Inv seen → (waits.filterMap id ++ seen).Nodup →
    (∀ l ∈ waits.filterMap id ++ seen, l < numLayers) → (∃ new, w.finished = old ++ new) →
    let w' := waits.foldl (fun w layer => w.waitForLayerLoad numLayers env layer) w
    ∃ seen', w'.Inv seen' ∧ (∀ l ∈ seen', l < numLayers) ∧ (∃ new, w'.finished = old ++ new) ∧
    ∀ {rid blocks}, w.Served numLayers old rid blocks → w'.Served numLayers old rid blocks := by
  intro waits
  induction waits with
  | nil => exact fun h _ hlt hold => ⟨_, h, hlt, hold, id⟩
  | cons layer waits ih =>
    intro seen w h hnodup hlt hold
    -- the layer goes from those to come to those asked for
    have hmove : (waits.filterMap id ++ (layer.toList ++ seen)).Perm
        ((layer :: waits).filterMap id ++ seen) := by
      cases layer with
      | none => exact List.Perm.refl _
      | some l => exact perm_middle
    have hlayer : ∀ l ∈ layer, l ∉ seen ∧ l < numLayers := by
      rintro l rfl
      refine ⟨fun hmem => ?_, hlt l (mem_append_left _ mem_cons_self)⟩
      exact disjoint_of_nodup_append hnodup mem_cons_self hmem
    obtain ⟨hinv, hold', hkeep⟩ := @Inv.waitForLayerLoad w seen numLayers env h layer hlayer
      (fun l hl => hlt l (mem_append_right _ hl)) old hold
    obtain ⟨seen', hinv', hlt', hold'', hkeep'⟩ := ih hinv (hmove.nodup_iff.mpr hnodup)
      (fun l hl => hlt l (hmove.mem_iff.mp hl)) hold'
    exact ⟨seen', hinv', hlt', hold'', fun hs => hkeep' (hkeep hs)⟩

/-- Between steps no load is open. -/
structure Idle (w : LoadWorker) : Prop where
  loads : w.loads.items = []
  slices : (w.deferred ++ w.released).Perm (List.range w.nextSlice)

theorem Idle.inv (h : w.Idle) : w.Inv [] := by
  refine ⟨?_, fun p hp => ?_⟩
  · rw [values, h.loads]
    exact h.slices
  · rw [h.loads] at hp
    exact absurd hp not_mem_nil

end LoadWorker

/-- vLLM asks for each registered layer at most once in a step. -/
def LoadStep.WaitsOnce (step : LoadStep) (numLayers : ℕ) : Prop :=
  (step.waits.filterMap id).Nodup ∧ ∀ l ∈ step.waits.filterMap id, l < numLayers

namespace LoadWorker

/-- **One step.** -/
theorem Idle.loadStep {w : LoadWorker} (h : w.Idle) {blockSize numLayers : ℕ} {step : LoadStep}
    (hwaits : step.WaitsOnce numLayers) :
    (w.loadStep blockSize numLayers step).Idle ∧ ∀ p ∈ step.specs.items,
      (w.loadStep blockSize numLayers step).Served numLayers w.finished p.1
        (p.2.failedBlocks blockSize) := by
  obtain ⟨hinv, hfinished, -, hserved⟩ := @Inv.startLoads [] numLayers blockSize step.env w.finished
    step.specs.items w h.inv step.specs.nodup fun p _ hmem => by
      rw [Dict.keys, h.loads] at hmem
      exact absurd hmem not_mem_nil
  obtain ⟨seen, hinv', hlt, hold, hkeep⟩ := @Inv.waits numLayers step.env w.finished step.waits []
    _ hinv (by rw [append_nil]; exact hwaits.1) (by rw [append_nil]; exact hwaits.2)
    ⟨[], hfinished.trans (append_nil _).symm⟩
  unfold LoadWorker.loadStep waitForSave startLoadKv
  split_ifs with hnone
  · refine ⟨⟨hnone, ?_⟩, fun p hp => hkeep (hserved p hp)⟩
    have hslices := hinv'.slices
    rwa [values, hnone] at hslices
  · -- a forward pass that skipped some layers
    refine ⟨⟨rfl, (hinv'.finishLoads []).slices⟩, fun p hp => ?_⟩
    exact (hkeep (hserved p hp)).finishLoads hinv' hlt hold

theorem Idle.loadRun {blockSize numLayers : ℕ} : ∀ {steps : List (LoadStep × Bool)} {w : LoadWorker},
    w.Idle → (∀ s ∈ steps, s.1.WaitsOnce numLayers) → (w.loadRun blockSize numLayers steps).Idle := by
  intro steps w h hsteps
  refine foldl_invariant (I := Idle) steps w (fun s hs w hw => ?_) h
  have hstep : (w.loadStep blockSize numLayers s.1).Idle := (hw.loadStep (hsteps s hs)).1
  split_ifs
  · exact ⟨hstep.loads, hstep.slices⟩
  · exact hstep

/-- A block of a loaded token is among those that a failed load reports. -/
theorem mem_failedBlocks {spec : LoadSpec} {blockSize t : ℕ}
    (hcovers : spec.tokStop ≤ spec.blockIds.length * blockSize) (hstart : spec.tokStart ≤ t)
    (hstop : t < spec.tokStop) :
    spec.blockIds.getD (t / blockSize) 0 ∈ spec.failedBlocks blockSize := by
  have hlt : t / blockSize < spec.blockIds.length := by
    apply Nat.div_lt_of_lt_mul
    rw [Nat.mul_comm]
    omega
  refine mem_filterMap.mpr ⟨t, mem_range'_1.mpr ⟨hstart, by omega⟩, ?_⟩
  rw [getD_eq_getElem _ _ hlt]
  exact List.getElem?_eq_getElem hlt

/-- **No KV is missing silently.** After any steps, each load of one more step whose table covers
its tokens has ended with every layer scattered exactly once, or every block with one of its tokens
is among those `get_block_ids_with_load_errors` returns next. Either way every staging slice
acquired so far was queued for release, or released, exactly once. -/
theorem loads_of_run {blockSize numLayers : ℕ} (steps : List (LoadStep × Bool)) (step : LoadStep)
    (hsteps : ∀ s ∈ steps, s.1.WaitsOnce numLayers) (hwaits : step.WaitsOnce numLayers) :
    let w := init.loadRun blockSize numLayers steps
    let w' := w.loadStep blockSize numLayers step
    (∀ rid spec, step.specs.get? rid = some spec →
      spec.tokStop ≤ spec.blockIds.length * blockSize →
      (∃ new job, w'.finished = w.finished ++ new ∧ (rid, job) ∈ new ∧
        ∀ l, job.scattered.count l = if l < numLayers then 1 else 0) ∨
      ∀ t, spec.tokStart ≤ t → t < spec.tokStop →
        spec.blockIds.getD (t / blockSize) 0 ∈ w'.getBlockIdsWithLoadErrors.1) ∧
    ∀ s < w'.nextSlice, (w'.deferred ++ w'.released).count s = 1 := by
  intro w w'
  have hidle : w.Idle := Idle.loadRun ⟨rfl, List.Perm.refl _⟩ hsteps
  obtain ⟨hidle', hserved⟩ := @Idle.loadStep w hidle blockSize numLayers step hwaits
  refine ⟨?_, ?_⟩
  · intro rid spec hspec hcovers
    rcases hserved (rid, spec) (mem_items_iff.mpr hspec) with
      ⟨job, hmem, -⟩ | herrors | ⟨new, job, hnew, hmem, hperm⟩
    · -- no job is left
      rw [hidle'.loads] at hmem
      exact absurd hmem not_mem_nil
    · exact Or.inr fun t hstart hstop => herrors _ (mem_failedBlocks hcovers hstart hstop)
    · refine Or.inl ⟨new, job, hnew, hmem, fun l => ?_⟩
      rw [hperm.count_eq]
      split_ifs with hl
      · exact count_eq_one_of_mem nodup_range (mem_range.mpr hl)
      · exact count_eq_zero_of_not_mem fun hmem => hl (mem_range.mp hmem)
  · intro s hs
    rw [hidle'.slices.count_eq]
    exact count_eq_one_of_mem nodup_range (mem_range.mpr hs)

/-- Two loads of two layers, the second of which fails at layer 1. -/
def sampleLoadStep : LoadStep where
  env := ⟨fun _ _ => true, fun _ => .posted,
    fun rid l => if rid = "b" ∧ l = 1 then .fails false else .injected⟩
  specs := ⟨[("a", ⟨some 1, 0, 3, [5, 6]⟩), ("b", ⟨some 2, 0, 2, [7]⟩)], by decide⟩
  waits := [some 0, none, some 1]

theorem loads_of_one_failure :
    let w' := (init.loadRun 2 2 []).loadStep 2 2 sampleLoadStep
    sampleLoadStep.WaitsOnce 2 ∧ 7 ∈ w'.getBlockIdsWithLoadErrors.1 ∧ w'.nextSlice = 2 ∧
    ((∃ new job, w'.finished = (init.loadRun 2 2 []).finished ++ new ∧ ("a", job) ∈ new ∧
        ∀ l, job.scattered.count l = if l < 2 then 1 else 0) ∨
      ∀ t, 0 ≤ t → t < 3 → [5, 6].getD (t / 2) 0 ∈ w'.getBlockIdsWithLoadErrors.1) ∧
    (w'.deferred ++ w'.released).count 1 = 1 := by
  have hwaits : sampleLoadStep.WaitsOnce 2 := ⟨by decide, by decide⟩
  obtain ⟨hloads, hslices⟩ := @loads_of_run 2 2 [] sampleLoadStep
    (fun s hs => absurd hs not_mem_nil) hwaits
  exact ⟨hwaits, by decide, by decide,
    hloads "a" ⟨some 1, 0, 3, [5, 6]⟩ (by rfl) (by decide), hslices 1 (by decide)⟩

end LoadWorker

end CacheFlow
