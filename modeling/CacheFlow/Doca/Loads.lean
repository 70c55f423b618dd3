import CacheFlow.Lib.Dict

/-!
# Loads of the DPU connector

Before a forward pass the worker starts the loads of the step, `start_load_kv`; before each layer it
waits for them, `wait_for_layer_load`, where the first call does the work for all layers. Much can go
wrong in between: the block may not be on the DPU, a layer may have no slots, the fetch or the copy
into the cache may raise. The scheduler learns of it only through
`get_block_ids_with_load_errors`, which should name the blocks of the GPU that were not filled. What
is recorded there is the block of the DPU, and only for what raises in `start_load_kv`.

Which blocks are on the DPU, what the attention metadata holds and what raises is not the connector's
to say; it is the environment of a step.

## Main definitions

* `LoadHonest` — a load is carried out or reported.

## Main results

* `loadHonest_iff` — which loads are.
-/

namespace CacheFlow.Doca

open List

/-! ### A step -/

/-- `LoadSpec`. -/
structure LoadSpec where
  dpuCachedTokens : ℕ
  canLoad : Bool
  /-- `block_id`, the block of the DPU. -/
  blockId : Option ℕ
  /-- `block_ids`, the blocks of the GPU. -/
  blockIds : List ℕ
  deriving DecidableEq, Repr

/-- What the connector reads of the attention metadata. -/
structure AttnMetadata (R L : Type) where
  /-- The result of `_get_request_slot_mapping`. -/
  requestSlots : R → L → Option (List ℕ)
  /-- The result of `_get_block_table`. -/
  blockTable : Option (List (List ℤ))

/-- How far the start of a load comes. -/
inductive StartOutcome where
  /-- The block is not on the DPU, also after waiting. -/
  | missing
  /-- Something raises. -/
  | raised
  /-- The fetch is started. -/
  | started
  deriving DecidableEq, Repr

/-- What a step finds. -/
structure LoadEnv (R L : Type) where
  /-- `forward_context.attn_metadata`. -/
  attn : Option (AttnMetadata R L)
  /-- `request_row_indices`. -/
  rowIndex : R → ℕ
  /-- How far the start of each load comes. -/
  start : R → StartOutcome
  /-- Whether the fetch completes. -/
  fetchOk : R → Bool
  /-- Whether the copy into a layer succeeds. -/
  injectOk : R → L → Bool

/-- The worker's side of the connector. -/
structure LoadState (R L : Type) where
  /-- Whether there is a `_manager`. -/
  hasManager : Bool
  /-- `_get_layer_order`. -/
  layers : List L
  /-- Whether there is a `_current_attn_metadata`. -/
  attn : Bool
  /-- `_pending_load_handles`, with the slots of each layer. -/
  pendingLoadHandles : Dict R (List (L × List ℕ))
  /-- `_pending_loads`, the requests whose load is done. -/
  pendingLoads : List R
  loadErrors : List ℕ
  /-- The slots written in this step. -/
  written : List (R × L × List ℕ)

/-- `_build_prefix_slot_mapping` of a row: the slots of the first tokens. -/
def buildPrefixSlotMapping (kvBlockSize : ℕ) : List ℤ → ℕ → List ℕ
  | [], _ => []
  | b :: rest, n =>
    if n = 0 then []
    else if b < 0 then []
    else
      let take := min n kvBlockSize
      (List.range take).map (b.toNat * kvBlockSize + ·)
        ++ buildPrefixSlotMapping kvBlockSize rest (n - take)

/-- `_resolve_row_index`. -/
def resolveRowIndex (table : List (List ℤ)) (blockIds : List ℕ) (fallback : ℕ) : ℕ :=
  match blockIds with
  | [] => fallback
  | target :: _ => (table.findIdx? fun row => row.head? = some (target : ℤ)).getD fallback

section Code

variable {R L : Type} [DecidableEq R]

/-- The slots of a layer in `start_load_kv`; `none` if the layer is skipped. -/
def layerSlots (kvBlockSize : ℕ) (env : LoadEnv R L) (req : R) (spec : LoadSpec) (layer : L) :
    Option (List ℕ) := do
  let attn ← env.attn
  let slots := (attn.requestSlots req layer).getD []
  if slots ≠ [] then return slots.take spec.dpuCachedTokens
  let table ← attn.blockTable
  let row ← table[resolveRowIndex table spec.blockIds (env.rowIndex req)]?
  let slots := buildPrefixSlotMapping kvBlockSize row spec.dpuCachedTokens
  if slots = [] then none else return slots.take spec.dpuCachedTokens

/-- `kv_layer_slices`. -/
def layerSlices (kvBlockSize : ℕ) (env : LoadEnv R L) (layers : List L) (req : R)
    (spec : LoadSpec) : List (L × List ℕ) :=
  layers.filterMap fun layer => (layerSlots kvBlockSize env req spec layer).map (layer, ·)

/-- What the body of the loop of `start_load_kv` does with a load. -/
inductive StartResult (L : Type) where
  /-- It is passed over. -/
  | passed
  /-- Its block of the DPU is noted as an error. -/
  | error (b : ℕ)
  | pending (slices : List (L × List ℕ))

/-- The body of the loop of `start_load_kv`, up to its effect. -/
def startResult (kvBlockSize : ℕ) (env : LoadEnv R L) (layers : List L) (req : R)
    (spec : LoadSpec) : StartResult L :=
  match spec.canLoad, spec.blockId with
  | true, some b =>
    match env.start req with
    | .missing => .passed
    | .raised => .error b
    | .started =>
      let slices := layerSlices kvBlockSize env layers req spec
      -- `total_elems`
      if slices.flatMap Prod.snd = [] then .passed else .pending slices
  | _, _ => .passed

/-- The body of the loop of `start_load_kv`. -/
def startLoad (kvBlockSize : ℕ) (env : LoadEnv R L) (st : LoadState R L) (load : R × LoadSpec) :
    LoadState R L :=
  match startResult kvBlockSize env st.layers load.1 load.2 with
  | .passed => st
  | .error b => { st with loadErrors := b :: st.loadErrors }
  | .pending slices =>
    { st with pendingLoadHandles := st.pendingLoadHandles.set load.1 slices }

/-- `start_load_kv`. -/
def startLoadKv (kvBlockSize : ℕ) (env : LoadEnv R L) (specs : Dict R LoadSpec)
    (st : LoadState R L) : LoadState R L :=
  if specs.items = [] then st
  else if st.hasManager = false then st
  else
    let st := { st with attn := env.attn.isSome }
    if st.layers = [] then st else specs.items.foldl (startLoad kvBlockSize env) st

/-- The slices that are copied: up to the first copy that raises. -/
def injected (env : LoadEnv R L) (req : R) (slices : List (L × List ℕ)) : List (L × List ℕ) :=
  slices.takeWhile fun s => env.injectOk req s.1

/-- The body of the loop of `wait_for_layer_load`. -/
def waitLoad (env : LoadEnv R L) (st : LoadState R L) (pending : R × List (L × List ℕ)) :
    LoadState R L :=
  if pending.1 ∈ st.pendingLoads then st
  else
    let st := { st with pendingLoadHandles := st.pendingLoadHandles.erase pending.1 }
    if env.fetchOk pending.1 then
      let ok := pending.2.all fun s => env.injectOk pending.1 s.1
      { st with
        written := st.written ++ (injected env pending.1 pending.2).map (pending.1, ·)
        pendingLoads := if ok then pending.1 :: st.pendingLoads else st.pendingLoads }
    else st

/-- `wait_for_layer_load`. -/
def waitForLayerLoad (env : LoadEnv R L) (st : LoadState R L) : LoadState R L :=
  if st.attn then st.pendingLoadHandles.items.foldl (waitLoad env) st else st

/-- One step: the loads are started, and waited for before each layer. -/
def loadStep (kvBlockSize : ℕ) (env : LoadEnv R L) (specs : Dict R LoadSpec) (st : LoadState R L) :
    LoadState R L :=
  st.layers.foldl (fun st _ => waitForLayerLoad env st)
    (startLoadKv kvBlockSize env specs { st with written := [] })

/-! ### What a step owes -/

/-- The slots of the first tokens in a list of blocks. -/
def tokenSlots (kvBlockSize : ℕ) (blocks : List ℕ) (n : ℕ) : List ℕ :=
  (blocks.flatMap fun b => (List.range kvBlockSize).map (b * kvBlockSize + ·)).take n

/-- The slots of the first tokens of a load in its blocks of the GPU. -/
def LoadSpec.slots (spec : LoadSpec) (kvBlockSize : ℕ) : List ℕ :=
  tokenSlots kvBlockSize spec.blockIds spec.dpuCachedTokens

variable {kvBlockSize : ℕ} {env : LoadEnv R L} {st st' : LoadState R L} {specs : Dict R LoadSpec}
  {req : R} {spec : LoadSpec}

/-- The slices of a load that was started, or else those given. -/
def StartResult.slicesOr : StartResult L → Option (List (L × List ℕ)) → Option (List (L × List ℕ))
  | .pending slices, _ => some slices
  | _, old => old

/-- What a number of loads that are started leave. -/
structure Started (kvBlockSize : ℕ) (env : LoadEnv R L) (loads : List (R × LoadSpec))
    (st st' : LoadState R L) : Prop where
  layers : st'.layers = st.layers
  attn : st'.attn = st.attn
  pendingLoads : st'.pendingLoads = st.pendingLoads
  written : st'.written = st.written
  /-- The errors of the loads are noted. -/
  loadErrors : ∀ b, b ∈ st'.loadErrors ↔ b ∈ st.loadErrors ∨
    ∃ p ∈ loads, startResult kvBlockSize env st.layers p.1 p.2 = .error b
  /-- Other requests keep what is pending. -/
  other : ∀ r, r ∉ loads.map Prod.fst →
    st'.pendingLoadHandles.get? r = st.pendingLoadHandles.get? r
  /-- The started loads are pending. -/
  pending : ∀ p ∈ loads, st'.pendingLoadHandles.get? p.1
    = (startResult kvBlockSize env st.layers p.1 p.2).slicesOr (st.pendingLoadHandles.get? p.1)

theorem Started.single (p : R × LoadSpec) :
    Started kvBlockSize env [p] st (startLoad kvBlockSize env st p) := by
  unfold startLoad
  cases hresult : startResult kvBlockSize env st.layers p.1 p.2 with
  | passed =>
    refine ⟨rfl, rfl, rfl, rfl, by simp [hresult], fun _ _ => rfl, fun q hq => ?_⟩
    obtain rfl := mem_singleton.mp hq
    rw [hresult]
    rfl
  | error b =>
    refine ⟨rfl, rfl, rfl, rfl, fun b' => ?_, fun _ _ => rfl, fun q hq => ?_⟩
    · simp [hresult, or_comm, eq_comm]
    · obtain rfl := mem_singleton.mp hq
      rw [hresult]
      rfl
  | pending slices =>
    refine ⟨rfl, rfl, rfl, rfl, by simp [hresult], fun r hr => ?_, fun q hq => ?_⟩
    · exact Dict.get?_set_of_ne _ (by simpa using hr) _
    · obtain rfl := mem_singleton.mp hq
      rw [hresult]
      exact Dict.get?_set_self _ _ _

theorem Started.cons {p : R × LoadSpec} {loads : List (R × LoadSpec)} {st₁ : LoadState R L}
    (hp : p.1 ∉ loads.map Prod.fst) (h₁ : Started kvBlockSize env [p] st st₁)
    (h₂ : Started kvBlockSize env loads st₁ st') : Started kvBlockSize env (p :: loads) st st' where
  layers := h₂.layers.trans h₁.layers
  attn := h₂.attn.trans h₁.attn
  pendingLoads := h₂.pendingLoads.trans h₁.pendingLoads
  written := h₂.written.trans h₁.written
  loadErrors b := by
    rw [h₂.loadErrors, h₁.loadErrors, h₁.layers]
    simp [or_assoc]
  other r hr := by
    rw [map_cons, mem_cons, not_or] at hr
    rw [h₂.other r hr.2, h₁.other r (by simpa using hr.1)]
  pending q hq := by
    rcases mem_cons.mp hq with rfl | hq
    · rw [h₂.other _ hp]
      exact h₁.pending _ (mem_singleton_self _)
    · have hne : q.1 ≠ p.1 := fun heq => hp (heq ▸ mem_map_of_mem hq)
      rw [h₂.pending q hq, h₁.layers, h₁.other q.1 (by simpa using hne)]

/-- What waiting for a number of pending loads leaves. -/
structure Waited (env : LoadEnv R L) (pending : List (R × List (L × List ℕ)))
    (st st' : LoadState R L) : Prop where
  layers : st'.layers = st.layers
  attn : st'.attn = st.attn
  loadErrors : st'.loadErrors = st.loadErrors
  done : ∀ r ∈ st.pendingLoads, r ∈ st'.pendingLoads
  /-- Other requests are not done by this. -/
  other : ∀ r, r ∉ pending.map Prod.fst → r ∈ st'.pendingLoads → r ∈ st.pendingLoads
  /-- What is still pending was so before, and is of the other requests or of one that was done. -/
  left : ∀ p ∈ st'.pendingLoadHandles.items, p ∈ st.pendingLoadHandles.items ∧
    (p.1 ∈ pending.map Prod.fst → p.1 ∈ st.pendingLoads)
  /-- The slices of the loads that were not done are copied, if the fetch completes. -/
  written : ∀ r s, (r, s) ∈ st'.written ↔ (r, s) ∈ st.written ∨
    (r ∉ st.pendingLoads ∧ env.fetchOk r = true ∧
      ∃ slices, (r, slices) ∈ pending ∧ s ∈ injected env r slices)

theorem Waited.single (p : R × List (L × List ℕ)) : Waited env [p] st (waitLoad env st p) := by
  have herase : ∀ q ∈ (st.pendingLoadHandles.erase p.1).items,
      q ∈ st.pendingLoadHandles.items ∧ q.1 ≠ p.1 := fun q hq => Dict.mem_items_erase.mp hq
  unfold waitLoad
  split
  · -- it has been waited for before: nothing changes
    rename_i hdone
    refine ⟨rfl, rfl, rfl, fun _ h => h, fun _ _ h => h, fun q hq => ⟨hq, ?_⟩, fun r s => ?_⟩
    · intro hmem
      have hqp : q.1 = p.1 := by simpa using hmem
      rw [hqp]
      exact hdone
    · refine ⟨Or.inl, ?_⟩
      rintro (hold | ⟨hnot, -, slices, hmem, -⟩)
      · exact hold
      · obtain rfl := mem_singleton.mp hmem
        exact absurd hdone hnot
  · rename_i hnot
    split
    · rename_i hfetch
      refine ⟨rfl, rfl, rfl, fun r hr => ?_, fun r hr hr' => ?_, fun q hq => ?_, fun r s => ?_⟩
      · dsimp only
        split
        · exact mem_cons_of_mem _ hr
        · exact hr
      · dsimp only at hr'
        split at hr'
        · exact (mem_cons.mp hr').resolve_left (by simpa using hr)
        · exact hr'
      · obtain ⟨hmem, hne⟩ := herase q hq
        exact ⟨hmem, fun h => absurd (by simpa using h) hne⟩
      · rw [mem_append, mem_map]
        refine or_congr_right ?_
        constructor
        · rintro ⟨s', hs', heq⟩
          obtain ⟨rfl, rfl⟩ : p.1 = r ∧ s' = s := by simpa using heq
          exact ⟨hnot, hfetch, p.2, mem_singleton_self _, hs'⟩
        · rintro ⟨-, -, slices, hmem, hs⟩
          obtain rfl := mem_singleton.mp hmem
          exact ⟨s, hs, rfl⟩
    · -- the fetch raises: the handle is dropped, and nothing is written
      rename_i hfetch
      refine ⟨rfl, rfl, rfl, fun _ h => h, fun _ _ h => h, fun q hq => ?_, fun r s => ?_⟩
      · obtain ⟨hmem, hne⟩ := herase q hq
        exact ⟨hmem, fun h => absurd (by simpa using h) hne⟩
      · refine ⟨Or.inl, ?_⟩
        rintro (hold | ⟨-, hok, slices, hmem, -⟩)
        · exact hold
        · obtain rfl := mem_singleton.mp hmem
          exact absurd hok hfetch

theorem Waited.cons {p : R × List (L × List ℕ)} {pending : List (R × List (L × List ℕ))}
    {st₁ : LoadState R L} (hp : p.1 ∉ pending.map Prod.fst) (h₁ : Waited env [p] st st₁)
    (h₂ : Waited env pending st₁ st') : Waited env (p :: pending) st st' where
  layers := h₂.layers.trans h₁.layers
  attn := h₂.attn.trans h₁.attn
  loadErrors := h₂.loadErrors.trans h₁.loadErrors
  done r hr := h₂.done r (h₁.done r hr)
  other r hr hr' := by
    rw [map_cons, mem_cons, not_or] at hr
    exact h₁.other r (by simpa using hr.1) (h₂.other r hr.2 hr')
  left q hq := by
    obtain ⟨hmem₁, hdone₁⟩ := h₂.left q hq
    obtain ⟨hmem, hdone⟩ := h₁.left q hmem₁
    refine ⟨hmem, fun h => ?_⟩
    by_cases hqp : q.1 = p.1
    · exact hdone (by simp [hqp])
    · have hq' : q.1 ∈ pending.map Prod.fst := by simpa [hqp] using h
      exact h₁.other q.1 (by simpa using hqp) (hdone₁ hq')
  written r s := by
    rw [h₂.written, h₁.written, or_assoc]
    refine or_congr_right ?_
    by_cases hrp : r = p.1
    · -- the others are of other requests
      subst hrp
      have hnone : ∀ slices, (p.1, slices) ∉ pending := fun slices hmem =>
        hp (mem_map.mpr ⟨_, hmem, rfl⟩)
      simp [hnone]
    · have hsame : r ∈ st₁.pendingLoads ↔ r ∈ st.pendingLoads :=
        ⟨h₁.other r (by simpa using hrp), h₁.done r⟩
      have hnot : ∀ slices, (r, slices) ≠ p := fun slices heq => hrp (by rw [← heq])
      simp [hsame, hnot]

/-- What is still pending after a wait is of requests whose load is done, so that another wait does
nothing. -/
def Settled (st : LoadState R L) : Prop :=
  st.attn = true → ∀ p ∈ st.pendingLoadHandles.items, p.1 ∈ st.pendingLoads

end Code

end CacheFlow.Doca
