import CacheFlow.Worker.KvAccess
import CacheFlow.Worker.Layout

/-!
# Moving chunks between the KV cache and the pool

The data path of `engine.py`. A save gathers each layer of its chunks into staging and
posts operations that copy it to the entries the server has reported as new; a load
posts operations that copy entries to staging and scatters each layer into the KV cache
once the operations of its group have completed. Operations complete in the order in
which they were posted, at any later time.

A save may post layer by layer or once for all layers, and the client or the server may
drive the transfers; the runs below allow any of this, in any order in which a layer is
posted after it was gathered and scattered after it has arrived.

## Main results

* `SaveXfer.Reach.inv`, `LoadXfer.Reach.inv` — what holds while a transfer is under way.
-/

namespace CacheFlow

open List

/-- The sizes a transfer engine works with. -/
structure EngineShape where
  /-- The layout of the KV cache. -/
  acc : KVAccessor
  chunkTokens : ℕ
  blockSize : ℕ
  numLayers : ℕ

namespace EngineShape

variable (E : EngineShape)

/-- `set_geometry`. -/
def geom : ChunkGeometry := ⟨E.numLayers, E.chunkTokens * E.acc.tokenBytes⟩

/-- The block and offset of a token of a request, for a table that reaches to it. -/
def tokenSlot (table : List ℕ) (t : ℕ) : ℕ × ℕ := (table.getD (t / E.blockSize) 0, t % E.blockSize)

end EngineShape

/-! ### Saving -/

/-- A save: some chunks of a request, and the entries the server gave for those of them
that are new. -/
structure SaveXfer (β : Type) (E : EngineShape) where
  /-- Number of the first chunk. -/
  chunk0 : ℕ
  nChunks : ℕ
  table : List ℕ
  /-- The KV cache of each layer, when it is gathered. -/
  src : ℕ → KVTensor β E.acc.elem
  new : List ℕ
  addrs : List ℕ
  entryKey : ℕ
  base : ℕ
  stagingKey : ℕ
  mode : TransferMode

/-- A save on its way. -/
structure SaveState (β : Type) where
  client : Mem β
  server : Mem β
  /-- What has been posted and has not completed. -/
  queue : List RdmaOp
  /-- The layers that have been gathered. -/
  gathered : List ℕ
  posted : List ℕ

/-- Every layer has been posted, and everything posted has completed. -/
def SaveState.Done {β : Type} (st : SaveState β) (E : EngineShape) : Prop :=
  (∀ l < E.numLayers, l ∈ st.posted) ∧ st.queue = []

namespace SaveXfer

variable {β : Type} {E : EngineShape} (x : SaveXfer β E)

/-- The slot of token `j` of chunk `i`. -/
def slot (i j : ℕ) : ℕ × ℕ := E.tokenSlot x.table ((x.chunk0 + i) * E.chunkTokens + j)

/-- What the entry of chunk `i` holds of a layer. -/
def content (layer i : ℕ) : ℕ → β := E.acc.chunkBytes E.chunkTokens (x.src layer) (x.slot i)

/-- `save_layer`: gather a layer into its part of the staging region. -/
def gatherLayer (st : SaveState β) (layer : ℕ) : SaveState β :=
  { st with
    client := E.acc.gather E.chunkTokens (x.src layer) x.slot x.nChunks st.client
      (x.base + layer * x.nChunks * E.geom.layerBytes)
    gathered := layer :: st.gathered }

/-- `_save_post`: post the operations of a range of layers. -/
def postLayers (st : SaveState β) (l0 l1 : ℕ) : SaveState β :=
  match planOps E.geom x.base x.stagingKey x.addrs x.entryKey false x.mode.stagingIsLocal
      (some x.new) (some x.nChunks) (some (l0, l1)) with
  | .ok groups =>
      { st with
        queue := st.queue ++ groups.flatten
        posted := List.range' l0 (l1 - l0) ++ st.posted }
  | .error _ => st

/-- The oldest operation completes. -/
def complete (st : SaveState β) : SaveState β :=
  match st.queue with
  | [] => st
  | op :: rest =>
    let (client, server) := x.mode.execSave op st.client st.server
    { st with client := client, server := server, queue := rest }

/-- The states of a save that starts with the given memories. -/
inductive Reach (client server : Mem β) : SaveState β → Prop
  | start : Reach client server ⟨client, server, [], [], []⟩
  /-- A layer is gathered, once. -/
  | gather {st : SaveState β} {layer : ℕ} : Reach client server st → layer < E.numLayers →
      layer ∉ st.gathered → Reach client server (x.gatherLayer st layer)
  /-- Layers that have been gathered are posted. -/
  | post {st : SaveState β} {l0 l1 : ℕ} : Reach client server st → l0 ≤ l1 → l1 ≤ E.numLayers →
      (∀ l, l0 ≤ l → l < l1 → l ∈ st.gathered) → Reach client server (x.postLayers st l0 l1)
  | complete {st : SaveState β} : Reach client server st → Reach client server (x.complete st)

/-- The two sides of the save lie in the address space, and the entries are apart. -/
structure Fits : Prop where
  plan : PlanFits E.geom x.base x.nChunks x.addrs x.new
  /-- No two entries overlap. -/
  apart : x.addrs.Pairwise fun a b => a + E.geom.entryBytes ≤ b ∨ b + E.geom.entryBytes ≤ a

/-- The operation for one layer of the `q`-th new chunk. -/
def op (layer q : ℕ) : RdmaOp :=
  layerOp (x.base + E.geom.stagingOffset x.nChunks layer (x.new.getD q 0)) x.stagingKey
    (x.addrs.getD q 0 + layer * E.geom.layerBytes) x.entryKey E.geom.layerBytes x.mode.stagingIsLocal

variable {x}

theorem postLayers_eq (hfits : x.Fits) {l0 l1 : ℕ} (hle : l0 ≤ l1) (hl1 : l1 ≤ E.numLayers)
    (st : SaveState β) : x.postLayers st l0 l1 = { st with
      queue := st.queue ++ (List.range' l0 (l1 - l0)).flatMap fun l =>
        (List.range x.addrs.length).map (x.op l)
      posted := List.range' l0 (l1 - l0) ++ st.posted } := by
  have hplan := @planOps_eq E.geom x.base x.addrs (some x.new) (some x.nChunks) (some (l0, l1))
    l0 l1 hfits.plan rfl hle hl1 x.stagingKey x.entryKey false x.mode.stagingIsLocal
  simp only [Bool.false_eq_true, if_false, Option.getD_some] at hplan
  simp only [postLayers, hplan, flatten_cons, flatten_nil, append_nil, plannedOps,
    List.flatMap]
  rfl

/-- Different pieces of different entries, or of one entry, do not overlap. -/
theorem Fits.pieces (hfits : x.Fits) {l l' q q' : ℕ} (hl : l < E.numLayers) (hl' : l' < E.numLayers)
    (hq : q < x.addrs.length) (hq' : q' < x.addrs.length) (hne : ¬ (l = l' ∧ q = q')) :
    x.addrs.getD q 0 + l * E.geom.layerBytes + E.geom.layerBytes ≤
        x.addrs.getD q' 0 + l' * E.geom.layerBytes ∨
      x.addrs.getD q' 0 + l' * E.geom.layerBytes + E.geom.layerBytes ≤
        x.addrs.getD q 0 + l * E.geom.layerBytes := by
  have h₁ : l * E.geom.layerBytes + E.geom.layerBytes ≤ E.geom.entryBytes := row_end_le _ hl
  have h₂ : l' * E.geom.layerBytes + E.geom.layerBytes ≤ E.geom.entryBytes := row_end_le _ hl'
  rcases lt_trichotomy q q' with hlt | rfl | hlt
  · have hap := pairwise_iff_getElem.mp hfits.apart q q' hq hq' hlt
    rw [getD_eq_getElem _ _ hq, getD_eq_getElem _ _ hq']
    omega
  · -- two layers of one entry
    have hll := rows_apart E.geom.layerBytes fun h : l = l' => hne ⟨h, rfl⟩
    omega
  · have hap := pairwise_iff_getElem.mp hfits.apart q' q hq' hq hlt
    rw [getD_eq_getElem _ _ hq, getD_eq_getElem _ _ hq']
    omega

theorem Fits.new_lt (hfits : x.Fits) {q : ℕ} (hq : q < x.addrs.length) :
    x.new.getD q 0 < x.nChunks := by
  have hlt : q < x.new.length := hfits.plan.length ▸ hq
  rw [getD_eq_getElem _ _ hlt]
  exact hfits.plan.pos _ (getElem_mem hlt)

variable (x)

/-- What holds in every state of a save that started with the memory `server`. -/
structure Inv (server : Mem β) (st : SaveState β) : Prop where
  /-- A gathered layer is in staging. -/
  staged : ∀ l ∈ st.gathered, ∀ i < x.nChunks,
    HoldsAt st.client (x.base + E.geom.stagingOffset x.nChunks l i) E.geom.layerBytes (x.content l i)
  posted : ∀ l ∈ st.posted, l < E.numLayers ∧ l ∈ st.gathered
  /-- Only pieces of posted layers are in the queue. -/
  queued : ∀ op ∈ st.queue, ∃ l ∈ st.posted, ∃ q < x.addrs.length, op = x.op l q
  /-- A piece of a posted layer is in the queue or in its entry. -/
  arrived : ∀ l ∈ st.posted, ∀ q < x.addrs.length, x.op l q ∈ st.queue ∨
    HoldsAt st.server (x.addrs.getD q 0 + l * E.geom.layerBytes) E.geom.layerBytes
      (x.content l (x.new.getD q 0))
  /-- The rest of the pool is as it was. -/
  frame : ∀ a, (∀ e ∈ x.addrs, a < e ∨ e + E.geom.entryBytes ≤ a) → st.server a = server a

variable {x} {server : Mem β} {st : SaveState β}

section

variable (h : x.Inv server st) (hfits : x.Fits)
include h hfits

theorem Inv.gatherLayer {layer : ℕ}
    (hnew : layer ∉ st.gathered) : x.Inv server (x.gatherLayer st layer) := by
  refine { h with staged := ?_, posted := ?_ }
  · intro l hl i hi
    have hoff : ∀ l, E.geom.stagingOffset x.nChunks l i =
        l * x.nChunks * E.geom.layerBytes + i * E.geom.layerBytes := fun l => Nat.add_mul _ _ _
    rcases mem_cons.mp hl with rfl | hl
    · rw [hoff, ← Nat.add_assoc]
      exact E.acc.holdsAt_gather hi hfits.plan.layerBytes.1 _ _ _ _
    · -- the region of another layer
      have hne : l ≠ layer := fun heq => hnew (heq ▸ hl)
      have hrow := row_end_le E.geom.layerBytes hi
      have hrows := rows_apart (x.nChunks * E.geom.layerBytes) hne
      simp only [← Nat.mul_assoc] at hrows
      apply E.acc.holdsAt_gather_of_disjoint (h.staged l hl i hi)
      change _ ∨ _ + x.nChunks * E.geom.layerBytes ≤ _
      rw [hoff]
      omega
  · intro l hl
    exact ⟨(h.posted l hl).1, mem_cons_of_mem _ (h.posted l hl).2⟩

theorem Inv.postLayers {l0 l1 : ℕ} (hle : l0 ≤ l1)
    (hl1 : l1 ≤ E.numLayers) (hgathered : ∀ l, l0 ≤ l → l < l1 → l ∈ st.gathered) :
    x.Inv server (x.postLayers st l0 l1) := by
  have hrange : ∀ {l}, l ∈ List.range' l0 (l1 - l0) → l0 ≤ l ∧ l < l1 := by
    intro l hl
    have := mem_range'_1.mp hl
    omega
  rw [postLayers_eq hfits hle hl1]
  refine ⟨h.staged, ?_, ?_, ?_, h.frame⟩
  · intro l hl
    rcases mem_append.mp hl with hl | hl
    · obtain ⟨h₀, h₁⟩ := hrange hl
      exact ⟨Nat.lt_of_lt_of_le h₁ hl1, hgathered l h₀ h₁⟩
    · exact h.posted l hl
  · intro op hop
    rcases mem_append.mp hop with hop | hop
    · obtain ⟨l, hl, hq⟩ := h.queued op hop
      exact ⟨l, mem_append_right _ hl, hq⟩
    · obtain ⟨l, hl, hop⟩ := mem_flatMap.mp hop
      obtain ⟨q, hq, rfl⟩ := mem_map.mp hop
      exact ⟨l, mem_append_left _ hl, q, mem_range.mp hq, rfl⟩
  · intro l hl q hq
    rcases mem_append.mp hl with hl | hl
    · left
      apply mem_append_right
      exact mem_flatMap.mpr ⟨l, hl, mem_map.mpr ⟨q, mem_range.mpr hq, rfl⟩⟩
    · exact (h.arrived l hl q hq).imp_left (mem_append_left _)

/-- When an operation completes, its piece is in its entry and no other piece changes. -/
theorem Inv.complete : x.Inv server (x.complete st) := by
  unfold SaveXfer.complete
  cases hqueue : st.queue with
  | nil => exact h
  | cons op rest =>
    obtain ⟨l₀, hl₀, q₀, hq₀, rfl⟩ := h.queued op (hqueue ▸ mem_cons_self)
    obtain ⟨hL₀, hg₀⟩ := h.posted l₀ hl₀
    dsimp only
    rw [op, TransferMode.execSave_layerOp]
    refine ⟨h.staged, h.posted, ?_, ?_, ?_⟩
    · intro op hop
      exact h.queued op (hqueue ▸ mem_cons_of_mem _ hop)
    · intro l hl q hq
      -- the completed piece is decided by its place, whatever else is queued for it
      by_cases hsame : l = l₀ ∧ q = q₀
      · obtain ⟨rfl, rfl⟩ := hsame
        right
        exact holdsAt_copy (h.staged l hg₀ _ (hfits.new_lt hq)) _ _
      · rcases h.arrived l hl q hq with hop | hheld
        · rw [hqueue] at hop
          rcases mem_cons.mp hop with heq | hop
          · -- two pieces with equal operations would have one place in the pool
            have hplace := congrArg (fun o => x.mode.execSave o st.client st.server) heq
            simp only [op, TransferMode.execSave_layerOp, Prod.mk.injEq, true_and] at hplace
            right
            rw [← hplace]
            exact holdsAt_copy (h.staged l (h.posted l hl).2 _ (hfits.new_lt hq)) _ _
          · exact Or.inl hop
        · right
          exact hheld.copy_of_disjoint _ _ (hfits.pieces (h.posted l hl).1 hL₀ hq hq₀ hsame)
    · intro a ha
      have hentry := ha _ (getD_eq_getElem x.addrs 0 hq₀ ▸ getElem_mem hq₀)
      have hend : l₀ * E.geom.layerBytes + E.geom.layerBytes ≤ E.geom.entryBytes := row_end_le _ hL₀
      dsimp only
      rw [copyRange, fill_of_not_mem _ _ (by omega)]
      exact h.frame a ha

end

/-- The invariant holds in every state of a save. -/
theorem Reach.inv {client : Mem β} (hfits : x.Fits) (h : x.Reach client server st) :
    x.Inv server st := by
  induction h with
  | start => exact ⟨by simp, by simp, by simp, by simp, fun _ _ => rfl⟩
  | gather _ _ hnew ih => exact ih.gatherLayer hfits hnew
  | post _ hle hl1 hgathered ih => exact ih.postLayers hfits hle hl1 hgathered
  | complete _ ih => exact ih.complete hfits

/-- **A save that is done has stored its chunks**: every entry holds every layer of its
chunk, and the rest of the pool is as it was. -/
theorem Reach.stored {client : Mem β} (hfits : x.Fits) (h : x.Reach client server st)
    (hdone : st.Done E) :
    (∀ l < E.numLayers, ∀ q < x.addrs.length,
      HoldsAt st.server (x.addrs.getD q 0 + l * E.geom.layerBytes) E.geom.layerBytes
        (x.content l (x.new.getD q 0))) ∧
    ∀ a, (∀ e ∈ x.addrs, a < e ∨ e + E.geom.entryBytes ≤ a) → st.server a = server a := by
  have hinv := h.inv hfits
  refine ⟨?_, hinv.frame⟩
  intro l hl q hq
  rcases hinv.arrived l (hdone.1 l hl) q hq with hop | hheld
  · rw [hdone.2] at hop
    exact absurd hop not_mem_nil
  · exact hheld

end SaveXfer

/-! ### Loading -/

/-- A load: the entries of some chunks of a request, and the tokens to take from them. -/
structure LoadXfer (E : EngineShape) where
  entries : List ℕ
  entryKey : ℕ
  /-- Number of the chunk of the first entry. -/
  chunk0 : ℕ
  tokStart : ℕ
  tokStop : ℕ
  table : List ℕ
  base : ℕ
  stagingKey : ℕ
  /-- Whether each layer is a group of its own: `layerwise_load`. -/
  layerwise : Bool
  mode : TransferMode

/-- A load on its way. -/
structure LoadState (β : Type) (E : EngineShape) where
  client : Mem β
  server : Mem β
  /-- The KV cache of each layer. -/
  kv : ℕ → KVTensor β E.acc.elem
  /-- What has been posted and has not completed, each with its group. -/
  queue : List (ℕ × RdmaOp)
  /-- The layers that have been scattered. -/
  scattered : List ℕ

namespace LoadXfer

variable {β : Type} {E : EngineShape} (x : LoadXfer E)

/-- The group of a layer. -/
def group (layer : ℕ) : ℕ := if x.layerwise then layer else 0

/-- How many tokens are loaded. -/
def tokens : ℕ := x.tokStop - x.tokStart

/-- The block and offset of the `i`-th loaded token: `blk` and `off`. -/
def slot (i : ℕ) : ℕ × ℕ := E.tokenSlot x.table (x.tokStart + i)

/-- The entry of the `i`-th loaded token. -/
def jdx (i : ℕ) : ℕ := (x.tokStart + i) / E.chunkTokens - x.chunk0

/-- The place of the `i`-th loaded token in its chunk. -/
def pdx (i : ℕ) : ℕ := (x.tokStart + i) % E.chunkTokens

/-- `begin_load`: plan the operations and post them, group after group. -/
def begin (client server : Mem β) (kv : ℕ → KVTensor β E.acc.elem) : Except PyErr (LoadState β E) := do
  let groups ← planOps E.geom x.base x.stagingKey x.entries x.entryKey x.layerwise
    x.mode.stagingIsLocal none none none
  return {
    client := client
    server := server
    kv := kv
    queue := groups.zipIdx.flatMap fun g => g.1.map fun op => (g.2, op)
    scattered := [] }

/-- The oldest operation completes. -/
def complete (st : LoadState β E) : LoadState β E :=
  match st.queue with
  | [] => st
  | (_, op) :: rest =>
    let (client, server) := x.mode.execLoad op st.client st.server
    { st with client := client, server := server, queue := rest }

/-- `load_layer`, after the wait: scatter a layer from its part of the staging region. -/
def scatterLayer (st : LoadState β E) (layer : ℕ) : LoadState β E :=
  { st with
    kv := Function.update st.kv layer (E.acc.scatter (st.kv layer) x.tokens x.slot fun p i f b =>
      st.client (x.base + layer * x.entries.length * E.geom.layerBytes +
        (x.jdx i * E.geom.layerBytes + E.acc.chunkPos E.chunkTokens p (x.pdx i) f b)))
    scattered := layer :: st.scattered }

/-- The states of a load that starts with the given memories and KV cache. -/
inductive Reach (client server : Mem β) (kv : ℕ → KVTensor β E.acc.elem) : LoadState β E → Prop
  /-- The operations have been posted. -/
  | start {st : LoadState β E} : x.begin client server kv = .ok st → Reach client server kv st
  | complete {st : LoadState β E} : Reach client server kv st →
      Reach client server kv (x.complete st)
  /-- A layer is scattered, once. With one group only the first layer waits for it. -/
  | scatter {st : LoadState β E} {layer : ℕ} : Reach client server kv st → layer < E.numLayers →
      layer ∉ st.scattered →
      (st.scattered = [] ∨ x.layerwise = true → ∀ g ∈ st.queue, x.group layer < g.1) →
      Reach client server kv (x.scatterLayer st layer)

/-- The two sides of the load lie in the address space, and the tokens lie in the chunks
of the entries. -/
structure Fits : Prop where
  plan : PlanFits E.geom x.base x.entries.length x.entries (List.range x.entries.length)
  start : x.chunk0 * E.chunkTokens ≤ x.tokStart
  stop : x.tokStop ≤ (x.chunk0 + x.entries.length) * E.chunkTokens

/-- The operation for one layer of the `j`-th entry. -/
def op (layer j : ℕ) : RdmaOp :=
  layerOp (x.base + E.geom.stagingOffset x.entries.length layer j) x.stagingKey
    (x.entries.getD j 0 + layer * E.geom.layerBytes) x.entryKey E.geom.layerBytes x.mode.stagingIsLocal

variable {x}

theorem Fits.chunkTokens_pos (hfits : x.Fits) : 0 < E.chunkTokens :=
  Nat.pos_of_mul_pos_right hfits.plan.layerBytes.1

theorem Fits.chunk0_add_jdx (hfits : x.Fits) (i : ℕ) :
    x.chunk0 + x.jdx i = (x.tokStart + i) / E.chunkTokens := by
  have hge : x.chunk0 ≤ (x.tokStart + i) / E.chunkTokens := by
    apply (Nat.le_div_iff_mul_le hfits.chunkTokens_pos).mpr
    exact Nat.le_add_right_of_le hfits.start
  rw [jdx]
  omega

theorem Fits.jdx_lt (hfits : x.Fits) {i : ℕ} (hi : i < x.tokens) : x.jdx i < x.entries.length := by
  have hstop := hfits.stop
  have hchunk := hfits.chunk0_add_jdx i
  have hlt : (x.tokStart + i) / E.chunkTokens < x.chunk0 + x.entries.length := by
    apply (Nat.div_lt_iff_lt_mul hfits.chunkTokens_pos).mpr
    rw [tokens] at hi
    omega
  omega

theorem Fits.pdx_lt (hfits : x.Fits) (i : ℕ) : x.pdx i < E.chunkTokens :=
  Nat.mod_lt _ hfits.chunkTokens_pos

/-- **What `begin_load` posts**: every layer of every entry, in the group of the layer. -/
theorem mem_queue_begin (hfits : x.Fits) {client server : Mem β}
    {kv : ℕ → KVTensor β E.acc.elem} :
    ∃ st : LoadState β E, x.begin client server kv = .ok st ∧ st.client = client ∧
      st.server = server ∧ st.kv = kv ∧ st.scattered = [] ∧
      ∀ g, g ∈ st.queue ↔ ∃ l < E.numLayers, ∃ j < x.entries.length, g = (x.group l, x.op l j) := by
  have hplan := @planOps_eq E.geom x.base x.entries none none none 0 E.numLayers hfits.plan rfl
    (Nat.zero_le _) le_rfl x.stagingKey x.entryKey x.layerwise x.mode.stagingIsLocal
  have hops : plannedOps E.geom x.base x.stagingKey x.entries x.entryKey x.mode.stagingIsLocal
      (List.range x.entries.length) x.entries.length 0 E.numLayers =
      (List.range E.numLayers).map fun l => (List.range x.entries.length).map (x.op l) := by
    rw [plannedOps, Nat.sub_zero, ← range_eq_range']
    refine map_congr_left fun l _ => map_congr_left fun j hj => ?_
    rw [getD_eq_getElem _ _ (by simpa using hj), getElem_range, op]
  simp only [Option.getD_none, hops] at hplan
  refine ⟨_, by rw [begin, hplan]; rfl, rfl, rfl, rfl, rfl, ?_⟩
  rintro ⟨g, o⟩
  simp only [mem_flatMap, mem_zipIdx_iff_getElem?, Prod.exists, mem_map, group]
  cases x.layerwise with
  | true =>
    simp only [if_true, List.getElem?_map, Option.map_eq_some_iff]
    constructor
    · rintro ⟨ops, i, ⟨l, hl, rfl⟩, o, ho, heq⟩
      obtain ⟨hi, rfl⟩ := List.getElem?_eq_some_iff.mp hl
      obtain ⟨j, hj, rfl⟩ := mem_map.mp ho
      rw [length_range] at hi
      rw [getElem_range] at heq
      exact ⟨i, hi, j, mem_range.mp hj, heq.symm⟩
    · rintro ⟨l, hl, j, hj, heq⟩
      exact ⟨_, l, ⟨l, by simp [hl], rfl⟩, x.op l j,
        mem_map.mpr ⟨j, mem_range.mpr hj, rfl⟩, heq.symm⟩
  | false =>
    constructor
    · rintro ⟨ops, i, hi, o, ho, heq⟩
      -- there is one group, and it has every operation
      obtain ⟨rfl, rfl⟩ : i = 0 ∧ _ = ops := by
        cases i with
        | zero => exact ⟨rfl, by simpa using hi⟩
        | succ i => simp at hi
      obtain ⟨ops, hops, ho⟩ := mem_flatten.mp ho
      obtain ⟨l, hl, rfl⟩ := mem_map.mp hops
      obtain ⟨j, hj, rfl⟩ := mem_map.mp ho
      exact ⟨l, mem_range.mp hl, j, mem_range.mp hj, heq.symm⟩
    · rintro ⟨l, hl, j, hj, heq⟩
      refine ⟨_, 0, rfl, x.op l j, ?_, heq.symm⟩
      exact mem_flatten.mpr ⟨_, mem_map.mpr ⟨l, mem_range.mpr hl, rfl⟩,
        mem_map.mpr ⟨j, mem_range.mpr hj, rfl⟩⟩

theorem pieces_apart (base S : ℕ) {n l l' j j' : ℕ} (hj : j < n) (hj' : j' < n)
    (hne : ¬ (l = l' ∧ j = j')) :
    base + (l * n + j) * S + S ≤ base + (l' * n + j') * S ∨
      base + (l' * n + j') * S + S ≤ base + (l * n + j) * S := by
  have hrows : l * n + j ≠ l' * n + j' := by
    intro heq
    refine hne ⟨?_, ?_⟩
    · rw [← pair_div (i := l) hj, ← pair_div (i := l') hj', pair, pair, heq]
    · rw [← pair_mod (i := l) hj, ← pair_mod (i := l') hj', pair, pair, heq]
  have := rows_apart S hrows
  omega

variable (x)

/-- A layer of the KV cache with the loaded tokens written from the content of the entries. -/
def injected (content : ℕ → ℕ → ℕ → β) (layer : ℕ) (kv : KVTensor β E.acc.elem) :
    KVTensor β E.acc.elem :=
  E.acc.scatter kv x.tokens x.slot fun p i f b =>
    content layer (x.jdx i) (E.acc.chunkPos E.chunkTokens p (x.pdx i) f b)

/-- What holds in every state of a load whose entries hold `content`. -/
structure Inv (content : ℕ → ℕ → ℕ → β) (server : Mem β) (kv : ℕ → KVTensor β E.acc.elem)
    (st : LoadState β E) : Prop where
  server_eq : st.server = server
  /-- Only pieces of the entries are in the queue. -/
  queued : ∀ g ∈ st.queue, ∃ l < E.numLayers, ∃ j < x.entries.length, g = (x.group l, x.op l j)
  /-- A piece is in the queue or in staging. -/
  landed : ∀ l < E.numLayers, ∀ j < x.entries.length, (x.group l, x.op l j) ∈ st.queue ∨
    HoldsAt st.client (x.base + E.geom.stagingOffset x.entries.length l j) E.geom.layerBytes
      (content l j)
  drained : st.scattered ≠ [] → x.layerwise = false → st.queue = []
  /-- The scattered layers are written and the others are as they were. -/
  kv_eq : ∀ l, st.kv l = if l ∈ st.scattered then x.injected content l (kv l) else kv l

variable {x} {content : ℕ → ℕ → ℕ → β} {server : Mem β} {kv : ℕ → KVTensor β E.acc.elem}
  {st : LoadState β E}

/-- When an operation completes, its piece is in staging and no other piece changes. -/
theorem Inv.complete (h : x.Inv content server kv st)
    (hheld : ∀ l < E.numLayers, ∀ j < x.entries.length,
      HoldsAt server (x.entries.getD j 0 + l * E.geom.layerBytes) E.geom.layerBytes (content l j)) :
    x.Inv content server kv (x.complete st) := by
  unfold LoadXfer.complete
  cases hqueue : st.queue with
  | nil => exact h
  | cons g rest =>
    obtain ⟨l₀, hl₀, j₀, hj₀, rfl⟩ := h.queued g (hqueue ▸ mem_cons_self)
    dsimp only
    rw [op, TransferMode.execLoad_layerOp, h.server_eq]
    refine ⟨rfl, ?_, ?_, ?_, h.kv_eq⟩
    · intro g hg
      exact h.queued g (hqueue ▸ mem_cons_of_mem _ hg)
    · intro l hl j hj
      by_cases hsame : l = l₀ ∧ j = j₀
      · obtain ⟨rfl, rfl⟩ := hsame
        exact Or.inr (holdsAt_copy (hheld l hl j hj) _ _)
      · rcases h.landed l hl j hj with hop | hland
        · rw [hqueue] at hop
          rcases mem_cons.mp hop with heq | hop
          · -- equal operations copy the same piece
            have hplace := congrArg (fun g => x.mode.execLoad g.2 st.client server) heq
            simp only [op, TransferMode.execLoad_layerOp, Prod.mk.injEq, and_true] at hplace
            right
            rw [← hplace]
            exact holdsAt_copy (hheld l hl j hj) _ _
          · exact Or.inl hop
        · exact Or.inr (hland.copy_of_disjoint _ _ (pieces_apart _ _ hj hj₀ hsame))
    · intro hne hone
      have hnil := h.drained hne hone
      rw [hqueue] at hnil
      cases hnil

/-- A layer whose wait has ended is scattered from the content of the entries. -/
theorem Inv.scatterLayer (h : x.Inv content server kv st) (hfits : x.Fits) {layer : ℕ}
    (hlayer : layer < E.numLayers) (hnew : layer ∉ st.scattered)
    (hwait : st.scattered = [] ∨ x.layerwise = true → ∀ g ∈ st.queue, x.group layer < g.1) :
    x.Inv content server kv (x.scatterLayer st layer) := by
  -- nothing of this layer's group is on its way
  have hgone : ∀ g ∈ st.queue, x.group layer < g.1 := by
    by_cases hw : st.scattered = [] ∨ x.layerwise = true
    · exact hwait hw
    · rw [not_or, Bool.not_eq_true] at hw
      rw [h.drained hw.1 hw.2]
      exact fun g hg => absurd hg not_mem_nil
  have hland : ∀ j < x.entries.length, HoldsAt st.client
      (x.base + E.geom.stagingOffset x.entries.length layer j) E.geom.layerBytes
      (content layer j) := by
    intro j hj
    rcases h.landed layer hlayer j hj with hop | hland
    · exact absurd (hgone _ hop) (Nat.lt_irrefl _)
    · exact hland
  refine { h with drained := ?_, kv_eq := ?_ }
  · intro _ hone
    -- every operation is of the one group, and that group is gone
    refine eq_nil_iff_forall_not_mem.mpr fun g hg => ?_
    obtain ⟨l, -, j, -, rfl⟩ := h.queued g hg
    have hlt := hgone _ hg
    simp only [group, hone] at hlt
    exact absurd hlt (Nat.lt_irrefl _)
  · intro l
    by_cases hl : l = layer
    · subst hl
      have hold := h.kv_eq l
      rw [if_neg hnew] at hold
      simp only [LoadXfer.scatterLayer, Function.update_self, mem_cons, true_or, if_true, hold]
      apply KVAccessor.scatter_congr
      intro p hp i hi f hf
      funext b
      have hpos := E.acc.chunkPos_lt hp (hfits.pdx_lt i) hf b.isLt
      rw [← hland _ (hfits.jdx_lt hi) _ hpos, ChunkGeometry.stagingOffset, Nat.add_mul]
      congr 1
      omega
    · simp only [LoadXfer.scatterLayer, Function.update_of_ne hl, mem_cons, hl, false_or]
      exact h.kv_eq l

theorem Reach.inv {client : Mem β} (hfits : x.Fits)
    (hheld : ∀ l < E.numLayers, ∀ j < x.entries.length,
      HoldsAt server (x.entries.getD j 0 + l * E.geom.layerBytes) E.geom.layerBytes (content l j))
    (h : x.Reach client server kv st) : x.Inv content server kv st := by
  induction h with
  | start hbegin =>
    obtain ⟨st', hst', -, hserver, hkv, hscattered, hqueue⟩ :=
      @mem_queue_begin _ _ _ hfits client server kv
    rw [hbegin] at hst'
    cases hst'
    refine ⟨hserver, fun g hg => (hqueue g).mp hg, ?_, fun hne => absurd hscattered hne, ?_⟩
    · intro l hl j hj
      exact Or.inl ((hqueue _).mpr ⟨l, hl, j, hj, rfl⟩)
    · intro l
      rw [hkv, hscattered, if_neg not_mem_nil]
  | complete _ ih => exact ih.complete hheld
  | scatter _ hlayer hnew hwait ih => exact ih.scatterLayer hfits hlayer hnew hwait

/-- **A load writes what the entries hold**: a scattered layer has the loaded tokens from
the entries, and any other layer is as it was. -/
theorem Reach.injected_eq {client : Mem β} (hfits : x.Fits)
    (hheld : ∀ l < E.numLayers, ∀ j < x.entries.length,
      HoldsAt server (x.entries.getD j 0 + l * E.geom.layerBytes) E.geom.layerBytes (content l j))
    (h : x.Reach client server kv st) (l : ℕ) :
    st.kv l = if l ∈ st.scattered then x.injected content l (kv l) else kv l :=
  (h.inv hfits hheld).kv_eq l

end LoadXfer

end CacheFlow
