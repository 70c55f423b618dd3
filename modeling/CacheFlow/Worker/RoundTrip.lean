import CacheFlow.Worker.Transfer

/-!
# The round trip of KV through the pool

Saves run one after the other on the pool, each with a client memory of its own; a load then reads
entries of any of them.

## Main results

* `LoadXfer.round_trip` — **every loaded token has the elements that were saved, and nothing else
  changes.**
-/

namespace CacheFlow

open List SaveXfer

/-- A step that takes the first operation of a queue empties it. -/
theorem iterate_drain {S A : Type} {I : S → Prop} (step : S → S) (queue : S → List A)
    (hstep : ∀ s, I s → I (step s) ∧ queue (step s) = (queue s).tail) {s : S} (hs : I s) :
    I (step^[(queue s).length] s) ∧ queue (step^[(queue s).length] s) = [] := by
  induction hn : (queue s).length generalizing s with
  | zero => exact ⟨hs, length_eq_zero_iff.mp hn⟩
  | succ n ih =>
    obtain ⟨hnext, htail⟩ := hstep s hs
    exact ih hnext (by rw [htail, length_tail, hn, Nat.add_sub_cancel])

/-! ### Carrying a save out -/

namespace SaveXfer

variable {β : Type} {E : EngineShape} (x : SaveXfer β E)

/-- One layer of a save: gather it, and with `overlap_dma_with_copy` post it at once. -/
def saveLayer (overlap : Bool) (st : SaveState β) (layer : ℕ) : SaveState β :=
  let st := x.gatherLayer st layer
  if overlap then x.postLayers st layer (layer + 1) else st

/-- Everything that has been posted completes. -/
def drain (st : SaveState β) : SaveState β := x.complete^[st.queue.length] st

/-- A save, from its first layer until everything has completed. -/
def exec (overlap : Bool) (client server : Mem β) : SaveState β :=
  let st := (List.range E.numLayers).foldl (x.saveLayer overlap) ⟨client, server, [], [], []⟩
  x.drain (if overlap then st else x.postLayers st 0 E.numLayers)

variable {x} {client server : Mem β}

/-- Completing operations is part of a save, and empties the queue. -/
theorem reach_drain {st : SaveState β} (h : x.Reach client server st) :
    (x.Reach client server (x.drain st) ∧ (x.drain st).posted = st.posted) ∧
      (x.drain st).queue = [] := by
  refine iterate_drain (I := fun st' => x.Reach client server st' ∧ st'.posted = st.posted)
    x.complete SaveState.queue (fun st' h' => ⟨⟨h'.1.complete, h'.2 ▸ ?_⟩, ?_⟩) ⟨h, rfl⟩
  all_goals
    unfold complete
    split <;> simp [*]

theorem reach_saveLayer (hfits : x.Fits) (overlap : Bool) {n : ℕ} (hn : n ≤ E.numLayers) :
    let st := (List.range n).foldl (x.saveLayer overlap) ⟨client, server, [], [], []⟩
    x.Reach client server st ∧ (∀ l, l ∈ st.gathered ↔ l < n) ∧
      (overlap = true → ∀ l < n, l ∈ st.posted) := by
  induction n with
  | zero => exact ⟨.start, by simp, by simp⟩
  | succ n ih =>
    obtain ⟨hreach, hgathered, hposted⟩ := ih (Nat.le_of_succ_le hn)
    rw [range_succ, foldl_append, foldl_cons, foldl_nil]
    have hgather := hreach.gather hn fun hmem => Nat.lt_irrefl n ((hgathered n).mp hmem)
    have hmem : ∀ l, l ∈ n :: ((List.range n).foldl (x.saveLayer overlap)
        ⟨client, server, [], [], []⟩).gathered ↔ l < n + 1 := by
      intro l
      rw [mem_cons, hgathered]
      omega
    cases overlap with
    | false => exact ⟨hgather, hmem, fun h => absurd h Bool.false_ne_true⟩
    | true =>
      -- the layer just gathered is posted
      have hpost := hgather.post (Nat.le_succ n) hn fun l _ hl => (hmem l).mpr hl
      refine ⟨hpost, ?_, ?_⟩
      · intro l
        rw [saveLayer, if_pos rfl, postLayers_eq hfits (Nat.le_succ n) hn]
        exact hmem l
      · intro _ l hl
        rw [saveLayer, if_pos rfl, postLayers_eq hfits (Nat.le_succ n) hn]
        apply mem_append.mpr
        rcases Nat.lt_succ_iff_lt_or_eq.mp hl with hl | rfl
        · exact Or.inr (hposted rfl l hl)
        · exact Or.inl (mem_range'_1.mpr ⟨le_rfl, by omega⟩)

/-- **A save that fits can be carried out**, with or without overlap. -/
theorem reach_exec (hfits : x.Fits) (overlap : Bool) (client server : Mem β) :
    x.Reach client server (x.exec overlap client server) ∧
      (x.exec overlap client server).Done E := by
  obtain ⟨hreach, hgathered, hposted⟩ :=
    @reach_saveLayer _ _ _ client server hfits overlap _ (le_refl E.numLayers)
  cases overlap with
  | true =>
    obtain ⟨⟨h, hsame⟩, hqueue⟩ := reach_drain hreach
    refine ⟨h, fun l hl => ?_, hqueue⟩
    exact hsame.symm ▸ hposted rfl l hl
  | false =>
    have hpost := hreach.post (Nat.zero_le _) le_rfl fun l _ hl => (hgathered l).mpr hl
    obtain ⟨⟨h, hsame⟩, hqueue⟩ := reach_drain hpost
    refine ⟨h, fun l hl => ?_, hqueue⟩
    rw [exec, if_neg Bool.false_ne_true, hsame, postLayers_eq hfits (Nat.zero_le _) le_rfl]
    exact mem_append_left _ (mem_range'_1.mpr ⟨Nat.zero_le l, by omega⟩)

/-! ### Saves one after the other -/

/-- Saves that run one after the other, from a pool to a pool. -/
inductive Runs : Mem β → List (SaveXfer β E) → Mem β → Prop
  | nil (server : Mem β) : Runs server [] server
  /-- A save is carried out, and then the others. -/
  | cons {x : SaveXfer β E} {xs : List (SaveXfer β E)} {client server after : Mem β}
      {st : SaveState β} : x.Reach client server st → st.Done E → Runs st.server xs after →
      Runs server (x :: xs) after

variable (x) in
/-- The save has put a chunk into the entry at an address. -/
def Stored (chunk addr : ℕ) : Prop :=
  ∃ q < x.addrs.length, x.chunk0 + x.new.getD q 0 = chunk ∧ x.addrs.getD q 0 = addr

theorem content_chunkPos {i t : ℕ} (hchunk : x.chunk0 + i = t / E.chunkTokens)
    (hpos : 0 < E.chunkTokens) {p f : ℕ} (hf : f < E.acc.feat) (b : Fin E.acc.elem) (l : ℕ) :
    x.content l i (E.acc.chunkPos E.chunkTokens p (t % E.chunkTokens) f b) =
      x.src l (E.acc.index p (E.tokenSlot x.table t).1 (E.tokenSlot x.table t).2 f) b := by
  rw [content, KVAccessor.chunkBytes_pos (Nat.mod_lt t hpos) hf, slot, hchunk, Nat.div_add_mod']

/-- The entries of several saves are apart from each other. -/
def Apart (xs : List (SaveXfer β E)) : Prop :=
  (xs.flatMap addrs).Pairwise fun a b => a + E.geom.entryBytes ≤ b ∨ b + E.geom.entryBytes ≤ a

/-- **Saves keep what earlier saves have stored**: after all of them, every entry of each
holds its chunk, and the rest of the pool is as it was. -/
theorem Runs.stored {before after : Mem β} {xs : List (SaveXfer β E)} (h : Runs before xs after)
    (hfits : ∀ x ∈ xs, PlanFits E.geom x.base x.nChunks x.addrs x.new) (hapart : SaveXfer.Apart xs) :
    (∀ x ∈ xs, ∀ l < E.numLayers, ∀ q < x.addrs.length,
      HoldsAt after (x.addrs.getD q 0 + l * E.geom.layerBytes) E.geom.layerBytes
        (x.content l (x.new.getD q 0))) ∧
    ∀ a, (∀ e ∈ xs.flatMap addrs, a < e ∨ e + E.geom.entryBytes ≤ a) → after a = before a := by
  induction h with
  | nil server => exact ⟨by simp, fun _ _ => rfl⟩
  | @cons x xs client server after st hreach hdone _ ih =>
    obtain ⟨hown, hothers, hbetween⟩ := pairwise_append.mp hapart
    obtain ⟨hrest, hframe⟩ := ih (fun y hy => hfits y (mem_cons_of_mem _ hy)) hothers
    obtain ⟨hstored, hkept⟩ := hreach.stored ⟨hfits x mem_cons_self, hown⟩ hdone
    refine ⟨?_, ?_⟩
    · intro y hy l hl q hq
      rcases mem_cons.mp hy with rfl | hy
      · -- the later saves write outside of the entries of this one
        intro r hr
        rw [hframe, hstored l hl q hq r hr]
        intro e he
        have hend : l * E.geom.layerBytes + E.geom.layerBytes ≤ E.geom.entryBytes :=
          row_end_le _ hl
        have := hbetween _ (getD_eq_getElem y.addrs 0 hq ▸ getElem_mem hq) e he
        omega
      · exact hrest y hy l hl q hq
    · intro a ha
      rw [hframe a fun e he => ha e (mem_append_right _ he)]
      exact hkept a fun e he => ha e (mem_append_left _ he)

end SaveXfer

/-! ### Carrying a load out -/

namespace LoadXfer

variable {β : Type} {E : EngineShape} (x : LoadXfer E)

/-- A load, from its plan until every layer has been scattered. -/
def exec (client server : Mem β) (kv : ℕ → KVTensor β E.acc.elem) : Except PyErr (LoadState β E) := do
  let st ← x.begin client server kv
  return (List.range E.numLayers).foldl x.scatterLayer (x.complete^[st.queue.length] st)

variable {x} {client server : Mem β} {kv : ℕ → KVTensor β E.acc.elem}

/-- Completing operations is part of a load, and empties the queue. -/
theorem reach_drain {st : LoadState β E} (h : x.Reach client server kv st) :
    let st' := x.complete^[st.queue.length] st
    (x.Reach client server kv st' ∧ st'.scattered = st.scattered) ∧ st'.queue = [] := by
  refine iterate_drain (I := fun st' => x.Reach client server kv st' ∧ st'.scattered = st.scattered)
    x.complete LoadState.queue (fun st' h' => ⟨⟨h'.1.complete, h'.2 ▸ ?_⟩, ?_⟩) ⟨h, rfl⟩
  all_goals
    unfold complete
    split <;> simp [*]

/-- With nothing on its way, the layers can be scattered one after the other. -/
theorem reach_scatterLayer {st : LoadState β E} (h : x.Reach client server kv st)
    (hqueue : st.queue = []) (hnone : st.scattered = []) {n : ℕ} (hn : n ≤ E.numLayers) :
    x.Reach client server kv ((List.range n).foldl x.scatterLayer st) ∧
      ((List.range n).foldl x.scatterLayer st).queue = [] ∧
      ∀ l, l ∈ ((List.range n).foldl x.scatterLayer st).scattered ↔ l < n := by
  induction n with
  | zero => exact ⟨h, hqueue, by simp [hnone]⟩
  | succ n ih =>
    obtain ⟨hreach, hempty, hscattered⟩ := ih (Nat.le_of_succ_le hn)
    rw [range_succ, foldl_append, foldl_cons, foldl_nil]
    refine ⟨?_, hempty, ?_⟩
    · apply hreach.scatter hn
      · exact fun hmem => Nat.lt_irrefl n ((hscattered n).mp hmem)
      · intro _ g hg
        rw [hempty] at hg
        exact absurd hg not_mem_nil
    · intro l
      rw [scatterLayer, mem_cons, hscattered]
      omega

/-- **A load that fits can be carried out.** -/
theorem reach_exec (hfits : x.Fits) (client server : Mem β) (kv : ℕ → KVTensor β E.acc.elem) :
    ∃ st, x.exec client server kv = .ok st ∧ x.Reach client server kv st ∧
      ∀ l < E.numLayers, l ∈ st.scattered := by
  obtain ⟨st, hbegin, -, -, -, hnone, -⟩ := @mem_queue_begin _ _ _ hfits client server kv
  obtain ⟨⟨hdrained, hsame⟩, hqueue⟩ := reach_drain (Reach.start hbegin)
  obtain ⟨hreach, -, hscattered⟩ :=
    reach_scatterLayer hdrained hqueue (hsame.trans hnone) (le_refl E.numLayers)
  refine ⟨_, ?_, hreach, fun l hl => (hscattered l).mpr hl⟩
  rw [exec, hbegin]
  rfl

/-! ### The round trip -/

variable (x) in
/-- The block table has a block for every loaded token, and no block twice. -/
structure TableFits : Prop where
  blockSize : 0 < E.blockSize
  covers : x.tokStop ≤ x.table.length * E.blockSize
  /-- Different used entries of the table are different blocks. -/
  injective : ∀ t u, x.tokStart ≤ t → t < x.tokStop → x.tokStart ≤ u → u < x.tokStop →
    x.table.getD (t / E.blockSize) 0 = x.table.getD (u / E.blockSize) 0 →
    t / E.blockSize = u / E.blockSize

theorem TableFits.slot_injective (h : x.TableFits) {i k : ℕ} (hi : i < x.tokens) (hk : k < x.tokens)
    (heq : x.slot k = x.slot i) : k = i := by
  rw [tokens] at hi hk
  simp only [slot, EngineShape.tokenSlot, Prod.mk.injEq] at heq
  have hblock := h.injective (x.tokStart + k) (x.tokStart + i) (Nat.le_add_right _ _) (by omega)
    (Nat.le_add_right _ _) (by omega) heq.1
  have htok : x.tokStart + k = x.tokStart + i := by
    rw [← Nat.div_add_mod (x.tokStart + k) E.blockSize, hblock, heq.2, Nat.div_add_mod]
  omega

/-- **The round trip through the pool is exact.** If each entry of a load was stored by an earlier
save, `origin j`, as the chunk the load takes it for, the load can be carried out; and however its
transfers and scatters interleave, in the end every loaded token has in every layer the elements it
was saved with, and the rest of the KV cache is as it was. -/
theorem round_trip {xs : List (SaveXfer β E)} {before after : Mem β}
    (hruns : Runs before xs after)
    (hsaves : ∀ s ∈ xs, PlanFits E.geom s.base s.nChunks s.addrs s.new)
    (hapart : SaveXfer.Apart xs) (hfits : x.Fits) (htable : x.TableFits)
    (origin : ℕ → SaveXfer β E)
    (horigin : ∀ j < x.entries.length, origin j ∈ xs ∧
      (origin j).Stored (x.chunk0 + j) (x.entries.getD j 0))
    (client : Mem β) (kv : ℕ → KVTensor β E.acc.elem) :
    (∃ st, x.Reach client after kv st ∧ ∀ l < E.numLayers, l ∈ st.scattered) ∧
    ∀ st, x.Reach client after kv st → (∀ l < E.numLayers, l ∈ st.scattered) →
      ∀ l < E.numLayers,
        (∀ t, x.tokStart ≤ t → t < x.tokStop → ∀ p < E.acc.planes, ∀ f < E.acc.feat,
          st.kv l (E.acc.index p (E.tokenSlot x.table t).1 (E.tokenSlot x.table t).2 f) =
            let s := origin (t / E.chunkTokens - x.chunk0)
            s.src l (E.acc.index p (E.tokenSlot s.table t).1 (E.tokenSlot s.table t).2 f)) ∧
        ∀ idx, (∀ t, x.tokStart ≤ t → t < x.tokStop → ∀ p < E.acc.planes, ∀ f < E.acc.feat,
          idx ≠ E.acc.index p (E.tokenSlot x.table t).1 (E.tokenSlot x.table t).2 f) →
          st.kv l idx = kv l idx := by
  obtain ⟨hstored, -⟩ := hruns.stored hsaves hapart
  -- what the entries hold, through the save each of them came from
  choose place hplace using fun j (hj : j < x.entries.length) => (horigin j hj).2
  let content (l j : ℕ) : ℕ → β :=
    if hj : j < x.entries.length then (origin j).content l ((origin j).new.getD (place j hj) 0)
    else fun _ => after 0
  have hcontent : ∀ l {j} (hj : j < x.entries.length),
      content l j = (origin j).content l ((origin j).new.getD (place j hj) 0) := by
    intro l j hj
    exact dif_pos hj
  have hheld : ∀ l < E.numLayers, ∀ j < x.entries.length,
      HoldsAt after (x.entries.getD j 0 + l * E.geom.layerBytes) E.geom.layerBytes
        (content l j) := by
    intro l hl j hj
    obtain ⟨hq, -, haddr⟩ := hplace j hj
    rw [hcontent l hj, ← haddr]
    exact hstored _ (horigin j hj).1 l hl _ hq
  refine ⟨?_, ?_⟩
  · obtain ⟨st, -, h⟩ := reach_exec hfits client after kv
    exact ⟨st, h⟩
  intro st hreach hdone l hl
  rw [hreach.injected_eq hfits hheld l, if_pos (hdone l hl)]
  refine ⟨?_, ?_⟩
  · intro t hstart hstop p hp f hf
    obtain ⟨i, rfl⟩ := Nat.exists_eq_add_of_le hstart
    have hi : i < x.tokens := by
      rw [tokens]
      omega
    have hj := hfits.jdx_lt hi
    obtain ⟨-, hchunk, -⟩ := hplace (x.jdx i) hj
    rw [hfits.chunk0_add_jdx] at hchunk
    refine (KVAccessor.scatter_index hi (fun k hk => htable.slot_injective hi hk) hp hf).trans ?_
    funext b
    rw [hcontent l hj]
    exact content_chunkPos hchunk hfits.chunkTokens_pos hf b l
  · intro idx hidx
    apply KVAccessor.scatter_of_ne
    intro i hi p hp f hf
    rw [tokens] at hi
    exact hidx (x.tokStart + i) (Nat.le_add_right _ _) (by omega) p hp f hf

/-- Two layers, chunks of three tokens in blocks of two. -/
def sampleShape : EngineShape where
  acc := ⟨.kvFirst, 2, [1, 1], 1, Nat.one_pos, KVKind.kvFirst_planes⟩
  chunkTokens := 3
  blockSize := 2
  numLayers := 2

/-- A save of two chunks, driven by the client. -/
def sampleSave : SaveXfer ℕ sampleShape where
  chunk0 := 0
  nChunks := 2
  table := [4, 5, 6]
  src := fun l idx _ => 100000 * l + idx.foldl (fun n i => 10 * n + i) 0
  new := [0, 1]
  addrs := [100, 200]
  entryKey := 1
  base := 1000
  stagingKey := 2
  mode := .pull

/-- A load of four of their tokens into other blocks, driven by the server. -/
def sampleLoad : LoadXfer sampleShape where
  entries := [100, 200]
  entryKey := 1
  chunk0 := 0
  tokStart := 1
  tokStop := 5
  table := [7, 8, 9]
  base := 3000
  stagingKey := 3
  layerwise := true
  mode := .push

theorem round_trip_of_two_chunks : ∃ after st,
    Runs (fun _ => 0) [sampleSave] after ∧
    sampleLoad.Reach (fun _ => 0) after (fun _ _ _ => 0) st ∧
    (∀ b, st.kv 1 [1, 9, 0, 0, 0] b = sampleSave.src 1 [1, 6, 0, 0, 0] b) ∧
    ∀ b, st.kv 1 [1, 9, 1, 0, 0] b = 0 := by
  have hplan : PlanFits sampleShape.geom sampleSave.base sampleSave.nChunks sampleSave.addrs
      sampleSave.new := by
    constructor <;> decide
  have hsave : sampleSave.Fits := ⟨hplan, by decide⟩
  obtain ⟨hreach, hdone⟩ := SaveXfer.reach_exec hsave true (fun _ => 0) fun _ => 0
  have hruns := Runs.cons hreach hdone (.nil _)
  have hload : sampleLoad.Fits := ⟨by constructor <;> decide, by decide, by decide⟩
  have htable : sampleLoad.TableFits := by
    refine ⟨by decide, by decide, ?_⟩
    intro t u ht ht' hu hu' h
    change t < 5 at ht'
    change u < 5 at hu'
    interval_cases t <;> interval_cases u <;> first | rfl | exact absurd h (by decide)
  obtain ⟨⟨st, hst, hall⟩, hrt⟩ := round_trip hruns (by simpa using hplan)
    (by unfold SaveXfer.Apart; decide) hload htable (fun _ => sampleSave)
    (fun j hj => ⟨mem_cons_self, j, hj, by
      change j < 2 at hj
      interval_cases j <;> decide⟩) (fun _ => 0) fun _ _ _ => 0
  obtain ⟨hwritten, hother⟩ := hrt st hst hall 1 (by decide)
  refine ⟨_, st, hruns, hst, ?_, ?_⟩
  · exact congrFun (hwritten 4 (by decide) (by decide) 1 (by decide) 0 (by decide))
  · apply congrFun
    apply hother
    intro t ht ht' p hp f hf
    change t < 5 at ht'
    change p < 2 at hp
    change f < 1 at hf
    interval_cases t <;> interval_cases p <;> interval_cases f <;> decide

end LoadXfer

end CacheFlow
