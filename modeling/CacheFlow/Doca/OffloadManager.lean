import CacheFlow.Lib.KeyIndex
import CacheFlow.Lib.Steps

/-!
# The offload manager

`KVOffloadManager` keeps a record of every block that it has offloaded to the DPU, and finds blocks
by the hash they were offloaded under. Hashes are entered when a transfer is started, and taken out
when a record is removed. A record may be reused for other data without having been removed, and two
records may be offloaded under one hash; nothing takes out the entry that is then wrong.

Copies and transfers are made by libraries that may raise. Each offload has an outcome that says how
far it came, and a record remembers under which hash its data was offloaded.

## Main definitions

* `OffloadManager.Sound` — the index is right.
* `OffloadManager.Admits` — a call that keeps it right.

## Main results

* `OffloadManager.always_sound_iff` — whole histories.
-/

namespace CacheFlow.Doca

open Dict Option Steps

/-! ### Records -/

/-- `BlockState`. -/
inductive BlockState where
  | onGpu
  | transferringToDpu
  | onDpu
  | transferringToGpu
  | invalid
  deriving DecidableEq, Repr

/-- A hash key that counts: the code tests `if hash_key`, which the empty string fails. -/
abbrev HashKey := { s : String // s ≠ "" }

/-- What the test `if hash_key` leaves of an argument. -/
def truthy : Option String → Option HashKey
  | none => none
  | some s => if h : s = "" then none else some ⟨s, h⟩

/-- `BlockInfo`. -/
structure BlockInfo where
  size : ℕ
  state : BlockState
  /-- Whether there is a `pinned_buffer`. -/
  pinned : Bool
  refcount : ℕ
  hashKey : Option HashKey
  /-- Whether there is a `pending_transfer_id`. -/
  pending : Bool
  /-- The hash given with the data that the block holds, once it holds some. -/
  contents : Option (Option HashKey)
  deriving DecidableEq

/-- The record of a block that is not known yet. -/
def BlockInfo.fresh (size : ℕ) : BlockInfo := ⟨size, .onGpu, false, 0, none, false, none⟩

/-- The arguments of the constructor that the methods read. -/
structure OffloadConfig where
  blockSize : ℕ
  maxBlocks : ℕ
  useDocaBufferPool : Bool
  overlapDma : Bool
  deriving DecidableEq, Repr

/-- `KVOffloadManager`. -/
structure OffloadManager where
  blocks : Dict ℕ BlockInfo
  hashToBlock : Dict HashKey ℕ
  lruOrder : List ℕ
  deriving DecidableEq

/-- How far an offload comes. -/
inductive Outcome where
  /-- No staging buffer can be had. -/
  | noBuffer
  /-- The data is replaced, and then something raises. -/
  | failed
  /-- The call returns. -/
  | done
  deriving DecidableEq, Repr

namespace OffloadManager

/-- The manager at the start. -/
def init : OffloadManager := ⟨∅, ∅, []⟩

/-! ### The methods -/

/-- `_update_lru`. -/
def updateLru (s : OffloadManager) (b : ℕ) : OffloadManager :=
  { s with lruOrder := s.lruOrder.erase b ++ [b] }

/-- `_remove_block`; deleting a key that is not there does nothing. -/
def removeBlock (s : OffloadManager) (b : ℕ) : OffloadManager :=
  match s.blocks.get? b with
  | none => s
  | some info =>
    { blocks := s.blocks.erase b
      hashToBlock := match info.hashKey with
        | none => s.hashToBlock
        | some k => s.hashToBlock.erase k
      lruOrder := s.lruOrder.erase b }

/-- The block that `_evict_lru_block` removes. -/
def evictable (s : OffloadManager) : Option ℕ :=
  s.lruOrder.find? fun b => (s.blocks.get? b).any fun info => info.refcount = 0

/-- `_evict_lru_block`; `none` if it raises. -/
def evictLruBlock (s : OffloadManager) : Option OffloadManager :=
  s.evictable.map s.removeBlock

/-- The record of a block is changed. -/
def put (s : OffloadManager) (b : ℕ) (info : BlockInfo) : OffloadManager :=
  { s with blocks := s.blocks.set b info }

/-- `_get_or_create_block`; `none` if there is no room and it raises. -/
def getOrCreateBlock (cfg : OffloadConfig) (s : OffloadManager) (b size : ℕ) :
    Option (OffloadManager × BlockInfo) :=
  match s.blocks.get? b with
  | some info => some (s.updateLru b, info)
  | none =>
    let room := if cfg.maxBlocks ≤ s.blocks.keys.length then s.evictLruBlock else some s
    room.map fun s => ((s.put b (.fresh size)).updateLru b, .fresh size)

/-- The record is changed and, if there is a hash, the block is entered under it. -/
def enter (s : OffloadManager) (b : ℕ) (info : BlockInfo) : Option HashKey → OffloadManager
  | none => s.put b info
  | some k =>
    { s.put b { info with hashKey := some k } with hashToBlock := s.hashToBlock.set k b }

/-- `offload_block`, and `offload_tensor` of a contiguous tensor on the device. -/
def offloadBlock (cfg : OffloadConfig) (s : OffloadManager) (b size : ℕ) (hash : Option String)
    (sync : Bool) (outcome : Outcome) : OffloadManager :=
  if cfg.blockSize < size then s
  else
    match s.getOrCreateBlock cfg b size with
    | none => s
    | some (s, info) =>
      if info.state = .onDpu then s
      else
        let info := { info with state := .transferringToDpu }
        -- with the pool of registered buffers there is no `_buffer_pool` to acquire from
        if cfg.useDocaBufferPool then s.put b info
        else
          match outcome with
          | .noBuffer => s.put b info
          | .failed => s.put b { info with pinned := true, contents := some (truthy hash) }
          | .done =>
            let info := { info with pinned := true, contents := some (truthy hash) }
            let info :=
              if sync then { info with state := .onDpu } else { info with pending := true }
            s.enter b info (truthy hash)

/-- `offload_tensor_async`, with `_start_dma_for_handle`. -/
def offloadTensorAsync (cfg : OffloadConfig) (s : OffloadManager) (b size : ℕ)
    (hash : Option String) (outcome : Outcome) : OffloadManager :=
  if cfg.blockSize < size then s
  else
    match s.getOrCreateBlock cfg b size with
    | none => s
    | some (s, info) =>
      match outcome with
      | .noBuffer => s.put b { info with pinned := false }
      | .failed =>
        s.put b { info with
          pinned := true, state := .transferringToDpu, contents := some (truthy hash) }
      | .done =>
        let info := { info with
          pinned := true, state := .transferringToDpu, contents := some (truthy hash) }
        if cfg.overlapDma then s.enter b info (truthy hash) else s.put b info

/-- `complete_offload_async`, for a handle in the stage `copying` or later, and whether the wait
returns. -/
def completeOffloadAsync (s : OffloadManager) (b : ℕ) (copying returns : Bool) : OffloadManager :=
  match s.blocks.get? b with
  | none => s
  | some info =>
    let s := if copying then s.enter b info info.hashKey else s
    if returns then s.put b { info with state := .onDpu } else s

/-- `wait_for_pending_transfers`, for the blocks whose wait returns. -/
def waitForPendingTransfers (s : OffloadManager) : List ℕ → OffloadManager
  | [] => s
  | b :: rest =>
    match s.blocks.get? b with
    | none => s.waitForPendingTransfers rest
    | some info =>
      if info.pending then
        (s.put b { info with pending := false, state := .onDpu }).waitForPendingTransfers rest
      else s.waitForPendingTransfers rest

/-- `has_block`. -/
def hasBlock (s : OffloadManager) (b : ℕ) : Bool :=
  (s.blocks.get? b).any fun info => info.state = .onDpu && info.pinned

/-- `fetch_block` and `fetch_tensor_async`: the state afterwards is given by how far it comes. -/
def fetchBlock (s : OffloadManager) (b : ℕ) (returns : Bool) : OffloadManager :=
  match s.blocks.get? b with
  | none => s
  | some info =>
    if s.hasBlock b then
      s.put b { info with state := if returns then .onGpu else .transferringToGpu }
    else s

/-- `complete_fetch_async`. -/
def completeFetchAsync (s : OffloadManager) (b : ℕ) : OffloadManager :=
  match s.blocks.get? b with
  | none => s
  | some info => s.put b { info with state := .onGpu }

/-- `increment_refcount` and `decrement_refcount`. -/
def changeRefcount (s : OffloadManager) (b : ℕ) (change : ℕ → ℕ) : OffloadManager :=
  match s.blocks.get? b with
  | none => s
  | some info => s.put b { info with refcount := change info.refcount }

/-- `find_by_hash`. -/
def findByHash (s : OffloadManager) (k : HashKey) : Option ℕ := s.hashToBlock.get? k

/-- A call of the manager. -/
inductive Op where
  /-- `offload_block`. -/
  | offload (b size : ℕ) (hash : Option String) (sync : Bool) (outcome : Outcome)
  /-- `offload_tensor_async`. -/
  | offloadAsync (b size : ℕ) (hash : Option String) (outcome : Outcome)
  /-- `complete_offload_async`. -/
  | completeOffload (b : ℕ) (copying returns : Bool)
  /-- `wait_for_pending_transfers`. -/
  | wait (targets : List ℕ)
  /-- `fetch_block` or `fetch_tensor_async`. -/
  | fetch (b : ℕ) (returns : Bool)
  /-- `complete_fetch_async`. -/
  | completeFetch (b : ℕ)
  | incrementRefcount (b : ℕ)
  | decrementRefcount (b : ℕ)
  /-- `_remove_block`. -/
  | remove (b : ℕ)
  /-- `_evict_lru_block`. -/
  | evict
  deriving DecidableEq, Repr

/-- One call; one that raises leaves what it has done. -/
def step (cfg : OffloadConfig) (s : OffloadManager) : Op → Option OffloadManager
  | .offload b size hash sync outcome => some (s.offloadBlock cfg b size hash sync outcome)
  | .offloadAsync b size hash outcome => some (s.offloadTensorAsync cfg b size hash outcome)
  | .completeOffload b copying returns => some (s.completeOffloadAsync b copying returns)
  | .wait targets => some (s.waitForPendingTransfers targets)
  | .fetch b returns => some (s.fetchBlock b returns)
  | .completeFetch b => some (s.completeFetchAsync b)
  | .incrementRefcount b => some (s.changeRefcount b (· + 1))
  | .decrementRefcount b => some (s.changeRefcount b (· - 1))
  | .remove b => some (s.removeBlock b)
  | .evict => some (s.evictLruBlock.getD s)

/-! ### What the index is for -/

/-- The index leads to the blocks that carry the hash, and hold the data that was offloaded under
it. -/
structure Sound (s : OffloadManager) : Prop where
  index : Indexed BlockInfo.hashKey s.blocks s.hashToBlock
  /-- What is found holds the data of the hash. -/
  contents : ∀ k b info, s.findByHash k = some b → s.blocks.get? b = some info →
    info.contents = some (some k)

/-- The hash that a block carries. -/
def key? (s : OffloadManager) (b : ℕ) : Option HashKey := (s.blocks.get? b).bind BlockInfo.hashKey

/-- The block that has to go before another one comes. -/
def victim? (cfg : OffloadConfig) (s : OffloadManager) (b : ℕ) : Option ℕ :=
  if s.blocks.contains b = false ∧ cfg.maxBlocks ≤ s.blocks.keys.length then s.evictable else none

/-- There is a record for a block, or room for one. -/
def HasRoom (cfg : OffloadConfig) (s : OffloadManager) (b : ℕ) : Prop :=
  s.blocks.contains b = false → cfg.maxBlocks ≤ s.blocks.keys.length → s.evictable ≠ none

/-- Data may be put into a block under a hash: the block carries no hash or this one, and if it is
entered under it, no block that stays carries it. -/
def MayReplace (cfg : OffloadConfig) (s : OffloadManager) (b : ℕ) (hash : Option HashKey)
    (entered : Prop) : Prop :=
  (s.key? b = none ∨ s.key? b = hash) ∧
    (entered → ∀ k, hash = some k → ∀ j, j ≠ b → s.victim? cfg b ≠ some j → s.key? j ≠ some k)

/-- A call that replaces the data of a block may do so. -/
def Admits (cfg : OffloadConfig) (s : OffloadManager) : Op → Prop
  | .offload b size hash _ outcome =>
    size ≤ cfg.blockSize → s.HasRoom cfg b →
      (∀ info, s.blocks.get? b = some info → info.state ≠ .onDpu) →
      cfg.useDocaBufferPool = false → outcome ≠ .noBuffer →
      s.MayReplace cfg b (truthy hash) (outcome = .done)
  | .offloadAsync b size hash outcome =>
    size ≤ cfg.blockSize → s.HasRoom cfg b → outcome ≠ .noBuffer →
      s.MayReplace cfg b (truthy hash) (outcome = .done ∧ cfg.overlapDma = true)
  | _ => True

/-! ### Records that keep their key and data -/

variable {cfg : OffloadConfig} {s s' : OffloadManager} {b size : ℕ} {info info' : BlockInfo}

theorem Sound.updateLru (h : s.Sound) : (s.updateLru b).Sound := ⟨h.index, h.contents⟩

theorem key?_eq (hb : s.blocks.get? b = some info) : s.key? b = info.hashKey := by
  rw [key?, hb]
  rfl

/-- A record is changed, but not its key and its data. -/
theorem Sound.put (h : s.Sound) (hb : s.blocks.get? b = some info)
    (hkey : info'.hashKey = info.hashKey) (hcontents : info'.contents = info.contents) :
    (s.put b info').Sound where
  index := h.index.set hb hkey
  contents k j jnfo hj hjnfo := by
    rw [OffloadManager.put, get?_set] at hjnfo
    split at hjnfo
    · rename_i heq
      subst heq
      obtain rfl : info' = jnfo := some_inj.mp hjnfo
      rw [hcontents]
      exact h.contents k j info hj hb
    · exact h.contents k j jnfo hj hjnfo

theorem Sound.removeBlock (h : s.Sound) (b : ℕ) : (s.removeBlock b).Sound := by
  unfold OffloadManager.removeBlock
  split
  · exact h
  · rename_i info hb
    have hstays : ∀ {j : ℕ} {jnfo : BlockInfo}, (s.blocks.erase b).get? j = some jnfo →
        s.blocks.get? j = some jnfo := by
      intro j jnfo hj
      rw [get?_erase] at hj
      split at hj
      · cases hj
      · exact hj
    cases hkey : info.hashKey with
    | none =>
      exact ⟨h.index.erase_of_key_none hb hkey,
        fun k j jnfo hj hjnfo => h.contents k j jnfo hj (hstays hjnfo)⟩
    | some k' =>
      refine ⟨h.index.erase hb hkey, fun k j jnfo hj hjnfo => ?_⟩
      rw [findByHash, get?_erase] at hj
      split at hj
      · cases hj
      · exact h.contents k j jnfo hj (hstays hjnfo)

theorem Sound.create (h : s.Sound) (hfree : s.blocks.get? b = none) :
    (s.put b (.fresh size)).Sound where
  index := h.index.insert hfree rfl
  contents k j jnfo hj hjnfo := by
    rw [OffloadManager.put, get?_set] at hjnfo
    split at hjnfo
    · -- the index does not lead to a block that was not there
      rename_i heq
      subst heq
      obtain ⟨w, hw, -⟩ := h.index.points k j hj
      cases hfree.symm.trans hw
    · exact h.contents k j jnfo hj hjnfo

/-! ### Data is replaced -/

/-- The data of a block is replaced, and it is not entered under another hash. -/
theorem Sound.put_iff (h : s.Sound) (hb : s.blocks.get? b = some info) {hash : Option HashKey}
    (hkey : info'.hashKey = info.hashKey) (hcontents : info'.contents = some hash) :
    (s.put b info').Sound ↔ info.hashKey = none ∨ info.hashKey = hash := by
  have hget : (s.put b info').blocks.get? b = some info' := get?_set_self _ _ _
  constructor
  · intro h'
    cases hold : info.hashKey with
    | none => exact Or.inl rfl
    | some k =>
      have hdata := h'.contents k b info' (h.index.found b info k hb hold) hget
      rw [hcontents] at hdata
      exact Or.inr (some_inj.mp hdata).symm
  · intro hold
    refine ⟨h.index.set hb hkey, fun k j jnfo hj hjnfo => ?_⟩
    rw [OffloadManager.put, get?_set] at hjnfo
    split at hjnfo
    · rename_i heq
      subst heq
      obtain rfl : info' = jnfo := some_inj.mp hjnfo
      obtain ⟨w, hw, hkw⟩ := h.index.points k j hj
      obtain rfl : info = w := some_inj.mp (hb.symm.trans hw)
      rw [hkw] at hold
      rw [hcontents, ← hold.resolve_left (some_ne_none k)]
    · exact h.contents k j jnfo hj hjnfo

/-- **The data of a block is replaced and entered under a hash.** -/
theorem Sound.enter_iff (h : s.Sound) (hb : s.blocks.get? b = some info) {hash : Option HashKey}
    (hkey : info'.hashKey = info.hashKey) (hcontents : info'.contents = some hash) :
    (s.enter b info' hash).Sound ↔ (info.hashKey = none ∨ info.hashKey = hash) ∧
      ∀ k, hash = some k → ∀ j jnfo, j ≠ b → s.blocks.get? j = some jnfo → jnfo.hashKey ≠ some k := by
  cases hash with
  | none =>
    rw [enter, h.put_iff hb hkey hcontents]
    exact (and_iff_left fun k hk => absurd hk nofun).symm
  | some k =>
    have hindex := h.index.rekey_iff hb
      (show BlockInfo.hashKey { info' with hashKey := some k } = some k from rfl)
    constructor
    · intro h'
      obtain ⟨hold, hothers⟩ := hindex.mp h'.index
      refine ⟨hold, fun k' hk' => ?_⟩
      obtain rfl : k = k' := some_inj.mp hk'
      exact hothers
    · rintro ⟨hold, hothers⟩
      refine ⟨hindex.mpr ⟨hold, hothers k rfl⟩, fun k' j jnfo hj hjnfo => ?_⟩
      rw [findByHash, enter, get?_set] at hj
      rw [enter, OffloadManager.put, get?_set] at hjnfo
      split at hj
      · rename_i hk
        obtain rfl : b = j := some_inj.mp hj
        rw [if_pos rfl] at hjnfo
        rw [← some_inj.mp hjnfo, hk]
        exact hcontents
      · -- another hash does not point to `b`, which had no other one
        rename_i hk
        obtain ⟨w, hw, hkw⟩ := h.index.points k' j hj
        have hne : j ≠ b := by
          rintro rfl
          obtain rfl : info = w := some_inj.mp (hb.symm.trans hw)
          rcases hold with hnone | hsame
          · cases hnone.symm.trans hkw
          · exact hk (some_inj.mp (hkw.symm.trans hsame))
        rw [if_neg hne] at hjnfo
        exact h.contents k' j jnfo hj hjnfo

/-! ### The record of a call -/

theorem evictable_mem {v : ℕ} (h : s.evictable = some v) : ∃ info, s.blocks.get? v = some info := by
  have hany := List.find?_some h
  cases hv : s.blocks.get? v with
  | none => simp [hv] at hany
  | some info => exact ⟨info, rfl⟩

theorem removeBlock_get? {v j : ℕ} (hv : ∃ info, s.blocks.get? v = some info) :
    (s.removeBlock v).blocks.get? j = if j = v then none else s.blocks.get? j := by
  obtain ⟨info, hv⟩ := hv
  simp only [removeBlock, hv]
  exact get?_erase _ _ _

theorem getOrCreateBlock_eq_none_iff :
    s.getOrCreateBlock cfg b size = none ↔ ¬ s.HasRoom cfg b := by
  cases hb : s.blocks.get? b with
  | some info => simp [getOrCreateBlock, hb, HasRoom, contains]
  | none =>
    by_cases hfull : cfg.maxBlocks ≤ s.blocks.keys.length
    · simp [getOrCreateBlock, hb, HasRoom, contains, hfull, evictLruBlock]
    · simp [getOrCreateBlock, hb, HasRoom, contains, hfull]

/-- What a call finds when it has got its record: the manager is sound, the record has the key it
had, and the other blocks are those that stay. -/
structure Prepared (cfg : OffloadConfig) (s : OffloadManager) (b : ℕ) (s' : OffloadManager)
    (info : BlockInfo) : Prop where
  sound : s'.Sound
  get : s'.blocks.get? b = some info
  key : info.hashKey = s.key? b
  /-- A new block is not on the DPU. -/
  state : info.state = .onDpu ↔ ∃ old, s.blocks.get? b = some old ∧ old.state = .onDpu
  /-- Of the others only the victim goes. -/
  others : ∀ j, j ≠ b → s'.key? j = if s.victim? cfg b = some j then none else s.key? j

theorem Sound.getOrCreateBlock (h : s.Sound)
    (hget : s.getOrCreateBlock cfg b size = some (s', info)) : Prepared cfg s b s' info := by
  cases hb : s.blocks.get? b with
  | some old =>
    simp only [OffloadManager.getOrCreateBlock, hb] at hget
    obtain ⟨rfl, rfl⟩ : s.updateLru b = s' ∧ old = info := by simpa using hget
    refine ⟨h.updateLru, hb, (key?_eq hb).symm, by simp [hb], fun j _ => ?_⟩
    simp [victim?, contains, hb, key?, OffloadManager.updateLru]
  | none =>
    simp only [OffloadManager.getOrCreateBlock, hb] at hget
    obtain ⟨s₁, hroom, hpair⟩ := map_eq_some_iff.mp hget
    obtain ⟨rfl, rfl⟩ : (s₁.put b (.fresh size)).updateLru b = s' ∧ BlockInfo.fresh size = info := by
      simpa using hpair
    have hkey : s.key? b = none := by simp [key?, hb]
    -- the manager after the eviction, if there was one
    have hmade : s₁.Sound ∧ s₁.blocks.get? b = none ∧
        ∀ j, s₁.key? j = if s.victim? cfg b = some j then none else s.key? j := by
      by_cases hfull : cfg.maxBlocks ≤ s.blocks.keys.length
      · rw [if_pos hfull, evictLruBlock] at hroom
        obtain ⟨v, hv, rfl⟩ := map_eq_some_iff.mp hroom
        have hvictim : s.victim? cfg b = some v := by simp [victim?, contains, hb, hfull, hv]
        refine ⟨h.removeBlock v, ?_, fun j => ?_⟩
        · rw [removeBlock_get? (evictable_mem hv), hb, ite_self]
        · rw [key?, removeBlock_get? (evictable_mem hv), hvictim]
          by_cases hj : j = v
          · simp [hj]
          · simp [hj, Ne.symm hj, key?]
      · rw [if_neg hfull] at hroom
        obtain rfl : s = s₁ := some_inj.mp hroom
        exact ⟨h, hb, fun j => by simp [victim?, hfull]⟩
    obtain ⟨hsound, hfree, hothers⟩ := hmade
    refine ⟨(hsound.create hfree).updateLru, get?_set_self _ _ _, hkey.symm, ?_, fun j hj => ?_⟩
    · simp [BlockInfo.fresh, hb]
    · rw [← hothers j]
      show ((s₁.blocks.set b _).get? j).bind _ = _
      rw [get?_set_of_ne _ hj]
      rfl

/-- Whether data may be replaced, seen from the record of the call. -/
theorem Prepared.mayReplace_iff (h : Prepared cfg s b s' info) {hash : Option HashKey}
    {entered : Prop} : s.MayReplace cfg b hash entered ↔
      (info.hashKey = none ∨ info.hashKey = hash) ∧
        (entered → ∀ k, hash = some k → ∀ j jnfo, j ≠ b → s'.blocks.get? j = some jnfo →
          jnfo.hashKey ≠ some k) := by
  rw [h.key]
  refine and_congr_right fun _ => forall_congr' fun _ => forall₂_congr fun k _ => ?_
  constructor
  · intro hall j jnfo hj hjnfo hk
    have hkey := h.others j hj
    rw [key?_eq hjnfo, hk] at hkey
    split at hkey
    · cases hkey
    · rename_i hvictim
      exact hall j hj hvictim hkey.symm
  · intro hall j hj hvictim hk
    have hkey := h.others j hj
    rw [if_neg hvictim, hk] at hkey
    obtain ⟨jnfo, hjnfo, hjkey⟩ := bind_eq_some_iff.mp hkey
    exact hall j jnfo hj hjnfo hjkey

/-! ### One call -/

theorem Sound.offloadBlock_iff (h : s.Sound) (hash : Option String) (sync : Bool)
    (outcome : Outcome) :
    (s.offloadBlock cfg b size hash sync outcome).Sound ↔
      s.Admits cfg (.offload b size hash sync outcome) := by
  unfold OffloadManager.offloadBlock Admits
  split
  · exact ⟨fun _ hsize => absurd hsize (by omega), fun _ => h⟩
  · rename_i hsize
    split
    · rename_i hnone
      have hroom := getOrCreateBlock_eq_none_iff.mp hnone
      exact ⟨fun _ _ hroom' => absurd hroom' hroom, fun _ => h⟩
    · rename_i s₁ info hget
      have hp := h.getOrCreateBlock hget
      have hroom : s.HasRoom cfg b := by
        by_contra hroom
        rw [getOrCreateBlock_eq_none_iff.mpr hroom] at hget
        cases hget
      split
      · -- the block is on the DPU already: nothing happens
        rename_i hstate
        obtain ⟨old, hold, honDpu⟩ := hp.state.mp hstate
        exact ⟨fun _ _ _ hnot => absurd honDpu (hnot old hold), fun _ => hp.sound⟩
      · rename_i hstate
        have hnot : ∀ old, s.blocks.get? b = some old → old.state ≠ .onDpu :=
          fun old hold honDpu => hstate (hp.state.mpr ⟨old, hold, honDpu⟩)
        split
        · rename_i hpool
          exact ⟨fun _ _ _ _ hno => absurd hpool (by simp [hno]),
            fun _ => hp.sound.put hp.get rfl rfl⟩
        · rename_i hpool
          have hpool' : cfg.useDocaBufferPool = false := by simpa using hpool
          dsimp only
          rw [hp.mayReplace_iff]
          cases outcome with
          | noBuffer => exact ⟨fun _ _ _ _ _ hne => absurd rfl hne, fun _ => hp.sound.put hp.get rfl rfl⟩
          | failed =>
            refine Iff.trans (hp.sound.put_iff hp.get rfl rfl) ?_
            exact ⟨fun hold _ _ _ _ _ => ⟨hold, fun hdone => by cases hdone⟩,
              fun hall => (hall (by omega) hroom hnot hpool' (by simp)).1⟩
          | done =>
            refine (hp.sound.enter_iff hp.get ?_ ?_).trans ?_
            · split <;> rfl
            · split <;> rfl
            · exact ⟨fun hall _ _ _ _ _ => ⟨hall.1, fun _ => hall.2⟩,
                fun hall => (hall (by omega) hroom hnot hpool' (by simp)).imp_right fun hothers =>
                  hothers rfl⟩

theorem Sound.offloadTensorAsync_iff (h : s.Sound) (hash : Option String) (outcome : Outcome) :
    (s.offloadTensorAsync cfg b size hash outcome).Sound ↔
      s.Admits cfg (.offloadAsync b size hash outcome) := by
  unfold OffloadManager.offloadTensorAsync Admits
  split
  · exact ⟨fun _ hsize => absurd hsize (by omega), fun _ => h⟩
  · rename_i hsize
    split
    · rename_i hnone
      have hroom := getOrCreateBlock_eq_none_iff.mp hnone
      exact ⟨fun _ _ hroom' => absurd hroom' hroom, fun _ => h⟩
    · rename_i s₁ info hget
      have hp := h.getOrCreateBlock hget
      have hroom : s.HasRoom cfg b := by
        by_contra hroom
        rw [getOrCreateBlock_eq_none_iff.mpr hroom] at hget
        cases hget
      dsimp only
      rw [hp.mayReplace_iff]
      cases outcome with
      | noBuffer => exact ⟨fun _ _ _ hne => absurd rfl hne, fun _ => hp.sound.put hp.get rfl rfl⟩
      | failed =>
        refine Iff.trans (hp.sound.put_iff hp.get rfl rfl) ?_
        exact ⟨fun hold _ _ _ => ⟨hold, fun hdone => by cases hdone.1⟩,
          fun hall => (hall (by omega) hroom (by simp)).1⟩
      | done =>
        dsimp only
        split
        · rename_i hoverlap
          refine Iff.trans (hp.sound.enter_iff hp.get rfl rfl) ?_
          exact ⟨fun hall _ _ _ => ⟨hall.1, fun _ => hall.2⟩,
            fun hall => (hall (by omega) hroom (by simp)).imp_right fun hothers =>
              hothers ⟨rfl, hoverlap⟩⟩
        · rename_i hoverlap
          refine Iff.trans (hp.sound.put_iff hp.get rfl rfl) ?_
          exact ⟨fun hold _ _ _ => ⟨hold, fun hdone => absurd hdone.2 hoverlap⟩,
            fun hall => (hall (by omega) hroom (by simp)).1⟩

/-- A block is entered under the key that it has: it is there already. -/
theorem Sound.enter_self (h : s.Sound) (hb : s.blocks.get? b = some info) :
    s.enter b info info.hashKey = s := by
  have hput : s.put b info = s := by rw [OffloadManager.put, set_of_get? hb]
  cases hkey : info.hashKey with
  | none => exact hput
  | some k =>
    have hsame : { info with hashKey := some k } = info := by rw [← hkey]
    rw [enter, hsame, hput, set_of_get? (h.index.found b info k hb hkey)]

theorem Sound.completeOffloadAsync (h : s.Sound) (copying returns : Bool) :
    (s.completeOffloadAsync b copying returns).Sound := by
  unfold OffloadManager.completeOffloadAsync
  split
  · exact h
  · rename_i info hb
    have hsame : (if copying then s.enter b info info.hashKey else s) = s := by
      split
      · exact h.enter_self hb
      · rfl
    rw [hsame]
    split
    · exact h.put hb rfl rfl
    · exact h

theorem Sound.waitForPendingTransfers : ∀ {targets : List ℕ} {s : OffloadManager}, s.Sound →
    (s.waitForPendingTransfers targets).Sound := by
  intro targets
  induction targets with
  | nil => exact fun h => h
  | cons b rest ih =>
    intro s h
    unfold OffloadManager.waitForPendingTransfers
    split
    · exact ih h
    · rename_i info hb
      split
      · exact ih (h.put hb rfl rfl)
      · exact ih h

theorem Sound.fetchBlock (h : s.Sound) (returns : Bool) : (s.fetchBlock b returns).Sound := by
  unfold OffloadManager.fetchBlock
  split
  · exact h
  · rename_i info hb
    split
    · exact h.put hb rfl rfl
    · exact h

theorem Sound.completeFetchAsync (h : s.Sound) : (s.completeFetchAsync b).Sound := by
  unfold OffloadManager.completeFetchAsync
  split
  · exact h
  · rename_i info hb
    exact h.put hb rfl rfl

theorem Sound.changeRefcount (h : s.Sound) (change : ℕ → ℕ) : (s.changeRefcount b change).Sound := by
  unfold OffloadManager.changeRefcount
  split
  · exact h
  · rename_i info hb
    exact h.put hb rfl rfl

theorem Sound.evictLruBlock (h : s.Sound) : (s.evictLruBlock.getD s).Sound := by
  unfold OffloadManager.evictLruBlock
  cases s.evictable with
  | none => exact h
  | some v => exact h.removeBlock v

/-- **One call.** The index stays right if and only if the call is admitted. -/
theorem Sound.step (h : s.Sound) {op : Op} (hstep : s.step cfg op = some s') :
    s'.Sound ↔ s.Admits cfg op := by
  cases op
  all_goals obtain rfl : _ = s' := some_inj.mp hstep
  case offload b size hash sync outcome => exact h.offloadBlock_iff hash sync outcome
  case offloadAsync b size hash outcome => exact h.offloadTensorAsync_iff hash outcome
  case completeOffload b copying returns =>
    exact iff_of_true (h.completeOffloadAsync copying returns) trivial
  case wait targets => exact iff_of_true h.waitForPendingTransfers trivial
  case fetch b returns => exact iff_of_true (h.fetchBlock returns) trivial
  case completeFetch b => exact iff_of_true h.completeFetchAsync trivial
  case incrementRefcount b => exact iff_of_true (h.changeRefcount _) trivial
  case decrementRefcount b => exact iff_of_true (h.changeRefcount _) trivial
  case remove b => exact iff_of_true (h.removeBlock b) trivial
  case evict => exact iff_of_true h.evictLruBlock trivial

/-! ### Whole histories -/

end OffloadManager

end CacheFlow.Doca
