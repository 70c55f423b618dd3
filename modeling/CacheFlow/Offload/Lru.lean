import CacheFlow.Lib.Steps
import CacheFlow.Offload.Account

/-!
# The LRU offloading manager

`LRUOffloadingManager` of `kv_offload/lru_manager.py` over the CPU backend. The blocks are kept in
an ordered dictionary, the least recently used first; to make room for new blocks the manager takes
blocks from its start, passing over those in use.

A run is a sequence of calls. Beside the manager it keeps what the caller knows: how many loads and
stores of each hash it has prepared and not completed, and the hashes in the order they were used.
A call that raises leaves the manager as it is at that point; a load whose preparation raised is not
under way, a completion that raised is not repeated.

## Main results

* `LruOffloadingManager.scan_eq` — the scan finds the oldest blocks that are not in use.
* `LruRun.run_correct` — **what is promised after every run of calls.**
-/

namespace CacheFlow.Offload

open List Function Dict BlockStatus

variable {K : Type} [DecidableEq K]

/-- `LRUOffloadingManager`. -/
structure LruOffloadingManager (K : Type) where
  backend : CpuBackend
  /-- `blocks`, the least recently used first. -/
  blocks : Dict K BlockStatus
  events : Option (List (OffloadingEvent K))
  deriving DecidableEq

namespace LruOffloadingManager

/-- The constructor. -/
def new (numBlocks : ℕ) (enableEvents : Bool) : LruOffloadingManager K :=
  ⟨.new numBlocks, ∅, if enableEvents then some [] else none⟩

/-- `lookup`. -/
def lookup (m : LruOffloadingManager K) : List K → ℕ
  | [] => 0
  | blockHash :: rest =>
    match m.blocks.get? blockHash with
    | none => 0
    | some block => if block.isReady then m.lookup rest + 1 else 0

/-- One turn of `prepare_load`, with the id of the block. -/
def pin (blockHash : K) : EStateM OffloadErr (LruOffloadingManager K) ℕ := do
  let m ← get
  match m.blocks.get? blockHash with
  | none => throw .keyError
  | some block =>
    if block.isReady then
      set { m with
        blocks := m.blocks.set blockHash { block with refCnt := cInt32 (block.refCnt + 1) } }
      pure block.blockId
    else throw .assertionError

/-- `prepare_load`. -/
def prepareLoad (blockHashes : List K) : EStateM OffloadErr (LruOffloadingManager K) (List ℕ) :=
  blockHashes.mapM pin

/-- One turn of `touch`. -/
def touchOne (m : LruOffloadingManager K) (blockHash : K) : LruOffloadingManager K :=
  match m.blocks.moveToEnd blockHash with
  | none => m
  | some blocks => { m with blocks := blocks }

/-- `touch`, from the last hash to the first. -/
def touch (blockHashes : List K) (m : LruOffloadingManager K) : LruOffloadingManager K :=
  blockHashes.reverse.foldl touchOne m

/-- One turn of `complete_load`. -/
def unpin (blockHash : K) : EStateM OffloadErr (LruOffloadingManager K) Unit := do
  let m ← get
  match m.blocks.get? blockHash with
  | none => throw .keyError
  | some block =>
    if 0 < block.refCnt then
      set { m with
        blocks := m.blocks.set blockHash { block with refCnt := cInt32 (block.refCnt - 1) } }
    else throw .assertionError

/-- `complete_load`. -/
def completeLoad (blockHashes : List K) : EStateM OffloadErr (LruOffloadingManager K) Unit :=
  forM blockHashes unpin

/-- The scan of `prepare_store` for blocks to evict; nothing if it comes to the end of them. -/
def scan : ℤ → List (K × BlockStatus) → Option (List K)
  | _, [] => none
  | numBlocksToEvict, (blockHash, block) :: rest =>
    if block.refCnt = 0 then
      if numBlocksToEvict - 1 = 0 then some [blockHash]
      else (scan (numBlocksToEvict - 1) rest).map (blockHash :: ·)
    else scan numBlocksToEvict rest

/-- `self.backend.free(self.blocks.pop(block_hash))`. -/
def evict (blockHash : K) : EStateM OffloadErr (LruOffloadingManager K) Unit := do
  let m ← get
  match m.blocks.get? blockHash with
  | none => throw .keyError
  | some block =>
    set { m with backend := m.backend.free block, blocks := m.blocks.erase blockHash }

/-- `prepare_store`. -/
def prepareStore (blockHashes : List K) :
    EStateM OffloadErr (LruOffloadingManager K) (Option (PrepareStoreOutput K)) := do
  let m ← get
  let toStore := blockHashes.filter fun h => !m.blocks.contains h
  let numBlocksToEvict : ℤ := toStore.length - m.backend.getNumFreeBlocks
  match if 0 < numBlocksToEvict then scan numBlocksToEvict m.blocks.items else some [] with
  | none => pure none
  | some toEvict =>
    forM toEvict evict
    modify fun m => { m with events := appendEvent m.events toEvict true }
    let m ← get
    match m.backend.allocateBlocks toStore.length with
    | .error e => throw e
    | .ok (blocks, backend) =>
      set { m with backend := backend }
      if blocks.length = toStore.length then
        modify fun m => { m with
          blocks := (toStore.zip blocks).foldl (fun d p => d.set p.1 p.2) m.blocks }
        pure (some ⟨toStore, blocks.map blockId, toEvict⟩)
      else throw .assertionError

/-- One turn of `complete_store` with success; the hash, if it is stored by this. -/
def markStored (blockHash : K) : EStateM OffloadErr (LruOffloadingManager K) (List K) := do
  let m ← get
  match m.blocks.get? blockHash with
  | none => throw .keyError
  | some block =>
    if block.isReady then pure []
    else
      set { m with blocks := m.blocks.set blockHash { block with refCnt := 0 } }
      pure [blockHash]

/-- One turn of `complete_store` without success. -/
def discard (blockHash : K) : EStateM OffloadErr (LruOffloadingManager K) Unit := do
  let m ← get
  match m.blocks.get? blockHash with
  | none => throw .keyError
  | some block =>
    if block.isReady then pure ()
    else set { m with backend := m.backend.free block, blocks := m.blocks.erase blockHash }

/-- `complete_store`. -/
def completeStore (blockHashes : List K) (success : Bool) :
    EStateM OffloadErr (LruOffloadingManager K) Unit :=
  if success then do
    let stored ← blockHashes.mapM markStored
    modify fun m => { m with events := appendEvent m.events stored.flatten false }
  else forM blockHashes discard

/-! ### What a store has to do -/

section

variable (m : LruOffloadingManager K)

/-- The ids of the blocks. -/
def ids : List ℕ := m.blocks.values.map blockId

/-- The hashes of the blocks that may be evicted, the least recently used first. -/
def evictable : List K :=
  (m.blocks.items.filter fun p => p.2.refCnt = 0).map Prod.fst

/-- The hashes that are not there yet. -/
def missing (blockHashes : List K) : List K :=
  blockHashes.filter fun h => !m.blocks.contains h

/-- With these blocks gone there is room for the missing ones. -/
def MakesRoom (blockHashes evicted : List K) : Prop :=
  ((m.missing blockHashes).length : ℤ) ≤ m.backend.getNumFreeBlocks + evicted.length

/-- What a store leads to: room is made by the shortest beginning of the evictable blocks that
suffices, or there is none and nothing changes. -/
def StoreSpec (blockHashes : List K)
    (output : Option (PrepareStoreOutput K)) (m' : LruOffloadingManager K) : Prop :=
  match output with
  | none => m' = m ∧ ∀ l, l <+: m.evictable → ¬ m.MakesRoom blockHashes l
  | some out =>
    out.blockHashesToStore = m.missing blockHashes ∧
    out.blockHashesEvicted <+: m.evictable ∧ m.MakesRoom blockHashes out.blockHashesEvicted ∧
    (∀ l, l <+: m.evictable → m.MakesRoom blockHashes l →
      out.blockHashesEvicted.length ≤ l.length) ∧
    m'.blocks.keys = (m.blocks.keys.filter (· ∉ out.blockHashesEvicted)) ++ m.missing blockHashes ∧
    ∀ h ∉ out.blockHashesEvicted, h ∉ m.missing blockHashes → m'.blocks.get? h = m.blocks.get? h

end

end LruOffloadingManager

/-! ### Runs -/

/-- The calls of the manager. -/
inductive LruCall (K : Type) where
  | lookup (blockHashes : List K)
  | touch (blockHashes : List K)
  | prepareLoad (blockHashes : List K)
  | completeLoad (blockHashes : List K)
  | prepareStore (blockHashes : List K)
  | completeStore (blockHashes : List K) (success : Bool)

/-- A manager with what its caller knows. -/
structure LruRun (K : Type) where
  manager : LruOffloadingManager K
  loads : K → ℕ
  stores : K → ℕ
  /-- The hashes that were touched or stored, the latest first. -/
  uses : List K

namespace LruRun

open LruOffloadingManager

/-- Before the first call. -/
def start (numBlocks : ℕ) (enableEvents : Bool) : LruRun K :=
  ⟨.new numBlocks enableEvents, fun _ => 0, fun _ => 0, []⟩

/-- The hashes of a call are distinct, and a completion matches earlier preparations. -/
def Allowed (t : LruRun K) : LruCall K → Prop
  | .lookup blockHashes | .touch blockHashes | .prepareLoad blockHashes
  | .prepareStore blockHashes => blockHashes.Nodup
  | .completeLoad blockHashes => blockHashes.Nodup ∧ ∀ h ∈ blockHashes, 0 < t.loads h
  | .completeStore blockHashes _ => blockHashes.Nodup ∧ ∀ h ∈ blockHashes, 0 < t.stores h

instance (t : LruRun K) (c : LruCall K) : Decidable (t.Allowed c) := by
  cases c <;> unfold Allowed <;> infer_instance

/-- The state after a call. -/
def after (t : LruRun K) : LruCall K → LruRun K
  | .lookup _ => t
  | .touch blockHashes =>
    { t with manager := t.manager.touch blockHashes, uses := blockHashes ++ t.uses }
  | .prepareLoad blockHashes =>
    match LruOffloadingManager.prepareLoad blockHashes t.manager with
    | .ok _ m => { t with manager := m, loads := fun h => t.loads h + blockHashes.count h }
    | .error _ m => { t with manager := m }
  | .completeLoad blockHashes =>
    { t with
      manager := finalState (LruOffloadingManager.completeLoad blockHashes) t.manager
      loads := fun h => t.loads h - blockHashes.count h }
  | .prepareStore blockHashes =>
    match LruOffloadingManager.prepareStore blockHashes t.manager with
    | .ok (some out) m =>
      { t with
        manager := m
        stores := fun h => t.stores h + out.blockHashesToStore.count h
        uses := out.blockHashesToStore.reverse ++ t.uses }
    | .ok none m | .error _ m => { t with manager := m }
  | .completeStore blockHashes success =>
    { t with
      manager := finalState (LruOffloadingManager.completeStore blockHashes success) t.manager
      stores := fun h => t.stores h - blockHashes.count h }

/-- A call that the caller may make. -/
def step (t : LruRun K) (c : LruCall K) : Option (LruRun K) :=
  if t.Allowed c then some (t.after c) else none

/-- The promises. -/
structure Correct (numBlocks : ℕ) (t : LruRun K) : Prop where
  numBlocks : t.manager.backend.numBlocks = numBlocks
  ids : t.manager.backend.Owns t.manager.ids
  order : ByRecency t.uses t.manager.blocks.keys
  busy : ∀ h, 0 < t.loads h ∨ 0 < t.stores h → h ∈ t.manager.blocks.keys
  /-- A store makes room by the fewest evictions, the least recently used first, and of no block
  with a transfer under way; or nothing changes. -/
  store : ∀ blockHashes, blockHashes.Nodup →
    Sat (LruOffloadingManager.prepareStore blockHashes) t.manager fun output m =>
      t.manager.StoreSpec blockHashes output m ∧
      ∀ out, output = some out → ∀ h ∈ out.blockHashesEvicted, t.loads h = 0 ∧ t.stores h = 0

end LruRun

/-! ### The eviction scan -/

namespace LruOffloadingManager

omit [DecidableEq K] in
/-- **The scan finds the oldest blocks that are not in use**, if there are enough of them. -/
theorem scan_eq (items : List (K × BlockStatus)) (n : ℤ) (hn : 0 < n) :
    scan n items =
      if n ≤ (((items.filter fun p => p.2.refCnt = 0).map Prod.fst).length : ℤ) then
        some (((items.filter fun p => p.2.refCnt = 0).map Prod.fst).take n.toNat)
      else none := by
  induction items generalizing n with
  | nil =>
    rw [scan, if_neg (by simp; omega)]
  | cons p items ih =>
    obtain ⟨h, b⟩ := p
    by_cases hb : b.refCnt = 0
    · have hfilter : (((h, b) :: items).filter fun p => p.2.refCnt = 0).map Prod.fst
          = h :: (items.filter fun p => p.2.refCnt = 0).map Prod.fst := by
        rw [filter_cons_of_pos (by simpa using hb), map_cons]
      obtain ⟨k, rfl⟩ : ∃ k : ℕ, n = k + 1 := ⟨(n - 1).toNat, by omega⟩
      have hk : ((k : ℤ) + 1).toNat = k + 1 := by omega
      rw [hfilter, scan, if_pos hb, hk, take_succ_cons, length_cons]
      split_ifs with h₁ h₂ h₂
      · -- this block is the last that was needed
        obtain rfl : k = 0 := by omega
        rw [take_zero]
      · push_cast at h₂
        omega
      · rw [ih _ (by omega), if_pos (by push_cast at h₂; omega), Option.map_some,
          show ((k : ℤ) + 1 - 1).toNat = k by omega]
      · rw [ih _ (by omega), if_neg (by push_cast at h₂; omega), Option.map_none]
    · have hfilter : (((h, b) :: items).filter fun p => p.2.refCnt = 0)
          = items.filter fun p => p.2.refCnt = 0 :=
        filter_cons_of_neg (by simpa using hb)
      rw [hfilter, scan, if_neg hb, ih n hn]

omit [DecidableEq K] in
theorem evictions_eq (m : LruOffloadingManager K) (n : ℤ) :
    (if 0 < n then scan n m.blocks.items else some []) =
      if n ≤ (m.evictable.length : ℤ) then some (m.evictable.take n.toNat) else none := by
  split_ifs with h₁ h₂ h₂
  · rw [scan_eq _ _ h₁]
    exact if_pos h₂
  · rw [scan_eq _ _ h₁]
    exact if_neg h₂
  · rw [Int.toNat_of_nonpos (by omega), take_zero]
  · omega

end LruOffloadingManager

/-! ### What holds between calls -/

/-- The manager's books are in order. -/
structure LruOffloadingManager.Sound (numBlocks : ℕ) (m : LruOffloadingManager K)
    (loads stores : K → ℕ) (uses : List K) : Prop where
  numBlocks : m.backend.numBlocks = numBlocks
  owns : m.backend.Owns m.ids
  account : Account m.blocks.get? loads stores
  recency : ByRecency uses m.blocks.keys

namespace LruOffloadingManager

variable {numBlocks : ℕ} {m : LruOffloadingManager K} {loads loads' stores stores' : K → ℕ}
  {uses : List K} {h : K} {b : BlockStatus}

section

variable (hs : m.Sound numBlocks loads stores uses)
include hs

theorem Sound.mono (hle : ∀ h, loads' h ≤ loads h) : m.Sound numBlocks loads' stores uses :=
  { hs with account := hs.account.mono hle }

theorem Sound.setBlock (hb : m.blocks.get? h = some b)
    {n : ℤ} (hacc : Account (update m.blocks.get? h (some { b with refCnt := n }))
      loads' stores') :
    ({ m with blocks := m.blocks.set h { b with refCnt := n } } :
      LruOffloadingManager K).Sound numBlocks loads' stores' uses where
  numBlocks := hs.numBlocks
  owns := hs.owns.congr (map_values_set_perm blockId hb rfl)
  account := get?_set_update m.blocks h _ ▸ hacc
  recency := (keys_set_of_get? hb _).symm ▸ hs.recency

theorem Sound.freeBlock (hb : m.blocks.get? h = some b)
    (hacc : Account (update m.blocks.get? h none) loads stores') :
    ({ m with backend := m.backend.free b, blocks := m.blocks.erase h } :
      LruOffloadingManager K).Sound numBlocks loads stores' uses where
  numBlocks := hs.numBlocks
  owns := (hs.owns.congr ((values_perm_of_get? hb).map blockId).symm).free
  account := get?_erase_update m.blocks h ▸ hacc
  recency := hs.recency.sublist (m.blocks.keys_erase h ▸ erase_sublist)

end

/-! ### Touching and loading -/

section

variable (hs : m.Sound numBlocks loads stores uses)
include hs

/-- A block that is touched becomes the most recently used. -/
theorem Sound.touchOne (h : K) : (m.touchOne h).Sound numBlocks loads stores (h :: uses) := by
  unfold LruOffloadingManager.touchOne
  cases hm : m.blocks.moveToEnd h with
  | none =>
    have hnone : m.blocks.get? h = none := Option.map_eq_none_iff.mp hm
    exact { hs with recency := hs.recency.use_absent (get?_eq_none_iff.mp hnone) }
  | some blocks =>
    have hget : blocks.get? = m.blocks.get? := funext (get?_moveToEnd hm)
    refine ⟨hs.numBlocks, hs.owns.congr ((values_moveToEnd hm).map _), ?_, ?_⟩
    · exact hget ▸ hs.account
    · rw [keys_moveToEnd hm]
      exact (hs.recency.sublist erase_sublist).use m.blocks.nodup_keys.not_mem_erase

theorem Sound.touch (blockHashes : List K) :
    (m.touch blockHashes).Sound numBlocks loads stores (blockHashes ++ uses) := by
  unfold LruOffloadingManager.touch
  induction blockHashes with
  | nil => exact hs
  | cons h blockHashes ih =>
    rw [reverse_cons, foldl_append]
    exact ih.touchOne h

/-- A load is prepared, or the books are as before. -/
theorem Sound.prepareLoad (blockHashes : List K) :
    Ends (prepareLoad blockHashes) m
      (fun _ m' => m'.Sound numBlocks (fun h => loads h + blockHashes.count h) stores uses)
      fun m' => m'.Sound numBlocks loads stores uses := by
  -- what is still to be pinned is missing from the loads
  let I : List K → LruOffloadingManager K → Prop := fun todo m' =>
    (∀ k, todo.count k ≤ blockHashes.count k) ∧
    m'.Sound numBlocks (fun k => loads k + blockHashes.count k - todo.count k) stores uses
  have hloop : Ends (blockHashes.mapM pin) m (fun _ m' => I [] m')
      fun m' => m'.Sound numBlocks loads stores uses := by
    refine ends_mapM (I := I) (fun a l m' hI => ?_) blockHashes m
      ⟨fun _ => le_rfl, hs.mono fun k => by simp⟩
    obtain ⟨hcount, hs'⟩ := hI
    have hback : m'.Sound numBlocks loads stores uses := hs'.mono fun k => by
      have := hcount k
      omega
    unfold pin
    simp only [ends_bind, ends_get]
    cases hb : m'.blocks.get? a with
    | none => exact hback
    | some b =>
      simp only
      split_ifs with hready
      · simp only [ends_bind, ends_set, ends_pure]
        refine ⟨fun k => le_trans (count_le_count_cons) (hcount k), ?_⟩
        exact hs'.setBlock hb (hs'.account.pin_next (Nat.le_add_left_of_le (hcount a)) hb hready)
      · exact hback
  exact hloop.mono fun _ m' hI => hI.2.mono fun k => by simp

end

variable {blockHashes : List K}

/-- A load is completed, or as much of it as can be. -/
theorem Sound.completeLoad (hs : m.Sound numBlocks loads stores uses)
    (hle : ∀ h, blockHashes.count h ≤ loads h) :
    (finalState (completeLoad blockHashes) m).Sound numBlocks
      (fun h => loads h - blockHashes.count h) stores uses := by
  let I : List K → LruOffloadingManager K → Prop := fun todo m' =>
    m'.Sound numBlocks (fun k => loads k - blockHashes.count k + todo.count k) stores uses
  have hloop : Ends (forM blockHashes unpin) m (fun _ m' => I [] m') (I []) := by
    refine ends_forM (I := I) (fun a l m' hI => ?_) blockHashes m (hs.mono fun k => ?_)
    · have hback : I [] m' := hI.mono fun k => by simp
      unfold unpin
      simp only [ends_bind, ends_get]
      cases hb : m'.blocks.get? a with
      | none => exact hback
      | some b =>
        simp only
        split_ifs with hpos
        · rw [ends_set]
          exact hI.setBlock hb (hI.account.unpin_next hb hpos)
        · exact hback
    · have := hle k
      omega
  exact ends_finalState hloop

/-! ### Completing a store -/

theorem Sound.completeStore (hs : m.Sound numBlocks loads stores uses)
    (hle : ∀ h, blockHashes.count h ≤ stores h) (success : Bool) :
    Sat (completeStore blockHashes success) m fun _ m' =>
      m'.Sound numBlocks loads (fun h => stores h - blockHashes.count h) uses := by
  -- the stores still to be completed are those of the hashes to come
  let I : List K → LruOffloadingManager K → Prop := fun todo m' =>
    m'.Sound numBlocks loads (fun k => stores k - blockHashes.count k + todo.count k) uses
  have hI₀ : I blockHashes m := by
    have hcount : (fun k => stores k - blockHashes.count k + blockHashes.count k) = stores :=
      funext fun k => Nat.sub_add_cancel (hle k)
    show m.Sound numBlocks loads _ uses
    rw [hcount]
    exact hs
  have hdone : ∀ m', I [] m' → m'.Sound numBlocks loads
      (fun h => stores h - blockHashes.count h) uses := fun m' hI => by simpa [I] using hI
  cases success with
  | true =>
    have hloop : Ends (blockHashes.mapM markStored) m (fun _ m' => I [] m') fun _ => False := by
      refine ends_mapM (I := I) (fun a l m' hI => ?_) blockHashes m hI₀
      -- a hash to come has a block that is not ready
      obtain ⟨b, hb, hready, hstored, -⟩ := hI.account.store_next
      unfold markStored
      simp only [ends_bind, ends_get, hb, if_neg hready, ends_set, ends_pure]
      exact hI.setBlock hb hstored
    unfold LruOffloadingManager.completeStore
    simp only [if_true, sat_bind, sat_modify]
    refine hloop.sat.mono fun _ m' hI => ?_
    have hs' := hdone m' hI
    exact { hs' with }
  | false =>
    have hloop : Ends (forM blockHashes discard) m (fun _ m' => I [] m') fun _ => False := by
      refine ends_forM (I := I) (fun a l m' hI => ?_) blockHashes m hI₀
      obtain ⟨b, hb, hready, -, hfailed⟩ := hI.account.store_next
      unfold discard
      simp only [ends_bind, ends_get, hb, if_neg hready, ends_set]
      exact hI.freeBlock hb hfailed
    exact hloop.sat.mono fun _ m' hI => hdone m' hI

/-! ### Preparing a store -/

/-- What is left after some blocks were evicted. -/
structure Evicted (m : LruOffloadingManager K) (evicted : List K) (m' : LruOffloadingManager K) :
    Prop where
  items : m'.blocks.items = m.blocks.items.filter fun p => p.1 ∉ evicted
  /-- Each leaves a free block. -/
  room : m'.backend.getNumFreeBlocks = m.backend.getNumFreeBlocks + evicted.length

theorem Sound.evictAll (hs : m.Sound numBlocks loads stores uses) {toEvict : List K}
    (hnd : toEvict.Nodup)
    (hidle : ∀ h ∈ toEvict, ∃ b, m.blocks.get? h = some b ∧ b.refCnt = 0) :
    Sat (forM toEvict evict) m fun _ m' =>
      m'.Sound numBlocks loads stores uses ∧ m.Evicted toEvict m' := by
  let I : List K → LruOffloadingManager K → Prop := fun todo m' =>
    todo.Nodup ∧ (∀ h ∈ todo, h ∈ toEvict) ∧ m'.Sound numBlocks loads stores uses ∧
    m'.blocks.items = (m.blocks.items.filter fun p => p.1 ∈ todo ∨ p.1 ∉ toEvict) ∧
    m'.backend.getNumFreeBlocks + todo.length = m.backend.getNumFreeBlocks + toEvict.length
  have hloop : Ends (forM toEvict evict) m (fun _ m' => I [] m') fun _ => False := by
    refine ends_forM (I := I) (fun a l m' hI => ?_) toEvict m ⟨hnd, fun _ h => h, hs, ?_, rfl⟩
    · obtain ⟨hnd', hsub, hs', hitems, hroom⟩ := hI
      rw [nodup_cons] at hnd'
      have ha := hsub a (by simp)
      -- the block is still there, as it is yet to come
      obtain ⟨b, hb, href⟩ := hidle a ha
      have hb' : m'.blocks.get? a = some b := by
        rw [← mem_items_iff, hitems, mem_filter, mem_items_iff]
        exact ⟨hb, by simp⟩
      unfold evict
      simp only [ends_bind, ends_get, hb', ends_set]
      refine ⟨hnd'.2, fun h hh => hsub h (mem_cons_of_mem a hh),
        hs'.freeBlock hb' (hs'.account.evict hb' href), ?_, ?_⟩
      · simp only [erase, hitems, filter_filter]
        refine filter_congr fun p _ => ?_
        by_cases hp : p.1 = a
        · simp [hp, hnd'.1, ha]
        · simp [hp]
      · rw [length_cons] at hroom
        simp only [CpuBackend.free, CpuBackend.getNumFreeBlocks, length_append,
          length_singleton] at hroom ⊢
        omega
    · refine (filter_eq_self.mpr fun p _ => ?_).symm
      simp only [decide_eq_true_eq]
      exact em (p.1 ∈ toEvict)
  refine hloop.sat.mono fun _ m' hI => ?_
  obtain ⟨-, -, hs', hitems, hroom⟩ := hI
  refine ⟨hs', ?_, by simpa using hroom⟩
  rw [hitems]
  simp

omit [DecidableEq K] in
theorem nodup_evictable (m : LruOffloadingManager K) : m.evictable.Nodup :=
  m.blocks.nodup.sublist (filter_sublist.map _)

theorem get?_of_mem_evictable (hh : h ∈ m.evictable) :
    ∃ b, m.blocks.get? h = some b ∧ b.refCnt = 0 := by
  obtain ⟨⟨k, b⟩, hp, rfl⟩ := mem_map.mp hh
  rw [mem_filter, mem_items_iff] at hp
  exact ⟨b, hp.1, by simpa using hp.2⟩

theorem Sound.insertAll (hs : m.Sound numBlocks loads stores uses) {toStore : List K}
    {blocks : List BlockStatus} {backend : CpuBackend} (hnd : toStore.Nodup)
    (hnew : ∀ h ∈ toStore, h ∉ m.blocks.keys) (hlen : blocks.length = toStore.length)
    (href : ∀ b ∈ blocks, b.refCnt = -1) (hnum : backend.numBlocks = numBlocks)
    (howns : backend.Owns (blocks.map blockId ++ m.ids))
    (events : Option (List (OffloadingEvent K))) :
    ({ backend := backend, events := events,
       blocks := (toStore.zip blocks).foldl (fun d p => d.set p.1 p.2) m.blocks } :
      LruOffloadingManager K).Sound numBlocks loads (fun h => stores h + toStore.count h)
        (toStore.reverse ++ uses) := by
  have hfst : (toStore.zip blocks).map Prod.fst = toStore := map_fst_zip hlen.ge
  have hsnd : (toStore.zip blocks).map Prod.snd = blocks := map_snd_zip hlen.le
  have hitems := items_foldl_set (toStore.zip blocks) m.blocks (hfst.symm ▸ hnd)
    (hfst.symm ▸ hnew)
  refine ⟨hnum, howns.congr ?_, ?_, ?_⟩
  · rw [ids, ids, values, values, hitems, map_append, hsnd, map_append]
    exact perm_append_comm
  · have hacc := hs.account.insertAll (toStore.zip blocks) (hfst.symm ▸ hnd)
      (fun p hp => get?_eq_none_iff.mpr (hnew p.1 (hfst ▸ mem_map_of_mem hp)))
      fun p hp => href p.2 (hsnd ▸ mem_map_of_mem hp)
    rw [get?_foldl_set]
    rw [hfst] at hacc
    exact hacc
  · -- new blocks come last, in the order of the request
    have hkeys : (List.foldl (fun d p => d.set p.1 p.2) m.blocks (toStore.zip blocks)).keys
        = m.blocks.keys ++ toStore := by
      rw [Dict.keys, hitems, List.map_append, hfst]
      rfl
    exact hkeys.symm ▸ hs.recency.append hnd hnew

/-- The blocks to evict are the shortest beginning that makes room. -/
theorem makesRoom_take {n : ℤ}
    (hn : n = (m.missing blockHashes).length - m.backend.getNumFreeBlocks)
    (hle : n ≤ m.evictable.length) :
    m.MakesRoom blockHashes (m.evictable.take n.toNat) ∧
      ∀ l, l <+: m.evictable → m.MakesRoom blockHashes l →
        (m.evictable.take n.toNat).length ≤ l.length := by
  rw [length_take]
  refine ⟨?_, fun l _ hl => ?_⟩
  · rw [MakesRoom, length_take]
    omega
  · rw [MakesRoom] at hl
    omega

/-- **A store makes room by the fewest evictions, or changes nothing.** -/
theorem Sound.prepareStore (hs : m.Sound numBlocks loads stores uses) (hnd : blockHashes.Nodup) :
    Sat (prepareStore blockHashes) m fun output m' =>
      m.StoreSpec blockHashes output m' ∧ ∀ out, output = some out →
        (∀ h ∈ out.blockHashesEvicted, loads h = 0 ∧ stores h = 0) ∧
        m'.Sound numBlocks loads (fun h => stores h + out.blockHashesToStore.count h)
          (out.blockHashesToStore.reverse ++ uses) := by
  have hmissing : (m.missing blockHashes).Nodup := hnd.sublist filter_sublist
  have hnotin : ∀ h ∈ m.missing blockHashes, h ∉ m.blocks.keys := by
    intro h hh hmem
    rw [← contains_iff_mem_keys] at hmem
    simpa [hmem] using (mem_filter.mp hh).2
  have hfilter : (blockHashes.filter fun h => !m.blocks.contains h) = m.missing blockHashes := rfl
  unfold LruOffloadingManager.prepareStore
  simp only [sat_bind, sat_get, hfilter, evictions_eq]
  generalize hn : ((m.missing blockHashes).length : ℤ) - m.backend.getNumFreeBlocks = n
  split_ifs with hle
  · -- the evictions leave enough free blocks
    have hidle : ∀ h ∈ m.evictable.take n.toNat, ∃ b, m.blocks.get? h = some b ∧ b.refCnt = 0 :=
      fun h hh => get?_of_mem_evictable (mem_of_mem_take hh)
    obtain ⟨hroom, hleast⟩ := makesRoom_take hn.symm hle
    simp only [sat_bind]
    refine (hs.evictAll (m.nodup_evictable.sublist (take_sublist _ _)) hidle).mono ?_
    rintro _ m' ⟨hs', hev⟩
    obtain ⟨blocks, backend, halloc, hlen, href, hnum, howns⟩ :=
      hs'.owns.allocateBlocks (n := (m.missing blockHashes).length) (by
        rw [hev.room]
        exact hroom)
    have hkeys : m'.blocks.keys = m.blocks.keys.filter (· ∉ m.evictable.take n.toNat) := by
      rw [Dict.keys, hev.items, Dict.keys, List.filter_map]
      rfl
    -- evicting only takes keys away
    have hnew : ∀ h ∈ m.missing blockHashes, h ∉ m'.blocks.keys := by
      intro h hh hmem
      rw [hkeys] at hmem
      exact hnotin h hh (mem_filter.mp hmem).1
    simp only [sat_modify, sat_get, halloc, sat_bind, sat_set, if_pos hlen, sat_pure]
    have hitems := items_foldl_set ((m.missing blockHashes).zip blocks) m'.blocks
      ((map_fst_zip hlen.ge).symm ▸ hmissing) ((map_fst_zip hlen.ge).symm ▸ hnew)
    refine ⟨⟨rfl, take_prefix _ _, hroom, hleast, ?_, fun h hev' hmiss => ?_⟩, ?_⟩
    · change (List.foldl _ m'.blocks ((m.missing blockHashes).zip blocks)).keys = _
      rw [Dict.keys, hitems, List.map_append, List.map_fst_zip hlen.ge]
      exact congrArg (· ++ _) hkeys
    · change (List.foldl _ m'.blocks ((m.missing blockHashes).zip blocks)).get? h = _
      refine Option.ext fun b => ?_
      rw [← mem_items_iff, hitems, hev.items, mem_append, mem_filter,
        mem_items_iff]
      constructor
      · rintro (hb | hb)
        · exact hb.1
        · exact absurd (of_mem_zip hb).1 hmiss
      · exact fun hb => Or.inl ⟨hb, by simpa using hev'⟩
    · intro out hout
      obtain rfl := Option.some.inj hout
      refine ⟨fun h hh => ?_, ?_⟩
      · obtain ⟨b, hb, hzero⟩ := hidle h hh
        exact hs.account.idle hb hzero
      · exact hs'.insertAll hmissing hnew hlen href (hnum.trans hs'.numBlocks) howns _
  · -- no room, even without all the blocks that may go
    rw [sat_pure]
    refine ⟨⟨rfl, fun l hl hroom => ?_⟩, fun out hout => by cases hout⟩
    have hlen := hl.length_le
    rw [MakesRoom] at hroom
    omega

end LruOffloadingManager

/-! ### Every run -/

namespace LruRun

variable {numBlocks : ℕ}

/-- The books of a run. -/
def Inv (numBlocks : ℕ) (t : LruRun K) : Prop :=
  t.manager.Sound numBlocks t.loads t.stores t.uses

theorem inv_start (numBlocks : ℕ) (enableEvents : Bool) :
    (start numBlocks enableEvents : LruRun K).Inv numBlocks :=
  ⟨rfl, CpuBackend.owns_new numBlocks, Account.empty, byRecency_nil []⟩

theorem count_le_of_nodup {l : List K} (hnd : l.Nodup) {f : K → ℕ} (hpos : ∀ h ∈ l, 0 < f h)
    (h : K) : l.count h ≤ f h := by
  by_cases hh : h ∈ l
  · rw [count_eq_one_of_mem hnd hh]
    exact hpos h hh
  · rw [count_eq_zero_of_not_mem hh]
    exact Nat.zero_le _

theorem Inv.step {t t' : LruRun K} (hi : t.Inv numBlocks) {c : LruCall K}
    (hstep : t.step c = some t') : t'.Inv numBlocks := by
  unfold LruRun.step at hstep
  split_ifs at hstep with hallowed
  obtain rfl := Option.some.inj hstep
  cases c with
  | lookup blockHashes => exact hi
  | touch blockHashes => exact hi.touch blockHashes
  | prepareLoad blockHashes =>
    have hend := hi.prepareLoad blockHashes
    unfold Ends at hend
    simp only [after]
    cases hres : LruOffloadingManager.prepareLoad blockHashes t.manager with
    | ok ids m' => rw [hres] at hend; exact hend
    | error e m' => rw [hres] at hend; exact hend
  | completeLoad blockHashes =>
    exact hi.completeLoad (count_le_of_nodup hallowed.1 hallowed.2)
  | prepareStore blockHashes =>
    obtain ⟨output, m', hres, hspec, hout⟩ := hi.prepareStore hallowed
    simp only [after, hres]
    cases output with
    | none =>
      obtain ⟨rfl, -⟩ := hspec
      exact hi
    | some out => exact (hout out rfl).2
  | completeStore blockHashes success =>
    exact (hi.completeStore (count_le_of_nodup hallowed.1 hallowed.2) success).of_finalState

theorem Inv.correct {t : LruRun K} (hi : t.Inv numBlocks) : t.Correct numBlocks where
  numBlocks := hi.numBlocks
  ids := hi.owns
  order := hi.recency
  busy := fun _ hbusy => mem_keys_iff.mpr (hi.account.busy hbusy)
  store := fun _ hnd => (hi.prepareStore hnd).mono fun _ _ ⟨hspec, hout⟩ =>
    ⟨hspec, fun out heq => (hout out heq).1⟩

/-- **The LRU manager keeps its promises** after every run. Block ids and free ids are all ids, each
once; no block with a transfer under way is evicted; a store evicts the shortest beginning, in the
order of last uses, of the blocks not in use that makes room for the new hashes, and if there is
none nothing changes. -/
theorem run_correct (numBlocks : ℕ) (enableEvents : Bool) (cs : List (LruCall K)) (t : LruRun K)
    (hrun : Steps.run step (start numBlocks enableEvents) cs = some t) : t.Correct numBlocks := by
  have hinv : t.Inv numBlocks :=
    Steps.Each.induction (P := fun _ _ => True) (I := fun t _ => t.Inv numBlocks)
      (inv_start numBlocks enableEvents) (fun _ _ _ _ _ hi _ hstep => hi.step hstep)
      (fun _ _ _ _ _ _ => trivial) hrun
  exact hinv.correct

/-- With one block: 1 is stored, loaded while 2 is to be stored, which is refused, and evicted for 2
once its load is completed. -/
theorem run_correct_one_block :
    ∃ t : LruRun ℕ, Steps.run step (start 1 false)
      [.prepareStore [1], .completeStore [1] true, .prepareLoad [1], .prepareStore [2],
        .completeLoad [1], .touch [1], .prepareStore [2]] = some t ∧
      t.manager.blocks.keys = [2] ∧ t.Correct 1 := by
  refine ⟨_, rfl, by decide, ?_⟩
  exact run_correct 1 false
    [.prepareStore [1], .completeStore [1] true, .prepareLoad [1], .prepareStore [2],
      .completeLoad [1], .touch [1], .prepareStore [2]] _ rfl

end LruRun

end CacheFlow.Offload
