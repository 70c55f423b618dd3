import CacheFlow.Lib.Dict
import CacheFlow.Vllm.CacheHit

/-!
# The KV cache manager

`KVCacheManager` gives the tokens of requests their blocks. Each group of layers has a manager
of its own, which keeps the block list of every request; all of them share the block pool.
The coordinator calls them one after the other.

`allocate_slots` first frees what lies before the attention window, then counts the blocks it
will need, and only if the pool has so many goes on: it takes over the cached blocks, hands
out blocks for externally computed tokens and for new ones, and stores the full ones under
their hashes.

## Main definitions

* `SingleTypeKVCacheManager` — the manager of one group.
* `KVCacheManager.getComputedBlocks`, `KVCacheManager.allocateSlots`, … — what the scheduler calls.
-/

namespace CacheFlow

/-- `SingleTypeKVCacheManager`: the manager of one group. -/
structure SingleTypeKVCacheManager where
  /-- `kv_cache_spec`. -/
  spec : KVCacheSpec
  kvCacheGroupId : ℕ
  reqToBlocks : Dict String (List ℕ)
  numCachedBlock : Dict String ℕ

namespace SingleTypeKVCacheManager

variable {H : Type}

/-- The blocks of a request. -/
def blocksOf (g : SingleTypeKVCacheManager) (r : String) : List ℕ := (g.reqToBlocks.get? r).getD []

/-- How many of them are stored, or count as such. -/
def cachedOf (g : SingleTypeKVCacheManager) (r : String) : ℕ := (g.numCachedBlock.get? r).getD 0

/-- The manager with other blocks for a request. -/
def setBlocks (g : SingleTypeKVCacheManager) (r : String) (blocks : List ℕ) :
    SingleTypeKVCacheManager :=
  { g with reqToBlocks := g.reqToBlocks.set r blocks }

/-- The manager with another number of stored blocks for a request. -/
def setCached (g : SingleTypeKVCacheManager) (r : String) (n : ℕ) : SingleTypeKVCacheManager :=
  { g with numCachedBlock := g.numCachedBlock.set r n }

/-- The whole blocks before the window. -/
def numSkippedBlocks (g : SingleTypeKVCacheManager) (totalComputedTokens : ℕ) : ℕ :=
  g.spec.getNumSkippedTokens totalComputedTokens / g.spec.blockSize

/-- `_get_num_evictable_blocks`. -/
def getNumEvictableBlocks (p : BlockPool H) (blocks : List ℕ) : ℕ :=
  blocks.countP fun b => (p.blocks b).refCnt = 0 ∧ (p.blocks b).isNull = false

/-- `get_num_blocks_to_allocate`. -/
def getNumBlocksToAllocate (g : SingleTypeKVCacheManager) (p : BlockPool H) (r : String)
    (numTokens : ℕ) (newComputedBlocks : List ℕ) (totalComputedTokens : ℕ) : Except VllmErr ℕ :=
  let numRequiredBlocks := cdiv numTokens g.spec.blockSize
  let numReqBlocks := (g.blocksOf r).length
  if g.numCachedBlock.contains r then
    if newComputedBlocks = [] then .ok (numRequiredBlocks - numReqBlocks)
    else .error .assertionError
  else
    let numSkippedBlocks := g.numSkippedBlocks totalComputedTokens
    let numLocalComputedBlocks := newComputedBlocks.length + numReqBlocks
    .ok (numRequiredBlocks - max numSkippedBlocks numLocalComputedBlocks +
      getNumEvictableBlocks p (newComputedBlocks.drop (numSkippedBlocks - numReqBlocks)))

/-- Step 1 of `allocate_new_computed_blocks`. -/
def touchComputed (p : BlockPool H) (blocks : List ℕ) : Except VllmErr (BlockPool H) :=
  if p.enableCaching then p.touch blocks
  else if blocks = [] then .ok p
  else .error .assertionError

section Methods

variable [DecidableEq H]

/-- `allocate_new_computed_blocks`. -/
def allocateNewComputedBlocks (r : String) (newComputedBlocks : List ℕ)
    (numLocalComputedTokens numExternalComputedTokens : ℕ) (g : SingleTypeKVCacheManager)
    (p : BlockPool H) : Except VllmErr (SingleTypeKVCacheManager × BlockPool H) :=
  if g.numCachedBlock.contains r then
    if newComputedBlocks = [] then .ok (g, p) else .error .assertionError
  else if g.blocksOf r ≠ [] then .error .assertionError
  else do
    let total := numLocalComputedTokens + numExternalComputedTokens
    let numSkippedBlocks := g.numSkippedBlocks total
    let newComputedBlocks := newComputedBlocks.drop numSkippedBlocks
    -- some external tokens may be skipped, too
    let external :=
      if 0 < numSkippedBlocks then
        min (total - g.spec.getNumSkippedTokens total) numExternalComputedTokens
      else numExternalComputedTokens
    let p ← touchComputed p newComputedBlocks
    let blocks := List.replicate numSkippedBlocks p.nullBlock ++ newComputedBlocks
    let g := (g.setBlocks r blocks).setCached r blocks.length
    if 0 < external then do
      let (new, p) ← p.getNewBlocks ((cdiv total g.spec.blockSize : ℤ) - blocks.length)
      pure (g.setBlocks r (blocks ++ new), p)
    else pure (g, p)

/-- `allocate_new_blocks`. -/
def allocateNewBlocks (r : String) (numTokens : ℕ) (g : SingleTypeKVCacheManager) (p : BlockPool H) :
    Except VllmErr ((List ℕ × SingleTypeKVCacheManager) × BlockPool H) :=
  let blocks := g.blocksOf r
  let numRequiredBlocks := cdiv numTokens g.spec.blockSize
  if numRequiredBlocks ≤ blocks.length then .ok (([], g.setBlocks r blocks), p)
  else do
    let (new, p) ← p.getNewBlocks ((numRequiredBlocks : ℤ) - blocks.length)
    pure ((new, g.setBlocks r (blocks ++ new)), p)

/-- `cache_blocks`. -/
def cacheBlocks (request : KvRequest H) (numTokens : ℕ) (g : SingleTypeKVCacheManager)
    (p : BlockPool H) : Except VllmErr (SingleTypeKVCacheManager × BlockPool H) :=
  let numCachedBlocks := g.cachedOf request.requestId
  let numFullBlocks := numTokens / g.spec.blockSize
  if numFullBlocks ≤ numCachedBlocks then .ok (g, p)
  else do
    let blocks := g.blocksOf request.requestId
    let p ← p.cacheFullBlocks request blocks numCachedBlocks numFullBlocks g.spec.blockSize
      g.kvCacheGroupId
    pure ((g.setBlocks request.requestId blocks).setCached request.requestId numFullBlocks, p)

end Methods

/-- The manager without a request. -/
def without (g : SingleTypeKVCacheManager) (r : String) : SingleTypeKVCacheManager :=
  { g with
    reqToBlocks := g.reqToBlocks.erase r
    numCachedBlock := g.numCachedBlock.erase r }

/-- `free`: the last blocks first. -/
def free (r : String) (g : SingleTypeKVCacheManager) (p : BlockPool H) :
    Except VllmErr (SingleTypeKVCacheManager × BlockPool H) := do
  let p ← p.freeBlocks (g.blocksOf r).reverse
  pure (g.without r, p)

/-- The loop of `remove_skipped_blocks`: from the right, until a null block; the blocks that are
left and those that are removed. -/
def skipLoop (null : ℕ) : List ℕ → ℕ → List ℕ × List ℕ
  | blocks, 0 => (blocks, [])
  | blocks, i + 1 =>
    match blocks[i]? with
    | none => (blocks, [])
    | some b =>
      if b = null then (blocks, [])
      else
        let (blocks, removed) := skipLoop null (blocks.set i null) i
        (blocks, b :: removed)

/-- `remove_skipped_blocks`. -/
def removeSkippedBlocks (r : String) (totalComputedTokens : ℕ) (g : SingleTypeKVCacheManager)
    (p : BlockPool H) : Except VllmErr (SingleTypeKVCacheManager × BlockPool H) :=
  if g.spec.getNumSkippedTokens totalComputedTokens = 0 then .ok (g, p)
  else do
    let blocks := g.blocksOf r
    let (blocks, removed) := skipLoop p.nullBlock blocks
      (min (g.numSkippedBlocks totalComputedTokens) blocks.length)
    let p ← p.freeBlocks removed
    pure (g.setBlocks r blocks, p)

end SingleTypeKVCacheManager

/-- The configuration of the manager. -/
structure KVCacheConfig where
  numBlocks : ℕ
  kvCacheGroups : List KVCacheSpec
  maxModelLen : ℕ
  hashBlockSize : ℕ
  enableCaching : Bool
  useEagle : Bool
  hashBlockSize_pos : 0 < hashBlockSize

/-- `KVCacheManager` with its coordinator. -/
structure KVCacheManager (H : Type) where
  maxModelLen : ℕ
  useEagle : Bool
  /-- `block_pool`. -/
  pool : BlockPool H
  /-- `single_type_managers`. -/
  managers : List SingleTypeKVCacheManager

namespace KVCacheManager

variable {H : Type}

/-- What the constructors of the coordinators assert: with caching, one group has the size of the
hash blocks, and several have multiples of it and differ in their specs. -/
def configOk (cfg : KVCacheConfig) : Bool :=
  !cfg.enableCaching ||
    match cfg.kvCacheGroups with
    | [spec] => spec.blockSize = cfg.hashBlockSize
    | specs => specs.all (fun spec => spec.blockSize % cfg.hashBlockSize = 0) &&
        1 < (splitKvCacheGroups specs).length

/-- `__init__`. -/
def new (cfg : KVCacheConfig) : Except VllmErr (KVCacheManager H) := do
  let pool ← BlockPool.new cfg.numBlocks cfg.enableCaching cfg.hashBlockSize
  if configOk cfg then
    pure
      { maxModelLen := cfg.maxModelLen
        useEagle := cfg.useEagle
        pool := pool
        managers := cfg.kvCacheGroups.mapIdx fun i spec => ⟨spec, i, ∅, ∅⟩ }
  else throw .assertionError

/-- `enable_caching`. -/
def enableCaching (m : KVCacheManager H) : Bool := m.pool.enableCaching

/-- The specs of the groups. -/
def specs (m : KVCacheManager H) : List KVCacheSpec := m.managers.map (·.spec)

/-- `empty_kv_cache_blocks`. -/
def emptyKvCacheBlocks (m : KVCacheManager H) : List (List ℕ) := m.managers.map fun _ => []

/-- The manager after a call of a method of every group's manager. -/
def forManagers (f : SingleTypeKVCacheManager → BlockPool H →
    Except VllmErr (SingleTypeKVCacheManager × BlockPool H)) (m : KVCacheManager H) :
    Except VllmErr (KVCacheManager H) := do
  let (managers, pool) ← thread f m.managers m.pool
  pure { m with managers := managers, pool := pool }

/-- `get_computed_blocks`. -/
def getComputedBlocks (m : KVCacheManager H) (request : KvRequest H) :
    Except VllmErr (List (List ℕ) × ℕ) :=
  if m.enableCaching = false ∨ request.skipReadingPrefixCache = true then
    .ok (m.emptyKvCacheBlocks, 0)
  else m.pool.coordinatorHit m.specs m.useEagle request.blockHashes (request.numTokens - 1)

/-- `remove_skipped_blocks`. -/
def removeSkippedBlocks (r : String) (totalComputedTokens : ℕ) (m : KVCacheManager H) :
    Except VllmErr (KVCacheManager H) :=
  m.forManagers (SingleTypeKVCacheManager.removeSkippedBlocks r totalComputedTokens)

/-- `get_num_blocks_to_allocate`. -/
def getNumBlocksToAllocate (m : KVCacheManager H) (r : String) (numTokens : ℕ)
    (newComputedBlocks : List (List ℕ)) (totalComputedTokens : ℕ) : Except VllmErr ℕ :=
  m.managers.foldlM (fun n g =>
    match newComputedBlocks[g.kvCacheGroupId]? with
    | none => .error .indexError
    | some blocks => do
      let k ← g.getNumBlocksToAllocate m.pool r numTokens blocks totalComputedTokens
      pure (n + k)) 0

/-- `free`. -/
def free (r : String) (m : KVCacheManager H) : Except VllmErr (KVCacheManager H) :=
  m.forManagers (SingleTypeKVCacheManager.free r)

/-- `reset_prefix_cache`. -/
def resetPrefixCache (m : KVCacheManager H) : Bool × KVCacheManager H :=
  (m.pool.resetPrefixCache.1, { m with pool := m.pool.resetPrefixCache.2 })

section Methods

variable [DecidableEq H]

/-- `allocate_new_computed_blocks` of the coordinator. -/
def allocateNewComputedBlocks (r : String) (newComputedBlocks : List (List ℕ))
    (numLocalComputedTokens numExternalComputedTokens : ℕ) (m : KVCacheManager H) :
    Except VllmErr (KVCacheManager H) :=
  m.forManagers fun g p =>
    match newComputedBlocks[g.kvCacheGroupId]? with
    | none => .error .indexError
    | some blocks => g.allocateNewComputedBlocks r blocks numLocalComputedTokens
        numExternalComputedTokens p

/-- `allocate_new_blocks` of the coordinator. -/
def allocateNewBlocks (r : String) (numTokens : ℕ) (m : KVCacheManager H) :
    Except VllmErr (List (List ℕ) × KVCacheManager H) := do
  let (res, pool) ← thread (SingleTypeKVCacheManager.allocateNewBlocks r numTokens) m.managers m.pool
  pure (res.map Prod.fst, { m with managers := res.map Prod.snd, pool := pool })

/-- `cache_blocks` of the coordinator. -/
def cacheAll (request : KvRequest H) (numTokens : ℕ) (m : KVCacheManager H) :
    Except VllmErr (KVCacheManager H) :=
  m.forManagers (SingleTypeKVCacheManager.cacheBlocks request numTokens)

/-- `cache_blocks`. -/
def cacheBlocks (request : KvRequest H) (numTokens : ℕ) (m : KVCacheManager H) :
    Except VllmErr (KVCacheManager H) :=
  if m.enableCaching then m.cacheAll request numTokens else .ok m

/-- The arguments of `allocate_slots` besides the request. -/
structure SlotArgs where
  numNewTokens : ℕ
  numNewComputedTokens : ℕ
  newComputedBlocks : List (List ℕ)
  numLookaheadTokens : ℕ
  numExternalComputedTokens : ℕ
  delayCacheBlocks : Bool

/-- `num_local_computed_tokens`. -/
def SlotArgs.localTokens (a : SlotArgs) (request : KvRequest H) : ℕ :=
  request.numComputedTokens + a.numNewComputedTokens

/-- `total_computed_tokens`. -/
def totalComputedTokens (m : KVCacheManager H) (request : KvRequest H) (a : SlotArgs) : ℕ :=
  min (a.localTokens request + a.numExternalComputedTokens) m.maxModelLen

/-- `num_tokens_need_slot`. -/
def numTokensNeedSlot (m : KVCacheManager H) (request : KvRequest H) (a : SlotArgs) : ℕ :=
  min (m.totalComputedTokens request a + a.numNewTokens + a.numLookaheadTokens) m.maxModelLen

/-- The number of blocks `allocate_slots` checks for. -/
def numBlocksToAllocate (m : KVCacheManager H) (request : KvRequest H) (a : SlotArgs) :
    Except VllmErr ℕ :=
  m.getNumBlocksToAllocate request.requestId (m.numTokensNeedSlot request a) a.newComputedBlocks
    (a.localTokens request + a.numExternalComputedTokens)

/-- `num_tokens_to_cache`. -/
def numTokensToCache (m : KVCacheManager H) (request : KvRequest H) (a : SlotArgs) : ℕ :=
  min (m.totalComputedTokens request a + a.numNewTokens) request.numTokens

/-- The last part of `allocate_slots`: the new blocks, and storing the full ones. -/
def fillSlots (request : KvRequest H) (a : SlotArgs) (m : KVCacheManager H) :
    Except VllmErr (List (List ℕ) × KVCacheManager H) := do
  let (newBlocks, m) ← m.allocateNewBlocks request.requestId (m.numTokensNeedSlot request a)
  if m.enableCaching = false ∨ a.delayCacheBlocks = true then pure (newBlocks, m)
  else do
    let m ← m.cacheAll request (m.numTokensToCache request a)
    pure (newBlocks, m)

/-- The part of `allocate_slots` before: the hits are taken over, if there are any. -/
def takeOverHits (request : KvRequest H) (a : SlotArgs) (m : KVCacheManager H) :
    Except VllmErr (KVCacheManager H) :=
  if a.newComputedBlocks.any (· ≠ []) ∨ 0 < a.numExternalComputedTokens then
    m.allocateNewComputedBlocks request.requestId a.newComputedBlocks (a.localTokens request)
      a.numExternalComputedTokens
  else .ok m

/-- What `allocate_slots` does once it has found enough free blocks. -/
def takeSlots (request : KvRequest H) (a : SlotArgs) (m : KVCacheManager H) :
    Except VllmErr (List (List ℕ) × KVCacheManager H) := do
  let m ← m.takeOverHits request a
  m.fillSlots request a

/-- `allocate_slots`: the new blocks of every group, or nothing. -/
def allocateSlots (request : KvRequest H) (a : SlotArgs) (m : KVCacheManager H) :
    Except VllmErr (Option (List (List ℕ)) × KVCacheManager H) :=
  if a.numNewTokens = 0 ∧ a.numExternalComputedTokens = 0 then .error .valueError
  else do
    let m ← m.removeSkippedBlocks request.requestId (m.totalComputedTokens request a)
    let n ← m.numBlocksToAllocate request a
    if m.pool.getNumFreeBlocks < n then pure (none, m)
    else do
      let (newBlocks, m) ← m.takeSlots request a
      pure (some newBlocks, m)

end Methods

end KVCacheManager

end CacheFlow
