import Mathlib.Data.List.Perm.Basic
import Mathlib.Data.List.Perm.Subperm
import Mathlib.Tactic.Ring
import CacheFlow.Vllm.FreeQueue

/-!
# The block pool

`BlockPool` hands out KV-cache blocks, counts their references, and remembers under which
hash a full block can be found again. A free block keeps its hash until it is handed out.

The invariant is relative to the list of all blocks that requests hold: a block is counted as
often as it is held, it is in the queue exactly when it is not held, and it has a hash exactly
when it is stored under this hash. Block `0` is the null block, a placeholder that is neither
counted nor queued nor stored.

## Main definitions

* `BlockPool.Inv p held l` — the invariant, with the held blocks and the queue.

## Main results

* `BlockPool.Inv.touch`, `BlockPool.Inv.freeBlocks`, `BlockPool.Inv.getNewBlocks`, … — each method
  keeps it and raises nothing.
-/

namespace CacheFlow

open List Function FreeKVCacheBlockQueue

/-- `BlockHashWithGroupId`: the hash of a block and the id of its group. The hash of a block of
several hash blocks is the concatenation of theirs; hashes have one length, so it is kept as
their list. -/
abbrev BlockKey (H : Type) : Type := List H × ℕ

/-- `KVCacheBlock`; its links are in the queue. -/
structure KVCacheBlock (H : Type) where
  refCnt : ℤ := 0
  blockHash : Option (BlockKey H) := none
  isNull : Bool := false

/-- What the block manager reads of a request. -/
structure KvRequest (H : Type) where
  requestId : String
  numTokens : ℕ
  numComputedTokens : ℕ
  blockHashes : List H
  skipReadingPrefixCache : Bool
  /-- Its hashes are distinct: each is the hash of a longer prefix. -/
  nodup : blockHashes.Nodup

/-- `BlockHashListWithBlockSize`: the hashes at `k` times the block size. -/
def regroup {H : Type} (hashes : List H) (k : ℕ) : List (List H) :=
  (List.range (hashes.length / k)).map fun i => (hashes.drop (i * k)).take k

/-- The hashes of a request at a block size. -/
def hashesAt {H : Type} (hashes : List H) (hashBlockSize blockSize : ℕ) :
    Except VllmErr (List (List H)) :=
  if blockSize = hashBlockSize then .ok (hashes.map fun h => [h])
  else if blockSize % hashBlockSize = 0 then .ok (regroup hashes (blockSize / hashBlockSize))
  else .error .assertionError

/-- `BlockPool`. -/
structure BlockPool (H : Type) where
  numGpuBlocks : ℕ
  enableCaching : Bool
  hashBlockSize : ℕ
  /-- `blocks`, by their ids. -/
  blocks : ℕ → KVCacheBlock H
  freeBlockQueue : FreeKVCacheBlockQueue
  /-- `cached_block_hash_to_block`: the blocks stored under a hash, in the order they were
  inserted in; none if the hash is not a key. -/
  cachedBlockHashToBlock : BlockKey H → List ℕ
  nullBlock : ℕ

namespace BlockPool

variable {H : Type}

/-- The pool with the metadata of one block changed. -/
def modify (p : BlockPool H) (b : ℕ) (f : KVCacheBlock H → KVCacheBlock H) : BlockPool H :=
  { p with blocks := update p.blocks b (f (p.blocks b)) }

/-- The pool with `d` more references to a block. -/
def addRef (p : BlockPool H) (b : ℕ) (d : ℤ) : BlockPool H :=
  p.modify b fun blk => { blk with refCnt := blk.refCnt + d }

/-- `__init__`. -/
def new (n : ℕ) (enableCaching : Bool) (hashBlockSize : ℕ) : Except VllmErr (BlockPool H) := do
  if n = 0 then throw .assertionError
  let (null, queue) ← (FreeKVCacheBlockQueue.new n).popleft
  pure
    { numGpuBlocks := n
      enableCaching := enableCaching
      hashBlockSize := hashBlockSize
      blocks := fun b => { isNull := decide (b = null) }
      freeBlockQueue := queue
      cachedBlockHashToBlock := fun _ => []
      nullBlock := null }

/-- `get_num_free_blocks`. -/
def getNumFreeBlocks (p : BlockPool H) : ℤ := p.freeBlockQueue.numFreeBlocks

/-- `BlockHashToBlockMap.get_one_block`. -/
def getOneBlock (p : BlockPool H) (k : BlockKey H) : Option ℕ := (p.cachedBlockHashToBlock k).head?

/-- `get_cached_block`: the block of every group, if each has one. -/
def getCachedBlock (p : BlockPool H) (hash : List H) (groupIds : List ℕ) : Option (List ℕ) :=
  groupIds.mapM fun g => p.getOneBlock (hash, g)

section Methods

variable [DecidableEq H]

/-- `BlockHashToBlockMap.insert`. -/
def insert (p : BlockPool H) (k : BlockKey H) (b : ℕ) : BlockPool H :=
  { p with
    cachedBlockHashToBlock := update p.cachedBlockHashToBlock k
      (if b ∈ p.cachedBlockHashToBlock k then p.cachedBlockHashToBlock k
       else p.cachedBlockHashToBlock k ++ [b]) }

/-- `BlockHashToBlockMap.pop`, for a block that is stored under the hash. -/
def pop (p : BlockPool H) (k : BlockKey H) (b : ℕ) : BlockPool H :=
  { p with
    cachedBlockHashToBlock := update p.cachedBlockHashToBlock k
      ((p.cachedBlockHashToBlock k).erase b) }

/-- `_maybe_evict_cached_block`. -/
def maybeEvictCachedBlock (p : BlockPool H) (b : ℕ) : BlockPool H :=
  match (p.blocks b).blockHash with
  | none => p
  | some k =>
    if b ∈ p.cachedBlockHashToBlock k then
      (p.pop k b).modify b fun blk => { blk with blockHash := none }
    else p

/-- One round of the loop of `get_new_blocks`. -/
def allocated (p : BlockPool H) (b : ℕ) : Except VllmErr (BlockPool H) :=
  let p := if p.enableCaching then p.maybeEvictCachedBlock b else p
  if (p.blocks b).refCnt = 0 then .ok (p.addRef b 1) else .error .assertionError

/-- `get_new_blocks`. -/
def getNewBlocks (p : BlockPool H) (n : ℤ) : Except VllmErr (List ℕ × BlockPool H) :=
  if p.getNumFreeBlocks < n then .error .valueError
  else do
    let (ret, queue) ← p.freeBlockQueue.popleftN n
    let p ← ret.foldlM allocated { p with freeBlockQueue := queue }
    pure (ret, p)

/-- The loop of `cache_full_blocks`: the new full blocks beside their hashes. -/
def cacheLoop (groupId : ℕ) : BlockPool H → List ℕ → List (List H) → Except VllmErr (BlockPool H)
  | p, [], _ => .ok p
  | p, b :: bs, hashes =>
    if (p.blocks b).isNull then cacheLoop groupId p bs hashes.tail
    else if (p.blocks b).blockHash.isSome then .error .assertionError
    else
      match hashes with
      | [] => .error .indexError
      | h :: hashes =>
        cacheLoop groupId
          ((p.modify b fun blk => { blk with blockHash := some (h, groupId) }).insert (h, groupId) b)
          bs hashes

/-- `cache_full_blocks`. -/
def cacheFullBlocks (p : BlockPool H) (request : KvRequest H) (blocks : List ℕ)
    (numCachedBlocks numFullBlocks blockSize groupId : ℕ) : Except VllmErr (BlockPool H) :=
  if numFullBlocks ≤ numCachedBlocks then .ok p
  else if request.blockHashes.length < numFullBlocks then .error .assertionError
  else do
    let hashes ← hashesAt request.blockHashes p.hashBlockSize blockSize
    cacheLoop groupId p ((blocks.take numFullBlocks).drop numCachedBlocks)
      (hashes.drop numCachedBlocks)

end Methods

/-- One round of the loop of `touch`. -/
def touchOne (p : BlockPool H) (b : ℕ) : Except VllmErr (BlockPool H) :=
  if (p.blocks b).refCnt = 0 ∧ (p.blocks b).isNull = false then do
    let queue ← p.freeBlockQueue.remove b
    pure ({ p with freeBlockQueue := queue }.addRef b 1)
  else pure (p.addRef b 1)

/-- `touch`. -/
def touch (p : BlockPool H) (bs : List ℕ) : Except VllmErr (BlockPool H) := bs.foldlM touchOne p

/-- `free_blocks`. -/
def freeBlocks (p : BlockPool H) (bs : List ℕ) : Except VllmErr (BlockPool H) := do
  let p := bs.foldl (fun p b => p.addRef b (-1)) p
  let queue ← p.freeBlockQueue.appendN
    (bs.filter fun b => (p.blocks b).refCnt = 0 ∧ (p.blocks b).isNull = false)
  pure { p with freeBlockQueue := queue }

/-- `reset_prefix_cache`. -/
def resetPrefixCache (p : BlockPool H) : Bool × BlockPool H :=
  if p.numGpuBlocks - p.getNumFreeBlocks ≠ 1 then (false, p)
  else
    (true,
      { p with
        cachedBlockHashToBlock := fun _ => []
        blocks := fun b => { p.blocks b with blockHash := none } })

/-! ### What a change to one block changes -/

theorem modify_blocks (p : BlockPool H) (b c : ℕ) (f : KVCacheBlock H → KVCacheBlock H) :
    (p.modify b f).blocks c = if c = b then f (p.blocks b) else p.blocks c :=
  update_apply ..

/-- What stays fixed for the lifetime of a pool. -/
structure Same (p p' : BlockPool H) : Prop where
  numGpuBlocks : p'.numGpuBlocks = p.numGpuBlocks
  enableCaching : p'.enableCaching = p.enableCaching
  hashBlockSize : p'.hashBlockSize = p.hashBlockSize
  nullBlock : p'.nullBlock = p.nullBlock

theorem Same.refl (p : BlockPool H) : Same p p := ⟨rfl, rfl, rfl, rfl⟩

theorem Same.trans {p p' p'' : BlockPool H} (h : Same p p') (h' : Same p' p'') : Same p p'' :=
  ⟨h'.numGpuBlocks.trans h.numGpuBlocks, h'.enableCaching.trans h.enableCaching,
    h'.hashBlockSize.trans h.hashBlockSize, h'.nullBlock.trans h.nullBlock⟩

/-- The hashes of the blocks, and what is stored under them. -/
structure SameHashes (p p' : BlockPool H) : Prop where
  blockHash : ∀ b, (p'.blocks b).blockHash = (p.blocks b).blockHash
  cached : p'.cachedBlockHashToBlock = p.cachedBlockHashToBlock

theorem SameHashes.trans {p p' p'' : BlockPool H} (h : SameHashes p p') (h' : SameHashes p' p'') :
    SameHashes p p'' :=
  ⟨fun b => (h'.blockHash b).trans (h.blockHash b), h'.cached.trans h.cached⟩

/-! ### The invariant -/

/-- The blocks and the hashes agree. -/
structure HashInv (p : BlockPool H) : Prop where
  /-- A block has a hash exactly when it is stored under it. -/
  hash_iff : ∀ b k, (p.blocks b).blockHash = some k ↔ b ∈ p.cachedBlockHashToBlock k
  nodup : ∀ k, (p.cachedBlockHashToBlock k).Nodup
  lt : ∀ b, (p.blocks b).blockHash ≠ none → b < p.numGpuBlocks
  null : (p.blocks p.nullBlock).blockHash = none
  off : p.enableCaching = false → ∀ b, (p.blocks b).blockHash = none

/-- The references and the queue agree with the blocks that are held. -/
structure RefInv (p : BlockPool H) (held l : List ℕ) : Prop where
  queue : p.freeBlockQueue.Holds l
  /-- These are the blocks without references, apart from the null block. -/
  mem_iff : ∀ b, b ∈ l ↔ b < p.numGpuBlocks ∧ b ≠ p.nullBlock ∧ (p.blocks b).refCnt = 0
  refCnt : ∀ b, b ≠ p.nullBlock → (p.blocks b).refCnt = held.count b
  lt : ∀ b ∈ held, b < p.numGpuBlocks
  isNull : ∀ b, (p.blocks b).isNull = true ↔ b = p.nullBlock
  null_lt : p.nullBlock < p.numGpuBlocks

/-- The invariant of the pool. -/
structure Inv (p : BlockPool H) (held l : List ℕ) : Prop where
  ref : p.RefInv held l
  hash : p.HashInv

variable {p p' : BlockPool H} {held held' rest l bs : List ℕ} {b : ℕ} {k : BlockKey H}

/-- What is held matters only by how often; the null block does not matter. -/
theorem Inv.of_count (h : p.Inv held l)
    (hcount : ∀ b, b ≠ p.nullBlock → held'.count b = held.count b) : p.Inv held' l := by
  refine ⟨{ h.ref with
    refCnt := fun b hb => (h.ref.refCnt b hb).trans (by rw [hcount b hb])
    lt := fun b hb => ?_ }, h.hash⟩
  by_cases hnull : b = p.nullBlock
  · exact hnull ▸ h.ref.null_lt
  · refine h.ref.lt b (count_pos_iff.mp ?_)
    rw [← hcount b hnull]
    exact count_pos_iff.mpr hb

theorem Inv.perm (h : p.Inv held l) (hperm : held.Perm held') : p.Inv held' l :=
  h.of_count fun _ _ => hperm.symm.count_eq _

theorem SameHashes.inv (hs : SameHashes p p') (hsame : Same p p') (h : p.HashInv) : p'.HashInv where
  hash_iff := fun b k => by rw [hs.blockHash, hs.cached]; exact h.hash_iff b k
  nodup := fun k => by rw [hs.cached]; exact h.nodup k
  lt := fun b hb => by rw [hsame.numGpuBlocks]; exact h.lt b (by rwa [← hs.blockHash])
  null := by rw [hsame.nullBlock, hs.blockHash]; exact h.null
  off := fun hoff b => by rw [hs.blockHash]; exact h.off (hsame.enableCaching ▸ hoff) b

theorem RefInv.not_mem_of_mem (h : p.RefInv held l) (hb : b ∈ l) : b ∉ held := by
  obtain ⟨-, hne, hzero⟩ := (h.mem_iff b).mp hb
  rw [h.refCnt b hne] at hzero
  exact count_eq_zero.mp (by omega)

theorem RefInv.mem_of_not_mem (h : p.RefInv held l) (hlt : b < p.numGpuBlocks)
    (hne : b ≠ p.nullBlock) (hb : b ∉ held) : b ∈ l := by
  refine (h.mem_iff b).mpr ⟨hlt, hne, ?_⟩
  rw [h.refCnt b hne, count_eq_zero.mpr hb]
  rfl

theorem RefInv.isNull_eq_false_iff (h : p.RefInv held l) :
    (p.blocks b).isNull = false ↔ b ≠ p.nullBlock := by
  rw [← Bool.not_eq_true, h.isNull]

/-! ### A new pool -/

/-- A new pool: every block but the null block is in the queue. -/
theorem new_returns {n hashBlockSize : ℕ} {caching : Bool} (hn : 0 < n) :
    Returns (new n caching hashBlockSize : Except VllmErr (BlockPool H)) fun p =>
      (∃ l, p.Inv [] l) ∧ p.numGpuBlocks = n ∧ p.enableCaching = caching ∧
        p.hashBlockSize = hashBlockSize := by
  obtain ⟨n, rfl⟩ := Nat.exists_eq_succ_of_ne_zero hn.ne'
  have hqueue := holds_new (n + 1)
  rw [range_succ_eq_map] at hqueue
  unfold new
  rw [if_neg hn.ne']
  simp only [returns_bind]
  refine (popleft_returns hqueue).mono ?_
  rintro ⟨null, queue⟩ ⟨rfl, hholds, -⟩
  refine returns_pure.mpr ⟨⟨_, ⟨⟨hholds, fun b => ?_, fun _ _ => rfl, by simp, fun b => ?_, hn⟩,
    ⟨fun b k => by simp, fun _ => nodup_nil, fun b hb => absurd rfl hb, rfl, fun _ _ => rfl⟩⟩⟩,
    rfl, rfl, rfl⟩
  · cases b with
    | zero => simp
    | succ b => simp
  · exact decide_eq_true_iff

/-! ### Touching and freeing blocks -/

section

variable (p : BlockPool H) (b c : ℕ) (d : ℤ)

theorem addRef_refCnt :
    ((p.addRef b d).blocks c).refCnt = (p.blocks c).refCnt + if c = b then d else 0 := by
  rw [addRef, modify_blocks]
  by_cases hcb : c = b
  · rw [if_pos hcb, if_pos hcb, hcb]
  · rw [if_neg hcb, if_neg hcb, add_zero]

@[simp] theorem addRef_isNull : ((p.addRef b d).blocks c).isNull = (p.blocks c).isNull := by
  rw [addRef, modify_blocks]
  by_cases hcb : c = b
  · rw [if_pos hcb, hcb]
  · rw [if_neg hcb]

@[simp] theorem addRef_blockHash :
    ((p.addRef b d).blocks c).blockHash = (p.blocks c).blockHash := by
  rw [addRef, modify_blocks]
  by_cases hcb : c = b
  · rw [if_pos hcb, hcb]
  · rw [if_neg hcb]

end

/-- A pool whose counts and queue are those of what is held. -/
theorem RefInv.of_counts (h : p.RefInv held l) {l' : List ℕ} (hsame : Same p p')
    (hqueue : p'.freeBlockQueue.Holds l')
    (hnull : ∀ c, (p'.blocks c).isNull = (p.blocks c).isNull)
    (hcount : ∀ c, c ≠ p.nullBlock → (p'.blocks c).refCnt = held'.count c)
    (hlt : ∀ c ∈ held', c < p.numGpuBlocks)
    (hmem : ∀ c, c ∈ l' ↔ c < p.numGpuBlocks ∧ c ≠ p.nullBlock ∧ c ∉ held') :
    p'.RefInv held' l' := by
  obtain ⟨hn, -, -, hnb⟩ := hsame
  refine ⟨hqueue, fun c => ?_, fun c hc => hcount c (hnb ▸ hc), fun c hc => hn ▸ hlt c hc,
    fun c => ?_, ?_⟩
  · rw [hmem, hn, hnb]
    refine and_congr_right fun _ => and_congr_right fun hc => ?_
    rw [hcount c hc, Int.natCast_eq_zero, count_eq_zero]
  · rw [hnull, hnb]
    exact h.isNull c
  · rw [hn, hnb]
    exact h.null_lt

theorem RefInv.touchOne (h : p.RefInv held l) (hb : b < p.numGpuBlocks) :
    Returns (p.touchOne b) fun p' =>
      p'.RefInv (b :: held) (l.erase b) ∧ Same p p' ∧ SameHashes p p' := by
  have hlt : ∀ c ∈ b :: held, c < p.numGpuBlocks := by
    intro c hc
    rcases mem_cons.mp hc with rfl | hc
    · exact hb
    · exact h.lt c hc
  have hcount : ∀ queue c, c ≠ p.nullBlock →
      (({ p with freeBlockQueue := queue }.addRef b 1).blocks c).refCnt
        = ((b :: held).count c : ℤ) := by
    intro queue c hc
    rw [addRef_refCnt, h.refCnt c hc, count_cons]
    by_cases hcb : c = b
    · simp [hcb]
    · simp [hcb, Ne.symm hcb]
  have hmem : ∀ c, c ∈ l.erase b ↔ c < p.numGpuBlocks ∧ c ≠ p.nullBlock ∧ c ∉ b :: held := by
    intro c
    rw [h.queue.nodup.mem_erase_iff, mem_cons, not_or]
    constructor
    · rintro ⟨hcb, hc⟩
      exact ⟨((h.mem_iff c).mp hc).1, ((h.mem_iff c).mp hc).2.1, hcb, h.not_mem_of_mem hc⟩
    · rintro ⟨hlt, hne, hcb, hc⟩
      exact ⟨hcb, h.mem_of_not_mem hlt hne hc⟩
  have hgoal : ∀ queue, queue.Holds (l.erase b) →
      ({ p with freeBlockQueue := queue }.addRef b 1).RefInv (b :: held) (l.erase b) ∧
        Same p ({ p with freeBlockQueue := queue }.addRef b 1) ∧
        SameHashes p ({ p with freeBlockQueue := queue }.addRef b 1) :=
    fun queue hqueue => ⟨h.of_counts ⟨rfl, rfl, rfl, rfl⟩ hqueue
      (addRef_isNull { p with freeBlockQueue := queue } b · 1) (hcount queue) hlt hmem,
      ⟨rfl, rfl, rfl, rfl⟩, (addRef_blockHash { p with freeBlockQueue := queue } b · 1), rfl⟩
  unfold BlockPool.touchOne
  split_ifs with hfree
  · -- the block is in the queue
    have hbl : b ∈ l := (h.mem_iff b).mpr ⟨hb, h.isNull_eq_false_iff.mp hfree.2, hfree.1⟩
    rw [returns_bind]
    refine (remove_returns h.queue hbl).mono fun queue hqueue => ?_
    exact returns_pure.mpr (hgoal queue hqueue.1)
  · have hbl : b ∉ l := by
      intro hbl
      obtain ⟨-, hne, hzero⟩ := (h.mem_iff b).mp hbl
      exact hfree ⟨hzero, h.isNull_eq_false_iff.mpr hne⟩
    have hqueue : p.freeBlockQueue.Holds (l.erase b) := by
      rw [erase_of_not_mem hbl]
      exact h.queue
    exact returns_pure.mpr (hgoal p.freeBlockQueue hqueue)

/-- **Touching** blocks: they are held once more, and leave the queue. -/
theorem Inv.touch (h : p.Inv held l) (hbs : ∀ b ∈ bs, b < p.numGpuBlocks) :
    Returns (p.touch bs) fun p' =>
      p'.Inv (bs ++ held) (l.filter fun b => b ∉ bs) ∧ Same p p' ∧ SameHashes p p' := by
  refine (returns_foldlM (I := fun done s =>
    s.RefInv (done ++ held) (l.filter fun b => b ∉ done) ∧ Same p s ∧ SameHashes p s) bs p
    ?_ ?_).mono ?_
  · rintro done b todo s rfl ⟨href, hsame, hhash⟩
    have hb : b < s.numGpuBlocks := by
      rw [hsame.numGpuBlocks]
      exact hbs b (by simp)
    refine (href.touchOne hb).mono fun s' hs' => ⟨?_, hsame.trans hs'.2.1, ?_⟩
    · have herase : (l.filter fun c => c ∉ done).erase b = l.filter fun c => c ∉ done ++ [b] := by
        rw [href.queue.nodup.erase_eq_filter, filter_filter]
        refine filter_congr fun c _ => ?_
        by_cases hcb : c = b <;> simp [hcb]
      rw [← herase]
      have hperm : (b :: (done ++ held)).Perm (done ++ [b] ++ held) := by
        rw [append_assoc, singleton_append]
        exact perm_middle.symm
      exact { hs'.1 with
        refCnt := fun c hc => (hs'.1.refCnt c hc).trans (by rw [hperm.count_eq])
        lt := fun c hc => hs'.1.lt c (hperm.mem_iff.mpr hc) }
    · exact hhash.trans hs'.2.2
  · exact ⟨by simpa using h.ref, Same.refl p, ⟨fun _ => rfl, rfl⟩⟩
  · rintro p' ⟨href, hsame, hhash⟩
    exact ⟨⟨href, hhash.inv hsame h.hash⟩, hsame, hhash⟩

/-- The first loop of `free_blocks` takes one reference away for every occurrence. -/
theorem addRefs_spec (bs : List ℕ) (p : BlockPool H) :
    (∀ c, ((bs.foldl (fun p b => p.addRef b (-1)) p).blocks c).refCnt
      = (p.blocks c).refCnt - bs.count c) ∧
    (∀ c, ((bs.foldl (fun p b => p.addRef b (-1)) p).blocks c).isNull = (p.blocks c).isNull) ∧
    (bs.foldl (fun p b => p.addRef b (-1)) p).freeBlockQueue = p.freeBlockQueue ∧
    Same p (bs.foldl (fun p b => p.addRef b (-1)) p) ∧
    SameHashes p (bs.foldl (fun p b => p.addRef b (-1)) p) := by
  induction bs generalizing p with
  | nil => exact ⟨fun c => by simp, fun _ => rfl, rfl, Same.refl p, fun _ => rfl, rfl⟩
  | cons b bs ih =>
    obtain ⟨href, hnull, hqueue, hsame, hhash, hcached⟩ := ih (p.addRef b (-1))
    refine ⟨fun c => ?_, fun c => ?_, hqueue, ⟨hsame.1, hsame.2, hsame.3, hsame.4⟩, fun c => ?_,
      hcached⟩
    · rw [foldl_cons, href, addRef_refCnt, count_cons]
      by_cases hcb : c = b
      · simp [hcb]
        ring
      · simp [hcb, Ne.symm hcb]
    · rw [foldl_cons, hnull, addRef_isNull]
    · rw [foldl_cons, hhash, addRef_blockHash]

/-- **Freeing** blocks that are held: those nobody else holds go to the end of the queue. A block
may be freed once in one call. -/
theorem Inv.freeBlocks (h : p.Inv held l) (hperm : held.Perm (bs ++ rest))
    (hnd : (bs.filter (· ≠ p.nullBlock)).Nodup) :
    Returns (p.freeBlocks bs) fun p' =>
      p'.Inv rest (l ++ bs.filter fun b => b ≠ p.nullBlock ∧ b ∉ rest) ∧ Same p p' ∧
        SameHashes p p' := by
  obtain ⟨href, hnull, hqueue, hsame, hhash⟩ := addRefs_spec bs p
  have hcount : ∀ c, c ≠ p.nullBlock →
      ((bs.foldl (fun p b => p.addRef b (-1)) p).blocks c).refCnt = rest.count c := by
    intro c hc
    rw [href, h.ref.refCnt c hc, hperm.count_eq, count_append]
    omega
  have hfilter : (bs.filter fun b =>
      ((bs.foldl (fun p b => p.addRef b (-1)) p).blocks b).refCnt = 0 ∧
        ((bs.foldl (fun p b => p.addRef b (-1)) p).blocks b).isNull = false)
      = bs.filter fun b => b ≠ p.nullBlock ∧ b ∉ rest := by
    refine filter_congr fun c _ => decide_eq_decide.mpr ?_
    rw [hnull, h.ref.isNull_eq_false_iff, and_comm]
    refine and_congr_right fun hc => ?_
    rw [hcount c hc, Int.natCast_eq_zero, count_eq_zero]
  have hqueued : (l ++ bs.filter fun b => b ≠ p.nullBlock ∧ b ∉ rest).Nodup := by
    refine nodup_append.mpr ⟨h.ref.queue.nodup, ?_, fun c hc d hd => ?_⟩
    · refine hnd.sublist (monotone_filter_right bs fun c hc => ?_)
      simp only [decide_eq_true_eq] at hc ⊢
      exact hc.1
    · -- what is in the queue is not held
      rintro rfl
      refine h.ref.not_mem_of_mem hc (hperm.mem_iff.mpr ?_)
      exact mem_append_left rest (mem_filter.mp hd).1
  have hmem : ∀ c, (c ∈ l ++ bs.filter fun b => b ≠ p.nullBlock ∧ b ∉ rest) ↔
      c < p.numGpuBlocks ∧ c ≠ p.nullBlock ∧ c ∉ rest := by
    intro c
    simp only [mem_append, mem_filter, decide_eq_true_eq]
    constructor
    · rintro (hc | ⟨hc, hne, hrest⟩)
      · have hfree := (h.ref.mem_iff c).mp hc
        refine ⟨hfree.1, hfree.2.1, fun hrest => h.ref.not_mem_of_mem hc ?_⟩
        exact hperm.mem_iff.mpr (mem_append_right bs hrest)
      · exact ⟨h.ref.lt c (hperm.mem_iff.mpr (mem_append_left rest hc)), hne, hrest⟩
    · rintro ⟨hlt, hne, hrest⟩
      by_cases hc : c ∈ bs
      · exact Or.inr ⟨hc, hne, hrest⟩
      · refine Or.inl (h.ref.mem_of_not_mem hlt hne fun hheld => ?_)
        rcases mem_append.mp (hperm.mem_iff.mp hheld) with hc' | hc'
        · exact hc hc'
        · exact hrest hc'
  unfold BlockPool.freeBlocks
  rw [returns_bind, hfilter, hqueue]
  refine (appendN_returns h.ref.queue hqueued).mono ?_
  rintro queue ⟨hholds, -⟩
  have hlt : ∀ c ∈ rest, c < p.numGpuBlocks := fun c hc =>
    h.ref.lt c (hperm.mem_iff.mpr (mem_append_right bs hc))
  have hsame' : Same p { bs.foldl (fun p b => p.addRef b (-1)) p with freeBlockQueue := queue } :=
    ⟨hsame.1, hsame.2, hsame.3, hsame.4⟩
  have hhash' : SameHashes p
      { bs.foldl (fun p b => p.addRef b (-1)) p with freeBlockQueue := queue } :=
    ⟨hhash.1, hhash.2⟩
  exact returns_pure.mpr ⟨⟨h.ref.of_counts hsame' hholds hnull hcount hlt hmem,
    hhash'.inv hsame' h.hash⟩, hsame', hhash'⟩

/-! ### Handing out blocks -/

/-- The references and the queue are untouched. -/
structure SameRefs (p p' : BlockPool H) : Prop where
  refCnt : ∀ b, (p'.blocks b).refCnt = (p.blocks b).refCnt
  isNull : ∀ b, (p'.blocks b).isNull = (p.blocks b).isNull
  queue : p'.freeBlockQueue = p.freeBlockQueue

theorem SameRefs.inv (hs : SameRefs p p') (hsame : Same p p') (h : p.RefInv held l) :
    p'.RefInv held l := by
  refine h.of_counts hsame (hs.queue ▸ h.queue) hs.isNull ?_ h.lt fun c => ?_
  · intro c hc
    rw [hs.refCnt]
    exact h.refCnt c hc
  · constructor
    · exact fun hc => ⟨((h.mem_iff c).mp hc).1, ((h.mem_iff c).mp hc).2.1, h.not_mem_of_mem hc⟩
    · exact fun ⟨hlt, hne, hc⟩ => h.mem_of_not_mem hlt hne hc

theorem setHash_spec (p : BlockPool H) (b : ℕ) (o : Option (BlockKey H)) :
    (∀ c, ((p.modify b fun blk => { blk with blockHash := o }).blocks c).blockHash
      = if c = b then o else (p.blocks c).blockHash) ∧
    SameRefs p (p.modify b fun blk => { blk with blockHash := o }) := by
  refine ⟨fun c => ?_, fun c => ?_, fun c => ?_, rfl⟩
  all_goals
    rw [modify_blocks]
    by_cases hcb : c = b
    · simp [hcb]
    · simp [hcb]

section Hashed

variable [DecidableEq H]

/-- A block has a hash exactly when it is stored under it, once. -/
def Stored (p : BlockPool H) : Prop :=
  (∀ b k, (p.blocks b).blockHash = some k ↔ b ∈ p.cachedBlockHashToBlock k) ∧
    ∀ k, (p.cachedBlockHashToBlock k).Nodup

theorem Stored.evict (h : p.Stored) (b : ℕ) :
    (p.maybeEvictCachedBlock b).Stored ∧
    (∀ c, ((p.maybeEvictCachedBlock b).blocks c).blockHash
      = if c = b then none else (p.blocks c).blockHash) ∧
    SameRefs p (p.maybeEvictCachedBlock b) ∧ Same p (p.maybeEvictCachedBlock b) := by
  unfold maybeEvictCachedBlock
  cases hhash : (p.blocks b).blockHash with
  | none =>
    refine ⟨h, fun c => ?_, ⟨fun _ => rfl, fun _ => rfl, rfl⟩, Same.refl p⟩
    by_cases hcb : c = b
    · rw [if_pos hcb, hcb, hhash]
    · rw [if_neg hcb]
  | some k =>
    dsimp only
    -- a block with a hash is stored under it
    rw [if_pos ((h.1 b k).mp hhash)]
    obtain ⟨hnew, hrefs⟩ := setHash_spec (p.pop k b) b none
    replace hnew : ∀ c, _ = if c = b then none else (p.blocks c).blockHash := hnew
    have hcached : ∀ c k', c ∈ (p.pop k b).cachedBlockHashToBlock k' ↔
        c ∈ p.cachedBlockHashToBlock k' ∧ ¬ (k' = k ∧ c = b) := by
      intro c k'
      show c ∈ update p.cachedBlockHashToBlock k _ k' ↔ _
      by_cases hk : k' = k
      · subst hk
        rw [update_self, (h.2 k').mem_erase_iff]
        tauto
      · rw [update_of_ne hk]
        tauto
    refine ⟨⟨fun c k' => ?_, fun k' => ?_⟩, hnew, ⟨hrefs.1, hrefs.2, rfl⟩, ⟨rfl, rfl, rfl, rfl⟩⟩
    · show _ ↔ c ∈ (p.pop k b).cachedBlockHashToBlock k'
      rw [hnew, hcached, ← h.1]
      by_cases hcb : c = b
      · subst hcb
        rw [if_pos rfl, hhash]
        simp [eq_comm]
      · rw [if_neg hcb]
        simp [hcb]
    · show ((update p.cachedBlockHashToBlock k _) k').Nodup
      by_cases hk : k' = k
      · subst hk
        rw [update_self]
        exact (h.2 k').erase b
      · rw [update_of_ne hk]
        exact h.2 k'

theorem HashInv.evict (h : p.HashInv) (b : ℕ) :
    (p.maybeEvictCachedBlock b).HashInv ∧
    (∀ c, ((p.maybeEvictCachedBlock b).blocks c).blockHash
      = if c = b then none else (p.blocks c).blockHash) ∧
    SameRefs p (p.maybeEvictCachedBlock b) ∧ Same p (p.maybeEvictCachedBlock b) := by
  obtain ⟨hstored, hnew, hrefs, hsame⟩ := Stored.evict ⟨h.hash_iff, h.nodup⟩ b
  refine ⟨⟨hstored.1, hstored.2, fun c hc => ?_, ?_, fun hoff c => ?_⟩, hnew, hrefs, hsame⟩
  · exact hsame.numGpuBlocks ▸ h.lt c fun hnone => hc (by rw [hnew, hnone, ite_self])
  · rw [hsame.nullBlock, hnew, h.null, ite_self]
  · rw [hnew, h.off (hsame.enableCaching ▸ hoff), ite_self]

theorem HashInv.allocated (h : p.HashInv) (hzero : (p.blocks b).refCnt = 0) :
    Returns (p.allocated b) fun p' =>
      p'.HashInv ∧
      (∀ c, (p'.blocks c).blockHash = if c = b then none else (p.blocks c).blockHash) ∧
      (∀ c, (p'.blocks c).refCnt = (p.blocks c).refCnt + if c = b then 1 else 0) ∧
      (∀ c, (p'.blocks c).isNull = (p.blocks c).isNull) ∧
      p'.freeBlockQueue = p.freeBlockQueue ∧ Same p p' := by
  -- without caching there is nothing to evict
  obtain ⟨q, hq, hinv, hhash, hrefs, hsame⟩ : ∃ q, (if p.enableCaching then
      p.maybeEvictCachedBlock b else p) = q ∧ q.HashInv ∧
      (∀ c, (q.blocks c).blockHash = if c = b then none else (p.blocks c).blockHash) ∧
      SameRefs p q ∧ Same p q := by
    cases hcaching : p.enableCaching with
    | true => exact ⟨_, rfl, h.evict b⟩
    | false =>
      refine ⟨p, rfl, h, fun c => ?_, ⟨fun _ => rfl, fun _ => rfl, rfl⟩, Same.refl p⟩
      rw [h.off hcaching, ite_self]
  unfold BlockPool.allocated
  rw [hq]
  rw [if_pos ((hrefs.refCnt b).trans hzero)]
  have hadd : SameHashes q (q.addRef b 1) := ⟨(addRef_blockHash q b · 1), rfl⟩
  refine returns_ok.mpr ⟨hadd.inv ⟨rfl, rfl, rfl, rfl⟩ hinv, fun c => ?_, fun c => ?_, fun c => ?_,
    hrefs.queue, ⟨hsame.1, hsame.2, hsame.3, hsame.4⟩⟩
  · rw [addRef_blockHash, hhash]
  · rw [addRef_refCnt, hrefs.refCnt]
  · rw [addRef_isNull, hrefs.isNull]

/-- **Handing out** blocks: they come from the front of the queue, and lose their hashes. -/
theorem Inv.getNewBlocks (h : p.Inv held l) {n : ℕ} (hn : n ≤ l.length) :
    Returns (p.getNewBlocks n) fun x =>
      x.1 = l.take n ∧ x.2.Inv (l.take n ++ held) (l.drop n) ∧ Same p x.2 ∧
        ∀ c, (x.2.blocks c).blockHash = if c ∈ l.take n then none else (p.blocks c).blockHash := by
  unfold BlockPool.getNewBlocks
  have hnum : p.getNumFreeBlocks = l.length := h.ref.queue.num
  rw [if_neg (by rw [hnum]; omega), returns_bind]
  refine (popleftN_returns h.ref.queue hn).mono ?_
  rintro ⟨ret, queue⟩ ⟨rfl, hqueue, -⟩
  rw [returns_bind]
  have hnd : (l.take n).Nodup := h.ref.queue.nodup.sublist (take_sublist n l)
  have hfree : ∀ c ∈ l.take n, (p.blocks c).refCnt = 0 := fun c hc =>
    ((h.ref.mem_iff c).mp (mem_of_mem_take hc)).2.2
  -- what was popped so far has lost its hash and gained a reference
  refine (returns_foldlM (I := fun done s => s.HashInv ∧
    (∀ c, (s.blocks c).blockHash = if c ∈ done then none else (p.blocks c).blockHash) ∧
    (∀ c, (s.blocks c).refCnt = (p.blocks c).refCnt + done.count c) ∧
    (∀ c, (s.blocks c).isNull = (p.blocks c).isNull) ∧ s.freeBlockQueue = queue ∧ Same p s)
    (l.take n) { p with freeBlockQueue := queue } ?_ ?_).mono ?_
  · rintro done b todo s htake ⟨hinv, hhash, hrefs, hnull, hq, hsame⟩
    have hb : b ∉ done := by
      rw [htake] at hnd
      exact fun hb => (nodup_append.mp hnd).2.2 b hb b mem_cons_self rfl
    have hzero : (s.blocks b).refCnt = 0 := by
      rw [hrefs, count_eq_zero.mpr hb, hfree b (by rw [htake]; simp)]
      rfl
    refine (hinv.allocated hzero).mono fun s' hs' => ?_
    obtain ⟨hinv', hhash', hrefs', hnull', hq', hsame'⟩ := hs'
    refine ⟨hinv', fun c => ?_, fun c => ?_, fun c => (hnull' c).trans (hnull c), hq'.trans hq,
      hsame.trans hsame'⟩
    · rw [hhash', hhash]
      by_cases hcb : c = b <;> simp [hcb]
    · rw [hrefs', hrefs, count_append, count_singleton]
      by_cases hcb : c = b
      · simp [hcb, add_assoc]
      · simp [hcb, Ne.symm hcb]
  · have hhash : SameHashes p { p with freeBlockQueue := queue } := ⟨fun _ => rfl, rfl⟩
    exact ⟨hhash.inv ⟨rfl, rfl, rfl, rfl⟩ h.hash, fun c => by simp, fun c => by simp, fun _ => rfl,
      rfl, rfl, rfl, rfl, rfl⟩
  · rintro s ⟨hinv, hhash, hrefs, hnull, hq, hsame⟩
    refine returns_pure.mpr ⟨rfl, ⟨h.ref.of_counts hsame (hq ▸ hqueue) hnull ?_ ?_ ?_, hinv⟩, hsame,
      hhash⟩
    · intro c hc
      rw [hrefs, h.ref.refCnt c hc, count_append, Nat.cast_add, add_comm]
    · intro c hc
      rcases mem_append.mp hc with hc | hc
      · exact ((h.ref.mem_iff c).mp (mem_of_mem_take hc)).1
      · exact h.ref.lt c hc
    · intro c
      have hsplit := h.ref.queue.nodup
      rw [← take_append_drop n l] at hsplit
      rw [mem_append, not_or]
      constructor
      · intro hc
        have hcl := mem_of_mem_drop hc
        refine ⟨((h.ref.mem_iff c).mp hcl).1, ((h.ref.mem_iff c).mp hcl).2.1, fun hc' => ?_,
          h.ref.not_mem_of_mem hcl⟩
        exact (nodup_append.mp hsplit).2.2 c hc' c hc rfl
      · rintro ⟨hlt, hne, htake, hheld⟩
        have hcl := h.ref.mem_of_not_mem hlt hne hheld
        rw [← take_append_drop n l] at hcl
        exact (mem_append.mp hcl).resolve_left htake

/-! ### Storing blocks under their hashes -/

theorem Stored.store (h : p.Stored) (hnone : (p.blocks b).blockHash = none) {s : BlockPool H}
    (hs : s = (p.modify b fun blk => { blk with blockHash := some k }).insert k b) :
    s.Stored ∧ (∀ c, (s.blocks c).blockHash = if c = b then some k else (p.blocks c).blockHash) ∧
      SameRefs p s ∧ Same p s := by
  obtain ⟨hnew, hrefs⟩ := setHash_spec p b (some k)
  -- a block without a hash is stored nowhere
  have hstored : ∀ k', b ∉ p.cachedBlockHashToBlock k' := by
    intro k' hmem
    rw [(h.1 b k').mpr hmem] at hnone
    cases hnone
  have hcached : s.cachedBlockHashToBlock
      = update p.cachedBlockHashToBlock k (p.cachedBlockHashToBlock k ++ [b]) := by
    subst hs
    show update p.cachedBlockHashToBlock k (if b ∈ p.cachedBlockHashToBlock k then _ else _) = _
    rw [if_neg (hstored k)]
    rfl
  replace hnew : ∀ c, (s.blocks c).blockHash = if c = b then some k else (p.blocks c).blockHash :=
    hs ▸ hnew
  refine ⟨⟨fun c k' => ?_, fun k' => ?_⟩, hnew, hs ▸ ⟨hrefs.1, hrefs.2, rfl⟩, hs ▸ ⟨rfl, rfl, rfl, rfl⟩⟩
  · rw [hnew, hcached]
    by_cases hk : k' = k
    · subst hk
      rw [update_self, mem_append, mem_singleton, ← h.1]
      by_cases hcb : c = b
      · simp [hcb]
      · simp [hcb]
    · rw [update_of_ne hk, ← h.1]
      by_cases hcb : c = b
      · subst hcb
        rw [if_pos rfl, hnone]
        simp [Ne.symm hk]
      · rw [if_neg hcb]
  · rw [hcached]
    by_cases hk : k' = k
    · subst hk
      rw [update_self]
      refine nodup_append.mpr ⟨h.2 k', nodup_singleton b, fun c hc d hd => ?_⟩
      rw [mem_singleton.mp hd]
      rintro rfl
      exact hstored k' hc
    · rw [update_of_ne hk]
      exact h.2 k'

theorem Inv.store (h : p.Inv held l) (hb : b < p.numGpuBlocks) (hne : b ≠ p.nullBlock)
    (hnone : (p.blocks b).blockHash = none) (hcaching : p.enableCaching = true) {s : BlockPool H}
    (hs : s = (p.modify b fun blk => { blk with blockHash := some k }).insert k b) :
    s.Inv held l ∧ (∀ c, (s.blocks c).blockHash = if c = b then some k else (p.blocks c).blockHash) := by
  obtain ⟨hstored, hnew, hrefs, hsame⟩ := Stored.store ⟨h.hash.hash_iff, h.hash.nodup⟩ hnone hs
  refine ⟨⟨hrefs.inv hsame h.ref, hstored.1, hstored.2, fun c hc => ?_, ?_, fun hoff => ?_⟩, hnew⟩
  · rw [hnew] at hc
    by_cases hcb : c = b
    · exact hsame.numGpuBlocks ▸ hcb ▸ hb
    · exact hsame.numGpuBlocks ▸ h.hash.lt c (by rwa [if_neg hcb] at hc)
  · rw [hsame.nullBlock, hnew, if_neg (Ne.symm hne)]
    exact h.hash.null
  · rw [hsame.enableCaching, hcaching] at hoff
    cases hoff

/-- **Storing full blocks**: each that is not the null block gets the hash beside it. -/
theorem Inv.cacheLoop {gid : ℕ} (bs : List ℕ) (hashes : List (List H)) (p : BlockPool H)
    (h : p.Inv held l) (hcaching : p.enableCaching = true) (hlen : bs.length ≤ hashes.length)
    (hlt : (∀ b ∈ bs, b < p.numGpuBlocks))
    (hnone : (∀ b ∈ bs, b ≠ p.nullBlock → (p.blocks b).blockHash = none))
    (hnd : (bs.filter (· ≠ p.nullBlock)).Nodup) :
    Returns (cacheLoop gid p bs hashes) fun p' =>
      p'.Inv held l ∧ Same p p' ∧
      (∀ c, c ∉ bs ∨ c = p.nullBlock → (p'.blocks c).blockHash = (p.blocks c).blockHash) ∧
      ∀ (i c : ℕ) (g : List H), bs[i]? = some c → hashes[i]? = some g → c ≠ p.nullBlock →
        (p'.blocks c).blockHash = some (g, gid) := by
  induction bs generalizing hashes p with
  | nil =>
    exact returns_ok.mpr ⟨h, Same.refl p, fun _ _ => rfl, fun i c _ hc => by simp at hc⟩
  | cons b bs ih =>
    obtain ⟨g, hashes, rfl⟩ : ∃ g gs, hashes = g :: gs :=
      exists_cons_of_length_pos (Nat.lt_of_lt_of_le (Nat.succ_pos _) hlen)
    have hlen' : bs.length ≤ hashes.length := Nat.le_of_succ_le_succ hlen
    have hlt' : ∀ c ∈ bs, c < p.numGpuBlocks := fun c hc => hlt c (mem_cons_of_mem b hc)
    have hnone' : ∀ c ∈ bs, c ≠ p.nullBlock → (p.blocks c).blockHash = none :=
      fun c hc => hnone c (mem_cons_of_mem b hc)
    rw [BlockPool.cacheLoop]
    by_cases hb : b = p.nullBlock
    · -- the null block is passed over
      rw [if_pos ((h.ref.isNull b).mpr hb)]
      rw [filter_cons_of_neg (by simpa using hb)] at hnd
      refine (ih hashes p h hcaching hlen' hlt' hnone' hnd).mono ?_
      rintro p' ⟨hinv, hsame, hother, hnew⟩
      refine ⟨hinv, hsame, fun c hc => hother c ?_, fun i c g' hc hg hcn => ?_⟩
      · exact hc.imp_left fun hc hmem => hc (mem_cons_of_mem b hmem)
      · cases i with
        | zero =>
          rw [List.getElem?_cons_zero, Option.some.injEq] at hc
          exact absurd (hc.symm.trans hb) hcn
        | succ i => exact hnew i c g' hc hg hcn
    · have hbnone := hnone b mem_cons_self hb
      rw [filter_cons_of_pos (by simpa using hb), nodup_cons, mem_filter] at hnd
      have hbs : b ∉ bs := fun hmem => hnd.1 ⟨hmem, by simpa using hb⟩
      rw [if_neg (by rw [h.ref.isNull]; exact hb), hbnone]
      obtain ⟨hinv, hhash⟩ := h.store (k := (g, gid)) (hlt b mem_cons_self) hb hbnone hcaching rfl
      have hrest := ih hashes _ hinv hcaching hlen' hlt' (fun c hc hcn => ?_) hnd.2
      · refine hrest.mono ?_
        rintro p' ⟨hinv', hsame, hother, hnew⟩
        refine ⟨hinv', ⟨hsame.1, hsame.2, hsame.3, hsame.4⟩, fun c hc => ?_,
          fun i c g' hc hg hcn => ?_⟩
        · have hcb : c ≠ b := by
            rintro rfl
            exact hc.elim (fun hmem => hmem mem_cons_self) hb
          rw [hother c (hc.imp_left fun hc hmem => hc (mem_cons_of_mem b hmem)), hhash,
            if_neg hcb]
        · cases i with
          | zero =>
            rw [List.getElem?_cons_zero, Option.some.injEq] at hc hg
            subst hc hg
            rw [hother b (Or.inl hbs), hhash, if_pos rfl]
          | succ i => exact hnew i c g' hc hg hcn
      · rw [hhash, if_neg (by rintro rfl; exact hbs hc)]
        exact hnone' c hc hcn

end Hashed

/-- **Resetting** the cache: it succeeds when no block is held, and takes every hash away. -/
theorem Inv.resetPrefixCache (h : p.Inv held l) :
    p.resetPrefixCache.2.Inv held l ∧ Same p p.resetPrefixCache.2 ∧
      ((p.resetPrefixCache.1 = false ∧ p.resetPrefixCache.2 = p) ∨
        (p.resetPrefixCache.1 = true ∧
          ∀ b, (p.resetPrefixCache.2.blocks b).blockHash = none)) := by
  unfold BlockPool.resetPrefixCache
  split_ifs with hused
  · exact ⟨h, Same.refl p, Or.inl ⟨rfl, rfl⟩⟩
  · refine ⟨⟨?_, ⟨fun b k => by simp, fun _ => nodup_nil, fun b hb => absurd rfl hb, rfl,
      fun _ _ => rfl⟩⟩, ⟨rfl, rfl, rfl, rfl⟩, Or.inr ⟨rfl, fun _ => rfl⟩⟩
    exact SameRefs.inv (p := p) ⟨fun _ => rfl, fun _ => rfl, rfl⟩ ⟨rfl, rfl, rfl, rfl⟩ h.ref

end BlockPool

end CacheFlow
