import CacheFlow.Lib.Steps
import CacheFlow.Vllm.BlockPool

/-!
# The events of the block pool

With `enable_kv_cache_events` the pool queues an event when blocks are stored under their hashes,
when one loses its hash and when all do. A consumer that drains the queue keeps the hashes it
believes to be cached. Several blocks may be stored under one hash, and the event of an eviction
does not say whether another one is left.

## Main definitions

* `EventPool.Agrees` — the consumer holds the hashes that blocks are stored under.

## Main results

* `EventPool.agrees_iff` — exactly if a call that evicts a block evicts all blocks with its hash.
-/

namespace CacheFlow

open List Steps BlockPool

/-- The events, as far as the consumer reads them. -/
inductive KVCacheEvent (E : Type) where
  | blockStored : List E → KVCacheEvent E
  | blockRemoved : List E → KVCacheEvent E
  | allBlocksCleared : KVCacheEvent E

/-- The hashes of the consumer after an event. -/
def KVCacheEvent.apply {E : Type} [DecidableEq E] (held : List E) : KVCacheEvent E → List E
  | blockStored hashes => held ++ hashes
  | blockRemoved hashes => held.filter (· ∉ hashes)
  | allBlocksCleared => []

/-- The pool, its events and the consumer. -/
structure EventPool (H E : Type) where
  pool : BlockPool H
  kvEventQueue : List (KVCacheEvent E)
  /-- The hashes that the consumer holds. -/
  held : List E

/-- The calls. `get_new_blocks` is an eviction of every block it hands out; besides that it changes
references and the queue, as `touch` and `free_blocks` do. -/
inductive PoolOp (H : Type) where
  | cacheFullBlocks (request : KvRequest H) (blocks : List ℕ)
      (numCachedBlocks numFullBlocks blockSize groupId : ℕ) : PoolOp H
  /-- `_maybe_evict_cached_block`, of several blocks one after the other. -/
  | evict (bs : List ℕ) : PoolOp H
  /-- `evict_blocks`, in the order of the set. -/
  | evictBlocks (ids : List ℕ) : PoolOp H
  | resetPrefixCache : PoolOp H
  /-- Any change of the references and the queue. -/
  | refer (refCnt : ℕ → ℤ) (queue : FreeKVCacheBlockQueue) : PoolOp H
  /-- `take_events`: the consumer drains the queue. -/
  | takeEvents : PoolOp H

/-- The blocks that a call evicts. -/
def PoolOp.evicted {H : Type} : PoolOp H → List ℕ
  | evict bs => bs
  | evictBlocks ids => ids
  | _ => []

namespace EventPool

variable {H E : Type} [DecidableEq E] (convert : List H → E)

/-- The hashes of the consumer after the queued events. -/
def seen (s : EventPool H E) : List E := s.kvEventQueue.foldl KVCacheEvent.apply s.held

/-- A consumer that drains the queue now holds the hashes that blocks are stored under; `convert` is
`maybe_convert_block_hash`. -/
def Agrees (s : EventPool H E) : Prop :=
  ∀ e, e ∈ s.seen ↔ ∃ k, ∃ b ∈ s.pool.cachedBlockHashToBlock k, convert k.1 = e

/-- The hash of a block, as the events have it. -/
def key (p : BlockPool H) (b : ℕ) : Option E := (p.blocks b).blockHash.map fun k => convert k.1

/-- The call leaves no block under a hash that it takes from another one. -/
def NoneLeft (s : EventPool H E) (op : PoolOp H) : Prop :=
  ∀ b ∈ op.evicted, ∀ c ∉ op.evicted, key convert s.pool c ≠ none →
    key convert s.pool b ≠ key convert s.pool c

/-- The `new_hashes` of `cache_full_blocks`: null blocks are passed over. -/
def newHashes (p : BlockPool H) (bs : List ℕ) (hashes : List (List H)) : List E :=
  ((bs.zip hashes).filter fun x => !(p.blocks x.1).isNull).map fun x => convert x.2

section Methods

variable [DecidableEq H]

/-- `_maybe_evict_cached_block`. -/
def maybeEvictCachedBlock (s : EventPool H E) (b : ℕ) : EventPool H E :=
  match (s.pool.blocks b).blockHash with
  | none => s
  | some k =>
    if b ∈ s.pool.cachedBlockHashToBlock k then
      { s with
        pool := s.pool.maybeEvictCachedBlock b
        kvEventQueue := s.kvEventQueue ++ [.blockRemoved [convert k.1]] }
    else s

/-- `cache_full_blocks`. -/
def cacheFullBlocks (s : EventPool H E) (request : KvRequest H) (blocks : List ℕ)
    (numCachedBlocks numFullBlocks blockSize groupId : ℕ) : Except VllmErr (EventPool H E) :=
  if numFullBlocks ≤ numCachedBlocks then .ok s
  else if request.blockHashes.length < numFullBlocks then .error .assertionError
  else do
    let hashes ← hashesAt request.blockHashes s.pool.hashBlockSize blockSize
    let new := (blocks.take numFullBlocks).drop numCachedBlocks
    let pool ← cacheLoop groupId s.pool new (hashes.drop numCachedBlocks)
    -- the event has the hash before the new ones
    if hashes.length < numCachedBlocks then throw .indexError
    pure
      { s with
        pool := pool
        kvEventQueue := s.kvEventQueue ++
          [.blockStored (newHashes convert s.pool new (hashes.drop numCachedBlocks))] }

/-- A call. -/
def call (s : EventPool H E) : PoolOp H → Except VllmErr (EventPool H E)
  | .cacheFullBlocks request blocks numCachedBlocks numFullBlocks blockSize groupId =>
    s.cacheFullBlocks convert request blocks numCachedBlocks numFullBlocks blockSize groupId
  | .evict bs => .ok (bs.foldl (maybeEvictCachedBlock convert) s)
  | .evictBlocks ids =>
    if ∀ b ∈ ids, b < s.pool.numGpuBlocks then .ok (ids.foldl (maybeEvictCachedBlock convert) s)
    else .error .assertionError
  | .resetPrefixCache =>
    let (ok, pool) := s.pool.resetPrefixCache
    .ok { s with
      pool := pool
      kvEventQueue := if ok then s.kvEventQueue ++ [.allBlocksCleared] else s.kvEventQueue }
  | .refer refCnt queue =>
    .ok { s with
      pool := { s.pool with
        blocks := fun b => { s.pool.blocks b with refCnt := refCnt b }
        freeBlockQueue := queue } }
  | .takeEvents => .ok { s with kvEventQueue := [], held := s.seen }

/-- A call that returns. -/
def step (s : EventPool H E) (op : PoolOp H) : Option (EventPool H E) := (s.call convert op).toOption

end Methods

/-- Agreement, by the hashes of the blocks. -/
def KeysAgree (s : EventPool H E) : Prop := ∀ e, e ∈ s.seen ↔ ∃ c, key convert s.pool c = some e

variable {convert} {s s' : EventPool H E} {p q : BlockPool H} {b : ℕ} {bs : List ℕ}

theorem agrees_iff_keysAgree (h : s.pool.Stored) : Agrees convert s ↔ KeysAgree convert s := by
  refine forall_congr' fun e => iff_congr Iff.rfl ?_
  simp only [key, Option.map_eq_some_iff, h.1]
  exact exists_comm

/-- A call that evicts blocks keeps the agreement just if no block is left under their hashes. -/
theorem keysAgree_iff {op : PoolOp H} (ha : KeysAgree convert s)
    (hkey : ∀ c, key convert s'.pool c = if c ∈ op.evicted then none else key convert s.pool c)
    (hseen : ∀ e, e ∈ s'.seen ↔ e ∈ s.seen ∧ ∀ b ∈ op.evicted, key convert s.pool b ≠ some e) :
    KeysAgree convert s' ↔ NoneLeft convert s op := by
  constructor
  · intro ha' b hb c hc hne heq
    obtain ⟨e, he⟩ := Option.ne_none_iff_exists'.mp hne
    have hmem : e ∈ s'.seen := (ha' e).mpr ⟨c, by rwa [hkey, if_neg hc]⟩
    exact ((hseen e).mp hmem).2 b hb (heq.trans he)
  · intro hnone e
    rw [hseen, ha e]
    constructor
    · rintro ⟨⟨c, hc⟩, hnot⟩
      have hcb : c ∉ op.evicted := fun hmem => hnot c hmem hc
      exact ⟨c, by rwa [hkey, if_neg hcb]⟩
    · rintro ⟨c, hc⟩
      rw [hkey] at hc
      split_ifs at hc with hcb
      exact ⟨⟨c, hc⟩, fun b hb heq => hnone b hb c hcb (by simp [hc]) (heq.trans hc.symm)⟩

omit [DecidableEq E] in
theorem exists_key_iff {k : BlockKey H} {e : E} (hnone : (p.blocks b).blockHash = none)
    (hnew : ∀ c, (q.blocks c).blockHash = if c = b then some k else (p.blocks c).blockHash) :
    (∃ c, key convert q c = some e) ↔ e = convert k.1 ∨ ∃ c, key convert p c = some e := by
  simp only [key, hnew]
  constructor
  · rintro ⟨c, hc⟩
    split_ifs at hc with hcb
    · exact Or.inl (by simpa [eq_comm] using hc)
    · exact Or.inr ⟨c, hc⟩
  · rintro (rfl | ⟨c, hc⟩)
    · exact ⟨b, by simp⟩
    · have hcb : c ≠ b := by
        rintro rfl
        simp [hnone] at hc
      exact ⟨c, by rwa [if_neg hcb]⟩

variable [DecidableEq H]

/-- **Evicting** blocks: they lose their hashes, and the consumer hears of each. -/
theorem evict_spec (h : s.pool.Stored) :
    (bs.foldl (maybeEvictCachedBlock convert) s).pool.Stored ∧
    (∀ c, key convert (bs.foldl (maybeEvictCachedBlock convert) s).pool c
      = if c ∈ bs then none else key convert s.pool c) ∧
    ∀ e, e ∈ (bs.foldl (maybeEvictCachedBlock convert) s).seen ↔
      e ∈ s.seen ∧ ∀ b ∈ bs, key convert s.pool b ≠ some e := by
  induction bs generalizing s with
  | nil => simpa using h
  | cons b bs ih =>
    -- what one eviction does to the pool, and its event to the consumer
    obtain ⟨hstored, hkey, hseen⟩ : (s.maybeEvictCachedBlock convert b).pool.Stored ∧
        (∀ c, key convert (s.maybeEvictCachedBlock convert b).pool c
          = if c = b then none else key convert s.pool c) ∧
        ∀ e, e ∈ (s.maybeEvictCachedBlock convert b).seen ↔
          e ∈ s.seen ∧ key convert s.pool b ≠ some e := by
      unfold maybeEvictCachedBlock
      cases hk : (s.pool.blocks b).blockHash with
      | none =>
        refine ⟨h, fun c => ?_, fun e => by simp [key, hk]⟩
        by_cases hcb : c = b <;> simp [key, hk, hcb]
      | some k =>
        obtain ⟨hstored, hnew, -⟩ := h.evict b
        dsimp only
        rw [if_pos ((h.1 b k).mp hk)]
        refine ⟨hstored, fun c => ?_, fun e => ?_⟩
        · by_cases hcb : c = b <;> simp [key, hnew, hcb]
        · have hne : key convert s.pool b ≠ some e ↔ e ≠ convert k.1 := by
            rw [key, hk, Option.map_some, Ne, Option.some_inj, ne_comm]
          rw [hne]
          simp [seen, KVCacheEvent.apply]
    obtain ⟨hstored', hkey', hseen'⟩ := ih hstored
    refine ⟨hstored', fun c => ?_, fun e => ?_⟩
    · rw [foldl_cons, hkey', hkey]
      by_cases hc : c = b <;> simp [hc]
    · rw [foldl_cons, hseen', hseen, and_assoc]
      grind

omit [DecidableEq E] in
/-- The loop of `cache_full_blocks` adds the hashes of its event. -/
theorem ensures_cacheLoop {gid : ℕ} (h : p.Stored) (hashes : List (List H)) :
    Ensures (cacheLoop gid p bs hashes) fun p' => p'.Stored ∧
      ∀ e, (∃ c, key convert p' c = some e) ↔
        (∃ c, key convert p c = some e) ∨ e ∈ newHashes convert p bs hashes := by
  induction bs generalizing p hashes with
  | nil => exact ensures_ok.mpr ⟨h, fun e => by simp [newHashes]⟩
  | cons b bs ih =>
    unfold cacheLoop
    split_ifs with hnull hsome
    · cases hashes with
      | nil => simpa [newHashes] using ih h []
      | cons g hashes => simpa [newHashes, hnull] using ih h hashes
    · exact ensures_error
    · cases hashes with
      | nil => exact ensures_error
      | cons g hashes =>
        have hnone : (p.blocks b).blockHash = none := by simpa using hsome
        obtain ⟨hinv, hnew, hrefs, -⟩ := h.store (k := (g, gid)) hnone rfl
        refine (ih hinv hashes).mono fun p' hp => ⟨hp.1, fun e => ?_⟩
        rw [hp.2, exists_key_iff hnone hnew, or_comm (a := e = _), or_assoc]
        simp [newHashes, hrefs.isNull, hnull]

/-- **A call** keeps the agreement just if it leaves no block under a hash it removes. -/
theorem ensures_call (h : s.pool.Stored) (ha : KeysAgree convert s) (op : PoolOp H) :
    Ensures (s.call convert op) fun s' =>
      s'.pool.Stored ∧ (KeysAgree convert s' ↔ NoneLeft convert s op) := by
  have hnone : op.evicted = [] → NoneLeft convert s op := fun hop => by simp [NoneLeft, hop]
  cases op with
  | cacheFullBlocks request blocks c f size gid =>
    show Ensures (s.cacheFullBlocks convert request blocks c f size gid) _
    unfold cacheFullBlocks
    split_ifs
    · exact ensures_ok.mpr ⟨h, iff_of_true ha (hnone rfl)⟩
    · exact ensures_error
    · refine ensures_bind.mpr fun hashes _ => ensures_bind.mpr fun p hp => ?_
      obtain ⟨hstored, hkeys⟩ : _ ∧ ∀ e, (∃ c, key convert p c = some e) ↔ _ :=
        ensures_cacheLoop h _ p hp
      split_ifs
      · exact ensures_error
      · -- the consumer is told exactly the hashes that are new
        refine ensures_pure.mpr ⟨hstored, iff_of_true (fun e => ?_) (hnone rfl)⟩
        rw [hkeys, ← ha e]
        simp [seen, KVCacheEvent.apply]
  | evict bs =>
    exact ensures_ok.mpr ⟨(evict_spec h).1, keysAgree_iff ha (evict_spec h).2.1 (evict_spec h).2.2⟩
  | evictBlocks ids =>
    show Ensures (if _ then _ else _) _
    split_ifs
    · exact ensures_ok.mpr ⟨(evict_spec h).1, keysAgree_iff ha (evict_spec h).2.1 (evict_spec h).2.2⟩
    · exact ensures_error
  | resetPrefixCache =>
    unfold call resetPrefixCache
    split_ifs
    all_goals refine ensures_ok.mpr ?_
    · exact ⟨h, iff_of_true ha (hnone rfl)⟩
    · refine ⟨⟨fun b k => by simp, fun _ => nodup_nil⟩, iff_of_true (fun e => ?_) (hnone rfl)⟩
      simp [seen, KVCacheEvent.apply, key]
  | refer refCnt queue => exact ensures_ok.mpr ⟨h, iff_of_true ha (hnone rfl)⟩
  | takeEvents => exact ensures_ok.mpr ⟨h, iff_of_true ha (hnone rfl)⟩

/-- **The consumer agrees** throughout a run on a new pool just if every call that evicts a block
evicts all blocks with its hash. -/
theorem agrees_iff {n hashBlockSize : ℕ} {caching : Bool}
    (hp : BlockPool.new n caching hashBlockSize = .ok p) {ops : List (PoolOp H)}
    (hrun : run (step convert) ⟨p, [], []⟩ ops = some s) :
    Always (step convert) (Agrees convert) ⟨p, [], []⟩ ops ↔
      Each (step convert) (NoneLeft convert) ⟨p, [], []⟩ ops := by
  have hnew : p.Stored ∧ ∀ b, (p.blocks b).blockHash = none := by
    unfold BlockPool.new at hp
    split_ifs at hp
    · cases hp
    · obtain ⟨x, -, hp⟩ := bind_eq_ok.mp hp
      cases hp
      exact ⟨⟨fun b k => by simp, fun _ => nodup_nil⟩, fun _ => rfl⟩
  refine (always_iff_each (I := fun s => s.pool.Stored ∧ KeysAgree convert s)
    ⟨hnew.1, fun e => by simp [seen, key, hnew.2]⟩ (fun t ht => (agrees_iff_keysAgree ht.1).mpr ht.2)
    (fun t op t' ht hstep => ?_) hrun).1
  have hcall : t.call convert op = .ok t' := by
    unfold step at hstep
    cases hc : t.call convert op with
    | error e => simp [hc, Except.toOption] at hstep
    | ok t₁ => simpa [hc, Except.toOption] using hstep
  obtain ⟨hstored, hiff⟩ := ensures_call ht.1 ht.2 op t' hcall
  rw [agrees_iff_keysAgree hstored, hiff]
  exact ⟨id, fun hop => ⟨hstored, hop⟩⟩

/-- A request of one block. -/
def oneBlock : KvRequest ℕ := ⟨"r", 1, 0, [7], false, nodup_singleton 7⟩

/-- Two blocks are handed out and stored under one hash, and some of them are evicted. -/
def duplicateOps (evicted : List ℕ) : List (PoolOp ℕ) :=
  [.evict [1, 2], .cacheFullBlocks oneBlock [1] 0 1 1 0, .cacheFullBlocks oneBlock [2] 0 1 1 0,
    .evictBlocks evicted]

/-- If it is one of them, the other block is still stored under the hash, and the consumer does not
know. -/
theorem not_agrees_of_duplicate : ∃ p s, BlockPool.new 3 true 1 = .ok p ∧
    run (step id) ⟨p, [], []⟩ (duplicateOps [1]) = some s ∧ ¬ Agrees id s :=
  ⟨_, _, rfl, rfl, fun h => absurd ((h [7]).mpr ⟨([7], 0), 2, by decide, rfl⟩) (by decide)⟩

theorem agrees_of_evicting_both : ∃ p s, BlockPool.new 3 true 1 = .ok p ∧
    run (step id) ⟨p, [], []⟩ (duplicateOps [1, 2]) = some s ∧
    Always (step id) (Agrees id) ⟨p, [], []⟩ (duplicateOps [1, 2]) := by
  refine ⟨_, _, rfl, rfl, (agrees_iff (show BlockPool.new 3 true 1 = _ from rfl) rfl).mpr ?_⟩
  rw [duplicateOps, each_cons]
  refine ⟨fun b _ c _ hne => absurd rfl hne, fun t ht => ?_⟩
  obtain rfl := Option.some.inj ht
  rw [each_cons]
  refine ⟨fun b hb => absurd hb not_mem_nil, fun t ht => ?_⟩
  obtain rfl := Option.some.inj ht
  rw [each_cons]
  refine ⟨fun b hb => absurd hb not_mem_nil, fun t ht => ?_⟩
  obtain rfl := Option.some.inj ht
  rw [each_cons]
  refine ⟨fun b hb c hc hne => absurd ?_ hne, fun t ht => each_nil⟩
  -- the other blocks have no hash
  obtain ⟨h1, h2⟩ : c ≠ 1 ∧ c ≠ 2 := by simpa [PoolOp.evicted] using hc
  have hkept : ∀ (blocks : ℕ → KVCacheBlock ℕ) (x y : KVCacheBlock ℕ),
      Function.update (Function.update blocks 1 x) 2 y c = blocks c := fun _ _ _ => by
    rw [Function.update_of_ne h2, Function.update_of_ne h1]
  exact congrArg (fun blk : KVCacheBlock ℕ => blk.blockHash.map fun k => id k.1) (hkept _ _ _)

end EventPool

end CacheFlow
