import CacheFlow.Lib.Rounds
import CacheFlow.Vllm.ManagerInv

/-!
# The coordinator

The coordinator calls a method of every group's manager, one after the other, on the one pool.
Each loop keeps the invariant and raises nothing, and its lemma says what becomes of the queue,
of the lists and of the hashes.

Taking over hits is the delicate part. Each manager takes its own hits out of the queue and then
pops blocks for external tokens, before the next one has secured its hits: these are the rounds of
`Rounds`, and a round may draw what a later one has reserved.

## Main results

* `KVCacheManager.free_returns`, `KVCacheManager.allocateNewComputedBlocks_returns`,
  `KVCacheManager.allocateNewBlocks_returns`, … — the loops.
-/

namespace CacheFlow

open List SingleTypeKVCacheManager BlockPool

namespace KVCacheManager

variable {H : Type} {m m' : KVCacheManager H} {r : String} {l : List ℕ}

/-! ### The loops over the managers -/

/-- What every call keeps. -/
structure Keeps (m m' : KVCacheManager H) : Prop where
  maxModelLen : m'.maxModelLen = m.maxModelLen
  useEagle : m'.useEagle = m.useEagle
  pool : Same m.pool m'.pool

theorem Keeps.refl (m : KVCacheManager H) : Keeps m m := ⟨rfl, rfl, Same.refl _⟩

theorem Keeps.trans {m'' : KVCacheManager H} (h : Keeps m m') (h' : Keeps m' m'') : Keeps m m'' :=
  ⟨h'.maxModelLen.trans h.maxModelLen, h'.useEagle.trans h.useEagle, h.pool.trans h'.pool⟩

/-- The rule for a method that is called on every manager. -/
theorem forManagers_returns {f : SingleTypeKVCacheManager → BlockPool H →
      Except VllmErr (SingleTypeKVCacheManager × BlockPool H)}
    {I : List SingleTypeKVCacheManager → List SingleTypeKVCacheManager → BlockPool H → Prop}
    {R : SingleTypeKVCacheManager → SingleTypeKVCacheManager → Prop}
    (hf : ∀ done g todo p, I done (g :: todo) p → Same m.pool p →
      Returns (f g p) fun x => I (done ++ [x.1]) todo x.2 ∧ Same p x.2 ∧ R g x.1)
    (h : I [] m.managers m.pool) :
    Returns (m.forManagers f) fun m' =>
      I m'.managers [] m'.pool ∧ Keeps m m' ∧ List.Forall₂ R m.managers m'.managers := by
  unfold forManagers
  rw [returns_bind]
  refine (returns_thread (I := fun done todo p => I done todo p ∧ Same m.pool p) (R := R)
    ?_ m.managers [] m.pool ⟨h, Same.refl _⟩).mono ?_
  · rintro done g todo p ⟨hinv, hsame⟩
    refine (hf done g todo p hinv hsame).mono ?_
    rintro x ⟨hinv', hsame', hR⟩
    exact ⟨⟨hinv', hsame.trans hsame'⟩, hR⟩
  · rintro ⟨managers, pool⟩ ⟨⟨hinv, hsame⟩, hR⟩
    exact returns_pure.mpr ⟨hinv, ⟨rfl, rfl, hsame⟩, hR⟩

/-- What `free` does to the manager of a group. -/
structure Freed (r : String) (g g' : SingleTypeKVCacheManager) : Prop where
  edits : Edits r g g'
  blocksOf : g'.blocksOf r = []
  numCachedBlock : g'.numCachedBlock.get? r = none

/-- **Freeing** a request. -/
theorem free_returns (h : KInv m.pool m.managers l) (r : String) :
    Returns (m.free r) fun m' =>
      (∃ freed, KInv m'.pool m'.managers (l ++ freed)) ∧ SameHashes m.pool m'.pool ∧
        Keeps m m' ∧ List.Forall₂ (Freed r) m.managers m'.managers := by
  refine (forManagers_returns (I := fun done todo p =>
    (∃ freed, KInv p (done ++ todo) (l ++ freed)) ∧ SameHashes m.pool p) (R := Freed r)
    ?_ ⟨⟨[], by rwa [append_nil]⟩, ⟨fun _ => rfl, rfl⟩⟩).mono ?_
  · rintro done g todo p ⟨⟨freed, hinv⟩, hhash⟩ -
    refine (hinv.free r).mono ?_
    rintro x ⟨hinv', hsame, hhash', hedit, hblocks, hcached⟩
    rw [append_assoc, append_cons] at hinv'
    exact ⟨⟨⟨_, hinv'⟩, hhash.trans hhash'⟩, hsame, hedit, hblocks, hcached⟩
  · rintro m' ⟨⟨⟨freed, hinv⟩, hhash⟩, hkeeps, hfreed⟩
    rw [append_nil] at hinv
    exact ⟨⟨freed, hinv⟩, hhash, hkeeps, hfreed⟩

/-- A block of the request that lies before the window of a group. -/
def BeforeWindow (m : KVCacheManager H) (r : String) (total b : ℕ) : Prop :=
  ∃ g ∈ m.managers, ∃ i < g.numSkippedBlocks total, (g.blocksOf r)[i]? = some b

/-- Only blocks of request `r` that lie before the window are given back. -/
structure Trims (r : String) (total : ℕ) (l : List ℕ) (m m' : KVCacheManager H) : Prop where
  /-- The invariant; blocks are added at the end of the queue. -/
  inv : ∃ freed, (∀ b ∈ freed, BeforeWindow m r total b) ∧ KInv m'.pool m'.managers (l ++ freed)
  hashes : SameHashes m.pool m'.pool
  keeps : Keeps m m'
  skips : List.Forall₂ (fun g => SkipsOnly m.pool.nullBlock (g.numSkippedBlocks total) r g)
    m.managers m'.managers

/-- **Removing** the blocks of a request that lie before the window. -/
theorem removeSkippedBlocks_returns (h : KInv m.pool m.managers l) (r : String) (total : ℕ) :
    Returns (m.removeSkippedBlocks r total) (Trims r total l m) := by
  refine (forManagers_returns (I := fun done todo p =>
    (∃ freed, (∀ b ∈ freed, BeforeWindow m r total b) ∧ KInv p (done ++ todo) (l ++ freed)) ∧
    SameHashes m.pool p ∧ ∀ g ∈ todo, g ∈ m.managers)
    (R := fun g => SkipsOnly m.pool.nullBlock (g.numSkippedBlocks total) r g)
    ?_ ⟨⟨[], fun _ hb => absurd hb not_mem_nil, by rwa [append_nil]⟩,
      ⟨fun _ => rfl, rfl⟩, fun _ hg => hg⟩).mono ?_
  · rintro done g todo p ⟨⟨freed, hfreed, hinv⟩, hhash, hmem⟩ hpool
    refine (hinv.removeSkippedBlocks r total).mono ?_
    rintro x ⟨⟨freed', hfreed', hinv'⟩, hsame, hhash', hskips⟩
    rw [append_assoc, append_cons] at hinv'
    rw [hpool.nullBlock] at hskips
    refine ⟨⟨⟨_, fun b hb => ?_, hinv'⟩, hhash.trans hhash',
      fun g' hg' => hmem g' (mem_cons_of_mem g hg')⟩, hsame, hskips⟩
    rcases mem_append.mp hb with hb | hb
    · exact hfreed b hb
    · exact ⟨g, hmem g mem_cons_self, hfreed' b hb⟩
  · rintro m' ⟨⟨⟨freed, hfreed, hinv⟩, hhash, -⟩, hkeeps, hskips⟩
    rw [append_nil] at hinv
    exact ⟨⟨freed, hfreed, hinv⟩, hhash, hkeeps, hskips⟩

/-! ### Taking over hits -/

/-- The hits of a group. -/
def hitsOf (hits : List (List ℕ)) (g : SingleTypeKVCacheManager) : List ℕ :=
  (hits[g.kvCacheGroupId]?).getD []

theorem hitsOf_edits {g g' : SingleTypeKVCacheManager} (h : Edits r g g') (hits : List (List ℕ)) :
    hitsOf hits g' = hitsOf hits g := by
  rw [hitsOf, hitsOf, h.id]

/-- What each manager reserves and draws. -/
def roundsOf (hits : List (List ℕ)) (numLocal numExternal : ℕ)
    (ms : List SingleTypeKVCacheManager) : List (List ℕ × ℕ) :=
  ms.map fun g => g.round (hitsOf hits g) numLocal numExternal

/-- The manager of a group can take over the hits of a request. -/
structure Ready (p : BlockPool H) (r : String) (hits : List (List ℕ)) (numLocal numExternal : ℕ)
    (g : SingleTypeKVCacheManager) : Prop where
  idle : g.numCachedBlock.get? r = none
  empty : g.blocksOf r = []
  found : hits[g.kvCacheGroupId]? = some (hitsOf hits g)
  /-- The hits are blocks of the pool. -/
  lt : ∀ b ∈ (g.round (hitsOf hits g) numLocal numExternal).1, b < p.numGpuBlocks
  /-- No block is hit twice. -/
  nodup : ((g.round (hitsOf hits g) numLocal numExternal).1.filter (· ≠ p.nullBlock)).Nodup
  /-- Without caching there are none. -/
  off : p.enableCaching = false → (g.round (hitsOf hits g) numLocal numExternal).1 = []
  /-- Hits and skipped blocks are within the computed tokens. -/
  le : max (g.numSkippedBlocks (numLocal + numExternal)) (hitsOf hits g).length
    ≤ cdiv (numLocal + numExternal) g.spec.blockSize

/-- What a request has in a group once its hits are taken over. -/
structure TookOver (null : ℕ) (r : String) (hits : List (List ℕ)) (numLocal numExternal : ℕ)
    (g g' : SingleTypeKVCacheManager) : Prop where
  edits : Edits r g g'
  /-- Null blocks before the window, the hits, the blocks for external tokens. -/
  blocksOf : ∃ fresh, fresh.length = (g.round (hitsOf hits g) numLocal numExternal).2 ∧
    g'.blocksOf r = List.replicate (g.numSkippedBlocks (numLocal + numExternal)) null ++
      (g.round (hitsOf hits g) numLocal numExternal).1 ++ fresh
  /-- All but the latter count as stored. -/
  cachedOf : g'.cachedOf r = g.numSkippedBlocks (numLocal + numExternal) +
    (g.round (hitsOf hits g) numLocal numExternal).1.length

/-- The blocks for external tokens come from the queue: the null block is not among them. -/
def TookFresh (null : ℕ) (r : String) (hits : List (List ℕ)) (numLocal numExternal : ℕ)
    (g g' : SingleTypeKVCacheManager) : Prop :=
  ∃ fresh, null ∉ fresh ∧
    g'.blocksOf r = List.replicate (g.numSkippedBlocks (numLocal + numExternal)) null ++
      (g.round (hitsOf hits g) numLocal numExternal).1 ++ fresh

theorem evicted_append {α : Type} {a b : List ℕ} {c : ℕ} {hash : Option α} :
    (if c ∈ b then none else if c ∈ a then none else hash) = if c ∈ a ++ b then none else hash := by
  by_cases ha : c ∈ a <;> by_cases hb : c ∈ b <;> simp [ha, hb]

section Hashed

variable [DecidableEq H]

/-- **Taking over hits**: the managers drain the queue in rounds, and what they draw loses its
hash. -/
theorem allocateNewComputedBlocks_returns (h : KInv m.pool m.managers l) {hits : List (List ℕ)}
    {numLocal numExternal : ℕ}
    (hready : ∀ g ∈ m.managers, Ready m.pool r hits numLocal numExternal g)
    (hapart : Rounds.Apart l (roundsOf hits numLocal numExternal m.managers))
    (hdemand : demand l (roundsOf hits numLocal numExternal m.managers) ≤ l.length) :
    Returns (m.allocateNewComputedBlocks r hits numLocal numExternal) fun m' =>
      KInv m'.pool m'.managers (drain l (roundsOf hits numLocal numExternal m.managers)) ∧
      (∀ c, (m'.pool.blocks c).blockHash =
        if c ∈ (draws l (roundsOf hits numLocal numExternal m.managers)).flatten then none
        else (m.pool.blocks c).blockHash) ∧
      Keeps m m' ∧ List.Forall₂ (fun g g' =>
        TookOver m.pool.nullBlock r hits numLocal numExternal g g' ∧
        TookFresh m.pool.nullBlock r hits numLocal numExternal g g') m.managers m'.managers := by
  -- before each round: the queue `q`, from which the rest is drained, and what is drawn already
  refine (forManagers_returns (I := fun done todo p => ∃ q drawn,
    KInv p (done ++ todo) q ∧
    drain l (roundsOf hits numLocal numExternal m.managers)
      = drain q (roundsOf hits numLocal numExternal todo) ∧
    draws l (roundsOf hits numLocal numExternal m.managers)
      = drawn ++ draws q (roundsOf hits numLocal numExternal todo) ∧
    Rounds.Apart q (roundsOf hits numLocal numExternal todo) ∧
    demand q (roundsOf hits numLocal numExternal todo) ≤ q.length ∧
    (∀ g ∈ todo, Ready m.pool r hits numLocal numExternal g) ∧
    ∀ c, (p.blocks c).blockHash = if c ∈ drawn.flatten then none else (m.pool.blocks c).blockHash)
    (R := fun g g' => TookOver m.pool.nullBlock r hits numLocal numExternal g g' ∧
      TookFresh m.pool.nullBlock r hits numLocal numExternal g g') ?_
    ⟨l, [], h, rfl, rfl, hapart, hdemand, hready, fun c => by simp⟩).mono ?_
  · rintro done g todo p ⟨q, drawn, hinv, hdrain, hdraws, hapart, hdemand, hready, hhash⟩ hpool
    obtain ⟨hroom, hdemand', -⟩ := demand_rest hinv.pool.ref.queue.nodup hapart hdemand
    have hg := hready g mem_cons_self
    rw [hg.found]
    refine (hinv.allocateNewComputedBlocks hg.idle hg.empty rfl (hpool.numGpuBlocks ▸ hg.lt)
      (hpool.nullBlock ▸ hg.nodup) (hpool.enableCaching ▸ hg.off) hg.le hroom).mono ?_
    rintro x ⟨hinv', hsame, htook⟩
    rw [append_cons] at hinv'
    refine ⟨⟨_, drawn ++ [(q.filter (· ∉ (g.round (hitsOf hits g) numLocal numExternal).1)).take
      (g.round (hitsOf hits g) numLocal numExternal).2], hinv', hdrain, ?_, hapart.rest, hdemand',
      fun g' hg' => hready g' (mem_cons_of_mem g hg'), fun c => ?_⟩, hsame,
      ⟨htook.edits, ?_, ?_⟩, ?_⟩
    · rw [hdraws, append_assoc]
      rfl
    · rw [htook.blockHash, hhash, evicted_append, flatten_append, flatten_singleton]
    · rw [← hpool.nullBlock]
      refine ⟨_, ?_, htook.blocksOf⟩
      rw [length_take]
      exact Nat.min_eq_left hroom
    · rw [cachedOf, htook.cached, Option.getD_some]
    · rw [← hpool.nullBlock]
      refine ⟨_, fun hmem => ?_, htook.blocksOf⟩
      have hq := mem_of_mem_filter (mem_of_mem_take hmem)
      exact ((hinv.pool.ref.mem_iff _).mp hq).2.1 rfl
  · rintro m' ⟨⟨q, drawn, hinv, hdrain, hdraws, -, -, -, hhash⟩, hkeeps, htook⟩
    rw [append_nil] at hinv
    refine ⟨hdrain ▸ hinv, fun c => ?_, hkeeps, htook⟩
    rw [hhash, hdraws]
    simp [roundsOf, draws]

/-! ### Taking new blocks -/

/-- How many new blocks a request needs in a group. -/
def newCount (r : String) (numTokens : ℕ) (g : SingleTypeKVCacheManager) : ℕ :=
  cdiv numTokens g.spec.blockSize - (g.blocksOf r).length

/-- The list of a request has grown by the blocks it needs. -/
structure Appended (r : String) (numTokens : ℕ) (g g' : SingleTypeKVCacheManager) : Prop where
  edits : Edits r g g'
  /-- The new blocks are at the end. -/
  blocksOf : ∃ new, new.length = newCount r numTokens g ∧ g'.blocksOf r = g.blocksOf r ++ new
  numCachedBlock : g'.numCachedBlock = g.numCachedBlock

/-- The list of a request has grown by blocks of the queue: the null block is not among them. -/
def Lengthens (null : ℕ) (r : String) (g g' : SingleTypeKVCacheManager) : Prop :=
  ∃ new, null ∉ new ∧ g'.blocksOf r = g.blocksOf r ++ new

/-- **Taking new blocks**: they come from the front of the queue and lose their hashes. -/
theorem allocateNewBlocks_returns (h : KInv m.pool m.managers l) {numTokens n : ℕ}
    (hn : (m.managers.map (newCount r numTokens)).sum = n) (hroom : n ≤ l.length) :
    Returns (m.allocateNewBlocks r numTokens) fun x =>
      KInv x.2.pool x.2.managers (l.drop n) ∧
      (∀ c, (x.2.pool.blocks c).blockHash =
        if c ∈ l.take n then none else (m.pool.blocks c).blockHash) ∧
      Keeps m x.2 ∧ List.Forall₂ (fun g g' => Appended r numTokens g g' ∧
        Lengthens m.pool.nullBlock r g g') m.managers x.2.managers := by
  unfold KVCacheManager.allocateNewBlocks
  rw [returns_bind]
  -- before each round: `k` blocks are taken already
  refine (returns_thread (I := fun done todo p => ∃ k,
    KInv p (done.map Prod.snd ++ todo) (l.drop k) ∧ Same m.pool p ∧
    k + (todo.map (newCount r numTokens)).sum = n ∧
    ∀ c, (p.blocks c).blockHash = if c ∈ l.take k then none else (m.pool.blocks c).blockHash)
    (R := fun g x => Appended r numTokens g x.2 ∧ Lengthens m.pool.nullBlock r g x.2) ?_
    m.managers [] m.pool
    ⟨0, h, Same.refl _, by rw [hn, Nat.zero_add], fun c => by simp⟩).mono ?_
  · rintro done g todo p ⟨k, hinv, hsame, hk, hhash⟩
    rw [map_cons, sum_cons] at hk
    have hlen : newCount r numTokens g ≤ (l.drop k).length := by
      rw [length_drop]
      omega
    refine (hinv.allocateNewBlocks rfl hlen).mono ?_
    rintro ⟨⟨new, g'⟩, p'⟩ ⟨hinv', hsame', hedit, rfl, hblocks, hcached, hhash'⟩
    refine ⟨⟨k + newCount r numTokens g, ?_, hsame.trans hsame', by omega, fun c => ?_⟩,
      ⟨hedit, ⟨_, ?_, hblocks⟩, hcached⟩, _, fun hmem => ?_, hblocks⟩
    · rw [← drop_drop, map_append, append_assoc]
      exact hinv'
    · rw [hhash', hhash, evicted_append, take_add]
      rfl
    · rw [length_take]
      exact Nat.min_eq_left hlen
    · rw [← hsame.nullBlock] at hmem
      exact ((hinv.pool.ref.mem_iff _).mp (mem_of_mem_take hmem)).2.1 rfl
  · rintro ⟨res, pool⟩ ⟨⟨k, hinv, hsame, hk, hhash⟩, hres⟩
    obtain rfl : k = n := hk
    rw [append_nil] at hinv
    exact returns_pure.mpr ⟨hinv, hhash, ⟨rfl, rfl, hsame⟩, forall₂_map_right_iff.mpr hres⟩

/-! ### Storing full blocks -/

/-- The full blocks of a request can be stored in a group. -/
structure Storable (p : BlockPool H) (request : KvRequest H) (numTokens : ℕ)
    (g : SingleTypeKVCacheManager) : Prop where
  dvd : g.spec.blockSize % p.hashBlockSize = 0
  full : numTokens / g.spec.blockSize ≤ (g.blocksOf request.requestId).length
  hashes : numTokens / g.spec.blockSize
    ≤ request.blockHashes.length / (g.spec.blockSize / p.hashBlockSize)

/-- A full block of the request that did not count as stored, and its key. -/
def Publishes (p : BlockPool H) (request : KvRequest H) (numTokens : ℕ)
    (g : SingleTypeKVCacheManager) (c : ℕ) (k : BlockKey H) : Prop :=
  ∃ i, g.cachedOf request.requestId ≤ i ∧ i < numTokens / g.spec.blockSize ∧
    (g.blocksOf request.requestId)[i]? = some c ∧ c ≠ p.nullBlock ∧
    (regroup request.blockHashes (g.spec.blockSize / p.hashBlockSize))[i]? = some k.1 ∧
    g.kvCacheGroupId = k.2

/-- How storing changes the hashes: no block loses one, and only full blocks of the request get
one. -/
structure Published (m : KVCacheManager H) (p' : BlockPool H) (request : KvRequest H)
    (numTokens : ℕ) : Prop where
  /-- No block loses its hash. -/
  keeps : ∀ c k, (m.pool.blocks c).blockHash = some k → (p'.blocks c).blockHash = some k
  /-- Where a hash comes from. -/
  origin : ∀ c k, (p'.blocks c).blockHash = some k →
    (m.pool.blocks c).blockHash = some k ∨ ∃ g ∈ m.managers, Publishes m.pool request numTokens g c k

/-- Of a request at most the number of stored blocks changes. -/
structure Relists (r : String) (g g' : SingleTypeKVCacheManager) : Prop where
  edits : Edits r g g'
  blocksOf : g'.blocksOf r = g.blocksOf r

theorem Relists.refl (r : String) (g : SingleTypeKVCacheManager) : Relists r g g :=
  ⟨Edits.refl r g, rfl⟩

/-- **Storing full blocks.** -/
theorem cacheAll_returns (h : KInv m.pool m.managers l) {request : KvRequest H} {numTokens : ℕ}
    (hcaching : m.enableCaching = true) (hpos : 0 < m.pool.hashBlockSize)
    (hready : ∀ g ∈ m.managers, Storable m.pool request numTokens g) :
    Returns (m.cacheAll request numTokens) fun m' =>
      KInv m'.pool m'.managers l ∧ Published m m'.pool request numTokens ∧ Keeps m m' ∧
        List.Forall₂ (Relists request.requestId) m.managers m'.managers := by
  refine (forManagers_returns (I := fun done todo p => KInv p (done ++ todo) l ∧
    Published m p request numTokens ∧ ∀ g ∈ todo, g ∈ m.managers) (R := Relists request.requestId) ?_
    ⟨h, ⟨fun _ _ hk => hk, fun _ _ hk => Or.inl hk⟩, fun _ hg => hg⟩).mono ?_
  · rintro done g todo p ⟨hinv, hpub, hmem⟩ hpool
    have hg := hmem g mem_cons_self
    obtain ⟨hdvd, hfull, hhashes⟩ := hready g hg
    refine (hinv.cacheBlocks (hpool.enableCaching.trans hcaching) (hpool.hashBlockSize ▸ hpos)
      (hpool.hashBlockSize ▸ hdvd) hfull (hpool.hashBlockSize ▸ hhashes)).mono ?_
    rintro x ⟨hinv', hsame, hedit, hblocks, -, hstored⟩
    rw [append_cons] at hinv'
    refine ⟨⟨hinv', ⟨fun c k hk => ?_, fun c k hk => ?_⟩,
      fun g' hg' => hmem g' (mem_cons_of_mem g hg')⟩, hsame, hedit, hblocks⟩
    all_goals by_cases hc : c ∉ g.toStore request.requestId numTokens ∨ c = p.nullBlock
    · rw [hstored.other c hc]
      exact hpub.keeps c k hk
    · -- what is stored now had no hash
      rw [not_or, not_not] at hc
      have hnone := hinv.groups.plain g (by simp) request.requestId c
        (mem_uncachedOf_of_mem_toStore hc.1) hc.2
      rw [hpub.keeps c k hk] at hnone
      cases hnone
    · rw [hstored.other c hc] at hk
      exact hpub.origin c k hk
    · rw [not_or, not_not] at hc
      obtain ⟨i, hi, hlt, hb⟩ := exists_of_mem_toStore hc.1
      have hhash : (regroup request.blockHashes (g.spec.blockSize / p.hashBlockSize))[i]?
          = some ((request.blockHashes.drop (i * (g.spec.blockSize / p.hashBlockSize))).take
            (g.spec.blockSize / p.hashBlockSize)) := by
        apply regroup_getElem?
        rw [hpool.hashBlockSize]
        omega
      rw [hstored.stored i c _ hi hlt hb hhash hc.2] at hk
      obtain rfl := Option.some.inj hk
      refine Or.inr ⟨g, hg, i, hi, hlt, hb, hpool.nullBlock ▸ hc.2, ?_, rfl⟩
      rw [← hpool.hashBlockSize]
      exact hhash
  · rintro m' ⟨⟨hinv, hpub, -⟩, hkeeps, hstored⟩
    rw [append_nil] at hinv
    exact ⟨hinv, hpub, hkeeps, hstored⟩

end Hashed

end KVCacheManager

end CacheFlow
