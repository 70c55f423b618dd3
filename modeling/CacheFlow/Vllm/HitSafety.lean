import CacheFlow.Vllm.Driver

/-!
# Hits and the blocks for external tokens

`allocate_slots` counts beforehand how many blocks it is going to take out of the queue: new ones,
and hits that wait there without references. It then takes them group by group, and a group takes
blocks for externally computed tokens before the next one has taken over its hits. Such a block
can be a hit of a later group. Then this hit is evicted, two groups share a block, and fewer
blocks leave the queue than were counted.

Both go well if and only if no group draws what a later one hits (`Spared`), a condition on the
queue at the time of the call.

## Main results

* `Driven.exactCall_iff` — when a call takes as many blocks as it counted.
* `Driven.hitsSurvive_iff` — when the hits survive their own allocation.
-/

namespace CacheFlow

open List SingleTypeKVCacheManager KVCacheManager

variable {H : Type}

namespace KVCacheManager

/-! ### The properties and their conditions -/

/-- The queue of free blocks. -/
def queue (m : KVCacheManager H) : List ℕ := m.pool.freeBlockQueue.getAllFreeBlocks

/-- Nothing is changed but that blocks of the request that lie before the window are given back. -/
structure OnlyTrimmed (request : KvRequest H) (a : SlotArgs) (m m' : KVCacheManager H) : Prop where
  blockHash : ∀ b, (m'.pool.blocks b).blockHash = (m.pool.blocks b).blockHash
  cached : m'.pool.cachedBlockHashToBlock = m.pool.cachedBlockHashToBlock
  /-- No block leaves the queue, and only blocks before the window come in. -/
  queue : ∃ freed, m'.queue = m.queue ++ freed ∧
    ∀ b ∈ freed, BeforeWindow m request.requestId (m.totalComputedTokens request a) b
  /-- No block gets a reference. -/
  refCnt : ∀ b, b ≠ m.pool.nullBlock → (m'.pool.blocks b).refCnt ≤ (m.pool.blocks b).refCnt
  /-- The lists are the same but for null blocks before the window. -/
  lists : List.Forall₂ (fun g => SkipsOnly m.pool.nullBlock
    (g.numSkippedBlocks (m.totalComputedTokens request a)) request.requestId g) m.managers m'.managers

/-- The hits have kept their hashes and are at their places, no two groups share a block, and no block
is twice in the list of one. -/
def Survive (request : KvRequest H) (a : SlotArgs) (m m' : KVCacheManager H) : Prop :=
  (∀ g ∈ m.managers, ∀ (i b : ℕ), (hitsOf a.newComputedBlocks g)[i]? = some b →
    b ≠ m.pool.nullBlock →
    (m'.pool.blocks b).blockHash = (m.pool.blocks b).blockHash ∧
      ∃ g' ∈ m'.managers, g'.kvCacheGroupId = g.kvCacheGroupId ∧
        (g'.blocksOf request.requestId)[i]? = some b) ∧
  (∀ g ∈ m'.managers, ∀ g' ∈ m'.managers, ∀ b ∈ g.blocksOf request.requestId,
    b ∈ g'.blocksOf request.requestId → b ≠ m.pool.nullBlock →
    g.kvCacheGroupId = g'.kvCacheGroupId) ∧
  ∀ g ∈ m'.managers, ((g.blocksOf request.requestId).filter (· ≠ m'.pool.nullBlock)).Nodup

section Property

variable [DecidableEq H]

/-- The call is all-or-nothing and takes as many blocks as it counted. -/
def ExactCall (m : KVCacheManager H) (request : KvRequest H) (a : SlotArgs) : Prop :=
  (∀ m', m.allocateSlots request a = .ok (none, m') → OnlyTrimmed request a m m') ∧
  ∃ m₀ est, m.removeSkippedBlocks request.requestId (m.totalComputedTokens request a) = .ok m₀ ∧
    m₀.numBlocksToAllocate request a = .ok est ∧
    (est ≤ m₀.pool.getNumFreeBlocks → ∃ new m', m.allocateSlots request a = .ok (some new, m') ∧
      m'.pool.getNumFreeBlocks = m₀.pool.getNumFreeBlocks - est)

/-- The hits survive the call, if it succeeds. -/
def HitsSurvive (m : KVCacheManager H) (request : KvRequest H) (a : SlotArgs) : Prop :=
  ∀ new m', m.allocateSlots request a = .ok (some new, m') → Survive request a m m'

end Property

/-- There are enough free blocks for the hits, the external tokens and the new ones. -/
def Granted (m : KVCacheManager H) (request : KvRequest H) (a : SlotArgs) : Prop :=
  demand m.queue (m.rounds request a) + (m.managers.map (m.admitCount request a)).sum
    ≤ m.queue.length

/-- No group draws a block for external tokens that a later group hits. -/
def HitsSpared (m : KVCacheManager H) (request : KvRequest H) (a : SlotArgs) : Prop :=
  Spared m.queue (m.rounds request a)

/-- No hit lies before the window of its group. -/
def HitsInWindow (m : KVCacheManager H) (request : KvRequest H) (a : SlotArgs) : Prop :=
  ∀ g ∈ m.managers, ∀ (i b : ℕ), (hitsOf a.newComputedBlocks g)[i]? = some b →
    b ≠ m.pool.nullBlock →
    g.numSkippedBlocks (a.localTokens request + a.numExternalComputedTokens) ≤ i

/-! ### The number of blocks -/

variable {cfg : KVCacheConfig} {m m' : KVCacheManager H} {l : List ℕ} {request : KvRequest H}
  {a : SlotArgs}

theorem queue_eq (h : KInv m.pool m.managers l) : m.queue = l :=
  h.pool.ref.queue.getAllFreeBlocks_eq

theorem getNumFreeBlocks_eq (h : KInv m.pool m.managers l) : m.pool.getNumFreeBlocks = l.length :=
  h.pool.ref.queue.num

theorem Trims.onlyTrimmed (ht : Trims request.requestId (m.totalComputedTokens request a) l m m')
    (h : KInv m.pool m.managers l) : OnlyTrimmed request a m m' := by
  obtain ⟨freed, hfreed, hinv⟩ := ht.inv
  refine ⟨ht.hashes.blockHash, ht.hashes.cached, ⟨freed, ?_, hfreed⟩, fun b hb => ht.refCnt_le h hb,
    ht.skips⟩
  rw [queue_eq h, queue_eq hinv]

theorem Trims.admitCount_eq {m₀ : KVCacheManager H} {r : String} {total : ℕ}
    (ht : Trims r total l m m₀) :
    (m₀.managers.map (m₀.admitCount request a)).sum
      = (m.managers.map (m.admitCount request a)).sum := by
  refine congrArg List.sum (map_eq_map_of_forall₂ ht.edits fun g g₀ hedit => ?_).symm
  unfold admitCount numTokensNeedSlot totalComputedTokens
  rw [hitsOf_edits hedit, hedit.round, hedit.numSkippedBlocks, hedit.spec, ht.keeps.maxModelLen]

section Count

variable [DecidableEq H]

/-- Without enough free blocks the call returns nothing. -/
theorem onlyTrimmed_of_none {m₀ : KVCacheManager H} {n est : ℕ}
    (ht : Trims request.requestId (m.totalComputedTokens request a) l m m₀)
    (h : KInv m.pool m.managers l)
    (hshort : n < est → m.allocateSlots request a = .ok (none, m₀))
    (henough : est ≤ n → ∃ x, m.allocateSlots request a = .ok x ∧ x.1.isSome = true)
    (hm' : m.allocateSlots request a = .ok (none, m')) : OnlyTrimmed request a m m' := by
  rcases Nat.lt_or_ge n est with hlt | hge
  · rw [hshort hlt] at hm'
    cases hm'
    exact ht.onlyTrimmed h
  · obtain ⟨x, hx, hsome⟩ := henough hge
    rw [hx] at hm'
    cases hm'
    cases hsome

/-- **A new request**: the call takes as many blocks as counted exactly when hits are spared. -/
theorem exactCall_iff_of_admissible (ha : Admissible m request a) (hc : Configured cfg m)
    (hpos : ¬ (a.numNewTokens = 0 ∧ a.numExternalComputedTokens = 0))
    (h : KInv m.pool m.managers l) :
    ExactCall m request a ↔ (Granted m request a → HitsSpared m request a) := by
  obtain ⟨m₀, est, ht, hskip, hinv, hest, hsum, hshort, henough⟩ :=
    allocateSlots_of_admissible ha hc hpos h
  rw [ht.admitCount_eq] at hsum henough
  have hfree := getNumFreeBlocks_eq hinv
  rw [Granted, HitsSpared, queue_eq h, ← hsum]
  -- how long the queue is after a call that succeeds
  have hafter : est ≤ l.length → Returns (m.allocateSlots request a) fun x => x.1.isSome = true ∧
      (x.2.pool.getNumFreeBlocks = m₀.pool.getNumFreeBlocks - est ↔ Spared l (m.rounds request a)) := by
    intro hle
    obtain ⟨hlen, hiff⟩ := length_drain h.pool.ref.queue.nodup (ha.apart hc h) (by omega)
    refine (henough hle).mono ?_
    rintro x ⟨hsome, ⟨m₁, m₂, -, hfills⟩, -⟩
    refine ⟨hsome, ?_⟩
    rw [getNumFreeBlocks_eq hfills.inv, hfree, length_drop, ← hiff]
    omega
  constructor
  · rintro ⟨-, m₀', est', hskip', hest', hexact⟩ hle
    cases hskip.symm.trans hskip'
    cases hest.symm.trans hest'
    obtain ⟨new, m', hcall, hnum⟩ := hexact (by rw [hfree]; omega)
    exact ((hafter hle).of_eq hcall).2.mp hnum
  · intro hspared
    refine ⟨fun m' hm' => onlyTrimmed_of_none ht h hshort (fun hle => ?_) hm', m₀, est, hskip, hest,
      fun hle => ?_⟩
    · obtain ⟨x, hx, hsome, -⟩ := hafter hle
      exact ⟨x, hx, hsome⟩
    · have hle' : est ≤ l.length := by
        omega
      obtain ⟨⟨new, m'⟩, hcall, hsome, hiff⟩ := hafter hle'
      obtain ⟨new, rfl⟩ := Option.isSome_iff_exists.mp hsome
      exact ⟨new, m', hcall, hiff.mpr (hspared hle')⟩

/-- **A request that has slots**: the call always takes as many blocks as counted. -/
theorem exactCall_of_mayExtend (ha : MayExtend m request a) (hc : Configured cfg m)
    (hslots : Slotted m request.requestId request.numComputedTokens)
    (h : KInv m.pool m.managers l) : ExactCall m request a := by
  obtain ⟨m₀, est, l₀, ht, hskip, hinv, hest, hshort, henough⟩ :=
    allocateSlots_of_mayExtend ha hc hslots h
  have hfree := getNumFreeBlocks_eq hinv
  refine ⟨fun m' hm' => onlyTrimmed_of_none ht h hshort (fun hle => ?_) hm', m₀, est, hskip, hest,
    fun hle => ?_⟩
  · obtain ⟨x, hx, hsome, -⟩ := henough hle
    exact ⟨x, hx, hsome⟩
  · rw [hfree] at hle
    obtain ⟨⟨new, m'⟩, hcall, hsome, ⟨m₂, hfills⟩, -⟩ := henough (by omega)
    obtain ⟨new, rfl⟩ := Option.isSome_iff_exists.mp hsome
    refine ⟨new, m', hcall, ?_⟩
    rw [getNumFreeBlocks_eq hfills.inv, hfree, length_drop]
    omega

end Count

theorem MayExtend.hitsSpared (ha : MayExtend m request a) (hc : Configured cfg m) :
    HitsSpared m request a := by
  refine spared_of_nil fun x hx => ?_
  obtain ⟨g, hg, rfl⟩ := List.mem_map.mp hx
  have hnil : KVCacheManager.hitsOf a.newComputedBlocks g = [] := by
    rw [KVCacheManager.hitsOf, ha.hitsOf hc hg]
    rfl
  rw [hnil, SingleTypeKVCacheManager.round, SingleTypeKVCacheManager.keptHits, List.drop_nil]

/-! ### The places of the hits -/

/-- What a request has in a group before full blocks are stored. -/
structure Placed (null : ℕ) (request : KvRequest H) (a : SlotArgs) (g g' : SingleTypeKVCacheManager) :
    Prop where
  edits : Edits request.requestId g g'
  /-- Null blocks before the window, the hits, the rest. -/
  blocksOf : ∃ rest, g'.blocksOf request.requestId =
    List.replicate (g.numSkippedBlocks (a.localTokens request + a.numExternalComputedTokens)) null ++
      (hitsOf a.newComputedBlocks g).drop
        (g.numSkippedBlocks (a.localTokens request + a.numExternalComputedTokens)) ++ rest
  /-- All but the rest count as stored. -/
  cachedOf : g'.cachedOf request.requestId =
    g.numSkippedBlocks (a.localTokens request + a.numExternalComputedTokens) +
      ((hitsOf a.newComputedBlocks g).drop
        (g.numSkippedBlocks (a.localTokens request + a.numExternalComputedTokens))).length

section Places

variable {null i b : ℕ} {g g' : SingleTypeKVCacheManager} {m₁ m₂ : KVCacheManager H} {n : ℕ}

section

variable (hp : Placed null request a g g')
include hp

theorem Placed.getElem?_of_le (hb : (hitsOf a.newComputedBlocks g)[i]? = some b)
    (hi : g.numSkippedBlocks (a.localTokens request + a.numExternalComputedTokens) ≤ i) :
    (g'.blocksOf request.requestId)[i]? = some b := by
  obtain ⟨rest, hblocks⟩ := hp.blocksOf
  have hlt := (List.getElem?_eq_some_iff.mp hb).1
  rw [hblocks, append_assoc, List.getElem?_append_right (by rwa [length_replicate]),
    length_replicate, List.getElem?_append_left (by rw [length_drop]; omega),
    List.getElem?_drop, Nat.add_sub_cancel' hi, hb]

theorem Placed.getElem?_of_lt
    (hi : i < g.numSkippedBlocks (a.localTokens request + a.numExternalComputedTokens)) :
    (g'.blocksOf request.requestId)[i]? = some null := by
  obtain ⟨rest, hblocks⟩ := hp.blocksOf
  rw [hblocks, append_assoc, List.getElem?_append_left (by rwa [length_replicate]),
    List.getElem?_replicate, if_pos hi]

/-- A block of the request is a hit, or it does not count as stored. -/
theorem Placed.cases (hb : b ∈ g'.blocksOf request.requestId)
    (hne : b ≠ null) :
    b ∈ (hitsOf a.newComputedBlocks g).drop
        (g.numSkippedBlocks (a.localTokens request + a.numExternalComputedTokens)) ∨
      b ∈ g'.uncachedOf request.requestId := by
  obtain ⟨rest, hblocks⟩ := hp.blocksOf
  rw [uncachedOf, hp.cachedOf, hblocks,
    drop_left' (by rw [length_append, length_replicate])]
  rw [hblocks, mem_append, mem_append] at hb
  rcases hb with (hb | hb) | hb
  · exact absurd (eq_of_mem_replicate hb) hne
  · exact Or.inl hb
  · exact Or.inr hb

theorem Placed.lt_cachedOf
    (hb : (hitsOf a.newComputedBlocks g)[i]? = some b) : i < g'.cachedOf request.requestId := by
  have hlt := (List.getElem?_eq_some_iff.mp hb).1
  rw [hp.cachedOf, length_drop]
  omega

end

section Filled

variable (ht : TakesOver request a l m m₁)
  (hf : Fills request a (drain l (m.rounds request a)) n m₁ m₂ m')

include ht hf

theorem TakesOver.placed :
    List.Forall₂ (Placed m.pool.nullBlock request a) m.managers m₂.managers := by
  refine forall₂_comp (fun g g₁ g₂ htook happ => ?_) ht.tookOver hf.appended
  obtain ⟨fresh, -, hblocks⟩ := htook.blocksOf
  obtain ⟨new, -, hblocks'⟩ := happ.blocksOf
  refine ⟨htook.edits.trans happ.edits, ⟨fresh ++ new, ?_⟩, ?_⟩
  · rw [hblocks', hblocks, append_assoc]
    rfl
  · rw [cachedOf, happ.numCachedBlock]
    exact htook.cachedOf

/-! ### The hashes of the hits -/

/-- A hit in the window that is spared keeps its hash until full blocks are stored. -/
theorem TakesOver.blockHash_of_spared (hspared : Spared l (m.rounds request a))
    (hg : g ∈ m.managers)
    (hb : b ∈ (hitsOf a.newComputedBlocks g).drop (g.numSkippedBlocks (a.localTokens request +
      a.numExternalComputedTokens))) :
    (m₂.pool.blocks b).blockHash = (m.pool.blocks b).blockHash := by
  have hdrawn : b ∉ (draws l (m.rounds request a)).flatten :=
    spared_iff_draws.mp hspared _ (mem_map_of_mem hg) b hb
  -- the request holds the block when new ones are taken
  have hqueue : b ∉ (drain l (m.rounds request a)).take n := by
    intro hmem
    obtain ⟨g₁, hg₁, htook⟩ := exists_of_mem_left ht.tookOver g hg
    obtain ⟨fresh, -, hblocks⟩ := htook.blocksOf
    refine ht.inv.pool.ref.not_mem_of_mem (mem_of_mem_take hmem)
      (mem_heldAll_of_mem_blocksOf (r := request.requestId) hg₁ ?_)
    rw [hblocks]
    exact mem_append_left fresh (mem_append_right _ hb)
  rw [hf.evicted, if_neg hqueue, ht.evicted, if_neg hdrawn]

/-- A hit that keeps its hash was not drawn: storing blocks does not give it back, because the hash
belongs to a place that counts as stored already. -/
theorem TakesOver.not_mem_draws (hc : Configured cfg m) (h : KInv m.pool m.managers l)
    (hg : g ∈ m.managers) (hhits : HitsOk m request a.newComputedBlocks a.numNewComputedTokens g)
    (hb : (hitsOf a.newComputedBlocks g)[i]? = some b) (hne : b ≠ m.pool.nullBlock)
    (hkeeps : (m'.pool.blocks b).blockHash = (m.pool.blocks b).blockHash) :
    b ∉ (draws l (m.rounds request a)).flatten := by
  intro hdrawn
  obtain ⟨hash, hget, hhash⟩ := hhits.blockHash h.pool.hash hb hne
  have hcaching : m.enableCaching = true := by
    by_contra hoff
    rw [hhits.off (by simpa using hoff)] at hb
    cases hb
  have hnone : (m₂.pool.blocks b).blockHash = none := by
    rw [hf.evicted, ht.evicted, if_pos hdrawn, ite_self]
  rcases hf.published.origin b _ (hkeeps.trans hhash) with hsome | hpub
  · rw [hnone] at hsome
    cases hsome
  · obtain ⟨g₂, hg₂, j, hj, -, -, -, hget', hid⟩ := hpub
    obtain ⟨g₀, hg₀, hp⟩ := exists_of_mem_right (ht.placed hf) g₂ hg₂
    -- it is the list of the same group
    obtain rfl : g₀ = g := by
      have hfst := (hc.mem hg₀).1
      rw [← hp.edits.id, hid, (hc.mem hg).1] at hfst
      exact (Option.some.inj hfst).symm
    have hsize : m₂.pool.hashBlockSize = m.pool.hashBlockSize :=
      hf.keeps₂.pool.hashBlockSize.trans ht.keeps.pool.hashBlockSize
    rw [hp.edits.spec, hsize] at hget'
    have hij := regroup_inj request.nodup (hc.hashBlocks_pos hcaching hg) hget hget'
    have hlt := hp.lt_cachedOf hb
    omega

theorem TakesOver.eq_of_mem (h : KInv m.pool m.managers l)
    (hspared : Spared l (m.rounds request a))
    (hhits : ∀ g ∈ m.managers, HitsOk m request a.newComputedBlocks a.numNewComputedTokens g)
    (hg : g ∈ m₂.managers) (hg' : g' ∈ m₂.managers) (hb : b ∈ g.blocksOf request.requestId)
    (hb' : b ∈ g'.blocksOf request.requestId) (hne : b ≠ m.pool.nullBlock) :
    g.kvCacheGroupId = g'.kvCacheGroupId := by
  have hnull : b ≠ m₂.pool.nullBlock := by
    rwa [hf.keeps₂.pool.nullBlock, ht.keeps.pool.nullBlock]
  have hplain := hf.allocated.groups.plain
  -- a hit has a hash of its group, and what does not count as stored has none
  have hhit : ∀ g ∈ m₂.managers, b ∈ g.blocksOf request.requestId →
      (∃ hash, (m₂.pool.blocks b).blockHash = some (hash, g.kvCacheGroupId)) ∨
        b ∈ g.uncachedOf request.requestId := by
    intro g hg hb
    obtain ⟨g₀, hg₀, hp⟩ := exists_of_mem_right (ht.placed hf) g hg
    refine (hp.cases hb hne).imp_left fun hmem => ?_
    obtain ⟨i, hi⟩ := mem_iff_getElem?.mp (mem_of_mem_drop hmem)
    obtain ⟨hash, -, hhash⟩ := (hhits g₀ hg₀).blockHash h.pool.hash hi hne
    refine ⟨hash, ?_⟩
    rw [ht.blockHash_of_spared hf hspared hg₀ hmem, hhash, hp.edits.id]
  rcases hhit g hg hb with ⟨hash, hhash⟩ | hunc <;>
    rcases hhit g' hg' hb' with ⟨hash', hhash'⟩ | hunc'
  · rw [hhash, Option.some.injEq, Prod.mk.injEq] at hhash'
    exact hhash'.2
  · rw [hplain g' hg' _ b hunc' hnull] at hhash
    cases hhash
  · rw [hplain g hg _ b hunc hnull] at hhash'
    cases hhash'
  · exact (hf.allocated.groups.once g hg _ g' hg' _ b hunc hunc' hnull).1

omit ht hf in
theorem null_not_mem_draws (h : KInv m.pool m.managers l) :
    m.pool.nullBlock ∉ (draws l (m.rounds request a)).flatten :=
  fun hmem => ((h.pool.ref.mem_iff _).mp (mem_of_mem_draws hmem)).2.1 rfl

theorem TakesOver.exists_placed (hg : g ∈ m.managers) :
    ∃ g' ∈ m'.managers, g'.kvCacheGroupId = g.kvCacheGroupId ∧
      ∃ g₂, g'.blocksOf request.requestId = g₂.blocksOf request.requestId ∧
        Placed m.pool.nullBlock request a g g₂ := by
  obtain ⟨g₂, hg₂, hp⟩ := exists_of_mem_left (ht.placed hf) g hg
  obtain ⟨g', hg', hrel⟩ := exists_of_mem_left hf.relists g₂ hg₂
  exact ⟨g', hg', hrel.edits.id.trans hp.edits.id, g₂, hrel.blocksOf, hp⟩

/-- Hits in the window that are spared survive. -/
theorem TakesOver.survive (ha : Admissible m request a) (h : KInv m.pool m.managers l)
    (hwindow : HitsInWindow m request a) (hspared : Spared l (m.rounds request a)) :
    Survive request a m m' := by
  refine ⟨fun g hg i b hb hne => ⟨?_, ?_⟩, fun g hg g' hg' b hb hb' hne => ?_,
    fun g hg => hf.inv.groups.nodup g hg _⟩
  · obtain ⟨hash, -, hhash⟩ := (ha.hitsOk g hg).blockHash h.pool.hash hb hne
    rw [hhash]
    apply hf.published.keeps
    rw [ht.blockHash_of_spared hf hspared hg, hhash]
    apply mem_of_getElem? (i := i - g.numSkippedBlocks
      (a.localTokens request + a.numExternalComputedTokens))
    rw [List.getElem?_drop, Nat.add_sub_cancel' (hwindow g hg i b hb hne), hb]
  · obtain ⟨g', hg', hid, g₂, hblocks, hp⟩ := ht.exists_placed hf hg
    refine ⟨g', hg', hid, ?_⟩
    rw [hblocks]
    exact hp.getElem?_of_le hb (hwindow g hg i b hb hne)
  · obtain ⟨g₂, hg₂, hrel⟩ := exists_of_mem_right hf.relists g hg
    obtain ⟨g₂', hg₂', hrel'⟩ := exists_of_mem_right hf.relists g' hg'
    rw [hrel.blocksOf] at hb
    rw [hrel'.blocksOf] at hb'
    rw [hrel.edits.id, hrel'.edits.id]
    exact ht.eq_of_mem hf h hspared ha.hitsOk hg₂ hg₂' hb hb' hne

/-- Hits survive exactly when they are in the window and spared. -/
theorem TakesOver.survive_iff (ha : Admissible m request a) (hc : Configured cfg m)
    (h : KInv m.pool m.managers l) :
    Survive request a m m' ↔ HitsInWindow m request a ∧ Spared l (m.rounds request a) := by
  refine ⟨fun hsurvive => ⟨fun g hg i b hb hne => ?_, spared_iff_draws.mpr fun x hx b hb => ?_⟩,
    fun ⟨hwindow, hspared⟩ => ht.survive hf ha h hwindow hspared⟩
  · -- before the window there are null blocks
    obtain ⟨-, g', hg', hid, hget⟩ := hsurvive.1 g hg i b hb hne
    obtain ⟨g'', hg'', hid', g₂, hblocks, hp⟩ := ht.exists_placed hf hg
    obtain rfl : g'' = g' :=
      inj_on_of_nodup_map hf.inv.groups.ids hg'' hg' (hid'.trans hid.symm)
    by_contra hlt
    rw [hblocks, hp.getElem?_of_lt (Nat.lt_of_not_le hlt), Option.some.injEq] at hget
    exact hne hget.symm
  · obtain ⟨g, hg, rfl⟩ := mem_map.mp hx
    by_cases hne : b = m.pool.nullBlock
    · rw [hne]
      exact null_not_mem_draws h
    · obtain ⟨i, hi⟩ := mem_iff_getElem?.mp (mem_hits_of_mem_round hb)
      exact ht.not_mem_draws hf hc h hg (ha.hitsOk g hg) hi hne (hsurvive.1 g hg i b hi hne).1

end Filled

theorem Trims.survive_iff {r : String} {total : ℕ} {m₀ : KVCacheManager H}
    (ht : Trims r total l m m₀) : Survive request a m₀ m' ↔ Survive request a m m' := by
  unfold Survive
  rw [ht.keeps.pool.nullBlock]
  refine and_congr_left' (forall_mem_iff_of_forall₂ ht.edits fun g g₀ hedit => ?_).symm
  simp only [hitsOf_edits hedit, hedit.id, ht.hashes.blockHash]

theorem Trims.hitsInWindow_iff {r : String} {total : ℕ} {m₀ : KVCacheManager H}
    (ht : Trims r total l m m₀) : HitsInWindow m₀ request a ↔ HitsInWindow m request a := by
  unfold HitsInWindow
  rw [ht.keeps.pool.nullBlock]
  refine (forall_mem_iff_of_forall₂ ht.edits fun g g₀ hedit => ?_).symm
  simp only [hitsOf_edits hedit, hedit.numSkippedBlocks]

/-- **A new request**: its hits survive exactly when they are in the window and spared. -/
theorem hitsSurvive_iff_of_admissible [DecidableEq H] (ha : Admissible m request a)
    (hc : Configured cfg m) (hpos : ¬ (a.numNewTokens = 0 ∧ a.numExternalComputedTokens = 0))
    (h : KInv m.pool m.managers l) :
    HitsSurvive m request a ↔
      (Granted m request a → HitsInWindow m request a ∧ HitsSpared m request a) := by
  obtain ⟨m₀, est, ht, -, hinv, -, hsum, hshort, henough⟩ := allocateSlots_of_admissible ha hc hpos h
  have hc₀ : Configured cfg m₀ := hc.step ht.keeps ht.edits
  rw [ht.admitCount_eq] at hsum henough
  rw [Granted, HitsSpared, queue_eq h, ← hsum, ← ht.hitsInWindow_iff]
  rw [← ht.rounds_eq] at henough ⊢
  -- what a call that succeeds comes to
  have hafter : ∀ {new m'}, est ≤ l.length → m.allocateSlots request a = .ok (some new, m') →
      (Survive request a m m' ↔ HitsInWindow m₀ request a ∧ Spared l (m₀.rounds request a)) := by
    intro new m' hle hcall
    obtain ⟨-, ⟨m₁, m₂, htake, hf⟩, -⟩ := (henough hle).of_eq hcall
    rw [← ht.survive_iff]
    exact htake.survive_iff hf (ht.admissible ha) hc₀ hinv
  constructor
  · intro hsurvive hle
    obtain ⟨⟨new, m'⟩, hcall, hsome, -⟩ := henough hle
    obtain ⟨new, rfl⟩ := Option.isSome_iff_exists.mp hsome
    exact (hafter hle hcall).mp (hsurvive new m' hcall)
  · intro hcond new m' hcall
    have hle : est ≤ l.length := by
      by_contra hlt
      rw [hshort (Nat.lt_of_not_le hlt)] at hcall
      cases hcall
    exact (hafter hle hcall).mpr (hcond hle)

end Places

end KVCacheManager

/-! ### Under the scheduler -/

namespace Driven

section Calls

variable [DecidableEq H] {cfg : KVCacheConfig} {d : Driven H} {request : KvRequest H}
  {a : SlotArgs}

/-- **A call takes as many blocks as it counted** exactly when it is not granted, or no group draws
what a later one hits. -/
theorem exactCall_iff (h : Reachable cfg d)
    (hlegal : d.Legal (.start request a) ∨ d.Legal (.extend request a)) :
    d.manager.ExactCall request a ↔
      (d.manager.Granted request a → d.manager.HitsSpared request a) := by
  obtain ⟨hc, -, ⟨l, hinv⟩, hidle, hslotted⟩ := h.inv
  rcases hlegal with ⟨hfree, ha⟩ | ⟨⟨n, hget, hn⟩, ha⟩
  · exact exactCall_iff_of_admissible
      (ha.admissible hc (hidle _ hfree)) hc ha.pos hinv
  · exact iff_of_true (exactCall_of_mayExtend ha hc
      (fun g hg => hn.trans (hslotted _ n hget g hg)) hinv) fun _ => ha.hitsSpared hc

/-- **Hits survive their own allocation** exactly when the call is not granted, or they are in the
window and no group draws what a later one hits. -/
theorem hitsSurvive_iff (h : Reachable cfg d)
    (hlegal : d.Legal (.start request a)) :
    d.manager.HitsSurvive request a ↔
      (d.manager.Granted request a →
        d.manager.HitsInWindow request a ∧ d.manager.HitsSpared request a) := by
  obtain ⟨hc, -, ⟨l, hinv⟩, hidle, -⟩ := h.inv
  exact hitsSurvive_iff_of_admissible
    (hlegal.2.admissible hc (hidle _ hlegal.1)) hc hlegal.2.pos hinv

end Calls

/-! ### A hit that is drawn -/

/-- A model with full attention and a sliding window, and six blocks beside the null block. -/
def hybrid : KVCacheConfig where
  numBlocks := 7
  kvCacheGroups := [⟨1, .full, 0, Nat.one_pos, AttentionKind.full_pos⟩,
    ⟨1, .slidingWindow 100, 0, Nat.one_pos, by simp⟩]
  maxModelLen := 8
  hashBlockSize := 1
  enableCaching := true
  useEagle := false
  hashBlockSize_pos := Nat.one_pos

/-- A request of one token. -/
def short : KvRequest ℕ := tokens "a" [0] (by decide)

/-- A request of two other tokens. -/
def other : KvRequest ℕ := tokens "c" [10, 11] (by decide)

/-- A request that starts with the token of the first. -/
def longer : KvRequest ℕ := tokens "b" [0, 20, 21] (by decide)

/-- The manager at the start. -/
def fresh : Driven ℕ := ⟨result (new hybrid) (by decide +kernel), ∅⟩

/-- The first request has slots. -/
def one : Driven ℕ := result (fresh.step (slotsFor short)) (by decide +kernel)

/-- Both requests have slots; no block is free. -/
def both : Driven ℕ := result (one.step (slotsFor other)) (by decide +kernel)

/-- The blocks of the short request are free. -/
def shortFreed : Driven ℕ := result (both.step (.free "a")) (by decide +kernel)

/-- The blocks of the short request are the first in the queue. -/
def shortFirst : Driven ℕ := result (shortFreed.step (.free "c")) (by decide +kernel)

/-- The blocks of the other request are free. -/
def otherFreed : Driven ℕ := result (both.step (.free "c")) (by decide +kernel)

/-- The blocks of the short request are the last in the queue. -/
def shortLast : Driven ℕ := result (otherFreed.step (.free "a")) (by decide +kernel)

theorem reachable_both : Reachable hybrid both := by
  have hinit : Reachable hybrid fresh := .init (eq_ok_result _ _)
  have hone : fresh.Legal (slotsFor short) :=
    ⟨rfl, ⟨by decide +kernel, fun _ => by decide +kernel⟩, rfl, by decide +kernel, by decide,
      by decide⟩
  have hboth : one.Legal (slotsFor other) :=
    ⟨by decide +kernel, ⟨by decide +kernel, fun _ => by decide +kernel⟩, rfl, by decide +kernel,
      by decide, by decide⟩
  exact .step (.step hinit hone (eq_ok_result _ _)) hboth (eq_ok_result _ _)

theorem reachable_shortFirst : Reachable hybrid shortFirst := by
  have hshort : both.Legal (.free "a") := trivial
  have hother : shortFreed.Legal (.free "c") := trivial
  exact .step (.step reachable_both hshort (eq_ok_result _ _)) hother (eq_ok_result _ _)

theorem reachable_shortLast : Reachable hybrid shortLast := by
  have hother : both.Legal (.free "c") := trivial
  have hshort : otherFreed.Legal (.free "a") := trivial
  exact .step (.step reachable_both hother (eq_ok_result _ _)) hshort (eq_ok_result _ _)

/-- Of the longer request the first token is found in both groups, the second is external. -/
def longerSlots : SlotArgs := ⟨1, 1, [[1], [2]], 0, 1, false⟩

theorem legal_shortFirst : shortFirst.Legal (.start longer longerSlots) :=
  ⟨by decide +kernel, ⟨by decide +kernel, fun _ => by decide +kernel⟩, rfl, by decide +kernel,
    by decide, by decide⟩

theorem legal_shortLast : shortLast.Legal (.start longer longerSlots) :=
  ⟨by decide +kernel, ⟨by decide +kernel, fun _ => by decide +kernel⟩, rfl, by decide +kernel,
    by decide, by decide⟩

/-- With other blocks at the front of the queue the hits are spared. -/
theorem hitsSpared_shortLast : shortLast.manager.HitsSpared longer longerSlots :=
  spared_iff_draws.mpr (by decide +kernel)

/-- Then the call takes the six blocks it counted. -/
theorem exactCall_shortLast : shortLast.manager.ExactCall longer longerSlots :=
  (exactCall_iff reachable_shortLast (Or.inl legal_shortLast)).mpr
    fun _ => hitsSpared_shortLast

/-- Then the hits survive. -/
theorem hitsSurvive_shortLast : shortLast.manager.HitsSurvive longer longerSlots := by
  refine (hitsSurvive_iff reachable_shortLast legal_shortLast).mpr fun _ =>
    ⟨fun g hg i b _ _ => ?_, hitsSpared_shortLast⟩
  have hskip : ∀ g ∈ shortLast.manager.managers, g.numSkippedBlocks
      (longerSlots.localTokens longer + longerSlots.numExternalComputedTokens) = 0 := by
    decide +kernel
  rw [hskip g hg]
  exact Nat.zero_le i

/-- What the call leads to when the blocks of the short request are the first in the queue. -/
def drawn : Option (List (List ℕ)) × KVCacheManager ℕ :=
  result (shortFirst.manager.allocateSlots longer longerSlots) (by decide +kernel)

/-- The manager of full attention draws block 2, which the other group hits: six blocks are
counted and five leave the queue. -/
theorem exactCall_fails : ∃ (d : Driven ℕ) (request : KvRequest ℕ) (a : SlotArgs),
    Reachable hybrid d ∧ d.Legal (.start request a) ∧ ¬ d.manager.ExactCall request a := by
  refine ⟨shortFirst, longer, longerSlots, reachable_shortFirst, legal_shortFirst, ?_⟩
  rintro ⟨-, m₀, est, hskip, hest, hexact⟩
  have hskip' := eq_ok_result (shortFirst.manager.removeSkippedBlocks longer.requestId
    (shortFirst.manager.totalComputedTokens longer longerSlots)) (by decide +kernel)
  cases hskip'.symm.trans hskip
  have hest' : (result (shortFirst.manager.removeSkippedBlocks longer.requestId
      (shortFirst.manager.totalComputedTokens longer longerSlots)) (by decide +kernel)
    ).numBlocksToAllocate longer longerSlots = .ok 6 := by decide +kernel
  cases hest'.symm.trans hest
  obtain ⟨new, m', hcall, hnum⟩ := hexact (by decide +kernel)
  have hdrawn : shortFirst.manager.allocateSlots longer longerSlots = .ok drawn := eq_ok_result _ _
  have hm' : m' = drawn.2 := by
    rw [hdrawn] at hcall
    exact (congrArg Prod.snd (Except.ok.inj hcall)).symm
  rw [hm'] at hnum
  revert hnum
  decide +kernel

/-- Block 2 then is in the lists of both groups. -/
theorem hitsSurvive_fails : ∃ (d : Driven ℕ) (request : KvRequest ℕ) (a : SlotArgs),
    Reachable hybrid d ∧ d.Legal (.start request a) ∧ ¬ d.manager.HitsSurvive request a := by
  refine ⟨shortFirst, longer, longerSlots, reachable_shortFirst, legal_shortFirst, fun hsurvive => ?_⟩
  have hdrawn : shortFirst.manager.allocateSlots longer longerSlots = .ok drawn := eq_ok_result _ _
  have hsome : drawn = (some [[3], [6]], drawn.2) :=
    Prod.ext (by decide +kernel) rfl
  obtain ⟨-, hdistinct, -⟩ := hsurvive _ drawn.2 (hdrawn.trans (congrArg Except.ok hsome))
  have hmem : ∀ i < 2, ∃ g ∈ drawn.2.managers, g.kvCacheGroupId = i ∧
      2 ∈ g.blocksOf longer.requestId := by decide +kernel
  obtain ⟨g, hg, hid, hb⟩ := hmem 0 (by decide)
  obtain ⟨g', hg', hid', hb'⟩ := hmem 1 (by decide)
  have hsame := hdistinct g hg g' hg' 2 hb hb' (by decide +kernel)
  rw [hid, hid'] at hsame
  cases hsame

end Driven

end CacheFlow
