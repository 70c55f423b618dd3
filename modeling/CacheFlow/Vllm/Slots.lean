import CacheFlow.Vllm.Coordinator

/-!
# Allocating slots

What `allocate_slots` does as a whole, for the two kinds of calls the scheduler makes: for a
request that has no slots yet, with the hits of a lookup and perhaps tokens that are computed
externally, and for one that has slots and gets more.

## Main definitions

* `KVCacheManager.Admissible`, `KVCacheManager.MayExtend` — the two kinds of calls.

## Main results

* `KVCacheManager.allocateSlots_of_admissible`, `KVCacheManager.allocateSlots_of_mayExtend` — with
  as many free blocks as estimated they succeed.
-/

namespace CacheFlow

open List SingleTypeKVCacheManager KVCacheManager

namespace KVCacheManager

variable {H : Type} {cfg : KVCacheConfig} {m m' : KVCacheManager H} {r : String} {l : List ℕ}

/-! ### The configuration -/

/-- The manager was made for the configuration. -/
structure Configured (cfg : KVCacheConfig) (m : KVCacheManager H) : Prop where
  ok : configOk cfg = true
  maxModelLen : m.maxModelLen = cfg.maxModelLen
  useEagle : m.useEagle = cfg.useEagle
  enableCaching : m.enableCaching = cfg.enableCaching
  hashBlockSize : m.pool.hashBlockSize = cfg.hashBlockSize
  /-- One manager for each group, in this order. -/
  groups : m.managers.map (fun g => (g.kvCacheGroupId, g.spec))
    = cfg.kvCacheGroups.mapIdx fun i spec => (i, spec)

theorem Configured.step (h : Configured cfg m) (hkeeps : Keeps m m')
    (hedits : List.Forall₂ (Edits r) m.managers m'.managers) : Configured cfg m' where
  ok := h.ok
  maxModelLen := hkeeps.maxModelLen.trans h.maxModelLen
  useEagle := hkeeps.useEagle.trans h.useEagle
  enableCaching := hkeeps.pool.enableCaching.trans h.enableCaching
  hashBlockSize := hkeeps.pool.hashBlockSize.trans h.hashBlockSize
  groups := by
    rw [← h.groups]
    refine (map_eq_map_of_forall₂ hedits fun g g' hedit => ?_).symm
    rw [hedit.id, hedit.spec]

theorem Configured.hashBlockSize_pos (h : Configured cfg m) : 0 < m.pool.hashBlockSize := by
  rw [h.hashBlockSize]
  exact cfg.hashBlockSize_pos

variable {g : SingleTypeKVCacheManager}

section

variable (h : Configured cfg m)
include h

theorem Configured.getElem? {i : ℕ}
    (hg : m.managers[i]? = some g) : g.kvCacheGroupId = i ∧ cfg.kvCacheGroups[i]? = some g.spec := by
  have hget : (m.managers.map fun g => (g.kvCacheGroupId, g.spec))[i]?
      = (cfg.kvCacheGroups.mapIdx fun i spec => (i, spec))[i]? := by rw [h.groups]
  rw [List.getElem?_map, hg, List.getElem?_mapIdx] at hget
  cases hspec : cfg.kvCacheGroups[i]? with
  | none =>
    rw [hspec] at hget
    cases hget
  | some spec =>
    rw [hspec] at hget
    obtain ⟨hid, hspec⟩ := Prod.mk.inj (Option.some.inj hget)
    exact ⟨hid, congrArg some hspec.symm⟩

theorem Configured.specs_eq : m.specs = cfg.kvCacheGroups := by
  have hmap := congrArg (List.map Prod.snd) h.groups
  rw [map_map] at hmap
  refine hmap.trans (ext_getElem? fun i => ?_)
  rw [List.getElem?_map, List.getElem?_mapIdx]
  cases cfg.kvCacheGroups[i]? <;> rfl

theorem Configured.mem (hg : g ∈ m.managers) :
    m.managers[g.kvCacheGroupId]? = some g ∧ m.specs[g.kvCacheGroupId]? = some g.spec := by
  obtain ⟨i, hi⟩ := mem_iff_getElem?.mp hg
  obtain ⟨hid, hspec⟩ := h.getElem? hi
  rw [hid, h.specs_eq]
  exact ⟨hi, hspec⟩

theorem Configured.mem_specs (hg : g ∈ m.managers) : g.spec ∈ cfg.kvCacheGroups := by
  rw [← h.specs_eq]
  exact mem_map_of_mem hg

/-- With caching, a block is some hash blocks, and if there is one group, it is one. -/
theorem Configured.sizes (hcaching : m.enableCaching = true) :
    (∀ spec ∈ cfg.kvCacheGroups, spec.blockSize % m.pool.hashBlockSize = 0) ∧
      ∀ spec, cfg.kvCacheGroups = [spec] → spec.blockSize = m.pool.hashBlockSize := by
  have hok := h.ok
  unfold configOk at hok
  rw [← h.enableCaching, hcaching] at hok
  rw [h.hashBlockSize]
  split at hok
  · rename_i spec heq
    have hspec : spec.blockSize = cfg.hashBlockSize := by simpa using hok
    rw [heq]
    refine ⟨fun spec' hmem => ?_, fun spec' heq' => ?_⟩
    · rw [mem_singleton.mp hmem, hspec, Nat.mod_self]
    · rw [← (List.cons.inj heq').1, hspec]
  · rename_i hne
    have hall : ∀ spec ∈ cfg.kvCacheGroups, spec.blockSize % cfg.hashBlockSize = 0 := by
      simp only [Bool.not_true, Bool.false_or, Bool.and_eq_true, all_eq_true,
        decide_eq_true_eq] at hok
      exact hok.1
    exact ⟨hall, fun spec heq => absurd heq (hne spec)⟩

theorem Configured.hashBlocks_pos (hcaching : m.enableCaching = true) (hg : g ∈ m.managers) :
    0 < g.spec.blockSize / m.pool.hashBlockSize := by
  have hmod := (h.sizes hcaching).1 _ (h.mem_specs hg)
  exact Nat.div_pos (Nat.le_of_dvd g.spec.blockSize_pos (Nat.dvd_of_mod_eq_zero hmod))
    h.hashBlockSize_pos

end

/-! ### The lookup -/

/-- What the scheduler ensures of a request: it fits in the model, and its full hash blocks are
hashed. -/
structure Sized (m : KVCacheManager H) (request : KvRequest H) : Prop where
  le : request.numTokens ≤ m.maxModelLen
  /-- The hashes of the request are there. -/
  hashes : m.enableCaching = true →
    request.numTokens / m.pool.hashBlockSize ≤ request.blockHashes.length

/-- The configurations for which the lookup for a drafter is implemented. -/
def EagleFits (cfg : KVCacheConfig) : Prop :=
  cfg.enableCaching = true → cfg.useEagle = true → BlockPool.EagleOk cfg.kvCacheGroups

/-- What the lookup finds in a group. -/
structure HitsOk (m : KVCacheManager H) (request : KvRequest H) (hits : List (List ℕ))
    (numLocal : ℕ) (g : SingleTypeKVCacheManager) : Prop where
  found : hits[g.kvCacheGroupId]? = some (hitsOf hits g)
  length : (hitsOf hits g).length * g.spec.blockSize = numLocal
  /-- The hits are stored under the hashes of the request. -/
  cached : m.pool.Cached (regroup request.blockHashes (g.spec.blockSize / m.pool.hashBlockSize))
    g.kvCacheGroupId (hitsOf hits g)
  off : m.enableCaching = false → hitsOf hits g = []

theorem Sized.le_length {request : KvRequest H} (hs : Sized m request)
    (hcaching : m.enableCaching = true) :
    (request.numTokens - 1) / m.pool.hashBlockSize ≤ request.blockHashes.length :=
  (Nat.div_le_div_right (Nat.sub_le ..)).trans (hs.hashes hcaching)

/-- **The lookup**: what it finds, if it raises nothing. -/
theorem getComputedBlocks_ensures {request : KvRequest H} (hc : Configured cfg m)
    (hs : Sized m request) :
    Ensures (m.getComputedBlocks request) fun x =>
      x.2 ≤ request.numTokens - 1 ∧ ∀ g ∈ m.managers, HitsOk m request x.1 x.2 g := by
  unfold getComputedBlocks
  split_ifs with hskip
  · refine ensures_ok.mpr ⟨Nat.zero_le _, fun g hg => ?_⟩
    have hfound : m.emptyKvCacheBlocks[g.kvCacheGroupId]? = some [] := by
      rw [emptyKvCacheBlocks, List.getElem?_map, (hc.mem hg).1]
      rfl
    have hnil : hitsOf m.emptyKvCacheBlocks g = [] := by
      rw [hitsOf, hfound]
      rfl
    refine ⟨by rw [hnil, hfound], by rw [hnil]; simp, ?_, fun _ => hnil⟩
    rw [hnil]
    intro i b hb
    cases hb
  · rw [not_or, Bool.not_eq_false, Bool.not_eq_true] at hskip
    obtain ⟨hdvd, hone⟩ := hc.sizes hskip.1
    rw [← hc.specs_eq] at hdvd hone
    refine (BlockPool.coordinatorHit_ensures hc.hashBlockSize_pos hdvd hone
      (hs.le_length hskip.1)).mono ?_
    rintro x ⟨hle, hhits⟩
    refine ⟨hle, fun g hg => ?_⟩
    obtain ⟨blocks, hfound, hlen, hcached⟩ := hhits _ _ (hc.mem hg).2
    have heq : hitsOf x.1 g = blocks := by
      rw [hitsOf, hfound]
      rfl
    rw [← heq] at hfound hlen hcached
    exact ⟨hfound, hlen, hcached, fun hoff => absurd (hskip.1.symm.trans hoff) (by decide)⟩

/-- **The lookup raises nothing** where it is implemented. -/
theorem getComputedBlocks_ok {request : KvRequest H} (hc : Configured cfg m)
    (hs : Sized m request) (heagle : EagleFits cfg) : ∃ x, m.getComputedBlocks request = .ok x := by
  unfold getComputedBlocks
  split_ifs with hskip
  · exact ⟨_, rfl⟩
  · rw [not_or, Bool.not_eq_false, Bool.not_eq_true] at hskip
    obtain ⟨hdvd, hone⟩ := hc.sizes hskip.1
    rw [← hc.specs_eq] at hdvd hone
    refine BlockPool.coordinatorHit_ok hc.hashBlockSize_pos hdvd hone (hs.le_length hskip.1) ?_
    rw [hc.useEagle, hc.specs_eq]
    exact heagle (hc.enableCaching ▸ hskip.1)

theorem nodup_filter_of_getElem? {null : ℕ} {bs : List ℕ}
    (h : (∀ (i j b : ℕ), bs[i]? = some b → bs[j]? = some b → b ≠ null → i = j)) :
    (bs.filter (· ≠ null)).Nodup := by
  induction bs with
  | nil => exact nodup_nil
  | cons b bs ih =>
    have hrest := ih fun i j c hi hj hc =>
      Nat.succ.inj (h (i + 1) (j + 1) c (by simpa using hi) (by simpa using hj) hc)
    by_cases hb : b = null
    · rwa [filter_cons_of_neg (by simpa using hb)]
    · rw [filter_cons_of_pos (by simpa using hb)]
      refine nodup_cons.mpr ⟨fun hmem => ?_, hrest⟩
      obtain ⟨j, hj⟩ := mem_iff_getElem?.mp (mem_of_mem_filter hmem)
      have := h 0 (j + 1) b (by simp) (by simpa using hj) hb
      omega

theorem HitsOk.blockHash {request : KvRequest H} {hits : List (List ℕ)} {numLocal i b : ℕ}
    (hhits : HitsOk m request hits numLocal g)
    (h : m.pool.HashInv) (hb : (hitsOf hits g)[i]? = some b) (hne : b ≠ m.pool.nullBlock) :
    ∃ hash, (regroup request.blockHashes (g.spec.blockSize / m.pool.hashBlockSize))[i]? = some hash ∧
      (m.pool.blocks b).blockHash = some (hash, g.kvCacheGroupId) := by
  obtain ⟨hash, hget, hmem⟩ := hhits.cached i b hb hne
  exact ⟨hash, hget, (h.hash_iff b _).mpr hmem⟩

theorem HitsOk.nodup {request : KvRequest H} {hits : List (List ℕ)} {numLocal : ℕ}
    (hhits : HitsOk m request hits numLocal g) (hc : Configured cfg m)
    (h : m.pool.HashInv) (hg : g ∈ m.managers) :
    ((hitsOf hits g).filter (· ≠ m.pool.nullBlock)).Nodup := by
  cases hcaching : m.enableCaching with
  | false =>
    rw [hhits.off hcaching]
    exact nodup_nil
  | true =>
    refine nodup_filter_of_getElem? fun i j b hi hj hb => ?_
    obtain ⟨hash, hget, hhash⟩ := hhits.blockHash h hi hb
    obtain ⟨hash', hget', hhash'⟩ := hhits.blockHash h hj hb
    rw [hhash, Option.some.injEq, Prod.mk.injEq] at hhash'
    rw [← hhash'.1] at hget'
    exact regroup_inj request.nodup (hc.hashBlocks_pos hcaching hg) hget hget'

theorem mem_hits_of_mem_round {hits : List ℕ} {numLocal numExternal b : ℕ}
    (hb : b ∈ (g.round hits numLocal numExternal).1) : b ∈ hits := mem_of_mem_drop hb

theorem div_le_cdiv (a : ℕ) {b : ℕ} (hb : 0 < b) : a / b ≤ cdiv a b :=
  Nat.div_le_div_right (by omega)

theorem cdiv_le_cdiv {a a' : ℕ} (h : a ≤ a') (b : ℕ) : cdiv a b ≤ cdiv a' b :=
  Nat.div_le_div_right (by omega)

theorem le_cdiv_mul (a : ℕ) {b : ℕ} (hb : 0 < b) : a ≤ cdiv a b * b := by
  have hlt : a + b - 1 < (cdiv a b + 1) * b := Nat.lt_mul_of_div_lt (Nat.lt_succ_self _) hb
  rw [Nat.succ_mul] at hlt
  omega

theorem numSkippedBlocks_le (g : SingleTypeKVCacheManager) (total : ℕ) :
    g.numSkippedBlocks total ≤ total / g.spec.blockSize := by
  refine Nat.div_le_div_right ?_
  unfold KVCacheSpec.getNumSkippedTokens
  cases hkind : g.spec.kind with
  | full => exact Nat.zero_le _
  | slidingWindow w =>
    have := g.spec.window_pos w hkind
    dsimp only
    omega

/-- What the scheduler passes for a request that has no slots. -/
structure MayAdmit (m : KVCacheManager H) (request : KvRequest H) (a : SlotArgs) : Prop where
  sized : Sized m request
  fresh : request.numComputedTokens = 0
  /-- The hits are those of a lookup. -/
  hits : m.getComputedBlocks request = .ok (a.newComputedBlocks, a.numNewComputedTokens)
  le : a.numNewComputedTokens + a.numExternalComputedTokens + a.numNewTokens ≤ request.numTokens
  pos : ¬ (a.numNewTokens = 0 ∧ a.numExternalComputedTokens = 0)

/-- The request has nothing in any group. -/
def Idle (m : KVCacheManager H) (r : String) : Prop :=
  ∀ g ∈ m.managers, g.numCachedBlock.get? r = none ∧ g.blocksOf r = []

/-- What such a call rests on. -/
structure Admissible (m : KVCacheManager H) (request : KvRequest H) (a : SlotArgs) : Prop where
  sized : Sized m request
  localTokens : a.localTokens request = a.numNewComputedTokens
  /-- The hits are stored under the hashes of the request. -/
  hitsOk : ∀ g ∈ m.managers, HitsOk m request a.newComputedBlocks a.numNewComputedTokens g
  le : a.numNewComputedTokens + a.numExternalComputedTokens + a.numNewTokens ≤ request.numTokens
  idle : Idle m request.requestId

section Admit

variable {request : KvRequest H} {a : SlotArgs}

theorem MayAdmit.admissible (ha : MayAdmit m request a) (hc : Configured cfg m)
    (hidle : Idle m request.requestId) : Admissible m request a := { ha with
  localTokens := by rw [SlotArgs.localTokens, ha.fresh, Nat.zero_add]
  hitsOk := (getComputedBlocks_ensures hc ha.sized _ ha.hits).2
  idle := hidle }

/-- The rounds of the managers. -/
def rounds (m : KVCacheManager H) (request : KvRequest H) (a : SlotArgs) : List (List ℕ × ℕ) :=
  roundsOf a.newComputedBlocks (a.localTokens request) a.numExternalComputedTokens m.managers

theorem Admissible.ready (ha : Admissible m request a) (hc : Configured cfg m)
    (h : KInv m.pool m.managers l) :
    ∀ g ∈ m.managers, Ready m.pool request.requestId a.newComputedBlocks (a.localTokens request)
      a.numExternalComputedTokens g := by
  intro g hg
  have hhits := ha.hitsOk g hg
  refine ⟨(ha.idle g hg).1, (ha.idle g hg).2, hhits.found, fun b hb => ?_, ?_, fun hoff => ?_, ?_⟩
  · by_cases hne : b = m.pool.nullBlock
    · rw [hne]
      exact h.pool.ref.null_lt
    · obtain ⟨i, hi⟩ := List.mem_iff_getElem?.mp (mem_hits_of_mem_round hb)
      obtain ⟨hash, -, hhash⟩ := hhits.blockHash h.pool.hash hi hne
      apply h.pool.hash.lt b
      rw [hhash]
      exact Option.some_ne_none _
  · exact (hhits.nodup hc h.pool.hash hg).sublist (List.Sublist.filter _ (List.drop_sublist _ _))
  · rw [SingleTypeKVCacheManager.round, SingleTypeKVCacheManager.keptHits, hhits.off hoff,
      List.drop_nil]
  · have hpos := g.spec.blockSize_pos
    have htotal := div_le_cdiv (a.localTokens request + a.numExternalComputedTokens) hpos
    have hskip := numSkippedBlocks_le g (a.localTokens request + a.numExternalComputedTokens)
    have hlen : (hitsOf a.newComputedBlocks g).length
        ≤ (a.localTokens request + a.numExternalComputedTokens) / g.spec.blockSize := by
      rw [Nat.le_div_iff_mul_le hpos, hhits.length, ha.localTokens]
      exact Nat.le_add_right ..
    omega

theorem Admissible.apart (ha : Admissible m request a) (hc : Configured cfg m)
    (h : KInv m.pool m.managers l) : Rounds.Apart l (m.rounds request a) := by
  have hnull : ∀ b ∈ l, b ≠ m.pool.nullBlock := fun b hb => ((h.pool.ref.mem_iff b).mp hb).2.1
  refine ⟨fun x hx => ?_, ?_⟩
  · obtain ⟨g, hg, rfl⟩ := mem_map.mp hx
    have hnd := (ha.hitsOk g hg).nodup hc h.pool.hash hg
    refine (hnd.sublist (List.Sublist.filter _ (drop_sublist _ _))).sublist
      (monotone_filter_right _ fun b hb => ?_)
    simp only [decide_eq_true_eq] at hb ⊢
    exact hnull b hb
  · refine pairwise_map.mpr ((pairwise_map.mp h.groups.ids).imp_of_mem ?_)
    intro g g' hg hg' hne b hb hbg hbg'
    obtain ⟨i, hi⟩ := mem_iff_getElem?.mp (mem_hits_of_mem_round hbg)
    obtain ⟨j, hj⟩ := mem_iff_getElem?.mp (mem_hits_of_mem_round hbg')
    obtain ⟨_, -, hhash⟩ := (ha.hitsOk g hg).blockHash h.pool.hash hi (hnull b hb)
    obtain ⟨_, -, hhash'⟩ := (ha.hitsOk g' hg').blockHash h.pool.hash hj (hnull b hb)
    rw [hhash, Option.some.injEq, Prod.mk.injEq] at hhash'
    exact hne hhash'.2

end Admit

/-! ### The estimate -/

section Estimate

variable {request : KvRequest H} {a : SlotArgs}

theorem getNumBlocksToAllocate_eq {numTokens total : ℕ} {hits : List (List ℕ)}
    {f : SingleTypeKVCacheManager → ℕ}
    (hf : ∀ g ∈ m.managers, hits[g.kvCacheGroupId]? = some (hitsOf hits g) ∧
      g.getNumBlocksToAllocate m.pool r numTokens (hitsOf hits g) total = .ok (f g)) :
    m.getNumBlocksToAllocate r numTokens hits total = .ok (m.managers.map f).sum := by
  have hsum : Returns (m.getNumBlocksToAllocate r numTokens hits total)
      fun n => n = (m.managers.map f).sum := by
    refine returns_foldlM (I := fun done n => n = (done.map f).sum) m.managers 0 ?_ rfl
    rintro done g todo n hsplit rfl
    obtain ⟨hfound, hcount⟩ := hf g (by rw [hsplit]; simp)
    rw [hfound]
    dsimp only
    rw [hcount, returns_bind, returns_ok, returns_pure, map_append, sum_append]
    simp
  obtain ⟨n, hn, rfl⟩ := hsum
  exact hn

theorem getNumEvictableBlocks_eq {p : BlockPool H} {held bs : List ℕ} (h : p.RefInv held l)
    (hlt : ∀ b ∈ bs, b < p.numGpuBlocks) :
    getNumEvictableBlocks p bs = bs.countP (· ∈ l) := by
  refine countP_congr fun b hb => ?_
  rw [decide_eq_true_iff, decide_eq_true_iff, h.mem_iff, h.isNull_eq_false_iff]
  constructor
  · exact fun ⟨hzero, hne⟩ => ⟨hlt b hb, hne, hzero⟩
  · exact fun ⟨_, hne, hzero⟩ => ⟨hzero, hne⟩

/-- How many new blocks a new request needs in a group beside hits and external ones. -/
def admitCount (m : KVCacheManager H) (request : KvRequest H) (a : SlotArgs)
    (g : SingleTypeKVCacheManager) : ℕ :=
  cdiv (m.numTokensNeedSlot request a) g.spec.blockSize -
    (max (g.numSkippedBlocks (a.localTokens request + a.numExternalComputedTokens))
        (hitsOf a.newComputedBlocks g).length +
      (g.round (hitsOf a.newComputedBlocks g) (a.localTokens request)
        a.numExternalComputedTokens).2)

theorem Admissible.total_le (ha : Admissible m request a) :
    a.localTokens request + a.numExternalComputedTokens ≤ m.numTokensNeedSlot request a := by
  have hle := ha.le
  have hsized := ha.sized.le
  rw [numTokensNeedSlot, totalComputedTokens, ha.localTokens]
  omega

theorem externalBlocks_le (g : SingleTypeKVCacheManager) (hits : List ℕ) (numLocal numExternal : ℕ) :
    g.externalBlocks hits numLocal numExternal ≤ cdiv (numLocal + numExternal) g.spec.blockSize -
      max (g.numSkippedBlocks (numLocal + numExternal)) hits.length := by
  unfold externalBlocks
  dsimp only
  generalize (if 0 < g.numSkippedBlocks (numLocal + numExternal) then _ else numExternal) = external
  split_ifs
  · exact Nat.le_refl _
  · exact Nat.zero_le _

/-- **The estimate for a new request**: what the rounds ask for, and the new blocks. -/
theorem numBlocksToAllocate_of_admissible (ha : Admissible m request a) (hc : Configured cfg m)
    (h : KInv m.pool m.managers l) :
    m.numBlocksToAllocate request a
      = .ok (demand l (m.rounds request a) + (m.managers.map (m.admitCount request a)).sum) := by
  have hready := ha.ready hc h
  have hsum : demand l (m.rounds request a) + (m.managers.map (m.admitCount request a)).sum
      = (m.managers.map fun g =>
          ((g.round (hitsOf a.newComputedBlocks g) (a.localTokens request)
              a.numExternalComputedTokens).1.countP (· ∈ l) +
            (g.round (hitsOf a.newComputedBlocks g) (a.localTokens request)
              a.numExternalComputedTokens).2) + m.admitCount request a g).sum := by
    rw [demand, rounds, roundsOf, List.map_map, List.sum_map_add]
    rfl
  rw [hsum]
  refine getNumBlocksToAllocate_eq fun g hg => ⟨(hready g hg).found, ?_⟩
  -- what the source subtracts never exceeds what is needed
  have hext := externalBlocks_le g (hitsOf a.newComputedBlocks g) (a.localTokens request)
    a.numExternalComputedTokens
  have hneed := cdiv_le_cdiv ha.total_le g.spec.blockSize
  have hevict := getNumEvictableBlocks_eq h.pool.ref (hready g hg).lt
  unfold SingleTypeKVCacheManager.getNumBlocksToAllocate
  rw [Dict.contains, (hready g hg).idle, (hready g hg).empty, if_neg (by decide)]
  rw [SingleTypeKVCacheManager.round, SingleTypeKVCacheManager.keptHits] at hevict ⊢
  dsimp only at hevict ⊢
  rw [List.length_nil, Nat.add_zero, Nat.sub_zero, hevict, admitCount,
    SingleTypeKVCacheManager.round]
  congr 1
  omega

/-- What the scheduler passes for a request that has slots. -/
structure MayExtend (m : KVCacheManager H) (request : KvRequest H) (a : SlotArgs) : Prop where
  sized : Sized m request
  hits : a.newComputedBlocks = m.emptyKvCacheBlocks
  fresh : a.numNewComputedTokens = 0
  external : a.numExternalComputedTokens = 0
  pos : 0 < a.numNewTokens

/-- So many tokens of the request have slots in every group. -/
def Slotted (m : KVCacheManager H) (r : String) (n : ℕ) : Prop :=
  ∀ g ∈ m.managers, n ≤ (g.blocksOf r).length * g.spec.blockSize

theorem Slotted.numSkippedBlocks_le {r : String} {n : ℕ} (h : Slotted m r n) (hg : g ∈ m.managers) :
    g.numSkippedBlocks n ≤ (g.blocksOf r).length := by
  refine (KVCacheManager.numSkippedBlocks_le g _).trans ?_
  rw [← Nat.mul_div_cancel (g.blocksOf r).length g.spec.blockSize_pos]
  exact Nat.div_le_div_right (h g hg)

theorem MayExtend.hitsOf (ha : MayExtend m request a) (hc : Configured cfg m) (hg : g ∈ m.managers) :
    a.newComputedBlocks[g.kvCacheGroupId]? = some [] := by
  rw [ha.hits, emptyKvCacheBlocks, List.getElem?_map, (hc.mem hg).1]
  rfl

theorem MayExtend.localTokens (ha : MayExtend m request a) :
    a.localTokens request + a.numExternalComputedTokens = request.numComputedTokens := by
  rw [SlotArgs.localTokens, ha.fresh, ha.external, Nat.add_zero]

/-- **The estimate for a request that has slots**: the new blocks. -/
theorem numBlocksToAllocate_of_mayExtend (ha : MayExtend m request a) (hc : Configured cfg m)
    (hslots : Slotted m request.requestId request.numComputedTokens) :
    m.numBlocksToAllocate request a = .ok (m.managers.map
      (newCount request.requestId (m.numTokensNeedSlot request a))).sum := by
  refine getNumBlocksToAllocate_eq fun g hg => ?_
  have hfound := ha.hitsOf hc hg
  have hnil : hitsOf a.newComputedBlocks g = [] := by
    rw [hitsOf, hfound]
    rfl
  refine ⟨by rw [hnil, hfound], ?_⟩
  have hskip := hslots.numSkippedBlocks_le hg
  unfold SingleTypeKVCacheManager.getNumBlocksToAllocate newCount
  dsimp only
  rw [hnil, ha.localTokens, if_pos rfl, List.drop_nil, List.length_nil, Nat.zero_add,
    Nat.max_eq_right hskip]
  split_ifs
  · rfl
  · rfl

end Estimate

/-! ### The rest of the call -/

section Rest

variable {request : KvRequest H} {a : SlotArgs} {n : ℕ}

/-- The last part of `allocate_slots`, from `m` by way of `m₂`, which has the new blocks, to
`m'`. -/
structure Fills (request : KvRequest H) (a : SlotArgs) (l : List ℕ) (n : ℕ)
    (m m₂ m' : KVCacheManager H) : Prop where
  allocated : KInv m₂.pool m₂.managers (l.drop n)
  /-- The new blocks come from the front of the queue and lose their hashes. -/
  evicted : ∀ c, (m₂.pool.blocks c).blockHash =
    if c ∈ l.take n then none else (m.pool.blocks c).blockHash
  /-- They are at the end of the lists. -/
  appended : List.Forall₂ (Appended request.requestId (m.numTokensNeedSlot request a))
    m.managers m₂.managers
  inv : KInv m'.pool m'.managers (l.drop n)
  published : Published m₂ m'.pool request (m.numTokensToCache request a)
  relists : List.Forall₂ (Relists request.requestId) m₂.managers m'.managers
  keeps₂ : Keeps m m₂
  keeps : Keeps m₂ m'

/-- With enough blocks in the queue **the last part** succeeds. -/
theorem fillSlots_returns [DecidableEq H] (hc : Configured cfg m) (h : KInv m.pool m.managers l)
    (hs : Sized m request)
    (hn : (m.managers.map (newCount request.requestId (m.numTokensNeedSlot request a))).sum = n)
    (hroom : n ≤ l.length) :
    Returns (m.fillSlots request a) fun x => (∃ m₂, Fills request a l n m m₂ x.2) ∧
      List.Forall₂ (Lengthens m.pool.nullBlock request.requestId) m.managers x.2.managers := by
  unfold fillSlots
  rw [returns_bind]
  refine (allocateNewBlocks_returns h hn hroom).mono ?_
  rintro ⟨new, m₂⟩ ⟨hinv, hhash, hkeeps, hgrown⟩
  have happ := hgrown.imp fun _ _ h => h.1
  have hlong := hgrown.imp fun _ _ h => h.2
  have hc₂ : Configured cfg m₂ := hc.step hkeeps (happ.imp fun _ _ h => h.edits)
  have htokens : m₂.numTokensToCache request a = m.numTokensToCache request a := by
    rw [numTokensToCache, numTokensToCache, totalComputedTokens, totalComputedTokens,
      hkeeps.maxModelLen]
  dsimp only
  split_ifs with hoff
  · refine returns_pure.mpr ⟨⟨m₂, hinv, hhash, happ, hinv,
      ⟨fun _ _ hk => hk, fun _ _ hk => Or.inl hk⟩, ?_, hkeeps, Keeps.refl m₂⟩, hlong⟩
    exact forall₂_same.mpr fun g _ => Relists.refl _ g
  · rw [not_or, Bool.not_eq_false] at hoff
    have hcaching : m.enableCaching = true := hkeeps.pool.enableCaching.symm.trans hoff.1
    have hcache : m.numTokensToCache request a ≤ m.numTokensNeedSlot request a := by
      have hsized := hs.le
      rw [numTokensToCache, numTokensNeedSlot]
      omega
    rw [returns_bind, htokens]
    refine (cacheAll_returns hinv hoff.1 hc₂.hashBlockSize_pos fun g₂ hg₂ => ?_).mono ?_
    · -- the list is long enough for the tokens that are stored
      obtain ⟨g, -, hg⟩ := exists_of_mem_right happ g₂ hg₂
      obtain ⟨new, hlen, hblocks⟩ := hg.blocksOf
      have hdvd := (hc₂.sizes hoff.1).1 _ (hc₂.mem_specs hg₂)
      refine ⟨hdvd, ?_, ?_⟩
      · have hpos := g.spec.blockSize_pos
        have hdiv := (Nat.div_le_div_right (c := g.spec.blockSize) hcache).trans
          (div_le_cdiv _ hpos)
        rw [hblocks, length_append, hlen, hg.edits.spec, newCount]
        omega
      · refine div_le_regroup hdvd ?_ (Nat.min_le_right _ request.numTokens)
        rw [hkeeps.pool.hashBlockSize]
        exact hs.hashes hcaching
    · rintro m' ⟨hinv', hpub, hkeeps', hrel⟩
      refine returns_pure.mpr ⟨⟨m₂, hinv, hhash, happ, hinv', hpub, hrel, hkeeps, hkeeps'⟩,
        forall₂_comp (fun g g₂ g' hnew hsame => ?_) hlong hrel⟩
      obtain ⟨new, hnull, hblocks⟩ := hnew
      exact ⟨new, hnull, hsame.blocksOf.trans hblocks⟩

/-- The first part of `allocate_slots` for a new request: the hits are taken over. -/
structure TakesOver (request : KvRequest H) (a : SlotArgs) (l : List ℕ) (m m₁ : KVCacheManager H) :
    Prop where
  inv : KInv m₁.pool m₁.managers (drain l (m.rounds request a))
  /-- What is drawn loses its hash. -/
  evicted : ∀ c, (m₁.pool.blocks c).blockHash =
    if c ∈ (draws l (m.rounds request a)).flatten then none else (m.pool.blocks c).blockHash
  keeps : Keeps m m₁
  tookOver : List.Forall₂ (TookOver m.pool.nullBlock request.requestId a.newComputedBlocks
    (a.localTokens request) a.numExternalComputedTokens) m.managers m₁.managers

/-- Without hits and external tokens there is nothing to take over. -/
theorem Admissible.takesOver_self (ha : Admissible m request a) (h : KInv m.pool m.managers l)
    (hnone : ¬ (a.newComputedBlocks.any (· ≠ []) = true ∨ 0 < a.numExternalComputedTokens)) :
    TakesOver request a l m m ∧ List.Forall₂ (TookFresh m.pool.nullBlock request.requestId
      a.newComputedBlocks (a.localTokens request) a.numExternalComputedTokens)
      m.managers m.managers := by
  rw [not_or, Nat.not_lt, Nat.le_zero] at hnone
  obtain ⟨hany, hext⟩ := hnone
  -- no hits and no external tokens: every round is empty
  have hhits : ∀ g ∈ m.managers, hitsOf a.newComputedBlocks g = [] := by
    intro g hg
    have hmem := List.mem_of_getElem? (ha.hitsOk g hg).found
    by_contra hne
    exact hany (List.any_eq_true.mpr ⟨_, hmem, by simpa using hne⟩)
  have hskip : ∀ g ∈ m.managers, g.numSkippedBlocks (a.localTokens request + 0) = 0 := by
    intro g hg
    have hlen := (ha.hitsOk g hg).length
    rw [hhits g hg, List.length_nil, Nat.zero_mul] at hlen
    have hle := numSkippedBlocks_le g (a.localTokens request + 0)
    rw [ha.localTokens, ← hlen, Nat.zero_div] at hle
    rw [ha.localTokens, ← hlen]
    exact Nat.le_zero.mp hle
  have hround : ∀ g ∈ m.managers, g.round (hitsOf a.newComputedBlocks g) (a.localTokens request)
      a.numExternalComputedTokens = ([], 0) := by
    intro g hg
    rw [SingleTypeKVCacheManager.round, SingleTypeKVCacheManager.keptHits, hhits g hg, List.drop_nil,
      hext, externalBlocks, hskip g hg]
    rfl
  obtain ⟨hdrain, hdraws⟩ : drain l (m.rounds request a) = l ∧
      (draws l (m.rounds request a)).flatten = [] := by
    refine drain_of_idle (fun x hx => ?_) l
    obtain ⟨g, hg, rfl⟩ := List.mem_map.mp hx
    exact hround g hg
  refine ⟨⟨hdrain.symm ▸ h, fun c => by rw [hdraws]; simp, Keeps.refl m,
    List.forall₂_same.mpr fun g hg => ⟨Edits.refl _ g, ⟨[], ?_, ?_⟩, ?_⟩⟩,
    List.forall₂_same.mpr fun g hg => ⟨[], List.not_mem_nil, ?_⟩⟩
  · rw [hround g hg, List.length_nil]
  · rw [hround g hg, (ha.idle g hg).2, hext, hskip g hg]
    rfl
  · rw [hround g hg, hext, hskip g hg, cachedOf, (ha.idle g hg).1]
    rfl
  · rw [hround g hg, (ha.idle g hg).2, hext, hskip g hg]
    rfl

theorem TakesOver.newCount {m₁ : KVCacheManager H} (ht : TakesOver request a l m m₁) :
    (m₁.managers.map (newCount request.requestId (m₁.numTokensNeedSlot request a))).sum
      = (m.managers.map (m.admitCount request a)).sum := by
  refine congrArg List.sum (map_eq_map_of_forall₂ ht.tookOver fun g g' htook => ?_).symm
  obtain ⟨fresh, hlen, hblocks⟩ := htook.blocksOf
  have hkept : (g.round (hitsOf a.newComputedBlocks g) (a.localTokens request)
      a.numExternalComputedTokens).1.length = (hitsOf a.newComputedBlocks g).length -
        g.numSkippedBlocks (a.localTokens request + a.numExternalComputedTokens) :=
    length_drop ..
  rw [KVCacheManager.newCount, admitCount, hblocks, length_append, length_append,
    length_replicate, hlen, hkept, htook.edits.spec, numTokensNeedSlot, numTokensNeedSlot,
    totalComputedTokens, totalComputedTokens, ht.keeps.maxModelLen]
  omega

variable [DecidableEq H]

theorem takeOverHits_returns (ha : Admissible m request a) (hc : Configured cfg m)
    (h : KInv m.pool m.managers l) (hroom : demand l (m.rounds request a) ≤ l.length) :
    Returns (m.takeOverHits request a) fun m₁ => TakesOver request a l m m₁ ∧
      List.Forall₂ (TookFresh m.pool.nullBlock request.requestId a.newComputedBlocks
        (a.localTokens request) a.numExternalComputedTokens) m.managers m₁.managers := by
  unfold takeOverHits
  split_ifs with hsome
  · refine (allocateNewComputedBlocks_returns h (ha.ready hc h) (ha.apart hc h) hroom).mono ?_
    rintro m₁ ⟨hinv, hhash, hkeeps, htook⟩
    exact ⟨⟨hinv, hhash, hkeeps, htook.imp fun _ _ h => h.1⟩, htook.imp fun _ _ h => h.2⟩
  · exact returns_ok.mpr (ha.takesOver_self h hsome)

/-- What a request that had nothing has in the end: null blocks before the window, the hits, and
fresh blocks. -/
theorem tookFresh_of_lengthens {null : ℕ} {hits : List (List ℕ)} {numLocal numExternal : ℕ}
    {ms ms₁ ms' : List SingleTypeKVCacheManager}
    (htook : List.Forall₂ (TookFresh null r hits numLocal numExternal) ms ms₁)
    (hlong : List.Forall₂ (Lengthens null r) ms₁ ms') :
    List.Forall₂ (TookFresh null r hits numLocal numExternal) ms ms' := by
  refine forall₂_comp (fun g g₁ g' htook hlong => ?_) htook hlong
  obtain ⟨fresh, hfresh, hblocks⟩ := htook
  obtain ⟨new, hnew, hblocks'⟩ := hlong
  refine ⟨fresh ++ new, by simp [hfresh, hnew], ?_⟩
  rw [hblocks', hblocks, append_assoc]

/-- **A new request**: with as many blocks in the queue as estimated, the rest of the call
succeeds. -/
theorem takeSlots_of_admissible (ha : Admissible m request a) (hc : Configured cfg m)
    (h : KInv m.pool m.managers l)
    (hroom : demand l (m.rounds request a) + (m.managers.map (m.admitCount request a)).sum
      ≤ l.length) :
    Returns (m.takeSlots request a) fun x => (∃ m₁ m₂, TakesOver request a l m m₁ ∧
      Fills request a (drain l (m.rounds request a)) (m.managers.map (m.admitCount request a)).sum
        m₁ m₂ x.2) ∧
      List.Forall₂ (TookFresh m.pool.nullBlock request.requestId a.newComputedBlocks
        (a.localTokens request) a.numExternalComputedTokens) m.managers x.2.managers := by
  obtain ⟨hlen, -⟩ := length_drain h.pool.ref.queue.nodup (ha.apart hc h) (by omega)
  unfold takeSlots
  rw [returns_bind]
  refine (takeOverHits_returns ha hc h (by omega)).mono ?_
  rintro m₁ ⟨ht, hfresh⟩
  have hc₁ : Configured cfg m₁ := hc.step ht.keeps (ht.tookOver.imp fun _ _ h => h.edits)
  have hs₁ : Sized m₁ request := by
    refine ⟨ht.keeps.maxModelLen ▸ ha.sized.le, fun hcaching => ?_⟩
    rw [ht.keeps.pool.hashBlockSize]
    exact ha.sized.hashes (ht.keeps.pool.enableCaching.symm.trans hcaching)
  refine (fillSlots_returns hc₁ ht.inv hs₁ ht.newCount (by omega)).mono ?_
  rintro x ⟨⟨m₂, hfills⟩, hlong⟩
  rw [ht.keeps.pool.nullBlock] at hlong
  exact ⟨⟨m₁, m₂, ht, hfills⟩, tookFresh_of_lengthens hfresh hlong⟩

/-- **A request that has slots**: the same. -/
theorem takeSlots_of_mayExtend (ha : MayExtend m request a) (hc : Configured cfg m)
    (h : KInv m.pool m.managers l)
    (hroom : (m.managers.map (newCount request.requestId
      (m.numTokensNeedSlot request a))).sum ≤ l.length) :
    Returns (m.takeSlots request a) fun x => (∃ m₂, Fills request a l (m.managers.map
      (newCount request.requestId (m.numTokensNeedSlot request a))).sum m m₂ x.2) ∧
      List.Forall₂ (Lengthens m.pool.nullBlock request.requestId) m.managers x.2.managers := by
  have hnone : ¬ (a.newComputedBlocks.any (· ≠ []) = true ∨ 0 < a.numExternalComputedTokens) := by
    rw [ha.hits, ha.external, emptyKvCacheBlocks]
    simp
  unfold takeSlots takeOverHits
  rw [if_neg hnone, returns_bind, returns_ok]
  exact fillSlots_returns hc h ha.sized rfl hroom

end Rest

/-! ### The whole call -/

section Trimmed

variable {request : KvRequest H} {a : SlotArgs} {m₀ : KVCacheManager H} {total : ℕ}

section

variable (ht : Trims r total l m m₀)
include ht

theorem Trims.edits : List.Forall₂ (Edits r) m.managers m₀.managers :=
  ht.skips.imp fun _ _ h => h.edits

theorem Trims.sized (hs : Sized m request) : Sized m₀ request := by
  refine ⟨ht.keeps.maxModelLen ▸ hs.le, fun hcaching => ?_⟩
  rw [ht.keeps.pool.hashBlockSize]
  exact hs.hashes (ht.keeps.pool.enableCaching.symm.trans hcaching)

theorem Trims.idle {r' : String} (hidle : Idle m r') : Idle m₀ r' := by
  intro g₀ hg₀
  obtain ⟨g, hg, hskip⟩ := exists_of_mem_right ht.skips g₀ hg₀
  obtain ⟨hcached, hblocks⟩ := hidle g hg
  refine ⟨hskip.numCachedBlock ▸ hcached, ?_⟩
  by_cases hr : r' = r
  · subst hr
    apply eq_nil_of_length_eq_zero
    rw [hskip.length, hblocks, length_nil]
  · rw [hskip.edits.blocksOf r' hr, hblocks]

theorem Trims.inv_of_idle (hidle : Idle m r) : KInv m₀.pool m₀.managers l := by
  obtain ⟨freed, hfreed, hinv⟩ := ht.inv
  have hnil : freed = [] := by
    refine eq_nil_iff_forall_not_mem.mpr fun b hb => ?_
    obtain ⟨g, hg, i, -, hi⟩ := hfreed b hb
    rw [(hidle g hg).2] at hi
    cases hi
  rwa [hnil, append_nil] at hinv

theorem Trims.slotted {r' : String} {n : ℕ} (hslots : Slotted m r' n) : Slotted m₀ r' n := by
  intro g₀ hg₀
  obtain ⟨g, hg, hskip⟩ := exists_of_mem_right ht.skips g₀ hg₀
  have hlen : (g₀.blocksOf r').length = (g.blocksOf r').length := by
    by_cases hr : r' = r
    · rw [hr, hskip.length]
    · rw [hskip.edits.blocksOf r' hr]
  rw [hlen, hskip.edits.spec]
  exact hslots g hg

end

theorem Trims.admissible (ht : Trims request.requestId total l m m₀) (ha : Admissible m request a) :
    Admissible m₀ request a := by
  refine ⟨ht.sized ha.sized, ha.localTokens, fun g₀ hg₀ => ?_, ha.le, ht.idle ha.idle⟩
  obtain ⟨g, hg, hedit⟩ := exists_of_mem_right ht.edits g₀ hg₀
  obtain ⟨hfound, hlen, hcached, hoff⟩ := ha.hitsOk g hg
  have hhits := hitsOf_edits hedit a.newComputedBlocks
  refine ⟨by rwa [hhits, hedit.id], by rwa [hhits, hedit.spec], ?_, fun hcaching => ?_⟩
  · intro i b hb hne
    rw [hhits] at hb
    rw [ht.keeps.pool.nullBlock] at hne
    rw [hedit.spec, hedit.id, ht.keeps.pool.hashBlockSize, ht.hashes.cached]
    exact hcached i b hb hne
  · rw [hhits]
    exact hoff (ht.keeps.pool.enableCaching.symm.trans hcaching)

section

variable (ht : Trims r total l m m₀)
include ht

theorem Trims.mayExtend (ha : MayExtend m request a) : MayExtend m₀ request a := by
  refine { ha with sized := ht.sized ha.sized, hits := ha.hits.trans ?_ }
  exact map_eq_map_of_forall₂ ht.edits fun _ _ _ => rfl

theorem Trims.rounds_eq : m₀.rounds request a = m.rounds request a := by
  refine (map_eq_map_of_forall₂ ht.edits fun g g₀ hedit => ?_).symm
  rw [hitsOf_edits hedit, hedit.round]

theorem Trims.count_heldAll_le {b : ℕ} (hb : b ≠ m.pool.nullBlock) :
    (heldAll m₀.managers).count b ≤ (heldAll m.managers).count b := by
  have hcount : ∀ {ms ms₀ : List SingleTypeKVCacheManager},
      List.Forall₂ (fun g => SkipsOnly m.pool.nullBlock (g.numSkippedBlocks total) r g) ms ms₀ →
      (heldAll ms₀).count b ≤ (heldAll ms).count b := by
    intro ms ms₀ hskips
    induction hskips with
    | nil => exact Nat.le_refl _
    | @cons g g₀ _ _ hskip _ ih =>
      have hle := hskip.count_le b hb
      unfold heldAll at ih ⊢
      rw [flatMap_cons, flatMap_cons, count_append, count_append,
        hskip.edits.held.count_eq, (g.held_perm r).count_eq, count_append, count_append]
      omega
  exact hcount ht.skips

theorem Trims.refCnt_le (h : KInv m.pool m.managers l) {b : ℕ}
    (hb : b ≠ m.pool.nullBlock) : (m₀.pool.blocks b).refCnt ≤ (m.pool.blocks b).refCnt := by
  obtain ⟨freed, -, hinv⟩ := ht.inv
  rw [h.pool.ref.refCnt b hb, hinv.pool.ref.refCnt b (ht.keeps.pool.nullBlock ▸ hb)]
  exact_mod_cast ht.count_heldAll_le hb

end

end Trimmed

section Whole

variable {request : KvRequest H} {a : SlotArgs} {n : ℕ} {m₁ m₂ : KVCacheManager H}

section

variable (hf : Fills request a l n m m₂ m')
include hf

theorem Fills.edits : List.Forall₂ (Edits request.requestId) m.managers m'.managers :=
  forall₂_comp (fun _ _ _ happ hrel => happ.edits.trans hrel.edits) hf.appended hf.relists

theorem Fills.keepsAll : Keeps m m' := hf.keeps₂.trans hf.keeps

theorem Fills.length :
    List.Forall₂ (fun g g' => (g'.blocksOf request.requestId).length
      = (g.blocksOf request.requestId).length +
        newCount request.requestId (m.numTokensNeedSlot request a) g) m.managers m'.managers := by
  refine forall₂_comp (fun g g₂ g' happ hrel => ?_) hf.appended hf.relists
  obtain ⟨new, hlen, hblocks⟩ := happ.blocksOf
  rw [hrel.blocksOf, hblocks, length_append, hlen]

theorem Fills.slotted : Slotted m' request.requestId (m.numTokensNeedSlot request a) := by
  intro g' hg'
  obtain ⟨g, hg, hedit, hlen⟩ := exists_of_mem_right (forall₂_and hf.edits hf.length) g' hg'
  have hneed := le_cdiv_mul (m.numTokensNeedSlot request a) g.spec.blockSize_pos
  refine hneed.trans ?_
  rw [hlen, hedit.spec, newCount]
  exact Nat.mul_le_mul_right _ (by omega)

end

variable [DecidableEq H]

/-- The call goes on after the estimate if there are enough free blocks. -/
theorem allocateSlots_eq {m₀ : KVCacheManager H} {est : ℕ}
    (hpos : ¬ (a.numNewTokens = 0 ∧ a.numExternalComputedTokens = 0))
    (hskip : m.removeSkippedBlocks request.requestId (m.totalComputedTokens request a) = .ok m₀)
    (hest : m₀.numBlocksToAllocate request a = .ok est) :
    m.allocateSlots request a =
      if m₀.pool.getNumFreeBlocks < est then .ok (none, m₀)
      else (m₀.takeSlots request a).map fun x => (some x.1, x.2) := by
  unfold allocateSlots
  rw [if_neg hpos, hskip]
  show (m₀.numBlocksToAllocate request a >>= _) = _
  rw [hest]
  show (if m₀.pool.getNumFreeBlocks < est then _ else _) = _
  split_ifs
  · rfl
  · cases m₀.takeSlots request a <;> rfl

/-- **`allocate_slots` for a new request**: without enough free blocks nothing is changed but by the
trimming, and with enough the call succeeds. -/
theorem allocateSlots_of_admissible (ha : Admissible m request a) (hc : Configured cfg m)
    (hpos : ¬ (a.numNewTokens = 0 ∧ a.numExternalComputedTokens = 0))
    (h : KInv m.pool m.managers l) :
    ∃ m₀ est, Trims request.requestId (m.totalComputedTokens request a) l m m₀ ∧
      m.removeSkippedBlocks request.requestId (m.totalComputedTokens request a) = .ok m₀ ∧
      KInv m₀.pool m₀.managers l ∧ m₀.numBlocksToAllocate request a = .ok est ∧
      est = demand l (m.rounds request a) + (m₀.managers.map (m₀.admitCount request a)).sum ∧
      (l.length < est → m.allocateSlots request a = .ok (none, m₀)) ∧
      (est ≤ l.length → Returns (m.allocateSlots request a) fun x => x.1.isSome = true ∧
        (∃ m₁ m₂, TakesOver request a l m₀ m₁ ∧ Fills request a (drain l (m.rounds request a))
          (m₀.managers.map (m₀.admitCount request a)).sum m₁ m₂ x.2) ∧
        List.Forall₂ (TookFresh m₀.pool.nullBlock request.requestId a.newComputedBlocks
          (a.localTokens request) a.numExternalComputedTokens) m₀.managers x.2.managers) := by
  obtain ⟨m₀, hskip, ht⟩ := removeSkippedBlocks_returns h request.requestId
    (m.totalComputedTokens request a)
  have hinv := ht.inv_of_idle ha.idle
  have hc₀ : Configured cfg m₀ := hc.step ht.keeps ht.edits
  have hest := numBlocksToAllocate_of_admissible (ht.admissible ha) hc₀ hinv
  have hfree : m₀.pool.getNumFreeBlocks = l.length := hinv.pool.ref.queue.num
  rw [ht.rounds_eq] at hest
  have heq := allocateSlots_eq hpos hskip hest
  refine ⟨m₀, _, ht, hskip, hinv, hest, rfl, fun hlt => ?_, fun hle => ?_⟩
  · rw [heq, if_pos (by rw [hfree]; omega)]
  · rw [heq, if_neg (by rw [hfree]; omega), returns_map]
    have hroom := hle
    rw [← ht.rounds_eq] at hroom
    refine (takeSlots_of_admissible (ht.admissible ha) hc₀ hinv hroom).mono ?_
    rintro x ⟨⟨m₁, m₂, htake, hfills⟩, hfresh⟩
    rw [ht.rounds_eq] at hfills
    exact ⟨rfl, ⟨m₁, m₂, htake, hfills⟩, hfresh⟩

/-- **`allocate_slots` for a request that has slots**: the same. -/
theorem allocateSlots_of_mayExtend (ha : MayExtend m request a) (hc : Configured cfg m)
    (hslots : Slotted m request.requestId request.numComputedTokens)
    (h : KInv m.pool m.managers l) :
    ∃ m₀ est l₀, Trims request.requestId (m.totalComputedTokens request a) l m m₀ ∧
      m.removeSkippedBlocks request.requestId (m.totalComputedTokens request a) = .ok m₀ ∧
      KInv m₀.pool m₀.managers l₀ ∧ m₀.numBlocksToAllocate request a = .ok est ∧
      (l₀.length < est → m.allocateSlots request a = .ok (none, m₀)) ∧
      (est ≤ l₀.length → Returns (m.allocateSlots request a) fun x => x.1.isSome = true ∧
        (∃ m₂, Fills request a l₀ est m₀ m₂ x.2) ∧
        List.Forall₂ (Lengthens m₀.pool.nullBlock request.requestId) m₀.managers
          x.2.managers) := by
  obtain ⟨m₀, hskip, ht⟩ := removeSkippedBlocks_returns h request.requestId
    (m.totalComputedTokens request a)
  obtain ⟨freed, -, hinv⟩ := ht.inv
  have hc₀ : Configured cfg m₀ := hc.step ht.keeps ht.edits
  have ha₀ := ht.mayExtend ha
  have hest := numBlocksToAllocate_of_mayExtend ha₀ hc₀ (ht.slotted hslots)
  have hfree : m₀.pool.getNumFreeBlocks = (l ++ freed).length := hinv.pool.ref.queue.num
  have heq := allocateSlots_eq (fun hnone => (ha.pos.ne' hnone.1).elim) hskip hest
  refine ⟨m₀, _, l ++ freed, ht, hskip, hinv, hest, fun hlt => ?_, fun hle => ?_⟩
  · rw [heq, if_pos (by rw [hfree]; omega)]
  · rw [heq, if_neg (by rw [hfree]; omega), returns_map]
    refine (takeSlots_of_mayExtend ha₀ hc₀ hinv hle).mono ?_
    rintro x ⟨hfills, hlong⟩
    exact ⟨rfl, hfills, hlong⟩

end Whole

end KVCacheManager

end CacheFlow
