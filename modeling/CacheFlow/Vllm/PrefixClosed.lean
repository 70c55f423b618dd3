import CacheFlow.Lib.Lineage
import CacheFlow.Vllm.Driver
import CacheFlow.Vllm.HybridHit

/-!
# The cached hashes are closed under parents

The hash of a block contains that of the block before it. With one group of full attention, a
block can only be found again if those before it are found, too: the lookup goes from the left and
stops at the first block that is missing.

So no block may be evicted before those that follow it. A request gives back its last blocks
first, so that in the queue of free blocks, from whose front blocks are evicted, a block comes
before one that has the hash of its parent, or this one is in use. A block that is in use has its
parent before it in the list of the request.

## Main results

* `Driven.prefix_closed` — **the hash of the parent of a stored block is stored.**
-/

namespace CacheFlow

open List SingleTypeKVCacheManager Option KVCacheManager BlockPool

/-- The hashes of the blocks of every request: each is that of a block after its parent. -/
structure HashChain (H : Type) where
  parent : H → Option H
  hashesOf : String → ℕ → H
  /-- The first block has none before it. -/
  first : ∀ r, parent (hashesOf r 0) = none
  /-- The others have. -/
  next : ∀ r i, parent (hashesOf r (i + 1)) = some (hashesOf r i)

namespace HashChain

variable {H : Type}

/-- The parent of a key of the hash map. -/
def parentKey (C : HashChain H) (k : BlockKey H) : Option (BlockKey H) :=
  match k.1 with
  | [h] => (C.parent h).map fun h' => ([h'], k.2)
  | _ => none

/-- The hashes of a request are those of the chain. -/
def Names (C : HashChain H) (request : KvRequest H) : Prop :=
  ∀ (i : ℕ) (h : H), request.blockHashes[i]? = some h → h = C.hashesOf request.requestId i

theorem parentKey_singleton (C : HashChain H) (h : H) (gid : ℕ) :
    C.parentKey ([h], gid) = (C.parent h).map fun h' => ([h'], gid) := rfl

/-- The key of a block of a request has a parent if there is a block before it. -/
theorem exists_of_parentKey {C : HashChain H} {r : String} {i gid : ℕ} {k : BlockKey H}
    (h : C.parentKey ([C.hashesOf r i], gid) = some k) :
    ∃ j, i = j + 1 ∧ k = ([C.hashesOf r j], gid) := by
  cases i with
  | zero =>
    rw [parentKey_singleton, C.first] at h
    cases h
  | succ j =>
    rw [parentKey_singleton, C.next] at h
    cases h
    exact ⟨j, rfl, rfl⟩

end HashChain

/-! ### The invariant -/

theorem BlockPool.exists_of_mem_findFull {H : Type} {p : BlockPool H} {hashes : List (List H)}
    {gids row : List ℕ} {blockSize maxLength alignment : ℕ} {useEagle : Bool}
    (h : row ∈ p.findFull blockSize hashes maxLength gids useEagle alignment) :
    ∃ hash, p.getCachedBlock hash gids = some row := by
  have hrow : row ∈ p.hitRows gids (hashes.take (maxLength / blockSize)) := by
    have hmem := mem_of_mem_take h
    split_ifs at hmem
    · exact mem_of_mem_dropLast hmem
    · exact hmem
  obtain ⟨i, hi⟩ := List.getElem?_of_mem hrow
  rw [hitRows_getElem? p gids (List.getElem?_eq_some_iff.mp hi).1.le] at hi
  obtain ⟨hash, -, hfound⟩ := bind_eq_some_iff.mp hi
  exact ⟨hash, (filter_eq_some_iff.mp hfound).1⟩

variable {H : Type} {C : HashChain H} {p p' : BlockPool H} {g g' : SingleTypeKVCacheManager}
  {l l' : List ℕ} {r : String}

/-- The invariant of the group. -/
structure Chained (C : HashChain H) (p : BlockPool H) (g : SingleTypeKVCacheManager) (l : List ℕ) :
    Prop where
  inv : KInv p [g] l
  plain : ∀ r, p.nullBlock ∉ g.blocksOf r
  le : ∀ r, g.cachedOf r ≤ (g.blocksOf r).length
  /-- Stored blocks have the hashes of the request. -/
  named : ∀ (r : String) (i b : ℕ), i < g.cachedOf r → (g.blocksOf r)[i]? = some b →
    (p.blocks b).blockHash = some ([C.hashesOf r i], g.kvCacheGroupId)
  later : ParentLater C.parentKey (fun b => (p.blocks b).blockHash) l

namespace Chained

section

variable (h : Chained C p g l)
include h

theorem ne_null {b : ℕ} {k : BlockKey H}
    (hb : (p.blocks b).blockHash = some k) : b ≠ p.nullBlock := by
  rintro rfl
  rw [h.inv.pool.hash.null] at hb
  cases hb

theorem null_not_mem : p.nullBlock ∉ l :=
  fun hl => ((h.inv.pool.ref.mem_iff _).mp hl).2.1 rfl

theorem not_mem_queue {b : ℕ} (hb : b ∈ g.blocksOf r) : b ∉ l :=
  fun hl => h.inv.pool.ref.not_mem_of_mem hl (mem_heldAll_of_mem_blocksOf mem_cons_self hb)

/-- A stored block of a request has the block of its parent before it. -/
theorem exists_before {b : ℕ} {k k' : BlockKey H} (hb : b ∈ g.blocksOf r)
    (hk : (p.blocks b).blockHash = some k) (hparent : C.parentKey k = some k') :
    ∃ (i j b' : ℕ), (g.blocksOf r)[i]? = some b ∧ (g.blocksOf r)[j]? = some b' ∧ j < i ∧
      (p.blocks b').blockHash = some k' := by
  obtain ⟨i, hi⟩ := List.getElem?_of_mem hb
  have hlt : i < g.cachedOf r := by
    by_contra hge
    have hmem : b ∈ g.uncachedOf r := by
      apply mem_of_getElem? (i := i - g.cachedOf r)
      rw [uncachedOf, List.getElem?_drop, ← hi]
      congr 1
      omega
    rw [h.inv.groups.plain g mem_cons_self r b hmem (h.ne_null hk)] at hk
    cases hk
  rw [h.named r i b hlt hi] at hk
  cases hk
  obtain ⟨j, rfl, rfl⟩ := HashChain.exists_of_parentKey hparent
  have hj : j < (g.blocksOf r).length := by
    have := h.le r
    omega
  exact ⟨j + 1, j, _, hi, List.getElem?_eq_getElem hj, Nat.lt_succ_self j,
    h.named r j _ (by omega) (List.getElem?_eq_getElem hj)⟩

/-- **The stored hashes are closed under parents.** -/
theorem closed {b : ℕ} {k k' : BlockKey H}
    (hk : (p.blocks b).blockHash = some k) (hparent : C.parentKey k = some k') :
    ∃ b', (p.blocks b').blockHash = some k' := by
  by_cases hl : b ∈ l
  · obtain ⟨u, v, rfl⟩ := append_of_mem hl
    obtain ⟨b', hb', -⟩ := h.later u b v k k' rfl hk hparent
    exact ⟨b', hb'⟩
  · -- a block that is not in the queue is in the list of a request
    have hheld : b ∈ heldAll [g] := by
      by_contra hheld
      exact hl (h.inv.pool.ref.mem_of_not_mem (h.inv.pool.hash.lt b (by rw [hk]; nofun))
        (h.ne_null hk) hheld)
    rw [heldAll, flatMap_singleton] at hheld
    obtain ⟨bs, hbs, hb⟩ := mem_flatten.mp hheld
    obtain ⟨r, hr⟩ := Dict.mem_values_iff.mp hbs
    have hblocks : b ∈ g.blocksOf r := by rwa [blocksOf, hr]
    obtain ⟨-, -, b', -, -, -, hb'⟩ := h.exists_before hblocks hk hparent
    exact ⟨b', hb'⟩

end

/-! ### The methods -/

theorem cachedOf_of_edits (hedit : Edits r g g') {r' : String} (hr : r' ≠ r) :
    g'.cachedOf r' = g.cachedOf r' := by
  rw [cachedOf, cachedOf,
    hedit.numCachedBlock r' hr]

/-- A step that changes what one request has: its blocks are named, and the hashes of stored blocks
that are in use are kept. -/
theorem step (h : Chained C p g l) (hedit : Edits r g g') (hinv : KInv p' [g'] l')
    (hsame : Same p p') (hplain : p.nullBlock ∉ g'.blocksOf r)
    (hkeeps : ∀ r' b, b ∈ g.blocksOf r' → ∀ k, (p.blocks b).blockHash = some k →
      (p'.blocks b).blockHash = some k)
    (hle : g'.cachedOf r ≤ (g'.blocksOf r).length)
    (hnamed : ∀ i b, i < g'.cachedOf r → (g'.blocksOf r)[i]? = some b →
      (p'.blocks b).blockHash = some ([C.hashesOf r i], g.kvCacheGroupId))
    (hlater : ParentLater C.parentKey (fun b => (p'.blocks b).blockHash) l') :
    Chained C p' g' l' := by
  refine ⟨hinv, fun r' => ?_, fun r' => ?_, fun r' i b hi hb => ?_, hlater⟩
  all_goals by_cases hr : r' = r
  · rw [hsame.nullBlock, hr]
    exact hplain
  · rw [hsame.nullBlock, hedit.blocksOf r' hr]
    exact h.plain r'
  · exact hr ▸ hle
  · rw [cachedOf_of_edits hedit hr, hedit.blocksOf r' hr]
    exact h.le r'
  · subst hr
    rw [hedit.id]
    exact hnamed i b hi hb
  · rw [cachedOf_of_edits hedit hr] at hi
    rw [hedit.blocksOf r' hr] at hb
    rw [hedit.id]
    exact hkeeps r' b (mem_of_getElem? hb) _ (h.named r' i b hi hb)

/-- **Freeing** a request. -/
theorem free (h : Chained C p g l) (r : String) :
    Returns (g.free r p) fun x => ∃ l', Chained C x.2 x.1 l' := by
  have hinv₀ : KInv p ([] ++ g :: []) l := h.inv
  refine (hinv₀.free r).mono ?_
  rintro ⟨g', p'⟩ ⟨hinv, hsame, hhash, hedit, hblocks, hcached⟩
  have hkey : (fun b => (p'.blocks b).blockHash) = fun b => (p.blocks b).blockHash :=
    funext hhash.blockHash
  have hnone : g'.cachedOf r = 0 := by
    rw [cachedOf, hcached, getD_none]
  refine ⟨_, h.step hedit hinv hsame ?_ (fun r' b _ k hk => (hhash.blockHash b).trans hk) ?_ ?_ ?_⟩
  · rw [hblocks]
    exact not_mem_nil
  · rw [hnone]
    exact Nat.zero_le _
  · intro i b hi
    rw [hnone] at hi
    exact absurd hi (Nat.not_lt_zero i)
  · rw [hkey]
    -- the parent stands before the block, so it comes after it in reverse
    refine h.later.append fun u b v k k' hsplit hk hparent => ?_
    have hmem : b ∈ g.blocksOf r := by
      apply mem_reverse.mp
      apply mem_of_mem_filter
      rw [hsplit]
      simp
    obtain ⟨i, j, b', hi, hj, hij, hb'⟩ := h.exists_before hmem hk hparent
    have hnd := nodup_filter_iff.mp (h.inv.groups.nodup g mem_cons_self r)
    exact ⟨b', hb', h.not_mem_queue (mem_of_getElem? hj),
      not_mem_of_reverse_filter (hnd b (h.ne_null hk)) (hnd b' (h.ne_null hb')) hsplit hi hj hij⟩

/-- **Resetting** the cache: it succeeds if no request has blocks. -/
theorem resetPrefixCache (h : Chained C p g l) : Chained C p.resetPrefixCache.2 g l := by
  have hinv := Driven.kInv_resetPrefixCache h.inv
  unfold BlockPool.resetPrefixCache at hinv ⊢
  split_ifs at hinv ⊢ with hused
  · exact h
  · refine ⟨hinv, h.plain, h.le, fun r i b _ hb => ?_, parentLater_of_forall_eq_none fun b => rfl⟩
    -- all blocks but the null block are in the queue
    have hmem := mem_of_getElem? hb
    have hne : b ≠ p.nullBlock := fun heq => h.plain r (heq ▸ hmem)
    have hfree : p.getNumFreeBlocks = l.length := h.inv.pool.ref.queue.num
    have hnd : (b :: p.nullBlock :: l).Nodup := by
      refine nodup_cons.mpr ⟨?_, nodup_cons.mpr ⟨h.null_not_mem, ?_⟩⟩
      · rw [mem_cons, not_or]
        exact ⟨hne, h.not_mem_queue hmem⟩
      · exact h.inv.pool.ref.queue.nodup
    have hsub : b :: p.nullBlock :: l ⊆ List.range p.numGpuBlocks := by
      intro c hc
      rw [mem_range]
      rcases mem_cons.mp hc with rfl | hc
      · exact h.inv.pool.ref.lt c (mem_heldAll_of_mem_blocksOf mem_cons_self hmem)
      · rcases mem_cons.mp hc with rfl | hc
        · exact h.inv.pool.ref.null_lt
        · exact ((h.inv.pool.ref.mem_iff c).mp hc).1
    have hlen := (subperm_of_subset hnd hsub).length_le
    rw [length_cons, length_cons, length_range] at hlen
    omega

section Hashed

variable [DecidableEq H]

/-- **Taking new blocks.** -/
theorem allocateNewBlocks (h : Chained C p g l) (r : String) (numTokens : ℕ) :
    Ensures (g.allocateNewBlocks r numTokens p) fun x => (∃ l', Chained C x.2 x.1.2 l') ∧
      x.1.2.spec = g.spec ∧ cdiv numTokens g.spec.blockSize ≤ (x.1.2.blocksOf r).length ∧
      Same p x.2 := by
  intro x hx
  have hinv₀ : KInv p ([] ++ g :: []) l := h.inv
  -- with too few free blocks the call would have raised
  have hroom : cdiv numTokens g.spec.blockSize - (g.blocksOf r).length ≤ l.length := by
    by_contra hlt
    unfold SingleTypeKVCacheManager.allocateNewBlocks getNewBlocks at hx
    have hfree : p.getNumFreeBlocks = l.length := h.inv.pool.ref.queue.num
    rw [if_neg (by omega), if_pos (by omega)] at hx
    cases hx
  obtain ⟨hinv, hsame, hedit, -, hblocks, hcached, hhash⟩ :=
    (hinv₀.allocateNewBlocks rfl hroom).of_eq hx
  have hcachedOf : x.1.2.cachedOf r = g.cachedOf r := by
    rw [cachedOf, cachedOf, hcached]
  have hkeeps : ∀ r' b, b ∈ g.blocksOf r' → ∀ k, (p.blocks b).blockHash = some k →
      (x.2.blocks b).blockHash = some k := by
    intro r' b hb k hk
    rw [hhash, if_neg fun hmem => h.not_mem_queue hb (List.mem_of_mem_take hmem), hk]
  have hlater := h.later.drop _ hhash
  refine ⟨⟨_, h.step hedit hinv hsame ?_ hkeeps ?_ ?_ hlater⟩, hedit.spec, ?_, hsame⟩
  · rw [hblocks, List.mem_append, not_or]
    exact ⟨h.plain r, fun hmem => h.null_not_mem (List.mem_of_mem_take hmem)⟩
  · rw [hcachedOf, hblocks, List.length_append]
    exact (h.le r).trans (Nat.le_add_right _ _)
  · intro i b hi hb
    rw [hcachedOf] at hi
    rw [hblocks, List.getElem?_append_left (hi.trans_le (h.le r))] at hb
    exact hkeeps r b (List.mem_of_getElem? hb) _ (h.named r i b hi hb)
  · rw [hblocks, List.length_append, List.length_take]
    omega

/-- **Storing** the full blocks of a request. -/
theorem cacheBlocks (h : Chained C p g l) {request : KvRequest H} {numTokens : ℕ}
    (hnames : C.Names request) (hcaching : p.enableCaching = true)
    (hsize : g.spec.blockSize = p.hashBlockSize)
    (hfull : numTokens / g.spec.blockSize ≤ (g.blocksOf request.requestId).length)
    (hhashes : numTokens / g.spec.blockSize ≤ request.blockHashes.length) :
    Returns (g.cacheBlocks request numTokens p) fun x => ∃ l', Chained C x.2 x.1 l' := by
  have hinv₀ : KInv p ([] ++ g :: []) l := h.inv
  have hpos : 0 < p.hashBlockSize := hsize ▸ g.spec.blockSize_pos
  have hone : g.spec.blockSize / p.hashBlockSize = 1 := by rw [hsize, Nat.div_self hpos]
  have hregroup : regroup request.blockHashes (g.spec.blockSize / p.hashBlockSize) =
      request.blockHashes.map fun h => [h] := by rw [hone, regroup_one]
  refine (hinv₀.cacheBlocks hcaching hpos (by rw [hsize, Nat.mod_self]) hfull (by
    rwa [hone, Nat.div_one])).mono ?_
  rintro ⟨g', p'⟩ ⟨hinv, hsame, hedit, hblocks, hcached, hstored⟩
  have hkeeps : ∀ b k, (p.blocks b).blockHash = some k → (p'.blocks b).blockHash = some k := by
    intro b k hk
    -- what is stored now had no hash
    rw [hstored.other b (Or.inl fun hmem => ?_), hk]
    rw [h.inv.groups.plain g mem_cons_self request.requestId b
      (mem_uncachedOf_of_mem_toStore hmem) (h.ne_null hk)] at hk
    cases hk
  refine ⟨l, h.step hedit hinv hsame ?_ (fun r' b _ => hkeeps b) ?_ ?_ (h.later.congr ?_ hkeeps)⟩
  · rw [hblocks]
    exact h.plain _
  · rw [hcached, hblocks]
    exact max_le (h.le _) hfull
  · intro i b hi hb
    rw [hcached] at hi
    rw [hblocks] at hb
    rcases Nat.lt_or_ge i (g.cachedOf request.requestId) with hlt | hge
    · exact hkeeps b _ (h.named _ i b hlt hb)
    · have hlt : i < numTokens / g.spec.blockSize := (lt_max_iff.mp hi).resolve_left hge.not_gt
      have hget := List.getElem?_eq_getElem (hlt.trans_le hhashes)
      rw [← hnames i _ hget]
      apply hstored.stored i b _ hge hlt hb
      · rw [hregroup, List.getElem?_map, hget, map_some]
      · rintro rfl
        exact h.plain _ (mem_of_getElem? hb)
  · intro b hb
    exact hstored.other b (Or.inl fun hmem => h.not_mem_queue
      (mem_blocksOf_of_mem_uncachedOf
        (mem_uncachedOf_of_mem_toStore hmem)) hb)

end Hashed

end Chained

/-! ### The manager -/

theorem numSkippedBlocks_full (hfull : g.spec.kind = .full) (n : ℕ) : g.numSkippedBlocks n = 0 := by
  rw [numSkippedBlocks, g.spec.getNumSkippedTokens_full hfull,
    Nat.zero_div]

namespace KVCacheManager

variable {m m₁ m' : KVCacheManager H} {cfg : KVCacheConfig} {request : KvRequest H} {a : SlotArgs}

/-- The invariant of a manager with one group. -/
def PrefixInv (C : HashChain H) (m : KVCacheManager H) : Prop :=
  ∃ g l, m.managers = [g] ∧ Chained C m.pool g l

/-- The manager of one group of full attention, with caching. -/
structure OneFull (m : KVCacheManager H) : Prop where
  size : ∀ g ∈ m.managers, g.spec.blockSize = m.pool.hashBlockSize
  full : ∀ g ∈ m.managers, g.spec.kind = .full
  caching : m.enableCaching = true

theorem Configured.oneFull (hc : Configured cfg m) {spec : KVCacheSpec}
    (hgroups : cfg.kvCacheGroups = [spec]) (hfull : spec.kind = .full)
    (hcaching : cfg.enableCaching = true) : OneFull m := by
  have hon : m.enableCaching = true := hc.enableCaching.trans hcaching
  have hspec : ∀ g ∈ m.managers, g.spec = spec := by
    intro g hg
    have hmem := hc.mem_specs hg
    rw [hgroups] at hmem
    exact mem_singleton.mp hmem
  refine ⟨fun g hg => ?_, fun g hg => ?_, hon⟩
  · rw [hspec g hg]
    exact (hc.sizes hon).2 spec hgroups
  · rw [hspec g hg]
    exact hfull

theorem forManagers_single (hm : m.managers = [g]) (f : SingleTypeKVCacheManager → BlockPool H →
    Except VllmErr (SingleTypeKVCacheManager × BlockPool H)) :
    m.forManagers f =
      (f g m.pool).map fun x => { m with managers := [x.1], pool := x.2 } := by
  unfold forManagers
  rw [hm]
  show ((f g m.pool >>= _) >>= _) = _
  cases f g m.pool <;> rfl

/-- Full attention gives nothing back before the request is freed. -/
theorem removeSkippedBlocks_full (hm : m.managers = [g]) (hfull : g.spec.kind = .full) (r : String)
    (n : ℕ) : m.removeSkippedBlocks r n = .ok m := by
  rw [removeSkippedBlocks, forManagers_single hm, SingleTypeKVCacheManager.removeSkippedBlocks,
    g.spec.getNumSkippedTokens_full hfull, if_pos rfl]
  show Except.ok { m with managers := [g] } = .ok m
  rw [← hm]

theorem PrefixInv.free (h : PrefixInv C m) (r : String) : Ensures (m.free r) (PrefixInv C) := by
  obtain ⟨g, l, hm, hg⟩ := h
  obtain ⟨x, hx, l', hx'⟩ := hg.free r
  rw [KVCacheManager.free, forManagers_single hm, hx]
  exact ensures_ok.mpr ⟨x.1, l', rfl, hx'⟩

/-- So does taking over hits that have the hashes of the request. -/
theorem PrefixInv.takesOver {l : List ℕ} (hm : m.managers = [g]) (h : Chained C m.pool g l)
    (hfull : g.spec.kind = .full) (ht : TakesOver request a l m m₁)
    (hfresh : List.Forall₂ (TookFresh m.pool.nullBlock request.requestId a.newComputedBlocks
      (a.localTokens request) a.numExternalComputedTokens) m.managers m₁.managers)
    (hhits : ∀ i b, (hitsOf a.newComputedBlocks g)[i]? = some b → (m.pool.blocks b).blockHash =
      some ([C.hashesOf request.requestId i], g.kvCacheGroupId)) : PrefixInv C m₁ := by
  have hround : (g.round (hitsOf a.newComputedBlocks g) (a.localTokens request)
      a.numExternalComputedTokens).1 = hitsOf a.newComputedBlocks g := by
    rw [SingleTypeKVCacheManager.round, SingleTypeKVCacheManager.keptHits,
      numSkippedBlocks_full hfull, List.drop_zero]
  have hmanagers := forall₂_and ht.tookOver hfresh
  rw [hm] at hmanagers
  obtain ⟨g₁, rest, ⟨htook, fresh, hnull, hblocks⟩, hrest, heq⟩ :=
    List.forall₂_cons_left_iff.mp hmanagers
  obtain rfl := List.forall₂_nil_left_iff.mp hrest
  have hcached := htook.cachedOf
  rw [numSkippedBlocks_full hfull, hround] at hcached hblocks
  rw [Nat.zero_add] at hcached
  rw [List.replicate_zero, List.nil_append] at hblocks
  -- one group has one round, which draws from the front of the queue
  obtain ⟨e, hrounds⟩ : ∃ e, m.rounds request a = [(hitsOf a.newComputedBlocks g, e)] := by
    refine ⟨(g.round (hitsOf a.newComputedBlocks g) (a.localTokens request)
      a.numExternalComputedTokens).2, ?_⟩
    rw [rounds, roundsOf, hm, List.map_singleton]
    exact congrArg (fun kept => [(kept, _)]) hround
  have hinv := ht.inv
  rw [hrounds, heq] at hinv
  have hhash : ∀ c, (m₁.pool.blocks c).blockHash =
      if c ∈ (l.filter (· ∉ hitsOf a.newComputedBlocks g)).take e then none
      else (m.pool.blocks c).blockHash := by
    intro c
    rw [ht.evicted, hrounds]
    simp [draws]
  refine ⟨g₁, _, heq, h.step htook.edits hinv ht.keeps.pool ?_ ?_ ?_ ?_
    ((h.later.filter _).drop e hhash)⟩
  · rw [hblocks, List.mem_append, not_or]
    refine ⟨fun hmem => ?_, hnull⟩
    obtain ⟨i, hi⟩ := List.getElem?_of_mem hmem
    exact h.ne_null (hhits i _ hi) rfl
  · intro r' b hb k hk
    rw [hhash, if_neg, hk]
    intro hmem
    exact h.not_mem_queue hb (List.mem_of_mem_filter (List.mem_of_mem_take hmem))
  · rw [hcached, hblocks, List.length_append]
    exact Nat.le_add_right _ _
  · -- a hit is not drawn, so it keeps its hash
    intro i b hi hb
    rw [hcached] at hi
    rw [hblocks, List.getElem?_append_left hi] at hb
    rw [hhash, if_neg, hhits i b hb]
    intro hmem
    have hnot := List.of_mem_filter (List.mem_of_mem_take hmem)
    exact of_decide_eq_true hnot (List.mem_of_getElem? hb)

theorem hits_ne_null {spec : KVCacheSpec} (hc : Configured cfg m)
    (hgroups : cfg.kvCacheGroups = [spec]) (hfull : spec.kind = .full) (hhash : m.pool.HashInv)
    {hits : List (List ℕ)} {n : ℕ} (h : m.getComputedBlocks request = .ok (hits, n)) {b : ℕ}
    (hb : b ∈ hitsOf hits g) : b ≠ m.pool.nullBlock := by
  obtain ⟨bs, hbs, hmem⟩ : ∃ bs ∈ hits, b ∈ bs := by
    cases hget : hits[g.kvCacheGroupId]? with
    | none =>
      rw [hitsOf, hget] at hb
      cases hb
    | some bs =>
      rw [hitsOf, hget] at hb
      exact ⟨bs, mem_of_getElem? hget, hb⟩
  unfold getComputedBlocks at h
  split_ifs at h
  · cases h
    obtain ⟨-, -, rfl⟩ := mem_map.mp hbs
    cases hmem
  · rw [hc.specs_eq, hgroups] at h
    unfold coordinatorHit findLongestCacheHit at h
    dsimp only at h
    rw [hfull] at h
    cases h
    obtain rfl := mem_singleton.mp hbs
    obtain ⟨row, hrow, rfl⟩ := mem_map.mp hmem
    obtain ⟨hash, hfound⟩ := exists_of_mem_findFull hrow
    -- what is found is stored, and the null block never is
    intro hnull
    have hgroup : [0][0]? = some 0 := rfl
    have hcached := (hhash.hash_iff _ _).mpr (mem_of_getCachedBlock hfound hgroup)
    rw [hnull, hhash.null] at hcached
    cases hcached

section Hashed

variable [DecidableEq H]

theorem allocateNewBlocks_single (hm : m.managers = [g]) (r : String) (n : ℕ) :
    m.allocateNewBlocks r n = (g.allocateNewBlocks r n m.pool).map fun x =>
      ([x.1.1], { m with managers := [x.1.2], pool := x.2 }) := by
  unfold allocateNewBlocks
  rw [hm]
  show ((g.allocateNewBlocks r n m.pool >>= _) >>= _) = _
  cases g.allocateNewBlocks r n m.pool <;> rfl

section

variable (h : PrefixInv C m) (hone : OneFull m)
include h hone

theorem PrefixInv.cacheAll (hs : Sized m request)
    (hnames : C.Names request) {n : ℕ} (hle : n ≤ request.numTokens)
    (hslots : m.Slotted request.requestId n) :
    Ensures (m.cacheAll request n) (PrefixInv C) := by
  obtain ⟨g, l, hm, hg⟩ := h
  have hmem : g ∈ m.managers := by rw [hm]; exact mem_cons_self
  have hsize := hone.size g hmem
  have hhashes : n / g.spec.blockSize ≤ request.blockHashes.length := by
    rw [hsize]
    exact (Nat.div_le_div_right hle).trans (hs.hashes hone.caching)
  have hfull : n / g.spec.blockSize ≤ (g.blocksOf request.requestId).length := by
    apply Nat.div_le_of_le_mul
    rw [Nat.mul_comm]
    exact hslots g hmem
  obtain ⟨x, hx, l', hx'⟩ := hg.cacheBlocks hnames hone.caching hsize hfull hhashes
  rw [KVCacheManager.cacheAll, forManagers_single hm, hx]
  exact ensures_ok.mpr ⟨x.1, l', rfl, hx'⟩

theorem PrefixInv.fillSlots (hs : Sized m request)
    (hnames : C.Names request) (a : SlotArgs) :
    Ensures (m.fillSlots request a) fun x => PrefixInv C x.2 := by
  obtain ⟨g, l, hm, hg⟩ := h
  have hmem : g ∈ m.managers := by rw [hm]; exact mem_cons_self
  unfold KVCacheManager.fillSlots
  rw [allocateNewBlocks_single hm, ensures_bind]
  intro y hy
  obtain ⟨x, hx, rfl⟩ := map_eq_ok.mp hy
  obtain ⟨⟨l₂, hg₂⟩, hspec, hlen, hsame⟩ := hg.allocateNewBlocks _ _ x hx
  have hinv : PrefixInv C { m with managers := [x.1.2], pool := x.2 } := ⟨x.1.2, l₂, rfl, hg₂⟩
  dsimp only
  split_ifs with hoff
  · exact ensures_pure.mpr hinv
  · have hone₂ : OneFull { m with managers := [x.1.2], pool := x.2 } := by
      refine ⟨fun g' hg' => ?_, fun g' hg' => ?_, hsame.enableCaching.trans hone.caching⟩
      all_goals obtain rfl := mem_singleton.mp hg'
      · rw [hspec, hone.size g hmem]
        exact hsame.hashBlockSize.symm
      · rw [hspec]
        exact hone.full g hmem
    have hs₂ : Sized { m with managers := [x.1.2], pool := x.2 } request := by
      refine ⟨hs.le, fun _ => ?_⟩
      rw [hsame.hashBlockSize]
      exact hs.hashes hone.caching
    -- no more tokens are stored than have slots
    have hcache : m.numTokensToCache request a ≤ m.numTokensNeedSlot request a := by
      have hle := hs.le
      rw [numTokensToCache, numTokensNeedSlot]
      omega
    rw [ensures_bind]
    refine (hinv.cacheAll hone₂ hs₂ hnames (Nat.min_le_right _ _) ?_).mono fun m' hm' =>
      ensures_pure.mpr hm'
    intro g' hg'
    obtain rfl := mem_singleton.mp hg'
    rw [hspec]
    exact hcache.trans ((le_cdiv_mul _ g.spec.blockSize_pos).trans (Nat.mul_le_mul_right _ hlen))

/-- The whole call keeps the invariant, if taking over the hits does. -/
theorem PrefixInv.allocateSlots
    (hpos : ¬ (a.numNewTokens = 0 ∧ a.numExternalComputedTokens = 0)) {est : ℕ}
    (hest : m.numBlocksToAllocate request a = .ok est) (hnames : C.Names request)
    (htake : est ≤ m.pool.getNumFreeBlocks → Ensures (m.takeOverHits request a) fun m₁ =>
      PrefixInv C m₁ ∧ OneFull m₁ ∧ Sized m₁ request) :
    Ensures (m.allocateSlots request a) fun x => PrefixInv C x.2 := by
  obtain ⟨g, l, hm, hg⟩ := h
  have hfull := hone.full g (by rw [hm]; exact mem_cons_self)
  rw [allocateSlots_eq hpos (removeSkippedBlocks_full hm hfull _ _) hest]
  split_ifs with hlt
  · exact ensures_ok.mpr ⟨g, l, hm, hg⟩
  · intro x hx
    obtain ⟨y, htaken, rfl⟩ := map_eq_ok.mp hx
    obtain ⟨m₁, hm₁, hy⟩ := bind_eq_ok.mp htaken
    obtain ⟨hinv, hone₁, hs₁⟩ := htake (Int.not_lt.mp hlt) m₁ hm₁
    exact hinv.fillSlots hone₁ hs₁ hnames a y hy

end

section One

variable {spec : KVCacheSpec} (hc : Configured cfg m) (hgroups : cfg.kvCacheGroups = [spec])
  (hfull : spec.kind = .full) (hcaching : cfg.enableCaching = true)

include hc hgroups hfull hcaching

theorem PrefixInv.start (h : PrefixInv C m) (hidle : m.Idle request.requestId)
    (ha : MayAdmit m request a) (hnames : C.Names request) :
    Ensures (m.allocateSlots request a) fun x => PrefixInv C x.2 := by
  have hadm := ha.admissible hc hidle
  have hone := hc.oneFull hgroups hfull hcaching
  obtain ⟨g, l, hm, hg⟩ := h
  have hmem : g ∈ m.managers := by rw [hm]; exact mem_cons_self
  have hinv : KInv m.pool m.managers l := hm ▸ hg.inv
  have hfree : m.pool.getNumFreeBlocks = l.length := hinv.pool.ref.queue.num
  refine PrefixInv.allocateSlots ⟨g, l, hm, hg⟩ hone ha.pos
    (numBlocksToAllocate_of_admissible hadm hc hinv) hnames fun hle => ?_
  obtain ⟨m₁, heq, ht, hfresh⟩ := takeOverHits_returns hadm hc hinv (by omega)
  rw [heq]
  refine ensures_ok.mpr ⟨PrefixInv.takesOver hm hg (hone.full g hmem) ht hfresh ?_, ?_, ?_⟩
  · intro i b hb
    obtain ⟨hash, hget, hhash⟩ := (hadm.hitsOk g hmem).blockHash hinv.pool.hash hb
      (hits_ne_null hc hgroups hfull hinv.pool.hash ha.hits (mem_of_getElem? hb))
    rw [hone.size g hmem, Nat.div_self (hone.size g hmem ▸ g.spec.blockSize_pos), regroup_one,
      List.getElem?_map, map_eq_some_iff] at hget
    obtain ⟨h, hget, rfl⟩ := hget
    rw [hhash, hnames i h hget]
  · have hedits := ht.tookOver.imp fun _ _ h => h.edits
    exact (hc.step ht.keeps hedits).oneFull hgroups hfull hcaching
  · refine ⟨ht.keeps.maxModelLen ▸ ha.sized.le, fun _ => ?_⟩
    rw [ht.keeps.pool.hashBlockSize]
    exact ha.sized.hashes hone.caching

theorem PrefixInv.extend (h : PrefixInv C m)
    (hslots : m.Slotted request.requestId request.numComputedTokens) (ha : MayExtend m request a)
    (hnames : C.Names request) :
    Ensures (m.allocateSlots request a) fun x => PrefixInv C x.2 := by
  have hone := hc.oneFull hgroups hfull hcaching
  refine h.allocateSlots hone (fun hnone => ha.pos.ne' hnone.1)
    (numBlocksToAllocate_of_mayExtend ha hc hslots) hnames fun _ => ?_
  have hnone : ¬ (a.newComputedBlocks.any (· ≠ []) = true ∨ 0 < a.numExternalComputedTokens) := by
    rw [ha.hits, ha.external, emptyKvCacheBlocks]
    simp
  rw [takeOverHits, if_neg hnone]
  exact ensures_ok.mpr ⟨h, hone, ha.sized⟩

end One

end Hashed

theorem blockHash_new {n size : ℕ} {caching : Bool} (h : BlockPool.new n caching size = .ok p)
    (b : ℕ) : (p.blocks b).blockHash = none := by
  unfold BlockPool.new at h
  by_cases hzero : n = 0
  · rw [if_pos hzero] at h
    cases h
  · rw [if_neg hzero] at h
    obtain ⟨x, -, hx⟩ := bind_eq_ok.mp h
    cases hx
    rfl

theorem prefixInv_new {spec : KVCacheSpec} (hgroups : cfg.kvCacheGroups = [spec])
    (hnew : new cfg = .ok m) (hinv : ∃ l, KInv m.pool m.managers l) :
    PrefixInv C m := by
  obtain ⟨l, hinv⟩ := hinv
  obtain ⟨p, hpool, hp⟩ := bind_eq_ok.mp hnew
  split_ifs at hp
  rw [hgroups] at hp
  cases hp
  refine ⟨⟨spec, 0, ∅, ∅⟩, l, rfl, hinv, fun r => not_mem_nil, fun r => le_rfl, ?_,
    parentLater_of_forall_eq_none (blockHash_new hpool)⟩
  intro r i b hi
  exact absurd hi (Nat.not_lt_zero i)

end KVCacheManager

/-! ### Runs -/

/-- The requests of a call have the hashes of the chain. -/
def DriverOp.Named (C : HashChain H) : DriverOp H → Prop
  | .start request _ | .extend request _ | .cacheBlocks request _ => C.Names request
  | .getComputedBlocks _ | .free _ | .resetPrefixCache => True

namespace Driven

open KVCacheManager (PrefixInv)

variable [DecidableEq H] {cfg : KVCacheConfig} {spec : KVCacheSpec} {d d' : Driven H}

/-- The states that calls for these requests lead to. -/
inductive ReachableWith (C : HashChain H) (cfg : KVCacheConfig) : Driven H → Prop
  | init {m : KVCacheManager H} (h : new cfg = .ok m) : ReachableWith C cfg ⟨m, ∅⟩
  | step {d d' : Driven H} {op : DriverOp H} (h : ReachableWith C cfg d) (hlegal : d.Legal op)
    (hnamed : op.Named C) (hstep : d.step op = .ok d') : ReachableWith C cfg d'

theorem ReachableWith.reachable (h : ReachableWith C cfg d) : Reachable cfg d := by
  induction h with
  | init hnew => exact .init hnew
  | step _ hlegal _ hstep ih => exact .step ih hlegal hstep

theorem allocate_manager {request : KvRequest H} {a : SlotArgs}
    (h : d.allocate request a = .ok d') :
    ∃ newBlocks, d.manager.allocateSlots request a = .ok (newBlocks, d'.manager) := by
  obtain ⟨⟨newBlocks, m⟩, hx, hd⟩ := bind_eq_ok.mp h
  refine ⟨newBlocks, ?_⟩
  rw [hx]
  cases newBlocks <;> cases hd <;> rfl

/-- **One call** keeps the invariant of the hashes. -/
theorem prefixInv_step (hgroups : cfg.kvCacheGroups = [spec]) (hfull : spec.kind = .full)
    (hcaching : cfg.enableCaching = true) (hinv : Inv cfg d) (h : PrefixInv C d.manager)
    {op : DriverOp H} (hlegal : d.Legal op) (hnamed : op.Named C) (hstep : d.step op = .ok d') :
    PrefixInv C d'.manager := by
  cases op with
  | getComputedBlocks request =>
    obtain ⟨x, -, hx⟩ := bind_eq_ok.mp hstep
    cases hx
    exact h
  | start request a =>
    obtain ⟨newBlocks, hx⟩ := allocate_manager hstep
    exact h.start hinv.configured hgroups hfull hcaching (hinv.idle _ hlegal.1) hlegal.2 hnamed _ hx
  | extend request a =>
    obtain ⟨newBlocks, hx⟩ := allocate_manager hstep
    obtain ⟨⟨n, hget, hn⟩, ha⟩ := hlegal
    exact h.extend hinv.configured hgroups hfull hcaching
      (fun g hg => hn.trans (hinv.slotted _ n hget g hg)) ha hnamed _ hx
  | cacheBlocks request numTokens =>
    obtain ⟨-, hsized, hle, hslots⟩ := hlegal
    have hone := hinv.configured.oneFull hgroups hfull hcaching
    have hcache := h.cacheAll hone hsized hnamed hle hslots
    rw [step, KVCacheManager.cacheBlocks, if_pos hone.caching] at hstep
    obtain ⟨m, hx, hd⟩ := bind_eq_ok.mp hstep
    cases hd
    exact hcache m hx
  | free r =>
    obtain ⟨m, hx, hd⟩ := bind_eq_ok.mp hstep
    cases hd
    exact h.free r m hx
  | resetPrefixCache =>
    cases hstep
    obtain ⟨g, l, hm, hg⟩ := h
    exact ⟨g, l, hm, hg.resetPrefixCache⟩

/-- **Every run** keeps it. -/
theorem ReachableWith.prefixInv (hgroups : cfg.kvCacheGroups = [spec]) (hfull : spec.kind = .full)
    (hcaching : cfg.enableCaching = true) (h : ReachableWith C cfg d) : PrefixInv C d.manager := by
  induction h with
  | init hnew => exact prefixInv_new hgroups hnew (inv_new hnew).inv
  | step h hlegal hnamed hstep ih =>
    exact prefixInv_step hgroups hfull hcaching h.reachable.inv ih hlegal hnamed hstep

/-- **The cached hashes are closed under parents.** In every state that a manager with one group of
full attention reaches, the hash of the parent of a stored block is stored, and so the lookup of a
request goes on to every block of its that is stored. -/
theorem prefix_closed (hgroups : cfg.kvCacheGroups = [spec]) (hfull : spec.kind = .full)
    (hcaching : cfg.enableCaching = true) (h : ReachableWith C cfg d) :
    (∀ hash parent, d.manager.pool.cachedBlockHashToBlock ([hash], 0) ≠ [] →
      C.parent hash = some parent → d.manager.pool.cachedBlockHashToBlock ([parent], 0) ≠ []) ∧
    ∀ (request : KvRequest H) (n i : ℕ) (hash : H), C.Names request →
      request.blockHashes[i]? = some hash → i < n →
      d.manager.pool.cachedBlockHashToBlock ([hash], 0) ≠ [] →
      i < (d.manager.pool.hitRows [0] ((request.blockHashes.map fun h => [h]).take n)).length := by
  obtain ⟨g, l, hm, hg⟩ := h.prefixInv hgroups hfull hcaching
  have hclosed : ∀ hash parent, d.manager.pool.cachedBlockHashToBlock ([hash], 0) ≠ [] →
      C.parent hash = some parent →
      d.manager.pool.cachedBlockHashToBlock ([parent], 0) ≠ [] := by
    intro hash parent hne hparent
    obtain ⟨b, hb⟩ := exists_mem_of_ne_nil _ hne
    have hkey : C.parentKey ([hash], 0) = some ([parent], 0) := by
      rw [HashChain.parentKey_singleton, hparent, map_some]
    obtain ⟨b', hb'⟩ := hg.closed ((hg.inv.pool.hash.hash_iff b _).mpr hb) hkey
    exact ne_nil_of_mem ((hg.inv.pool.hash.hash_iff b' _).mp hb')
  refine ⟨hclosed, fun request n i hash hnames hget hi hne => ?_⟩
  have hdown : ∀ k j,
      d.manager.pool.cachedBlockHashToBlock ([C.hashesOf request.requestId (j + k)], 0) ≠ [] →
      d.manager.pool.cachedBlockHashToBlock ([C.hashesOf request.requestId j], 0) ≠ [] := by
    intro k
    induction k with
    | zero => exact fun j hj => hj
    | succ k ih => exact fun j hj => ih j (hclosed _ _ hj (C.next _ _))
  by_contra hlen
  -- the block at which the lookup stops is stored
  have hrow := hitRows_getElem? d.manager.pool [0] (le_refl
    (d.manager.pool.hitRows [0] ((request.blockHashes.map fun h => [h]).take n)).length)
  rw [List.getElem?_eq_none le_rfl] at hrow
  generalize (d.manager.pool.hitRows [0] ((request.blockHashes.map fun h => [h]).take n)).length = j
    at hlen hrow
  have hj : j < request.blockHashes.length :=
    (Nat.le_of_not_lt hlen).trans_lt (List.getElem?_eq_some_iff.mp hget).1
  have hsome : (d.manager.pool.hitAt ((request.blockHashes.map fun h => [h]).take n) [0]
      j).isSome = true := by
    refine (hitAt_isSome_iff (cons_ne_nil 0 [])).mpr
      ⟨[request.blockHashes[j]], ?_, fun g' hg' => ?_⟩
    · rw [List.getElem?_take_of_lt (by omega), List.getElem?_map, List.getElem?_eq_getElem hj,
        map_some]
    · rw [mem_singleton.mp hg', hnames j _ (List.getElem?_eq_getElem hj)]
      apply hdown (i - j)
      rwa [Nat.add_sub_cancel' (Nat.le_of_not_lt hlen), ← hnames i hash hget]
  rw [← hrow] at hsome
  cases hsome

/-- Every request has the hashes `0`, `1`, `2`, … -/
def naturals : HashChain ℕ where
  parent := fun
    | 0 => none
    | n + 1 => some n
  hashesOf := fun _ i => i
  first := fun _ => rfl
  next := fun _ _ => rfl

/-- A model with full attention, and three blocks beside the null block. -/
def oneGroup : KVCacheConfig where
  numBlocks := 4
  kvCacheGroups := [⟨2, .full, 0, Nat.two_pos, AttentionKind.full_pos⟩]
  maxModelLen := 8
  hashBlockSize := 2
  enableCaching := true
  useEagle := false
  hashBlockSize_pos := Nat.two_pos

/-- A request of two blocks. -/
def twoBlocks : KvRequest ℕ := ⟨"a", 4, 0, [0, 1], false, by decide⟩

/-- The manager at the start. -/
def unused : Driven ℕ := ⟨result (new oneGroup) (by decide +kernel), ∅⟩

/-- Slots for all of its tokens. -/
def twoSlots : DriverOp ℕ := .start twoBlocks ⟨4, 0, [[]], 0, 0, false⟩

/-- Once the request has slots, its second block is stored, and so is the first. -/
theorem prefix_closed_of_two_blocks : ∃ d : Driven ℕ, ReachableWith naturals oneGroup d ∧
    d.manager.pool.cachedBlockHashToBlock ([1], 0) ≠ [] ∧
    d.manager.pool.cachedBlockHashToBlock ([0], 0) ≠ [] := by
  have hlegal : unused.Legal twoSlots :=
    ⟨rfl, ⟨by decide +kernel, fun _ => by decide +kernel⟩, rfl, by decide +kernel, by decide,
      by decide⟩
  have hnamed : twoSlots.Named naturals := by
    intro i h hget
    have hget' : [0, 1][i]? = some h := hget
    match i, hget' with
    | 0, hget' => exact (Option.some.inj hget').symm
    | 1, hget' => exact (Option.some.inj hget').symm
  have hreach : ReachableWith naturals oneGroup
      (result (unused.step twoSlots) (by decide +kernel)) :=
    .step (.init (eq_ok_result _ _)) hlegal hnamed (eq_ok_result _ _)
  have hone : (result (unused.step twoSlots)
      (by decide +kernel)).manager.pool.cachedBlockHashToBlock ([1], 0) ≠ [] := by
    decide +kernel
  exact ⟨_, hreach, hone, (prefix_closed rfl rfl rfl hreach).1 1 0 hone rfl⟩

end Driven

end CacheFlow
