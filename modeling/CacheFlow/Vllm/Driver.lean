import CacheFlow.Vllm.Slots

/-!
# The manager under the scheduler

The KV cache manager is driven by the scheduler: lookups, slots for new requests and for those
that have some, storing blocks that were received, freeing, resetting the cache.

## Main definitions

* `Driven.Legal`, `Driven.step` — when the scheduler makes a call, and what it does.

## Main results

* `Driven.reachable_consistent` — **every reachable state is consistent, and every call succeeds.**
* `Driven.reachable_conserves` — no block is lost.
-/

namespace CacheFlow

open List KVCacheManager

open SingleTypeKVCacheManager (Edits)

variable {H : Type}

/-! ### The calls -/

/-- The manager, and for each request that has slots for how many tokens. -/
structure Driven (H : Type) where
  manager : KVCacheManager H
  /-- The tokens that have slots. -/
  slotted : Dict String ℕ

/-- The calls of the scheduler. -/
inductive DriverOp (H : Type)
  | getComputedBlocks (request : KvRequest H)
  /-- `allocate_slots` for a request that has none. -/
  | start (request : KvRequest H) (a : SlotArgs)
  /-- `allocate_slots` for a request that has some. -/
  | extend (request : KvRequest H) (a : SlotArgs)
  | cacheBlocks (request : KvRequest H) (numTokens : ℕ)
  | free (r : String)
  | resetPrefixCache

namespace Driven

/-- When the scheduler makes a call. -/
def Legal (d : Driven H) : DriverOp H → Prop
  | .getComputedBlocks request => Sized d.manager request
  | .start request a =>
    d.slotted.get? request.requestId = none ∧ MayAdmit d.manager request a
  | .extend request a =>
    (∃ n, d.slotted.get? request.requestId = some n ∧ request.numComputedTokens ≤ n) ∧
      MayExtend d.manager request a
  | .cacheBlocks request numTokens =>
    d.slotted.contains request.requestId = true ∧ Sized d.manager request ∧
      numTokens ≤ request.numTokens ∧ Slotted d.manager request.requestId numTokens
  | .free _ => True
  | .resetPrefixCache => True

/-- More tokens of a request have slots. -/
def grow (d : Driven H) (m : KVCacheManager H) (r : String) (numTokens : ℕ) : Driven H :=
  ⟨m, d.slotted.set r (max ((d.slotted.get? r).getD 0) numTokens)⟩

section Step

variable [DecidableEq H]

/-- A call of `allocate_slots`. -/
def allocate (d : Driven H) (request : KvRequest H) (a : SlotArgs) :
    Except VllmErr (Driven H) := do
  let (newBlocks, m) ← d.manager.allocateSlots request a
  match newBlocks with
  | none => pure { d with manager := m }
  | some _ => pure (d.grow m request.requestId (m.numTokensNeedSlot request a))

/-- What a call does. -/
def step (d : Driven H) : DriverOp H → Except VllmErr (Driven H)
  | .getComputedBlocks request => do
    let _ ← d.manager.getComputedBlocks request
    pure d
  | .start request a => d.allocate request a
  | .extend request a => d.allocate request a
  | .cacheBlocks request numTokens => do
    let m ← d.manager.cacheBlocks request numTokens
    pure (d.grow m request.requestId numTokens)
  | .free r => do
    let m ← d.manager.free r
    pure ⟨m, d.slotted.erase r⟩
  | .resetPrefixCache => .ok { d with manager := d.manager.resetPrefixCache.2 }

/-- The states that calls lead to. -/
inductive Reachable (cfg : KVCacheConfig) : Driven H → Prop
  | init {m : KVCacheManager H} (h : new cfg = .ok m) : Reachable cfg ⟨m, ∅⟩
  | step {d d' : Driven H} {op : DriverOp H} (h : Reachable cfg d) (hlegal : d.Legal op)
    (hstep : d.step op = .ok d') : Reachable cfg d'

end Step

/-! ### The invariant -/

/-- What holds of every reachable state. -/
structure Inv (cfg : KVCacheConfig) (d : Driven H) : Prop where
  configured : Configured cfg d.manager
  numGpuBlocks : d.manager.pool.numGpuBlocks = cfg.numBlocks
  inv : ∃ l, KInv d.manager.pool d.manager.managers l
  idle : ∀ r, d.slotted.get? r = none → d.manager.Idle r
  slotted : ∀ r n, d.slotted.get? r = some n → d.manager.Slotted r n

variable {cfg : KVCacheConfig} {d : Driven H} {m m' : KVCacheManager H} {r : String}

theorem kInv_new {p : BlockPool H} {l : List ℕ} (hinv : p.Inv [] l) (specs : List KVCacheSpec) :
    KInv p (specs.mapIdx fun i spec => ⟨spec, i, ∅, ∅⟩) l := by
  have hnone : ∀ g ∈ specs.mapIdx fun i spec => (⟨spec, i, ∅, ∅⟩ : SingleTypeKVCacheManager),
      g.held = [] ∧ ∀ r, g.blocksOf r = [] := by
    intro g hg
    obtain ⟨i, hi, rfl⟩ := mem_mapIdx.mp hg
    exact ⟨rfl, fun r => rfl⟩
  have hunc : ∀ g ∈ specs.mapIdx fun i spec => (⟨spec, i, ∅, ∅⟩ : SingleTypeKVCacheManager),
      ∀ r, g.uncachedOf r = [] := by
    intro g hg r
    rw [SingleTypeKVCacheManager.uncachedOf, (hnone g hg).2, drop_nil]
  refine ⟨?_, ?_, fun g hg r => ?_, fun g hg r b hb => ?_, fun g hg r g' _ r' b hb => ?_⟩
  · have hheld : heldAll (specs.mapIdx fun i spec => ⟨spec, i, ∅, ∅⟩) = [] :=
      flatMap_eq_nil_iff.mpr fun g hg => (hnone g hg).1
    rwa [hheld]
  · have hids : (specs.mapIdx fun i spec => (⟨spec, i, ∅, ∅⟩ : SingleTypeKVCacheManager)).map
        (·.kvCacheGroupId) = List.range specs.length := by
      refine ext_getElem (by simp) fun i _ _ => by simp
    rw [hids]
    exact nodup_range
  · rw [(hnone g hg).2]
    exact nodup_nil
  · rw [hunc g hg] at hb
    cases hb
  · rw [hunc g hg] at hb
    cases hb

theorem inv_new (hnew : new cfg = .ok m) : Inv cfg (⟨m, ∅⟩ : Driven H) := by
  have hn : 0 < cfg.numBlocks := by
    rcases Nat.eq_zero_or_pos cfg.numBlocks with hzero | hpos
    · unfold new BlockPool.new at hnew
      rw [hzero] at hnew
      cases hnew
    · exact hpos
  obtain ⟨p, hp, ⟨l, hinv⟩, hblocks, hcaching, hhash⟩ :
      Returns (BlockPool.new cfg.numBlocks cfg.enableCaching cfg.hashBlockSize) _ :=
    BlockPool.new_returns (H := H) hn
  unfold new at hnew
  rw [hp] at hnew
  change (if configOk cfg = true then pure _ else throw VllmErr.assertionError)
    = Except.ok m at hnew
  split_ifs at hnew with hok
  cases hnew
  refine ⟨⟨hok, rfl, rfl, hcaching, hhash, ?_⟩, hblocks, ⟨l, kInv_new hinv _⟩, fun r _ g hg => ?_,
    fun r n hget => by cases hget⟩
  · exact ext_getElem (by simp) fun i _ _ => by simp
  · obtain ⟨i, hi, rfl⟩ := mem_mapIdx.mp hg
    exact ⟨rfl, rfl⟩

/-- A call that changes what one request has. -/
theorem Inv.step (h : Inv cfg d) (hkeeps : Keeps d.manager m')
    (hedits : List.Forall₂ (Edits r) d.manager.managers m'.managers)
    (hinv : ∃ l, KInv m'.pool m'.managers l) {slotted : Dict String ℕ}
    (hother : ∀ r', r' ≠ r → slotted.get? r' = d.slotted.get? r')
    (hidle : slotted.get? r = none → m'.Idle r)
    (hslotted : ∀ n, slotted.get? r = some n → m'.Slotted r n) : Inv cfg ⟨m', slotted⟩ := by
  refine ⟨h.configured.step hkeeps hedits, hkeeps.pool.numGpuBlocks.trans h.numGpuBlocks, hinv,
    fun r' hr' => ?_, fun r' n hr' => ?_⟩
  all_goals by_cases hr : r' = r
  · exact hr ▸ hidle (hr ▸ hr')
  · intro g' hg'
    obtain ⟨g, hg, hedit⟩ := exists_of_mem_right hedits g' hg'
    rw [hedit.blocksOf r' hr, hedit.numCachedBlock r' hr]
    exact h.idle r' (hother r' hr ▸ hr') g hg
  · exact hr ▸ hslotted n (hr ▸ hr')
  · intro g' hg'
    obtain ⟨g, hg, hedit⟩ := exists_of_mem_right hedits g' hg'
    rw [hedit.blocksOf r' hr, hedit.spec]
    exact h.slotted r' n (hother r' hr ▸ hr') g hg

theorem Slotted.of_length_le {n : ℕ} (h : m.Slotted r n)
    (hedits : List.Forall₂ (Edits r) m.managers m'.managers)
    (hlen : List.Forall₂ (fun g g' => (g.blocksOf r).length ≤ (g'.blocksOf r).length)
      m.managers m'.managers) : m'.Slotted r n := by
  intro g' hg'
  obtain ⟨g, hg, hedit, hle⟩ := exists_of_mem_right (forall₂_and hedits hlen) g' hg'
  rw [hedit.spec]
  exact (h g hg).trans (Nat.mul_le_mul_right _ hle)

/-- More tokens of a request get slots. -/
theorem Inv.grow (h : Inv cfg d) (hkeeps : Keeps d.manager m')
    (hedits : List.Forall₂ (Edits r) d.manager.managers m'.managers)
    (hinv : ∃ l, KInv m'.pool m'.managers l)
    (hlen : List.Forall₂ (fun g g' => (g.blocksOf r).length ≤ (g'.blocksOf r).length)
      d.manager.managers m'.managers)
    {numTokens : ℕ} (hslots : m'.Slotted r numTokens) : Inv cfg (d.grow m' r numTokens) := by
  refine h.step hkeeps hedits hinv (fun r' hr => Dict.get?_set_of_ne _ hr _) (fun hnone => ?_)
    fun n hn => ?_
  · rw [Dict.get?_set_self] at hnone
    cases hnone
  · rw [Dict.get?_set_self, Option.some.injEq] at hn
    subst hn
    cases hget : d.slotted.get? r with
    | none =>
      exact hslots
    | some k =>
      have hold := Slotted.of_length_le (h.slotted r k hget) hedits hlen
      intro g hg
      exact Nat.max_le.mpr ⟨hold g hg, hslots g hg⟩

theorem Inv.trims (h : Inv cfg d) {total : ℕ} {l : List ℕ}
    (ht : Trims r total l d.manager m') : Inv cfg { d with manager := m' } := by
  obtain ⟨freed, -, hinv⟩ := ht.inv
  exact h.step ht.keeps ht.edits ⟨_, hinv⟩ (fun _ _ => rfl) (fun hnone => ht.idle (h.idle r hnone))
    fun n hn => ht.slotted (h.slotted r n hn)

theorem Inv.free (h : Inv cfg d) (r : String) :
    Returns (d.manager.free r) fun m => Inv cfg ⟨m, d.slotted.erase r⟩ := by
  obtain ⟨l, hinv⟩ := h.inv
  refine (free_returns hinv r).mono ?_
  rintro m' ⟨⟨freed, hinv'⟩, -, hkeeps, hfreed⟩
  refine h.step hkeeps (hfreed.imp fun _ _ h => h.edits) ⟨_, hinv'⟩
    (fun r' hr => Dict.get?_erase_of_ne _ hr) (fun _ g' hg' => ?_) fun n hn => ?_
  · obtain ⟨g, -, hg⟩ := exists_of_mem_right hfreed g' hg'
    exact ⟨hg.numCachedBlock, hg.blocksOf⟩
  · rw [Dict.get?_erase_self] at hn
    cases hn

/-- Resetting the cache takes hashes away at most. -/
theorem kInv_resetPrefixCache {p : BlockPool H} {ms : List SingleTypeKVCacheManager} {l : List ℕ}
    (h : KInv p ms l) : KInv p.resetPrefixCache.2 ms l := by
  obtain ⟨hpool, hsame, hhash⟩ := h.pool.resetPrefixCache
  have hnone : ∀ b, (p.blocks b).blockHash = none →
      (p.resetPrefixCache.2.blocks b).blockHash = none := by
    intro b hb
    rcases hhash with ⟨-, heq⟩ | ⟨-, hall⟩
    · rw [heq, hb]
    · exact hall b
  exact ⟨hpool, { h.groups with
    nodup := hsame.nullBlock.symm ▸ h.groups.nodup
    plain := fun g hg r b hb hbn => hnone b (h.groups.plain g hg r b hb (hsame.nullBlock ▸ hbn))
    once := hsame.nullBlock.symm ▸ h.groups.once }⟩

theorem Inv.resetPrefixCache (h : Inv cfg d) :
    Inv cfg { d with manager := d.manager.resetPrefixCache.2 } := by
  obtain ⟨l, hinv⟩ := h.inv
  obtain ⟨-, hsame, -⟩ := hinv.pool.resetPrefixCache
  refine ⟨?_, hsame.numGpuBlocks.trans h.numGpuBlocks, ⟨l, kInv_resetPrefixCache hinv⟩, h.idle,
    h.slotted⟩
  exact { h.configured with
    enableCaching := hsame.enableCaching.trans h.configured.enableCaching
    hashBlockSize := hsame.hashBlockSize.trans h.configured.hashBlockSize }

theorem numTokensNeedSlot_eq {request : KvRequest H} {a : SlotArgs}
    (h : Keeps m m') :
    m'.numTokensNeedSlot request a = m.numTokensNeedSlot request a := by
  rw [numTokensNeedSlot, numTokensNeedSlot,
    totalComputedTokens, totalComputedTokens, h.maxModelLen]

section Run

variable [DecidableEq H] {request : KvRequest H} {a : SlotArgs}

theorem allocate_returns {Q : Driven H → Prop}
    (h : Returns (d.manager.allocateSlots request a) fun x =>
      (x.1 = none → Q { d with manager := x.2 }) ∧
      (x.1.isSome = true → Q (d.grow x.2 request.requestId (x.2.numTokensNeedSlot request a)))) :
    Returns (d.allocate request a) Q := by
  unfold allocate
  rw [returns_bind]
  refine h.mono ?_
  rintro ⟨newBlocks, m⟩ ⟨hnone, hsome⟩
  cases newBlocks with
  | none => exact returns_pure.mpr (hnone rfl)
  | some new => exact returns_pure.mpr (hsome rfl)

section

variable (h : Inv cfg d)
include h

theorem Inv.start (hfree : d.slotted.get? request.requestId = none)
    (ha : MayAdmit d.manager request a) :
    Returns (d.allocate request a) (Inv cfg) := by
  obtain ⟨l, hinv⟩ := h.inv
  have hidle := h.idle _ hfree
  obtain ⟨m₀, est, ht, -, -, -, -, hshort, henough⟩ := allocateSlots_of_admissible
    (ha.admissible h.configured hidle) h.configured ha.pos hinv
  apply allocate_returns
  rcases Nat.lt_or_ge l.length est with hlt | hge
  · rw [hshort hlt]
    exact returns_ok.mpr ⟨fun _ => h.trims ht, fun hsome => by cases hsome⟩
  · refine (henough hge).mono ?_
    rintro ⟨newBlocks, m'⟩ ⟨hsome, ⟨m₁, m₂, htake, hfills⟩, -⟩
    obtain ⟨new, rfl⟩ := Option.isSome_iff_exists.mp hsome
    refine ⟨fun hnone => (nomatch hnone), fun _ => ?_⟩
    have hkeeps := (ht.keeps.trans htake.keeps).trans hfills.keepsAll
    have hedits : List.Forall₂ (Edits request.requestId) d.manager.managers m'.managers :=
      forall₂_comp (fun _ _ _ h h' => h.trans h') ht.edits
        (forall₂_comp (fun _ _ _ h h' => h.edits.trans h') htake.tookOver hfills.edits)
    refine h.grow hkeeps hedits ⟨_, hfills.inv⟩ ?_ ?_
    · refine ((forall₂_and_left _ _).mpr ⟨hidle, hedits⟩).imp fun g g' hg => ?_
      rw [hg.1.2]
      exact Nat.zero_le _
    · rw [numTokensNeedSlot_eq hfills.keepsAll]
      exact hfills.slotted

theorem Inv.extend
    (hslots : ∃ n, d.slotted.get? request.requestId = some n ∧ request.numComputedTokens ≤ n)
    (ha : MayExtend d.manager request a) :
    Returns (d.allocate request a) (Inv cfg) := by
  obtain ⟨l, hinv⟩ := h.inv
  obtain ⟨n, hget, hn⟩ := hslots
  obtain ⟨m₀, est, l₀, ht, -, -, -, hshort, henough⟩ := allocateSlots_of_mayExtend ha
    h.configured (fun g hg => hn.trans (h.slotted _ n hget g hg)) hinv
  apply allocate_returns
  rcases Nat.lt_or_ge l₀.length est with hlt | hge
  · rw [hshort hlt]
    exact returns_ok.mpr ⟨fun _ => h.trims ht, fun hsome => by cases hsome⟩
  · refine (henough hge).mono ?_
    rintro ⟨newBlocks, m'⟩ ⟨hsome, ⟨m₂, hfills⟩, -⟩
    obtain ⟨new, rfl⟩ := Option.isSome_iff_exists.mp hsome
    refine ⟨fun hnone => (nomatch hnone), fun _ => ?_⟩
    refine h.grow (ht.keeps.trans hfills.keepsAll)
      (forall₂_comp (fun _ _ _ h h' => h.trans h') ht.edits hfills.edits) ⟨_, hfills.inv⟩ ?_ ?_
    · refine forall₂_comp (fun g g₀ g' hskip hlen => ?_) ht.skips hfills.length
      rw [hlen, hskip.length]
      exact Nat.le_add_right ..
    · rw [numTokensNeedSlot_eq hfills.keepsAll]
      exact hfills.slotted

theorem Inv.cacheBlocks_relists {numTokens : ℕ}
    (hsized : Sized d.manager request) (hle : numTokens ≤ request.numTokens)
    (hslots : d.manager.Slotted request.requestId numTokens) :
    Returns (d.manager.cacheBlocks request numTokens) fun m =>
      (∃ l, KInv m.pool m.managers l) ∧ Keeps d.manager m ∧
        List.Forall₂ (Relists request.requestId) d.manager.managers m.managers := by
  obtain ⟨l, hinv⟩ := h.inv
  unfold cacheBlocks
  split_ifs with hcaching
  · have hready : ∀ g ∈ d.manager.managers,
        Storable d.manager.pool request numTokens g := by
      intro g hg
      have hdvd := (h.configured.sizes hcaching).1 _ (h.configured.mem_specs hg)
      refine ⟨hdvd, ?_, div_le_regroup hdvd (hsized.hashes hcaching) hle⟩
      apply Nat.div_le_of_le_mul
      rw [Nat.mul_comm]
      exact hslots g hg
    refine (cacheAll_returns hinv hcaching h.configured.hashBlockSize_pos
      hready).mono ?_
    rintro m' ⟨hinv', -, hkeeps, hrel⟩
    exact ⟨⟨_, hinv'⟩, hkeeps, hrel⟩
  · exact returns_ok.mpr ⟨⟨l, hinv⟩, Keeps.refl _,
      forall₂_same.mpr fun g _ => Relists.refl _ g⟩

theorem Inv.cacheBlocks {numTokens : ℕ}
    (hsized : Sized d.manager request) (hle : numTokens ≤ request.numTokens)
    (hslots : d.manager.Slotted request.requestId numTokens) :
    Returns (d.manager.cacheBlocks request numTokens) fun m =>
      Inv cfg (d.grow m request.requestId numTokens) := by
  refine (h.cacheBlocks_relists hsized hle hslots).mono ?_
  rintro m' ⟨hinv', hkeeps, hrel⟩
  have hedits := hrel.imp fun _ _ h => h.edits
  have hlen := hrel.imp fun g g' h => (congrArg List.length h.blocksOf).symm.le
  exact h.grow hkeeps hedits hinv' hlen (Slotted.of_length_le hslots hedits hlen)

/-- **One call** keeps the invariant, and all but a lookup raise nothing. -/
theorem step_returns {op : DriverOp H} (hlegal : d.Legal op)
    (hop : ∀ request, op = .getComputedBlocks request →
      ∃ x, d.manager.getComputedBlocks request = .ok x) : Returns (d.step op) (Inv cfg) := by
  cases op with
  | getComputedBlocks request =>
    obtain ⟨x, hx⟩ := hop request rfl
    rw [step, returns_bind]
    exact ⟨x, hx, returns_pure.mpr h⟩
  | start request a => exact h.start hlegal.1 hlegal.2
  | extend request a => exact h.extend hlegal.1 hlegal.2
  | cacheBlocks request numTokens =>
    rw [step, returns_bind]
    exact (h.cacheBlocks hlegal.2.1 hlegal.2.2.1 hlegal.2.2.2).mono fun _ hm => returns_pure.mpr hm
  | free r =>
    rw [step, returns_bind]
    exact (h.free r).mono fun _ hm => returns_pure.mpr hm
  | resetPrefixCache => exact returns_ok.mpr h.resetPrefixCache

/-- A lookup that raises leads to no state. -/
theorem step_ensures {op : DriverOp H} (hlegal : d.Legal op) : Ensures (d.step op) (Inv cfg) := by
  intro d' hstep
  refine (step_returns h hlegal ?_).of_eq hstep
  rintro request rfl
  rw [step] at hstep
  cases hx : d.manager.getComputedBlocks request with
  | ok x => exact ⟨x, rfl⟩
  | error e =>
    rw [hx] at hstep
    cases hstep

end

/-- **Every reachable state** satisfies the invariant. -/
theorem Reachable.inv (h : Reachable cfg d) : Inv cfg d := by
  induction h with
  | init hnew => exact inv_new hnew
  | step _ hlegal hstep ih => exact step_ensures ih hlegal _ hstep

end Run

end Driven

/-! ### Consistency -/

/-- The blocks, the queue, the lists of the requests and the hashes agree. -/
structure KVCacheManager.Consistent (m : KVCacheManager H) : Prop where
  /-- A block has as many references as places in the lists. -/
  refCnt : ∀ b, b ≠ m.pool.nullBlock → (m.pool.blocks b).refCnt = (heldAll m.managers).count b
  /-- The queue contains the blocks without references, apart from the null block. -/
  mem_queue : ∀ b, b ∈ m.pool.freeBlockQueue.getAllFreeBlocks ↔
    b < m.pool.numGpuBlocks ∧ b ≠ m.pool.nullBlock ∧ (m.pool.blocks b).refCnt = 0
  nodup_queue : m.pool.freeBlockQueue.getAllFreeBlocks.Nodup
  /-- The counter is the length of the queue. -/
  numFreeBlocks : m.pool.getNumFreeBlocks = m.pool.freeBlockQueue.getAllFreeBlocks.length
  /-- A block has a hash exactly when it is stored under it. -/
  blockHash : ∀ b k, (m.pool.blocks b).blockHash = some k ↔ b ∈ m.pool.cachedBlockHashToBlock k
  nodup_cached : ∀ k, (m.pool.cachedBlockHashToBlock k).Nodup
  null_queue : m.pool.nullBlock ∉ m.pool.freeBlockQueue.getAllFreeBlocks
  null_cached : ∀ k, m.pool.nullBlock ∉ m.pool.cachedBlockHashToBlock k

theorem KInv.consistent {m : KVCacheManager H} {l : List ℕ} (h : KInv m.pool m.managers l) :
    m.Consistent := by
  have hqueue := h.pool.ref.queue.getAllFreeBlocks_eq
  refine ⟨h.pool.ref.refCnt, ?_, ?_, ?_, h.pool.hash.hash_iff, h.pool.hash.nodup, ?_, fun k hk => ?_⟩
  · rw [hqueue]
    exact h.pool.ref.mem_iff
  · rw [hqueue]
    exact h.pool.ref.queue.nodup
  · rw [hqueue]
    exact h.pool.ref.queue.num
  · rw [hqueue]
    exact fun hmem => ((h.pool.ref.mem_iff _).mp hmem).2.1 rfl
  · have hhash := (h.pool.hash.hash_iff _ _).mpr hk
    rw [h.pool.hash.null] at hhash
    cases hhash

/-- The blocks that some request holds, apart from the null block. -/
def KVCacheManager.inUse (m : KVCacheManager H) : Finset ℕ :=
  (heldAll m.managers).toFinset.erase m.pool.nullBlock

/-- A block is the null block, free or in use. -/
theorem KInv.card_inUse {m : KVCacheManager H} {l : List ℕ} (h : KInv m.pool m.managers l) :
    l.length + m.inUse.card + 1 = m.pool.numGpuBlocks := by
  have href := h.pool.ref
  have hnull := href.null_lt
  have hfree : l.toFinset = (Finset.range m.pool.numGpuBlocks).erase m.pool.nullBlock \ m.inUse := by
    ext b
    simp only [inUse, mem_toFinset, href.mem_iff, Finset.mem_sdiff, Finset.mem_erase, Finset.mem_range]
    constructor
    · rintro ⟨hlt, hne, hzero⟩
      rw [href.refCnt b hne, Nat.cast_eq_zero, count_eq_zero] at hzero
      exact ⟨⟨hne, hlt⟩, fun hmem => hzero hmem.2⟩
    · rintro ⟨⟨hne, hlt⟩, hnot⟩
      refine ⟨hlt, hne, ?_⟩
      rw [href.refCnt b hne, Nat.cast_eq_zero, count_eq_zero]
      exact fun hmem => hnot ⟨hne, hmem⟩
  have hsub : m.inUse ⊆ (Finset.range m.pool.numGpuBlocks).erase m.pool.nullBlock :=
    Finset.erase_subset_erase _ fun b hb => Finset.mem_range.mpr (href.lt b (mem_toFinset.mp hb))
  have hcard := Finset.card_sdiff_add_card_eq_card hsub
  rw [← hfree, toFinset_card_of_nodup href.queue.nodup,
    Finset.card_erase_of_mem (Finset.mem_range.mpr hnull), Finset.card_range] at hcard
  omega

namespace Driven

/-- **The block pool under the scheduler.** If the lookup for a drafter is implemented for the
configuration, every reachable state is consistent, and every call of the scheduler succeeds. -/
theorem reachable_consistent [DecidableEq H] {cfg : KVCacheConfig}
    (heagle : EagleFits cfg) {d : Driven H} (h : Reachable cfg d) :
    d.manager.Consistent ∧ ∀ op, d.Legal op → ∃ d', d.step op = .ok d' := by
  obtain ⟨l, hinv⟩ := h.inv.inv
  refine ⟨hinv.consistent, fun op hlegal => ?_⟩
  obtain ⟨d', hstep, -⟩ := step_returns h.inv hlegal (by
    rintro request rfl
    exact getComputedBlocks_ok h.inv.configured hlegal heagle)
  exact ⟨d', hstep⟩

/-- A model with full attention in one group and a sliding window in another, with blocks of
different sizes. -/
def twoGroups (useEagle : Bool) : KVCacheConfig where
  numBlocks := 12
  kvCacheGroups := [⟨2, .full, 0, Nat.two_pos, AttentionKind.full_pos⟩,
    ⟨1, .slidingWindow 2, 0, Nat.one_pos, by simp⟩]
  maxModelLen := 16
  hashBlockSize := 1
  enableCaching := true
  useEagle := useEagle
  hashBlockSize_pos := Nat.one_pos

/-- A request with the given hashes. -/
def tokens (r : String) (hashes : List ℕ) (h : hashes.Nodup) : KvRequest ℕ :=
  ⟨r, hashes.length, 0, hashes, false, h⟩

/-- Slots for all tokens of a request without hits. -/
def slotsFor (request : KvRequest ℕ) : DriverOp ℕ :=
  .start request ⟨request.numTokens, 0, [[], []], 0, 0, false⟩

/-- A request of six tokens. -/
def sixTokens (r : String) : KvRequest ℕ := tokens r [0, 1, 2, 3, 4, 5] (by decide)

/-- A first request has slots, and its blocks are stored. -/
def firstStored (useEagle : Bool) : Driven ℕ :=
  result (step ⟨result (new (twoGroups useEagle)) (by cases useEagle <;> decide +kernel), ∅⟩
    (slotsFor (sixTokens "a"))) (by cases useEagle <;> decide +kernel)

theorem reachable_firstStored (useEagle : Bool) :
    Reachable (twoGroups useEagle) (firstStored useEagle) := by
  refine .step (.init (eq_ok_result _ _)) ?_ (eq_ok_result _ _)
  cases useEagle <;> exact ⟨rfl, ⟨by decide +kernel, fun _ => by decide +kernel⟩, rfl,
    by decide +kernel, by decide, by decide⟩

/-- The first request is freed. -/
def firstFreed : Driven ℕ := result ((firstStored false).step (.free "a")) (by decide +kernel)

/-- A second request hits the blocks of its first four tokens. -/
def secondSlots : DriverOp ℕ := .start (sixTokens "b") ⟨2, 4, [[1, 2], [0, 0, 0, 7]], 0, 0, false⟩

/-- It has them, and slots for the other two. -/
def secondStored : Driven ℕ := result (firstFreed.step secondSlots) (by decide +kernel)

theorem reachable_secondStored : Reachable (twoGroups false) secondStored := by
  have hfree : (firstStored false).Legal (.free "a") := trivial
  have hslots : firstFreed.Legal secondSlots :=
    ⟨by decide +kernel, ⟨by decide +kernel, fun _ => by decide +kernel⟩, rfl, by decide +kernel,
      by decide, by decide⟩
  exact .step (.step (reachable_firstStored false) hfree (eq_ok_result _ _)) hslots
    (eq_ok_result _ _)

/-- Without a drafter the theorem applies. -/
theorem reachable_consistent_twoGroups : secondStored.manager.Consistent ∧
    ∃ d, secondStored.step (.free "b") = .ok d := by
  obtain ⟨hcons, hcalls⟩ :=
    reachable_consistent (fun _ h => by cases h) reachable_secondStored
  exact ⟨hcons, hcalls _ trivial⟩

/-- **No block is lost.** In every reachable state the free blocks, those in use and the null block
are all there are. So the cache can be reset exactly if no request holds a block, in particular once
all requests have been freed. -/
theorem reachable_conserves [DecidableEq H] {cfg : KVCacheConfig} {d : Driven H}
    (h : Reachable cfg d) :
    d.manager.pool.getNumFreeBlocks + d.manager.inUse.card + 1 = cfg.numBlocks ∧
    (d.manager.resetPrefixCache.1 = true ↔ d.manager.inUse = ∅) ∧
    ((∀ r, d.slotted.get? r = none) → d.manager.inUse = ∅) := by
  obtain ⟨l, hinv⟩ := h.inv.inv
  have hnum : d.manager.pool.getNumFreeBlocks = l.length := hinv.pool.ref.queue.num
  have hcard := hinv.card_inUse
  refine ⟨?_, ?_, fun hnone => ?_⟩
  · rw [hnum, ← h.inv.numGpuBlocks, ← hcard]
    push_cast
    ring
  · rw [KVCacheManager.resetPrefixCache, BlockPool.resetPrefixCache, hnum, ← Finset.card_eq_zero]
    split <;> rename_i hused
    · exact ⟨nofun, fun hzero => absurd (by omega) hused⟩
    · exact ⟨fun _ => by omega, fun _ => rfl⟩
  · have hheld : heldAll d.manager.managers = [] := by
      refine flatMap_eq_nil_iff.mpr fun g hg => flatten_eq_nil_iff.mpr fun bs hbs => ?_
      obtain ⟨r, hr⟩ := Dict.mem_values_iff.mp hbs
      have hidle := (h.inv.idle r (hnone r) g hg).2
      rwa [SingleTypeKVCacheManager.blocksOf, hr] at hidle
    rw [inUse, hheld]
    rfl

/-- Of twelve blocks five are free, so the second request holds six. -/
theorem reachable_conserves_twoGroups :
    secondStored.manager.pool.getNumFreeBlocks = 5 ∧ secondStored.manager.inUse.card = 6 := by
  have hall := (reachable_conserves reachable_secondStored).1
  have hfree : secondStored.manager.pool.getNumFreeBlocks = 5 := by decide +kernel
  have hnum : (twoGroups false).numBlocks = 12 := rfl
  omega

/-- With a drafter the lookup raises as soon as it finds blocks of the sliding window: its blocks are
not aligned with those of full attention. -/
theorem lookup_raises_twoGroups : ∃ (d : Driven ℕ) (op : DriverOp ℕ),
    Reachable (twoGroups true) d ∧ d.Legal op ∧ d.step op = .error .assertionError := by
  have hraises : (firstStored true).manager.getComputedBlocks (sixTokens "b")
    = .error .assertionError := by decide +kernel
  refine ⟨firstStored true, .getComputedBlocks (sixTokens "b"), reachable_firstStored true,
    ⟨by decide +kernel, fun _ => by decide +kernel⟩, ?_⟩
  rw [step, hraises]
  rfl

end Driven

end CacheFlow
