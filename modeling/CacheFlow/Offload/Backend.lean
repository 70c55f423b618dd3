import CacheFlow.Lib.Exec
import CacheFlow.Lib.Recency

/-!
# The CPU backend of KV offloading

`kv_offload/backend.py` and `kv_offload/backends/cpu.py`: the blocks of host memory that KV data is
offloaded to. A block that was never used is taken from a counter, one that was given back from a
list. The status of a block is one counter: `-1` while the block is being written, afterwards the
number of transfers that read it. The counter is a field of type `c_int32`, so an assignment to it
wraps around.
-/

namespace CacheFlow.Offload

open List

/-- The exceptions of the offloading managers. -/
inductive OffloadErr where
  | assertionError : OffloadErr
  | keyError : OffloadErr
  /-- A `pop` from an empty list. -/
  | indexError : OffloadErr
  deriving DecidableEq, Repr

/-- The value that an assignment to a `c_int32` field leaves there. -/
def cInt32 (x : ℤ) : ℤ := x.bmod (2 ^ 32)

theorem cInt32_of_lt {x : ℤ} (h₀ : 0 ≤ x) (h : x < 2 ^ 31) : cInt32 x = x := by
  unfold cInt32
  rw [Int.bmod_eq_of_le] <;> omega

theorem cInt32_max : cInt32 (2 ^ 31) = -2 ^ 31 := by decide

/-- `CPUBlockStatus`. The id counts blocks of a tensor, so it stays in the range of its `c_int64`
field. -/
structure BlockStatus where
  refCnt : ℤ
  blockId : ℕ
  deriving DecidableEq, Repr

/-- `CPUBlockStatus(block_id)`: not ready. -/
def BlockStatus.new (blockId : ℕ) : BlockStatus := ⟨-1, blockId⟩

/-- `is_ready`. -/
def BlockStatus.isReady (b : BlockStatus) : Prop := 0 ≤ b.refCnt

instance (b : BlockStatus) : Decidable b.isReady := inferInstanceAs (Decidable (0 ≤ b.refCnt))

theorem BlockStatus.not_isReady_iff {b : BlockStatus} : ¬ b.isReady ↔ b.refCnt < 0 := not_le

/-- `OffloadingEvent`; the block size and the medium are those of the backend. -/
structure OffloadingEvent (K : Type) where
  blockHashes : List K
  removed : Bool
  deriving DecidableEq, Repr

/-- `self.events.append(..)`, where there are hashes and the manager keeps events. -/
def appendEvent {K : Type} (events : Option (List (OffloadingEvent K))) (blockHashes : List K)
    (removed : Bool) : Option (List (OffloadingEvent K)) :=
  if blockHashes = [] then events else events.map (· ++ [⟨blockHashes, removed⟩])

/-- `PrepareStoreOutput`. -/
structure PrepareStoreOutput (K : Type) where
  blockHashesToStore : List K
  /-- `store_spec`, the ids of the blocks. -/
  storeSpec : List ℕ
  blockHashesEvicted : List K
  deriving DecidableEq, Repr

/-- `CPUBackend`. -/
structure CpuBackend where
  numBlocks : ℕ
  /-- `num_allocated_blocks`: the ids below have been used. -/
  numAllocatedBlocks : ℕ
  /-- `allocated_blocks_free_list`: of these, the ids that were given back. -/
  allocatedBlocksFreeList : List ℕ
  deriving DecidableEq, Repr

namespace CpuBackend

/-- The constructor. -/
def new (numBlocks : ℕ) : CpuBackend := ⟨numBlocks, 0, []⟩

/-- `get_num_free_blocks`. -/
def getNumFreeBlocks (b : CpuBackend) : ℤ :=
  b.allocatedBlocksFreeList.length + b.numBlocks - b.numAllocatedBlocks

/-- The loop of `allocate_blocks` over blocks that were never used. -/
def allocateFresh : ℕ → CpuBackend → List BlockStatus × CpuBackend
  | 0, b => ([], b)
  | n + 1, b =>
    let (blocks, b') := allocateFresh n { b with numAllocatedBlocks := b.numAllocatedBlocks + 1 }
    (.new b.numAllocatedBlocks :: blocks, b')

/-- The loop of `allocate_blocks` over blocks that were given back, the last one first. -/
def allocateReused : ℕ → CpuBackend → Except OffloadErr (List BlockStatus × CpuBackend)
  | 0, b => .ok ([], b)
  | n + 1, b =>
    match b.allocatedBlocksFreeList.getLast? with
    | none => .error .indexError
    | some blockId => do
      let (blocks, b') ← allocateReused n
        { b with allocatedBlocksFreeList := b.allocatedBlocksFreeList.dropLast }
      .ok (.new blockId :: blocks, b')

/-- `allocate_blocks`; of the hashes only their number counts. -/
def allocateBlocks (numHashes : ℕ) (b : CpuBackend) :
    Except OffloadErr (List BlockStatus × CpuBackend) :=
  let numFreshBlocks : ℤ := min numHashes (b.numBlocks - b.numAllocatedBlocks)
  let numReusedBlocks : ℤ := numHashes - numFreshBlocks
  if b.allocatedBlocksFreeList.length < numReusedBlocks then .error .assertionError
  else do
    let (fresh, b') := allocateFresh numFreshBlocks.toNat b
    let (reused, b'') ← allocateReused numReusedBlocks.toNat b'
    .ok (fresh ++ reused, b'')

/-- `free`. -/
def free (b : CpuBackend) (block : BlockStatus) : CpuBackend :=
  { b with allocatedBlocksFreeList := b.allocatedBlocksFreeList ++ [block.blockId] }

/-! ### The account of ids -/

/-- The free ids: those given back and those never used. -/
def pool (b : CpuBackend) : List ℕ :=
  b.allocatedBlocksFreeList ++
    List.range' b.numAllocatedBlocks (b.numBlocks - b.numAllocatedBlocks)

/-- The ids in use and the free ids are together all ids, each once. -/
structure Owns (b : CpuBackend) (ids : List ℕ) : Prop where
  allocated : b.numAllocatedBlocks ≤ b.numBlocks
  perm : (ids ++ b.pool).Perm (List.range b.numBlocks)

theorem owns_new (numBlocks : ℕ) : (new numBlocks).Owns [] := by
  refine ⟨Nat.zero_le _, ?_⟩
  rw [pool, new, nil_append, nil_append, range_eq_range', Nat.sub_zero]

variable {b : CpuBackend} {ids : List ℕ}

theorem Owns.congr {ids' : List ℕ} (h : b.Owns ids) (hp : ids'.Perm ids) :
    b.Owns ids' := ⟨h.allocated, (hp.append_right _).trans h.perm⟩

theorem Owns.free {block : BlockStatus}
    (h : b.Owns (block.blockId :: ids)) : (b.free block).Owns ids := by
  refine ⟨h.allocated, List.Perm.trans ?_ h.perm⟩
  simp only [CpuBackend.free, pool, append_assoc, cons_append, nil_append]
  rw [← append_assoc, ← append_assoc]
  exact perm_middle

/-! ### Allocation -/

theorem allocateFresh_spec (n : ℕ) (b : CpuBackend) (hn : n ≤ b.numBlocks - b.numAllocatedBlocks) :
    ∃ blocks b', allocateFresh n b = (blocks, b') ∧
      blocks.length = n ∧ (∀ x ∈ blocks, x.refCnt = -1) ∧ b'.numBlocks = b.numBlocks ∧
      b'.allocatedBlocksFreeList = b.allocatedBlocksFreeList ∧
      b'.numAllocatedBlocks = b.numAllocatedBlocks + n ∧
      (blocks.map BlockStatus.blockId ++ b'.pool).Perm b.pool := by
  induction n generalizing b with
  | zero => exact ⟨[], b, rfl, rfl, by simp, rfl, rfl, rfl, by simp⟩
  | succ n ih =>
    obtain ⟨blocks, b', heq, hlen, hnew, hnum, hfree, hcount, hperm⟩ :=
      ih { b with numAllocatedBlocks := b.numAllocatedBlocks + 1 } (by simp only; omega)
    refine ⟨.new b.numAllocatedBlocks :: blocks, b', by simp only [allocateFresh, heq],
      by simp [hlen], ?_, hnum, hfree, by simp only [hcount]; omega, ?_⟩
    · intro x hx
      rcases mem_cons.mp hx with rfl | hx
      · rfl
      · exact hnew x hx
    · -- the counter's own id heads the ids that were never used
      have hsucc : b.numBlocks - b.numAllocatedBlocks
          = (b.numBlocks - (b.numAllocatedBlocks + 1)) + 1 := by omega
      have hpool : b.pool.Perm
          (b.numAllocatedBlocks ::
            ({ b with numAllocatedBlocks := b.numAllocatedBlocks + 1 } : CpuBackend).pool) := by
        rw [pool, hsucc, List.range'_succ]
        exact perm_middle
      exact (hperm.cons _).trans hpool.symm

theorem allocateReused_spec (n : ℕ) (b : CpuBackend) (hn : n ≤ b.allocatedBlocksFreeList.length) :
    ∃ blocks b', allocateReused n b = .ok (blocks, b') ∧
      blocks.length = n ∧ (∀ x ∈ blocks, x.refCnt = -1) ∧ b'.numBlocks = b.numBlocks ∧
      b'.numAllocatedBlocks = b.numAllocatedBlocks ∧
      (blocks.map BlockStatus.blockId ++ b'.pool).Perm b.pool := by
  induction n generalizing b with
  | zero => exact ⟨[], b, rfl, rfl, by simp, rfl, rfl, by simp⟩
  | succ n ih =>
    rcases eq_nil_or_concat b.allocatedBlocksFreeList with hnil | ⟨l, x, hl⟩
    · rw [hnil] at hn
      exact absurd hn (by simp)
    · rw [concat_eq_append] at hl
      have hlast : b.allocatedBlocksFreeList.getLast? = some x := by rw [hl]; simp
      have hdrop : b.allocatedBlocksFreeList.dropLast = l := by rw [hl]; simp
      obtain ⟨blocks, b', heq, hlen, hnew, hnum, hcount, hperm⟩ :=
        ih { b with allocatedBlocksFreeList := l } (by
          rw [hl, length_append, length_singleton] at hn
          simp only
          omega)
      refine ⟨.new x :: blocks, b', ?_, by simp [hlen], ?_, hnum, hcount, ?_⟩
      · simp only [allocateReused, hlast, hdrop, heq]
        rfl
      · intro y hy
        rcases mem_cons.mp hy with rfl | hy
        · rfl
        · exact hnew y hy
      · refine (hperm.cons x).trans ?_
        rw [pool, pool, hl, append_assoc]
        exact perm_middle.symm

/-- **Blocks that are free can be allocated**, and come out with ids of their own, not ready. -/
theorem Owns.allocateBlocks (h : b.Owns ids) {n : ℕ} (hn : n ≤ b.getNumFreeBlocks) :
    ∃ blocks b', b.allocateBlocks n = .ok (blocks, b') ∧ blocks.length = n ∧
      (∀ x ∈ blocks, x.refCnt = -1) ∧ b'.numBlocks = b.numBlocks ∧
      b'.Owns (blocks.map BlockStatus.blockId ++ ids) := by
  have halloc := h.allocated
  rw [getNumFreeBlocks] at hn
  -- never used blocks first, the rest from the list
  obtain ⟨k, hk⟩ : ∃ k : ℕ, min (n : ℤ) (b.numBlocks - b.numAllocatedBlocks) = k :=
    ⟨(min (n : ℤ) (b.numBlocks - b.numAllocatedBlocks)).toNat, by omega⟩
  obtain ⟨fresh, b', hfresh, hlen, hnew, hnum, hlist, hcount, hperm⟩ :=
    allocateFresh_spec k b (by omega)
  obtain ⟨reused, b'', hreused, hlen', hnew', hnum', hcount', hperm'⟩ :=
    allocateReused_spec (n - k) b' (by rw [hlist]; omega)
  have hsub : ((n : ℤ) - k).toNat = n - k := by omega
  refine ⟨fresh ++ reused, b'', ?_, ?_, ?_, hnum'.trans hnum, by omega, ?_⟩
  · simp only [CpuBackend.allocateBlocks, hk, Int.toNat_natCast, hfresh, hsub, hreused]
    rw [if_neg (by omega)]
    rfl
  · rw [length_append, hlen, hlen']
    omega
  · intro x hx
    rcases mem_append.mp hx with hx | hx
    · exact hnew x hx
    · exact hnew' x hx
  · rw [hnum', hnum]
    refine List.Perm.trans ?_ h.perm
    rw [map_append, append_assoc, append_assoc]
    calc fresh.map BlockStatus.blockId ++ (reused.map BlockStatus.blockId ++ (ids ++ b''.pool))
        _ |>.Perm (fresh.map BlockStatus.blockId ++
            (ids ++ (reused.map BlockStatus.blockId ++ b''.pool))) := by
          refine List.Perm.append_left _ ?_
          rw [← append_assoc, ← append_assoc]
          exact perm_append_comm.append_right _
        _ |>.Perm (fresh.map BlockStatus.blockId ++ (ids ++ b'.pool)) :=
          (hperm'.append_left ids).append_left _
        _ |>.Perm (ids ++ (fresh.map BlockStatus.blockId ++ b'.pool)) := by
          rw [← append_assoc, ← append_assoc]
          exact perm_append_comm.append_right _
        _ |>.Perm (ids ++ b.pool) := hperm.append_left ids

end CpuBackend

end CacheFlow.Offload
