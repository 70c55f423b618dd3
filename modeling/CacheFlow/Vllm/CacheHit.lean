import Mathlib.Algebra.GCDMonoid.Nat
import CacheFlow.Vllm.BlockPool

/-!
# Looking up cached blocks

`find_longest_cache_hit` looks a request's block hashes up in the pool. For full attention it
follows the hashes from the left as long as they hit; for a sliding window it searches from
the right for enough blocks in a row to fill the window, and stands the null block in for
what lies before them. With several groups the lengths have to agree: the hybrid coordinator
lets each kind of attention shorten the hit until none does.

A row of a lookup has one block for each group it is made for.

## Main results

* `BlockPool.findLongestCacheHit_ensures` — what one lookup returns is stored.
* `BlockPool.hybridLoop_returns` — the hybrid coordinator stops, and its groups agree in length.
-/

namespace CacheFlow

open List Option

/-- The kinds of attention that are modelled. -/
inductive AttentionKind where
  /-- `FullAttentionSpec`. -/
  | full : AttentionKind
  /-- `SlidingWindowSpec`, with its window. -/
  | slidingWindow : ℕ → AttentionKind
  deriving DecidableEq, Repr

/-- `KVCacheSpec`. Its block size is that of the manager, the world sizes of context parallelism
multiplied in. -/
structure KVCacheSpec where
  blockSize : ℕ
  /-- Its class, with the window. -/
  kind : AttentionKind
  /-- Its other fields; specs are only compared for equality in these. -/
  layout : ℕ
  blockSize_pos : 0 < blockSize
  window_pos : ∀ w, kind = .slidingWindow w → 0 < w

theorem AttentionKind.full_pos : ∀ w, AttentionKind.full = .slidingWindow w → 0 < w :=
  fun _ h => by cases h

theorem KVCacheSpec.fields_iff (a b : KVCacheSpec) :
    a.blockSize = b.blockSize ∧ a.kind = b.kind ∧ a.layout = b.layout ↔ a = b := by
  cases a
  cases b
  simp

instance : DecidableEq KVCacheSpec := fun a b => decidable_of_iff _ (KVCacheSpec.fields_iff a b)

/-- Division, rounded up. -/
def cdiv (a b : ℕ) : ℕ := (a + b - 1) / b

/-- `get_num_skipped_tokens`: the tokens before the window. -/
def KVCacheSpec.getNumSkippedTokens (spec : KVCacheSpec) (numComputedTokens : ℕ) : ℕ :=
  match spec.kind with
  | .full => 0
  | .slidingWindow w => numComputedTokens + 1 - w

/-- The longest length at most `n` whose tokens are a multiple of the alignment: the loop that
pops trailing blocks. -/
def alignedLength (blockSize alignment : ℕ) : ℕ → ℕ
  | 0 => 0
  | n + 1 =>
    if blockSize ≠ alignment ∧ (n + 1) * blockSize % alignment ≠ 0 then
      alignedLength blockSize alignment n
    else n + 1

namespace BlockPool

variable {H : Type}

/-- The rows of blocks from the left, as long as the hashes hit in every group. -/
def hitRows (p : BlockPool H) (groupIds : List ℕ) : List (List H) → List (List ℕ)
  | [] => []
  | h :: hashes =>
    match p.getCachedBlock h groupIds with
    | some (b :: row) => (b :: row) :: hitRows p groupIds hashes
    | _ => []

/-- `FullAttentionManager.find_longest_cache_hit`. -/
def findFull (p : BlockPool H) (blockSize : ℕ) (hashes : List (List H)) (maxLength : ℕ)
    (groupIds : List ℕ) (useEagle : Bool) (alignment : ℕ) : List (List ℕ) :=
  let rows := p.hitRows groupIds (hashes.take (maxLength / blockSize))
  let rows := if useEagle then rows.dropLast else rows
  rows.take (alignedLength blockSize alignment rows.length)

/-- The loop of `SlidingWindowManager.find_longest_cache_hit`, from the right: the rows, the number
of hits in a row and whether they fill the window. -/
def slidingLoop (p : BlockPool H) (blockSize : ℕ) (hashes : List (List H)) (groupIds : List ℕ)
    (alignment need : ℕ) : ℕ → ℕ → List (List ℕ) → Except VllmErr (List (List ℕ) × ℕ × Bool)
  | 0, contiguous, rows => .ok (rows, contiguous, false)
  | i + 1, contiguous, rows =>
    match hashes[i]? with
    | none => .error .indexError
    | some h =>
      match p.getCachedBlock h groupIds with
      | some (b :: row) =>
        if contiguous = 0 ∧ blockSize ≠ alignment ∧ (i + 1) * blockSize % alignment ≠ 0 then
          slidingLoop p blockSize hashes groupIds alignment need i contiguous rows
        else if need ≤ contiguous + 1 then
          .ok ((rows.set i (b :: row)).take (i + (contiguous + 1)), contiguous + 1, true)
        else
          slidingLoop p blockSize hashes groupIds alignment need i (contiguous + 1)
            (rows.set i (b :: row))
      | _ => slidingLoop p blockSize hashes groupIds alignment need i 0 rows

/-- `SlidingWindowManager.find_longest_cache_hit`. -/
def findSliding (p : BlockPool H) (window blockSize : ℕ) (hashes : List (List H)) (maxLength : ℕ)
    (groupIds : List ℕ) (useEagle : Bool) (alignment : ℕ) : Except VllmErr (List (List ℕ)) := do
  let need := cdiv (window - 1) blockSize + if useEagle then 1 else 0
  let (rows, contiguous, found) ← p.slidingLoop blockSize hashes groupIds alignment need
    (maxLength / blockSize) 0
    (List.replicate (maxLength / blockSize) (List.replicate groupIds.length p.nullBlock))
  let rows := if found then rows
    else (rows.take contiguous).take (alignedLength blockSize alignment (rows.take contiguous).length)
  if useEagle ∧ rows ≠ [] then
    if blockSize = alignment then pure rows.dropLast else throw .assertionError
  else pure rows

/-- `find_longest_cache_hit` of the manager of a spec. -/
def findLongestCacheHit (p : BlockPool H) (spec : KVCacheSpec) (hashes : List (List H))
    (maxLength : ℕ) (groupIds : List ℕ) (useEagle : Bool) (alignment : ℕ) :
    Except VllmErr (List (List ℕ)) :=
  match spec.kind with
  | .full => .ok (p.findFull spec.blockSize hashes maxLength groupIds useEagle alignment)
  | .slidingWindow w =>
    p.findSliding w spec.blockSize hashes maxLength groupIds useEagle alignment

/-- The blocks of one group in the rows. -/
def column (p : BlockPool H) (rows : List (List ℕ)) (j : ℕ) : List ℕ :=
  rows.map fun row => row.getD j p.nullBlock

end BlockPool

/-! ### The hybrid coordinator -/

/-- Hashes for all hash blocks are hashes for all blocks. -/
theorem div_le_regroup {numTokens hashBlockSize blockSize len n : ℕ}
    (hdvd : blockSize % hashBlockSize = 0) (hlen : numTokens / hashBlockSize ≤ len)
    (hn : n ≤ numTokens) : n / blockSize ≤ len / (blockSize / hashBlockSize) := by
  have hsize : hashBlockSize * (blockSize / hashBlockSize) = blockSize :=
    Nat.mul_div_cancel' (Nat.dvd_of_mod_eq_zero hdvd)
  calc n / blockSize = n / hashBlockSize / (blockSize / hashBlockSize) := by
        rw [Nat.div_div_eq_div_mul, hsize]
    _ ≤ len / (blockSize / hashBlockSize) :=
        Nat.div_le_div_right ((Nat.div_le_div_right hn).trans hlen)

/-- One round of `verify_and_split_kv_cache_groups`: a group joins those of its spec. -/
def addKvCacheGroup (groups : List (KVCacheSpec × List ℕ)) (i : ℕ) (spec : KVCacheSpec) :
    List (KVCacheSpec × List ℕ) :=
  if spec ∈ groups.map Prod.fst then
    groups.map fun g => if g.1 = spec then (g.1, g.2 ++ [i]) else g
  else groups ++ [(spec, [i])]

/-- The loop of `verify_and_split_kv_cache_groups`. -/
def splitLoop : List KVCacheSpec → ℕ → List (KVCacheSpec × List ℕ) → List (KVCacheSpec × List ℕ)
  | [], _, groups => groups
  | spec :: specs, i, groups => splitLoop specs (i + 1) (addKvCacheGroup groups i spec)

/-- `verify_and_split_kv_cache_groups`: the groups by their specs, full attention first. -/
def splitKvCacheGroups (specs : List KVCacheSpec) : List (KVCacheSpec × List ℕ) :=
  let groups := splitLoop specs 0 []
  groups.filter (fun g => g.1.kind = .full) ++ groups.filter (fun g => g.1.kind ≠ .full)

/-- `lcm_block_size`. -/
def lcmBlockSize (groups : List (KVCacheSpec × List ℕ)) : ℕ :=
  (groups.map fun g => g.1.blockSize).foldr Nat.lcm 1

namespace BlockPool

variable {H : Type}

/-- One round of the inner loop of `HybridKVCacheCoordinator.find_longest_cache_hit`: the length so
far and the blocks found for each group. -/
def hybridRound (p : BlockPool H) (blockHashes : List H) (useEagle : Bool) (alignment : ℕ)
    (s : ℕ × (ℕ → Option (List ℕ))) (group : KVCacheSpec × List ℕ) :
    Except VllmErr (ℕ × (ℕ → Option (List ℕ))) :=
  if group.1.kind = .full ∧ (s.2 (group.2.headD 0)).isSome then
    -- the blocks of the round before, cut to the length
    if group.2.all fun g => (s.2 g).isSome then
      .ok (s.1 / group.1.blockSize * group.1.blockSize, fun g =>
        if g ∈ group.2 then (s.2 g).map fun blocks => blocks.take (s.1 / group.1.blockSize)
        else s.2 g)
    else .error .assertionError
  else do
    let hashes ← hashesAt blockHashes p.hashBlockSize group.1.blockSize
    let rows ← p.findLongestCacheHit group.1 hashes s.1 group.2 useEagle alignment
    pure (rows.length * group.1.blockSize, fun g =>
      match group.2.idxOf? g with
      | some j => some (p.column rows j)
      | none => s.2 g)

/-- The outer loop of `HybridKVCacheCoordinator.find_longest_cache_hit`. -/
def hybridLoop (p : BlockPool H) (blockHashes : List H) (useEagle : Bool)
    (groups : List (KVCacheSpec × List ℕ)) (hitLength : ℕ) (found : ℕ → Option (List ℕ)) :
    Except VllmErr (ℕ × (ℕ → Option (List ℕ))) :=
  match groups.foldlM (p.hybridRound blockHashes useEagle (lcmBlockSize groups)) (hitLength, found) with
  | .error e => .error e
  | .ok (curr, found') =>
    if curr < hitLength then hybridLoop p blockHashes useEagle groups curr found'
    else .ok (hitLength, found')
termination_by hitLength

/-- `find_longest_cache_hit` of the coordinator: the blocks of every group, and their tokens. -/
def coordinatorHit (p : BlockPool H) (specs : List KVCacheSpec) (useEagle : Bool)
    (blockHashes : List H) (maxLength : ℕ) : Except VllmErr (List (List ℕ) × ℕ) :=
  match specs with
  | [spec] => do
    let rows ← p.findLongestCacheHit spec (blockHashes.map fun h => [h]) maxLength [0] useEagle
      spec.blockSize
    pure ([p.column rows 0], rows.length * spec.blockSize)
  | _ => do
    let (hitLength, found) ← p.hybridLoop blockHashes useEagle (splitKvCacheGroups specs) maxLength
      fun _ => none
    pure ((List.range specs.length).map fun g => (found g).getD [], hitLength)

end BlockPool

/-! ### Hashes at a block size -/

section Hashes

variable {H : Type} {hashes : List H} {k i j : ℕ}

@[simp] theorem length_regroup (hashes : List H) (k : ℕ) :
    (regroup hashes k).length = hashes.length / k := by
  rw [regroup, length_map, length_range]

theorem regroup_getElem? (hi : i < hashes.length / k) :
    (regroup hashes k)[i]? = some ((hashes.drop (i * k)).take k) := by
  rw [regroup, List.getElem?_map, List.getElem?_range hi]
  rfl

theorem regroup_one (hashes : List H) : regroup hashes 1 = hashes.map fun h => [h] := by
  refine ext_getElem? fun i => ?_
  rw [List.getElem?_map]
  rcases Nat.lt_or_ge i hashes.length with hi | hi
  · rw [regroup_getElem? (by rwa [Nat.div_one]), Nat.mul_one, List.getElem?_eq_getElem hi,
      drop_eq_getElem_cons hi]
    rfl
  · rw [List.getElem?_eq_none (by rw [length_regroup, Nat.div_one]; exact hi),
      List.getElem?_eq_none hi]
    rfl

/-- Distinct hashes stay distinct: they differ in their first part. -/
theorem regroup_inj (hnd : hashes.Nodup) (hk : 0 < k) {h : List H}
    (hi : (regroup hashes k)[i]? = some h) (hj : (regroup hashes k)[j]? = some h) : i = j := by
  have hlt : ∀ m, (regroup hashes k)[m]? = some h → m < hashes.length / k := by
    intro m hm
    by_contra hge
    rw [List.getElem?_eq_none (by rw [length_regroup]; omega)] at hm
    cases hm
  have hhead : ∀ m, (regroup hashes k)[m]? = some h → hashes[m * k]? = h.head? := by
    intro m hm
    rw [regroup_getElem? (hlt m hm), Option.some.injEq] at hm
    rw [← hm, List.head?_take, if_neg hk.ne', List.head?_drop]
  have hmul : i * k < hashes.length := by
    have := (Nat.lt_div_iff_mul_lt hk).mp (hlt i hi)
    omega
  have heq : i * k = j * k :=
    (List.getElem?_inj hmul hnd).mp ((hhead i hi).trans (hhead j hj).symm)
  exact Nat.eq_of_mul_eq_mul_right hk heq

theorem hashesAt_eq {hashBlockSize blockSize : ℕ} (hpos : 0 < hashBlockSize)
    (hdvd : blockSize % hashBlockSize = 0) :
    hashesAt hashes hashBlockSize blockSize = .ok (regroup hashes (blockSize / hashBlockSize)) := by
  unfold hashesAt
  by_cases heq : blockSize = hashBlockSize
  · rw [if_pos heq, heq, Nat.div_self hpos, regroup_one]
  · rw [if_neg heq, if_pos hdvd]

end Hashes

/-! ### The lookup of one kind of attention -/

namespace BlockPool

variable {H : Type} {p : BlockPool H} {hashes : List (List H)} {gids : List ℕ}
  {rows : List (List ℕ)} {i : ℕ}

/-- Every block but the null block is stored in the group, under the hash at its place. -/
def Cached (p : BlockPool H) (hashes : List (List H)) (g : ℕ) (blocks : List ℕ) : Prop :=
  ∀ (i b : ℕ), blocks[i]? = some b → b ≠ p.nullBlock →
    ∃ h, hashes[i]? = some h ∧ b ∈ p.cachedBlockHashToBlock (h, g)

/-- The same for the rows of several groups. -/
def RowsCached (p : BlockPool H) (hashes : List (List H)) (gids : List ℕ) (rows : List (List ℕ)) :
    Prop :=
  ∀ j g, gids[j]? = some g → p.Cached hashes g (p.column rows j)

theorem Cached.take {g : ℕ} {blocks : List ℕ} (h : p.Cached hashes g blocks) (n : ℕ) :
    p.Cached hashes g (blocks.take n) := by
  intro i b hb
  rw [List.getElem?_take] at hb
  split_ifs at hb
  exact h i b hb

theorem RowsCached.take (h : p.RowsCached hashes gids rows) (n : ℕ) :
    p.RowsCached hashes gids (rows.take n) := by
  intro j g hj
  have htake := (h j g hj).take n
  rwa [column, ← map_take] at htake

theorem RowsCached.dropLast (h : p.RowsCached hashes gids rows) :
    p.RowsCached hashes gids rows.dropLast := by
  rw [dropLast_eq_take]
  exact h.take _

/-- A row that is found has, for each group, a block stored under the hash. -/
theorem mem_of_getCachedBlock {h : List H} : ∀ {gids row : List ℕ},
    p.getCachedBlock h gids = some row → ∀ {j g : ℕ}, gids[j]? = some g →
      row.getD j p.nullBlock ∈ p.cachedBlockHashToBlock (h, g) := by
  intro gids
  induction gids with
  | nil => intro row _ j g hj; simp at hj
  | cons g' gids ih =>
    intro row hrow j g hj
    rw [getCachedBlock, mapM_cons] at hrow
    obtain ⟨b, hb, hrest⟩ := bind_eq_some_iff.mp hrow
    obtain ⟨bs, hbs, hcons⟩ := bind_eq_some_iff.mp hrest
    obtain rfl : b :: bs = row := Option.some.inj hcons
    cases j with
    | zero =>
      rw [List.getElem?_cons_zero, Option.some.injEq] at hj
      subst hj
      exact mem_of_mem_head? (mem_def.mpr hb)
    | succ j => exact ih hbs hj

theorem length_hitRows_le (p : BlockPool H) (gids : List ℕ) :
    ∀ hashes : List (List H), (p.hitRows gids hashes).length ≤ hashes.length := by
  intro hashes
  induction hashes with
  | nil => exact le_rfl
  | cons h hashes ih =>
    rw [hitRows]
    split
    · exact Nat.succ_le_succ ih
    · exact Nat.zero_le _

theorem rowsCached_hitRows (p : BlockPool H) (gids : List ℕ) :
    ∀ hashes : List (List H), p.RowsCached hashes gids (p.hitRows gids hashes) := by
  intro hashes
  induction hashes with
  | nil => intro j g _ i b hb; simp [hitRows, column] at hb
  | cons h hashes ih =>
    intro j g hj i b hb hne
    rw [hitRows] at hb
    split at hb
    · next c row hrow =>
      cases i with
      | zero =>
        obtain rfl : (c :: row).getD j p.nullBlock = b := by simpa [column] using hb
        exact ⟨h, rfl, mem_of_getCachedBlock hrow hj⟩
      | succ i => exact ih j g hj i b (by simpa [column] using hb) hne
    · simp [column] at hb

theorem RowsCached.of_take {n : ℕ} (h : p.RowsCached (hashes.take n) gids rows) :
    p.RowsCached hashes gids rows := by
  intro j g hj i b hb hne
  obtain ⟨h', hh, hmem⟩ := h j g hj i b hb hne
  rw [List.getElem?_take] at hh
  split_ifs at hh
  exact ⟨h', hh, hmem⟩

variable {maxLength alignment blockSize : ℕ} {useEagle : Bool}

theorem findFull_spec :
    p.RowsCached hashes gids (p.findFull blockSize hashes maxLength gids useEagle alignment) ∧
      (p.findFull blockSize hashes maxLength gids useEagle alignment).length * blockSize
        ≤ maxLength := by
  have hcached := (rowsCached_hitRows p gids (hashes.take (maxLength / blockSize))).of_take
  have hlen := length_hitRows_le p gids (hashes.take (maxLength / blockSize))
  unfold findFull
  constructor
  · refine RowsCached.take ?_ _
    split_ifs
    · exact hcached.dropLast
    · exact hcached
  · rw [length_take]
    refine (Nat.mul_le_mul_right blockSize ?_).trans (Nat.div_mul_le_self maxLength blockSize)
    refine (Nat.min_le_right _ _).trans (le_trans ?_ (hlen.trans ?_))
    · split_ifs
      · rw [length_dropLast]
        omega
      · exact le_rfl
    · rw [length_take]
      exact Nat.min_le_left _ _

theorem RowsCached.set (h : p.RowsCached hashes gids rows) {hash : List H} {row : List ℕ}
    (hi : hashes[i]? = some hash) (hrow : p.getCachedBlock hash gids = some row) :
    p.RowsCached hashes gids (rows.set i row) := by
  intro j g hj m b hb hne
  rw [column, map_set, List.getElem?_set] at hb
  split_ifs at hb with him hlt
  · subst him
    obtain rfl : row.getD j p.nullBlock = b := Option.some.inj hb
    exact ⟨hash, hi, mem_of_getCachedBlock hrow hj⟩
  · exact h j g hj m b hb hne

theorem rowsCached_replicate (n : ℕ) :
    p.RowsCached hashes gids (List.replicate n (List.replicate gids.length p.nullBlock)) := by
  intro j g hj m b hb hne
  refine absurd ?_ hne
  have hmem := mem_of_getElem? hb
  rw [column, map_replicate] at hmem
  rw [eq_of_mem_replicate hmem, getD_eq_getElem?_getD, List.getElem?_replicate]
  split_ifs <;> rfl

theorem slidingLoop_returns {need : ℕ} (i contiguous : ℕ) (rows : List (List ℕ))
    (hi : i ≤ hashes.length) (hrows : p.RowsCached hashes gids rows) :
    Returns (p.slidingLoop blockSize hashes gids alignment need i contiguous rows) fun x =>
        p.RowsCached hashes gids x.1 ∧ x.1.length ≤ rows.length := by
  induction i generalizing contiguous rows with
  | zero => exact returns_ok.mpr ⟨hrows, le_rfl⟩
  | succ i ih =>
    rw [slidingLoop]
    cases hhash : hashes[i]? with
    | none => rw [List.getElem?_eq_none_iff] at hhash; omega
    | some hash =>
      dsimp only
      split
      · next b row hrow =>
        have hset := hrows.set hhash hrow
        split_ifs
        · exact ih contiguous rows (by omega) hrows
        · refine returns_ok.mpr ⟨hset.take _, ?_⟩
          rw [length_take, length_set]
          exact Nat.min_le_right _ _
        · refine (ih (contiguous + 1) _ (by omega) hset).mono fun x hx => ?_
          rwa [length_set] at hx
      · exact ih 0 rows (by omega) hrows

/-- The rows of the loop, of which those for a drafter give up the last one. -/
theorem findSliding_eq (p : BlockPool H) (gids : List ℕ) (window : ℕ)
    (alignment : ℕ) (useEagle : Bool) (hhashes : maxLength / blockSize ≤ hashes.length) :
    ∃ rows, p.RowsCached hashes gids rows ∧ rows.length ≤ maxLength / blockSize ∧
      p.findSliding window blockSize hashes maxLength gids useEagle alignment =
        if useEagle = true ∧ rows ≠ [] then
          if blockSize = alignment then .ok rows.dropLast else .error .assertionError
        else .ok rows := by
  obtain ⟨⟨rows, contiguous, found⟩, hloop, hrows, hlen⟩ :
      Returns (p.slidingLoop blockSize hashes gids alignment
        (cdiv (window - 1) blockSize + if useEagle then 1 else 0) (maxLength / blockSize) 0
        (List.replicate (maxLength / blockSize) (List.replicate gids.length p.nullBlock))) _ :=
    slidingLoop_returns _ 0 _ hhashes (rowsCached_replicate _)
  rw [length_replicate] at hlen
  dsimp only at hrows hlen
  refine ⟨if found then rows else (rows.take contiguous).take
    (alignedLength blockSize alignment (rows.take contiguous).length), ?_, ?_, ?_⟩
  · split_ifs
    · exact hrows
    · exact (hrows.take _).take _
  · split_ifs
    · exact hlen
    · rw [length_take, length_take]
      omega
  · unfold findSliding
    dsimp only
    rw [hloop]
    rfl

/-- **One lookup** returns blocks that are stored, and not more than it is asked for. -/
theorem findLongestCacheHit_ensures {spec : KVCacheSpec}
    (hhashes : maxLength / spec.blockSize ≤ hashes.length) :
    Ensures (p.findLongestCacheHit spec hashes maxLength gids useEagle alignment) fun rows =>
      p.RowsCached hashes gids rows ∧ rows.length * spec.blockSize ≤ maxLength := by
  unfold findLongestCacheHit
  cases spec.kind with
  | full => exact ensures_ok.mpr findFull_spec
  | slidingWindow w =>
    obtain ⟨rows, hcached, hle, heq⟩ := findSliding_eq p gids w alignment useEagle hhashes
    have hmul : ∀ n, n ≤ maxLength / spec.blockSize → n * spec.blockSize ≤ maxLength := fun n hn =>
      (Nat.mul_le_mul_right spec.blockSize hn).trans (Nat.div_mul_le_self maxLength spec.blockSize)
    dsimp only
    rw [heq]
    split_ifs
    · refine ensures_ok.mpr ⟨hcached.dropLast, hmul _ ?_⟩
      rw [length_dropLast]
      omega
    · exact ensures_error
    · exact ensures_ok.mpr ⟨hcached, hmul _ hle⟩

/-- A lookup for a drafter is possible if the blocks of a sliding window are aligned, or it is asked
for nothing. -/
theorem findLongestCacheHit_ok (p : BlockPool H) (gids : List ℕ) {spec : KVCacheSpec}
    (hhashes : maxLength / spec.blockSize ≤ hashes.length)
    (heagle : useEagle = true → spec.kind ≠ .full → spec.blockSize = alignment ∨ maxLength = 0) :
    ∃ rows, p.findLongestCacheHit spec hashes maxLength gids useEagle alignment = .ok rows := by
  unfold findLongestCacheHit
  cases hkind : spec.kind with
  | full => exact ⟨_, rfl⟩
  | slidingWindow w =>
    obtain ⟨rows, -, hle, heq⟩ := findSliding_eq p gids w alignment useEagle hhashes
    dsimp only
    rw [heq]
    split_ifs with he hb
    · exact ⟨_, rfl⟩
    · have hzero := (heagle he.1 (by rw [hkind]; nofun)).resolve_left hb
      rw [hzero, Nat.zero_div, Nat.le_zero, length_eq_zero_iff] at hle
      exact absurd hle he.2
    · exact ⟨_, rfl⟩

end BlockPool

/-! ### The hybrid coordinator -/

/-- The groups are split by their specs. -/
structure SplitOk (groups : List (KVCacheSpec × List ℕ)) (specs : List KVCacheSpec) : Prop where
  nonempty : ∀ group ∈ groups, group.2 ≠ []
  /-- A group is with its spec. -/
  spec_eq : ∀ group ∈ groups, ∀ g ∈ group.2, specs[g]? = some group.1
  nodup : (groups.map Prod.fst).Nodup
  cover : ∀ g < specs.length, ∃ group ∈ groups, g ∈ group.2

theorem SplitOk.add {groups : List (KVCacheSpec × List ℕ)} {done : List KVCacheSpec}
    (h : SplitOk groups done) (spec : KVCacheSpec) :
    SplitOk (addKvCacheGroup groups done.length spec) (done ++ [spec]) := by
  have hlast : (done ++ [spec])[done.length]? = some spec := by simp
  have hold : ∀ group ∈ groups, ∀ g ∈ group.2, (done ++ [spec])[g]? = some group.1 := by
    intro group hgroup g hg
    have hget := h.spec_eq group hgroup g hg
    rw [List.getElem?_append_left (List.getElem?_eq_some_iff.mp hget).1]
    exact hget
  unfold addKvCacheGroup
  split_ifs with hmem
  · -- the group joins those of its spec
    refine ⟨fun group hgroup => ?_, fun group hgroup g hg => ?_, ?_, fun g hg => ?_⟩
    · obtain ⟨group', hgroup', rfl⟩ := mem_map.mp hgroup
      split_ifs
      · simp
      · exact h.nonempty group' hgroup'
    · obtain ⟨group', hgroup', rfl⟩ := mem_map.mp hgroup
      by_cases hspec : group'.1 = spec
      · rw [if_pos hspec] at hg ⊢
        rcases mem_append.mp hg with hg | hg
        · exact hold group' hgroup' g hg
        · rw [mem_singleton.mp hg, hspec]
          exact hlast
      · rw [if_neg hspec] at hg ⊢
        exact hold group' hgroup' g hg
    · have hfst : (groups.map fun g => if g.1 = spec then (g.1, g.2 ++ [done.length]) else g).map Prod.fst
          = groups.map Prod.fst := by
        rw [List.map_map]
        refine map_congr_left fun group _ => ?_
        by_cases hspec : group.1 = spec <;> simp [hspec]
      rw [hfst]
      exact h.nodup
    · rw [length_append, length_singleton] at hg
      rcases Nat.lt_or_ge g done.length with hlt | hge
      · obtain ⟨group, hgroup, hmem'⟩ := h.cover g hlt
        refine ⟨_, mem_map.mpr ⟨group, hgroup, rfl⟩, ?_⟩
        split_ifs
        · exact mem_append_left _ hmem'
        · exact hmem'
      · obtain ⟨group, hgroup, hspec⟩ := mem_map.mp hmem
        refine ⟨_, mem_map.mpr ⟨group, hgroup, rfl⟩, ?_⟩
        rw [if_pos hspec]
        exact mem_append_right _ (mem_singleton.mpr (by omega))
  · -- the first of its spec
    refine ⟨fun group hgroup => ?_, fun group hgroup g hg => ?_, ?_, fun g hg => ?_⟩
    · rcases mem_append.mp hgroup with hgroup | hgroup
      · exact h.nonempty group hgroup
      · rw [mem_singleton.mp hgroup]
        exact cons_ne_nil _ _
    · rcases mem_append.mp hgroup with hgroup | hgroup
      · exact hold group hgroup g hg
      · rw [mem_singleton.mp hgroup] at hg ⊢
        rw [mem_singleton.mp hg]
        exact hlast
    · rw [map_append, nodup_append]
      refine ⟨h.nodup, by simp, fun a ha b hb => ?_⟩
      rw [map_singleton, mem_singleton] at hb
      rw [hb]
      rintro rfl
      exact hmem ha
    · rw [length_append, length_singleton] at hg
      rcases Nat.lt_or_ge g done.length with hlt | hge
      · obtain ⟨group, hgroup, hmem'⟩ := h.cover g hlt
        exact ⟨group, mem_append_left _ hgroup, hmem'⟩
      · exact ⟨_, mem_append_right _ mem_cons_self, mem_singleton.mpr (by omega)⟩

theorem SplitOk.loop (specs done : List KVCacheSpec) (groups : List (KVCacheSpec × List ℕ))
    (h : SplitOk groups done) : SplitOk (splitLoop specs done.length groups) (done ++ specs) := by
  induction specs generalizing done groups with
  | nil =>
    rwa [append_nil]
  | cons spec specs ih =>
    have hstep := ih (done ++ [spec]) _ (h.add spec)
    rwa [length_append, length_singleton, ← append_cons] at hstep

theorem splitOk (specs : List KVCacheSpec) : SplitOk (splitKvCacheGroups specs) specs := by
  have h : SplitOk (splitLoop specs 0 []) specs :=
    SplitOk.loop specs [] [] ⟨by simp, by simp, by simp, by simp⟩
  have hperm : (splitKvCacheGroups specs).Perm (splitLoop specs 0 []) := by
    have := filter_append_perm (fun g : KVCacheSpec × List ℕ => decide (g.1.kind = .full))
      (splitLoop specs 0 [])
    simpa [splitKvCacheGroups] using this
  refine ⟨fun group hg => h.nonempty group (hperm.mem_iff.mp hg),
    fun group hg => h.spec_eq group (hperm.mem_iff.mp hg), (hperm.map _).nodup_iff.mpr h.nodup,
    fun g hg => ?_⟩
  obtain ⟨group, hgroup, hmem⟩ := h.cover g hg
  exact ⟨group, hperm.mem_iff.mpr hgroup, hmem⟩

namespace BlockPool

variable {H : Type} {p : BlockPool H} {specs : List KVCacheSpec}
  {groups : List (KVCacheSpec × List ℕ)} {blockHashes : List H} {useEagle : Bool} {maxLength : ℕ}

/-- What a lookup of the hybrid coordinator rests on. -/
structure HybridSetup (p : BlockPool H) (specs : List KVCacheSpec)
    (groups : List (KVCacheSpec × List ℕ)) (blockHashes : List H) (useEagle : Bool)
    (maxLength : ℕ) : Prop where
  split : SplitOk groups specs
  pos : 0 < p.hashBlockSize
  dvd : ∀ spec ∈ specs, spec.blockSize % p.hashBlockSize = 0
  /-- The request has the hashes of its blocks. -/
  hashes : ∀ spec ∈ specs,
    maxLength / spec.blockSize ≤ blockHashes.length / (spec.blockSize / p.hashBlockSize)
  /-- A sliding window is looked up for a drafter only if its blocks are aligned. -/
  eagle : useEagle = true → ∀ spec ∈ specs, spec.kind ≠ .full →
    spec.blockSize = lcmBlockSize groups ∨ maxLength = 0

variable {c c' : ℕ} {found found' : ℕ → Option (List ℕ)} {group group' : KVCacheSpec × List ℕ}
  {e : Bool} {x y : ℕ × (ℕ → Option (List ℕ))}

/-- What has been found: at least `c` tokens for each group that was looked up. -/
structure FoundOk (p : BlockPool H) (specs : List KVCacheSpec)
    (groups : List (KVCacheSpec × List ℕ)) (blockHashes : List H) (c : ℕ)
    (found : ℕ → Option (List ℕ)) : Prop where
  /-- The blocks are stored, and enough. -/
  cached : ∀ g blocks, found g = some blocks → ∃ spec, specs[g]? = some spec ∧
    c ≤ blocks.length * spec.blockSize ∧
    p.Cached (regroup blockHashes (spec.blockSize / p.hashBlockSize)) g blocks
  /-- The groups of a spec are looked up together. -/
  together : ∀ group ∈ groups, ∀ g ∈ group.2, ∀ g' ∈ group.2,
    (found g).isSome = true → (found g').isSome = true

section Setup

variable (hset : p.HybridSetup specs groups blockHashes e maxLength)

include hset

theorem HybridSetup.eq_of_mem (hg : group ∈ groups) (hg' : group' ∈ groups) {g : ℕ}
    (hmem : g ∈ group.2) (hmem' : g ∈ group'.2) : group = group' := by
  refine inj_on_of_nodup_map hset.split.nodup hg hg' (Option.some.inj ?_)
  rw [← hset.split.spec_eq group hg g hmem, hset.split.spec_eq group' hg' g hmem']

theorem HybridSetup.mem_specs (hgroup : group ∈ groups) : group.1 ∈ specs := by
  obtain ⟨g₀, rest, hids⟩ := exists_cons_of_ne_nil (hset.split.nonempty group hgroup)
  refine mem_of_getElem? (hset.split.spec_eq group hgroup g₀ ?_)
  rw [hids]
  exact mem_cons_self

theorem HybridSetup.le_length (hgroup : group ∈ groups) (hc : c ≤ maxLength) :
    c / group.1.blockSize ≤
      (regroup blockHashes (group.1.blockSize / p.hashBlockSize)).length := by
  rw [length_regroup]
  exact (Nat.div_le_div_right hc).trans (hset.hashes group.1 (hset.mem_specs hgroup))

/-- A round that sets the blocks of one spec's groups. -/
theorem FoundOk.round (h : p.FoundOk specs groups blockHashes c found) (hgroup : group ∈ groups)
    (hle : c' ≤ c)
    (hnew : ∀ g ∈ group.2, ∃ blocks, found' g = some blocks ∧
      blocks.length * group.1.blockSize = c' ∧
      p.Cached (regroup blockHashes (group.1.blockSize / p.hashBlockSize)) g blocks)
    (hold : ∀ g, g ∉ group.2 → found' g = found g) :
    p.FoundOk specs groups blockHashes c' found' := by
  constructor
  · intro g blocks hg
    by_cases hmem : g ∈ group.2
    · obtain ⟨blocks', hg', hlen, hcached⟩ := hnew g hmem
      cases hg.symm.trans hg'
      exact ⟨group.1, hset.split.spec_eq group hgroup g hmem, hlen.ge, hcached⟩
    · obtain ⟨spec, hspec, hlen, hcached⟩ := h.cached g blocks (hold g hmem ▸ hg)
      exact ⟨spec, hspec, hle.trans hlen, hcached⟩
  · intro group' hgroup' g hg g' hg' hsome
    by_cases hmem : g' ∈ group.2
    · obtain ⟨blocks, hblocks, -⟩ := hnew g' hmem
      rw [hblocks]
      rfl
    · -- then neither is in the groups of this round
      have hmem' : g ∉ group.2 := fun hg'' =>
        hmem (hset.eq_of_mem hgroup' hgroup hg hg'' ▸ hg')
      rw [hold g hmem'] at hsome
      rw [hold g' hmem]
      exact h.together group' hgroup' g hg g' hg' hsome

/-- What a round for one spec does. -/
structure RoundOk (p : BlockPool H) (specs : List KVCacheSpec)
    (groups : List (KVCacheSpec × List ℕ)) (blockHashes : List H) (c : ℕ)
    (found : ℕ → Option (List ℕ)) (group : KVCacheSpec × List ℕ)
    (x : ℕ × (ℕ → Option (List ℕ))) : Prop where
  le : x.1 ≤ c
  ok : p.FoundOk specs groups blockHashes x.1 x.2
  /-- The groups of the spec have blocks for no more than the length before. -/
  new : ∀ g ∈ group.2, ∃ blocks, x.2 g = some blocks ∧ blocks.length * group.1.blockSize ≤ c
  old : ∀ g, g ∉ group.2 → x.2 g = found g

/-- What a round does: it cuts the blocks of full attention that it has, or looks up. -/
theorem hybridRound_cases {alignment : ℕ} (hgroup : group ∈ groups)
    (h : p.hybridRound blockHashes useEagle alignment (c, found) group = .ok y) :
    (group.1.kind = .full ∧ (∀ g ∈ group.2, (found g).isSome) ∧
      y.1 = c / group.1.blockSize * group.1.blockSize ∧
      ∀ g, y.2 g = if g ∈ group.2 then (found g).map fun blocks =>
        blocks.take (c / group.1.blockSize) else found g) ∨
    ∃ rows, p.findLongestCacheHit group.1
        (regroup blockHashes (group.1.blockSize / p.hashBlockSize)) c group.2 useEagle alignment =
        .ok rows ∧
      y.1 = rows.length * group.1.blockSize ∧
      ∀ g, y.2 g = match group.2.idxOf? g with
        | some j => some (p.column rows j)
        | none => found g := by
  unfold hybridRound at h
  split_ifs at h with hreuse hall
  · cases h
    exact Or.inl ⟨hreuse.1, all_eq_true.mp hall, rfl, fun g => rfl⟩
  · right
    rw [hashesAt_eq hset.pos (hset.dvd group.1 (hset.mem_specs hgroup))] at h
    obtain ⟨hashes, hhashes, h⟩ := bind_eq_ok.mp h
    cases hhashes
    obtain ⟨rows, hrows, hy⟩ := bind_eq_ok.mp h
    cases hy
    exact ⟨rows, hrows, rfl, fun g => rfl⟩

theorem hybridRound_ensures (h : p.FoundOk specs groups blockHashes c found) (hc : c ≤ maxLength)
    (hgroup : group ∈ groups) :
    Ensures (p.hybridRound blockHashes useEagle (lcmBlockSize groups) (c, found) group)
      (p.RoundOk specs groups blockHashes c found group) := by
  intro y hy
  -- it is enough to have blocks for the new length, and those of the other groups
  suffices hround : y.1 ≤ c ∧ (∀ g ∈ group.2, ∃ blocks, y.2 g = some blocks ∧
      blocks.length * group.1.blockSize = y.1 ∧
      p.Cached (regroup blockHashes (group.1.blockSize / p.hashBlockSize)) g blocks) ∧
      ∀ g, g ∉ group.2 → y.2 g = found g by
    obtain ⟨hle, hnew, hold⟩ := hround
    refine ⟨hle, h.round hset hgroup hle hnew hold, fun g hg => ?_, hold⟩
    obtain ⟨blocks, hblocks, hlen, -⟩ := hnew g hg
    exact ⟨blocks, hblocks, hlen.trans_le hle⟩
  rcases hybridRound_cases hset hgroup hy with ⟨-, hall, hlen, hfound⟩ | ⟨rows, hrows, hlen, hfound⟩
  · refine ⟨hlen.trans_le (Nat.div_mul_le_self c _), fun g hg => ?_, fun g hg => ?_⟩
    · obtain ⟨blocks, hblocks⟩ := isSome_iff_exists.mp (hall g hg)
      obtain ⟨spec, hspec, hge, hcached⟩ := h.cached g blocks hblocks
      cases hspec.symm.trans (hset.split.spec_eq group hgroup g hg)
      refine ⟨blocks.take (c / group.1.blockSize), ?_, ?_, hcached.take _⟩
      · rw [hfound, if_pos hg, hblocks, map_some]
      · rw [hlen, length_take, Nat.min_eq_left]
        exact Nat.div_le_of_le_mul (by rwa [Nat.mul_comm])
    · rw [hfound, if_neg hg]
  · obtain ⟨hcached, hle⟩ := findLongestCacheHit_ensures (hset.le_length hgroup hc) rows hrows
    refine ⟨hlen.trans_le hle, fun g hg => ?_, fun g hg => ?_⟩
    · cases hidx : group.2.idxOf? g with
      | none => exact absurd hg (List.idxOf?_eq_none_iff.mp hidx)
      | some j =>
        obtain ⟨hj, hget, -⟩ := List.idxOf?_eq_some_iff.mp hidx
        refine ⟨p.column rows j, by rw [hfound, hidx], by rw [hlen, column, length_map], ?_⟩
        exact hcached j g (List.getElem?_eq_some_iff.mpr ⟨hj, hget⟩)
    · rw [hfound, List.idxOf?_eq_none_iff.mpr hg]

/-- What a pass over the specs has done so far: the length shrinks, and the groups of the specs that
are done have blocks for it. -/
structure PassOk (p : BlockPool H) (specs : List KVCacheSpec) (groups : List (KVCacheSpec × List ℕ))
    (blockHashes : List H) (c : ℕ) (done : List (KVCacheSpec × List ℕ))
    (x : ℕ × (ℕ → Option (List ℕ))) : Prop where
  le : x.1 ≤ c
  ok : p.FoundOk specs groups blockHashes x.1 x.2
  /-- The groups have blocks for no more than the length before. -/
  done : ∀ group ∈ done, ∀ g ∈ group.2, ∃ blocks, x.2 g = some blocks ∧
    blocks.length * group.1.blockSize ≤ c

theorem PassOk.step {done todo : List (KVCacheSpec × List ℕ)}
    (h : p.PassOk specs groups blockHashes c done x)
    (hsplit : groups = done ++ group :: todo)
    (hround : p.RoundOk specs groups blockHashes x.1 x.2 group y) :
    p.PassOk specs groups blockHashes c (done ++ [group]) y := by
  have hmem : ∀ group' ∈ done ++ [group], group' ∈ groups := by
    intro group' hg'
    rw [hsplit, append_cons]
    exact mem_append_left todo hg'
  refine ⟨hround.le.trans h.le, hround.ok, fun group' hg' g hg => ?_⟩
  by_cases hin : g ∈ group.2
  · obtain ⟨blocks, hblocks, hlen⟩ := hround.new g hin
    rw [hset.eq_of_mem (hmem group' hg') (hmem group (by simp)) hg hin]
    exact ⟨blocks, hblocks, hlen.trans h.le⟩
  · rcases mem_append.mp hg' with hg' | hg'
    · obtain ⟨blocks, hblocks, hlen⟩ := h.done group' hg' g hg
      exact ⟨blocks, (hround.old g hin).trans hblocks, hlen⟩
    · exact absurd (mem_singleton.mp hg' ▸ hg) hin

omit hset in
theorem FoundOk.passOk (h : p.FoundOk specs groups blockHashes c found) :
    p.PassOk specs groups blockHashes c [] (c, found) := ⟨le_rfl, h, by simp⟩

theorem hybridPass_ensures
    (h : p.FoundOk specs groups blockHashes c found) (hc : c ≤ maxLength) :
    Ensures (groups.foldlM (p.hybridRound blockHashes useEagle (lcmBlockSize groups)) (c, found))
      (p.PassOk specs groups blockHashes c groups) := by
  refine ensures_foldlM groups (c, found) ?_ h.passOk
  intro done group todo x hsplit hpass
  refine (hybridRound_ensures hset hpass.ok (hpass.le.trans hc) ?_).mono fun y hround =>
    hpass.step hset hsplit hround
  rw [hsplit]
  exact mem_append_right done mem_cons_self

/-- What the hybrid coordinator ends with: a length that the blocks of every group have. -/
structure LoopOk (p : BlockPool H) (specs : List KVCacheSpec) (blockHashes : List H)
    (maxLength : ℕ) (x : ℕ × (ℕ → Option (List ℕ))) : Prop where
  le : x.1 ≤ maxLength
  /-- Each group has blocks for just this length, and they are stored. -/
  found : ∀ g spec, specs[g]? = some spec → ∃ blocks, x.2 g = some blocks ∧
    blocks.length * spec.blockSize = x.1 ∧
    p.Cached (regroup blockHashes (spec.blockSize / p.hashBlockSize)) g blocks

/-- The loop ends with a pass in which no spec shortens the hit. -/
theorem PassOk.loopOk (h : p.PassOk specs groups blockHashes c groups x) (hc : c ≤ maxLength)
    (hlt : ¬ x.1 < c) : p.LoopOk specs blockHashes maxLength (c, x.2) := by
  have hlen : x.1 = c := Nat.le_antisymm h.le (Nat.not_lt.mp hlt)
  refine ⟨hc, fun g spec hspec => ?_⟩
  obtain ⟨group, hgroup, hg⟩ := hset.split.cover g (List.getElem?_eq_some_iff.mp hspec).1
  cases hspec.symm.trans (hset.split.spec_eq group hgroup g hg)
  obtain ⟨blocks, hblocks, hle⟩ := h.done group hgroup g hg
  obtain ⟨spec, hspec', hge, hcached⟩ := h.ok.cached g blocks hblocks
  cases hspec.symm.trans hspec'
  exact ⟨blocks, hblocks, Nat.le_antisymm hle (hlen ▸ hge), hcached⟩

omit hset in
theorem foundOk_none (p : BlockPool H) (specs : List KVCacheSpec)
    (groups : List (KVCacheSpec × List ℕ)) (blockHashes : List H) (c : ℕ) :
    p.FoundOk specs groups blockHashes c fun _ => none := by
  constructor
  · intro g blocks hg
    cases hg
  · intro group _ g _ g' _ hg
    cases hg

omit hset in
/-- A rule for the outer loop: what each pass keeps, and what follows when it shortens nothing. -/
theorem hybridLoop_rule {I Q : ℕ × (ℕ → Option (List ℕ)) → Prop}
    (hpass : ∀ c found, I (c, found) →
      Ensures (groups.foldlM (p.hybridRound blockHashes useEagle (lcmBlockSize groups)) (c, found))
        fun x => I x ∧ (¬x.1 < c → Q (c, x.2))) (c : ℕ) (found : ℕ → Option (List ℕ))
    (h : I (c, found)) : Ensures (p.hybridLoop blockHashes useEagle groups c found) Q := by
  induction c using Nat.strong_induction_on generalizing found with
  | _ c ih =>
    have hensures := hpass c found h
    rw [hybridLoop]
    cases hfold : groups.foldlM (p.hybridRound blockHashes useEagle (lcmBlockSize groups))
      (c, found) with
    | error err => exact ensures_error
    | ok x =>
      obtain ⟨hI, hQ⟩ := hensures x hfold
      dsimp only
      split_ifs with hlt
      · exact ih x.1 hlt x.2 hI
      · exact ensures_ok.mpr (hQ hlt)

/-- **The hybrid coordinator**, if it raises nothing. -/
theorem hybridLoop_ensures :
    Ensures (p.hybridLoop blockHashes useEagle groups maxLength fun _ => none)
      (p.LoopOk specs blockHashes maxLength) := by
  let I : ℕ × (ℕ → Option (List ℕ)) → Prop := fun x =>
    p.FoundOk specs groups blockHashes x.1 x.2 ∧ x.1 ≤ maxLength
  refine hybridLoop_rule (I := I) ?_ maxLength _ ⟨foundOk_none .., le_rfl⟩
  rintro c found ⟨h, hc⟩
  exact (hybridPass_ensures hset h hc).mono fun x hok =>
    ⟨⟨hok.ok, hok.le.trans hc⟩, hok.loopOk hset hc⟩

end Setup

section Returning

variable (hset : p.HybridSetup specs groups blockHashes useEagle maxLength)

include hset

theorem hybridRound_returns (h : p.FoundOk specs groups blockHashes c found) (hc : c ≤ maxLength)
    (hgroup : group ∈ groups) :
    Returns (p.hybridRound blockHashes useEagle (lcmBlockSize groups) (c, found) group)
      (p.RoundOk specs groups blockHashes c found group) := by
  obtain ⟨x, hx⟩ : ∃ x, p.hybridRound blockHashes useEagle (lcmBlockSize groups) (c, found) group
      = .ok x := by
    unfold hybridRound
    split_ifs with hreuse hall
    · exact ⟨_, rfl⟩
    · -- the groups of a spec are looked up together
      obtain ⟨g₀, rest, hids⟩ := exists_cons_of_ne_nil (hset.split.nonempty group hgroup)
      have hg₀ : g₀ ∈ group.2 := by rw [hids]; exact mem_cons_self
      refine absurd (all_eq_true.mpr fun g hg => ?_) hall
      rw [hids, headD_cons] at hreuse
      exact h.together group hgroup g₀ hg₀ g hg hreuse.2
    · have hspec := hset.mem_specs hgroup
      obtain ⟨rows, hrows⟩ := findLongestCacheHit_ok p group.2 (hset.le_length hgroup hc)
        fun he hk => (hset.eagle he group.1 hspec hk).imp_right fun h => by omega
      rw [hashesAt_eq hset.pos (hset.dvd group.1 hspec)]
      show ∃ x, (p.findLongestCacheHit group.1 _ c group.2 useEagle _ >>= _) = Except.ok x
      rw [hrows]
      exact ⟨_, rfl⟩
  exact ⟨x, hx, hybridRound_ensures hset h hc hgroup x hx⟩

theorem hybridPass_returns
    (h : p.FoundOk specs groups blockHashes c found) (hc : c ≤ maxLength) :
    Returns (groups.foldlM (p.hybridRound blockHashes useEagle (lcmBlockSize groups)) (c, found))
      (p.PassOk specs groups blockHashes c groups) := by
  refine returns_foldlM groups (c, found) ?_ h.passOk
  intro done group todo x hsplit hpass
  refine (hybridRound_returns hset hpass.ok (hpass.le.trans hc) ?_).mono fun y hround =>
    hpass.step hset hsplit hround
  rw [hsplit]
  exact mem_append_right done mem_cons_self

theorem hybridLoop_ok (c : ℕ) (found : ℕ → Option (List ℕ))
    (h : p.FoundOk specs groups blockHashes c found) (hc : c ≤ maxLength) :
    ∃ x, p.hybridLoop blockHashes useEagle groups c found = .ok x := by
  induction c using Nat.strong_induction_on generalizing found with
  | _ c ih =>
    obtain ⟨x, hpass, hok⟩ := hybridPass_returns hset h hc
    rw [hybridLoop, hpass]
    dsimp only
    split_ifs with hlt
    · exact ih x.1 hlt x.2 hok.ok (hok.le.trans hc)
    · exact ⟨_, rfl⟩

/-- **The hybrid coordinator** stops, at a length that the blocks of every group have. -/
theorem hybridLoop_returns :
    Returns (p.hybridLoop blockHashes useEagle groups maxLength fun _ => none)
      (p.LoopOk specs blockHashes maxLength) := by
  obtain ⟨x, hx⟩ := hybridLoop_ok hset maxLength _ (foundOk_none ..) le_rfl
  exact ⟨x, hx, hybridLoop_ensures hset x hx⟩

end Returning

/-- When a lookup for a drafter is possible: every sliding window's blocks are aligned. -/
def EagleOk (specs : List KVCacheSpec) : Prop :=
  ∀ spec ∈ specs, spec.kind ≠ .full → specs.length ≠ 1 →
    spec.blockSize = lcmBlockSize (splitKvCacheGroups specs)

/-- **The coordinator's lookup**, if it raises nothing: for each group the blocks of one common
number of tokens, each stored in the group under the hash at its place. -/
theorem coordinatorHit_ensures (hpos : 0 < p.hashBlockSize)
    (hdvd : ∀ spec ∈ specs, spec.blockSize % p.hashBlockSize = 0)
    (hone : ∀ spec, specs = [spec] → spec.blockSize = p.hashBlockSize)
    (hhashes : maxLength / p.hashBlockSize ≤ blockHashes.length) :
    Ensures (p.coordinatorHit specs useEagle blockHashes maxLength) fun x =>
      x.2 ≤ maxLength ∧ ∀ g spec, specs[g]? = some spec → ∃ blocks, x.1[g]? = some blocks ∧
        blocks.length * spec.blockSize = x.2 ∧
        p.Cached (regroup blockHashes (spec.blockSize / p.hashBlockSize)) g blocks := by
  unfold coordinatorHit
  split
  · next spec =>
    have hsize := hone spec rfl
    have hgroup : regroup blockHashes (spec.blockSize / p.hashBlockSize)
        = blockHashes.map fun h => [h] := by
      rw [hsize, Nat.div_self hpos, regroup_one]
    rw [ensures_bind]
    refine (findLongestCacheHit_ensures ?_).mono ?_
    · rw [length_map, hsize]
      exact hhashes
    · rintro rows ⟨hrows, hle⟩
      refine ensures_pure.mpr ⟨hle, fun g spec' hspec => ?_⟩
      cases g with
      | zero =>
        obtain rfl : spec = spec' := Option.some.inj hspec
        refine ⟨p.column rows 0, rfl, by rw [column, length_map], ?_⟩
        rw [hgroup]
        exact hrows 0 0 rfl
      | succ g => simp at hspec
  · -- several groups: the loop has agreed on one length
    have hset : p.HybridSetup specs (splitKvCacheGroups specs) blockHashes false maxLength :=
      ⟨splitOk specs, hpos, hdvd, fun spec hspec => div_le_regroup (hdvd spec hspec) hhashes le_rfl,
        nofun⟩
    rw [ensures_bind]
    refine (hybridLoop_ensures hset).mono ?_
    rintro ⟨n, found⟩ ⟨hle, hall⟩
    dsimp only at hle hall ⊢
    refine ensures_pure.mpr ⟨hle, fun g spec hspec => ?_⟩
    obtain ⟨blocks, hblocks, hlen', hcached⟩ := hall g spec hspec
    refine ⟨blocks, ?_, hlen', hcached⟩
    rw [List.getElem?_map, List.getElem?_range (List.getElem?_eq_some_iff.mp hspec).1]
    show some ((found g).getD []) = some blocks
    rw [hblocks, getD_some]

/-- **The coordinator's lookup raises nothing** if it is possible for the drafter, should there be
one. -/
theorem coordinatorHit_ok (hpos : 0 < p.hashBlockSize)
    (hdvd : ∀ spec ∈ specs, spec.blockSize % p.hashBlockSize = 0)
    (hone : ∀ spec, specs = [spec] → spec.blockSize = p.hashBlockSize)
    (hhashes : maxLength / p.hashBlockSize ≤ blockHashes.length)
    (heagle : useEagle = true → EagleOk specs) :
    ∃ x, p.coordinatorHit specs useEagle blockHashes maxLength = .ok x := by
  unfold coordinatorHit
  split
  · next spec =>
    have hle : maxLength / spec.blockSize ≤ (blockHashes.map fun h => [h]).length := by
      rw [length_map, hone spec rfl]
      exact hhashes
    obtain ⟨rows, hrows⟩ : ∃ rows, p.findLongestCacheHit spec (blockHashes.map fun h => [h])
        maxLength [0] useEagle spec.blockSize = .ok rows :=
      findLongestCacheHit_ok p [0] hle fun _ _ => Or.inl rfl
    rw [hrows]
    exact ⟨_, rfl⟩
  · next hne =>
    have hlen : specs.length ≠ 1 := fun hlen => by
      obtain ⟨spec, rfl⟩ := length_eq_one_iff.mp hlen
      exact hne spec rfl
    have hset : p.HybridSetup specs (splitKvCacheGroups specs) blockHashes useEagle maxLength :=
      ⟨splitOk specs, hpos, hdvd, fun spec hspec => div_le_regroup (hdvd spec hspec) hhashes le_rfl,
        fun he spec hspec hk => Or.inl (heagle he spec hspec hk hlen)⟩
    obtain ⟨x, hx, -⟩ := hybridLoop_returns hset
    rw [hx]
    exact ⟨_, rfl⟩

end BlockPool

end CacheFlow
