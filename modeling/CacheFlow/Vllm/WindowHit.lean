import Mathlib.Order.Bounds.Basic
import CacheFlow.Vllm.CacheHit

/-!
# The lookup of a window

For attention with a window a hit of `n` blocks is good for the next token, at position
`n * blockSize`, if the blocks of the tokens it attends to are cached; what lies before them may be
null blocks.

The search for a sliding window goes from the right and needs at least one cached block, even for a
window of one token, which needs none. The search for a chunk of local attention takes the start of
the chunk from the length it is asked for, not from the length it returns; when a block lies across
the start of the chunk and is not cached, what is returned ends in the chunk before.

## Main definitions

* `BlockPool.WindowHit`, `BlockPool.LongestHit` — a good hit, and the longest.

## Main results

* `BlockPool.windowed_longest_iff` — when the two searches return the longest hit.
-/

namespace CacheFlow

open List Option

namespace BlockPool

variable {H : Type}

/-! ### Hits for a window -/

section Definitions

variable (p : BlockPool H) (hashes : List (List H)) (gids : List ℕ) (blockSize : ℕ)
  (skipped : ℕ → ℕ)

/-- The loop of `ChunkedLocalAttentionManager.find_longest_cache_hit`, for `n` blocks from block `i`
on. -/
def chunkedLoop : ℕ → ℕ → List (List ℕ) → Except VllmErr (List (List ℕ))
  | 0, _, rows => .ok rows
  | n + 1, i, rows =>
    match hashes[i]? with
    | none => .error .indexError
    | some h =>
      match p.getCachedBlock h gids with
      | some (b :: row) => chunkedLoop n (i + 1) (rows ++ [b :: row])
      | _ => .ok rows

/-- `ChunkedLocalAttentionManager.find_longest_cache_hit`. -/
def findChunkedLocal (chunkSize maxLength : ℕ) (useEagle : Bool) (alignment : ℕ) :
    Except VllmErr (List (List ℕ)) :=
  if useEagle then .error .assertionError
  else if blockSize ≠ alignment then .error .assertionError
  else
    let startIdx := if 0 < maxLength then maxLength / chunkSize * chunkSize else 0
    let startBlock := startIdx / blockSize
    p.chunkedLoop hashes gids (maxLength / blockSize - startBlock) startBlock
      (List.replicate startBlock (List.replicate gids.length p.nullBlock))

/-- The row of blocks that a lookup finds for block `i`, one for each group. -/
def hitAt (i : ℕ) : Option (List ℕ) :=
  hashes[i]?.bind fun h => (p.getCachedBlock h gids).filter (· ≠ [])

/-- The blocks that hold the tokens the token after block `n` attends to are cached. -/
def Covered (n : ℕ) : Prop :=
  ∀ i, skipped (n * blockSize) / blockSize ≤ i → i < n → (p.hitAt hashes gids i).isSome = true

/-- The blocks of one group: those that are not null are stored under their hashes, and there is no
null block among those that hold attended tokens. -/
structure WindowHit (g : ℕ) (blocks : List ℕ) : Prop where
  cached : p.Cached hashes g blocks
  /-- Null blocks come before the window. -/
  covers : ∀ i, skipped (blocks.length * blockSize) / blockSize ≤ i →
    blocks[i]? ≠ some p.nullBlock

/-- A hit for all groups, and the longest one that is aligned. -/
structure LongestHit (alignment maxLength : ℕ) (rows : List (List ℕ)) : Prop where
  /-- It is the longest. -/
  greatest : IsGreatest {n | n * blockSize ≤ maxLength ∧ alignment ∣ n * blockSize ∧
    p.Covered hashes gids blockSize skipped n} rows.length
  /-- It is a hit for each group. -/
  hits : ∀ (j g : ℕ), gids[j]? = some g → p.WindowHit hashes blockSize skipped g (p.column rows j)

/-- The null block is not cached. -/
def NullUncached : Prop := ∀ k, p.nullBlock ∉ p.cachedBlockHashToBlock k

end Definitions

variable {p : BlockPool H} {hashes : List (List H)} {gids : List ℕ} {blockSize : ℕ}
  {skipped : ℕ → ℕ} {alignment maxLength : ℕ} {rows : List (List ℕ)}

theorem hitAt_of_row {i : ℕ} {h : List H} {b : ℕ} {row : List ℕ} (hi : hashes[i]? = some h)
    (hrow : p.getCachedBlock h gids = some (b :: row)) :
    p.hitAt hashes gids i = some (b :: row) := by
  simp [hitAt, hi, hrow]

theorem hitAt_of_no_row {i : ℕ} {h : List H} (hi : hashes[i]? = some h)
    (hrow : ∀ b row, p.getCachedBlock h gids ≠ some (b :: row)) : p.hitAt hashes gids i = none := by
  cases hget : p.getCachedBlock h gids with
  | none => simp [hitAt, hi, hget]
  | some row =>
    cases row with
    | nil => simp [hitAt, hi, hget]
    | cons b row => exact absurd hget (hrow b row)

/-- Rows that are cached, and from the window on are the ones that a lookup finds. -/
theorem windowHit_column (hnull : p.NullUncached) (hcached : p.RowsCached hashes gids rows)
    (hrows : ∀ i, skipped (rows.length * blockSize) / blockSize ≤ i → i < rows.length →
      rows[i]? = p.hitAt hashes gids i) {j g : ℕ} (hj : gids[j]? = some g) :
    p.WindowHit hashes blockSize skipped g (p.column rows j) := by
  refine ⟨hcached j g hj, fun i hi hb => ?_⟩
  rw [column, length_map] at hi
  rw [column, List.getElem?_map, map_eq_some_iff] at hb
  obtain ⟨row, hrow, hb⟩ := hb
  have hhit := hrows i hi (List.getElem?_eq_some_iff.mp hrow).1
  rw [hrow, hitAt] at hhit
  obtain ⟨h, -, hfound⟩ := bind_eq_some_iff.mp hhit.symm
  have hmem := mem_of_getCachedBlock (filter_eq_some_iff.mp hfound).1 hj
  rw [hb] at hmem
  exact hnull _ hmem

theorem Covered.mono {skipped' : ℕ → ℕ} {n : ℕ} (hle : ∀ n, skipped' n ≤ skipped n)
    (h : p.Covered hashes gids blockSize skipped' n) : p.Covered hashes gids blockSize skipped n :=
  fun i hi hlt => h i ((Nat.div_le_div_right (hle _)).trans hi) hlt

/-! ### Lengths that are aligned -/

theorem alignedLength_eq {n : ℕ} (h : alignment ∣ n * blockSize) :
    alignedLength blockSize alignment n = n := by
  cases n with
  | zero => rfl
  | succ n => rw [alignedLength, if_neg fun hnot => hnot.2 (Nat.mod_eq_zero_of_dvd h)]

/-- Popping blocks finds the longest length that is aligned. -/
theorem isGreatest_alignedLength (blockSize alignment : ℕ) : ∀ n,
    IsGreatest {m | m ≤ n ∧ alignment ∣ m * blockSize} (alignedLength blockSize alignment n) := by
  intro n
  induction n with
  | zero =>
    refine ⟨⟨le_rfl, ?_⟩, fun m hm => hm.1⟩
    rw [alignedLength, Nat.zero_mul]
    exact Nat.dvd_zero _
  | succ n ih =>
    by_cases hdvd : alignment ∣ (n + 1) * blockSize
    · rw [alignedLength_eq hdvd]
      exact ⟨⟨le_rfl, hdvd⟩, fun m hm => hm.1⟩
    · have hne : blockSize ≠ alignment := by
        rintro rfl
        exact hdvd (Nat.dvd_mul_left _ _)
      rw [alignedLength, if_pos ⟨hne, fun hmod => hdvd (Nat.dvd_of_mod_eq_zero hmod)⟩]
      refine ⟨⟨ih.1.1.trans n.le_succ, ih.1.2⟩, fun m hm => ih.2 ⟨?_, hm.2⟩⟩
      rcases Nat.eq_or_lt_of_le hm.1 with rfl | hlt
      · exact absurd hm.2 hdvd
      · exact Nat.le_of_lt_succ hlt

/-! ### The search from the right -/

/-- What the search ends with. -/
def slidingRows (blockSize alignment : ℕ) (x : List (List ℕ) × ℕ × Bool) : List (List ℕ) :=
  if x.2.2 then x.1
  else (x.1.take x.2.1).take (alignedLength blockSize alignment (x.1.take x.2.1).length)

/-- The search stands before block `i`, behind `c` hits in a row; nothing longer is covered. -/
structure Scan (p : BlockPool H) (hashes : List (List H)) (gids : List ℕ) (blockSize : ℕ)
    (skipped : ℕ → ℕ) (alignment need total i c : ℕ) (rows : List (List ℕ)) : Prop where
  length : rows.length = total
  le : i + c ≤ total
  run : ∀ k, i ≤ k → k < i + c → rows[k]? = p.hitAt hashes gids k ∧
    (p.hitAt hashes gids k).isSome = true
  aligned : c ≠ 0 → alignment ∣ (i + c) * blockSize
  short : c < need
  none : ∀ n, i + c < n → n ≤ total → alignment ∣ n * blockSize →
    ¬p.Covered hashes gids blockSize skipped n

section Hit

variable {need total i c : ℕ} {row : List ℕ}
  (h : Scan p hashes gids blockSize skipped alignment need total (i + 1) c rows)

include h

theorem Scan.run_set (hhit : p.hitAt hashes gids i = some row) (k : ℕ) (hk : i ≤ k)
    (hlt : k < i + (c + 1)) : (rows.set i row)[k]? = p.hitAt hashes gids k ∧
      (p.hitAt hashes gids k).isSome = true := by
  have hle := h.le
  have hlen := h.length
  rcases Nat.eq_or_lt_of_le hk with rfl | hgt
  · rw [List.getElem?_set_self (by omega), hhit]
    exact ⟨rfl, rfl⟩
  · rw [List.getElem?_set_ne (by omega)]
    exact h.run k hgt (by omega)

theorem Scan.aligned_hit (hstart : ¬(c = 0 ∧ blockSize ≠ alignment ∧
    (i + 1) * blockSize % alignment ≠ 0)) : alignment ∣ (i + (c + 1)) * blockSize := by
  rcases Nat.eq_zero_or_pos c with rfl | hc
  · by_cases heq : blockSize = alignment
    · rw [heq]
      exact Nat.dvd_mul_left _ _
    · apply Nat.dvd_of_mod_eq_zero
      by_contra hmod
      exact hstart ⟨rfl, heq, hmod⟩
  · have haligned := h.aligned hc.ne'
    rwa [Nat.add_right_comm] at haligned

theorem Scan.none_hit (n : ℕ) (hn : i + (c + 1) < n) (hle : n ≤ total)
    (hdvd : alignment ∣ n * blockSize) : ¬p.Covered hashes gids blockSize skipped n :=
  h.none n (by omega) hle hdvd

end Hit

/-- A run of hits that fills the window or goes back to the first block is the longest hit. -/
theorem Scan.longest {need total i c : ℕ}
    (hneed : ∀ k n, k < n → (skipped (n * blockSize) / blockSize ≤ k ↔ n ≤ k + need))
    (hle : i + c ≤ total) (hfull : need ≤ c ∨ i = 0)
    (hrun : ∀ k, i ≤ k → k < i + c → (p.hitAt hashes gids k).isSome = true)
    (haligned : alignment ∣ (i + c) * blockSize)
    (hnone : ∀ n, i + c < n → n ≤ total → alignment ∣ n * blockSize →
      ¬p.Covered hashes gids blockSize skipped n) :
    IsGreatest {n | n ≤ total ∧ alignment ∣ n * blockSize ∧
      p.Covered hashes gids blockSize skipped n} (i + c) := by
  refine ⟨⟨hle, haligned, fun k hk hlt => ?_⟩, fun n hn => ?_⟩
  · have hreach := (hneed k (i + c) hlt).mp hk
    exact hrun k (by omega) hlt
  · by_contra hlt
    exact hnone n (Nat.lt_of_not_le hlt) hn.1 hn.2.1 hn.2.2

/-- **The search from the right** returns the longest hit. -/
theorem slidingLoop_longest {need total : ℕ} (hpos : 0 < need)
    (hneed : ∀ k n, k < n → (skipped (n * blockSize) / blockSize ≤ k ↔ n ≤ k + need))
    (hhashes : total ≤ hashes.length) {i c : ℕ} {rows : List (List ℕ)}
    (h : Scan p hashes gids blockSize skipped alignment need total i c rows) :
    Returns (p.slidingLoop blockSize hashes gids alignment need i c rows) fun x =>
        IsGreatest {n | n ≤ total ∧ alignment ∣ n * blockSize ∧
            p.Covered hashes gids blockSize skipped n} (slidingRows blockSize alignment x).length ∧
          ∀ k, (slidingRows blockSize alignment x).length ≤ k + need →
            k < (slidingRows blockSize alignment x).length →
              (slidingRows blockSize alignment x)[k]? = p.hitAt hashes gids k := by
  induction i generalizing c rows with
  | zero =>
    have hdvd : alignment ∣ c * blockSize := by
      rcases Nat.eq_zero_or_pos c with rfl | hc
      · simp
      · simpa using h.aligned hc.ne'
    have hlen : (rows.take c).length = c := by
      rw [length_take, h.length]
      have := h.le
      omega
    have hfinal : slidingRows blockSize alignment (rows, c, false) = rows.take c := by
      show (rows.take c).take (alignedLength blockSize alignment (rows.take c).length) = _
      rw [hlen, alignedLength_eq hdvd, take_take, Nat.min_self]
    have hgreatest := Scan.longest hneed h.le (Or.inr rfl) (fun k hk hlt => (h.run k hk hlt).2)
      (by simpa using hdvd) h.none
    refine returns_ok.mpr ⟨?_, fun k _ hk => ?_⟩
    · rw [hfinal, hlen]
      simpa using hgreatest
    · rw [hfinal, hlen] at hk
      rw [hfinal, List.getElem?_take_of_lt hk]
      exact (h.run k (Nat.zero_le k) (by omega)).1
  | succ i ih =>
    have hle := h.le
    rw [slidingLoop]
    cases hhash : hashes[i]? with
    | none =>
      rw [List.getElem?_eq_none_iff] at hhash
      omega
    | some hash =>
      dsimp only
      split
      · next b row hrow =>
        have hhit := hitAt_of_row hhash hrow
        split_ifs with hskip hfill
        · -- a hit, but no length ends here
          obtain ⟨rfl, -, hmod⟩ := hskip
          apply ih
          refine ⟨h.length, by omega, fun k hk hlt => by omega, fun hne => absurd rfl hne, hpos, ?_⟩
          intro n hn hle' hdvd
          rcases Nat.lt_or_ge (i + 1) n with hlt | hge
          · exact h.none n hlt hle' hdvd
          · obtain rfl : n = i + 1 := by omega
            exact absurd (Nat.mod_eq_zero_of_dvd hdvd) hmod
        all_goals
          have hrun := h.run_set hhit
          have haligned := h.aligned_hit hskip
        · -- the window is full
          have hlen : ((rows.set i (b :: row)).take (i + (c + 1))).length = i + (c + 1) := by
            rw [length_take, length_set, h.length]
            omega
          refine returns_ok.mpr ⟨?_, fun k hk hlt => ?_⟩
          · show IsGreatest _ ((rows.set i (b :: row)).take (i + (c + 1))).length
            rw [hlen]
            exact Scan.longest hneed (by omega) (Or.inl hfill) (fun k hk hlt => (hrun k hk hlt).2)
              haligned h.none_hit
          · change ((rows.set i (b :: row)).take (i + (c + 1))).length ≤ k + need at hk
            change k < ((rows.set i (b :: row)).take (i + (c + 1))).length at hlt
            show ((rows.set i (b :: row)).take (i + (c + 1)))[k]? = _
            rw [hlen] at hk hlt
            rw [List.getElem?_take_of_lt hlt]
            exact (hrun k (by omega) hlt).1
        · -- the row of hits goes on to the left
          apply ih
          exact ⟨by rw [length_set, h.length], by omega, hrun, fun _ => haligned,
            Nat.lt_of_not_le hfill, h.none_hit⟩
      · next hrow =>
        -- a miss: the row starts again
        have hmiss := hitAt_of_no_row hhash hrow
        apply ih
        refine ⟨h.length, by omega, fun k hk hlt => by omega, fun hne => absurd rfl hne, hpos, ?_⟩
        intro n hn hle' hdvd hcov
        rcases Nat.lt_or_ge (i + 1 + c) n with hlt | hge
        · exact h.none n hlt hle' hdvd hcov
        · -- the block that is missing is in the window
          have hshort := h.short
          have hfound := hcov i ((hneed i n (by omega)).mpr (by omega)) (by omega)
          rw [hmiss] at hfound
          cases hfound

/-! ### Sliding windows -/

/-- `SlidingWindowManager.get_num_skipped_tokens`. -/
def slidingSkipped (window numComputedTokens : ℕ) : ℕ := numComputedTokens + 1 - window

/-- The window that the search looks for: a drafter's has one block more, and the search does not
end before the first hit, as if the window had two tokens. -/
def searchedWindow (useEagle : Bool) (blockSize window : ℕ) : ℕ :=
  if useEagle then window + blockSize else max window 2

theorem lt_cdiv_iff {m a b : ℕ} (hb : 0 < b) : m < cdiv a b ↔ m * b < a := by
  rw [cdiv, ← Nat.succ_le_iff, Nat.le_div_iff_mul_le hb, Nat.succ_mul]
  omega

/-- The blocks of a window, counted from its end. -/
theorem slidingSkipped_le_iff (hb : 0 < blockSize) (window k n : ℕ) (h : k < n) :
    slidingSkipped window (n * blockSize) / blockSize ≤ k ↔
      n ≤ k + cdiv (window - 1) blockSize := by
  obtain ⟨d, rfl⟩ := Nat.exists_eq_add_of_lt h
  have hcdiv : d < cdiv (window - 1) blockSize ↔ d * blockSize < window - 1 := lt_cdiv_iff hb
  have hpos : blockSize ≤ (k + 1) * blockSize := Nat.le_mul_of_pos_left blockSize k.succ_pos
  have hmul : (k + d + 1) * blockSize = (k + 1) * blockSize + d * blockSize := by ring
  rw [← Nat.lt_succ_iff, Nat.div_lt_iff_lt_mul hb, slidingSkipped, hmul, Nat.succ_eq_add_one]
  omega

theorem slidingLoop_zero (p : BlockPool H) (hashes : List (List H)) (gids : List ℕ)
    (blockSize alignment : ℕ) (i c : ℕ) (rows : List (List ℕ)) :
    p.slidingLoop blockSize hashes gids alignment 0 i c rows =
        p.slidingLoop blockSize hashes gids alignment 1 i c rows := by
  induction i generalizing c rows with
  | zero => exact rfl
  | succ i ih =>
    simp only [slidingLoop, ih, Nat.le_add_left, if_true]

/-- What the search needs is what the window it looks for has. -/
theorem slidingLoop_need (p : BlockPool H) (hashes : List (List H)) (gids : List ℕ)
    (alignment : ℕ) (useEagle : Bool) {window : ℕ} (hb : 0 < blockSize) (hw : 0 < window) (i c : ℕ)
    (rows : List (List ℕ)) :
    p.slidingLoop blockSize hashes gids alignment
        (cdiv (window - 1) blockSize + if useEagle then 1 else 0) i c rows =
      p.slidingLoop blockSize hashes gids alignment
        (cdiv (searchedWindow useEagle blockSize window - 1) blockSize) i c rows := by
  cases useEagle with
  | true =>
    have hsub : window + blockSize - 1 + blockSize - 1 =
        window - 1 + blockSize - 1 + blockSize := by omega
    have hneed : cdiv (window + blockSize - 1) blockSize = cdiv (window - 1) blockSize + 1 := by
      rw [cdiv, cdiv, hsub, Nat.add_div_right _ hb]
    simp [searchedWindow, hneed]
  | false =>
    rcases Nat.eq_or_lt_of_le (Nat.succ_le_of_lt hw) with rfl | hlt
    · have hzero : cdiv 0 blockSize = 0 := Nat.div_eq_of_lt (by omega)
      have hone : cdiv 1 blockSize = 1 := by
        rw [cdiv, Nat.add_sub_cancel_left, Nat.div_self hb]
      simp [searchedWindow, hzero, hone, slidingLoop_zero]
    · simp [searchedWindow, Nat.max_eq_left (Nat.succ_le_of_lt hlt)]

/-- **The search for a sliding window** returns the longest hit for the window that it looks for; a
drafter's hit then gives up its last block. -/
theorem findSliding_longest (p : BlockPool H) (gids : List ℕ) (alignment : ℕ) (useEagle : Bool)
    {window : ℕ} (hb : 0 < blockSize) (hw : 0 < window)
    (hhashes : maxLength / blockSize ≤ hashes.length) :
    ∃ rows, p.RowsCached hashes gids rows ∧
      IsGreatest {n | n ≤ maxLength / blockSize ∧ alignment ∣ n * blockSize ∧
        p.Covered hashes gids blockSize (slidingSkipped (searchedWindow useEagle blockSize window))
          n} rows.length ∧
      (∀ i, slidingSkipped (searchedWindow useEagle blockSize window) (rows.length * blockSize) /
        blockSize ≤ i → i < rows.length → rows[i]? = p.hitAt hashes gids i) ∧
      p.findSliding window blockSize hashes maxLength gids useEagle alignment =
        if useEagle = true ∧ rows ≠ [] then
          if blockSize = alignment then .ok rows.dropLast else .error .assertionError
        else .ok rows := by
  have hneed := slidingSkipped_le_iff hb (searchedWindow useEagle blockSize window)
  have htwo : 1 < searchedWindow useEagle blockSize window := by
    unfold searchedWindow
    split_ifs <;> omega
  have hpos : 0 < cdiv (searchedWindow useEagle blockSize window - 1) blockSize :=
    (lt_cdiv_iff hb).mpr (by omega)
  -- at the start no block has been looked at
  have hscan : Scan p hashes gids blockSize
      (slidingSkipped (searchedWindow useEagle blockSize window)) alignment
      (cdiv (searchedWindow useEagle blockSize window - 1) blockSize) (maxLength / blockSize)
      (maxLength / blockSize) 0
      (List.replicate (maxLength / blockSize) (List.replicate gids.length p.nullBlock)) :=
    ⟨length_replicate, le_rfl, fun k hk hlt => by omega, fun hne => absurd rfl hne, hpos,
      fun n hn hle => by omega⟩
  obtain ⟨x, hloop, hgreatest, hrows⟩ := slidingLoop_longest hpos hneed hhashes hscan
  have hcached : p.RowsCached hashes gids x.1 :=
    ((slidingLoop_returns _ 0 _ hhashes (rowsCached_replicate _)).of_eq hloop).1
  refine ⟨slidingRows blockSize alignment x, ?_, hgreatest, fun i hi hlt => ?_, ?_⟩
  · unfold slidingRows
    split_ifs
    · exact hcached
    · exact (hcached.take _).take _
  · exact hrows i ((hneed i _ hlt).mp hi) hlt
  · unfold findSliding
    dsimp only
    rw [slidingLoop_need p hashes gids alignment useEagle hb hw, hloop]
    rfl

theorem slidingSkipped_searched_le (useEagle : Bool) (blockSize window n : ℕ) :
    slidingSkipped (searchedWindow useEagle blockSize window) n ≤ slidingSkipped window n := by
  unfold slidingSkipped searchedWindow
  split_ifs <;> omega

theorem covered_one (hb : 0 < blockSize) (n : ℕ) :
    p.Covered hashes gids blockSize (slidingSkipped 1) n := by
  intro i hi hlt
  rw [slidingSkipped, Nat.add_sub_cancel, Nat.mul_div_cancel n hb] at hi
  omega

theorem covered_two_iff (hb : 0 < blockSize) (n : ℕ) :
    p.Covered hashes gids blockSize (slidingSkipped 2) n ↔
      (n ≠ 0 → (p.hitAt hashes gids (n - 1)).isSome = true) := by
  have hone : cdiv (2 - 1) blockSize = 1 := by
    rw [cdiv, Nat.add_sub_cancel_left, Nat.div_self hb]
  have hneed : ∀ i, i < n → (slidingSkipped 2 (n * blockSize) / blockSize ≤ i ↔ n ≤ i + 1) := by
    intro i hlt
    rw [slidingSkipped_le_iff hb 2 i n hlt, hone]
  constructor
  · intro h hn
    exact h (n - 1) ((hneed (n - 1) (by omega)).mpr (by omega)) (by omega)
  · intro h i hi hlt
    have hle := (hneed i hlt).mp hi
    obtain rfl : i = n - 1 := by omega
    exact h (by omega)

/-- When the search for a sliding window finds the longest hit. One for a drafter gives up a block
of every hit; one for a window of a single token, which needs no block, wants the last one. -/
def SlidingExact (p : BlockPool H) (hashes : List (List H)) (gids : List ℕ)
    (window blockSize maxLength : ℕ) (useEagle : Bool) (alignment : ℕ) : Prop :=
  if useEagle then
    ∀ n, n * blockSize ≤ maxLength → alignment ∣ n * blockSize →
      p.Covered hashes gids blockSize (slidingSkipped window) n → n = 0
  else
    window = 1 → alignedLength blockSize alignment (maxLength / blockSize) ≠ 0 →
      (p.hitAt hashes gids
        (alignedLength blockSize alignment (maxLength / blockSize) - 1)).isSome = true

/-- **Sliding windows**: when the search returns the longest hit. -/
theorem findSliding_iff (hb : 0 < blockSize) {window : ℕ} (hw : 0 < window) (useEagle : Bool)
    (hnull : p.NullUncached) (hhashes : maxLength / blockSize ≤ hashes.length) :
    Returns (p.findSliding window blockSize hashes maxLength gids useEagle alignment)
        (p.LongestHit hashes gids blockSize (slidingSkipped window) alignment maxLength) ↔
      p.SlidingExact hashes gids window blockSize maxLength useEagle alignment := by
  obtain ⟨rows, hcached, hgreatest, hrows, heq⟩ :=
    findSliding_longest p gids alignment useEagle hb hw hhashes
  have hmono := slidingSkipped_searched_le useEagle blockSize window
  have hmem : rows.length * blockSize ≤ maxLength ∧ alignment ∣ rows.length * blockSize ∧
      p.Covered hashes gids blockSize (slidingSkipped window) rows.length :=
    ⟨(Nat.le_div_iff_mul_le hb).mp hgreatest.1.1, hgreatest.1.2.1, hgreatest.1.2.2.mono hmono⟩
  have hhits : ∀ (j g : ℕ), gids[j]? = some g →
      p.WindowHit hashes blockSize (slidingSkipped window) g (p.column rows j) :=
    fun j g hj => windowHit_column hnull hcached
      (fun i hi hlt => hrows i ((Nat.div_le_div_right (hmono _)).trans hi) hlt) hj
  rw [heq]
  cases useEagle with
  | true =>
    by_cases hnil : rows = []
    · rw [if_neg fun h => h.2 hnil, returns_ok]
      subst hnil
      constructor
      · intro h n hle hdvd hcov
        exact Nat.le_zero.mp (h.greatest.2 ⟨hle, hdvd, hcov⟩)
      · intro h
        exact ⟨⟨hmem, fun n hn => (h n hn.1 hn.2.1 hn.2.2).le⟩, hhits⟩
    · -- the whole hit is longer than what is returned
      have hpos : 0 < rows.length := length_pos_iff.mpr hnil
      rw [if_pos ⟨rfl, hnil⟩]
      refine ⟨fun h => ?_, fun h => absurd (h _ hmem.1 hmem.2.1 hmem.2.2) hpos.ne'⟩
      split_ifs at h with halign
      · have hle := (returns_ok.mp h).greatest.2 hmem
        rw [length_dropLast] at hle
        omega
      · exact absurd h returns_error
  | false =>
    rw [SlidingExact, if_neg Bool.false_ne_true, if_neg fun h => Bool.false_ne_true h.1, returns_ok]
    have hlongest := isGreatest_alignedLength blockSize alignment (maxLength / blockSize)
    rcases Nat.eq_or_lt_of_le (Nat.succ_le_of_lt hw) with rfl | hlt
    · constructor
      · intro h _
        have hlen : rows.length = alignedLength blockSize alignment (maxLength / blockSize) := by
          refine le_antisymm (hlongest.2 ⟨hgreatest.1.1, hmem.2.1⟩) (h.greatest.2 ⟨?_, ?_, ?_⟩)
          · exact (Nat.le_div_iff_mul_le hb).mp hlongest.1.1
          · exact hlongest.1.2
          · exact covered_one hb _
        rw [← hlen]
        exact (covered_two_iff hb _).mp hgreatest.1.2.2
      · intro h
        refine ⟨⟨hmem, fun n hn => ?_⟩, hhits⟩
        have hle := hlongest.2 ⟨(Nat.le_div_iff_mul_le hb).mpr hn.1, hn.2.1⟩
        apply hle.trans
        exact hgreatest.2 ⟨hlongest.1.1, hlongest.1.2, (covered_two_iff hb _).mpr (h rfl)⟩
    · have hsame : searchedWindow false blockSize window = window := Nat.max_eq_left hlt
      rw [hsame] at hgreatest
      refine iff_of_true ⟨⟨hmem, fun n hn => ?_⟩, hhits⟩ fun hone => absurd hone (Nat.ne_of_gt hlt)
      exact hgreatest.2 ⟨(Nat.le_div_iff_mul_le hb).mpr hn.1, hn.2⟩

/-! ### Chunks of local attention -/

/-- `ChunkedLocalAttentionManager.get_num_skipped_tokens`. -/
def chunkedSkipped (chunkSize numComputedTokens : ℕ) : ℕ :=
  numComputedTokens / chunkSize * chunkSize

/-- The block with the first token of the chunk that `maxLength` lies in. -/
def startBlock (chunkSize blockSize maxLength : ℕ) : ℕ :=
  maxLength / chunkSize * chunkSize / blockSize

theorem rowsCached_of_forall
    (h : ∀ (k : ℕ) (row : List ℕ), rows[k]? = some row →
      row = List.replicate gids.length p.nullBlock ∨ p.hitAt hashes gids k = some row) :
    p.RowsCached hashes gids rows := by
  intro j g hj k b hb hne
  rw [column, List.getElem?_map, map_eq_some_iff] at hb
  obtain ⟨row, hrow, rfl⟩ := hb
  rcases h k row hrow with rfl | hhit
  · refine absurd ?_ hne
    rw [getD_eq_getElem?_getD, List.getElem?_replicate]
    split_ifs <;> rfl
  · obtain ⟨hash, hhash, hfound⟩ := bind_eq_some_iff.mp hhit
    exact ⟨hash, hhash, mem_of_getCachedBlock (filter_eq_some_iff.mp hfound).1 hj⟩

/-- The search from the left appends hits up to the first block that is missing. -/
theorem chunkedLoop_returns (p : BlockPool H) (hashes : List (List H)) (gids : List ℕ) (n : ℕ)
    (rows : List (List ℕ)) (hle : rows.length + n ≤ hashes.length) :
    Returns (p.chunkedLoop hashes gids n rows.length rows) fun x =>
      rows <+: x ∧ x.length ≤ rows.length + n ∧
        (∀ k, rows.length ≤ k → k < x.length → x[k]? = p.hitAt hashes gids k) ∧
        (x.length < rows.length + n → p.hitAt hashes gids x.length = none) := by
  induction n generalizing rows with
  | zero =>
    exact returns_ok.mpr ⟨prefix_rfl, le_rfl, fun k hk hlt => by omega, fun h => by omega⟩
  | succ n ih =>
    rw [chunkedLoop]
    cases hhash : hashes[rows.length]? with
    | none =>
      rw [List.getElem?_eq_none_iff] at hhash
      omega
    | some hash =>
      dsimp only
      split
      · next b row hrow =>
        have hnext := ih (rows ++ [b :: row])
        rw [length_append, length_singleton] at hnext
        refine (hnext (by omega)).mono fun x ⟨hx, hlen, hhits, hmiss⟩ => ?_
        refine ⟨(prefix_append _ _).trans hx, by omega, fun k hk hlt => ?_, fun h => ?_⟩
        · rcases Nat.eq_or_lt_of_le hk with rfl | hgt
          · obtain ⟨t, rfl⟩ := hx
            rw [hitAt_of_row hhash hrow]
            simp
          · exact hhits k hgt hlt
        · exact hmiss (by omega)
      · next hrow =>
        exact returns_ok.mpr ⟨prefix_rfl, by omega, fun k hk hlt => by omega,
          fun _ => hitAt_of_no_row hhash hrow⟩

section Chunk

variable {chunkSize : ℕ}

theorem startBlock_le (chunkSize blockSize maxLength : ℕ) :
    startBlock chunkSize blockSize maxLength ≤ maxLength / blockSize :=
  Nat.div_le_div_right (Nat.div_mul_le_self _ _)

/-- A length that ends behind the first block of the chunk ends in the chunk. -/
theorem chunkedSkipped_of_lt (hb : 0 < blockSize) (hchunk : 0 < chunkSize) {n : ℕ}
    (hlt : startBlock chunkSize blockSize maxLength < n) (hle : n * blockSize ≤ maxLength) :
    chunkedSkipped chunkSize (n * blockSize) / blockSize =
      startBlock chunkSize blockSize maxLength := by
  have hstart : maxLength / chunkSize * chunkSize ≤ n * blockSize :=
    ((Nat.div_lt_iff_lt_mul hb).mp hlt).le
  have hend : n * blockSize < (maxLength / chunkSize + 1) * chunkSize :=
    hle.trans_lt (Nat.lt_mul_of_div_lt (Nat.lt_succ_self _) hchunk)
  rw [chunkedSkipped, startBlock, Nat.div_eq_of_lt_le hstart hend]

/-- When the search for a chunk finds the longest hit: a length may end where the first block of the
chunk starts, or this block is a hit. -/
def ChunkExact (p : BlockPool H) (hashes : List (List H)) (gids : List ℕ)
    (chunkSize blockSize maxLength : ℕ) : Prop :=
  chunkSize ∣ startBlock chunkSize blockSize maxLength * blockSize ∨
    startBlock chunkSize blockSize maxLength < maxLength / blockSize ∧
      (p.hitAt hashes gids (startBlock chunkSize blockSize maxLength)).isSome = true

/-- The null blocks before the chunk, and the hits up to the first block that is missing. -/
theorem findChunkedLocal_returns (p : BlockPool H) (gids : List ℕ) (chunkSize : ℕ)
    (hhashes : maxLength / blockSize ≤ hashes.length) :
    Returns (p.findChunkedLocal hashes gids blockSize chunkSize maxLength false blockSize) fun x =>
      List.replicate (startBlock chunkSize blockSize maxLength)
          (List.replicate gids.length p.nullBlock) <+: x ∧
        x.length ≤ maxLength / blockSize ∧
        (∀ k, startBlock chunkSize blockSize maxLength ≤ k → k < x.length →
          x[k]? = p.hitAt hashes gids k) ∧
        (x.length < maxLength / blockSize → p.hitAt hashes gids x.length = none) := by
  have hle := startBlock_le chunkSize blockSize maxLength
  have hstart : (if 0 < maxLength then maxLength / chunkSize * chunkSize else 0) / blockSize =
      startBlock chunkSize blockSize maxLength := by
    rw [startBlock]
    split_ifs with hpos
    · rfl
    · obtain rfl : maxLength = 0 := by omega
      simp
  have hloop := chunkedLoop_returns p hashes gids
    (maxLength / blockSize - startBlock chunkSize blockSize maxLength)
    (List.replicate (startBlock chunkSize blockSize maxLength)
      (List.replicate gids.length p.nullBlock))
  rw [length_replicate, Nat.add_sub_cancel' hle] at hloop
  unfold findChunkedLocal
  rw [if_neg Bool.false_ne_true, if_neg fun hne => hne rfl]
  dsimp only
  rw [hstart]
  exact hloop hhashes

/-- **Chunks of local attention**: when the search returns the longest hit. -/
theorem findChunkedLocal_iff (hb : 0 < blockSize) (hchunk : 0 < chunkSize) (hgids : gids ≠ [])
    (hnull : p.NullUncached) (hhashes : maxLength / blockSize ≤ hashes.length) :
    Returns (p.findChunkedLocal hashes gids blockSize chunkSize maxLength false blockSize)
        (p.LongestHit hashes gids blockSize (chunkedSkipped chunkSize) blockSize maxLength) ↔
      p.ChunkExact hashes gids chunkSize blockSize maxLength := by
  obtain ⟨x, hx, hnulls, hlen, hhits, hmiss⟩ :=
    findChunkedLocal_returns p gids chunkSize hhashes
  have hge : startBlock chunkSize blockSize maxLength ≤ x.length := by
    simpa using hnulls.length_le
  have hlater : ∀ n, startBlock chunkSize blockSize maxLength < n → n ≤ maxLength / blockSize →
      chunkedSkipped chunkSize (n * blockSize) / blockSize =
        startBlock chunkSize blockSize maxLength :=
    fun n hlt hle => chunkedSkipped_of_lt hb hchunk hlt ((Nat.le_div_iff_mul_le hb).mp hle)
  rw [hx, returns_ok]
  constructor
  · intro h
    by_contra hnot
    obtain ⟨hdvd, hmissing⟩ := not_or.mp hnot
    -- no hit follows the null blocks, the last of which is in the window
    have heq : x.length = startBlock chunkSize blockSize maxLength := by
      refine le_antisymm (Nat.le_of_not_lt fun hlt => hmissing ⟨hlt.trans_le hlen, ?_⟩) hge
      rw [← hhits _ le_rfl hlt, List.getElem?_eq_getElem hlt]
      rfl
    have hrows := hnulls.eq_of_length (by rw [length_replicate, heq])
    have hpos : 0 < startBlock chunkSize blockSize maxLength := by
      refine Nat.pos_of_ne_zero fun hzero => hdvd ?_
      rw [hzero, Nat.zero_mul]
      exact Nat.dvd_zero _
    obtain ⟨g, hg⟩ : ∃ g, gids[0]? = some g :=
      ⟨_, List.getElem?_eq_getElem (length_pos_iff.mpr hgids)⟩
    have hlt : chunkedSkipped chunkSize (x.length * blockSize) / blockSize < x.length := by
      rw [Nat.div_lt_iff_lt_mul hb, chunkedSkipped, heq]
      refine lt_of_le_of_ne (Nat.div_mul_le_self _ _) fun hmul => hdvd ?_
      exact Dvd.intro_left _ hmul
    have hwindow := (h.hits 0 g hg).covers (x.length - 1)
    rw [column, length_map] at hwindow
    refine hwindow (by omega) ?_
    have hlast : startBlock chunkSize blockSize maxLength - 1 <
        startBlock chunkSize blockSize maxLength := by omega
    rw [heq, ← hrows, map_replicate, List.getElem?_replicate_of_lt hlast,
      getD_eq_getElem?_getD, List.getElem?_replicate_of_lt (length_pos_iff.mpr hgids)]
    rfl
  · intro h
    -- the window of what is found starts where the search did
    have hlo : chunkedSkipped chunkSize (x.length * blockSize) / blockSize =
        startBlock chunkSize blockSize maxLength := by
      rcases Nat.eq_or_lt_of_le hge with heq | hlt
      · rcases h with hdvd | ⟨hlt, hsome⟩
        · rw [← heq, chunkedSkipped, Nat.div_mul_cancel hdvd, Nat.mul_div_cancel _ hb]
        · rw [heq] at hlt hsome
          rw [hmiss hlt] at hsome
          cases hsome
      · exact hlater x.length hlt hlen
    refine ⟨⟨⟨(Nat.le_div_iff_mul_le hb).mp hlen, Nat.dvd_mul_left _ _, ?_⟩, ?_⟩, ?_⟩
    · intro k hk hlt
      rw [hlo] at hk
      rw [← hhits k hk hlt, List.getElem?_eq_getElem hlt]
      rfl
    · -- a longer hit would have the block that is missing
      intro n hn
      by_contra hgt
      have hlt : x.length < n := Nat.lt_of_not_le hgt
      have hle := (Nat.le_div_iff_mul_le hb).mpr hn.1
      have hfound := hn.2.2 x.length ((hlater n (by omega) hle).trans_le hge) hlt
      rw [hmiss (by omega)] at hfound
      cases hfound
    · intro j g hj
      refine windowHit_column hnull (rowsCached_of_forall fun k row hrow => ?_)
        (fun i hi hlt => hhits i (hlo ▸ hi) hlt) hj
      rcases Nat.lt_or_ge k (startBlock chunkSize blockSize maxLength) with hlt | hge'
      · left
        obtain ⟨t, rfl⟩ := hnulls
        rw [List.getElem?_append_left (by simpa using hlt),
          List.getElem?_replicate_of_lt hlt] at hrow
        exact (Option.some.inj hrow).symm
      · right
        rw [← hhits k hge' (List.getElem?_eq_some_iff.mp hrow).1, hrow]

end Chunk

/-- **The lookup of a window**: when the searches for a sliding window and for a chunk of local
attention return blocks that cover the window of the next token, and the longest such hit. -/
theorem windowed_longest_iff (hb : 0 < blockSize) (hgids : gids ≠ []) (hnull : p.NullUncached)
    (hhashes : maxLength / blockSize ≤ hashes.length) :
    (∀ (window : ℕ) (useEagle : Bool) (alignment : ℕ), 0 < window →
      (Returns (p.findSliding window blockSize hashes maxLength gids useEagle alignment)
          (p.LongestHit hashes gids blockSize (slidingSkipped window) alignment maxLength) ↔
        p.SlidingExact hashes gids window blockSize maxLength useEagle alignment)) ∧
    ∀ chunkSize : ℕ, 0 < chunkSize →
      (Returns (p.findChunkedLocal hashes gids blockSize chunkSize maxLength false blockSize)
          (p.LongestHit hashes gids blockSize (chunkedSkipped chunkSize) blockSize maxLength) ↔
        p.ChunkExact hashes gids chunkSize blockSize maxLength) := by
  constructor
  · intro window useEagle alignment hw
    exact findSliding_iff hb hw useEagle hnull hhashes
  · intro chunkSize hchunk
    exact findChunkedLocal_iff hb hchunk hgids hnull hhashes

/-- A pool in which two groups have the blocks of three hashes. -/
def warmPool : BlockPool ℕ where
  numGpuBlocks := 7
  enableCaching := true
  hashBlockSize := 4
  blocks := fun b => { isNull := decide (b = 0) }
  freeBlockQueue := FreeKVCacheBlockQueue.new 7
  cachedBlockHashToBlock := fun k =>
    if k.1.sum < 3 ∧ k.2 < 2 then [2 * k.1.sum + k.2 + 1] else []
  nullBlock := 0

theorem nullUncached_warmPool : warmPool.NullUncached := by
  intro k
  simp only [warmPool]
  split_ifs <;> simp

/-- With three blocks stored both searches find all three: for a window of five tokens, and for a
chunk of eight. -/
theorem windowed_longest_of_warmPool :
    Returns (warmPool.findSliding 5 4 [[0], [1], [2]] 12 [0] false 4)
      (warmPool.LongestHit [[0], [1], [2]] [0] 4 (slidingSkipped 5) 4 12) ∧
    Returns (warmPool.findChunkedLocal [[0], [1], [2]] [0] 4 8 12 false 4)
      (warmPool.LongestHit [[0], [1], [2]] [0] 4 (chunkedSkipped 8) 4 12) := by
  constructor
  · exact ((windowed_longest_iff (by decide) (by decide) nullUncached_warmPool (by decide)).1
      5 false 4 (by decide)).mpr nofun
  · exact ((windowed_longest_iff (by decide) (by decide) nullUncached_warmPool (by decide)).2
      8 (by decide)).mpr (Or.inr (by decide))

/-- Chunks of six tokens in blocks of four: of two blocks that are not stored, the search returns
the first one as computed, and the next token needs it. And a window of one token needs no block,
but the search does not return the one it is asked for. -/
theorem first_block_of_chunk_missed : ∃ p : BlockPool ℕ, BlockPool.new 3 true 4 = .ok p ∧
    p.findChunkedLocal [[10], [11]] [0] 4 6 8 false 4 = .ok [[p.nullBlock]] ∧
    ¬Returns (p.findChunkedLocal [[10], [11]] [0] 4 6 8 false 4)
      (p.LongestHit [[10], [11]] [0] 4 (chunkedSkipped 6) 4 8) ∧
    p.findSliding 1 4 [[10]] 4 [0] false 4 = .ok [] ∧
    ¬Returns (p.findSliding 1 4 [[10]] 4 [0] false 4)
      (p.LongestHit [[10]] [0] 4 (slidingSkipped 1) 4 4) := by
  refine ⟨_, rfl, rfl, ?_, rfl, ?_⟩
  · rintro ⟨x, hx, h⟩
    cases hx
    exact (h.hits 0 0 rfl).covers 0 (by decide) rfl
  · rintro ⟨x, hx, h⟩
    cases hx
    exact absurd (h.greatest.2 ⟨le_rfl, dvd_rfl, covered_one (by decide) 1⟩) (by decide)

end BlockPool

end CacheFlow
