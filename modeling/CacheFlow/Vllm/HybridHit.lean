import Mathlib.Order.Lattice.Nat
import CacheFlow.Vllm.WindowHit

/-!
# The lookup of the hybrid coordinator

With several kinds of attention a hit is a number of tokens that is good for every group. The
coordinator asks the managers in turn, each of which may shorten the candidate, until none does.
A length that is good for all groups is never lost on the way, so that the search ends with the
longest one, up to windows of one token.

With a drafter each manager lowers what it finds by one block. A sliding window is looked up again
in every pass, so that it never accepts the candidate: the search goes on until nothing is left.

## Main definitions

* `BlockPool.HybridHit` — what the lookup should return.

## Main results

* `BlockPool.hybrid_hit_iff` — when the lookup returns the longest hit.
-/

namespace CacheFlow

open List KVCacheSpec BlockPool

/-- The tokens before the window that is looked for. -/
def KVCacheSpec.searchedSkipped (useEagle : Bool) (spec : KVCacheSpec) (numComputedTokens : ℕ) :
    ℕ :=
  match spec.kind with
  | .full => 0
  | .slidingWindow w =>
    slidingSkipped (searchedWindow useEagle spec.blockSize w) numComputedTokens

section Skipped

variable {spec : KVCacheSpec} {useEagle : Bool} {w : ℕ}

theorem KVCacheSpec.getNumSkippedTokens_full (h : spec.kind = .full) :
    spec.getNumSkippedTokens = fun _ => 0 := by
  funext n
  simp only [getNumSkippedTokens, h]

theorem KVCacheSpec.getNumSkippedTokens_sliding (h : spec.kind = .slidingWindow w) :
    spec.getNumSkippedTokens = slidingSkipped w := by
  funext n
  simp only [getNumSkippedTokens, h, slidingSkipped]

theorem KVCacheSpec.searchedSkipped_full (h : spec.kind = .full) :
    spec.searchedSkipped useEagle = fun _ => 0 := by
  funext n
  simp only [searchedSkipped, h]

theorem KVCacheSpec.searchedSkipped_sliding (h : spec.kind = .slidingWindow w) :
    spec.searchedSkipped useEagle =
      slidingSkipped (searchedWindow useEagle spec.blockSize w) := by
  funext n
  simp only [searchedSkipped, h]

theorem KVCacheSpec.skipped_le (spec : KVCacheSpec) (n : ℕ) :
    spec.searchedSkipped false n ≤ spec.getNumSkippedTokens n := by
  cases hkind : spec.kind with
  | full => rw [spec.searchedSkipped_full hkind, spec.getNumSkippedTokens_full hkind]
  | slidingWindow w =>
    rw [spec.searchedSkipped_sliding hkind, spec.getNumSkippedTokens_sliding hkind]
    exact slidingSkipped_searched_le false spec.blockSize w n

end Skipped

namespace BlockPool

variable {H : Type}

/-! ### One lookup -/

section Lookup

variable {p : BlockPool H} {hashes : List (List H)} {gids : List ℕ} {blockSize : ℕ}
  {skipped : ℕ → ℕ} {maxLength : ℕ}

/-- The rows from the left are hits, and behind them is none. -/
theorem hitRows_getElem? (p : BlockPool H) (gids : List ℕ) {hashes : List (List H)} {i : ℕ}
    (hi : i ≤ (p.hitRows gids hashes).length) :
    (p.hitRows gids hashes)[i]? = p.hitAt hashes gids i := by
  induction hashes generalizing i with
  | nil =>
    rfl
  | cons h hashes ih =>
    rw [hitRows] at hi ⊢
    split at hi
    · next b row hrow =>
      cases i with
      | zero => exact (hitAt_of_row rfl hrow).symm
      | succ i => exact ih (Nat.le_of_succ_le_succ hi)
    · next hrow =>
      obtain rfl : i = 0 := Nat.le_zero.mp hi
      exact (hitAt_of_no_row rfl hrow).symm

theorem hitAt_take {n i : ℕ} (h : i < n) :
    p.hitAt (hashes.take n) gids i = p.hitAt hashes gids i := by
  rw [hitAt, List.getElem?_take_of_lt h, hitAt]

/-- For full attention as many blocks are covered as there are rows from the left. -/
theorem covered_full_iff {n m : ℕ} (hn : n ≤ m) : p.Covered hashes gids blockSize (fun _ => 0) n ↔
    n ≤ (p.hitRows gids (hashes.take m)).length := by
  constructor
  · intro h
    by_contra hlt
    rw [not_le] at hlt
    -- the first miss comes before the end
    have hfound := h _ (by simp) hlt
    rw [← hitAt_take (hlt.trans_le hn), ← hitRows_getElem? p gids le_rfl,
      List.getElem?_eq_none le_rfl] at hfound
    cases hfound
  · intro h i _ hi
    rw [← hitAt_take (hi.trans_le hn), ← hitRows_getElem? p gids (hi.trans_le h).le,
      List.getElem?_eq_getElem (hi.trans_le h)]
    rfl

theorem findFull_longest (p : BlockPool H) (gids : List ℕ) (alignment : ℕ)
    (hhashes : maxLength / blockSize ≤ hashes.length) :
    IsGreatest {n | n ≤ maxLength / blockSize ∧ alignment ∣ n * blockSize ∧
        p.Covered hashes gids blockSize (fun _ => 0) n}
      (p.findFull blockSize hashes maxLength gids false alignment).length ∧
    ∀ i, i < (p.findFull blockSize hashes maxLength gids false alignment).length →
      (p.findFull blockSize hashes maxLength gids false alignment)[i]? =
        p.hitAt hashes gids i := by
  have hlen := length_hitRows_le p gids (hashes.take (maxLength / blockSize))
  rw [length_take, Nat.min_eq_left hhashes] at hlen
  have hgreatest := isGreatest_alignedLength blockSize alignment
    (p.hitRows gids (hashes.take (maxLength / blockSize))).length
  have heq : p.findFull blockSize hashes maxLength gids false alignment =
      (p.hitRows gids (hashes.take (maxLength / blockSize))).take (alignedLength blockSize alignment
        (p.hitRows gids (hashes.take (maxLength / blockSize))).length) := rfl
  rw [heq, length_take, Nat.min_eq_left hgreatest.1.1]
  refine ⟨⟨⟨hgreatest.1.1.trans hlen, hgreatest.1.2, ?_⟩, fun n hn => ?_⟩, fun i hi => ?_⟩
  · exact (covered_full_iff (hgreatest.1.1.trans hlen)).mpr hgreatest.1.1
  · exact hgreatest.2 ⟨(covered_full_iff hn.1).mp hn.2.2, hn.2.1⟩
  · have hlt := hi.trans_le hgreatest.1.1
    rw [List.getElem?_take_of_lt hi, hitRows_getElem? p gids hlt.le, hitAt_take (hlt.trans_le hlen)]

variable {spec : KVCacheSpec}

/-- **One lookup** returns the longest hit for the window that is looked for, and it is a hit for
each group. -/
theorem findLongestCacheHit_longest (hnull : p.NullUncached) (alignment : ℕ)
    (hhashes : maxLength / spec.blockSize ≤ hashes.length) :
    Ensures (p.findLongestCacheHit spec hashes maxLength gids false alignment) fun rows =>
      IsGreatest {n | n ≤ maxLength / spec.blockSize ∧ alignment ∣ n * spec.blockSize ∧
        p.Covered hashes gids spec.blockSize (spec.searchedSkipped false) n} rows.length ∧
      ∀ (j g : ℕ), gids[j]? = some g →
        p.WindowHit hashes spec.blockSize (spec.searchedSkipped false) g (p.column rows j) := by
  unfold findLongestCacheHit
  cases hkind : spec.kind with
  | full =>
    rw [searchedSkipped_full hkind]
    obtain ⟨hgreatest, hrows⟩ := findFull_longest p gids alignment hhashes
    exact ensures_ok.mpr ⟨hgreatest, fun j g hj =>
      windowHit_column hnull findFull_spec.1 (fun i _ hi => hrows i hi) hj⟩
  | slidingWindow w =>
    rw [searchedSkipped_sliding hkind]
    obtain ⟨rows, hcached, hgreatest, hrows, heq⟩ := findSliding_longest p gids alignment false
      spec.blockSize_pos (spec.window_pos w hkind) hhashes
    dsimp only
    rw [heq, if_neg fun h => Bool.false_ne_true h.1]
    exact ensures_ok.mpr ⟨hgreatest, fun j g hj => windowHit_column hnull hcached hrows hj⟩

/-- With a drafter, a lookup for full attention or aligned blocks finds one block more than it
returns, and returns the longest such hit. -/
theorem findLongestCacheHit_drafter (p : BlockPool H) (gids : List ℕ) {alignment : ℕ}
    (hfits : spec.kind = .full ∨ spec.blockSize = alignment)
    (hhashes : maxLength / spec.blockSize ≤ hashes.length) :
    Returns (p.findLongestCacheHit spec hashes maxLength gids true alignment) fun rows =>
      (rows ≠ [] → rows.length < maxLength / spec.blockSize ∧
        alignment ∣ rows.length * spec.blockSize ∧
        p.Covered hashes gids spec.blockSize (spec.searchedSkipped true) (rows.length + 1)) ∧
      ∀ n < maxLength / spec.blockSize, alignment ∣ n * spec.blockSize →
        p.Covered hashes gids spec.blockSize (spec.searchedSkipped true) (n + 1) →
        n ≤ rows.length := by
  unfold findLongestCacheHit
  cases hkind : spec.kind with
  | full =>
    rw [searchedSkipped_full hkind]
    have hlen := length_hitRows_le p gids (hashes.take (maxLength / spec.blockSize))
    rw [length_take, Nat.min_eq_left hhashes] at hlen
    have hgreatest := isGreatest_alignedLength spec.blockSize alignment
      ((p.hitRows gids (hashes.take (maxLength / spec.blockSize))).length - 1)
    have hrows : (p.findFull spec.blockSize hashes maxLength gids true alignment).length =
        alignedLength spec.blockSize alignment
          ((p.hitRows gids (hashes.take (maxLength / spec.blockSize))).length - 1) := by
      simp only [findFull, if_true, length_take, length_dropLast]
      exact Nat.min_eq_left hgreatest.1.1
    refine returns_ok.mpr ⟨fun hne => ?_, fun n hn hdvd hcov => ?_⟩
    · have hpos := length_pos_iff.mpr hne
      rw [hrows] at hpos ⊢
      have hle := hgreatest.1.1
      exact ⟨by omega, hgreatest.1.2,
        (covered_full_iff (m := maxLength / spec.blockSize) (by omega)).mpr (by omega)⟩
    · have hle := (covered_full_iff hn).mp hcov
      rw [hrows]
      exact hgreatest.2 ⟨by omega, hdvd⟩
  | slidingWindow w =>
    obtain rfl := hfits.resolve_left (by rw [hkind]; nofun)
    rw [searchedSkipped_sliding hkind]
    obtain ⟨rows, -, hgreatest, -, heq⟩ := findSliding_longest p gids spec.blockSize true
      spec.blockSize_pos (spec.window_pos w hkind) hhashes
    dsimp only
    rw [heq]
    by_cases hnil : rows = []
    · rw [if_neg fun h => h.2 hnil, returns_ok]
      refine ⟨fun hne => absurd hnil hne, fun n hn _ hcov => ?_⟩
      have hle := hgreatest.2 ⟨hn, Nat.dvd_mul_left _ _, hcov⟩
      omega
    · -- the last block is taken off again
      have hpos := length_pos_iff.mpr hnil
      have hle := hgreatest.1.1
      rw [if_pos ⟨rfl, hnil⟩, if_pos rfl, returns_ok, length_dropLast, Nat.sub_add_cancel hpos]
      refine ⟨fun _ => ⟨by omega, Nat.dvd_mul_left _ _, hgreatest.1.2.2⟩, fun n hn _ hcov => ?_⟩
      exact Nat.le_sub_one_of_lt (hgreatest.2 ⟨hn, Nat.dvd_mul_left _ _, hcov⟩)

/-- A lookup for a sliding window whose blocks are not aligned raises if there is a hit. -/
theorem findLongestCacheHit_misfit (p : BlockPool H) (gids : List ℕ) {alignment : ℕ}
    (hfits : ¬(spec.kind = .full ∨ spec.blockSize = alignment))
    (hhashes : maxLength / spec.blockSize ≤ hashes.length) :
    (∃ n, alignment ∣ n * spec.blockSize ∧ 0 < n ∧ n ≤ maxLength / spec.blockSize ∧
        p.Covered hashes gids spec.blockSize (spec.searchedSkipped true) n) ∧
      p.findLongestCacheHit spec hashes maxLength gids true alignment = .error .assertionError ∨
    (¬∃ n, alignment ∣ n * spec.blockSize ∧ 0 < n ∧ n ≤ maxLength / spec.blockSize ∧
        p.Covered hashes gids spec.blockSize (spec.searchedSkipped true) n) ∧
      p.findLongestCacheHit spec hashes maxLength gids true alignment = .ok [] := by
  rw [not_or] at hfits
  unfold findLongestCacheHit
  cases hkind : spec.kind with
  | full => exact absurd hkind hfits.1
  | slidingWindow w =>
    rw [searchedSkipped_sliding hkind]
    obtain ⟨rows, -, hgreatest, -, heq⟩ := findSliding_longest p gids alignment true
      spec.blockSize_pos (spec.window_pos w hkind) hhashes
    dsimp only
    rw [heq]
    by_cases hnil : rows = []
    · refine Or.inr ⟨?_, by rw [if_neg fun h => h.2 hnil, hnil]⟩
      rintro ⟨n, hdvd, hpos, hle, hcov⟩
      have hzero := hgreatest.2 ⟨hle, hdvd, hcov⟩
      rw [hnil, length_nil] at hzero
      omega
    · -- the blocks are not aligned, which the source asserts
      refine Or.inl ⟨⟨rows.length, hgreatest.1.2.1, length_pos_iff.mpr hnil, hgreatest.1.1,
        hgreatest.1.2.2⟩, ?_⟩
      rw [if_pos ⟨rfl, hnil⟩, if_neg hfits.2]

/-- The window that is looked for is the window, or has one block more than a window of one token
needs. -/
theorem covered_searched_iff {n : ℕ} : p.Covered hashes gids spec.blockSize (spec.searchedSkipped false) n ↔
      p.Covered hashes gids spec.blockSize spec.getNumSkippedTokens n ∧
        (spec.kind = .slidingWindow 1 → n ≠ 0 → (p.hitAt hashes gids (n - 1)).isSome = true) := by
  cases hkind : spec.kind with
  | full =>
    rw [searchedSkipped_full hkind, getNumSkippedTokens_full hkind]
    exact (and_iff_left nofun).symm
  | slidingWindow w =>
    rw [searchedSkipped_sliding hkind, getNumSkippedTokens_sliding hkind]
    rcases Nat.eq_or_lt_of_le (Nat.succ_le_of_lt (spec.window_pos w hkind)) with rfl | hlt
    · rw [and_iff_right (covered_one spec.blockSize_pos n), forall_prop_of_true rfl]
      exact covered_two_iff spec.blockSize_pos n
    · have hsame : searchedWindow false spec.blockSize w = w := Nat.max_eq_left hlt
      rw [hsame]
      refine (and_iff_left fun hone => ?_).symm
      cases hone
      exact absurd hlt (Nat.lt_irrefl _)

theorem getCachedBlock_eq_some {h : List H} {gids : List ℕ}
    (hall : (∀ g ∈ gids, p.cachedBlockHashToBlock (h, g) ≠ [])) :
    ∃ row, p.getCachedBlock h gids = some row ∧ row.length = gids.length := by
  induction gids with
  | nil => exact ⟨[], rfl, rfl⟩
  | cons g gids ih =>
    obtain ⟨b, rest, hb⟩ := exists_cons_of_ne_nil (hall g mem_cons_self)
    obtain ⟨row, hrow, hlen⟩ := ih fun g' hg' => hall g' (mem_cons_of_mem g hg')
    refine ⟨b :: row, ?_, by rw [length_cons, length_cons, hlen]⟩
    rw [getCachedBlock, mapM_cons, getOneBlock, hb, ← getCachedBlock, hrow]
    rfl

theorem hitAt_isSome_iff {i : ℕ} (hgids : gids ≠ []) :
    (p.hitAt hashes gids i).isSome = true ↔
      ∃ h, hashes[i]? = some h ∧ ∀ g ∈ gids, p.cachedBlockHashToBlock (h, g) ≠ [] := by
  constructor
  · intro hsome
    obtain ⟨row, hrow⟩ := Option.isSome_iff_exists.mp hsome
    obtain ⟨h, hh, hfound⟩ := Option.bind_eq_some_iff.mp hrow
    refine ⟨h, hh, fun g hg => ?_⟩
    obtain ⟨j, hj⟩ := List.getElem?_of_mem hg
    exact ne_nil_of_mem (mem_of_getCachedBlock (Option.filter_eq_some_iff.mp hfound).1 hj)
  · rintro ⟨h, hh, hall⟩
    obtain ⟨row, hrow, hlen⟩ := getCachedBlock_eq_some hall
    have hne : row ≠ [] := by
      rw [← length_pos_iff, hlen]
      exact length_pos_iff.mpr hgids
    simp [hitAt, hh, hrow, hne]

/-- Groups that each have their window covered have it covered together. -/
theorem covered_of_forall {n : ℕ} (hgids : gids ≠ [])
    (h : ∀ g ∈ gids, p.Covered hashes [g] blockSize skipped n) :
    p.Covered hashes gids blockSize skipped n := by
  intro i hi hlt
  obtain ⟨g₀, hg₀⟩ := exists_mem_of_ne_nil gids hgids
  obtain ⟨hash, hhash, -⟩ := (hitAt_isSome_iff (by simp)).mp (h g₀ hg₀ i hi hlt)
  refine (hitAt_isSome_iff hgids).mpr ⟨hash, hhash, fun g hg => ?_⟩
  obtain ⟨hash', hhash', hall⟩ := (hitAt_isSome_iff (by simp)).mp (h g hg i hi hlt)
  cases hhash.symm.trans hhash'
  exact hall g (by simp)

variable {blocks : List ℕ}

theorem WindowHit.covered {g : ℕ} (h : p.WindowHit hashes blockSize skipped g blocks) :
    p.Covered hashes [g] blockSize skipped blocks.length := by
  intro i hi hlt
  have hb := List.getElem?_eq_getElem hlt
  have hne : blocks[i] ≠ p.nullBlock := by
    intro heq
    exact h.covers i hi (by rw [hb, heq])
  obtain ⟨hash, hhash, hmem⟩ := h.cached i blocks[i] hb hne
  refine (hitAt_isSome_iff (by simp)).mpr ⟨hash, hhash, fun g' hg' => ?_⟩
  rw [mem_singleton.mp hg']
  exact ne_nil_of_mem hmem

theorem WindowHit.mono {skipped' : ℕ → ℕ} {g : ℕ}
    (h : p.WindowHit hashes blockSize skipped' g blocks) (hle : ∀ n, skipped' n ≤ skipped n) :
    p.WindowHit hashes blockSize skipped g blocks :=
  ⟨h.cached, fun i hi => h.covers i ((Nat.div_le_div_right (hle _)).trans hi)⟩

/-- A hit for full attention may be cut. -/
theorem WindowHit.take {g : ℕ} (h : p.WindowHit hashes blockSize (fun _ => 0) g blocks) (n : ℕ) :
    p.WindowHit hashes blockSize (fun _ => 0) g (blocks.take n) := by
  refine ⟨h.cached.take n, fun i hi hb => ?_⟩
  rw [List.getElem?_take] at hb
  split_ifs at hb
  exact h.covers i (by simp) hb

end Lookup

/-! ### Lengths that are good for every group -/

/-- A length that is good for every group, the tokens before the window given. -/
structure CommonHit (p : BlockPool H) (specs : List KVCacheSpec) (blockHashes : List H)
    (maxLength : ℕ) (skipped : KVCacheSpec → ℕ → ℕ) (length : ℕ) : Prop where
  le : length ≤ maxLength
  dvd : lcmBlockSize (splitKvCacheGroups specs) ∣ length
  /-- The blocks of the attended tokens are cached. -/
  covered : ∀ g spec, specs[g]? = some spec →
    p.Covered (regroup blockHashes (spec.blockSize / p.hashBlockSize)) [g] spec.blockSize
      (skipped spec) (length / spec.blockSize)

/-- What the lookup should return: the longest length that is good for every group, for a drafter
lowered by a block, and the blocks. -/
structure HybridHit (p : BlockPool H) (specs : List KVCacheSpec) (useEagle : Bool)
    (blockHashes : List H) (maxLength : ℕ) (x : List (List ℕ) × ℕ) : Prop where
  dvd : lcmBlockSize (splitKvCacheGroups specs) ∣ x.2
  le : x.2 ≤ maxLength
  /-- The blocks of each group. -/
  blocks : ∀ g spec, specs[g]? = some spec → ∃ blocks, x.1[g]? = some blocks ∧
    blocks.length = x.2 / spec.blockSize ∧
    p.WindowHit (regroup blockHashes (spec.blockSize / p.hashBlockSize)) spec.blockSize
      spec.getNumSkippedTokens g blocks
  longest : ∃ length, IsGreatest {l | p.CommonHit specs blockHashes maxLength
      getNumSkippedTokens l} length ∧
    x.2 = if useEagle then length - lcmBlockSize (splitKvCacheGroups specs) else length

/-- With a drafter each group leaves, of the length it is asked for, a multiple of the common block
size that lies a block before a hit of its own. The lookup raises if a sliding window whose blocks
are smaller than the common ones is asked for a length within which it has a hit. -/
def DrafterRaises (p : BlockPool H) (blockHashes : List H) (alignment : ℕ) :
    List (KVCacheSpec × List ℕ) → ℕ → Prop
  | [], _ => False
  | group :: groups, length =>
    ∃ n, alignment ∣ n * group.1.blockSize ∧
      if group.1.kind = .full ∨ group.1.blockSize = alignment then
        n < length / group.1.blockSize ∧
        p.Covered (regroup blockHashes (group.1.blockSize / p.hashBlockSize)) group.2
          group.1.blockSize (group.1.searchedSkipped true) (n + 1) ∧
        p.DrafterRaises blockHashes alignment groups (n * group.1.blockSize)
      else 0 < n ∧ n ≤ length / group.1.blockSize ∧
        p.Covered (regroup blockHashes (group.1.blockSize / p.hashBlockSize)) group.2
          group.1.blockSize (group.1.searchedSkipped true) n

section Raises

variable {p : BlockPool H} {blockHashes : List H} {alignment : ℕ}

theorem not_drafterRaises_zero (groups : List (KVCacheSpec × List ℕ)) :
    ¬p.DrafterRaises blockHashes alignment groups 0 := by
  cases groups with
  | nil => exact id
  | cons group groups =>
    rintro ⟨n, -, h⟩
    rw [Nat.zero_div] at h
    split_ifs at h <;> omega

theorem DrafterRaises.mono {groups : List (KVCacheSpec × List ℕ)} {c c' : ℕ}
    (h : p.DrafterRaises blockHashes alignment groups c) (hle : c ≤ c') :
    p.DrafterRaises blockHashes alignment groups c' := by
  cases groups with
  | nil => exact h
  | cons group groups =>
    obtain ⟨n, hdvd, h⟩ := h
    have hdiv : c / group.1.blockSize ≤ c' / group.1.blockSize := Nat.div_le_div_right hle
    refine ⟨n, hdvd, ?_⟩
    split_ifs at h ⊢
    · exact ⟨h.1.trans_le hdiv, h.2⟩
    · exact ⟨h.1, h.2.1.trans hdiv, h.2.2⟩

end Raises

theorem dvd_lcmBlockSize {groups : List (KVCacheSpec × List ℕ)} {group : KVCacheSpec × List ℕ}
    (h : group ∈ groups) : group.1.blockSize ∣ lcmBlockSize groups := by
  induction groups with
  | nil => cases h
  | cons head groups ih =>
    rcases mem_cons.mp h with rfl | h
    · exact Nat.dvd_lcm_left _ _
    · exact (ih h).trans (Nat.dvd_lcm_right _ _)

theorem lcmBlockSize_dvd {groups : List (KVCacheSpec × List ℕ)} {n : ℕ}
    (h : ∀ group ∈ groups, group.1.blockSize ∣ n) : lcmBlockSize groups ∣ n := by
  induction groups with
  | nil => exact Nat.one_dvd n
  | cons head groups ih =>
    exact Nat.lcm_dvd (h head mem_cons_self) (ih fun group hg =>
      h group (mem_cons_of_mem head hg))

theorem CommonHit.mul_div {p : BlockPool H} {specs : List KVCacheSpec} {blockHashes : List H}
    {maxLength : ℕ} {skipped : KVCacheSpec → ℕ → ℕ} {l : ℕ}
    (hl : p.CommonHit specs blockHashes maxLength skipped l) {group : KVCacheSpec × List ℕ}
    (hgroup : group ∈ splitKvCacheGroups specs) :
    l / group.1.blockSize * group.1.blockSize = l :=
  Nat.div_mul_cancel ((dvd_lcmBlockSize hgroup).trans hl.dvd)

/-- The state of the search without a drafter: no length that is good for every group is lost, and
the blocks that were found are hits. -/
structure Searching (p : BlockPool H) (specs : List KVCacheSpec) (blockHashes : List H)
    (maxLength : ℕ) (x : ℕ × (ℕ → Option (List ℕ))) : Prop where
  le : x.1 ≤ maxLength
  upper : ∀ l, p.CommonHit specs blockHashes maxLength (searchedSkipped false) l → l ≤ x.1
  window : ∀ g spec blocks, specs[g]? = some spec → x.2 g = some blocks →
    p.WindowHit (regroup blockHashes (spec.blockSize / p.hashBlockSize)) spec.blockSize
      (spec.searchedSkipped false) g blocks

section Search

variable {p : BlockPool H} {specs : List KVCacheSpec} {blockHashes : List H} {useEagle : Bool}
  {maxLength : ℕ} {e : Bool}
  (hset : p.HybridSetup specs (splitKvCacheGroups specs) blockHashes e maxLength)

include hset

theorem Searching.round (hnull : p.NullUncached) {x : ℕ × (ℕ → Option (List ℕ))}
    (h : p.Searching specs blockHashes maxLength x) {group : KVCacheSpec × List ℕ}
    (hgroup : group ∈ splitKvCacheGroups specs) :
    Ensures (p.hybridRound blockHashes false (lcmBlockSize (splitKvCacheGroups specs)) x group)
      fun y => p.Searching specs blockHashes maxLength y ∧ y.1 ≤ x.1 := by
  obtain ⟨c, found⟩ := x
  intro y hy
  rcases hybridRound_cases hset hgroup hy with
    ⟨hfull, -, hlen, hfound⟩ | ⟨rows, hrows, hlen, hfound⟩
  · -- full attention: what was found before is cut
    have hle : y.1 ≤ c := hlen.trans_le (Nat.div_mul_le_self _ _)
    refine ⟨⟨hle.trans h.le, fun l hl => ?_, fun g spec blocks hspec hg => ?_⟩, hle⟩
    · rw [hlen, ← hl.mul_div hgroup]
      exact Nat.mul_le_mul_right _ (Nat.div_le_div_right (h.upper l hl))
    · rw [hfound] at hg
      split_ifs at hg with hmem
      · cases hspec.symm.trans (hset.split.spec_eq group hgroup g hmem)
        obtain ⟨blocks', hg', rfl⟩ := Option.map_eq_some_iff.mp hg
        have hwindow := h.window g _ blocks' hspec hg'
        rw [searchedSkipped_full hfull] at hwindow ⊢
        exact hwindow.take _
      · exact h.window g spec blocks hspec hg
  · -- a lookup finds the longest hit up to the candidate
    obtain ⟨hgreatest, hwindow⟩ := findLongestCacheHit_longest hnull _
      (hset.le_length hgroup h.le) rows hrows
    have hle : y.1 ≤ c := by
      rw [hlen]
      exact (Nat.le_div_iff_mul_le group.1.blockSize_pos).mp hgreatest.1.1
    refine ⟨⟨hle.trans h.le, fun l hl => ?_, fun g spec blocks hspec hg => ?_⟩, hle⟩
    · rw [hlen, ← hl.mul_div hgroup]
      refine Nat.mul_le_mul_right _ (hgreatest.2 ⟨Nat.div_le_div_right (h.upper l hl), ?_, ?_⟩)
      · rw [hl.mul_div hgroup]
        exact hl.dvd
      · exact covered_of_forall (hset.split.nonempty group hgroup) fun g hg =>
          hl.covered g group.1 (hset.split.spec_eq group hgroup g hg)
    · rw [hfound] at hg
      cases hidx : group.2.idxOf? g with
      | none =>
        rw [hidx] at hg
        exact h.window g spec blocks hspec hg
      | some j =>
        rw [hidx] at hg
        cases hg
        obtain ⟨hj, hget, -⟩ := List.idxOf?_eq_some_iff.mp hidx
        have hids : group.2[j]? = some g := List.getElem?_eq_some_iff.mpr ⟨hj, hget⟩
        cases hspec.symm.trans
          (hset.split.spec_eq group hgroup g (mem_of_getElem? hids))
        exact hwindow j g hids

/-- **Without a drafter** no length that is good for every group is lost. -/
theorem hybridLoop_longest (hnull : p.NullUncached) :
    Ensures (p.hybridLoop blockHashes false (splitKvCacheGroups specs) maxLength fun _ => none)
      (p.Searching specs blockHashes maxLength) := by
  refine hybridLoop_rule (I := p.Searching specs blockHashes maxLength) ?_ maxLength _
    ⟨le_rfl, fun l hl => hl.le, fun g spec blocks _ hg => by cases hg⟩
  intro c found h
  have hpass : Ensures ((splitKvCacheGroups specs).foldlM (p.hybridRound blockHashes false
      (lcmBlockSize (splitKvCacheGroups specs))) (c, found)) fun x =>
      p.Searching specs blockHashes maxLength x ∧ x.1 ≤ c := by
    refine ensures_foldlM (I := fun _ x => p.Searching specs blockHashes maxLength x ∧ x.1 ≤ c)
      _ (c, found) ?_ ⟨h, le_rfl⟩
    rintro done group todo x hsplit ⟨hx, hle⟩
    have hgroup : group ∈ splitKvCacheGroups specs := by
      rw [hsplit]
      exact mem_append_right done mem_cons_self
    exact (hx.round hset hnull hgroup).mono fun y hy => ⟨hy.1, hy.2.trans hle⟩
  refine hpass.mono fun x hx => ⟨hx.1, fun hlt => ?_⟩
  obtain rfl : x.1 = c := Nat.le_antisymm hx.2 (Nat.not_lt.mp hlt)
  exact hx.1

/-- With a drafter a sliding window does not accept the length it is asked for. -/
theorem hybridRound_eagle {c alignment : ℕ} {found : ℕ → Option (List ℕ)} (hc : c ≤ maxLength)
    {group : KVCacheSpec × List ℕ} (hgroup : group ∈ splitKvCacheGroups specs) :
    Ensures (p.hybridRound blockHashes true alignment (c, found) group) fun y =>
      y.1 ≤ c ∧ (group.1.kind ≠ .full → y.1 < c ∨ y.1 = 0) ∧
        (¬(group.1.kind = .full ∨ group.1.blockSize = alignment) → y.1 = 0) := by
  intro y hy
  rcases hybridRound_cases hset hgroup hy with ⟨hfull, -, hlen, -⟩ | ⟨rows, hrows, hlen, -⟩
  · exact ⟨hlen.trans_le (Nat.div_mul_le_self _ _), fun hne => absurd hfull hne,
      fun hfits => absurd (Or.inl hfull) hfits⟩
  · have hhashes := hset.le_length hgroup hc
    rw [hlen]
    by_cases hfits : group.1.kind = .full ∨ group.1.blockSize = alignment
    · obtain ⟨hne, -⟩ := (findLongestCacheHit_drafter p group.2 hfits hhashes).of_eq hrows
      by_cases hnil : rows = []
      · simp [hnil]
      · have hlt := (Nat.mul_lt_mul_of_pos_right (hne hnil).1 group.1.blockSize_pos).trans_le
          (Nat.div_mul_le_self c _)
        exact ⟨hlt.le, fun _ => Or.inl hlt, fun h => absurd hfits h⟩
    · rcases findLongestCacheHit_misfit p group.2 hfits hhashes with ⟨-, herr⟩ | ⟨-, hok⟩
      · cases herr.symm.trans hrows
      · cases hok.symm.trans hrows
        simp

theorem hybridPass_eagle {c : ℕ} {found : ℕ → Option (List ℕ)} (hc : c ≤ maxLength) :
    Ensures ((splitKvCacheGroups specs).foldlM (p.hybridRound blockHashes true
      (lcmBlockSize (splitKvCacheGroups specs))) (c, found)) fun x =>
      x.1 ≤ c ∧ ((∃ group ∈ splitKvCacheGroups specs, group.1.kind ≠ .full) →
        x.1 < c ∨ x.1 = 0) ∧
      ((∃ group ∈ splitKvCacheGroups specs, ¬(group.1.kind = .full ∨
        group.1.blockSize = lcmBlockSize (splitKvCacheGroups specs))) → x.1 = 0) := by
  refine ensures_foldlM (I := fun (done : List (KVCacheSpec × List ℕ)) x => x.1 ≤ c ∧
    ((∃ group ∈ done, group.1.kind ≠ .full) → x.1 < c ∨ x.1 = 0) ∧
    ((∃ group ∈ done, ¬(group.1.kind = .full ∨
      group.1.blockSize = lcmBlockSize (splitKvCacheGroups specs))) → x.1 = 0)) _ (c, found) ?_
    ⟨le_rfl, by simp, by simp⟩
  -- a length that was lowered is never raised again
  rintro done group todo x hsplit ⟨hle, hlow, hzero⟩
  have hgroup : group ∈ splitKvCacheGroups specs := by
    rw [hsplit]
    exact mem_append_right done mem_cons_self
  refine (hybridRound_eagle hset (hle.trans hc) hgroup).mono fun y ⟨hyle, hylow, hyzero⟩ => ?_
  refine ⟨hyle.trans hle, ?_, ?_⟩
  · rintro ⟨group', hmem, hkind⟩
    rcases mem_append.mp hmem with hmem | hmem
    · have hx := hlow ⟨group', hmem, hkind⟩
      omega
    · have hy := hylow (mem_singleton.mp hmem ▸ hkind)
      omega
  · rintro ⟨group', hmem, hmisfit⟩
    rcases mem_append.mp hmem with hmem | hmem
    · have hx := hzero ⟨group', hmem, hmisfit⟩
      omega
    · exact hyzero (mem_singleton.mp hmem ▸ hmisfit)

/-- **With a drafter** and a sliding window nothing is found. -/
theorem hybridLoop_eagle (hsliding : ∃ group ∈ splitKvCacheGroups specs, group.1.kind ≠ .full) :
    Ensures (p.hybridLoop blockHashes true (splitKvCacheGroups specs) maxLength fun _ => none)
      fun x => x.1 = 0 := by
  refine hybridLoop_rule (I := fun x => x.1 ≤ maxLength) ?_ maxLength _ le_rfl
  intro c found hc
  refine (hybridPass_eagle hset hc).mono fun x hx => ⟨hx.1.trans hc, fun hlt => ?_⟩
  have hlow := hx.2.1 hsliding
  show c = 0
  omega

/-! ### When it raises -/

/-- A lookup of groups that nothing was found for. -/
theorem hybridRound_fresh {c alignment : ℕ} {found : ℕ → Option (List ℕ)}
    {group : KVCacheSpec × List ℕ} (hgroup : group ∈ splitKvCacheGroups specs)
    (hfresh : ∀ g ∈ group.2, found g = none) :
    p.hybridRound blockHashes true alignment (c, found) group =
      (p.findLongestCacheHit group.1 (regroup blockHashes (group.1.blockSize / p.hashBlockSize)) c
        group.2 true alignment).map fun rows => (rows.length * group.1.blockSize, fun g =>
          match group.2.idxOf? g with
          | some j => some (p.column rows j)
          | none => found g) := by
  obtain ⟨g₀, rest, hids⟩ := exists_cons_of_ne_nil (hset.split.nonempty group hgroup)
  have hnone := hfresh g₀ (by rw [hids]; exact mem_cons_self)
  unfold hybridRound
  rw [if_neg (by simp [hids, hnone]), hashesAt_eq hset.pos (hset.dvd _ (hset.mem_specs hgroup))]
  rfl

theorem hybridPass_ok_iff (todo : List (KVCacheSpec × List ℕ)) {c : ℕ}
    {found : ℕ → Option (List ℕ)} (hsub : ∀ group ∈ todo, group ∈ splitKvCacheGroups specs)
    (hnodup : todo.Nodup) (hc : c ≤ maxLength)
    (hfresh : ∀ group ∈ todo, ∀ g ∈ group.2, found g = none) (alignment : ℕ) :
    (∃ y, todo.foldlM (p.hybridRound blockHashes true alignment) (c, found) = .ok y) ↔
      ¬p.DrafterRaises blockHashes alignment todo c := by
  induction todo generalizing c found with
  | nil => exact iff_of_true ⟨_, rfl⟩ id
  | cons group todo ih =>
    obtain ⟨hnot, hnodup⟩ := nodup_cons.mp hnodup
    have hgroup := hsub group mem_cons_self
    have hhashes := hset.le_length hgroup hc
    -- the other groups are still to be looked up
    have hnext : ∀ (rows : List (List ℕ)) (c' : ℕ), c' ≤ maxLength → ((∃ y, todo.foldlM
        (p.hybridRound blockHashes true alignment) (c', fun g => match group.2.idxOf? g with
          | some j => some (p.column rows j)
          | none => found g) = .ok y) ↔ ¬p.DrafterRaises blockHashes alignment todo c') := by
      intro rows c' hc'
      refine ih (fun g hg => hsub g (mem_cons_of_mem _ hg)) hnodup hc' fun group' hmem g hg => ?_
      have hg' : g ∉ group.2 := fun hin => hnot
        (hset.eq_of_mem hgroup (hsub group' (mem_cons_of_mem _ hmem)) hin hg ▸ hmem)
      rw [List.idxOf?_eq_none_iff.mpr hg']
      exact hfresh group' (mem_cons_of_mem _ hmem) g hg
    rw [foldlM_cons, hybridRound_fresh hset hgroup (hfresh group mem_cons_self), DrafterRaises]
    by_cases hfits : group.1.kind = .full ∨ group.1.blockSize = alignment
    · obtain ⟨rows, hrows, hne, hmax⟩ := findLongestCacheHit_drafter p group.2 hfits hhashes
      simp only [hrows, if_pos hfits]
      have hle : rows.length * group.1.blockSize ≤ maxLength :=
        ((findLongestCacheHit_ensures hhashes rows hrows).2).trans hc
      refine (hnext rows _ hle).trans (not_congr ⟨fun h => ?_, ?_⟩)
      · have hnil : rows ≠ [] := by
          rintro rfl
          rw [length_nil, Nat.zero_mul] at h
          exact not_drafterRaises_zero _ h
        obtain ⟨hlt, hdvd, hcov⟩ := hne hnil
        exact ⟨_, hdvd, hlt, hcov, h⟩
      · rintro ⟨n, hdvd, hlt, hcov, h⟩
        exact h.mono (Nat.mul_le_mul_right _ (hmax n hlt hdvd hcov))
    · simp only [if_neg hfits]
      rcases findLongestCacheHit_misfit p group.2 hfits hhashes with ⟨hex, herr⟩ | ⟨hno, hok⟩
      · rw [herr]
        exact iff_of_false nofun (not_not.mpr hex)
      · rw [hok]
        refine iff_of_true ((hnext [] (0 * _) (by simp)).mpr ?_) hno
        rw [Nat.zero_mul]
        exact not_drafterRaises_zero _

/-- **With a drafter** the search returns unless it asks a sliding window whose blocks are not aligned
for a length that it has a hit for. -/
theorem hybridLoop_ok_iff :
    (∃ x, p.hybridLoop blockHashes true (splitKvCacheGroups specs) maxLength (fun _ => none)
      = .ok x) ↔ ¬p.DrafterRaises blockHashes (lcmBlockSize (splitKvCacheGroups specs))
        (splitKvCacheGroups specs) maxLength := by
  rw [← hybridPass_ok_iff hset _ (fun _ h => h) (Nodup.of_map _ hset.split.nodup) le_rfl
    (fun _ _ _ _ => rfl)]
  constructor
  · rintro ⟨x, hx⟩
    rw [hybridLoop] at hx
    split at hx
    · cases hx
    · exact ⟨_, by assumption⟩
  · rintro ⟨y, hy⟩
    have hfound := (hybridPass_ensures hset (foundOk_none ..) le_rfl y hy).ok
    obtain ⟨hle, -, hzero⟩ := hybridPass_eagle hset le_rfl y hy
    rw [hybridLoop, hy]
    dsimp only
    split_ifs
    · by_cases hfits : ∃ group ∈ splitKvCacheGroups specs, ¬(group.1.kind = .full ∨
          group.1.blockSize = lcmBlockSize (splitKvCacheGroups specs))
      · -- nothing is left to look up
        have hset₀ : HybridSetup p specs (splitKvCacheGroups specs) blockHashes true 0 :=
          ⟨hset.split, hset.pos, hset.dvd, fun _ _ => by simp, fun _ _ _ _ => Or.inr rfl⟩
        exact hybridLoop_ok hset₀ y.1 y.2 hfound (hzero hfits).le
      · refine hybridLoop_ok ⟨hset.split, hset.pos, hset.dvd, hset.hashes, fun _ spec hspec hk => ?_⟩
          y.1 y.2 hfound hle
        obtain ⟨g, hg⟩ := List.getElem?_of_mem hspec
        obtain ⟨group, hgroup, hmem⟩ := hset.split.cover g (List.getElem?_eq_some_iff.mp hg).1
        cases hg.symm.trans (hset.split.spec_eq group hgroup g hmem)
        by_contra hne
        exact hfits ⟨group, hgroup, fun h => hne (Or.inl (h.resolve_left hk))⟩
    · exact ⟨_, rfl⟩

end Search

/-! ### The coordinator -/

section Coordinator

variable {p : BlockPool H} {specs : List KVCacheSpec} {blockHashes : List H} {useEagle : Bool}
  {maxLength : ℕ}

/-- When the lookup returns the longest hit. Without a drafter, the window of one token needs no
block but the search wants the last one; with a drafter, the search finds nothing if it does not
raise. -/
def HybridExact (p : BlockPool H) (specs : List KVCacheSpec) (useEagle : Bool)
    (blockHashes : List H) (maxLength : ℕ) : Prop :=
  if useEagle then
    ¬p.DrafterRaises blockHashes (lcmBlockSize (splitKvCacheGroups specs))
        (splitKvCacheGroups specs) maxLength ∧
      ∀ l, p.CommonHit specs blockHashes maxLength getNumSkippedTokens l →
        l ≤ lcmBlockSize (splitKvCacheGroups specs)
  else
    ∀ l, IsGreatest {l | p.CommonHit specs blockHashes maxLength
        getNumSkippedTokens l} l →
      ∀ g spec, specs[g]? = some spec → spec.kind = .slidingWindow 1 → l / spec.blockSize ≠ 0 →
        (p.hitAt (regroup blockHashes (spec.blockSize / p.hashBlockSize)) [g]
          (l / spec.blockSize - 1)).isSome = true

theorem coordinatorHit_eq_ok_iff (hlen : 1 < specs.length) {x : List (List ℕ) × ℕ} :
    p.coordinatorHit specs useEagle blockHashes maxLength = .ok x ↔
      ∃ y, p.hybridLoop blockHashes useEagle (splitKvCacheGroups specs) maxLength
          (fun _ => none) = .ok y ∧
        x = ((List.range specs.length).map fun g => (y.2 g).getD [], y.1) := by
  unfold coordinatorHit
  split
  · exact absurd hlen (Nat.lt_irrefl 1)
  · cases hloop : p.hybridLoop blockHashes useEagle (splitKvCacheGroups specs) maxLength
      (fun _ => none) with
    | error e => exact ⟨nofun, by rintro ⟨y, hy, -⟩; cases hy⟩
    | ok y =>
      constructor
      · intro h
        cases h
        exact ⟨y, rfl, rfl⟩
      · rintro ⟨y', hy, rfl⟩
        cases hy
        rfl

/-- There is a longest length that is good for every group. -/
theorem exists_isGreatest_commonHit (p : BlockPool H) (specs : List KVCacheSpec)
    (blockHashes : List H) (maxLength : ℕ) (skipped : KVCacheSpec → ℕ → ℕ) :
    ∃ l, IsGreatest {l | p.CommonHit specs blockHashes maxLength skipped l} l := by
  have hbdd : BddAbove {l | p.CommonHit specs blockHashes maxLength skipped l} :=
    ⟨maxLength, fun l hl => hl.le⟩
  have hzero : p.CommonHit specs blockHashes maxLength skipped 0 := by
    refine ⟨Nat.zero_le _, Nat.dvd_zero _, fun g spec _ i _ hi => ?_⟩
    rw [Nat.zero_div] at hi
    exact absurd hi (Nat.not_lt_zero i)
  exact ⟨_, Nat.sSup_mem ⟨0, hzero⟩ hbdd, fun l hl => le_csSup hbdd hl⟩

theorem commonHit_searched_iff {l : ℕ} :
    p.CommonHit specs blockHashes maxLength (searchedSkipped false) l ↔
      p.CommonHit specs blockHashes maxLength getNumSkippedTokens l ∧
        ∀ g spec, specs[g]? = some spec → spec.kind = .slidingWindow 1 → l / spec.blockSize ≠ 0 →
          (p.hitAt (regroup blockHashes (spec.blockSize / p.hashBlockSize)) [g]
            (l / spec.blockSize - 1)).isSome = true := by
  constructor
  · intro h
    exact ⟨⟨h.le, h.dvd, fun g spec hspec => (covered_searched_iff.mp (h.covered g spec hspec)).1⟩,
      fun g spec hspec => (covered_searched_iff.mp (h.covered g spec hspec)).2⟩
  · rintro ⟨h, hone⟩
    exact ⟨h.le, h.dvd, fun g spec hspec =>
      covered_searched_iff.mpr ⟨h.covered g spec hspec, hone g spec hspec⟩⟩

variable {x : ℕ × (ℕ → Option (List ℕ))}

theorem LoopOk.blocks (h : p.LoopOk specs blockHashes maxLength x)
    {g : ℕ} {spec : KVCacheSpec} (hspec : specs[g]? = some spec) :
    ∃ blocks, x.2 g = some blocks ∧ blocks.length = x.1 / spec.blockSize ∧
      ((List.range specs.length).map fun g => (x.2 g).getD [])[g]? = some blocks := by
  obtain ⟨blocks, hblocks, hlen, -⟩ := h.found g spec hspec
  refine ⟨blocks, hblocks, ?_, ?_⟩
  · rw [← hlen, Nat.mul_div_cancel _ spec.blockSize_pos]
  · rw [List.getElem?_map, List.getElem?_range (List.getElem?_eq_some_iff.mp hspec).1]
    show some ((x.2 g).getD []) = some blocks
    rw [hblocks, Option.getD_some]

theorem LoopOk.dvd (h : p.LoopOk specs blockHashes maxLength x) :
    lcmBlockSize (splitKvCacheGroups specs) ∣ x.1 := by
  refine lcmBlockSize_dvd fun group hgroup => ?_
  obtain ⟨g, hg⟩ := exists_mem_of_ne_nil _ ((splitOk specs).nonempty group hgroup)
  obtain ⟨blocks, -, hlen, -⟩ := h.found g group.1 ((splitOk specs).spec_eq group hgroup g hg)
  exact Dvd.intro_left _ hlen

/-- What the search without a drafter ends with is the longest length for the windows it looks
for. -/
theorem Searching.isGreatest (h : p.Searching specs blockHashes maxLength x)
    (hloop : p.LoopOk specs blockHashes maxLength x) :
    IsGreatest {l | p.CommonHit specs blockHashes maxLength (searchedSkipped false) l} x.1 := by
  refine ⟨⟨h.le, hloop.dvd, fun g spec hspec => ?_⟩, fun l hl => h.upper l hl⟩
  obtain ⟨blocks, hblocks, hlen, -⟩ := hloop.blocks hspec
  rw [← hlen]
  exact (h.window g spec blocks hspec hblocks).covered

/-- With a drafter and a sliding window the lookup finds nothing. -/
theorem coordinatorHit_eagle {e : Bool}
    (hset : p.HybridSetup specs (splitKvCacheGroups specs) blockHashes e maxLength)
    (hlen : 1 < specs.length) (hsliding : ∃ spec ∈ specs, spec.kind ≠ .full) :
    Ensures (p.coordinatorHit specs true blockHashes maxLength) fun x => x.2 = 0 := by
  intro x hx
  obtain ⟨y, hy, rfl⟩ := (coordinatorHit_eq_ok_iff hlen).mp hx
  obtain ⟨spec, hspec, hkind⟩ := hsliding
  obtain ⟨g, hg⟩ := List.getElem?_of_mem hspec
  obtain ⟨group, hgroup, hmem⟩ := hset.split.cover g (List.getElem?_eq_some_iff.mp hg).1
  cases hg.symm.trans (hset.split.spec_eq group hgroup g hmem)
  exact hybridLoop_eagle hset ⟨group, hgroup, hkind⟩ y hy

theorem LoopOk.hybridHit_of_eq_zero (h : p.LoopOk specs blockHashes maxLength x) (hzero : x.1 = 0)
    (hle : ∀ l, p.CommonHit specs blockHashes maxLength getNumSkippedTokens l →
      l ≤ lcmBlockSize (splitKvCacheGroups specs)) :
    p.HybridHit specs true blockHashes maxLength
      ((List.range specs.length).map fun g => (x.2 g).getD [], x.1) := by
  refine ⟨h.dvd, h.le, fun g spec hspec => ?_, ?_⟩
  · obtain ⟨blocks, -, hlen, hget⟩ := h.blocks hspec
    refine ⟨blocks, hget, hlen, ?_⟩
    rw [hzero, Nat.zero_div, length_eq_zero_iff] at hlen
    rw [hlen]
    exact ⟨fun i b hb => (by cases hb), fun i _ hb => (by cases hb)⟩
  · obtain ⟨l, hl⟩ := exists_isGreatest_commonHit p specs blockHashes maxLength
      getNumSkippedTokens
    refine ⟨l, hl, ?_⟩
    rw [if_pos rfl, Nat.sub_eq_zero_of_le (hle l hl.1)]
    exact hzero

/-- A lookup without a drafter, if the length that it ends with is the longest. -/
theorem Searching.hybridHit
    (h : p.Searching specs blockHashes maxLength x) (hloop : p.LoopOk specs blockHashes maxLength x)
    (hgreatest : IsGreatest {l | p.CommonHit specs blockHashes maxLength
      getNumSkippedTokens l} x.1) :
    p.HybridHit specs false blockHashes maxLength
      ((List.range specs.length).map fun g => (x.2 g).getD [], x.1) := by
  refine ⟨hloop.dvd, hloop.le, fun g spec hspec => ?_, x.1, hgreatest, rfl⟩
  obtain ⟨blocks, hblocks, hlen, hget⟩ := hloop.blocks hspec
  exact ⟨blocks, hget, hlen, (h.window g spec blocks hspec hblocks).mono spec.skipped_le⟩

/-- **The lookup of the hybrid coordinator**: when it returns, for every group, blocks that are
stored and cover the window of the next token, of the longest length that is good for all groups,
lowered by a block for a drafter. -/
theorem hybrid_hit_iff (useEagle : Bool) (hpos : 0 < p.hashBlockSize)
    (hdvd : ∀ spec ∈ specs, spec.blockSize % p.hashBlockSize = 0)
    (hhashes : maxLength / p.hashBlockSize ≤ blockHashes.length) (hnull : p.NullUncached)
    (hlen : 1 < specs.length) (hsliding : ∃ spec ∈ specs, spec.kind ≠ .full) :
    Returns (p.coordinatorHit specs useEagle blockHashes maxLength)
        (p.HybridHit specs useEagle blockHashes maxLength) ↔
      p.HybridExact specs useEagle blockHashes maxLength := by
  have hset : p.HybridSetup specs (splitKvCacheGroups specs) blockHashes false maxLength :=
    ⟨splitOk specs, hpos, hdvd, fun spec hspec => div_le_regroup (hdvd spec hspec) hhashes le_rfl,
      nofun⟩
  cases useEagle with
  | true =>
    constructor
    · rintro ⟨x, hx, h⟩
      obtain ⟨y, hy, rfl⟩ := (coordinatorHit_eq_ok_iff hlen).mp hx
      -- nothing is found, which is right only if there is nothing
      refine ⟨(hybridLoop_ok_iff hset).mp ⟨y, hy⟩, fun l hl => ?_⟩
      obtain ⟨l', hl', heq⟩ := h.longest
      have hzero : y.1 = 0 := coordinatorHit_eagle hset hlen hsliding _ hx
      rw [if_pos rfl] at heq
      have hle := hl'.2 hl
      omega
    · rintro ⟨hok, hle⟩
      obtain ⟨y, hy⟩ := (hybridLoop_ok_iff hset).mpr hok
      have hx := (coordinatorHit_eq_ok_iff hlen).mpr ⟨y, hy, rfl⟩
      have hzero : y.1 = 0 := coordinatorHit_eagle hset hlen hsliding _ hx
      exact ⟨_, hx, (hybridLoop_ensures hset y hy).hybridHit_of_eq_zero hzero hle⟩
  | false =>
    obtain ⟨y, hy, hloop⟩ := hybridLoop_returns hset
    have hsearch := hybridLoop_longest hset hnull y hy
    have hgreatest := hsearch.isGreatest hloop
    have hmem := commonHit_searched_iff.mp hgreatest.1
    rw [(coordinatorHit_eq_ok_iff hlen).mpr ⟨y, hy, rfl⟩, returns_ok, HybridExact,
      if_neg Bool.false_ne_true]
    constructor
    · intro h l hl
      obtain ⟨l', hl', heq⟩ := h.longest
      obtain rfl : y.1 = l' := heq
      rw [hl.unique hl']
      exact hmem.2
    · intro h
      obtain ⟨l, hl⟩ := exists_isGreatest_commonHit p specs blockHashes maxLength
        getNumSkippedTokens
      have heq : y.1 = l := le_antisymm (hl.2 hmem.1)
        (hgreatest.2 (commonHit_searched_iff.mpr ⟨hl.1, h l hl⟩))
      exact hsearch.hybridHit hloop (heq ▸ hl)

end Coordinator

/-- Full attention and a sliding window of five tokens, in blocks of four. -/
def fullAndSliding : List KVCacheSpec :=
  [⟨4, .full, 0, by decide, AttentionKind.full_pos⟩,
    ⟨4, .slidingWindow 5, 0, by decide, fun w hw => by cases hw; decide⟩]

/-- Without a drafter the lookup returns the three blocks that both groups have. -/
theorem hybrid_hit_of_warmPool :
    Returns (warmPool.coordinatorHit fullAndSliding false [0, 1, 2] 12)
      (warmPool.HybridHit fullAndSliding false [0, 1, 2] 12) := by
  apply (hybrid_hit_iff false (by decide) (by decide) (by decide) nullUncached_warmPool
    (by decide) (by decide)).mpr
  intro l _ g spec hspec hone
  have hkinds : ∀ spec ∈ fullAndSliding, spec.kind ≠ .slidingWindow 1 := by decide
  exact absurd hone (hkinds spec (mem_of_getElem? hspec))

/-- All three blocks are good for both groups. -/
theorem commonHit_warmPool :
    warmPool.CommonHit fullAndSliding [0, 1, 2] 12 getNumSkippedTokens 12 := by
  refine ⟨le_rfl, by decide, fun g spec hspec i _ hi => ?_⟩
  have hsize : ∀ spec ∈ fullAndSliding, spec.blockSize = 4 := by decide
  have hg : g < 2 := (List.getElem?_eq_some_iff.mp hspec).1
  rw [hsize spec (mem_of_getElem? hspec)] at hi ⊢
  have hall : ∀ g < 2, ∀ i < 3,
      (warmPool.hitAt (regroup [0, 1, 2] (4 / warmPool.hashBlockSize)) [g] i).isSome = true := by
    decide
  exact hall g hg i hi

/-- With a drafter and all three blocks stored, the lookup should return two of them and returns
none. -/
theorem eagle_finds_nothing :
    (∃ x, warmPool.coordinatorHit fullAndSliding true [0, 1, 2] 12 = .ok x ∧ x.2 = 0) ∧
    ¬Returns (warmPool.coordinatorHit fullAndSliding true [0, 1, 2] 12)
      (warmPool.HybridHit fullAndSliding true [0, 1, 2] 12) := by
  have hset : warmPool.HybridSetup fullAndSliding (splitKvCacheGroups fullAndSliding) [0, 1, 2] true
      12 := ⟨splitOk _, by decide, by decide, by decide, by decide⟩
  have hzero := coordinatorHit_eagle hset (by decide) (by decide)
  constructor
  · obtain ⟨x, hx⟩ : ∃ x, warmPool.coordinatorHit fullAndSliding true [0, 1, 2] 12 = .ok x :=
      coordinatorHit_ok hset.pos hset.dvd (fun _ h => by cases h) (by decide)
        fun he spec hspec hk _ => (hset.eagle he spec hspec hk).resolve_right (by decide)
    exact ⟨x, hx, hzero x hx⟩
  · rintro ⟨x, hx, h⟩
    obtain ⟨l, hl, heq⟩ := h.longest
    have hle := hl.2 commonHit_warmPool
    have hlcm : lcmBlockSize (splitKvCacheGroups fullAndSliding) = 4 := by decide
    rw [hzero x hx, if_pos rfl, hlcm] at heq
    omega

end BlockPool

end CacheFlow
