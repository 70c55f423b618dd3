import Mathlib.Data.List.TakeDrop
import Mathlib.Tactic

/-!
# What the DPU connector promises the scheduler

The scheduler asks the connector how many tokens it can load beyond those that are computed already.
The connector hashes the first tokens of the prompt, all of them or a common prefix, and looks the
hash up among the prefixes on the DPU. On a hit it answers with the number of hashed tokens, cut so
that one token is left to compute. It does not take off what is computed already, and it does not
look at how many tokens the DPU holds, which may be fewer: the save is cut to the blocks of the
request, and hashed over the same tokens all the same.

## Main definitions

* `KeepsPromise` — what is promised is on the DPU.

## Main results

* `keepsPromise_iff` — when the promise is kept.
-/

namespace CacheFlow.Doca

/-! ### The prefix map -/

/-- The configuration of the connector. -/
structure ConnectorConfig where
  offloadFullPrompt : Bool
  /-- `common_prefix_num_tokens`; zero if it is not set. -/
  commonPrefixNumTokens : ℕ
  deriving DecidableEq, Repr

/-- `compute_prefix_hash`, over the digest of a library of the packed tokens, in hexadecimal; 64 bits
of it are kept. -/
def computePrefixHash (hexdigest : List ℕ → List Char) (tokens : List ℕ) (n : ℕ) : List Char :=
  if n = 0 then "empty_prefix_000".toList
  else (hexdigest (tokens.take (min n tokens.length))).take 16

/-- A prefix on the DPU: the tokens it was hashed over, and of how many of them there is KV. -/
structure CachedPrefix where
  /-- The hashed tokens. -/
  tokens : List ℕ
  /-- The number of tokens that were saved. -/
  count : ℕ
  dpuBlock : ℕ
  /-- No more tokens are saved than are hashed. -/
  count_le : count ≤ tokens.length

/-- `_hash_to_dpu_block`: the entry under a hash. -/
def lookupPrefix (hexdigest : List ℕ → List Char) (cached : List CachedPrefix) (h : List Char) :
    Option CachedPrefix :=
  cached.find? fun e => computePrefixHash hexdigest e.tokens e.tokens.length = h

/-- `RequestTracker`, as far as loads go. -/
structure RequestTracker where
  prefixHash : Option (List Char)
  cachedTokens : ℕ
  isLoading : Bool
  dpuBlockId : Option ℕ
  deriving DecidableEq, Repr

/-! ### The answer -/

/-- `cached_tokens` of `get_num_new_matched_tokens`, and of the save path: how many tokens are
hashed. -/
def hashedTokens (cfg : ConnectorConfig) (tokens : List ℕ) : ℕ :=
  let hashLen :=
    if cfg.offloadFullPrompt then tokens.length
    else if cfg.commonPrefixNumTokens = 0 then tokens.length
    else cfg.commonPrefixNumTokens
  min hashLen tokens.length

/-- `get_num_new_matched_tokens`: the number of tokens, and the tracker. -/
def getNumNewMatchedTokens (cfg : ConnectorConfig) (hexdigest : List ℕ → List Char)
    (cached : List CachedPrefix) (tokens : List ℕ) (tracker : Option RequestTracker)
    (numComputedTokens : ℕ) : ℕ × Option RequestTracker :=
  if tokens = [] then (0, tracker)
  else
    let cachedTokens := hashedTokens cfg tokens
    if cachedTokens ≤ numComputedTokens then
      (0, tracker.map fun t => { t with isLoading := false, dpuBlockId := none, cachedTokens })
    else
      let prefixHash := computePrefixHash hexdigest tokens cachedTokens
      match lookupPrefix hexdigest cached prefixHash with
      | none => (0, some ⟨some prefixHash, cachedTokens, false, none⟩)
      | some e =>
        -- one token must be left to compute
        let maxExternalTokens := tokens.length - numComputedTokens - 1
        let effective := min cachedTokens maxExternalTokens
        if effective = 0 then (0, some ⟨some prefixHash, cachedTokens, false, none⟩)
        else (effective, some ⟨some prefixHash, effective, true, some e.dpuBlock⟩)

/-- What is promised is there: the entry holds as many tokens, one token of the prompt is left, and
the tokens are those of the prompt. -/
def KeepsPromise (cfg : ConnectorConfig) (hexdigest : List ℕ → List Char) (cached : List CachedPrefix)
    (tokens : List ℕ) (tracker : Option RequestTracker) (numComputedTokens : ℕ) : Prop :=
  let ext := (getNumNewMatchedTokens cfg hexdigest cached tokens tracker numComputedTokens).1
  0 < ext → ∃ e,
    lookupPrefix hexdigest cached (computePrefixHash hexdigest tokens (hashedTokens cfg tokens)) = some e ∧
      numComputedTokens + ext ≤ e.count ∧ numComputedTokens + ext ≤ tokens.length - 1 ∧
      e.tokens.take (numComputedTokens + ext) = tokens.take (numComputedTokens + ext)

/-! ### How far it reaches -/

section Reach

variable {cfg : ConnectorConfig} {hexdigest : List ℕ → List Char} {cached : List CachedPrefix}
  {tokens : List ℕ} {tracker : Option RequestTracker} {n : ℕ} {e : CachedPrefix}

/-- A hit: tokens are hashed beyond the computed ones, and one more is left of the prompt. -/
def Hit (cfg : ConnectorConfig) (hexdigest : List ℕ → List Char) (cached : List CachedPrefix)
    (tokens : List ℕ) (numComputedTokens : ℕ) (e : CachedPrefix) : Prop :=
  lookupPrefix hexdigest cached (computePrefixHash hexdigest tokens (hashedTokens cfg tokens)) = some e ∧
    numComputedTokens < hashedTokens cfg tokens ∧ numComputedTokens + 1 < tokens.length

/-- **The reach of a promise.** On a hit, computed and promised tokens together are the computed and
the hashed ones, cut at the last token but one. -/
theorem matched_add_computed (tracker : Option RequestTracker)
    (h : Hit cfg hexdigest cached tokens n e) :
    0 < (getNumNewMatchedTokens cfg hexdigest cached tokens tracker n).1 ∧
      n + (getNumNewMatchedTokens cfg hexdigest cached tokens tracker n).1
        = min (n + hashedTokens cfg tokens) (tokens.length - 1) := by
  obtain ⟨hlookup, hless, hleft⟩ := h
  have hne : tokens ≠ [] := by
    rintro rfl
    exact absurd hleft (Nat.not_lt_zero _)
  have heffective : min (hashedTokens cfg tokens) (tokens.length - n - 1) ≠ 0 := by omega
  simp only [getNumNewMatchedTokens, hne, hlookup, heffective, not_le.mpr hless, if_false]
  omega

/-- Without a hit nothing is promised. -/
theorem exists_hit_of_pos
    (h : 0 < (getNumNewMatchedTokens cfg hexdigest cached tokens tracker n).1) :
    ∃ e, Hit cfg hexdigest cached tokens n e := by
  unfold getNumNewMatchedTokens at h
  split at h
  · exact absurd h (Nat.lt_irrefl 0)
  · dsimp only at h
    split at h
    · exact absurd h (Nat.lt_irrefl 0)
    · rename_i hless
      split at h
      · exact absurd h (Nat.lt_irrefl 0)
      · rename_i e hlookup
        split at h
        · exact absurd h (Nat.lt_irrefl 0)
        · rename_i heffective
          exact ⟨e, hlookup, by omega, by omega⟩

end Reach

/-- **The connector keeps its promise** if and only if, on a hit, the entry holds the computed and
the hashed tokens together, or all tokens of the prompt but the last, and agrees so far with the
prompt, which it may fail to do if two prefixes have one hash. -/
theorem keepsPromise_iff (cfg : ConnectorConfig) (hexdigest : List ℕ → List Char)
    (cached : List CachedPrefix) (tokens : List ℕ) (tracker : Option RequestTracker)
    (numComputedTokens : ℕ) :
    KeepsPromise cfg hexdigest cached tokens tracker numComputedTokens ↔
      ∀ e, Hit cfg hexdigest cached tokens numComputedTokens e →
        (numComputedTokens + hashedTokens cfg tokens ≤ e.count ∨ tokens.length - 1 ≤ e.count) ∧
        ∀ i < min (numComputedTokens + hashedTokens cfg tokens) (tokens.length - 1),
          e.tokens[i]? = tokens[i]? := by
  have htake : ∀ (l : List ℕ) k, l.take k = tokens.take k ↔ ∀ i < k, l[i]? = tokens[i]? := by
    intro l k
    rw [List.ext_getElem?_iff]
    refine forall_congr' fun i => ?_
    rw [List.getElem?_take, List.getElem?_take]
    split_ifs with hi <;> simp [hi]
  constructor
  · -- on a hit the promise is about the entry that was found
    intro h e hhit
    obtain ⟨hpos, hreach⟩ := matched_add_computed tracker hhit
    obtain ⟨e', hlookup, hcount, -, hsame⟩ := h hpos
    obtain rfl : e = e' := Option.some_inj.mp (hhit.1.symm.trans hlookup)
    rw [hreach] at hcount hsame
    exact ⟨by omega, (htake _ _).mp hsame⟩
  · intro h hpos
    obtain ⟨e, hhit⟩ := exists_hit_of_pos hpos
    obtain ⟨-, hreach⟩ := matched_add_computed tracker hhit
    obtain ⟨hcount, hsame⟩ := h e hhit
    refine ⟨e, hhit.1, ?_⟩
    rw [hreach]
    exact ⟨by omega, Nat.min_le_right _ _, (htake _ _).mpr hsame⟩

/-- A common prefix of four tokens. -/
def commonPrefix : ConnectorConfig := ⟨false, 4⟩

/-- Its entry, with all four tokens. -/
def commonEntry : CachedPrefix := ⟨[1, 2, 3, 4], 4, 0, le_rfl⟩

/-- If nothing is computed yet, four tokens are promised, and four are there. -/
theorem keepsPromise_commonPrefix :
    KeepsPromise commonPrefix (·.map Char.ofNat) [commonEntry] [1, 2, 3, 4, 5, 6, 7, 8, 9, 10]
      none 0 := by
  refine (keepsPromise_iff commonPrefix _ [commonEntry] _ none 0).mpr fun e he => ?_
  obtain rfl : commonEntry = e := Option.some_inj.mp he.1
  decide

/-- If two tokens are computed, four more are promised, and the entry ends after four. -/
theorem not_keepsPromise_computed :
    ¬ KeepsPromise commonPrefix (·.map Char.ofNat) [commonEntry]
      [1, 2, 3, 4, 5, 6, 7, 8, 9, 10] none 2 := by
  intro h
  obtain ⟨e, he, hcount, -⟩ := h (by decide)
  obtain rfl : commonEntry = e := Option.some_inj.mp he
  exact absurd hcount (by decide)

end CacheFlow.Doca
