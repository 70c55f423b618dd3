import CacheFlow.Lib.Chain
import CacheFlow.Lib.Exec

/-!
# The keys of a request

`hashing.py`, and the part of the connector that gives a request its keys. A key is the
digest of the key before it and the bytes of a chunk of token ids; the first takes a seed
in that stands for the model and the KV format.

## Main results

* `chunkKeys_identify` — how many keys there are, what two prompts have in common, and what a key
  stands for.
-/

namespace CacheFlow

open List

/-- The digest `_h`. -/
abbrev Digest := List UInt8 → List UInt8

/-- Whether `array("q")` takes a token id. -/
def fitsInt64 (t : ℤ) : Bool := -2 ^ 63 ≤ t ∧ t < 2 ^ 63

/-- The bytes of a token id: two's complement, the lowest byte first. -/
def tokenIdBytes (t : ℤ) : List UInt8 := bytesLE 8 (t % 2 ^ 64).toNat

/-- `array("q", ids).tobytes()`. -/
def packTokens (ids : List ℤ) : Except PyErr (List UInt8) :=
  if ids.all fitsInt64 then .ok (ids.flatMap tokenIdBytes) else .error .overflowError

/-- The keys of the first `nChunks` full chunks of `tokenIds`. -/
def chunkKeys (h : Digest) (tokenIds : List ℤ) (chunkTokens nChunks : ℕ) (seed : List UInt8) :
    Except PyErr (List String) := do
  let n := min nChunks (tokenIds.length / chunkTokens)
  if n = 0 then return []
  let raw ← packTokens (tokenIds.take (n * chunkTokens))
  let step := chunkTokens * 8
  let parts := (List.range n).map fun i => (raw.drop (i * step)).take step
  return (chain (fun prev part => h (prev ++ part)) seed parts).map hex

/-- The settings that decide which keys a prompt has. -/
structure KeyConfig where
  chunkTokens : ℕ
  /-- The most tokens to cache, if positive. -/
  maxCachedTokens : ℤ
  /-- The least tokens to cache. -/
  minCachedTokens : ℤ
  /-- The check of `validate`. -/
  chunkTokens_pos : 0 < chunkTokens

namespace KeyConfig

variable (cfg : KeyConfig)

/-- Prompt tokens eligible for caching, rounded down to whole chunks. -/
def cacheableTokens (promptLen : ℕ) : ℕ :=
  let n := if cfg.maxCachedTokens ≤ 0 then promptLen else min promptLen cfg.maxCachedTokens.toNat
  let n := n / cfg.chunkTokens * cfg.chunkTokens
  if max cfg.minCachedTokens 1 ≤ n then n else 0

/-- `_state`: the keys of a prompt. -/
def keysOf (h : Digest) (seed : List UInt8) (ids : List ℤ) : Except PyErr (List String) :=
  chunkKeys h ids cfg.chunkTokens (cfg.cacheableTokens ids.length / cfg.chunkTokens) seed

end KeyConfig

/-! ### The bytes of the chunks -/

@[simp] theorem length_tokenIdBytes (t : ℤ) : (tokenIdBytes t).length = 8 := length_bytesLE 8 _

theorem tokenIdBytes_injOn {t u : ℤ} (ht : fitsInt64 t = true) (hu : fitsInt64 u = true)
    (h : tokenIdBytes t = tokenIdBytes u) : t = u := by
  simp only [fitsInt64, decide_eq_true_eq] at ht hu
  have hmod : (t % 2 ^ 64).toNat = (u % 2 ^ 64).toNat := by
    apply bytesLE_injOn _ _ h
    · omega
    · omega
  omega

/-- The bytes of the first `k` chunks. -/
def chunkParts (ids : List ℤ) (C k : ℕ) : List (List UInt8) :=
  (List.range k).map fun i => ((ids.drop (i * C)).take C).flatMap tokenIdBytes

@[simp] theorem length_chunkParts (ids : List ℤ) (C k : ℕ) : (chunkParts ids C k).length = k := by
  simp [chunkParts]

/-- There are `k` full chunks, of token ids that fit. -/
structure Packed (ids : List ℤ) (C k : ℕ) : Prop where
  long : k * C ≤ ids.length
  fits : ∀ t ∈ ids.take (k * C), fitsInt64 t = true

namespace Packed

variable {ids ids' : List ℤ} {C k k' : ℕ}

/-- A chunk is full, and its ids fit. -/
theorem chunk (h : Packed ids C k) {m : ℕ} (hm : m < k) : ((ids.drop (m * C)).take C).length = C ∧
    ∀ t ∈ (ids.drop (m * C)).take C, fitsInt64 t = true := by
  have hle : m * C + C ≤ k * C := by
    rw [← Nat.succ_mul]
    exact Nat.mul_le_mul_right C hm
  have hlong := h.long
  constructor
  · rw [length_take, length_drop]
    omega
  · intro t ht
    have hcut : (ids.drop (m * C)).take C = ((ids.take (k * C)).drop (m * C)).take C := by
      rw [drop_take, take_take, Nat.min_eq_left (by omega)]
    rw [hcut] at ht
    exact h.fits t (mem_of_mem_drop (mem_of_mem_take ht))

theorem length_part (h : Packed ids C k) : ∀ part ∈ chunkParts ids C k, part.length = C * 8 := by
  intro part hpart
  obtain ⟨m, hm, rfl⟩ := mem_map.mp hpart
  rw [length_flatMap_const length_tokenIdBytes, (h.chunk (mem_range.mp hm)).1]

theorem take_parts_iff (h : Packed ids C k) (h' : Packed ids' C k') {i : ℕ} (hi : i ≤ k)
    (hi' : i ≤ k') : (chunkParts ids C k).take i = (chunkParts ids' C k').take i ↔
      ids.take (i * C) = ids'.take (i * C) := by
  rw [chunkParts, chunkParts, ← map_take, ← map_take, take_range, take_range,
    Nat.min_eq_left hi, Nat.min_eq_left hi', map_inj_left, take_mul_eq_iff]
  simp only [mem_range]
  refine forall₂_congr fun m hm => ⟨fun heq => ?_, fun heq => by rw [heq]⟩
  exact flatMap_injOn length_tokenIdBytes (by decide) tokenIdBytes_injOn
    (h.chunk (by omega)).2 (h'.chunk (by omega)).2 heq

end Packed

/-! ### What a key stands for -/

/-- A digest determines the key before it, because the chunk has a known length. -/
theorem digest_inj {h : Digest} (hinj : Function.Injective h) {C : ℕ} {k k' part part' : List UInt8}
    (hpart : part.length = C * 8) (hpart' : part'.length = C * 8)
    (heq : h (k ++ part) = h (k' ++ part')) : k = k' ∧ part = part' :=
  append_inj' (hinj heq) (hpart.trans hpart'.symm)

/-- The keys are the digests of a chain over the chunks, if the token ids fit. -/
theorem chunkKeys_eq (h : Digest) (ids : List ℤ) (C n : ℕ) (seed : List UInt8) {k : ℕ}
    (hk : min n (ids.length / C) = k) : chunkKeys h ids C n seed =
      if (ids.take (k * C)).all fitsInt64 then
        .ok ((chain (fun prev part => h (prev ++ part)) seed (chunkParts ids C k)).map hex)
      else .error .overflowError := by
  unfold chunkKeys
  rw [hk]
  by_cases hzero : k = 0
  · subst hzero
    simp [chain, chunkParts]
    rfl
  · dsimp only
    rw [if_neg hzero, packTokens]
    by_cases hall : (ids.take (k * C)).all fitsInt64 = true
    · rw [if_pos hall, if_pos hall]
      refine congrArg (fun parts => Except.ok ((chain _ seed parts).map hex)) ?_
      refine map_congr_left fun i hi => ?_
      -- piece `i` of the bytes is the bytes of chunk `i`
      have hle : i * C + C ≤ k * C := by
        rw [← Nat.succ_mul]
        exact Nat.mul_le_mul_right C (mem_range.mp hi)
      rw [← Nat.mul_assoc, drop_flatMap length_tokenIdBytes, take_flatMap length_tokenIdBytes,
        drop_take, take_take, Nat.min_eq_left (by omega)]
    · rw [if_neg hall, if_neg hall]
      rfl

theorem chunkKeys_eq_ok_iff {h : Digest} {ids : List ℤ} {C n : ℕ} {seed : List UInt8}
    {keys : List String} : chunkKeys h ids C n seed = .ok keys ↔
      Packed ids C (min n (ids.length / C)) ∧
        (chain (fun prev part => h (prev ++ part)) seed
          (chunkParts ids C (min n (ids.length / C)))).map hex = keys := by
  have hlong : min n (ids.length / C) * C ≤ ids.length :=
    (Nat.mul_le_mul_right C (Nat.min_le_right _ _)).trans (Nat.div_mul_le_self _ _)
  rw [chunkKeys_eq h ids C n seed rfl]
  constructor
  · intro hkeys
    split_ifs at hkeys with hall
    exact ⟨⟨hlong, all_eq_true.mp hall⟩, Except.ok.inj hkeys⟩
  · rintro ⟨hpacked, rfl⟩
    rw [if_pos (all_eq_true.mpr hpacked.fits)]

section Keys

variable {h : Digest} {ids ids' : List ℤ} {C n n' : ℕ} {seed : List UInt8}
variable {keys keys' : List String}

theorem length_chunkKeys (hkeys : chunkKeys h ids C n seed = .ok keys) :
    keys.length = min n (ids.length / C) := by
  obtain ⟨-, rfl⟩ := chunkKeys_eq_ok_iff.mp hkeys
  simp

/-- **A key identifies the token ids up to the end of its chunk.** -/
theorem chunkKeys_getElem?_eq_iff (hinj : Function.Injective h) {i : ℕ}
    (hkeys : chunkKeys h ids C n seed = .ok keys) (hkeys' : chunkKeys h ids' C n' seed = .ok keys')
    (hi : i < keys.length) (hi' : i < keys'.length) :
    keys[i]? = keys'[i]? ↔ ids.take ((i + 1) * C) = ids'.take ((i + 1) * C) := by
  rw [length_chunkKeys hkeys] at hi
  rw [length_chunkKeys hkeys'] at hi'
  obtain ⟨hpacked, rfl⟩ := chunkKeys_eq_ok_iff.mp hkeys
  obtain ⟨hpacked', rfl⟩ := chunkKeys_eq_ok_iff.mp hkeys'
  rw [List.getElem?_map, List.getElem?_map, (Option.map_injective hex_injective).eq_iff,
    chain_getElem?_eq_iff (digest_inj hinj) hpacked.length_part hpacked'.length_part,
    hpacked.take_parts_iff hpacked' hi hi']
  · simp
  · simpa using hi
  · simpa using hi'

theorem chunkKeys_isPrefix (hn : n ≤ n') (hkeys : chunkKeys h ids C n seed = .ok keys)
    (hkeys' : chunkKeys h ids' C n' seed = .ok keys')
    (hagree : ids.take (keys.length * C) = ids'.take (keys.length * C)) : keys <+: keys' := by
  have hlength := length_chunkKeys hkeys
  obtain ⟨hpacked, rfl⟩ := chunkKeys_eq_ok_iff.mp hkeys
  obtain ⟨hpacked', rfl⟩ := chunkKeys_eq_ok_iff.mp hkeys'
  rw [hlength] at hagree
  -- the second list has as many chunks
  have hle : min n (ids.length / C) ≤ min n' (ids'.length / C) := by
    refine Nat.le_min.mpr ⟨(Nat.min_le_left _ _).trans hn, ?_⟩
    rcases Nat.eq_zero_or_pos C with rfl | hC
    · simp
    · rw [Nat.le_div_iff_mul_le hC]
      have hlen := congrArg List.length hagree
      have hlong := hpacked.long
      simp only [length_take] at hlen
      omega
  have hparts := (hpacked.take_parts_iff hpacked' le_rfl hle).mpr hagree
  rw [take_of_length_le (by simp)] at hparts
  rw [hparts]
  obtain ⟨rest, hrest⟩ := take_prefix (min n (ids.length / C))
    (chunkParts ids' C (min n' (ids'.length / C)))
  conv_rhs => rw [← hrest, chain_append]
  exact (prefix_append _ _).map hex

end Keys

/-- **Keys identify exactly a prefix of the token ids.** As many keys are returned as there are
full chunks among those asked for, if their ids fit in 64 bits; lists that agree on these chunks
share the keys; and when the digest is injective and no seed is a digest, a key that occurs in two
lists is at one place, under one seed, and ends one prefix. -/
theorem chunkKeys_identify (h : Digest) (C : ℕ) :
    (∀ ids n seed, (∃ keys, chunkKeys h ids C n seed = .ok keys ∧
        keys.length = min n (ids.length / C)) ↔
      ∀ t ∈ ids.take (min n (ids.length / C) * C), fitsInt64 t = true) ∧
    (∀ ids ids' n n' seed keys keys', n ≤ n' → chunkKeys h ids C n seed = .ok keys →
      chunkKeys h ids' C n' seed = .ok keys' →
      ids.take (keys.length * C) = ids'.take (keys.length * C) → keys <+: keys') ∧
    (Function.Injective h → ∀ ids ids' n n' seed seed' keys keys', (∀ bs, h bs ≠ seed) →
      (∀ bs, h bs ≠ seed') → chunkKeys h ids C n seed = .ok keys →
      chunkKeys h ids' C n' seed' = .ok keys' → ∀ (i j : ℕ) (key : String), keys[i]? = some key →
      keys'[j]? = some key →
      i = j ∧ seed = seed' ∧ ids.take ((i + 1) * C) = ids'.take ((i + 1) * C)) := by
  refine ⟨fun ids n seed => ?_, fun ids ids' n n' seed keys keys' => chunkKeys_isPrefix, ?_⟩
  · constructor
    · rintro ⟨keys, hkeys, -⟩
      exact (chunkKeys_eq_ok_iff.mp hkeys).1.fits
    · intro hfits
      rw [chunkKeys_eq h ids C n seed rfl, if_pos (all_eq_true.mpr hfits)]
      exact ⟨_, rfl, by simp⟩
  · intro hinj ids ids' n n' seed seed' keys keys' hseed hseed' hkeys hkeys' i j key hi hj
    obtain ⟨hpacked, rfl⟩ := chunkKeys_eq_ok_iff.mp hkeys
    obtain ⟨hpacked', rfl⟩ := chunkKeys_eq_ok_iff.mp hkeys'
    rw [List.getElem?_map, Option.map_eq_some_iff] at hi hj
    obtain ⟨d, hi, rfl⟩ := hi
    obtain ⟨d', hj, hd⟩ := hj
    -- equal keys are equal digests, and these tell all that was hashed
    obtain rfl : d' = d := hex_injective hd
    obtain ⟨rfl, rfl, htake⟩ := chain_getElem?_inj (digest_inj hinj) (fun k part => hseed _)
      (fun k part => hseed' _) hpacked.length_part hpacked'.length_part hi hj
    obtain ⟨hlt, -⟩ := List.getElem?_eq_some_iff.mp hi
    obtain ⟨hlt', -⟩ := List.getElem?_eq_some_iff.mp hj
    simp only [length_chain, length_chunkParts] at hlt hlt'
    exact ⟨rfl, rfl, (hpacked.take_parts_iff hpacked' hlt hlt').mp htake⟩

theorem chunkKeys_identify_five_tokens : ∃ (h : Digest) (seed : List UInt8)
    (keys keys' : List String), seed.length = 16 ∧ chunkKeys h [1, 2, 3, 4] 2 5 seed = .ok keys ∧
      chunkKeys h [1, 2, 3, 4, 5] 2 5 seed = .ok keys' ∧ keys.length = 2 ∧ keys <+: keys' ∧
      ∀ (i j : ℕ) (key : String), keys[i]? = some key → keys'[j]? = some key → i = j := by
  have hseed : ∀ bs, (0 :: bs : List UInt8) ≠ List.replicate 16 1 := by
    intro bs hbs
    cases hbs
  obtain ⟨-, hprefix, hplace⟩ := chunkKeys_identify (fun bs => 0 :: bs) 2
  refine ⟨fun bs => 0 :: bs, List.replicate 16 1, _, _, rfl, rfl, rfl, rfl, ?_, ?_⟩
  · exact hprefix [1, 2, 3, 4] [1, 2, 3, 4, 5] 5 5 (List.replicate 16 1) _ _ le_rfl rfl rfl rfl
  · intro i j key hi hj
    exact (hplace cons_injective [1, 2, 3, 4] [1, 2, 3, 4, 5] 5 5 _ _ _ _ hseed hseed rfl rfl
      i j key hi hj).1

end CacheFlow
