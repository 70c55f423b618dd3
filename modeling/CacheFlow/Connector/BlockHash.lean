import CacheFlow.Connector.Keys

/-!
# The keys of the pool and the block hashes of vLLM

vLLM names the blocks of a request by chained hashes of its own, `kv_cache_utils.py`:
each takes in the hash before it, the token ids of the block, and *extra keys* for
whatever else the KV of the block depends on, which are the adapter, the multi-modal
inputs in the block, the cache salt and the prompt embeddings. The keys of the pool take
in token ids only.

## Main results

* `BlockHasher.shared_key_iff` — when an equal key of the pool implies equal block hashes up to the
  end of its chunk.
-/

namespace CacheFlow

open Function

/-- An item of the extra keys of a block. -/
inductive ExtraKey where
  /-- A name: of an adapter, a multi-modal input or a salt. -/
  | str (s : String) : ExtraKey
  /-- The bytes of prompt embeddings. -/
  | bytes (b : List UInt8) : ExtraKey
  deriving DecidableEq, Repr

/-- A multi-modal input of a request. -/
structure MmFeature where
  /-- Its hash. -/
  identifier : String
  /-- The first of its placeholder tokens. -/
  offset : ℕ
  /-- How many placeholder tokens it has. -/
  length : ℕ

/-- What a request is hashed by. -/
structure VllmRequest where
  /-- The token ids of the prompt, if it has any. -/
  promptTokenIds : Option (List ℤ)
  /-- The bytes of the prompt embeddings, a row for each token, if it has any. -/
  promptEmbeds : Option (List (List UInt8))
  /-- The tokens generated so far. -/
  outputTokenIds : List ℤ
  /-- The multi-modal inputs. -/
  mmFeatures : List MmFeature
  /-- The name of the adapter. -/
  loraName : Option String
  cacheSalt : Option String

namespace VllmRequest

variable (r : VllmRequest)

/-- `_token_ids`, the ids the connector makes keys of. -/
def tokenIds : List ℤ := r.promptTokenIds.getD []

/-- The ids vLLM hashes: a prompt of embeddings only counts as zeros. -/
def allTokenIds : List ℤ :=
  r.promptTokenIds.getD (List.replicate (r.promptEmbeds.getD []).length 0) ++ r.outputTokenIds

/-- The loop of `_gen_mm_extra_hash_keys` for the block from `start` to `stop`, over the
inputs from number `idx` on. -/
def mmLoop (start stop : ℕ) : List MmFeature → ℕ → List ExtraKey × ℕ
  | [], idx => ([], idx)
  | f :: fs, idx =>
    if f.offset < stop then
      if f.offset + f.length < start then
        -- the block has passed this input
        mmLoop start stop fs (idx + 1)
      else if f.offset + f.length ≤ stop then
        let (keys, idx) := mmLoop start stop fs (idx + 1)
        (.str f.identifier :: keys, idx)
      else ([.str f.identifier], idx)
    else ([], idx)

/-- `_gen_mm_extra_hash_keys`; the number of the first input to look at counts from the
end if it is negative. -/
def genMmExtraHashKeys (start stop : ℕ) (idx : ℤ) : List ExtraKey × ℤ :=
  match r.mmFeatures.getLast? with
  | none => ([], idx)
  | some last =>
    if last.offset + last.length < start then ([], idx)
    else
      let first := (if idx < 0 then r.mmFeatures.length + idx else idx).toNat
      let (keys, next) := mmLoop start stop (r.mmFeatures.drop first) first
      (keys, next)

/-- `_gen_lora_extra_hash_keys`. -/
def genLoraExtraHashKeys : List ExtraKey := r.loraName.toList.map .str

/-- The salt, in the first block; an empty salt is none. -/
def cacheSaltKeys (start : ℕ) : List ExtraKey :=
  match r.cacheSalt with
  | none => []
  | some salt => if start = 0 ∧ salt ≠ "" then [.str salt] else []

/-- `_gen_prompt_embeds_extra_hash_keys`. -/
def genPromptEmbedsExtraHashKeys (start stop : ℕ) : List ExtraKey :=
  match r.promptEmbeds with
  | none => []
  | some rows => [.bytes ((rows.drop start).take (stop - start)).flatten]

/-- `generate_block_hash_extra_keys`. -/
def generateBlockHashExtraKeys (start stop : ℕ) (idx : ℤ) : Option (List ExtraKey) × ℤ :=
  let (mmKeys, next) := r.genMmExtraHashKeys start stop idx
  let keys := r.genLoraExtraHashKeys ++ mmKeys ++ r.cacheSaltKeys start ++
    r.genPromptEmbedsExtraHashKeys start stop
  (if keys = [] then none else some keys, next)

end VllmRequest

/-- What vLLM hashes blocks with. -/
structure BlockHasher where
  hashFunction : List UInt8 × List ℤ × Option (List ExtraKey) → List UInt8
  noneHash : List UInt8
  /-- Tokens in a block. -/
  blockSize : ℕ

namespace BlockHasher

variable (H : BlockHasher)

/-- `hash_block_tokens`; an empty parent hash counts as none. -/
def hashBlockTokens (parent : Option (List UInt8)) (tokens : List ℤ)
    (extra : Option (List ExtraKey)) : List UInt8 :=
  let parent := match parent with
    | none => H.noneHash
    | some p => if p = [] then H.noneHash else p
  H.hashFunction (parent, tokens, extra)

/-- The loop of `request_block_hasher`. -/
def hasherLoop (r : VllmRequest) (start : ℕ) (idx : ℤ) (prev : Option (List UInt8)) : List (List UInt8) :=
  if _h : 0 < H.blockSize ∧ start + H.blockSize ≤ r.allTokenIds.length then
    let stop := start + H.blockSize
    let (extra, idx) := r.generateBlockHashExtraKeys start stop idx
    let hash := H.hashBlockTokens prev ((r.allTokenIds.drop start).take (stop - start)) extra
    hash :: hasherLoop r stop idx (some hash)
  else []
termination_by r.allTokenIds.length - start
decreasing_by omega

/-- `request_block_hasher`: the hashes of the full blocks that have none yet. -/
def requestBlockHasher (r : VllmRequest) (blockHashes : List (List UInt8)) : List (List UInt8) :=
  let start := blockHashes.length * H.blockSize
  H.hasherLoop r start (if start > 0 then -1 else 0) blockHashes.getLast?

/-! ### The hashes of a new request, block by block -/

/-- The number of the multi-modal input the hasher is at when it comes to block `b`. -/
def mmIdxAt (r : VllmRequest) : ℕ → ℤ
  | 0 => 0
  | b + 1 =>
    (r.generateBlockHashExtraKeys (b * H.blockSize) (b * H.blockSize + H.blockSize) (mmIdxAt r b)).2

/-- The extra keys of block `b`. -/
def extraKeysAt (r : VllmRequest) (b : ℕ) : Option (List ExtraKey) :=
  (r.generateBlockHashExtraKeys (b * H.blockSize) (b * H.blockSize + H.blockSize) (H.mmIdxAt r b)).1

/-- The token ids of block `b`. -/
def tokensAt (r : VllmRequest) (b : ℕ) : List ℤ := (r.allTokenIds.drop (b * H.blockSize)).take H.blockSize

/-- The hash of the block before block `b`. -/
def hashBefore (r : VllmRequest) : ℕ → Option (List UInt8)
  | 0 => none
  | b + 1 => some (H.hashBlockTokens (hashBefore r b) (H.tokensAt r b) (H.extraKeysAt r b))

/-- The hash of block `b`. -/
def hashAt (r : VllmRequest) (b : ℕ) : List UInt8 :=
  H.hashBlockTokens (H.hashBefore r b) (H.tokensAt r b) (H.extraKeysAt r b)

variable {H} {r : VllmRequest}

theorem hashBefore_succ (b : ℕ) : H.hashBefore r (b + 1) = some (H.hashAt r b) := rfl

/-- From block `b` on, the loop returns the hashes of the full blocks. -/
theorem hasherLoop_getElem? (hpos : 0 < H.blockSize) {m b : ℕ}
    (hb : (b + m + 1) * H.blockSize ≤ r.allTokenIds.length) :
    (H.hasherLoop r (b * H.blockSize) (H.mmIdxAt r b) (H.hashBefore r b))[m]? =
        some (H.hashAt r (b + m)) := by
  induction m generalizing b with
  | zero =>
    rw [Nat.add_zero, Nat.succ_mul] at hb
    rw [hasherLoop, dif_pos ⟨hpos, hb⟩]
    simp only [Nat.add_sub_cancel_left, List.getElem?_cons_zero, Nat.add_zero]
    rfl
  | succ m ih =>
    have hfirst : b * H.blockSize + H.blockSize ≤ r.allTokenIds.length := by
      refine le_trans ?_ hb
      rw [← Nat.succ_mul]
      exact Nat.mul_le_mul_right _ (by omega)
    have hrest := @ih (b + 1) (by rwa [show b + 1 + m + 1 = b + (m + 1) + 1 by omega])
    rw [hasherLoop, dif_pos ⟨hpos, hfirst⟩]
    simp only [Nat.add_sub_cancel_left, List.getElem?_cons_succ]
    rw [show b + (m + 1) = b + 1 + m by omega, ← hrest, Nat.succ_mul]
    rfl

theorem requestBlockHasher_getElem? (hpos : 0 < H.blockSize) {b : ℕ}
    (hb : (b + 1) * H.blockSize ≤ r.allTokenIds.length) :
    (H.requestBlockHasher r [])[b]? = some (H.hashAt r b) := by
  have h := @hasherLoop_getElem? H r hpos b 0 (by rwa [Nat.zero_add])
  rw [Nat.zero_add, hashBefore, mmIdxAt, Nat.zero_mul] at h
  rw [requestBlockHasher, List.length_nil, Nat.zero_mul]
  exact h

/-- Blocks with equal tokens and extra keys, all the way, have equal hashes. -/
theorem hashAt_congr {r' : VllmRequest} {b : ℕ}
    (htokens : (∀ c ≤ b, H.tokensAt r c = H.tokensAt r' c))
    (hextra : (∀ c ≤ b, H.extraKeysAt r c = H.extraKeysAt r' c)) :
    H.hashAt r b = H.hashAt r' b := by
  induction b with
  | zero =>
    rw [hashAt, hashAt, htokens 0 le_rfl, hextra 0 le_rfl, hashBefore, hashBefore]
  | succ b ih =>
    have hprev := ih (fun c hc => htokens c (Nat.le_succ_of_le hc))
      fun c hc => hextra c (Nat.le_succ_of_le hc)
    rw [hashAt, hashAt, htokens _ le_rfl, hextra _ le_rfl, hashBefore_succ, hashBefore_succ, hprev]

theorem extraKeysAt_of_hashAt (hinj : Injective H.hashFunction) {r' : VllmRequest} {b : ℕ}
    (h : H.hashAt r b = H.hashAt r' b) : H.extraKeysAt r b = H.extraKeysAt r' b := by
  have hparts := hinj h
  simp only [Prod.mk.injEq] at hparts
  exact hparts.2.2

theorem extraKeysAt_of_plain (hembeds : r.promptEmbeds = none) (hmm : r.mmFeatures = [])
    (hlora : r.loraName = none) (hsalt : r.cacheSalt = none) (b : ℕ) : H.extraKeysAt r b = none := by
  simp [extraKeysAt, VllmRequest.generateBlockHashExtraKeys, VllmRequest.genMmExtraHashKeys,
    VllmRequest.genLoraExtraHashKeys, VllmRequest.cacheSaltKeys, VllmRequest.genPromptEmbedsExtraHashKeys,
    hembeds, hmm, hlora, hsalt]

/-! ### Keys of the pool and block hashes -/

theorem tokensAt_eq {n b : ℕ} (hn : n ≤ r.tokenIds.length) (hb : (b + 1) * H.blockSize ≤ n)
    (hpos : 0 < H.blockSize) :
    H.tokensAt r b = ((r.tokenIds.take n).drop (b * H.blockSize)).take H.blockSize := by
  rw [Nat.succ_mul] at hb
  have hids : r.allTokenIds = r.tokenIds ++ r.outputTokenIds := by
    unfold VllmRequest.tokenIds at hn ⊢
    unfold VllmRequest.allTokenIds
    cases hprompt : r.promptTokenIds with
    | none =>
      rw [hprompt, Option.getD_none, List.length_nil] at hn
      omega
    | some ids => rfl
  rw [tokensAt, hids, List.drop_append_of_le_length (by omega),
    List.take_append_of_le_length (by rw [List.length_drop]; omega), List.drop_take, List.take_take,
    Nat.min_eq_left (by omega)]

theorem chunk_le_length {cfg : KeyConfig} {h : Digest} {seed : List UInt8} {ids : List ℤ}
    {keys : List String} (hkeys : cfg.keysOf h seed ids = .ok keys) {i : ℕ} (hi : i < keys.length) :
    (i + 1) * cfg.chunkTokens ≤ ids.length := by
  rw [length_chunkKeys hkeys] at hi
  have hle : i + 1 ≤ ids.length / cfg.chunkTokens := by omega
  exact (Nat.mul_le_mul_right _ hle).trans (Nat.div_mul_le_self _ _)

/-- **When a key of the pool is as fine as the block hashes.** For two requests that both
have a key at index `i`: an equal key there implies equal hashes of all blocks up to the
end of its chunk if and only if the token ids up to there differ, or the extra keys of all
those blocks are equal. -/
theorem shared_key_iff {h : Digest} (hinj : Injective h)
    (Hinj : Injective H.hashFunction) (hpos : 0 < H.blockSize) {cfg : KeyConfig}
    {seed : List UInt8} {r' : VllmRequest} {keys keys' : List String}
    (hkeys : cfg.keysOf h seed r.tokenIds = .ok keys)
    (hkeys' : cfg.keysOf h seed r'.tokenIds = .ok keys')
    {i : ℕ} (hi : i < keys.length) (hi' : i < keys'.length) :
    (keys[i]? = keys'[i]? → ∀ b, (b + 1) * H.blockSize ≤ (i + 1) * cfg.chunkTokens →
      (H.requestBlockHasher r [])[b]? = (H.requestBlockHasher r' [])[b]?) ↔
    (r.tokenIds.take ((i + 1) * cfg.chunkTokens) ≠ r'.tokenIds.take ((i + 1) * cfg.chunkTokens) ∨
      ∀ b, (b + 1) * H.blockSize ≤ (i + 1) * cfg.chunkTokens →
        H.extraKeysAt r b = H.extraKeysAt r' b) := by
  have hn := chunk_le_length hkeys hi
  have hn' := chunk_le_length hkeys' hi'
  have hall : ∀ {q : VllmRequest}, (i + 1) * cfg.chunkTokens ≤ q.tokenIds.length →
      (i + 1) * cfg.chunkTokens ≤ q.allTokenIds.length := by
    intro q hq
    refine hq.trans ?_
    unfold VllmRequest.tokenIds VllmRequest.allTokenIds
    cases q.promptTokenIds with
    | none => exact Nat.zero_le _
    | some ids => simp
  -- the hashes of a block, once it is known to be full
  have hhash : ∀ {b}, (b + 1) * H.blockSize ≤ (i + 1) * cfg.chunkTokens →
      ((H.requestBlockHasher r [])[b]? = (H.requestBlockHasher r' [])[b]? ↔
        H.hashAt r b = H.hashAt r' b) := by
    intro b hb
    rw [requestBlockHasher_getElem? hpos (hb.trans (hall hn)),
      requestBlockHasher_getElem? hpos (hb.trans (hall hn')), Option.some.injEq]
  rw [chunkKeys_getElem?_eq_iff hinj hkeys hkeys' hi hi']
  constructor
  · intro himp
    by_cases heq : r.tokenIds.take ((i + 1) * cfg.chunkTokens) =
        r'.tokenIds.take ((i + 1) * cfg.chunkTokens)
    · exact Or.inr fun b hb => extraKeysAt_of_hashAt Hinj ((hhash hb).mp (himp heq b hb))
    · exact Or.inl heq
  · intro hcond heq b hb
    rcases hcond with hne | hextra
    · exact absurd heq hne
    · rw [hhash hb]
      -- every block before `b` lies in the chunk too
      have hbefore : ∀ c ≤ b, (c + 1) * H.blockSize ≤ (i + 1) * cfg.chunkTokens := by
        intro c hc
        exact (Nat.mul_le_mul_right _ (Nat.succ_le_succ hc)).trans hb
      apply hashAt_congr
      · intro c hc
        rw [tokensAt_eq hn (hbefore c hc) hpos, tokensAt_eq hn' (hbefore c hc) hpos, heq]
      · intro c hc
        exact hextra c (hbefore c hc)

theorem exists_injective_hash :
    ∃ f : List UInt8 × List ℤ × Option (List ExtraKey) → List UInt8, Injective f := by
  have hbyte : Countable UInt8 := Injective.countable (f := UInt8.toNat) fun a b h =>
    UInt8.toNat_inj.mp h
  have hchar : Countable Char := Injective.countable (f := Char.toNat) fun a b h =>
    Char.toNat_inj.mp h
  have hstring : Countable String := Injective.countable (f := String.toList) fun a b h =>
    String.toList_inj.mp h
  have hkey : Countable ExtraKey := by
    apply Injective.countable (β := String ⊕ List UInt8)
      (f := fun | .str s => .inl s | .bytes b => .inr b)
    rintro (s | b) (s' | b') heq
    · rw [Sum.inl.inj heq]
    · cases heq
    · cases heq
    · rw [Sum.inr.inj heq]
  obtain ⟨f, hf⟩ := exists_injective_nat (List UInt8 × List ℤ × Option (List ExtraKey))
  refine ⟨fun x => List.replicate (f x) 0, fun x y h => hf ?_⟩
  simpa using congrArg List.length h

/-- Chunks of two tokens, without limits. -/
def sampleKeyConfig : KeyConfig := ⟨2, 0, 0, by decide⟩

/-- A request of text for an adapter. -/
def adapterRequest (loraName : Option String) (ids : List ℤ) : VllmRequest :=
  ⟨some ids, none, [], [], loraName, none⟩

theorem shared_key_of_plain_requests : ∃ H : BlockHasher, Injective H.hashFunction ∧
    ∃ keys keys', sampleKeyConfig.keysOf id [] (adapterRequest none [1, 2, 3]).tokenIds = .ok keys ∧
      sampleKeyConfig.keysOf id [] (adapterRequest none [1, 2, 4, 5]).tokenIds = .ok keys' ∧
      keys[0]? = keys'[0]? ∧
      (H.requestBlockHasher (adapterRequest none [1, 2, 3]) [])[1]? =
        (H.requestBlockHasher (adapterRequest none [1, 2, 4, 5]) [])[1]? := by
  obtain ⟨f, hf⟩ := exists_injective_hash
  refine ⟨⟨f, [], 1⟩, hf, _, _, rfl, rfl, rfl, ?_⟩
  have hkeys : sampleKeyConfig.keysOf id [] (adapterRequest none [1, 2, 3]).tokenIds = .ok _ := rfl
  have hkeys' : sampleKeyConfig.keysOf id [] (adapterRequest none [1, 2, 4, 5]).tokenIds = .ok _ := rfl
  have h := shared_key_iff (H := ⟨f, [], 1⟩) (i := 0) Function.injective_id hf Nat.one_pos
    hkeys hkeys' (by decide) (by decide)
  refine h.mpr (Or.inr fun b _ => ?_) rfl 1 (le_refl 2)
  rw [extraKeysAt_of_plain rfl rfl rfl rfl, extraKeysAt_of_plain rfl rfl rfl rfl]

/-- Two adapters, one key: the hashes of the first block differ. -/
theorem shared_key_of_two_adapters : ∃ H : BlockHasher, Injective H.hashFunction ∧
    0 < H.blockSize ∧ H.blockSize ∣ sampleKeyConfig.chunkTokens ∧ ∃ keys keys',
      sampleKeyConfig.keysOf id [] (adapterRequest (some "a") [1, 2]).tokenIds = .ok keys ∧
      sampleKeyConfig.keysOf id [] (adapterRequest (some "b") [1, 2]).tokenIds = .ok keys' ∧
      keys.length = 1 ∧ keys[0]? = keys'[0]? ∧
      (H.requestBlockHasher (adapterRequest (some "a") [1, 2]) [])[0]? ≠
        (H.requestBlockHasher (adapterRequest (some "b") [1, 2]) [])[0]? := by
  obtain ⟨f, hf⟩ := exists_injective_hash
  refine ⟨⟨f, [], 2⟩, hf, Nat.two_pos, dvd_refl 2, _, _, rfl, rfl, rfl, rfl, ?_⟩
  rw [requestBlockHasher_getElem? Nat.two_pos (le_refl 2),
    requestBlockHasher_getElem? Nat.two_pos (le_refl 2)]
  intro heq
  -- the adapter's name is among the extra keys
  have hextra := extraKeysAt_of_hashAt (H := ⟨f, [], 2⟩) hf (Option.some.inj heq)
  have hnames : some [ExtraKey.str "a"] = some [ExtraKey.str "b"] := hextra
  exact absurd hnames (by decide)

end BlockHasher

end CacheFlow
