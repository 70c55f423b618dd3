import CacheFlow.Vllm.Request

/-!
# Streaming sessions

A resumable request goes on after it has stopped: `_update_request_as_session` keeps the tokens
whose KV is computed, drops the others and appends the next chunk of the prompt. The hash list is
only ever extended. A hash of a block that lost a token in the cut is still there afterwards, and
it describes the session only if the chunk brings the token back.

## Main definitions

* `Request.SessionConsistent` — what an update should establish.

## Main results

* `Request.sessionConsistent_iff` — an update is consistent exactly when the chunk fits.
-/

namespace CacheFlow.Vllm

open List Hasher

/-- The tokens of block `i`. -/
def blockAt (tokens : List ℤ) (blockSize i : ℕ) : List ℤ := (tokens.drop (i * blockSize)).take blockSize

/-- `h` is the chained hash of the first `i + 1` blocks of the tokens. -/
def Hasher.IsPrefixHash {H : Type} (hasher : Hasher H) (tokens : List ℤ) (blockSize i : ℕ) (h : H) :
    Prop :=
  (i + 1) * blockSize ≤ tokens.length ∧
    ∃ blocks : List HashedBlock,
      blocks.map Prod.fst = (List.range (i + 1)).map (blockAt tokens blockSize) ∧
        (hasher.chainOf blocks)[i]? = some h

namespace Request

variable {H : Type} {hasher : Option ℕ} {blockSize : ℕ} {r r' : Request}

/-! ### Hashed blocks -/

/-- Every hashed block is the block of the current tokens at its place. -/
def Hashed (blockSize : ℕ) (r : Request) : Prop :=
  ∀ i b, r.hashedBlocks[i]? = some b →
    (i + 1) * blockSize ≤ r.numTokens ∧ b.1 = blockAt r.allTokenIds blockSize i

/-- That is what the hashes say under a collision-free function. -/
theorem hashed_iff (H' : Hasher H) : r.Hashed blockSize ↔
    ∀ i h, (r.blockHashes H')[i]? = some h → H'.IsPrefixHash r.allTokenIds blockSize i h := by
  constructor
  · intro hhashed i h hi
    obtain ⟨hlt, -⟩ := List.getElem?_eq_some_iff.mp hi
    rw [blockHashes, length_chainOf] at hlt
    refine ⟨(hhashed i _ (List.getElem?_eq_getElem hlt)).1, r.hashedBlocks.take (i + 1), ?_, ?_⟩
    · refine ext_getElem (by simp; omega) fun j hj _ => ?_
      rw [length_map, length_take] at hj
      have hj' : j < r.hashedBlocks.length := by omega
      have hblock := (hhashed j _ (List.getElem?_eq_getElem hj')).2
      simpa using hblock
    · rw [← hi, blockHashes]
      refine (H'.chainOf_getElem?_eq_iff (by rw [length_take]; omega) hlt).mpr ?_
      rw [take_take, Nat.min_self]
  · intro hall i b hb
    obtain ⟨hlt, -⟩ := List.getElem?_eq_some_iff.mp hb
    have hi : i < (r.blockHashes H').length := by
      rwa [blockHashes, length_chainOf]
    obtain ⟨hle, blocks, hblocks, hchain⟩ := hall i _ (List.getElem?_eq_getElem hi)
    have hlen : i < blocks.length := by
      have := congrArg List.length hblocks
      simp only [length_map, length_range] at this
      omega
    -- equal digests at `i` come from the same blocks
    have hsame := (H'.chainOf_getElem?_eq_iff hlen hlt).mp
      (hchain.trans (List.getElem?_eq_getElem hi).symm)
    have hget : blocks[i]? = some b := by
      have := congrArg (·[i]?) hsame
      simpa [List.getElem?_take, hb] using this
    refine ⟨hle, ?_⟩
    have hfst := congrArg (·[i]?) hblocks
    simpa [hget] using hfst

theorem hasherLoop_getElem? {n m b : ℕ} {idx : ℤ} {x : HashedBlock}
    (hx : (r.hasherLoop blockSize n (b * blockSize) idx)[m]? = some x) :
    m < n ∧ x.1 = blockAt r.allTokenIds blockSize (b + m) := by
  induction n generalizing m b idx x with
  | zero => cases hx
  | succ n ih =>
    rw [hasherLoop] at hx
    cases m with
    | zero =>
      rw [List.getElem?_cons_zero, Option.some.injEq] at hx
      subst hx
      exact ⟨Nat.succ_pos n, rfl⟩
    | succ m =>
      rw [List.getElem?_cons_succ, ← Nat.succ_mul] at hx
      obtain ⟨hm, hx⟩ := ih hx
      refine ⟨Nat.succ_lt_succ hm, ?_⟩
      rw [hx, Nat.succ_add_eq_add_succ]

@[simp] theorem length_hasherLoop (n start : ℕ) (idx : ℤ) :
    (r.hasherLoop blockSize n start idx).length = n := by
  induction n generalizing start idx with
  | zero => exact rfl
  | succ n ih =>
    rw [hasherLoop, length_cons, ih]

/-- Hashing the new blocks leaves a request whose old blocks are hashed right with as many hashes
as it has full blocks. -/
theorem Hashed.extend (h : r.Hashed blockSize) (hpos : 0 < blockSize) :
    (r.extendBlockHashes (some blockSize)).Hashed blockSize ∧
      (r.hashedBlocks.length * blockSize ≤ r.numTokens →
        (r.extendBlockHashes (some blockSize)).hashedBlocks.length = r.numTokens / blockSize) := by
  constructor
  · intro i b hb
    rw [extendBlockHashes, getHashNewFullBlocks] at hb
    rcases Nat.lt_or_ge i r.hashedBlocks.length with hlt | hge
    · rw [List.getElem?_append_left hlt] at hb
      exact h i b hb
    · rw [List.getElem?_append_right hge] at hb
      obtain ⟨hm, hb⟩ := hasherLoop_getElem? hb
      rw [Nat.add_sub_cancel' hge] at hb
      refine ⟨?_, hb⟩
      show (i + 1) * blockSize ≤ r.numTokens
      exact (Nat.le_div_iff_mul_le hpos).mp (by omega)
  · intro hle
    have := (Nat.le_div_iff_mul_le hpos).mpr hle
    rw [extendBlockHashes, getHashNewFullBlocks, length_append, length_hasherLoop]
    omega

theorem Hashed.length_le (h : r.Hashed blockSize) :
    r.hashedBlocks.length * blockSize ≤ r.numTokens := by
  rcases Nat.eq_zero_or_pos r.hashedBlocks.length with hzero | hpos
  · rw [hzero, Nat.zero_mul]
    exact Nat.zero_le _
  · have hlast := (h _ _ (List.getElem?_eq_getElem (Nat.sub_one_lt_of_lt hpos))).1
    rwa [Nat.sub_add_cancel hpos] at hlast

/-- The hashed blocks are right for other tokens exactly when those begin with the blocks. -/
theorem Hashed.iff_take_eq (h : r.Hashed blockSize) (hblocks : r'.hashedBlocks = r.hashedBlocks) :
    r'.Hashed blockSize ↔ r'.allTokenIds.take (r.hashedBlocks.length * blockSize) =
      r.allTokenIds.take (r.hashedBlocks.length * blockSize) := by
  have hle : _ ≤ r.allTokenIds.length := h.length_le
  rw [take_mul_eq_iff]
  constructor
  · intro h' m hm
    have hm' := List.getElem?_eq_getElem hm
    exact (h' m _ (by rw [hblocks, hm'])).2.symm.trans (h m _ hm').2
  · intro heq i b hb
    rw [hblocks] at hb
    obtain ⟨hlt, -⟩ := List.getElem?_eq_some_iff.mp hb
    refine ⟨?_, (h i b hb).2.trans (heq i hlt).symm⟩
    -- the tokens are as long as what they begin with
    have hlen := congrArg List.length ((take_mul_eq_iff blockSize _).mpr heq)
    rw [length_take, length_take, Nat.min_eq_left hle] at hlen
    have hmul : (i + 1) * blockSize ≤ r.hashedBlocks.length * blockSize :=
      Nat.mul_le_mul_right blockSize hlt
    exact hmul.trans (min_eq_left_iff.mp hlen)

/-! ### Histories -/

/-- Two states of a request with the same tokens and hashes. -/
structure SameTokens (r r' : Request) : Prop where
  promptTokenIds : r'.promptTokenIds = r.promptTokenIds
  numPromptTokens : r'.numPromptTokens = r.numPromptTokens
  outputTokenIds : r'.outputTokenIds = r.outputTokenIds
  allTokenIds : r'.allTokenIds = r.allTokenIds
  hashedBlocks : r'.hashedBlocks = r.hashedBlocks

/-- What every update of a session should establish: the tokens are the old prompt, the output
tokens whose KV was computed and the chunk, all of them prompt; no more than the kept part counts
as computed; and the hashes are those of the tokens. -/
structure SessionConsistent (H' : Hasher H) (hasher : Option ℕ) (r : Request)
    (update : StreamingUpdate) (r' : Request) : Prop where
  allTokenIds : r'.allTokenIds = r.promptTokenIds ++
    r.outputTokenIds.take (r.numComputedTokens - r.numPromptTokens).toNat ++ update.promptTokenIds
  promptTokenIds : r'.promptTokenIds = r'.allTokenIds
  numPromptTokens : r'.numPromptTokens = r'.allTokenIds.length
  /-- Only kept tokens are computed. -/
  numComputedTokens : r'.numComputedTokens ≤ (r.promptTokenIds ++
    r.outputTokenIds.take (r.numComputedTokens - r.numPromptTokens).toNat).length
  /-- The hashes are those of the tokens. -/
  blockHashes : ∀ blockSize ∈ hasher, ∀ i h, (r'.blockHashes H')[i]? = some h →
    H'.IsPrefixHash r'.allTokenIds blockSize i h

/-- When it does: all of the prompt is computed and no more than there are tokens, and the tokens
that are cut off from hashed blocks are the first of the chunk.  (A negative number of computed
tokens counts from the end.) -/
structure SessionFits (hasher : Option ℕ) (r : Request) (update : StreamingUpdate) : Prop where
  /-- The cut is in the output. -/
  numComputedTokens :
    ((r.numPromptTokens : ℤ) ≤ r.numComputedTokens ∧ r.numComputedTokens ≤ r.numTokens) ∨
      (r.numComputedTokens < 0 ∧ sliceEnd r.numTokens r.numComputedTokens = r.numPromptTokens)
  /-- The chunk repeats what was hashed and is cut off. -/
  repeats : ∀ blockSize ∈ hasher, (r.allTokenIds.take (r.hashedBlocks.length * blockSize)).drop
    (sliceEnd r.numTokens r.numComputedTokens) <+: update.promptTokenIds

variable (hasher) in
/-- What can happen to a resumable request: it is made; it is scheduled, gets draft tokens, has
some of them rejected, is preempted, which changes its counts; it gets output, up to where it
stops; it gets its next chunk. -/
inductive History : Request → Prop
  | created (a : Args) : History (create hasher a)
  /-- Other counts and another status. -/
  | counted {r r' : Request} (h : History r) (hsame : SameTokens r r') : History r'
  | output {r r' : Request} {maxModelLen : ℕ} {tokens : List ℤ} {x : List ℤ × Bool} (h : History r)
    (hout : r.updateWithOutput hasher maxModelLen tokens = .ok (x, r')) : History r'
  /-- The next chunk, one that fits. -/
  | session {r : Request} {update : StreamingUpdate} (h : History r)
    (hfits : SessionFits hasher r update) : History (r.updateAsSession hasher update)

/-- What holds along a history. -/
structure WellFormed (hasher : Option ℕ) (r : Request) : Prop where
  allTokenIds : r.allTokenIds = r.promptTokenIds ++ r.outputTokenIds
  numPromptTokens : r.numPromptTokens = r.promptTokenIds.length
  hashed : ∀ blockSize ∈ hasher, r.Hashed blockSize
  /-- There are as many as full blocks. -/
  length_hashedBlocks : ∀ blockSize ∈ hasher, r.hashedBlocks.length = r.numTokens / blockSize

theorem WellFormed.sameTokens (h : WellFormed hasher r) (hsame : SameTokens r r') :
    WellFormed hasher r' := by
  refine ⟨?_, ?_, fun blockSize hb i b hib => ?_, fun blockSize hb => ?_⟩
  · rw [hsame.allTokenIds, hsame.promptTokenIds, hsame.outputTokenIds, h.allTokenIds]
  · rw [hsame.numPromptTokens, hsame.promptTokenIds, h.numPromptTokens]
  · rw [hsame.hashedBlocks] at hib
    rw [numTokens, hsame.allTokenIds]
    exact h.hashed blockSize hb i b hib
  · rw [hsame.hashedBlocks, numTokens, hsame.allTokenIds]
    exact h.length_hashedBlocks blockSize hb

/-- Hashing what is new makes a request well-formed whose old hashes are right. -/
theorem wellFormed_extend (hpos : ∀ blockSize ∈ hasher, 0 < blockSize)
    (hall : r.allTokenIds = r.promptTokenIds ++ r.outputTokenIds)
    (hprompt : r.numPromptTokens = r.promptTokenIds.length)
    (hhashed : ∀ blockSize ∈ hasher, r.Hashed blockSize) :
    WellFormed hasher (r.extendBlockHashes hasher) := by
  have hextend : ∀ blockSize ∈ hasher, (r.extendBlockHashes hasher).Hashed blockSize ∧
      (r.extendBlockHashes hasher).hashedBlocks.length = r.numTokens / blockSize := by
    intro blockSize hb
    have hhashed := hhashed blockSize hb
    have hpos := hpos blockSize hb
    rw [hb]
    exact ⟨(hhashed.extend hpos).1, (hhashed.extend hpos).2 hhashed.length_le⟩
  exact ⟨hall, hprompt, fun blockSize hb => (hextend blockSize hb).1,
    fun blockSize hb => (hextend blockSize hb).2⟩

theorem wellFormed_create (hpos : ∀ blockSize ∈ hasher, 0 < blockSize) (a : Args) :
    WellFormed hasher (create hasher a) :=
  wellFormed_extend hpos (append_nil _).symm rfl fun _ _ _ _ h => by cases h

theorem WellFormed.append (h : WellFormed hasher r) (hpos : ∀ blockSize ∈ hasher, 0 < blockSize)
    (token : ℤ) : WellFormed hasher (r.appendOutputTokenIds hasher token) := by
  refine wellFormed_extend hpos ?_ h.numPromptTokens fun blockSize hb => ?_
  · show r.allTokenIds ++ [token] = r.promptTokenIds ++ (r.outputTokenIds ++ [token])
    rw [h.allTokenIds, append_assoc]
  · refine ((h.hashed blockSize hb).iff_take_eq ?_).mpr ?_
    · rfl
    · exact take_append_of_le_length (h.hashed blockSize hb).length_le

theorem sameTokens_withStatus (r : Request) (status : RequestStatus) :
    SameTokens r (r.withStatus status) := ⟨rfl, rfl, rfl, rfl, rfl⟩

theorem WellFormed.updateWithOutput (hpos : ∀ blockSize ∈ hasher, 0 < blockSize) {maxModelLen : ℕ} :
    ∀ {tokens : List ℤ} {r : Request}, WellFormed hasher r →
      Ensures (r.updateWithOutput hasher maxModelLen tokens) fun x => WellFormed hasher x.2 := by
  intro tokens
  induction tokens with
  | nil => exact fun h => ensures_ok.mpr h
  | cons token tokens ih =>
    intro r h
    have happend := h.append hpos token
    rw [Request.updateWithOutput, ensures_bind]
    refine (checkStop_ensures maxModelLen _).mono ?_
    rintro ⟨stopped, r'⟩ (⟨hgoes, hr'⟩ | ⟨hstops, status, -, hr'⟩)
    · obtain rfl : stopped = false := hgoes
      obtain rfl : r' = _ := hr'
      show Ensures (_ >>= _) _
      rw [ensures_bind]
      exact (ih happend).mono fun y hy => ensures_pure.mpr hy
    · obtain rfl : stopped = true := hstops
      obtain rfl : r' = _ := hr'
      exact ensures_pure.mpr (happend.sameTokens (sameTokens_withStatus _ status))

/-! ### An update -/

/-- The chunk after what is kept begins with the first `n` tokens exactly when it begins with those
of them that are cut off. -/
theorem take_append_eq_iff {tokens chunk : List ℤ} {stop n : ℕ} (hn : n ≤ tokens.length) :
    (tokens.take stop ++ chunk).take n = tokens.take n ↔ (tokens.take n).drop stop <+: chunk := by
  rcases Nat.le_or_ge n stop with hle | hge
  · refine iff_of_true ?_ ?_
    · rw [take_append_of_le_length (by rw [length_take]; omega), take_take,
        Nat.min_eq_left hle]
    · rw [drop_eq_nil_of_le (by rw [length_take]; omega)]
      exact nil_prefix
  · have hstop : (tokens.take stop).length = stop := by
      rw [length_take]
      omega
    have hsplit : tokens.take n = tokens.take stop ++ (tokens.take n).drop stop := by
      have happend := (take_append_drop stop (tokens.take n)).symm
      rwa [take_take, Nat.min_eq_left hge] at happend
    have htake : (tokens.take stop ++ chunk).take n = tokens.take stop ++ chunk.take (n - stop) := by
      rw [take_append, hstop, take_of_length_le (by omega)]
    have hlen : ((tokens.take n).drop stop).length = n - stop := by
      rw [length_drop, length_take]
      omega
    rw [htake, hsplit, append_cancel_left_eq, prefix_iff_eq_take, ← hsplit, hlen]
    exact eq_comm

/-- What is kept is the prompt and the computed output exactly when the cut is in the output, or
counts back to its start. -/
theorem WellFormed.keptTokens_eq_iff (h : WellFormed hasher r) :
    r.keptTokens = r.promptTokenIds ++
        r.outputTokenIds.take (r.numComputedTokens - r.numPromptTokens).toNat ↔
      (r.numPromptTokens : ℤ) ≤ r.numComputedTokens ∨
        (r.numComputedTokens < 0 ∧ sliceEnd r.numTokens r.numComputedTokens = r.numPromptTokens) := by
  have hlen : r.numPromptTokens ≤ r.allTokenIds.length := by
    rw [h.allTokenIds, h.numPromptTokens, length_append]
    exact Nat.le_add_right ..
  -- both sides are initial parts of the tokens
  have hright : r.promptTokenIds ++
      r.outputTokenIds.take (r.numComputedTokens - r.numPromptTokens).toNat = r.allTokenIds.take
        (r.numPromptTokens + (r.numComputedTokens - r.numPromptTokens).toNat) := by
    rw [h.allTokenIds, h.numPromptTokens, take_length_add_append]
  rw [keptTokens, hright, take_eq_take_iff, numTokens, sliceEnd]
  split_ifs with hneg
  · omega
  · omega

/-- The old hashes are right for the new tokens exactly when the chunk repeats what is cut off. -/
theorem Hashed.recut_iff (h : r.Hashed blockSize) (update : StreamingUpdate) :
    (r.recut update).Hashed blockSize ↔
      (r.allTokenIds.take (r.hashedBlocks.length * blockSize)).drop
        (sliceEnd r.numTokens r.numComputedTokens) <+: update.promptTokenIds := by
  rw [h.iff_take_eq (show (r.recut update).hashedBlocks = r.hashedBlocks from rfl)]
  exact take_append_eq_iff h.length_le

/-- The hashes of the new blocks are right in any case. -/
theorem hashed_extend_iff (hpos : 0 < blockSize) :
    (r.extendBlockHashes (some blockSize)).Hashed blockSize ↔ r.Hashed blockSize := by
  constructor
  · intro h i b hib
    obtain ⟨hlt, -⟩ := List.getElem?_eq_some_iff.mp hib
    refine h i b ?_
    rw [extendBlockHashes, List.getElem?_append_left hlt, hib]
  · exact fun h => (h.extend hpos).1

/-- An update of a well-formed request is consistent exactly when the chunk fits. -/
theorem WellFormed.consistent_iff (h : WellFormed hasher r)
    (hpos : ∀ blockSize ∈ hasher, 0 < blockSize) (H' : Hasher H) (update : StreamingUpdate) :
    SessionConsistent H' hasher r update (r.updateAsSession hasher update) ↔
      SessionFits hasher r update := by
  have hkept := h.keptTokens_eq_iff
  have hlen : r.allTokenIds.length = r.numPromptTokens + r.outputTokenIds.length := by
    rw [h.allTokenIds, h.numPromptTokens, length_append]
  -- the hashes are right exactly when the old ones are
  have hhashes : ∀ blockSize ∈ hasher, (r.updateAsSession hasher update).Hashed blockSize ↔
      (r.allTokenIds.take (r.hashedBlocks.length * blockSize)).drop
        (sliceEnd r.numTokens r.numComputedTokens) <+: update.promptTokenIds := by
    intro blockSize hb
    refine Iff.trans ?_ ((h.hashed blockSize hb).recut_iff update)
    refine Iff.trans ?_ (hashed_extend_iff (hpos blockSize hb))
    rw [hb]
    exact Iff.rfl
  constructor
  · intro hc
    have heq : r.keptTokens = _ := append_cancel_right hc.allTokenIds
    refine ⟨?_, fun blockSize hb => (hhashes blockSize hb).mp
      ((hashed_iff H').mpr (hc.blockHashes blockSize hb))⟩
    refine (hkept.mp heq).imp_left fun hle => ⟨hle, ?_⟩
    have hcomputed : r.numComputedTokens ≤ _ := hc.numComputedTokens
    rw [length_append, length_take, ← h.numPromptTokens] at hcomputed
    rw [numTokens]
    omega
  · intro hf
    have heq := hkept.mpr (hf.numComputedTokens.imp_left And.left)
    refine ⟨?_, ?_, ?_, ?_, fun blockSize hb =>
      (hashed_iff H').mp ((hhashes blockSize hb).mpr (hf.repeats blockSize hb))⟩
    · exact congrArg (· ++ update.promptTokenIds) heq
    · show r.promptTokenIds ++ r.keptTokens.drop r.numPromptTokens ++ update.promptTokenIds =
        r.keptTokens ++ update.promptTokenIds
      rw [heq, h.numPromptTokens, drop_left]
    · show (r.promptTokenIds ++ r.keptTokens.drop r.numPromptTokens ++ update.promptTokenIds).length =
        (r.keptTokens ++ update.promptTokenIds).length
      rw [heq, h.numPromptTokens, drop_left]
    · show r.numComputedTokens ≤ _
      have hcut := hf.numComputedTokens
      rw [numTokens] at hcut
      rw [length_append, length_take, ← h.numPromptTokens]
      omega

/-- A chunk that fits leaves the session well-formed. -/
theorem WellFormed.session (h : WellFormed hasher r) (hpos : ∀ blockSize ∈ hasher, 0 < blockSize)
    {update : StreamingUpdate} (hf : SessionFits hasher r update) :
    WellFormed hasher (r.updateAsSession hasher update) := by
  have hc := (h.consistent_iff hpos free update).mpr hf
  have hhashed : ∀ blockSize ∈ hasher, (r.recut update).Hashed blockSize :=
    fun blockSize hb => ((h.hashed blockSize hb).recut_iff update).mpr (hf.repeats blockSize hb)
  refine ⟨?_, ?_, fun blockSize hb => (hashed_iff free).mpr (hc.blockHashes blockSize hb),
    fun blockSize hb => ?_⟩
  · rw [← hc.promptTokenIds]
    exact (append_nil _).symm
  · rw [hc.numPromptTokens, hc.promptTokenIds]
  · have hextend := (hhashed blockSize hb).extend (hpos blockSize hb)
    rw [hb]
    exact hextend.2 (hhashed blockSize hb).length_le

/-- **Along every history** the tokens are the prompt and the output, and the hashes are theirs. -/
theorem History.wellFormed (hpos : ∀ blockSize ∈ hasher, 0 < blockSize) (h : History hasher r) :
    WellFormed hasher r := by
  induction h with
  | created a => exact wellFormed_create hpos a
  | counted _ hsame ih => exact ih.sameTokens hsame
  | output _ hout ih => exact WellFormed.updateWithOutput hpos ih _ hout
  | session _ hfits ih => exact ih.session hpos hfits

/-- **A session update is consistent exactly when the chunk fits**, for every history in which the
chunks so far fitted. -/
theorem sessionConsistent_iff (hpos : ∀ blockSize ∈ hasher, 0 < blockSize) (h : History hasher r)
    (H' : Hasher H) (update : StreamingUpdate) :
    SessionConsistent H' hasher r update (r.updateAsSession hasher update) ↔
      SessionFits hasher r update :=
  (h.wellFormed hpos).consistent_iff hpos H' update

/-! ### Two sessions -/

/-- A resumable request that stops at token 4. -/
def threeTokens (prompt : List ℤ) : Args where
  requestId := "a"
  promptTokenIds := prompt
  params := .inl { maxTokens := 8, stopTokenIds := [4] }
  resumable := true

/-- It, when its prompt is computed and token 4 was sampled. -/
def stoppedAt (prompt : List ℤ) : Except VllmErr ((List ℤ × Bool) × Request) :=
  updateWithOutput (some 4) 16 [4]
    { create (some 4) (threeTokens prompt) with
      status := .running
      numComputedTokens := prompt.length }

/-- The next chunk of the session. -/
def nextChunk : StreamingUpdate := ⟨[], [9], 0, some { maxTokens := 8 }⟩

theorem history_stoppedAt {prompt : List ℤ} (h : (stoppedAt prompt).isOk = true) :
    History (some 4) (result (stoppedAt prompt) h).2 := by
  refine .output ?_ (eq_ok_result (stoppedAt prompt) h)
  exact .counted (.created (threeTokens prompt)) ⟨rfl, rfl, rfl, rfl, rfl⟩

/-- With a prompt of five tokens the sampled token is in no full block, and the chunk fits. -/
theorem sessionConsistent_five : SessionConsistent free (some 4)
    (result (stoppedAt [1, 2, 3, 5, 6]) (by decide)).2 nextChunk
    ((result (stoppedAt [1, 2, 3, 5, 6]) (by decide)).2.updateAsSession (some 4) nextChunk) := by
  refine (sessionConsistent_iff (by simp) (history_stoppedAt (by decide)) free nextChunk).mpr
    ⟨?_, ?_⟩
  · decide
  · decide

/-- With a prompt of three tokens it completes a block of four, which is hashed. The token is cut
off, another takes its place, and the hash stays. -/
theorem session_stale_hash : ∃ r : Request, History (some 4) r ∧
    ¬ SessionConsistent free (some 4) r nextChunk (r.updateAsSession (some 4) nextChunk) ∧
    (r.updateAsSession (some 4) nextChunk).allTokenIds = [1, 2, 3, 9] ∧
    (r.updateAsSession (some 4) nextChunk).hashedBlocks = [([1, 2, 3, 4], none)] := by
  refine ⟨_, @history_stoppedAt [1, 2, 3] (by decide), fun hc => ?_, by decide, by decide⟩
  have hstale := (hashed_iff free).mpr (hc.blockHashes 4 rfl) 0 ([1, 2, 3, 4], none) (by decide)
  exact absurd hstale.2 (by decide)

end Request

end CacheFlow.Vllm
