import CacheFlow.Connector.BlockHash
import CacheFlow.Vllm.CacheHit

/-!
# Requests

A request of the engine: its tokens, how many of them are computed, its status and place in the
scheduler's order, what a streaming session still has queued. The methods here are those that
touch one request only.

`block_hashes` is a chain: every digest takes the one before it in. It is kept as the blocks that
were hashed, in the order they were, and the digests are read off it. The blocks need not be
those of the current tokens; whether they are is a question about the code.

## Main definitions

* `Request`, `Request.create`, `Request.checkStop`, … — the data and the methods.
* `Hasher`, `Request.blockHashes` — chained hashes under a collision-free function.
-/

namespace CacheFlow.Vllm

/-! ### The data -/

/-- `RequestStatus`. -/
inductive RequestStatus where
  | waiting
  | waitingForFsm
  | waitingForRemoteKvs
  | waitingForStreamingReq
  | running
  | preempted
  | finishedStopped
  | finishedLengthCapped
  | finishedAborted
  | finishedIgnored
  | finishedError
  deriving DecidableEq, Repr

/-- `is_finished`: anything after `PREEMPTED`. -/
def RequestStatus.isFinished : RequestStatus → Bool
  | .waiting | .waitingForFsm | .waitingForRemoteKvs | .waitingForStreamingReq | .running
  | .preempted => false
  | .finishedStopped | .finishedLengthCapped | .finishedAborted | .finishedIgnored
  | .finishedError => true

deriving instance DecidableEq, Repr for MmFeature

/-- `SamplingParams`, as far as the scheduler reads it. -/
structure SamplingParams where
  maxTokens : ℕ
  minTokens : ℕ := 0
  ignoreEos : Bool := false
  stopTokenIds : List ℤ := []
  skipReadingPrefixCache : Option Bool := none
  /-- Whether `structured_outputs` is set. -/
  structuredOutputs : Bool := false
  deriving DecidableEq, Repr

/-- `PoolingParams`. -/
structure PoolingParams where
  skipReadingPrefixCache : Option Bool := none
  deriving DecidableEq, Repr

/-- `StreamingUpdate`. -/
structure StreamingUpdate where
  mmFeatures : List MmFeature
  promptTokenIds : List ℤ
  arrivalTime : ℤ
  samplingParams : Option SamplingParams
  deriving DecidableEq, Repr

/-- A block of tokens with its extra keys: what a block hash takes in besides its parent. -/
abbrev HashedBlock : Type := List ℤ × Option (List ExtraKey)

/-- `Request`. -/
structure Request where
  requestId : String
  arrivalTime : ℤ := 0
  samplingParams : Option SamplingParams
  poolingParams : Option PoolingParams := none
  eosTokenId : Option ℤ := none
  maxTokens : ℕ
  /-- `lora_request`: its name and `lora_int_id`. -/
  loraRequest : Option (String × ℕ) := none
  cacheSalt : Option String := none
  mmFeatures : List MmFeature := []
  skipReadingPrefixCache : Bool := false
  resumable : Bool := false
  /-- `streaming_queue`; an entry without an update ends the session. -/
  streamingQueue : Option (List (Option StreamingUpdate)) := none
  status : RequestStatus := .waiting
  promptTokenIds : List ℤ
  numPromptTokens : ℕ
  outputTokenIds : List ℤ := []
  allTokenIds : List ℤ
  /-- What `block_hashes` are the hashes of. -/
  hashedBlocks : List HashedBlock := []
  specTokenIds : List ℤ := []
  numOutputPlaceholders : ℤ := 0
  discardLatestAsyncTokens : Bool := false
  numComputedTokens : ℤ := 0
  numCachedTokens : ℤ := -1
  numExternalComputedTokens : ℤ := 0
  numPreemptions : ℕ := 0
  deriving DecidableEq, Repr

namespace Request

/-- `num_tokens`. -/
def numTokens (r : Request) : ℕ := r.allTokenIds.length

/-- `num_output_tokens`. -/
def numOutputTokens (r : Request) : ℕ := r.outputTokenIds.length

/-- `is_finished`. -/
def isFinished (r : Request) : Bool := r.status.isFinished

/-! ### Hashing -/

/-- What the request is hashed by. -/
def toVllm (r : Request) : VllmRequest where
  promptTokenIds := some r.promptTokenIds
  promptEmbeds := none
  outputTokenIds := r.outputTokenIds
  mmFeatures := r.mmFeatures
  loraName := r.loraRequest.map Prod.fst
  cacheSalt := r.cacheSalt

/-- The loop of `request_block_hasher` for `n` blocks of `blockSize` tokens from `start` on. -/
def hasherLoop (r : Request) (blockSize : ℕ) : ℕ → ℕ → ℤ → List HashedBlock
  | 0, _, _ => []
  | n + 1, start, idx =>
    ((r.allTokenIds.drop start).take blockSize,
      (r.toVllm.generateBlockHashExtraKeys start (start + blockSize) idx).1) ::
      hasherLoop r blockSize n (start + blockSize)
        (r.toVllm.generateBlockHashExtraKeys start (start + blockSize) idx).2

/-- `get_hash_new_full_blocks`: the full blocks that have no hash yet. Without caching and without
a connector there is no hasher. -/
def getHashNewFullBlocks (hasher : Option ℕ) (r : Request) : List HashedBlock :=
  match hasher with
  | none => []
  | some blockSize =>
    r.hasherLoop blockSize (r.numTokens / blockSize - r.hashedBlocks.length)
      (r.hashedBlocks.length * blockSize) (if r.hashedBlocks.length * blockSize > 0 then -1 else 0)

/-- `block_hashes.extend(get_hash_new_full_blocks())`. -/
def extendBlockHashes (hasher : Option ℕ) (r : Request) : Request :=
  { r with hashedBlocks := r.hashedBlocks ++ r.getHashNewFullBlocks hasher }

/-! ### The life of a request -/

/-- The arguments of `Request.__init__`. -/
structure Args where
  requestId : String
  promptTokenIds : List ℤ
  /-- `sampling_params`, or the parameters of pooling. -/
  params : SamplingParams ⊕ PoolingParams
  eosTokenId : Option ℤ := none
  arrivalTime : ℤ := 0
  mmFeatures : List MmFeature := []
  loraRequest : Option (String × ℕ) := none
  cacheSalt : Option String := none
  resumable : Bool := false
  deriving DecidableEq, Repr

/-- `__init__`. -/
def create (hasher : Option ℕ) (a : Args) : Request :=
  extendBlockHashes hasher
    { requestId := a.requestId
      arrivalTime := a.arrivalTime
      samplingParams := a.params.getLeft?
      poolingParams := a.params.getRight?
      eosTokenId := a.eosTokenId
      maxTokens := a.params.elim SamplingParams.maxTokens fun _ => 1
      loraRequest := a.loraRequest
      cacheSalt := a.cacheSalt
      mmFeatures := a.mmFeatures
      skipReadingPrefixCache := (a.params.elim SamplingParams.skipReadingPrefixCache
        PoolingParams.skipReadingPrefixCache).getD false
      resumable := a.resumable
      status := if a.params.elim SamplingParams.structuredOutputs fun _ => false then .waitingForFsm
        else .waiting
      promptTokenIds := a.promptTokenIds
      numPromptTokens := a.promptTokenIds.length
      allTokenIds := a.promptTokenIds }

/-- `append_output_token_ids`, of one token. -/
def appendOutputTokenIds (hasher : Option ℕ) (r : Request) (token : ℤ) : Request :=
  extendBlockHashes hasher
    { r with
      outputTokenIds := r.outputTokenIds ++ [token]
      allTokenIds := r.allTokenIds ++ [token] }

/-- The request with another status. -/
def withStatus (r : Request) (status : RequestStatus) : Request := { r with status := status }

/-- `check_stop`: whether the request stops, and its status then. -/
def checkStop (maxModelLen : ℕ) (r : Request) : Except VllmErr (Bool × Request) :=
  if r.poolingParams.isSome then .error .assertionError
  else
    match r.samplingParams with
    | none => .error .assertionError
    | some params =>
      if r.numOutputTokens < params.minTokens then .ok (false, r)
      else
        match r.outputTokenIds.getLast? with
        | none => .error .indexError
        | some last =>
          if params.ignoreEos = false ∧ some last = r.eosTokenId then
            .ok (true, r.withStatus .finishedStopped)
          else if last ∈ params.stopTokenIds then .ok (true, r.withStatus .finishedStopped)
          else if maxModelLen ≤ r.numTokens ∨ r.maxTokens ≤ r.numOutputTokens then
            .ok (true, r.withStatus .finishedLengthCapped)
          else .ok (false, r)

/-- `_update_request_with_output`: the tokens up to the first that stops the request, and whether
one does. -/
def updateWithOutput (hasher : Option ℕ) (maxModelLen : ℕ) :
    List ℤ → Request → Except VllmErr ((List ℤ × Bool) × Request)
  | [], r => .ok (([], false), r)
  | token :: tokens, r => do
    let (stopped, r) ← (r.appendOutputTokenIds hasher token).checkStop maxModelLen
    if stopped then pure (([token], true), r)
    else do
      let ((kept, stopped), r) ← updateWithOutput hasher maxModelLen tokens r
      pure ((token :: kept, stopped), r)

/-- Stopping changes the status, and nothing else. -/
theorem checkStop_ensures (maxModelLen : ℕ) (r : Request) :
    Ensures (r.checkStop maxModelLen) fun x => (x.1 = false ∧ x.2 = r) ∨
      (x.1 = true ∧ ∃ status, status.isFinished = true ∧ x.2 = r.withStatus status) := by
  unfold checkStop
  split
  · exact ensures_error
  split
  · exact ensures_error
  split
  · exact ensures_ok.mpr (Or.inl ⟨rfl, rfl⟩)
  split
  · exact ensures_error
  split_ifs
  · exact ensures_ok.mpr (Or.inr ⟨rfl, _, rfl, rfl⟩)
  · exact ensures_ok.mpr (Or.inr ⟨rfl, _, rfl, rfl⟩)
  · exact ensures_ok.mpr (Or.inr ⟨rfl, _, rfl, rfl⟩)
  · exact ensures_ok.mpr (Or.inl ⟨rfl, rfl⟩)

/-- Where a slice that ends at `stop` ends; from the end if it is negative. -/
def sliceEnd (length : ℕ) (stop : ℤ) : ℕ :=
  if 0 ≤ stop then stop.toNat else (length + stop).toNat

/-- The tokens that a session keeps. -/
def keptTokens (r : Request) : List ℤ := r.allTokenIds.take (sliceEnd r.numTokens r.numComputedTokens)

/-- The first part of `_update_request_as_session`: the tokens that are not computed are replaced by
the next chunk. -/
def recut (update : StreamingUpdate) (r : Request) : Request :=
  { r with
    outputTokenIds := []
    mmFeatures := r.mmFeatures ++ update.mmFeatures.map fun f =>
      { f with offset := f.offset + r.keptTokens.length }
    allTokenIds := r.keptTokens ++ update.promptTokenIds
    promptTokenIds := r.promptTokenIds ++ r.keptTokens.drop r.numPromptTokens ++ update.promptTokenIds }

/-- `_update_request_as_session`, for the request. -/
def updateAsSession (hasher : Option ℕ) (update : StreamingUpdate) (r : Request) : Request :=
  let r := (r.recut update).extendBlockHashes hasher
  { r with
    numPromptTokens := r.promptTokenIds.length
    arrivalTime := update.arrivalTime
    samplingParams := update.samplingParams
    status := .waiting }

/-- What `_preempt_request` does to the request. -/
def preempted (r : Request) : Request :=
  { r with
    status := .preempted
    numComputedTokens := 0
    specTokenIds := []
    numPreemptions := r.numPreemptions + 1 }

end Request

/-! ### Hashes -/

/-- A collision-free hash function for blocks, with the hash of nothing. -/
structure Hasher (H : Type) where
  noneHash : H
  /-- `hash_block_tokens`, of the parent's hash and the block. -/
  hashBlockTokens : H → HashedBlock → H
  /-- The hash determines what went into it. -/
  inj : ∀ {p p' : H} {b b' : HashedBlock}, hashBlockTokens p b = hashBlockTokens p' b' →
    p = p' ∧ b = b'

namespace Hasher

variable {H : Type} (hasher : Hasher H)

/-- The hashes of blocks that follow each other. -/
def chainOf (blocks : List HashedBlock) : List H :=
  chain hasher.hashBlockTokens hasher.noneHash blocks

@[simp] theorem length_chainOf (blocks : List HashedBlock) :
    (hasher.chainOf blocks).length = blocks.length := length_chain ..

/-- Equal hashes at a place, equal blocks up to there. -/
theorem chainOf_getElem?_eq_iff {blocks blocks' : List HashedBlock} {i : ℕ} (hi : i < blocks.length)
    (hi' : i < blocks'.length) :
    (hasher.chainOf blocks)[i]? = (hasher.chainOf blocks')[i]? ↔
      blocks.take (i + 1) = blocks'.take (i + 1) := by
  have hinj : ∀ {p p' : H} {b b' : HashedBlock}, True → True →
      hasher.hashBlockTokens p b = hasher.hashBlockTokens p' b' → p = p' ∧ b = b' :=
    fun _ _ h => hasher.inj h
  rw [chainOf, chainOf, chain_getElem?_eq_iff hinj (fun _ _ => trivial) (fun _ _ => trivial) hi hi']
  exact and_iff_right rfl

/-- The hash that is its own preimage. -/
def free : Hasher (List HashedBlock) where
  noneHash := []
  hashBlockTokens p b := p ++ [b]
  inj h := by
    obtain ⟨hp, hb⟩ := List.append_inj' h rfl
    exact ⟨hp, List.singleton_inj.mp hb⟩

end Hasher

namespace Request

variable {H : Type}

/-- `block_hashes`. -/
def blockHashes (hasher : Hasher H) (r : Request) : List H := hasher.chainOf r.hashedBlocks

end Request

end CacheFlow.Vllm
