import Mathlib

/-!
# Requests and chunks of the DPU offloader

A host registers buffers with the DPU and asks it to copy a range of a buffer, a STORE from the host
to the DPU and a LOAD back. The DPU checks the range against the size of the buffer and cuts it
into chunks that the DMA engine can take. Offsets and lengths are 64-bit numbers from the host, and
all arithmetic is that of C: modulo `2 ^ 64`.

## Main definitions

* `admitRequest`, `chunksOf` — the check and the chunks.

## Main results

* `tiles_chunkLoop` — the loop tiles the range, if nothing wraps.
* `confined_iff` — when the chunks of an accepted request are confined.
-/

namespace CacheFlow.Doca

/-! ### The messages -/

/-- `error_code_t`. -/
inductive ErrorCode where
  /-- `ERR_SUCCESS`. -/
  | success
  /-- `ERR_INVALID_BUFFER`. -/
  | invalidBuffer
  /-- `ERR_DMA_FAILED`. -/
  | dmaFailed
  /-- `ERR_MEMORY_FULL`. -/
  | memoryFull
  /-- `ERR_INVALID_MSG`. -/
  | invalidMsg
  /-- `ERR_TIMEOUT`. -/
  | timeout
  deriving DecidableEq, Repr

/-- `transfer_request_msg_t`, and `load_request_msg_t` with the same fields. -/
structure TransferRequest where
  bufferId : UInt64
  offset : UInt64
  length : UInt64
  transferId : UInt64
  deriving DecidableEq, Repr

/-- `transfer_complete_msg_t`. -/
structure TransferComplete where
  transferId : UInt64
  status : ErrorCode
  bytesTransferred : UInt64
  deriving DecidableEq, Repr

/-- Which way a range is copied. -/
inductive Direction where
  /-- From the host to the DPU. -/
  | store
  /-- From the DPU to the host. -/
  | load
  deriving DecidableEq, Repr

/-! ### Buffers and the engine -/

/-- `MAX_BUFFERS`. -/
def maxBuffers : ℕ := 1024

/-- `dpu_buffer_t`: the host's memory and the DPU's own are of the same size. -/
structure DpuBuffer where
  bufferId : UInt64
  hostAddr : UInt64
  size : UInt64
  localAddr : UInt64
  deriving DecidableEq, Repr

/-- The DMA engine, which takes buffers up to a size of its own. -/
structure DmaEngine where
  /-- `max_dma_buf_size`. -/
  maxBufSize : UInt64
  /-- It takes some. -/
  maxBufSize_pos : 0 < maxBufSize.toNat

/-- A part of a buffer that one DMA task copies. -/
structure Chunk where
  /-- Where it starts in the buffer. -/
  offset : UInt64
  /-- How long it is. -/
  length : UInt64
  deriving DecidableEq, Repr

namespace Chunk

/-- The positions of a chunk in the buffer. -/
def bytes (c : Chunk) : Set ℕ := Set.Ico c.offset.toNat (c.offset.toNat + c.length.toNat)

theorem mem_bytes {c : Chunk} {x : ℕ} :
    x ∈ c.bytes ↔ c.offset.toNat ≤ x ∧ x < c.offset.toNat + c.length.toNat := Iff.rfl

end Chunk

/-! ### The check and the loop -/

/-- Why a request is refused. -/
inductive Refusal where
  | invalidBufferId
  /-- The range is out of bounds. -/
  | outOfBounds
  | zeroLength
  deriving DecidableEq, Repr

/-- The check at the start of `handle_transfer_request` and `handle_load_request`, with the buffer
table as a function. -/
def admitRequest (buffers : UInt64 → Option DpuBuffer) (req : TransferRequest) :
    Except Refusal DpuBuffer :=
  if maxBuffers ≤ req.bufferId.toNat then .error .invalidBufferId
  else
    match buffers req.bufferId with
    | none => .error .invalidBufferId
    | some buf =>
      if buf.size < req.offset + req.length then .error .outOfBounds
      else if req.length = 0 then .error .zeroLength
      else .ok buf

/-- `num_chunks`. -/
def numChunks (dma : DmaEngine) (length : UInt64) : UInt64 :=
  (length + dma.maxBufSize - 1) / dma.maxBufSize

/-- The loop that cuts the range: so many rounds, the rest of the length, the current offset. -/
def chunkLoop (dma : DmaEngine) : ℕ → UInt64 → UInt64 → List Chunk
  | 0, _, _ => []
  | n + 1, remaining, offset =>
    let chunkSize := if dma.maxBufSize < remaining then dma.maxBufSize else remaining
    ⟨offset, chunkSize⟩ :: chunkLoop dma n (remaining - chunkSize) (offset + chunkSize)

/-- Whether a request needs more than one chunk. -/
def isChunked (dma : DmaEngine) (req : TransferRequest) : Bool := dma.maxBufSize < req.length

/-- The chunks of an accepted request. -/
def chunksOf (dma : DmaEngine) (req : TransferRequest) : List Chunk :=
  if isChunked dma req then
    chunkLoop dma (numChunks dma req.length).toNat req.length req.offset
  else [⟨req.offset, req.length⟩]

/-! ### What the chunks of a request should be -/

/-- The range of a request. -/
def TransferRequest.range (req : TransferRequest) : Set ℕ :=
  Set.Ico req.offset.toNat (req.offset.toNat + req.length.toNat)

/-- The chunks of a request stay in its buffer and are exactly its range. -/
structure Confined (dma : DmaEngine) (buf : DpuBuffer) (req : TransferRequest)
    (chunks : List Chunk) : Prop where
  inBuffer : ∀ c ∈ chunks, c.offset.toNat + c.length.toNat ≤ buf.size.toNat
  /-- Every chunk has a length that the engine takes. -/
  length : ∀ c ∈ chunks, 1 ≤ c.length.toNat ∧ c.length.toNat ≤ dma.maxBufSize.toNat
  disjoint : chunks.Pairwise fun c c' => Disjoint c.bytes c'.bytes
  /-- Each starts where the one before it ends. -/
  contiguous : chunks.IsChain fun c c' => c'.offset.toNat = c.offset.toNat + c.length.toNat
  covers : ∀ x, (∃ c ∈ chunks, x ∈ c.bytes) ↔ x ∈ req.range

/-- Chunks that follow each other from a position on and have a total length. -/
def Tiles : ℕ → ℕ → List Chunk → Prop
  | _, n, [] => n = 0
  | a, n, c :: cs =>
    c.offset.toNat = a ∧ c.length.toNat ≤ n ∧ Tiles (a + c.length.toNat) (n - c.length.toNat) cs

namespace Tiles

variable {a n : ℕ} {cs : List Chunk}

section

variable (h : Tiles a n cs)
include h

theorem covers (x : ℕ) : (∃ c ∈ cs, x ∈ c.bytes) ↔ a ≤ x ∧ x < a + n := by
  induction cs generalizing a n with
  | nil =>
    have hn : n = 0 := h
    simp [hn]
  | cons c cs ih =>
    obtain ⟨hoff, hlen, hrest⟩ := h
    rw [List.exists_mem_cons_iff, ih hrest, Chunk.mem_bytes, hoff]
    omega

/-- Tiles from a position on are not before it. -/
theorem le_offset : ∀ c ∈ cs, a ≤ c.offset.toNat := by
  induction cs generalizing a n with
  | nil => exact fun c hc => absurd hc List.not_mem_nil
  | cons c cs ih =>
    obtain ⟨hoff, -, hrest⟩ := h
    intro d hd
    rcases List.mem_cons.mp hd with rfl | hd
    · exact hoff.ge
    · exact (Nat.le_add_right _ _).trans (ih hrest d hd)

theorem pairwise_disjoint : cs.Pairwise fun c c' => Disjoint c.bytes c'.bytes := by
  induction cs generalizing a n with
  | nil => exact List.Pairwise.nil
  | cons c cs ih =>
    obtain ⟨hoff, -, hrest⟩ := h
    refine List.pairwise_cons.mpr ⟨fun d hd => ?_, ih hrest⟩
    have hle := hrest.le_offset d hd
    rw [Set.disjoint_left]
    intro x hx hx'
    rw [Chunk.mem_bytes] at hx hx'
    omega

theorem contiguous : cs.IsChain fun c c' => c'.offset.toNat = c.offset.toNat + c.length.toNat := by
  induction cs generalizing a n with
  | nil => exact List.IsChain.nil
  | cons c cs ih =>
    obtain ⟨hoff, -, hrest⟩ := h
    cases cs with
    | nil => exact List.IsChain.singleton _
    | cons d ds => exact List.IsChain.cons_cons (by rw [hrest.1, hoff]) (ih hrest)

theorem end_le : ∀ c ∈ cs, c.offset.toNat + c.length.toNat ≤ a + n := by
  induction cs generalizing a n with
  | nil => exact fun c hc => absurd hc List.not_mem_nil
  | cons c cs ih =>
    obtain ⟨hoff, hlen, hrest⟩ := h
    intro d hd
    rcases List.mem_cons.mp hd with rfl | hd
    · omega
    · have := ih hrest d hd
      omega

end

end Tiles

/-! ### The loop, if nothing wraps -/

section Loop

variable {dma : DmaEngine}

/-- The number of chunks is the length over the size, rounded up, unless the sum wraps. -/
theorem toNat_numChunks {length : UInt64} (h : length.toNat + dma.maxBufSize.toNat - 1 < 2 ^ 64)
    (hpos : 0 < length.toNat) :
    (numChunks dma length).toNat
      = (length.toNat + dma.maxBufSize.toNat - 1) / dma.maxBufSize.toNat := by
  have hone : (1 : UInt64).toNat = 1 := rfl
  have hadd : (length + dma.maxBufSize - 1).toNat = length.toNat + dma.maxBufSize.toNat - 1 := by
    rw [UInt64.toNat_sub, UInt64.toNat_add, hone]
    omega
  rw [numChunks, UInt64.toNat_div, hadd]

/-- If the sum wraps there is no chunk. -/
theorem toNat_numChunks_of_wrap {length : UInt64}
    (h : 2 ^ 64 ≤ length.toNat + dma.maxBufSize.toNat - 1) : (numChunks dma length).toNat = 0 := by
  have hlen := length.toNat_lt
  have hsize := dma.maxBufSize.toNat_lt
  have hone : (1 : UInt64).toNat = 1 := rfl
  have hadd : (length + dma.maxBufSize - 1).toNat
      = length.toNat + dma.maxBufSize.toNat - 1 - 2 ^ 64 := by
    rw [UInt64.toNat_sub, UInt64.toNat_add, hone]
    omega
  rw [numChunks, UInt64.toNat_div, hadd]
  exact Nat.div_eq_of_lt (by omega)

theorem toNat_chunkSize (dma : DmaEngine) (remaining : UInt64) :
    (if dma.maxBufSize < remaining then dma.maxBufSize else remaining).toNat
      = min dma.maxBufSize.toNat remaining.toNat := by
  split_ifs with h
  · rw [UInt64.lt_iff_toNat_lt] at h
    omega
  · rw [UInt64.lt_iff_toNat_lt] at h
    omega

/-- **The loop tiles the range.** With as many rounds as the rest needs, every chunk has a length
that the engine takes. -/
theorem tiles_chunkLoop : ∀ (n : ℕ) (remaining offset : UInt64),
    offset.toNat + remaining.toNat < 2 ^ 64 →
    n = (remaining.toNat + dma.maxBufSize.toNat - 1) / dma.maxBufSize.toNat →
    Tiles offset.toNat remaining.toNat (chunkLoop dma n remaining offset) ∧
      ∀ c ∈ chunkLoop dma n remaining offset,
        1 ≤ c.length.toNat ∧ c.length.toNat ≤ dma.maxBufSize.toNat := by
  have hmax := dma.maxBufSize_pos
  intro n
  induction n with
  | zero =>
    intro remaining offset _ hn
    have hlt := (Nat.div_eq_zero_iff_lt hmax).mp hn.symm
    exact ⟨show remaining.toNat = 0 by omega, fun c hc => absurd hc List.not_mem_nil⟩
  | succ n ih =>
    intro remaining offset hwrap hn
    have hpos : 0 < remaining.toNat := by
      by_contra hzero
      have hlt : (remaining.toNat + dma.maxBufSize.toNat - 1) / dma.maxBufSize.toNat = 0 :=
        Nat.div_eq_of_lt (by omega)
      omega
    have hsize := toNat_chunkSize dma remaining
    rw [chunkLoop]
    generalize (if dma.maxBufSize < remaining then dma.maxBufSize else remaining) = size at hsize ⊢
    have hrem : (remaining - size).toNat = remaining.toNat - size.toNat := by
      rw [UInt64.toNat_sub]
      omega
    have hoff : (offset + size).toNat = offset.toNat + size.toNat := by
      rw [UInt64.toNat_add]
      omega
    -- one chunk less is left
    have hleft : n
        = ((remaining - size).toNat + dma.maxBufSize.toNat - 1) / dma.maxBufSize.toNat := by
      rw [hrem, hsize]
      rcases Nat.le_total remaining.toNat dma.maxBufSize.toNat with hle | hle
      · have hone : (remaining.toNat + dma.maxBufSize.toNat - 1) / dma.maxBufSize.toNat = 1 := by
          apply Nat.div_eq_of_lt_le <;> omega
        have hzero : (remaining.toNat - min dma.maxBufSize.toNat remaining.toNat
            + dma.maxBufSize.toNat - 1) / dma.maxBufSize.toNat = 0 := Nat.div_eq_of_lt (by omega)
        omega
      · have hsplit : remaining.toNat + dma.maxBufSize.toNat - 1
            = (remaining.toNat - dma.maxBufSize.toNat + dma.maxBufSize.toNat - 1)
              + dma.maxBufSize.toNat := by omega
        rw [hsplit, Nat.add_div_right _ hmax] at hn
        rw [Nat.min_eq_left hle]
        omega
    obtain ⟨htiles, hlen⟩ := ih (remaining - size) (offset + size) (by omega) hleft
    rw [hoff, hrem] at htiles
    refine ⟨⟨rfl, show size.toNat ≤ remaining.toNat by omega, htiles⟩, fun c hc => ?_⟩
    rcases List.mem_cons.mp hc with rfl | hc
    · show 1 ≤ size.toNat ∧ size.toNat ≤ dma.maxBufSize.toNat
      omega
    · exact hlen c hc

end Loop

/-! ### Accepted requests -/

section Accepted

variable {dma : DmaEngine} {buffers : UInt64 → Option DpuBuffer} {req : TransferRequest}
  {buf : DpuBuffer}

theorem admitRequest_ok (h : admitRequest buffers req = .ok buf) :
    buffers req.bufferId = some buf ∧ (req.offset + req.length).toNat ≤ buf.size.toNat ∧
      0 < req.length.toNat := by
  unfold admitRequest at h
  split at h
  · exact absurd h nofun
  · split at h
    · exact absurd h nofun
    · rename_i b hb
      split at h
      · exact absurd h nofun
      · rename_i hbound
        split at h
        · exact absurd h nofun
        · rename_i hlen
          obtain rfl : b = buf := by simpa using h
          refine ⟨hb, ?_, ?_⟩
          · rw [UInt64.lt_iff_toNat_lt] at hbound
            omega
          · apply Nat.pos_of_ne_zero
            intro hzero
            exact hlen (UInt64.toNat_inj.mp hzero)

/-- The arithmetic of a request does not wrap: neither the end of its range, nor the sum from which
its chunks are counted. -/
def TransferRequest.NoWrap (req : TransferRequest) (dma : DmaEngine) : Prop :=
  req.offset.toNat + req.length.toNat < 2 ^ 64 ∧
    (isChunked dma req = true → req.length.toNat + dma.maxBufSize.toNat - 1 < 2 ^ 64)

/-- The chunks of a request whose arithmetic does not wrap tile its range. -/
theorem tiles_chunksOf (hnw : req.NoWrap dma) (hpos : 0 < req.length.toNat) :
    Tiles req.offset.toNat req.length.toNat (chunksOf dma req) ∧
      ∀ c ∈ chunksOf dma req, 1 ≤ c.length.toNat ∧ c.length.toNat ≤ dma.maxBufSize.toNat := by
  unfold chunksOf
  split
  · rename_i hchunked
    exact tiles_chunkLoop _ _ _ hnw.1 (toNat_numChunks (hnw.2 hchunked) hpos)
  · rename_i hsingle
    have hle : req.length.toNat ≤ dma.maxBufSize.toNat := by
      have hnot : ¬ dma.maxBufSize < req.length := by simpa [isChunked] using hsingle
      rw [UInt64.lt_iff_toNat_lt] at hnot
      omega
    refine ⟨⟨rfl, le_rfl, Nat.sub_self _⟩, fun c hc => ?_⟩
    obtain rfl := List.mem_singleton.mp hc
    exact ⟨hpos, hle⟩

/-- Chunks that are the range in the buffer are of a request that does not wrap. -/
theorem Confined.noWrap (h : Confined dma buf req (chunksOf dma req))
    (hpos : 0 < req.length.toNat) : req.NoWrap dma := by
  -- the last byte of the range is in some chunk, and so in the buffer
  obtain ⟨c, hc, hx⟩ := (h.covers (req.offset.toNat + req.length.toNat - 1)).mpr
    ⟨by omega, by omega⟩
  rw [Chunk.mem_bytes] at hx
  have hend := h.inBuffer c hc
  have hsize := buf.size.toNat_lt
  refine ⟨by omega, fun hchunked => ?_⟩
  by_contra hwrap
  have hnone : chunksOf dma req = [] := by
    unfold chunksOf
    rw [if_pos hchunked, toNat_numChunks_of_wrap (by omega), chunkLoop]
  rw [hnone] at hc
  exact List.not_mem_nil hc

end Accepted

/-- **The DMA stays inside the buffer.** Exactly the accepted requests whose arithmetic does not
wrap are cut into chunks that lie in the buffer, have a length the engine takes, and are the range
asked for, each byte of it once. A refused request has no chunk. -/
theorem confined_iff (dma : DmaEngine) (buffers : UInt64 → Option DpuBuffer)
    (req : TransferRequest) :
    (∀ buf, admitRequest buffers req = .ok buf → Confined dma buf req (chunksOf dma req)) ↔
      ((∃ e, admitRequest buffers req = .error e) ∨ req.NoWrap dma) := by
  constructor
  · intro h
    cases hadmit : admitRequest buffers req with
    | error e => exact Or.inl ⟨e, rfl⟩
    | ok buf => exact Or.inr ((h buf hadmit).noWrap (admitRequest_ok hadmit).2.2)
  · rintro (⟨e, he⟩ | hnw) buf hadmit
    · rw [he] at hadmit
      exact absurd hadmit nofun
    · obtain ⟨-, hbound, hpos⟩ := admitRequest_ok hadmit
      obtain ⟨htiles, hlen⟩ := tiles_chunksOf hnw hpos
      rw [UInt64.toNat_add, Nat.mod_eq_of_lt hnw.1] at hbound
      exact
        { inBuffer := fun c hc => (htiles.end_le c hc).trans hbound
          length := hlen
          disjoint := htiles.pairwise_disjoint
          contiguous := htiles.contiguous
          covers := htiles.covers }

/-- A buffer of a page. -/
def pageBuffer : DpuBuffer where
  bufferId := 0
  hostAddr := 0x10000
  size := 4096
  localAddr := 0x20000

/-- An engine that takes a kilobyte at a time. -/
def kilobyteDma : DmaEngine where
  maxBufSize := 1024
  maxBufSize_pos := by decide

/-- Eight bytes before the buffer and eight of it are asked for: the sum wraps, the request is
accepted, and the chunk starts near `2 ^ 64`. -/
theorem not_confined_of_wrap :
    ¬ ∀ buf, admitRequest (fun _ => some pageBuffer) ⟨0, 0xFFFFFFFFFFFFFFF8, 16, 7⟩ = .ok buf →
      Confined kilobyteDma buf ⟨0, 0xFFFFFFFFFFFFFFF8, 16, 7⟩
        (chunksOf kilobyteDma ⟨0, 0xFFFFFFFFFFFFFFF8, 16, 7⟩) := by
  intro h
  have hin := (h pageBuffer (by decide)).inBuffer ⟨0xFFFFFFFFFFFFFFF8, 16⟩ (by decide)
  exact absurd hin (by decide)

end CacheFlow.Doca
