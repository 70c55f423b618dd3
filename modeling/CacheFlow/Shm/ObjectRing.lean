import CacheFlow.Lib.Arcs
import CacheFlow.Lib.Memory

/-!
# The ring buffer behind the object store

`SingleWriterShmRingBuffer` of `device_communicators/shm_object_storage.py`. Chunks are allocated
one after the other; a chunk that does not fit before the end of the buffer goes to its beginning.
The oldest chunk is freed first. Start and end of what is occupied are numbers that grow beyond the
size of the buffer and are taken back by it after a round; the addresses of the chunks are not taken
back, so only their remainders count.

## Main definitions

* `ObjectRing.Row` — the chunks lie in a row from the start to the end.

## Main results

* `ObjectRing.Row.allocated`, `ObjectRing.Row.freed`, `ObjectRing.Row.wrapped` — they stay in a row.
* `ObjectRing.Row.pairwise` — no two chunks share a byte.
-/

namespace CacheFlow.Shm

/-! ### Integers in the buffer -/

/-- `int2byte`: four bytes, the lowest first, of a signed integer. -/
def int2byte (x : ℤ) : ℕ → UInt8 := fun i => UInt8.ofNat ((x % 2 ^ 32).toNat / 256 ^ i)

/-- `byte2int`, of the four bytes at an offset. -/
def byte2int (m : Mem UInt8) (offset : ℕ) : ℤ :=
  let u := (m offset).toNat + 256 * (m (offset + 1)).toNat + 65536 * (m (offset + 2)).toNat +
    16777216 * (m (offset + 3)).toNat
  if u < 2 ^ 31 then u else u - 2 ^ 32

theorem byte2int_of_holdsAt {m : Mem UInt8} {offset : ℕ} {x : ℤ} (hlo : -2 ^ 31 ≤ x)
    (hhi : x < 2 ^ 31) (h : HoldsAt m offset 4 (int2byte x)) : byte2int m offset = x := by
  have h0 := h 0 (by omega)
  have h1 := h 1 (by omega)
  have h2 := h 2 (by omega)
  have h3 := h 3 (by omega)
  rw [Nat.add_zero] at h0
  simp only [byte2int, h0, h1, h2, h3, int2byte, UInt8.toNat_ofNat']
  omega

/-! ### The numbers of the ring -/

/-- `ID_MAX`. -/
def idMax : ℕ := 2 ^ 31

/-- The numbers that the writer keeps. -/
structure ObjectRing where
  /-- `monotonic_id_start`: the id of the oldest chunk. -/
  monotonicIdStart : ℕ
  /-- `monotonic_id_end`: the id of the next chunk. -/
  monotonicIdEnd : ℕ
  dataBufferStart : ℕ
  dataBufferEnd : ℕ
  deriving DecidableEq

namespace ObjectRing

/-- An empty ring. -/
def new : ObjectRing := ⟨0, 0, 0, 0⟩

variable (D : ℕ)

/-- `buffer_end_reset`: where a chunk of `size` bytes goes, its header included. -/
def bufferEndReset (r : ObjectRing) (size : ℕ) : ℕ :=
  if D < r.dataBufferEnd % D + size then (r.dataBufferEnd / D + 1) * D else r.dataBufferEnd

/-- `occupied_size_new` is not more than the size of the buffer; otherwise `allocate_buf` raises
`MemoryError`. -/
def hasRoom (r : ObjectRing) (size : ℕ) : Bool :=
  r.bufferEndReset D size + size ≤ r.dataBufferStart + D

/-- The numbers after `allocate_buf`. -/
def allocated (r : ObjectRing) (size : ℕ) : ObjectRing :=
  { r with
    monotonicIdEnd := (r.monotonicIdEnd + 1) % idMax
    dataBufferEnd := r.bufferEndReset D size + size }

/-- The numbers after the oldest chunk was freed, given the address of the one that is oldest then;
if there is none, the ring begins anew. -/
def freed (r : ObjectRing) : Option ℕ → ObjectRing
  | some next =>
    { r with
      monotonicIdStart := (r.monotonicIdStart + 1) % idMax
      dataBufferStart := r.dataBufferStart + (((next : ℤ) - r.dataBufferStart) % D).toNat }
  | none =>
    { r with
      monotonicIdStart := (r.monotonicIdStart + 1) % idMax
      dataBufferStart := 0
      dataBufferEnd := 0 }

/-- The end of `free_buf`: start and end are taken back after a round. -/
def wrapped (r : ObjectRing) : ObjectRing :=
  if D ≤ r.dataBufferStart then
    { r with dataBufferStart := r.dataBufferStart - D, dataBufferEnd := r.dataBufferEnd - D }
  else r

/-! ### The row of chunks -/

/-- The chunks, given by address and size, lie in a row from the start to the end, which is not
longer than the buffer. -/
def Row (r : ObjectRing) : List (ℕ × ℕ) → Prop
  | [] => r.dataBufferStart = 0 ∧ r.dataBufferEnd = 0
  | (a, s) :: l => r.dataBufferStart % D = a % D ∧ a % D + s ≤ D ∧
    Laid D r.dataBufferEnd (r.dataBufferStart + s) l ∧ r.dataBufferEnd ≤ r.dataBufferStart + D

variable {D} {r : ObjectRing} {l : List (ℕ × ℕ)}

theorem Row.laid (h : r.Row D l) (hl : l ≠ []) : Laid D r.dataBufferEnd r.dataBufferStart l := by
  cases l with
  | nil => exact absurd rfl hl
  | cons x l => exact ⟨r.dataBufferStart, le_rfl, h.1, h.2.1, h.2.2.1⟩

/-- **No two chunks share a byte.** -/
theorem Row.pairwise (h : r.Row D l) : l.Pairwise (CellsApart D) := by
  cases l with
  | nil => exact List.Pairwise.nil
  | cons x l => exact (h.laid (List.cons_ne_nil x l)).pairwise h.2.2.2

theorem Row.inside (h : r.Row D l) : ∀ x ∈ l, x.1 % D + x.2 ≤ D := by
  cases l with
  | nil => simp
  | cons x l => exact (h.laid (List.cons_ne_nil x l)).inside

theorem Row.sum_le (h : r.Row D l) : (l.map Prod.snd).sum ≤ D := by
  cases l with
  | nil => simp
  | cons x l =>
    have hsum := (h.laid (List.cons_ne_nil x l)).sum_le
    have hend := h.2.2.2
    omega

/-- Where the next chunk goes: behind the end, and not across the cut. -/
theorem bufferEndReset_spec (hD : 0 < D) (r : ObjectRing) (size : ℕ) :
    r.dataBufferEnd ≤ r.bufferEndReset D size ∧
      (r.bufferEndReset D size % D + size ≤ D ∨ r.bufferEndReset D size % D = 0) := by
  unfold bufferEndReset
  split_ifs with hcross
  · refine ⟨?_, Or.inr (Nat.mul_mod_left _ _)⟩
    have hdiv := Nat.div_add_mod r.dataBufferEnd D
    have hmod := Nat.mod_lt r.dataBufferEnd hD
    rw [Nat.add_mul, Nat.one_mul, Nat.mul_comm]
    omega
  · exact ⟨le_rfl, Or.inl (by omega)⟩

/-- **A new chunk is at the end of the row.** -/
theorem Row.allocated (h : r.Row D l) (hD : 0 < D) {size : ℕ} (hroom : r.hasRoom D size = true) :
    (r.allocated D size).Row D (l ++ [(r.bufferEndReset D size, size)]) := by
  have hfits : r.bufferEndReset D size + size ≤ r.dataBufferStart + D := of_decide_eq_true hroom
  obtain ⟨hle, hcut⟩ := bufferEndReset_spec hD r size
  cases l with
  | nil =>
    obtain ⟨hstart, hend⟩ := h
    -- an empty ring allocates at its beginning
    have hpos : r.bufferEndReset D size = 0 := by
      unfold bufferEndReset at hfits ⊢
      split_ifs at hfits ⊢ with hcross
      · rw [hend, Nat.zero_div, Nat.zero_add, Nat.one_mul] at hfits
        rw [hend, Nat.zero_mod] at hcross
        omega
      · exact hend
    show r.dataBufferStart % D = _ % D ∧ _ ∧
      r.dataBufferStart + size ≤ r.bufferEndReset D size + size ∧
      r.bufferEndReset D size + size ≤ r.dataBufferStart + D
    rw [hpos, hstart, Nat.zero_mod]
    exact ⟨rfl, by omega, le_rfl, by omega⟩
  | cons x l =>
    obtain ⟨hhead, hx, hlaid, -⟩ := h
    refine ⟨hhead, hx, hlaid.concat hle rfl ?_, hfits⟩
    rcases hcut with hcut | hcut
    · exact hcut
    · have hend := hlaid.le
      omega

/-- **When the oldest chunk is freed, the row begins at the next one.** -/
theorem Row.freed {x : ℕ × ℕ} (h : r.Row D (x :: l)) (hpos : ∀ y ∈ l, 0 < y.2) :
    (r.freed D (l.head?.map Prod.fst)).Row D l := by
  obtain ⟨-, -, hlaid, hturn⟩ := h
  cases l with
  | nil => exact ⟨rfl, rfl⟩
  | cons y l =>
    obtain ⟨w, hvw, hw, hy, hlaid⟩ := hlaid
    have hlt : 0 < y.2 := hpos y (by simp)
    have hend := hlaid.le
    have hstart : w = r.dataBufferStart + (((y.1 : ℤ) - r.dataBufferStart) % D).toNat :=
      Laid.eq_of_mod_eq hw (by omega) (by omega)
    show (r.dataBufferStart + _) % D = _ ∧ _ ∧
      Laid D r.dataBufferEnd (r.dataBufferStart + _ + _) l ∧
      r.dataBufferEnd ≤ r.dataBufferStart + _ + D
    rw [← hstart]
    exact ⟨hw, hy, hlaid, by omega⟩

/-- **A round less is the same row.** -/
theorem Row.wrapped (h : r.Row D l) : (r.wrapped D).Row D l := by
  unfold ObjectRing.wrapped
  split_ifs with hround
  · cases l with
    | nil =>
      obtain ⟨hstart, hend⟩ := h
      exact ⟨by show r.dataBufferStart - D = 0; omega, by show r.dataBufferEnd - D = 0; omega⟩
    | cons x l =>
      obtain ⟨hhead, hx, hlaid, hturn⟩ := h
      refine ⟨?_, hx, ?_, ?_⟩
      · rw [← hhead, Nat.mod_eq_sub_mod hround]
      · show Laid D (r.dataBufferEnd - D) (r.dataBufferStart - D + x.2) l
        rw [← Nat.sub_add_comm hround]
        exact hlaid.sub (by omega)
      · show r.dataBufferEnd - D ≤ r.dataBufferStart - D + D
        omega
  · exact h

end ObjectRing

end CacheFlow.Shm
