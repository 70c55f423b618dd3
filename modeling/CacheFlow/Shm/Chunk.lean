import CacheFlow.Lib.Frame
import CacheFlow.Lib.Memory

/-!
# What a chunk of the broadcast ring holds

`MessageQueue` of `device_communicators/shm_broadcast.py` sends pickled objects. Pickling gives a
main buffer, and a buffer of its own for each large part of the object (out of band); a part below
one mebibyte stays in the main buffer. If all of it fits into a chunk of shared memory, it is
written there: a zero byte, the number of buffers in two bytes, and each buffer behind its length in
four bytes. Otherwise the chunk only says so, with a first byte of one, and the buffers go over a
socket.

The reader does not copy the buffers: what it hands to the unpickler are views of the chunk.

## Main definitions

* `writeChunk`, `inlineViews` — what `enqueue` writes, and what `dequeue` finds.

## Main results

* `map_read_inlineViews` — the views of the chunk are the buffers of the object.
-/

namespace CacheFlow.Shm

/-! ### Pickled objects -/

/-- Some bytes. Beyond its length a buffer is zero, so that two buffers with the same bytes are
equal. -/
@[ext] structure Buffer where
  len : ℕ
  byte : ℕ → UInt8
  /-- There is nothing beyond the length. -/
  byte_eq_zero : ∀ i, len ≤ i → byte i = 0

/-- A range of the memory. -/
def Buffer.read (m : Mem UInt8) (offset len : ℕ) : Buffer where
  len := len
  byte := fun i => if i < len then m (offset + i) else 0
  byte_eq_zero := fun _ hi => if_neg (Nat.not_lt.mpr hi)

variable {m : Mem UInt8}

theorem Buffer.read_of_holdsAt {offset : ℕ} {b : Buffer}
    (h : HoldsAt m offset b.len b.byte) : Buffer.read m offset b.len = b := by
  refine Buffer.ext rfl (funext fun i => ?_)
  simp only [Buffer.read]
  split_ifs with hi
  · exact h i hi
  · exact (b.byte_eq_zero i (Nat.not_lt.mp hi)).symm

/-- A pickled object: the parts that are out of band are those of a mebibyte or more. -/
structure Pickled where
  main : Buffer
  /-- The buffers that are out of band. -/
  oob : List Buffer
  large : ∀ b ∈ oob, 1024 * 1024 ≤ b.len

theorem Pickled.large_nil : ∀ b ∈ ([] : List Buffer), 1024 * 1024 ≤ b.len := by simp

/-- All buffers, the main one first. -/
def Pickled.buffers (p : Pickled) : List Buffer := p.main :: p.oob

/-- `total_bytes + len(all_buffers[0])`. -/
def Pickled.totalBytes (p : Pickled) : ℕ := 6 + (p.oob.map fun b => b.len + 4).sum + p.main.len

/-- The object is too large for a chunk. -/
def Pickled.overflows (p : Pickled) (maxChunkBytes : ℕ) : Bool := maxChunkBytes ≤ p.totalBytes

/-! ### Writing a chunk -/

/-- A number as bytes, the highest first. -/
def be (k x : ℕ) : ℕ → UInt8 := fun i => (bytesBE k x).getD i 0

/-- The number in `k` bytes of the memory. -/
def readBE (m : Mem UInt8) (offset k : ℕ) : ℕ :=
  ofBytesBE ((List.range k).map fun i => m (offset + i))

theorem readBE_of_holdsAt {offset k x : ℕ} (hx : x < 256 ^ k)
    (h : HoldsAt m offset k (be k x)) : readBE m offset k = x := by
  have hbytes : (List.range k).map (fun i => m (offset + i)) = bytesBE k x := by
    refine List.ext_getElem (by simp) fun i hi hi' => ?_
    rw [length_bytesBE] at hi'
    rw [List.getElem_map, List.getElem_range, h i hi', be, List.getD_eq_getElem]
  rw [readBE, hbytes, ofBytesBE_bytesBE hx]

/-- The loop over the buffers. It raises where a length does not fit into four bytes, or a buffer
into the chunk, and leaves what it has written. -/
def writeBuffers (maxChunkBytes : ℕ) : Mem UInt8 → ℕ → List Buffer → Mem UInt8 × Bool
  | m, _, [] => (m, true)
  | m, offset, b :: bs =>
    if b.len < 256 ^ 4 ∧ offset + 4 + b.len ≤ maxChunkBytes then
      writeBuffers maxChunkBytes
        (fill (fill m offset 4 (be 4 b.len)) (offset + 4) b.len b.byte) (offset + 4 + b.len) bs
    else (m, false)

/-- An object that goes into the chunk. -/
def writeInline (maxChunkBytes : ℕ) (m : Mem UInt8) (p : Pickled) : Mem UInt8 × Bool :=
  let m := fill m 0 1 fun _ => 0
  if p.buffers.length < 256 ^ 2 then
    writeBuffers maxChunkBytes (fill m 1 2 (be 2 p.buffers.length)) 3 p.buffers
  else (m, false)

/-- What `enqueue` writes to the chunk, and whether it returns. There is no first byte in an empty
chunk. -/
def writeChunk (maxChunkBytes : ℕ) (m : Mem UInt8) (p : Pickled) : Mem UInt8 × Bool :=
  if p.overflows maxChunkBytes then
    if 0 < maxChunkBytes then (fill m 0 1 fun _ => 1, true) else (m, false)
  else writeInline maxChunkBytes m p

/-! ### Reading a chunk -/

/-- The ranges of `count` buffers that begin at an offset. -/
def readViews (m : Mem UInt8) : ℕ → ℕ → List (ℕ × ℕ)
  | 0, _ => []
  | count + 1, offset =>
    (offset + 4, readBE m offset 4) :: readViews m count (offset + 4 + readBE m offset 4)

/-- The ranges of the buffers in the chunk. -/
def inlineViews (m : Mem UInt8) : List (ℕ × ℕ) := readViews m (readBE m 1 2) 3

/-- A buffer that an unpickled object refers to. -/
inductive Part where
  /-- Memory of its own: a frame of a message. -/
  | own (b : Buffer)
  /-- A `memoryview` of a range of a chunk. -/
  | view (chunk offset len : ℕ)

/-- The bytes of the buffer, given the contents of the chunks. -/
def Part.contents (data : ℕ → Mem UInt8) : Part → Buffer
  | .own b => b
  | .view chunk offset len => Buffer.read (data chunk) offset len

/-- An unpickled object: `pickle.loads` copies what is in the main buffer, and refers to the buffers
that are out of band. -/
structure Obj where
  main : Buffer
  /-- The buffers that are out of band. -/
  oob : List Part

/-- What the object contains, as buffers. -/
def Obj.contents (data : ℕ → Mem UInt8) (x : Obj) : List Buffer :=
  x.main :: x.oob.map (Part.contents data)

/-- `pickle.loads(all_buffers[0], buffers=all_buffers[1:])` on the buffers of a chunk. It raises if
there are none. -/
def loadInline (data : ℕ → Mem UInt8) (chunk : ℕ) : Option Obj :=
  match inlineViews (data chunk) with
  | [] => none
  | v :: vs => some ⟨Buffer.read (data chunk) v.1 v.2, vs.map fun v => .view chunk v.1 v.2⟩

/-- `recv`: the object of a message of its own frames. -/
def loadMessage (p : Pickled) : Obj := ⟨p.main, p.oob.map .own⟩

theorem contents_loadMessage (data : ℕ → Mem UInt8) (p : Pickled) :
    (loadMessage p).contents data = p.buffers := by
  simp [loadMessage, Obj.contents, Pickled.buffers, Part.contents, Function.comp_def]

variable {data : ℕ → Mem UInt8}

/-- The object that is read off a chunk contains what the views of the chunk show. -/
theorem contents_loadInline {chunk : ℕ} {x : Obj} (hx : loadInline data chunk = some x) :
    x.contents data
      = (inlineViews (data chunk)).map fun v => Buffer.read (data chunk) v.1 v.2 := by
  unfold loadInline at hx
  cases hviews : inlineViews (data chunk) with
  | nil => simp [hviews] at hx
  | cons v vs =>
    rw [hviews] at hx
    obtain rfl := Option.some_inj.mp hx
    simp [Obj.contents, Part.contents, Function.comp_def]

theorem loadInline_congr {data' : ℕ → Mem UInt8} {chunk : ℕ}
    (h : data' chunk = data chunk) : loadInline data' chunk = loadInline data chunk := by
  rw [loadInline, loadInline, h]

/-- The chunk holds an object. -/
def HoldsObject (maxChunkBytes : ℕ) (m : Mem UInt8) (p : Pickled) : Prop :=
  if p.overflows maxChunkBytes then m 0 = 1
  else m 0 = 0 ∧ (inlineViews m).map (fun v => Buffer.read m v.1 v.2) = p.buffers

variable {maxChunkBytes : ℕ} {p : Pickled}

/-- The first byte says which way the object goes. -/
theorem HoldsObject.first_eq_one_iff
    (h : HoldsObject maxChunkBytes m p) : m 0 = 1 ↔ p.overflows maxChunkBytes = true := by
  unfold HoldsObject at h
  split_ifs at h with hover
  · exact ⟨fun _ => hover, fun _ => h⟩
  · rw [h.1]
    exact ⟨fun hne => absurd hne (by decide), fun hover' => absurd hover' hover⟩

/-- What is read off the chunk is what the object contains. -/
theorem HoldsObject.contents {chunk : ℕ}
    (h : HoldsObject maxChunkBytes (data chunk) p) (hfirst : data chunk 0 ≠ 1) {x : Obj}
    (hx : loadInline data chunk = some x) : x.contents data = p.buffers := by
  rw [Ne, h.first_eq_one_iff] at hfirst
  rw [HoldsObject, if_neg hfirst] at h
  rw [contents_loadInline hx]
  exact h.2

theorem fill_first (m : Mem UInt8) (c : ℕ → UInt8) : fill m 0 1 c 0 = c 0 :=
  fill_of_mem m c (a := 0) (r := 0) Nat.one_pos

theorem writeBuffers_of_lt (bs : List Buffer) (m : Mem UInt8) (offset x : ℕ) (hx : x < offset) :
    (writeBuffers maxChunkBytes m offset bs).1 x = m x := by
  induction bs generalizing m offset x with
  | nil => rfl
  | cons b bs ih =>
    unfold writeBuffers
    split_ifs
    · rw [ih _ _ x (by omega), fill_of_not_mem _ _ (Or.inl (by omega)),
        fill_of_not_mem _ _ (Or.inl hx)]
    · rfl

theorem readViews_writeBuffers (bs : List Buffer) (m : Mem UInt8) (offset : ℕ)
    (hok : (writeBuffers maxChunkBytes m offset bs).2 = true) :
    (readViews (writeBuffers maxChunkBytes m offset bs).1 bs.length offset).map
        (fun v => Buffer.read (writeBuffers maxChunkBytes m offset bs).1 v.1 v.2) = bs := by
  induction bs generalizing m offset with
  | nil => rfl
  | cons b bs ih =>
    unfold writeBuffers at hok ⊢
    split_ifs at hok ⊢ with hfits
    -- the later buffers leave the length and the bytes of this one
    set m₁ := fill (fill m offset 4 (be 4 b.len)) (offset + 4) b.len b.byte with hm₁
    set m₂ := (writeBuffers maxChunkBytes m₁ (offset + 4 + b.len) bs).1 with hm₂
    have hframe : ∀ x < offset + 4 + b.len, m₂ x = m₁ x :=
      fun x hx => writeBuffers_of_lt bs m₁ _ x hx
    have hlen : readBE m₂ offset 4 = b.len := by
      refine readBE_of_holdsAt hfits.1 fun i hi => ?_
      rw [hframe _ (by omega), hm₁, fill_of_not_mem _ _ (Or.inl (by omega)), fill_of_mem _ _ hi]
    have hbytes : HoldsAt m₂ (offset + 4) b.len b.byte := by
      intro i hi
      rw [hframe _ (by omega), hm₁, fill_of_mem _ _ hi]
    rw [List.length_cons, readViews, hlen, List.map_cons, Buffer.read_of_holdsAt hbytes, hm₂,
      ih m₁ _ hok]

/-- **The views of the chunk are the buffers of the object.** -/
theorem map_read_inlineViews (hok : (writeInline maxChunkBytes m p).2 = true) :
    (inlineViews (writeInline maxChunkBytes m p).1).map
      (fun v => Buffer.read (writeInline maxChunkBytes m p).1 v.1 v.2) = p.buffers := by
  unfold writeInline at hok ⊢
  split_ifs at hok ⊢ with hcount
  have hnum : readBE (writeBuffers maxChunkBytes (fill (fill m 0 1 fun _ => 0) 1 2
      (be 2 p.buffers.length)) 3 p.buffers).1 1 2 = p.buffers.length := by
    refine readBE_of_holdsAt hcount fun i hi => ?_
    rw [writeBuffers_of_lt _ _ _ _ (by omega), fill_of_mem _ _ hi]
  rw [inlineViews, hnum]
  exact readViews_writeBuffers _ _ _ hok

theorem holdsObject_writeChunk (hok : (writeChunk maxChunkBytes m p).2 = true) :
    HoldsObject maxChunkBytes (writeChunk maxChunkBytes m p).1 p := by
  unfold writeChunk at hok ⊢
  unfold HoldsObject
  split_ifs at hok ⊢ with hover hsize
  · exact fill_first m fun _ => 1
  · refine ⟨?_, map_read_inlineViews hok⟩
    unfold writeInline
    split_ifs
    · rw [writeBuffers_of_lt _ _ _ _ (by omega), fill_of_not_mem _ _ (Or.inl (by omega))]
      exact fill_first m fun _ => 0
    · exact fill_first m fun _ => 0

end CacheFlow.Shm
