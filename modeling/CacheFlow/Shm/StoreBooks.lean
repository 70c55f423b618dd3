import CacheFlow.Shm.ObjectStore

/-!
# The books of the object store

The writer's books and the buffer agree: the chunks of the books lie in a row in the ring, with
consecutive ids, and each is in the buffer with its id, its size and its object. Putting an object
and freeing the oldest chunk keep that, and so do the readers, who only store counts.

## Main results

* `Store.Books.put`, `Store.Books.free` — what the writer does to the books.
* `Store.Books.readObject_eq` — what a reader gets for an address of the books.
-/

namespace CacheFlow.Shm

open List Function

/-- What the fields in shared memory require: sizes fit into four bytes, and the chunks that can be
there at a time have different ids. -/
structure StoreConfig.Bounded (c : StoreConfig) : Prop where
  size : c.maxObjectSize + 8 < 2 ^ 31
  ids : c.dataBufferSize < 12 * idMax

namespace Store

/-! ### Chunks and writes -/

section Bytes

variable {K : Type} {D : ℕ} {m m' : Mem UInt8} {e : Entry K}

/-- The chunk is in the buffer, whatever its count. -/
structure HoldsChunk (D : ℕ) (m : Mem UInt8) (e : Entry K) : Prop where
  id : HoldsAt m (e.address % D) 4 (int2byte e.id)
  size : HoldsAt m (e.address % D + 4) 4 (int2byte (e.obj.len + 12 : ℕ))
  obj : HoldsAt m (e.address % D + 12) e.obj.len e.obj.byte

/-- What a chunk holds depends on its own bytes, and not on those of the count. -/
theorem HoldsChunk.congr (h : HoldsChunk D m e)
    (hm : ∀ x, e.address % D ≤ x → x < e.address % D + (e.obj.len + 12) →
      ¬ (e.address % D + 8 ≤ x ∧ x < e.address % D + 12) → m' x = m x) : HoldsChunk D m' e where
  id := by
    intro i hi
    rw [hm _ (by omega) (by omega) (by omega)]
    exact h.id i hi
  size := by
    intro i hi
    rw [hm _ (by omega) (by omega) (by omega)]
    exact h.size i hi
  obj := by
    intro i hi
    rw [hm _ (by omega) (by omega) (by omega)]
    exact h.obj i hi

theorem byte2int_congr {offset : ℕ} (h : ∀ i < 4, m' (offset + i) = m (offset + i)) :
    byte2int m' offset = byte2int m offset := by
  have h0 : m' offset = m offset := h 0 (by omega)
  simp only [byte2int, h0, h 1 (by omega), h 2 (by omega), h 3 (by omega)]

theorem putBytes_of_not_mem {address id : ℕ} {obj : Buffer} {x : ℕ}
    (hx : x < address % D ∨ address % D + (obj.len + 12) ≤ x) :
    putBytes D m address id obj x = m x := by
  unfold putBytes
  rw [fill_of_not_mem _ _ (by omega), fill_of_not_mem _ _ (by omega),
    fill_of_not_mem _ _ (by omega), fill_of_not_mem _ _ (by omega)]

theorem holdsChunk_putBytes (e : Entry K) : HoldsChunk D (putBytes D m e.address e.id e.obj) e where
  id := by
    exact ((holdsAt_fill _ _ _ _).fill_of_disjoint _ (by omega)).fill_of_disjoint _ (by omega)
      |>.fill_of_disjoint _ (by omega)
  size := by
    exact ((holdsAt_fill _ _ _ _).fill_of_disjoint _ (by omega)).fill_of_disjoint _ (by omega)
  obj := holdsAt_fill _ _ _ _

theorem readCount_putBytes (address id : ℕ) (obj : Buffer) :
    readCount D (putBytes D m address id obj) address = 0 := by
  refine byte2int_of_holdsAt (by decide) (by decide) ?_
  exact (holdsAt_fill _ _ _ _).fill_of_disjoint _ (by omega)

theorem readCount_writeCount {address : ℕ} {count : ℤ} (hlo : -2 ^ 31 ≤ count)
    (hhi : count < 2 ^ 31) : readCount D (writeCount D m address count) address = count :=
  byte2int_of_holdsAt hlo hhi (holdsAt_fill _ _ _ _)

theorem HoldsChunk.readSize_eq (h : HoldsChunk D m e) (hsize : e.obj.len + 12 < 2 ^ 31) :
    readSize D m e.address = (e.obj.len + 12 : ℕ) :=
  byte2int_of_holdsAt (by omega) (by omega) h.size

theorem HoldsChunk.readObject_eq (h : HoldsChunk D m e) (hsize : e.obj.len + 12 < 2 ^ 31)
    (hid : e.id < 2 ^ 31) : readObject D m e.listing = some e.obj := by
  have hread : readId D m e.address = e.id := byte2int_of_holdsAt (by omega) (by omega) h.id
  have hobj : Buffer.read m (e.address % D + 12) ((readSize D m e.address).toNat - 12) = e.obj := by
    rw [h.readSize_eq hsize, Int.toNat_natCast, Nat.add_sub_cancel, Buffer.read_of_holdsAt h.obj]
  exact (if_pos hread).trans (congrArg some hobj)

end Bytes

/-! ### The books -/

variable {K : Type} {c : StoreConfig}

/-- The chunk as address and size. -/
def segment (e : Entry K) : ℕ × ℕ := (e.address, e.obj.len + 12)

/-- Ring, books and buffer agree. -/
structure Books (c : StoreConfig) (q : Store K) : Prop where
  row : q.ring.Row c.dataBufferSize (q.entries.map segment)
  /-- The ids are consecutive, -/
  ids : q.entries.map Entry.id
    = (List.range q.entries.length).map fun i => (q.ring.monotonicIdStart + i) % idMax
  /-- and the next one follows. -/
  idEnd : q.ring.monotonicIdEnd = (q.ring.monotonicIdStart + q.entries.length) % idMax
  idStart_lt : q.ring.monotonicIdStart < idMax
  small : ∀ e ∈ q.entries, e.obj.len + 4 ≤ c.maxObjectSize
  chunk : ∀ e ∈ q.entries, HoldsChunk c.dataBufferSize q.mem e
  keys : (q.entries.map Entry.key).Nodup
  uid_lt : ∀ e ∈ q.entries, e.uid < q.puts
  uids : (q.entries.map Entry.uid).Nodup
  unflagged : ∀ i, (∀ e ∈ q.entries, e.id ≠ i) → q.writerFlag i = 0

variable {q : Store K}

theorem Books.init (m : Mem UInt8) : (init m : Store K).Books c where
  row := ⟨rfl, rfl⟩
  ids := rfl
  idEnd := rfl
  idStart_lt := Nat.two_pow_pos 31
  small := by simp [Store.init]
  chunk := by simp [Store.init]
  keys := by simp [Store.init]
  uid_lt := by simp [Store.init]
  uids := by simp [Store.init]
  unflagged := fun _ _ => rfl

theorem length_lt_of_row {r : ObjectRing} {l : List (Entry K)} (hc : c.Bounded)
    (h : r.Row c.dataBufferSize (l.map segment)) : l.length < idMax := by
  have hsum := h.sum_le
  have hlen : l.length * 12 ≤ ((l.map segment).map Prod.snd).sum := by
    have := card_nsmul_le_sum ((l.map segment).map Prod.snd) 12 (by
      intro n hn
      simp only [map_map, mem_map, Function.comp_apply, segment] at hn
      omega)
    simpa using this
  have := hc.ids
  omega

theorem nodup_ids (start : ℕ) {n : ℕ} (hn : n ≤ idMax) :
    ((List.range n).map fun i => (start + i) % idMax).Nodup := by
  refine List.Nodup.map_on (fun i hi j hj heq => ?_) nodup_range
  have hmod : i ≡ j [MOD idMax] := Nat.ModEq.add_left_cancel' start heq
  exact Nat.ModEq.eq_of_lt_of_lt hmod ((mem_range.mp hi).trans_le hn)
    ((mem_range.mp hj).trans_le hn)

theorem Books.nodup_ids (h : q.Books c) (hc : c.Bounded) : (q.entries.map Entry.id).Nodup := by
  rw [h.ids]
  exact Store.nodup_ids _ (length_lt_of_row hc h.row).le

variable {e e' : Entry K}

section

variable (h : q.Books c)
include h

theorem Books.eq_of_id (hc : c.Bounded) (he : e ∈ q.entries)
    (he' : e' ∈ q.entries) (hid : e.id = e'.id) : e = e' :=
  inj_on_of_nodup_map (h.nodup_ids hc) he he' hid

theorem Books.eq_of_uid (he : e ∈ q.entries)
    (he' : e' ∈ q.entries) (huid : e.uid = e'.uid) : e = e' :=
  inj_on_of_nodup_map h.uids he he' huid

theorem Books.eq_of_key (he : e ∈ q.entries)
    (he' : e' ∈ q.entries) (hkey : e.key = e'.key) : e = e' :=
  inj_on_of_nodup_map h.keys he he' hkey

theorem Books.id_lt (he : e ∈ q.entries) : e.id < 2 ^ 31 := by
  have hmem : e.id ∈ q.entries.map Entry.id := mem_map_of_mem he
  rw [h.ids, mem_map] at hmem
  obtain ⟨i, -, hi⟩ := hmem
  rw [← hi]
  exact Nat.mod_lt _ (by decide)

theorem Books.size_lt (hc : c.Bounded) (he : e ∈ q.entries) : e.obj.len + 12 < 2 ^ 31 := by
  have hsize := h.small e he
  have hmax := hc.size
  omega

/-- **What a reader gets for an address of the books.** -/
theorem Books.readObject_eq (hc : c.Bounded) (he : e ∈ q.entries) :
    readObject c.dataBufferSize q.mem e.listing = some e.obj :=
  (h.chunk e he).readObject_eq (h.size_lt hc he) (h.id_lt he)

theorem Books.segments_eq (hc : c.Bounded) :
    q.segments c.dataBufferSize = q.entries.map segment := by
  refine map_congr_left fun e he => ?_
  rw [(h.chunk e he).readSize_eq (h.size_lt hc he), Int.toNat_natCast]
  rfl

theorem Books.apart (he : e ∈ q.entries) (he' : e' ∈ q.entries)
    (hne : e ≠ e') : CellsApart c.dataBufferSize (segment e) (segment e') := by
  have : Std.Symm fun e e' : Entry K => CellsApart c.dataBufferSize (segment e) (segment e') :=
    ⟨fun _ _ h => h.symm⟩
  exact (pairwise_map.mp h.row.pairwise).forall he he' hne

end

variable {es : List (Entry K)}

theorem Books.head_id (h : q.Books c)
    (hes : q.entries = e :: es) : e.id = q.ring.monotonicIdStart := by
  have hids := h.ids
  rw [hes, map_cons, length_cons, range_succ_eq_map, map_cons] at hids
  rw [(cons_eq_cons.mp hids).1, Nat.add_zero, Nat.mod_eq_of_lt h.idStart_lt]

/-! ### Putting an object -/

theorem putBytes_eq_of_row {ring : ObjectRing}
    (hrow : ring.Row c.dataBufferSize (q.entries.map segment)) {obj : Buffer}
    (hroom : ring.hasRoom c.dataBufferSize (obj.len + 12) = true) (id : ℕ)
    (he : e ∈ q.entries) {x : ℕ} (hlo : e.address % c.dataBufferSize ≤ x)
    (hhi : x < e.address % c.dataBufferSize + (e.obj.len + 12)) :
    putBytes c.dataBufferSize q.mem (ring.bufferEndReset c.dataBufferSize (obj.len + 12)) id obj x
      = q.mem x := by
  have hpair := (pairwise_append.mp (hrow.allocated c.pos hroom).pairwise).2.2
  have hcells := hpair (segment e) (mem_map_of_mem he) _ (mem_singleton_self _)
  unfold CellsApart segment at hcells
  dsimp only at hcells
  exact putBytes_of_not_mem (by omega)

theorem Books.readCount_putBytes_of_mem (h : q.Books c) {obj : Buffer}
    (hroom : q.ring.hasRoom c.dataBufferSize (obj.len + 12) = true) (id : ℕ)
    (he : e ∈ q.entries) :
    readCount c.dataBufferSize (putBytes c.dataBufferSize q.mem
      (q.ring.bufferEndReset c.dataBufferSize (obj.len + 12)) id obj) e.address
      = readCount c.dataBufferSize q.mem e.address :=
  byte2int_congr fun _ _ => putBytes_eq_of_row h.row hroom id he (by omega) (by omega)

/-- **An object is put.** -/
theorem Books.put (h : q.Books c) {ring : ObjectRing}
    (hrow : ring.Row c.dataBufferSize (q.entries.map segment))
    (hstart : ring.monotonicIdStart = q.ring.monotonicIdStart)
    (hend : ring.monotonicIdEnd = q.ring.monotonicIdEnd) {x : Pending K}
    (hsize : x.obj.len + 4 ≤ c.maxObjectSize) (hnew : ∀ e ∈ q.entries, e.key ≠ x.key)
    (hroom : ring.hasRoom c.dataBufferSize (x.obj.len + 12) = true) (todo : List (Pending K))
    (done : List Listing) : (q.put c ring x todo done).Books c := by
  set e : Entry K := ⟨ring.monotonicIdEnd,
    ring.bufferEndReset c.dataBufferSize (x.obj.len + 12), x.key, q.puts, x.obj⟩ with he
  have hentries : (q.put c ring x todo done).entries = q.entries ++ [e] := rfl
  have hmem : ∀ {e'}, e' ∈ (q.put c ring x todo done).entries ↔ e' ∈ q.entries ∨ e' = e := by
    intro e'
    rw [hentries, mem_append, mem_singleton]
  refine ⟨?_, ?_, ?_, ?_, ?_, ?_, ?_, ?_, ?_, ?_⟩
  · rw [hentries, map_append]
    exact hrow.allocated c.pos hroom
  · have hid : e.id = (q.ring.monotonicIdStart + q.entries.length) % idMax := hend.trans h.idEnd
    have hring : (q.put c ring x todo done).ring.monotonicIdStart = q.ring.monotonicIdStart :=
      hstart
    rw [hentries, map_append, h.ids, length_append, length_singleton,
      range_succ, map_append, hring, map_singleton, map_singleton, hid]
  · show (ring.monotonicIdEnd + 1) % idMax = (ring.monotonicIdStart + _) % idMax
    rw [hentries, length_append, length_singleton, hstart, hend, h.idEnd,
      Nat.mod_add_mod, Nat.add_assoc]
  · show ring.monotonicIdStart < idMax
    rw [hstart]
    exact h.idStart_lt
  · intro e' he'
    rcases hmem.mp he' with he' | rfl
    · exact h.small e' he'
    · exact hsize
  · -- the new chunk is written where no other one is
    intro e' he'
    rcases hmem.mp he' with he' | rfl
    · exact (h.chunk e' he').congr fun y hlo hhi _ => putBytes_eq_of_row hrow hroom _ he' hlo hhi
    · exact holdsChunk_putBytes e
  · rw [hentries, map_append, map_singleton, ← concat_eq_append]
    refine List.Nodup.concat (fun hkey => ?_) h.keys
    obtain ⟨e', he', hkey⟩ := mem_map.mp hkey
    exact hnew e' he' hkey
  · intro e' he'
    show e'.uid < q.puts + 1
    rcases hmem.mp he' with he' | rfl
    · exact (h.uid_lt e' he').trans (Nat.lt_succ_self _)
    · exact Nat.lt_succ_self _
  · rw [hentries, map_append, map_singleton, ← concat_eq_append]
    refine List.Nodup.concat (fun huid => ?_) h.uids
    obtain ⟨e', he', huid⟩ := mem_map.mp huid
    exact (h.uid_lt e' he').ne huid
  · intro i hi
    show update q.writerFlag ring.monotonicIdEnd _ i = 0
    rw [update_of_ne (hi e (hmem.mpr (Or.inr rfl))).symm]
    exact h.unflagged i fun e' he' => hi e' (hmem.mpr (Or.inl he'))

/-! ### Freeing the oldest chunk -/

theorem Books.entries_freeEntry (h : q.Books c) (hc : c.Bounded) (hes : q.entries = e :: es)
    (x : Pending K) (todo : List (Pending K))
    (done : List Listing) (freedBytes : ℕ) :
    (q.freeEntry c e x todo done freedBytes).entries = es ∧
      (q.freeEntry c e x todo done freedBytes).ring
        = q.ring.freed c.dataBufferSize (es.head?.map Entry.address) := by
  have hnodup := h.nodup_ids hc
  rw [hes, map_cons, nodup_cons] at hnodup
  have hfilter : (q.entries.filter fun e' => e'.id ≠ e.id) = es := by
    rw [hes, filter_cons_of_neg (by simp), filter_eq_self]
    intro e' he'
    have hne : e'.id ≠ e.id := fun heq => hnodup.1 (heq ▸ mem_map_of_mem he')
    exact decide_eq_true hne
  refine ⟨hfilter, ?_⟩
  show q.ring.freed _ (((q.entries.filter _).find? _).map _) = _
  rw [hfilter]
  cases es with
  | nil => rfl
  | cons e' es =>
    have hids := h.ids
    rw [hes] at hids
    have hid : e'.id = (q.ring.monotonicIdStart + 1) % idMax := by
      have := congrArg (fun l => l[1]?) hids
      simpa using this
    rw [List.find?_cons_of_pos (by simpa using hid)]
    rfl

/-- **The oldest chunk is freed.** -/
theorem Books.free (h : q.Books c) (hc : c.Bounded)
    (hes : q.entries = e :: es) (x : Pending K) (todo : List (Pending K)) (done : List Listing)
    (freedBytes : ℕ) : (q.freeEntry c e x todo done freedBytes).Books c := by
  obtain ⟨hentries, hring⟩ := h.entries_freeEntry hc hes x todo done freedBytes
  have hsub : ∀ e' ∈ es, e' ∈ q.entries := by
    intro e' he'
    rw [hes]
    exact mem_cons_of_mem e he'
  have hstart : (q.freeEntry c e x todo done freedBytes).ring.monotonicIdStart
      = (q.ring.monotonicIdStart + 1) % idMax := by
    rw [hring]
    cases es.head? <;> rfl
  have hend : (q.freeEntry c e x todo done freedBytes).ring.monotonicIdEnd
      = q.ring.monotonicIdEnd := by
    rw [hring]
    cases es.head? <;> rfl
  refine ⟨?_, ?_, ?_, ?_, ?_, ?_, ?_, ?_, ?_, ?_⟩
  · -- the row starts with the next chunk, or is empty
    have hrow := h.row
    rw [hes, map_cons] at hrow
    have hfreed := hrow.freed fun y hy => by
      obtain ⟨e', -, rfl⟩ := mem_map.mp hy
      exact Nat.succ_pos _
    rw [hentries, hring]
    rwa [List.head?_map, Option.map_map] at hfreed
  · have hids := h.ids
    rw [hes, map_cons, length_cons, range_succ_eq_map, map_cons,
      map_map, cons_eq_cons] at hids
    rw [hentries, hstart, hids.2]
    refine map_congr_left fun i _ => ?_
    rw [Nat.mod_add_mod, Nat.add_assoc, Nat.add_comm 1 i]
    rfl
  · rw [hentries, hstart, hend, h.idEnd, hes, length_cons, Nat.mod_add_mod, Nat.add_assoc,
      Nat.add_comm 1]
  · rw [hstart]
    exact Nat.mod_lt _ (Nat.two_pow_pos 31)
  · rw [hentries]
    exact fun e' he' => h.small e' (hsub e' he')
  · rw [hentries]
    exact fun e' he' => h.chunk e' (hsub e' he')
  · have hkeys := h.keys
    rw [hes, map_cons, nodup_cons] at hkeys
    rw [hentries]
    exact hkeys.2
  · rw [hentries]
    exact fun e' he' => h.uid_lt e' (hsub e' he')
  · have huids := h.uids
    rw [hes, map_cons, nodup_cons] at huids
    rw [hentries]
    exact huids.2
  · intro i hi
    rw [hentries] at hi
    show update q.writerFlag e.id 0 i = 0
    rcases eq_or_ne i e.id with rfl | hne
    · rw [update_self]
    · rw [update_of_ne hne]
      refine h.unflagged i fun e' he' => ?_
      rw [hes] at he'
      rcases mem_cons.mp he' with rfl | he'
      · exact hne.symm
      · exact hi e' he'

/-! ### Storing a count -/

theorem Books.holdsChunk_writeCount (h : q.Books c) (he : e ∈ q.entries)
    (count : ℤ) : ∀ e' ∈ q.entries,
      HoldsChunk c.dataBufferSize (writeCount c.dataBufferSize q.mem e.address count) e' := by
  intro e' he'
  refine (h.chunk e' he').congr fun y hlo hhi hcount => fill_of_not_mem _ _ ?_
  rcases eq_or_ne e e' with rfl | hne
  · omega
  · have hcells := h.apart he he' hne
    unfold CellsApart segment at hcells
    dsimp only at hcells
    omega

theorem Books.readCount_of_ne (h : q.Books c) (he : e ∈ q.entries)
    (he' : e' ∈ q.entries) (hne : e ≠ e') (count : ℤ) :
    readCount c.dataBufferSize (writeCount c.dataBufferSize q.mem e.address count) e'.address
      = readCount c.dataBufferSize q.mem e'.address := by
  have hcells := h.apart he he' hne
  unfold CellsApart segment at hcells
  dsimp only at hcells
  refine byte2int_congr fun i hi => ?_
  exact fill_of_not_mem _ _ (by omega)

end Store

end CacheFlow.Shm
