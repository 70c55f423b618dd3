import CacheFlow.Server.Store

/-!
# The space and index invariant of the store

Every operation moves entries between the index, the entries being written and
the retired ones, or gives their pages back; none may lose an entry or free one
twice. The pages are accounted for by the live allocations of the allocator:
`Owns s cs` says the blocks `cs` own the used pages, so an operation that takes
an entry out of a container is left with a block to free or to put elsewhere.

Apart from leases, an operation does not touch the pinned entries either: what
`Kept` records beside the invariant is that the entries with a pin are the same
before and after, and so are the leases.

## Main results

* `Store.Inv.sat_evictOne`, `Store.Inv.sat_allocate`, `Store.Inv.sat_commit`, … — the operations.
-/

namespace CacheFlow

open ExtentAllocator List Dict Entry

/-- The pages an entry stands for. -/
def Entry.block (e : Entry) : Block := ⟨e.offset, e.size⟩

/-- What stays the same about an entry for as long as it lives. -/
def Entry.core (e : Entry) : ℕ × Block := (e.uid, e.block)

namespace Store

/-- The entries that can be read: READY, or retired but still pinned. -/
def readable (s : Store) : List Entry := s.index.values ++ s.retired

/-- The entries that own pages. -/
def live (s : Store) : List Entry := s.readable ++ s.writing.values

/-- The blocks `cs` own the used pages; their identities are distinct, have been
given out, and have not been freed. -/
structure Owns (s : Store) (cs : List (ℕ × Block)) : Prop where
  holds : s.alloc.Holds (cs.map Prod.snd)
  nodup : (cs.map Prod.fst).Nodup
  lt : ∀ u ∈ cs.map Prod.fst, u < s.nextUid
  freed : ∀ u ∈ s.freed, u < s.nextUid ∧ u ∉ cs.map Prod.fst

/-- **The invariant.** -/
structure Inv (s : Store) : Prop where
  owns : s.Owns (s.live.map core)
  lru : ∀ k, k ∈ s.lru.keys ↔ k ∈ s.index.keys
  key : ∀ k e, s.index.get? k = some e → e.key = k
  ready : ∀ k e, s.index.get? k = some e → e.state = .ready
  /-- Entries being written are kept under their own key and owner, unpinned. -/
  writing : ∀ k t e, s.writing.get? (k, t) = some e → e.key = k ∧ e.owner = some t ∧ e.pins = 0
  retired : ∀ e ∈ s.retired, 0 < e.pins

/-- The entries of a list with a pin. Retiring one only sets its flag, which is
forgotten. -/
def pinnedOf (l : List Entry) : List Entry :=
  (l.filter fun e => 0 < e.pins).map fun e => { e with retired := false }

/-- The entries with a pin. -/
def pinnedEntries (s : Store) : List Entry := pinnedOf s.readable

/-- The invariant, the leases and the pinned entries are kept. -/
structure Kept (s s' : Store) : Prop where
  inv : s'.Inv
  pinned : s'.pinnedEntries.Perm s.pinnedEntries
  leases : s'.leases = s.leases
  leaseIds : s'.leaseIds = s.leaseIds
  samePool : SamePool s.alloc s'.alloc

variable {s s' : Store}

theorem Kept.trans {s'' : Store} (h : Kept s s') (h' : Kept s' s'') : Kept s s'' where
  inv := h'.inv
  pinned := h'.pinned.trans h.pinned
  leases := h'.leases.trans h.leases
  leaseIds := h'.leaseIds.trans h.leaseIds
  samePool := h.samePool.trans h'.samePool

theorem Inv.kept (h : s.Inv) : Kept s s := ⟨h, .refl _, rfl, rfl, .refl _⟩

/-! ### Ownership -/

variable {cs : List (ℕ × Block)}

theorem Owns.perm {cs' : List (ℕ × Block)} (h : s.Owns cs) (hp : cs.Perm cs') : s.Owns cs' where
  holds := h.holds.perm (hp.map _)
  nodup := (hp.map Prod.fst).nodup_iff.mp h.nodup
  lt := fun u hu => h.lt u ((hp.map Prod.fst).mem_iff.mpr hu)
  freed := fun u hu => ⟨(h.freed u hu).1, fun hmem => (h.freed u hu).2 ((hp.map _).mem_iff.mpr hmem)⟩

theorem Owns.congr (h : s.Owns cs) (ha : s'.alloc = s.alloc)
    (hn : s'.nextUid = s.nextUid) (hf : s'.freed = s.freed) : s'.Owns cs where
  holds := ha ▸ h.holds
  nodup := h.nodup
  lt := hn ▸ h.lt
  freed := by rw [hf, hn]; exact h.freed

theorem sat_onAlloc {α : Type} {m : EStateM PyErr ExtentAllocator α}
    {Q : α → Store → Prop} (h : Sat m s.alloc fun r a => Q r { s with alloc := a }) :
    Sat (onAlloc m) s Q := by
  obtain ⟨r, a, hm, hq⟩ := h
  refine ⟨r, { s with alloc := a }, ?_, hq⟩
  simp only [onAlloc, hm]

variable {e : Entry}

/-- **Freeing an entry** that is in no container any more. -/
theorem sat_freeEntry (h : s.Owns (e.core :: cs)) : Sat (freeEntry e) s fun _ s' => s'.Owns cs ∧
      ∃ a, SamePool s.alloc a ∧ s' = { s with alloc := a, freed := s.freed ++ [e.uid] } := by
  unfold freeEntry
  apply sat_onAlloc
  have hholds := h.holds
  refine hholds.sat_free.mono ?_
  rintro _ a ⟨ha, hsame⟩
  refine ⟨⟨ha, ?_, ?_, ?_⟩, a, hsame, rfl⟩
  · exact (nodup_cons.mp h.nodup).2
  · exact fun u hu => h.lt u (mem_cons_of_mem _ hu)
  · intro u hu
    rcases mem_append.mp hu with hu | hu
    · obtain ⟨hlt, hnot⟩ := h.freed u hu
      exact ⟨hlt, fun hmem => hnot (mem_cons_of_mem _ hmem)⟩
    · rw [mem_singleton] at hu
      subst hu
      exact ⟨h.lt _ mem_cons_self, (nodup_cons.mp h.nodup).1⟩

variable {k : String}

theorem readable_perm_of_index (h : s.index.get? k = some e) :
    s.readable.Perm (e :: ((s.index.erase k).values ++ s.retired)) :=
  (values_perm_of_get? h).append_right _

theorem pinnedOf_perm {l l' : List Entry} (h : l.Perm l') : (pinnedOf l).Perm (pinnedOf l') :=
  (h.filter _).map _

theorem pinnedOf_cons_unpinned (h : e.pins = 0) (l : List Entry) :
    pinnedOf (e :: l) = pinnedOf l := by
  rw [pinnedOf, filter_cons_of_neg (by simp [h]), pinnedOf]

theorem pinnedOf_cons_pinned (h : 0 < e.pins) (l : List Entry) :
    pinnedOf (e :: l) = { e with retired := false } :: pinnedOf l := by
  rw [pinnedOf, filter_cons_of_pos (by simpa using h), map_cons, pinnedOf]

/-! ### Eviction -/

/-- An entry has been evicted. -/
structure Evicted (s : Store) (k : String) (e : Entry) (s' : Store) : Prop where
  get : s.index.get? k = some e
  pins : e.pins = 0
  /-- The entry has left the index and its pages have been given back; nothing else has
  changed. -/
  eq : ∃ a, SamePool s.alloc a ∧ s' = { s with
    lru := s.lru.erase k, index := s.index.erase k, alloc := a, freed := s.freed ++ [e.uid] }
  kept : Kept s s'

theorem Inv.sat_dropReady (h : s.Inv) (hget : s.index.get? k = some e) (hpins : e.pins = 0) :
    Sat (dropReady k e) s fun _ s' => Evicted s k e s' := by
  unfold dropReady
  set s₁ : Store := { s with lru := s.lru.erase k, index := s.index.erase k } with hs₁
  have hperm : s.live.Perm (e :: s₁.live) := (readable_perm_of_index hget).append_right _
  have howns : s₁.Owns (e.core :: s₁.live.map core) :=
    (h.owns.perm (hperm.map core)).congr rfl rfl rfl
  refine (sat_freeEntry howns).mono ?_
  rintro _ s' ⟨ho, a, hsame, hs'⟩
  subst hs'
  refine ⟨hget, hpins, ⟨a, hsame, rfl⟩, ⟨⟨ho, ?_, ?_, ?_, h.writing, h.retired⟩, ?_, rfl, rfl, hsame⟩⟩
  · intro k'
    simp only [hs₁, keys_erase]
    rw [s.lru.nodup_keys.mem_erase_iff, s.index.nodup_keys.mem_erase_iff, h.lru]
  · intro k' e' he'
    simp only [hs₁, get?_erase] at he'
    split_ifs at he' with hk
    exact h.key k' e' he'
  · intro k' e' he'
    simp only [hs₁, get?_erase] at he'
    split_ifs at he' with hk
    exact h.ready k' e' he'
  · have hp := pinnedOf_perm (readable_perm_of_index hget)
    rw [pinnedOf_cons_unpinned hpins] at hp
    exact hp.symm

/-- Whether a key is READY and not pinned. -/
def evictable (s : Store) (k : String) : Bool := (s.index.get? k).any fun e => e.pins = 0

/-- The keys that may be evicted, oldest first. -/
def victims (s : Store) : List String := s.lru.keys.filter s.evictable

theorem Inv.sat_evictScan (h : s.Inv) (keys : List String) (hmem : (∀ k ∈ keys, k ∈ s.lru.keys)) :
    Sat (evictScan keys) s fun b s' =>
      (b = false ∧ s' = s ∧ keys.filter s.evictable = []) ∨
      (b = true ∧ ∃ k e, Evicted s k e s' ∧ ∃ rest, keys.filter s.evictable = k :: rest) := by
  induction keys with
  | nil => simp [evictScan]
  | cons k keys ih =>
    obtain ⟨e, he⟩ := mem_keys_iff.mp ((h.lru k).mp (hmem k (by simp)))
    unfold evictScan
    simp only [sat_bind, sat_get, he]
    by_cases hpins : e.pins = 0
    · rw [if_pos hpins]
      simp only [sat_bind, sat_pure]
      refine (h.sat_dropReady he hpins).mono fun _ s' hev => Or.inr ⟨trivial, k, e, hev, ?_⟩
      exact ⟨_, filter_cons_of_pos (by simp [evictable, he, hpins])⟩
    · rw [if_neg hpins, filter_cons_of_neg (by simp [evictable, he, hpins])]
      exact ih fun k' hk' => hmem k' (mem_cons_of_mem k hk')

/-- **`evictOne` evicts the first victim**, or there is none and nothing changes. -/
theorem Inv.sat_evictOne (h : s.Inv) :
    Sat evictOne s fun b s' => (b = false ∧ s' = s ∧ s.victims = []) ∨
      (b = true ∧ ∃ k e, Evicted s k e s' ∧ ∃ rest, s.victims = k :: rest) := by
  unfold evictOne
  exact h.sat_evictScan s.lru.keys fun _ hk => hk

theorem Evicted.writing (h : Evicted s k e s') : s'.writing = s.writing := by
  obtain ⟨a, -, rfl⟩ := h.eq
  rfl

theorem Evicted.nextUid (h : Evicted s k e s') : s'.nextUid = s.nextUid := by
  obtain ⟨a, -, rfl⟩ := h.eq
  rfl

theorem Evicted.length_lru (hs : s.Inv)
    (h : Evicted s k e s') : s'.lru.keys.length < s.lru.keys.length := by
  have hk : k ∈ s.lru.keys := (hs.lru k).mpr (mem_keys_iff.mpr ⟨e, h.get⟩)
  obtain ⟨a, -, rfl⟩ := h.eq
  rw [keys_erase, length_erase_of_mem hk]
  exact Nat.sub_lt (length_pos_of_mem hk) Nat.one_pos

/-! ### Allocation -/

/-- Pages for `n` bytes have been found at `off`, after some evictions; no entry has
them yet. -/
structure Reserved (s : Store) (off n : ℤ) (s' : Store) : Prop where
  /-- The evictions kept everything, and the allocation only changed the allocator. -/
  prev : ∃ s₁ a, Kept s s₁ ∧ s₁.writing = s.writing ∧ s₁.nextUid = s.nextUid ∧
    s' = { s₁ with alloc := a } ∧ SamePool s₁.alloc a ∧ a.Holds (⟨off, n⟩ :: s₁.live.map block)

/-- The outcome of `allocate`: pages, or none and some evictions. -/
def AllocateResult (s : Store) (n : ℤ) (off : Option ℤ) (s' : Store) : Prop :=
  match off with
  | none => Kept s s' ∧ s'.writing = s.writing ∧ s'.nextUid = s.nextUid
  | some off => Reserved s off n s'

variable {n : ℤ}

theorem AllocateResult.of_evicted {s₁ : Store}
    {off : Option ℤ} (hev : Evicted s k e s₁) (h : AllocateResult s₁ n off s') :
    AllocateResult s n off s' := by
  cases off with
  | none =>
    obtain ⟨hk, hw, hn⟩ := h
    exact ⟨hev.kept.trans hk, hw.trans hev.writing, hn.trans hev.nextUid⟩
  | some off =>
    obtain ⟨s₂, a, hk, hw, hn, hs', hsame, hholds⟩ := h.prev
    exact ⟨s₂, a, hev.kept.trans hk, hw.trans hev.writing, hn.trans hev.nextUid, hs', hsame, hholds⟩

theorem Inv.holds (h : s.Inv) : s.alloc.Holds (s.live.map block) := by
  have := h.owns.holds
  rwa [map_map] at this

theorem Inv.sat_tryAlloc (h : s.Inv) (hn : 0 < n) : Sat (tryAlloc n) s fun off s' => match off with
      | none => s' = s
      | some off => Reserved s off n s' := by
  unfold tryAlloc
  simp only [sat_bind, sat_get]
  split_ifs
  · apply sat_onAlloc
    refine (h.holds.sat_alloc hn).mono fun off a hres => ?_
    cases off with
    | none => rw [hres.1]
    | some off => exact ⟨s, a, h.kept, rfl, rfl, rfl, hres.2, hres.1⟩
  · rw [sat_pure]

/-- **The allocation loop** ends within its bound, with pages or after the last
possible eviction. -/
theorem sat_allocateLoop (hn : 0 < n) (fuel : ℕ) (s : Store) (h : s.Inv)
    (hf : s.lru.keys.length < fuel) : Sat (allocateLoop n fuel) s (AllocateResult s n) := by
  induction fuel generalizing s with
  | zero => exact absurd hf (Nat.not_lt_zero _)
  | succ fuel ih =>
    unfold allocateLoop
    simp only [sat_bind]
    refine (h.sat_tryAlloc hn).mono fun off s' hres => ?_
    cases off with
    | some off => simpa only [sat_pure, AllocateResult] using hres
    | none =>
      subst hres
      simp only [sat_bind]
      refine h.sat_evictOne.mono fun b s₁ hev => ?_
      rcases hev with ⟨rfl, rfl, -⟩ | ⟨rfl, k, e, hev, -⟩
      · simp only [Bool.false_eq_true, if_false, sat_pure]
        exact ⟨h.kept, rfl, rfl⟩
      · simp only [if_true]
        have hlen := hev.length_lru h
        exact (ih s₁ hev.kept.inv (by omega)).mono fun off s' hres => .of_evicted hev hres

theorem Inv.sat_allocate (h : s.Inv) (hn : 0 < n) : Sat (allocate n) s (AllocateResult s n) := by
  unfold allocate
  exact sat_allocateLoop hn _ s h (Nat.lt_succ_self _)

theorem sat_shrinkLoop (fuel : ℕ) (s : Store) (h : s.Inv) (hf : s.lru.keys.length < fuel) :
    Sat (shrinkLoop fuel) s fun _ s' => Kept s s' ∧ s'.writing = s.writing := by
  induction fuel generalizing s with
  | zero => exact absurd hf (Nat.not_lt_zero _)
  | succ fuel ih =>
    unfold shrinkLoop
    simp only [sat_bind, sat_get]
    split_ifs
    · simp only [sat_bind]
      refine h.sat_evictOne.mono fun b s₁ hev => ?_
      rcases hev with ⟨rfl, rfl, -⟩ | ⟨rfl, k, e, hev, -⟩
      · simp only [Bool.false_eq_true, if_false, sat_pure]
        exact ⟨h.kept, trivial⟩
      · simp only [if_true]
        have hlen := hev.length_lru h
        refine (ih s₁ hev.kept.inv (by omega)).mono ?_
        rintro _ s' ⟨hk, hw⟩
        exact ⟨hev.kept.trans hk, hw.trans hev.writing⟩
    · rw [sat_pure]
      exact ⟨h.kept, rfl⟩

theorem Inv.sat_setCapacity (h : s.Inv) (c : ℤ) :
    Sat (setCapacity c) s fun _ s' => Kept s s' ∧ s'.writing = s.writing := by
  unfold setCapacity
  simp only [sat_bind, sat_modify, sat_get, sat_pure]
  set s₁ : Store := { s with capacityBytes := max 0 (min c s.poolBytes) } with hs₁
  have hinv : s₁.Inv :=
    { h with owns := h.owns.congr rfl rfl rfl }
  have hkept : Kept s s₁ := ⟨hinv, .refl _, rfl, rfl, .refl _⟩
  refine (sat_shrinkLoop _ s₁ hinv (Nat.lt_succ_self _)).mono ?_
  rintro _ s' ⟨hk, hw⟩
  exact ⟨hkept.trans hk, hw⟩

theorem sat_flushKeys (keys : List String) (n : ℕ) (s : Store) (h : s.Inv) (hnd : keys.Nodup)
    (hmem : (∀ k ∈ keys, k ∈ s.lru.keys)) :
    Sat (keys.foldlM flushKey n) s fun _ s' => Kept s s' ∧ s'.writing = s.writing := by
  induction keys generalizing n s with
  | nil =>
    rw [foldlM_nil, sat_pure]
    exact ⟨h.kept, rfl⟩
  | cons k keys ih =>
    rw [nodup_cons] at hnd
    obtain ⟨e, he⟩ := mem_keys_iff.mp ((h.lru k).mp (hmem k (by simp)))
    have hrest : ∀ k' ∈ keys, k' ∈ s.lru.keys := fun k' hk' => hmem k' (mem_cons_of_mem k hk')
    rw [foldlM_cons, sat_bind]
    unfold flushKey
    simp only [sat_bind, sat_get, he]
    split_ifs with hpins
    · simp only [sat_bind, sat_pure]
      refine (h.sat_dropReady he hpins).mono fun _ s₁ hev => ?_
      -- the keys still to come are not the one dropped
      have hrest' : ∀ k' ∈ keys, k' ∈ s₁.lru.keys := by
        intro k' hk'
        obtain ⟨a, -, rfl⟩ := hev.eq
        rw [keys_erase]
        have hne : k' ≠ k := fun heq => hnd.1 (heq ▸ hk')
        exact (mem_erase_of_ne hne).mpr (hrest k' hk')
      refine (ih (n + 1) s₁ hev.kept.inv hnd.2 hrest').mono ?_
      rintro _ s' ⟨hk, hw⟩
      exact ⟨hev.kept.trans hk, hw.trans hev.writing⟩
    · rw [sat_pure]
      exact ih n s h hnd.2 hrest

theorem Inv.sat_flush (h : s.Inv) : Sat flush s fun _ s' => Kept s s' ∧ s'.writing = s.writing := by
  unfold flush
  exact sat_flushKeys _ 0 s h s.lru.nodup_keys fun _ hk => hk

/-! ### Writing -/

theorem Inv.kept_lru (h : s.Inv) {l : Dict String Unit}
    (hl : ∀ k, k ∈ l.keys ↔ k ∈ s.lru.keys) : Kept s { s with lru := l } :=
  ⟨{ h with owns := h.owns.congr rfl rfl rfl, lru := fun k => (hl k).trans (h.lru k) },
    .refl _, rfl, rfl, .refl _⟩

theorem Inv.sat_moveToEnd (h : s.Inv) (hk : k ∈ s.lru.keys) :
    Sat (moveToEnd k) s fun _ s' => Kept s s' ∧ ∃ l, s' = { s with lru := l } := by
  unfold moveToEnd
  simp only [sat_bind, sat_get]
  rw [if_pos (contains_iff_mem_keys.mpr hk), sat_set]
  refine ⟨h.kept_lru fun k' => ?_, _, rfl⟩
  rw [mem_keys_set, keys_erase, s.lru.nodup_keys.mem_erase_iff]
  constructor
  · rintro (rfl | hk')
    · exact hk
    · exact hk'.2
  · intro hk'
    by_cases heq : k' = k
    · exact Or.inl heq
    · exact Or.inr ⟨heq, hk'⟩

/-- What an allocation by a session does to the entries being written: they stay,
and the new ones are the session's. -/
structure Written (s : Store) (session : String) (s' : Store) : Prop where
  grows : ∀ p e, s.writing.get? p = some e → s'.writing.get? p = some e
  /-- What is new belongs to the session. -/
  mine : ∀ p e, s'.writing.get? p = some e → s.writing.get? p = some e ∨ p.2 = session

variable {session : String}

theorem Written.of_eq (h : s'.writing = s.writing) : Written s session s' :=
  ⟨fun _ _ he => h ▸ he, fun _ _ he => Or.inl (h ▸ he)⟩

theorem Written.trans {s'' : Store} (h : Written s session s')
    (h' : Written s' session s'') : Written s session s'' := by
  refine ⟨fun p e he => h'.grows p e (h.grows p e he), fun p e he => ?_⟩
  rcases h'.mine p e he with he | hp
  · exact h.mine p e he
  · exact Or.inr hp

/-- A reserved block becomes an entry being written. -/
theorem Reserved.kept {off : ℤ} (h : Reserved s off n s')
    (hnew : s.writing.get? (k, session) = none) :
    Kept s { s' with
      nextUid := s'.nextUid + 1
      writing := s'.writing.set (k, session)
        ⟨s'.nextUid, k, off, n, .writing, some session, 0, false⟩ } ∧
    s'.writing = s.writing := by
  obtain ⟨s₁, a, hk, hw, -, rfl, hsame, hholds⟩ := h.prev
  have hinv := hk.inv
  set e : Entry := ⟨s₁.nextUid, k, off, n, .writing, some session, 0, false⟩ with he
  set s₂ : Store := { s₁ with
    alloc := a, nextUid := s₁.nextUid + 1, writing := s₁.writing.set (k, session) e } with hs₂
  have hnew₁ : s₁.writing.get? (k, session) = none := hw ▸ hnew
  have hperm : s₂.live.Perm (e :: s₁.live) :=
    ((values_set_perm_of_get?_eq_none hnew₁ e).append_left _).trans perm_middle
  have hcores := hperm.map core
  refine ⟨⟨{ hinv with owns := ⟨?_, ?_, ?_, ?_⟩, writing := ?_ }, hk.pinned, hk.leases,
    hk.leaseIds, hk.samePool.trans hsame⟩, hw⟩
  · rw [map_map]
    exact hholds.perm (hperm.map block).symm
  · refine (hcores.map Prod.fst).nodup_iff.mpr ?_
    rw [map_cons, map_cons, nodup_cons]
    -- the identity is new
    exact ⟨fun hmem => absurd (hinv.owns.lt _ hmem) (lt_irrefl _), hinv.owns.nodup⟩
  · intro u hu
    have hu' := (hcores.map Prod.fst).mem_iff.mp hu
    rcases mem_cons.mp hu' with rfl | hu'
    · exact Nat.lt_succ_self _
    · exact Nat.lt_succ_of_lt (hinv.owns.lt u hu')
  · intro u hu
    obtain ⟨hlt, hnot⟩ := hinv.owns.freed u hu
    refine ⟨Nat.lt_succ_of_lt hlt, fun hmem => ?_⟩
    have hmem' := (hcores.map Prod.fst).mem_iff.mp hmem
    rcases mem_cons.mp hmem' with rfl | hmem'
    · exact absurd hlt (lt_irrefl _)
    · exact hnot hmem'
  · intro k' t e' he'
    simp only [hs₂, get?_set, Prod.mk.injEq] at he'
    split_ifs at he' with heq
    · obtain ⟨rfl, rfl⟩ := heq
      rw [Option.some.injEq] at he'
      rw [← he', he]
      exact ⟨rfl, rfl, rfl⟩
    · exact hinv.writing k' t e' he'

/-- **One key of an allocation.** The entry returned is being written by the
session. -/
theorem Inv.sat_allocateKey (h : s.Inv) {size : ℤ} (hsize : 0 < size)
    (session : String) (skip : Bool) (k : String) :
    Sat (allocateKey size session skip k) s fun r s' => Kept s s' ∧ Written s session s' ∧
      ∀ e, r.2 = some e → s'.writing.get? (k, session) = some e := by
  unfold allocateKey
  simp only [sat_bind, sat_get]
  split_ifs with hexists hbusy hmine
  · simp only [sat_bind, sat_pure]
    have hk : k ∈ s.lru.keys := (h.lru k).mpr (contains_iff_mem_keys.mp hexists.2)
    refine (h.sat_moveToEnd hk).mono ?_
    rintro _ s' ⟨hkept, l, hs'⟩
    refine ⟨hkept, .of_eq ?_, by simp⟩
    rw [hs']
  · simp only [sat_pure]
    exact ⟨h.kept, .of_eq rfl, by simp⟩
  · simp only [sat_pure]
    exact ⟨h.kept, .of_eq rfl, by simp⟩
  · simp only [sat_bind]
    refine (h.sat_allocate hsize).mono fun off s' hres => ?_
    cases off with
    | none =>
      simp only [sat_pure]
      exact ⟨hres.1, .of_eq hres.2.1, by simp⟩
    | some off =>
      -- the entry is new to the session, so no other is replaced
      have hnew : s.writing.get? (k, session) = none := by
        simpa [Dict.contains] using hmine
      obtain ⟨hkept, hw⟩ := Reserved.kept hres hnew
      simp only [sat_bind, sat_get, sat_set, sat_pure]
      refine ⟨hkept, ⟨fun p e he => ?_, fun p e he => ?_⟩, fun e he => ?_⟩
      · have hne : p ≠ (k, session) := by
          rintro rfl
          rw [hnew] at he
          cases he
        rw [get?_set_of_ne _ hne, hw]
        exact he
      · rw [get?_set, hw] at he
        split_ifs at he with hp
        · exact Or.inr (by rw [hp])
        · exact Or.inl he
      · rw [get?_set_self]
        exact he

/-- **`allocateForWrite` keeps the invariant**, and the entries it returns are being
written by the session. -/
theorem Inv.sat_allocateForWrite (h : s.Inv) (keys : List String) {size : ℤ}
    (hsize : 0 < size) (session : String) (skip : Bool) :
    Sat (allocateForWrite keys size session skip) s fun out s' => Kept s s' ∧ Written s session s' ∧
      ∀ r ∈ out, ∀ e, r.2 = some e → e ∈ s'.writing.values := by
  refine (sat_mapM (I := fun s' => Kept s s' ∧ Written s session s')
    (R := fun r s' => ∀ e, r.2 = some e → ∃ p, s'.writing.get? p = some e) keys s
    (fun k _ s₁ ⟨hk, hw⟩ => ?_) ⟨h.kept, .of_eq rfl⟩).mono fun out s' hpost => ?_
  · refine (hk.inv.sat_allocateKey hsize session skip k).mono ?_
    rintro r s₂ ⟨hk', hw', hr⟩
    refine ⟨fun e he => ⟨_, hr e he⟩, ⟨hk.trans hk', hw.trans hw'⟩, fun c hc e he => ?_⟩
    obtain ⟨p, hp⟩ := hc e he
    exact ⟨p, hw'.grows p e hp⟩
  · obtain ⟨hout, ⟨hk, hw⟩, -⟩ := hpost
    exact ⟨hk, hw, fun r hr e he => mem_values_iff.mpr (hout r hr e he)⟩

/-- What `commit` and `abort` do to the entries being written: those of the session
under the given keys are gone. -/
def WrittenWithout (s : Store) (session : String) (keys : List String) (s' : Store) : Prop :=
  ∀ p, s'.writing.get? p = if p.2 = session ∧ p.1 ∈ keys then none else s.writing.get? p

theorem writtenWithout_nil (s : Store) (session : String) : WrittenWithout s session [] s := by
  intro p
  simp

theorem WrittenWithout.cons {s₁ : Store} {keys : List String}
    (h : s₁.writing = s.writing.erase (k, session)) (h' : WrittenWithout s₁ session keys s') :
    WrittenWithout s session (k :: keys) s' := by
  intro p
  rw [h' p, h, get?_erase]
  obtain ⟨a, b⟩ := p
  by_cases hb : b = session <;> by_cases ha : a = k <;> by_cases hmem : a ∈ keys <;>
    simp [hb, ha, hmem]

theorem live_perm_of_writing {p : String × String}
    (h : s.writing.get? p = some e) : s.live.Perm (e :: (s.readable ++ (s.writing.erase p).values)) :=
  ((values_perm_of_get? h).append_left _).trans perm_middle

theorem Inv.sat_abortKey (h : s.Inv) (session : String) (n : ℕ) (k : String) :
    Sat (abortKey session n k) s fun _ s' => Kept s s' ∧
      s'.writing = s.writing.erase (k, session) := by
  unfold abortKey
  simp only [sat_bind, sat_get]
  cases hget : s.writing.get? (k, session) with
  | none =>
    simp only [sat_pure]
    exact ⟨h.kept, (erase_of_get?_eq_none hget).symm⟩
  | some e =>
    simp only [sat_bind, sat_set, sat_pure]
    set s₁ : Store := { s with writing := s.writing.erase (k, session) } with hs₁
    have howns : s₁.Owns (e.core :: s₁.live.map core) :=
      (h.owns.perm ((live_perm_of_writing hget).map core)).congr rfl rfl rfl
    refine (sat_freeEntry howns).mono ?_
    rintro _ s' ⟨ho, a, hsame, hs'⟩
    subst hs'
    refine ⟨⟨⟨ho, h.lru, h.key, h.ready, fun k' t e' he' => ?_, h.retired⟩, .refl _, rfl, rfl, hsame⟩, rfl⟩
    simp only [hs₁, get?_erase] at he'
    split_ifs at he' with hk
    exact h.writing k' t e' he'

/-- The loop of `commit` and `abort`, for a round that takes one entry away from those
being written. -/
theorem sat_withoutKeys {f : ℕ → String → StoreM ℕ}
    (hf : ∀ (s : Store) (n : ℕ) (k : String), s.Inv → Sat (f n k) s fun _ s' =>
      Kept s s' ∧ s'.writing = s.writing.erase (k, session)) (keys : List String) (n : ℕ)
    (s : Store) (h : s.Inv) :
    Sat (keys.foldlM f n) s fun _ s' =>
      Kept s s' ∧ WrittenWithout s session keys s' := by
  induction keys generalizing n s with
  | nil =>
    rw [foldlM_nil, sat_pure]
    exact ⟨h.kept, writtenWithout_nil s session⟩
  | cons k keys ih =>
    rw [foldlM_cons, sat_bind]
    refine (hf s n k h).mono ?_
    rintro n' s₁ ⟨hk, hw⟩
    exact (ih n' s₁ hk.inv).mono fun _ s' ⟨hk', hw'⟩ => ⟨hk.trans hk', .cons hw hw'⟩

/-- **`abort` keeps the invariant** and removes exactly the session's entries. -/
theorem Inv.sat_abort (h : s.Inv) (keys : List String) (session : String) :
    Sat (abort keys session) s fun _ s' => Kept s s' ∧ WrittenWithout s session keys s' :=
  sat_withoutKeys (fun _ n k hs => hs.sat_abortKey session n k) keys 0 s h

/-- **`dropSession` keeps the invariant** and leaves the session writing nothing. -/
theorem Inv.sat_dropSession (h : s.Inv) (session : String) :
    Sat (dropSession session) s fun _ s' => Kept s s' ∧
      ∀ p, s'.writing.get? p = if p.2 = session then none else s.writing.get? p := by
  unfold dropSession
  refine (h.sat_abort (s.writtenBy session) session).mono ?_
  rintro _ s' ⟨hk, hw⟩
  refine ⟨hk, fun p => ?_⟩
  rw [hw p]
  by_cases hp : p.2 = session
  · rw [if_pos hp]
    cases hget : s.writing.get? p with
    | none => simp
    | some e =>
      -- an entry of the session is among those aborted
      have hmem : p.1 ∈ s.writtenBy session :=
        mem_map.mpr ⟨p, mem_filter.mpr ⟨mem_keys_iff.mpr ⟨e, hget⟩, by simpa using hp⟩, rfl⟩
      rw [if_pos ⟨hp, hmem⟩]
  · rw [if_neg hp, if_neg fun hcon => hp hcon.1]

/-! ### Committing -/

/-- The entry a commit publishes. -/
def published (e : Entry) : Entry := { e with state := .ready, owner := none }

/-- A commit under `k` replaced the version in the index by `e`: what of the store does
not depend on what became of the old version. -/
structure Published (s : Store) (k session : String) (e : Entry) (s' : Store) : Prop where
  get : s.writing.get? (k, session) = some e
  writing : s'.writing = s.writing.erase (k, session)
  index : s'.index = s.index.set k (published e)
  lru : ∀ k', k' ∈ s'.lru.keys ↔ k' = k ∨ k' ∈ s.lru.keys

section

variable (h : Published s k session e s')
include h

/-- The containers after a commit are well formed if the pages are accounted for. -/
theorem Published.inv (hs : s.Inv) (howns : s'.Owns (s'.live.map core))
    (hretired : ∀ e ∈ s'.retired, 0 < e.pins) : s'.Inv := by
  obtain ⟨hkey, -, -⟩ := hs.writing k session e h.get
  refine ⟨howns, fun k' => ?_, fun k' e' he' => ?_, fun k' e' he' => ?_, fun k' t e' he' => ?_, hretired⟩
  · rw [h.lru, h.index, mem_keys_set, hs.lru]
  · rw [h.index, get?_set] at he'
    split_ifs at he' with heq
    · cases he'
      exact hkey.trans heq.symm
    · exact hs.key k' e' he'
  · rw [h.index, get?_set] at he'
    split_ifs at he' with heq
    · cases he'
      rfl
    · exact hs.ready k' e' he'
  · rw [h.writing, get?_erase] at he'
    split_ifs at he' with heq
    exact hs.writing k' t e' he'

theorem Published.readable :
    s'.readable.Perm (published e :: ((s.index.erase k).values ++ s'.retired)) := by
  rw [Store.readable, h.index]
  exact (values_set_perm s.index k (published e)).append_right _

theorem Published.live :
    s'.live.Perm (published e :: ((s.index.erase k).values ++ s'.retired
      ++ (s.writing.erase (k, session)).values)) := by
  rw [Store.live, h.writing]
  exact h.readable.append_right _

/-- The pinned entries are the same if they are among the other versions. -/
theorem Published.pinned (hs : s.Inv) {l : List Entry}
    (hl : (pinnedOf ((s.index.erase k).values ++ s'.retired)).Perm l) : s'.pinnedEntries.Perm l := by
  obtain ⟨-, -, hpins⟩ := hs.writing k session e h.get
  have hp := pinnedOf_perm h.readable
  rw [pinnedOf_cons_unpinned (show (published e).pins = 0 from hpins)] at hp
  exact hp.trans hl

end

theorem mem_keys_set_erase (l : Dict String Unit) (k k' : String) :
    k' ∈ ((l.erase k).set k ()).keys ↔ k' = k ∨ k' ∈ l.keys := by
  rw [mem_keys_set, keys_erase, l.nodup_keys.mem_erase_iff]
  by_cases h : k' = k
  · simp [h]
  · simp [h]

theorem map_core_retire (old : Entry) (l l' : List Entry) :
    ((l ++ (l' ++ [{ old with retired := true }])).map core).Perm
      ((old :: (l ++ l')).map core) := by
  rw [← append_assoc]
  exact (perm_append_singleton _ (l ++ l')).map core

theorem pinnedOf_retire {old : Entry} (hpins : old.pins ≠ 0) (l l' : List Entry) :
    (pinnedOf (l ++ (l' ++ [{ old with retired := true }]))).Perm (pinnedOf (old :: (l ++ l'))) := by
  have hpos : 0 < old.pins := Nat.pos_of_ne_zero hpins
  rw [← append_assoc]
  refine (pinnedOf_perm (perm_append_singleton _ (l ++ l'))).trans ?_
  rw [pinnedOf_cons_pinned hpos, pinnedOf_cons_pinned (e := { old with retired := true }) hpos]

/-- What `commitKey` does, by what there was under the key: nothing, a pinned version
or an unpinned one. -/
theorem Inv.sat_commitKey (h : s.Inv) (session : String) (n : ℕ) (k : String) :
    Sat (commitKey session n k) s fun _ s' => Kept s s' ∧
      s'.writing = s.writing.erase (k, session) := by
  unfold commitKey
  simp only [sat_bind, sat_get]
  cases hget : s.writing.get? (k, session) with
  | none =>
    simp only [sat_pure]
    exact ⟨h.kept, (erase_of_get?_eq_none hget).symm⟩
  | some e =>
    have hlive := live_perm_of_writing hget
    simp only [sat_bind, sat_set, sat_modify, sat_pure, replaceOld, sat_get]
    cases hold : s.index.get? k with
    | none =>
      have herase : s.index.erase k = s.index := erase_of_get?_eq_none hold
      have hpub : Published s k session e { s with
          writing := s.writing.erase (k, session)
          index := s.index.set k (published e)
          lru := s.lru.set k () } :=
        ⟨hget, rfl, rfl, fun k' => mem_keys_set⟩
      have hcores := hpub.live.map core
      rw [herase] at hcores
      simp only [sat_pure]
      refine ⟨⟨hpub.inv h ?_ h.retired, hpub.pinned h ?_, rfl, rfl, .refl _⟩, trivial⟩
      · exact (h.owns.perm ((hlive.map core).trans hcores.symm)).congr rfl rfl rfl
      · rw [herase]
        exact .refl _
    | some old =>
      have hlru : s.lru.contains k = true :=
        contains_iff_mem_keys.mpr ((h.lru k).mpr (mem_keys_iff.mpr ⟨old, hold⟩))
      have hread := readable_perm_of_index hold
      have hlive' := hlive.trans ((hread.append_right _).cons e)
      simp only [hlru, if_true, sat_bind, sat_set]
      split_ifs with hpins
      · -- the old version is pinned: it is retired
        simp only [sat_modify]
        have hpub : Published s k session e { s with
            writing := s.writing.erase (k, session)
            index := s.index.set k (published e)
            lru := (s.lru.erase k).set k ()
            retired := s.retired ++ [{ old with retired := true }] } :=
          ⟨hget, rfl, rfl, mem_keys_set_erase s.lru k⟩
        refine ⟨⟨hpub.inv h ?_ ?_, hpub.pinned h ?_, rfl, rfl, .refl _⟩, trivial⟩
        · refine (h.owns.perm ((hlive'.map core).trans ?_)).congr rfl rfl rfl
          refine List.Perm.trans (.cons _ ?_) (hpub.live.map core).symm
          rw [map_append, @List.map_append _ _ _ _ (s.writing.erase (k, session)).values]
          exact (map_core_retire old _ _).symm.append_right _
        · intro r hr
          rcases mem_append.mp hr with hr | hr
          · exact h.retired r hr
          · rw [mem_singleton.mp hr]
            exact Nat.pos_of_ne_zero hpins
        · exact (pinnedOf_retire hpins _ _).trans (pinnedOf_perm hread.symm)
      · -- the old version is not pinned: its pages are given back
        have hpins : old.pins = 0 := not_not.mp hpins
        have howns : Owns { s with writing := s.writing.erase (k, session), lru := s.lru.erase k } _ :=
          (h.owns.perm ((hlive'.trans (.swap _ _ _)).map core)).congr rfl rfl rfl
        refine (sat_freeEntry howns).mono ?_
        rintro _ s' ⟨ho, a, hsame, hs'⟩
        subst hs'
        have hpub : Published s k session e { s with
            writing := s.writing.erase (k, session)
            index := s.index.set k (published e)
            lru := (s.lru.erase k).set k ()
            alloc := a
            freed := s.freed ++ [old.uid] } :=
          ⟨hget, rfl, rfl, mem_keys_set_erase s.lru k⟩
        refine ⟨⟨hpub.inv h ?_ h.retired, hpub.pinned h ?_, rfl, rfl, hsame⟩, rfl⟩
        · exact (ho.perm (hpub.live.map core).symm).congr rfl rfl rfl
        · have hp := pinnedOf_perm hread.symm
          rwa [pinnedOf_cons_unpinned hpins] at hp

/-- **`commit` keeps the invariant** and publishes exactly the session's entries. -/
theorem Inv.sat_commit (h : s.Inv) (keys : List String) (session : String) :
    Sat (commit keys session) s fun _ s' => Kept s s' ∧ WrittenWithout s session keys s' :=
  sat_withoutKeys (fun _ n k hs => hs.sat_commitKey session n k) keys 0 s h

end Store

end CacheFlow
