import CacheFlow.Shm.Broadcast

/-!
# What the broadcast ring keeps

The objects are numbered in the order in which they are published; object `j` is in chunk
`j % maxChunks`. Only the objects of the last round can still be in their chunks, and two of them
are never in the same one. For each reader and each object of the last round, the reader's flag
says whether the reader has read the object, as long as the chunk is marked as written; and if the
reader has not, the chunk is marked and the object is in it.

## Main definitions

* `Queue.Inv` — the invariant.

## Main results

* `Queue.Inv.passed` — a writer that has found all flags raised may write.
* `Queue.Inv.step` — **every step keeps the invariant.**
-/

namespace CacheFlow.Shm

open Function

namespace Queue

variable {c : RingConfig}

/-! ### The invariant -/

theorem eq_of_mod_eq {n i j : ℕ} (hij : i ≤ j) (hlt : j < i + n) (h : i % n = j % n) : i = j := by
  have hdvd : n ∣ j - i := (Nat.modEq_iff_dvd' hij).mp h
  have hzero : j - i = 0 := Nat.eq_zero_of_dvd_of_lt hdvd (by omega)
  omega

section

variable (c : RingConfig) (q : Queue)

/-- A chunk of the last round, as far as a reader is concerned: the reader's flag is right, and if
the reader has not read the chunk yet, the object is there. -/
def Held (j r : ℕ) : Prop :=
  (q.written (j % c.maxChunks) = true →
    q.flag (j % c.maxChunks) r = decide (j < q.marked r)) ∧
  (q.marked r ≤ j → q.written (j % c.maxChunks) = true ∧
    ∀ p, q.sent[j]? = some p → HoldsObject c.maxChunkBytes (q.data (j % c.maxChunks)) p)

/-- All readers have read what was in the writer's chunk. -/
def Passed : Prop :=
  ∀ r < c.nReader, q.sent.length < q.marked r + c.maxChunks

/-- The writer's chunk is free: it is not marked, and all readers have read what was in it. -/
def Free : Prop := q.written q.writerIdx = false ∧ q.Passed c

/-- What the writer relies on. -/
def WriterOk : WriterPhase → Prop
  | .idle => True
  | .counting _ i count =>
    i ≤ c.nReader ∧ count ≤ i ∧ (count = i → ∀ r < i, q.flag q.writerIdx r = true)
  | .writing _ => q.Free c
  | .resetting p i => q.Free c ∧ (∀ r < i, q.flag q.writerIdx r = false) ∧
    HoldsObject c.maxChunkBytes (q.data q.writerIdx) p
  | .sending p => p.overflows c.maxChunkBytes = true ∧ q.sent.getLast? = some p

end

/-- What a reader relies on. -/
def ReaderOk (q : Queue) (r : ℕ) : ReaderPhase → Prop
  | .idle => True
  | .loaded readFlag => readFlag = false → q.flag (q.readerIdx r) r = false
  | .reading => q.marked r < q.sent.length
  | .read none => q.marked r < q.sent.length ∧ q.data (q.readerIdx r) 0 = 1
  | .read (some x) => q.marked r < q.sent.length ∧ q.data (q.readerIdx r) 0 ≠ 1 ∧
    loadInline q.data (q.readerIdx r) = some x
  | .returning _ => True
  | .receiving => True

/-- What holds at any time. -/
structure Inv (c : RingConfig) (q : Queue) : Prop where
  writerIdx : q.writerIdx = q.sent.length % c.maxChunks
  readerIdx : ∀ r < c.nReader, q.readerIdx r = q.marked r % c.maxChunks
  le : ∀ r < c.nReader, q.marked r ≤ q.sent.length
  room : ∀ r < c.nReader, q.sent.length ≤ q.marked r + c.maxChunks
  fresh : ∀ j, q.sent.length ≤ j → j < c.maxChunks → q.written j = false
  /-- The chunks of the last round. -/
  held : ∀ j < q.sent.length, q.sent.length ≤ j + c.maxChunks → ∀ r < c.nReader, q.Held c j r
  writer : q.WriterOk c q.writer
  reader : ∀ r < c.nReader, q.ReaderOk r (q.reader r)
  others : ∀ r, c.nReader ≤ r → q.reader r = .idle

theorem Inv.init (data : ℕ → Mem UInt8) : (init data).Inv c where
  writerIdx := (Nat.zero_mod _).symm
  readerIdx := fun _ _ => (Nat.zero_mod _).symm
  le := fun _ _ => le_refl 0
  room := fun _ _ => Nat.zero_le _
  fresh := fun _ _ _ => rfl
  held := fun _ hj => absurd hj (Nat.not_lt_zero _)
  writer := trivial
  reader := fun _ _ => trivial
  others := fun _ _ => rfl

variable {q : Queue} {r : ℕ}

theorem flag_lowerFlag (q : Queue) (i chunk r : ℕ) : (q.lowerFlag i).flag chunk r
    = if chunk = q.writerIdx ∧ r = i then false else q.flag chunk r := by
  simp only [lowerFlag, update_apply]
  split_ifs <;> simp_all

theorem flag_raiseFlag (q : Queue) (n r chunk r' : ℕ) : (q.raiseFlag n r).flag chunk r'
    = if chunk = q.readerIdx r ∧ r' = r then true else q.flag chunk r' := by
  simp only [raiseFlag, update_apply]
  split_ifs <;> simp_all

theorem marked_raiseFlag (q : Queue) (n r r' : ℕ) : (q.raiseFlag n r).marked r'
    = if r' = r then q.marked r + 1 else q.marked r' := update_apply _ _ _ _

theorem Inv.lt_nReader (h : q.Inv c) (hr : q.reader r ≠ .idle) : r < c.nReader := by
  by_contra hn
  exact hr (h.others r (Nat.not_lt.mp hn))

theorem Inv.writerOk (h : q.Inv c) {w : WriterPhase} (hw : q.writer = w) : q.WriterOk c w :=
  hw ▸ h.writer

theorem Inv.readerOk (h : q.Inv c) {x : ReaderPhase} (hr : q.reader r = x) (hx : x ≠ .idle) :
    r < c.nReader ∧ q.ReaderOk r x := by
  have hn : r < c.nReader := h.lt_nReader (hr ▸ hx)
  exact ⟨hn, hr ▸ h.reader r hn⟩

/-- Once all readers have read the writer's chunk, what they have not read is elsewhere. -/
theorem Inv.ne_writerIdx (h : q.Inv c) (hpassed : q.Passed c) {j : ℕ} (hr : r < c.nReader)
    (hj : j < q.sent.length) (hmarked : q.marked r ≤ j) : j % c.maxChunks ≠ q.writerIdx := by
  intro heq
  rw [h.writerIdx] at heq
  have hlt := hpassed r hr
  have := eq_of_mod_eq hj.le (by omega) heq
  omega

theorem Inv.readerIdx_ne (h : q.Inv c) (hpassed : q.Passed c) (hr : r < c.nReader)
    (hlt : q.marked r < q.sent.length) : q.readerIdx r ≠ q.writerIdx := by
  rw [h.readerIdx r hr]
  exact h.ne_writerIdx hpassed hr hlt le_rfl

/-- **If the writer's chunk is not marked, or all its flags are up, all readers have read it.** -/
theorem Inv.passed (h : q.Inv c)
    (hflags : q.written q.writerIdx = true → ∀ r < c.nReader, q.flag q.writerIdx r = true) :
    q.Passed c := by
  intro r hr
  by_contra hlt
  -- then the reader is a round behind, and what it has to read is in the writer's chunk
  have hpos := c.pos
  have hlen : q.sent.length = q.marked r + c.maxChunks := by
    have := h.room r hr
    omega
  have hchunk : q.marked r % c.maxChunks = q.writerIdx := by
    rw [h.writerIdx, hlen, Nat.add_mod_right]
  have hheld := h.held (q.marked r) (by omega) hlen.le r hr
  obtain ⟨hwritten, -⟩ := hheld.2 le_rfl
  have hflag := hheld.1 hwritten
  rw [hchunk] at hwritten hflag
  rw [hflags hwritten r hr] at hflag
  simp at hflag

/-- **A reader whose chunk is marked and whose flag is down has an object to read.** -/
theorem Inv.marked_lt (h : q.Inv c) (hr : r < c.nReader)
    (hwritten : q.written (q.readerIdx r) = true) (hflag : q.flag (q.readerIdx r) r = false) :
    q.marked r < q.sent.length := by
  by_contra hge
  have heq : q.marked r = q.sent.length := by
    have := h.le r hr
    omega
  rw [h.readerIdx r hr, heq] at hwritten hflag
  by_cases hfirst : q.sent.length < c.maxChunks
  · rw [Nat.mod_eq_of_lt hfirst, h.fresh _ le_rfl hfirst] at hwritten
    simp at hwritten
  · -- its flag still says that it has read the chunk in the last round
    obtain ⟨j, hj⟩ := Nat.exists_eq_add_of_le' (Nat.not_lt.mp hfirst)
    have hpos := c.pos
    have hheld := h.held j (by omega) hj.le r hr
    rw [hj, Nat.add_mod_right] at hwritten hflag
    rw [hheld.1 hwritten, decide_eq_false_iff_not] at hflag
    omega

theorem Inv.holdsObject (h : q.Inv c) (hr : r < c.nReader)
    (hlt : q.marked r < q.sent.length) {p : Pickled} (hp : q.sent[q.marked r]? = some p) :
    HoldsObject c.maxChunkBytes (q.data (q.readerIdx r)) p := by
  rw [h.readerIdx r hr]
  exact ((h.held _ hlt (h.room r hr) r hr).2 le_rfl).2 p hp

/-! ### What the steps keep -/

/-- A reader relies on its own flag, its chunk and the number of objects. -/
theorem ReaderOk.of_le {q' : Queue} {x : ReaderPhase} (h : q.ReaderOk r x)
    (hidx : q'.readerIdx r = q.readerIdx r) (hmarked : q'.marked r = q.marked r)
    (hlen : q.sent.length ≤ q'.sent.length)
    (hflag : q.flag (q.readerIdx r) r = false → q'.flag (q.readerIdx r) r = false)
    (hdata : q.marked r < q.sent.length → q'.data (q.readerIdx r) = q.data (q.readerIdx r)) :
    q'.ReaderOk r x := by
  cases x with
  | idle => trivial
  | loaded readFlag =>
    intro hread
    rw [hidx]
    exact hflag (h hread)
  | reading =>
    show q'.marked r < _
    rw [hmarked]
    exact h.trans_le hlen
  | read x =>
    cases x with
    | none =>
      show q'.marked r < _ ∧ q'.data _ 0 = 1
      rw [hmarked, hidx, hdata h.1]
      exact ⟨h.1.trans_le hlen, h.2⟩
    | some x =>
      show q'.marked r < _ ∧ q'.data _ 0 ≠ 1 ∧ _
      rw [hmarked, hidx, hdata h.1]
      exact ⟨h.1.trans_le hlen, h.2.1, (loadInline_congr (hdata h.1)).trans h.2.2⟩
  | returning x => trivial
  | receiving => trivial

section

variable (h : q.Inv c)
include h

theorem Inv.setWriter {w : WriterPhase} (hw : q.WriterOk c w) : (q.setWriter w).Inv c :=
  { h with writer := hw }

theorem Inv.setReader (hr : r < c.nReader) {x : ReaderPhase}
    (hx : q.ReaderOk r x) : (q.setReader r x).Inv c := { h with
  reader := by
    intro r' hr'
    show ReaderOk _ r' (update q.reader r x r')
    rcases eq_or_ne r' r with rfl | hne
    · rw [update_self]
      exact hx
    · rw [update_of_ne hne]
      exact h.reader r' hr'
  others := by
    intro r' hr'
    show update q.reader r x r' = .idle
    rw [update_of_ne (by omega)]
    exact h.others r' hr' }

theorem Inv.give (hr : r < c.nReader) (x : Obj) : (q.give r x).Inv c :=
  { h.setReader (x := .idle) hr trivial with }

/-- What was in the writer's chunk does not matter to anyone. -/
theorem Inv.fillChunk (hfree : q.Free c) {m : Mem UInt8} {w : WriterPhase}
    (hw : (q.fillChunk m).WriterOk c w) : ((q.fillChunk m).setWriter w).Inv c := { h with
  held := by
    intro j hj hreach r hr
    obtain ⟨hflag, hunread⟩ := h.held j hj hreach r hr
    refine ⟨hflag, fun hmarked => ⟨(hunread hmarked).1, fun p hp => ?_⟩⟩
    show HoldsObject _ (update q.data q.writerIdx m _) p
    rw [update_of_ne (h.ne_writerIdx hfree.2 hr hj hmarked)]
    exact (hunread hmarked).2 p hp
  writer := hw
  reader := by
    intro r hr
    refine (h.reader r hr).of_le rfl rfl le_rfl id fun hlt => ?_
    exact update_of_ne (h.readerIdx_ne hfree.2 hr hlt) _ _ }

/-- The mark of the writer's chunk is taken away once all have read the chunk. -/
theorem Inv.unmark (hpassed : q.Passed c) (p : Pickled) :
    (q.unmark.setWriter (.writing p)).Inv c := { h with
  fresh := by
    intro j hj hlt
    show update q.written q.writerIdx false j = false
    rcases eq_or_ne j q.writerIdx with rfl | hne
    · rw [update_self]
    · rw [update_of_ne hne]
      exact h.fresh j hj hlt
  held := by
    intro j hj hreach r hr
    obtain ⟨hflag, hunread⟩ := h.held j hj hreach r hr
    constructor
    · intro hwritten
      change update q.written q.writerIdx false _ = true at hwritten
      rcases eq_or_ne (j % c.maxChunks) q.writerIdx with heq | hne
      · rw [heq, update_self] at hwritten
        simp at hwritten
      · rw [update_of_ne hne] at hwritten
        exact hflag hwritten
    · intro hmarked
      refine ⟨?_, (hunread hmarked).2⟩
      show update q.written q.writerIdx false _ = true
      rw [update_of_ne (h.ne_writerIdx hpassed hr hj hmarked)]
      exact (hunread hmarked).1
  writer := ⟨update_self _ _ _, hpassed⟩ }

/-- A flag of a chunk that is not marked is taken back. -/
theorem Inv.lowerFlag {p : Pickled} {i : ℕ} (hw : q.writer = .resetting p i) :
    ((q.lowerFlag i).setWriter (.resetting p (i + 1))).Inv c := by
  obtain ⟨hfree, hflags, hobj⟩ := h.writerOk hw
  exact { h with
    held := by
      intro j hj hreach r hr
      obtain ⟨hflag, hunread⟩ := h.held j hj hreach r hr
      refine ⟨fun hwritten => ?_, hunread⟩
      -- so it is not a flag of an object that is still to be read
      have hne : j % c.maxChunks ≠ q.writerIdx := by
        intro heq
        change q.written (j % c.maxChunks) = true at hwritten
        rw [heq, hfree.1] at hwritten
        simp at hwritten
      show (q.lowerFlag i).flag _ r = _
      rw [flag_lowerFlag, if_neg fun hchunk => hne hchunk.1]
      exact hflag hwritten
    writer := by
      refine ⟨hfree, fun r hr => ?_, hobj⟩
      show (q.lowerFlag i).flag _ r = _
      rw [flag_lowerFlag]
      split_ifs with hcase
      · rfl
      · have hne : r ≠ i := fun heq => hcase ⟨rfl, heq⟩
        exact hflags r (by omega)
    reader := by
      intro r hr
      refine (h.reader r hr).of_le rfl rfl le_rfl (fun hdown => ?_) fun _ => rfl
      show (q.lowerFlag i).flag _ r = _
      rw [flag_lowerFlag, hdown, ite_self] }

/-- The writer's chunk is marked, with the new object in it and all flags down. -/
theorem Inv.publish {p : Pickled} {i : ℕ} (hw : q.writer = .resetting p i)
    (hi : c.nReader ≤ i) :
    ((q.publish c.maxChunks p).setWriter (afterPublish c p)).Inv c := by
  obtain ⟨hfree, hflags, hobj⟩ := h.writerOk hw
  have hlen : (q.sent ++ [p]).length = q.sent.length + 1 := List.length_append
  exact { h with
    writerIdx := by
      show (q.writerIdx + 1) % c.maxChunks = (q.sent ++ [p]).length % c.maxChunks
      rw [hlen, h.writerIdx, Nat.mod_add_mod]
    le := by
      intro r hr
      show q.marked r ≤ (q.sent ++ [p]).length
      have := h.le r hr
      omega
    room := by
      intro r hr
      show (q.sent ++ [p]).length ≤ q.marked r + c.maxChunks
      have := hfree.2 r hr
      omega
    fresh := by
      intro j hj hlt
      change (q.sent ++ [p]).length ≤ j at hj
      show update q.written q.writerIdx true j = false
      rw [h.writerIdx, Nat.mod_eq_of_lt (by omega), update_of_ne (by omega)]
      exact h.fresh j (by omega) hlt
    held := by
      intro j hj hreach r hr
      change (q.sent ++ [p]).length ≤ j + c.maxChunks at hreach
      show (update q.written q.writerIdx true (j % c.maxChunks) = true → _) ∧
        (_ → update q.written q.writerIdx true (j % c.maxChunks) = true ∧
          ∀ p', (q.sent ++ [p])[j]? = some p' → _)
      rcases Nat.lt_succ_iff_lt_or_eq.mp (hlen ▸ hj) with hlt | rfl
      · -- an older object is in another chunk
        have hne : j % c.maxChunks ≠ q.writerIdx := by
          intro heq
          rw [h.writerIdx] at heq
          have := eq_of_mod_eq hlt.le (by omega) heq
          omega
        rw [update_of_ne hne, List.getElem?_append_left hlt]
        exact h.held j hlt (by omega) r hr
      · rw [← h.writerIdx, update_self, List.getElem?_concat_length]
        refine ⟨fun _ => ?_, fun _ => ⟨rfl, fun p' hp' => ?_⟩⟩
        · have hdown : ¬ q.sent.length < q.marked r := by
            have := h.le r hr
            omega
          exact (hflags r (by omega)).trans (decide_eq_false hdown).symm
        · obtain rfl := Option.some_inj.mp hp'
          exact hobj
    writer := by
      show WriterOk c _ (afterPublish c p)
      unfold afterPublish
      split_ifs with hover
      · exact ⟨hover, List.getLast?_concat⟩
      · trivial
    reader := by
      intro r hr
      refine (h.reader r hr).of_le rfl rfl ?_ id fun _ => rfl
      show q.sent.length ≤ (q.sent ++ [p]).length
      omega }

theorem Inv.held_raiseFlag (hlt : q.marked r < q.sent.length) {j r' : ℕ} (hj : j < q.sent.length)
    (hreach : q.sent.length ≤ j + c.maxChunks) (hr' : r' < c.nReader) :
    (q.raiseFlag c.maxChunks r).Held c j r' := by
  obtain ⟨hflag, hunread⟩ := h.held j hj hreach r' hr'
  rw [Held, flag_raiseFlag, marked_raiseFlag]
  rcases eq_or_ne r' r with rfl | hne
  · rw [if_pos rfl]
    refine ⟨fun hwritten => ?_, fun hmarked => hunread (by omega)⟩
    have hroom := h.room r' hr'
    rw [h.readerIdx r' hr']
    split_ifs with hchunk
    · -- the chunk of the object it has read, as the others of the round are elsewhere
      have heq : j = q.marked r' := by
        rcases Nat.le_total j (q.marked r') with hle | hle
        · exact eq_of_mod_eq hle (by omega) hchunk.1
        · exact (eq_of_mod_eq hle (by omega) hchunk.1.symm).symm
      exact (decide_eq_true (by omega)).symm
    · have hne : j ≠ q.marked r' := fun heq => hchunk ⟨heq ▸ rfl, rfl⟩
      exact (hflag hwritten).trans (decide_eq_decide.mpr (by omega))
  · rw [if_neg fun hcase => hne hcase.2, if_neg hne]
    exact ⟨hflag, hunread⟩

theorem Inv.writerOk_raiseFlag (hr : r < c.nReader) (hlt : q.marked r < q.sent.length) :
    (q.raiseFlag c.maxChunks r).WriterOk c q.writer := by
  have hok := h.writer
  have hpassed : q.Passed c → (q.raiseFlag c.maxChunks r).Passed c := by
    intro hpassed r' hr'
    have hlt' := hpassed r' hr'
    have hself := hpassed r hr
    show q.sent.length < (q.raiseFlag c.maxChunks r).marked r' + c.maxChunks
    rw [marked_raiseFlag]
    split_ifs <;> omega
  cases hphase : q.writer with
  | idle => trivial
  | counting p i count =>
    -- the flags it has added up stay up
    rw [hphase] at hok
    refine ⟨hok.1, hok.2.1, fun hcount r' hr' => ?_⟩
    rw [flag_raiseFlag]
    split_ifs
    · rfl
    · exact hok.2.2 hcount r' hr'
  | writing p =>
    rw [hphase] at hok
    exact ⟨hok.1, hpassed hok.2⟩
  | resetting p i =>
    -- the reader has read a chunk, so it was not the writer's
    rw [hphase] at hok
    refine ⟨⟨hok.1.1, hpassed hok.1.2⟩, fun r' hr' => ?_, hok.2.2⟩
    have hne := h.readerIdx_ne hok.1.2 hr hlt
    rw [flag_raiseFlag, if_neg fun hcase => hne hcase.1.symm]
    exact hok.2.1 r' hr'
  | sending p =>
    rw [hphase] at hok
    exact hok

/-- A reader's flag is raised after the reader has read the chunk. -/
theorem Inv.raiseFlag (hr : r < c.nReader) (hlt : q.marked r < q.sent.length) (x : Option Obj) :
    ((q.raiseFlag c.maxChunks r).setReader r (afterChunk x)).Inv c := { h with
  readerIdx := by
    intro r' hr'
    show update q.readerIdx r _ r' = update q.marked r _ r' % _
    rcases eq_or_ne r' r with rfl | hne
    · rw [update_self, update_self, h.readerIdx r' hr', Nat.mod_add_mod]
    · rw [update_of_ne hne, update_of_ne hne]
      exact h.readerIdx r' hr'
  le := by
    intro r' hr'
    have hle := h.le r' hr'
    show (q.raiseFlag c.maxChunks r).marked r' ≤ q.sent.length
    rw [marked_raiseFlag]
    split_ifs <;> omega
  room := by
    intro r' hr'
    have hroom := h.room r' hr'
    have hself := h.room r hr
    show q.sent.length ≤ (q.raiseFlag c.maxChunks r).marked r' + c.maxChunks
    rw [marked_raiseFlag]
    split_ifs <;> omega
  held := fun _ hj hreach _ hr' => h.held_raiseFlag hlt hj hreach hr'
  writer := h.writerOk_raiseFlag hr hlt
  reader := by
    intro r' hr'
    show ReaderOk _ r' (update q.reader r _ r')
    rcases eq_or_ne r' r with rfl | hne
    · rw [update_self]
      cases x <;> trivial
    · -- the flag is not that of another reader
      rw [update_of_ne hne]
      refine (h.reader r' hr').of_le (update_of_ne hne _ _) (update_of_ne hne _ _) le_rfl
        (fun hdown => ?_) fun _ => rfl
      show (q.raiseFlag c.maxChunks r).flag _ r' = false
      rw [flag_raiseFlag, if_neg fun hcase => hne hcase.2]
      exact hdown
  others := by
    intro r' hr'
    show update q.reader r _ r' = .idle
    rw [update_of_ne (by omega)]
    exact h.others r' hr' }

end

theorem readerOk_lookAt (hlt : q.marked r < q.sent.length) :
    q.ReaderOk r (q.lookAt (q.readerIdx r)) := by
  unfold lookAt
  split_ifs with hfirst
  · exact ⟨hlt, hfirst⟩
  · split
    · trivial
    · exact ⟨hlt, hfirst, ‹_›⟩

/-- A writer that starts to count relies on nothing. -/
theorem writerOk_start {p : Pickled} : q.WriterOk c (.counting p 0 0) :=
  ⟨Nat.zero_le _, le_rfl, fun _ _ hr => absurd hr (Nat.not_lt_zero _)⟩

/-- **Every step keeps the invariant**, those included in which a reader times out. -/
theorem Inv.step {q' : Queue} {e : Event} (h : q.Inv c) (hstep : step c q e = some q') :
    q'.Inv c := by
  cases move_of_step hstep with
  | enqueue hw =>
    refine h.setWriter ?_
    split_ifs
    · exact writerOk_start
    · trivial
  | @countFlag p i count hw hi =>
    obtain ⟨-, hcount, hflags⟩ := h.writerOk hw
    have hle := Bool.toNat_le (q.flag q.writerIdx i)
    refine h.setWriter ⟨hi, by omega, fun heq r hr => ?_⟩
    -- the sum is full: it was full before, and the new flag is up
    rcases Nat.lt_succ_iff_lt_or_eq.mp hr with hlt | rfl
    · exact hflags (by omega) r hlt
    · exact Bool.toNat_eq_one.mp (by omega)
  | wait hw =>
    refine h.setWriter ?_
    unfold afterWait
    split_ifs
    · trivial
    · exact writerOk_start
  | unmark hw hi hfree =>
    obtain ⟨hle, hcount, hflags⟩ := h.writerOk hw
    refine h.unmark (h.passed fun hwritten r hr => ?_) _
    have hfull := hfree hwritten
    exact hflags (by omega) r (by omega)
  | writePart hw =>
    have hfree := h.writerOk hw
    exact h.fillChunk hfree (w := q.writer) (by rw [hw]; exact hfree)
  | write hw hobj =>
    have hfree := h.writerOk hw
    refine h.fillChunk hfree ⟨hfree, fun r hr => absurd hr (Nat.not_lt_zero r), ?_⟩
    show HoldsObject _ (update q.data q.writerIdx _ q.writerIdx) _
    rw [update_self]
    exact hobj
  | writeRaise hw => exact h.fillChunk (h.writerOk hw) trivial
  | resetFlag hw hi => exact h.lowerFlag hw
  | publish hw hi => exact h.publish hw hi
  | send hw => exact { h with writer := trivial }
  | loadFlag hr hn => exact h.setReader hn fun hdown => hdown
  | testFlags hr =>
    obtain ⟨hn, hok⟩ := h.readerOk hr nofun
    refine h.setReader hn ?_
    split_ifs with hwait
    · trivial
    · push Not at hwait
      exact h.marked_lt hn (by simpa using hwait.1) (hok (by simpa using hwait.2))
  | readChunk hr =>
    obtain ⟨hn, hok⟩ := h.readerOk hr nofun
    exact h.setReader hn (readerOk_lookAt hok)
  | @markRead r x hr =>
    obtain ⟨hn, hok⟩ := h.readerOk hr nofun
    refine h.raiseFlag hn ?_ x
    cases x with
    | none => exact hok.1
    | some x => exact hok.1
  | ret hr => exact h.give (h.readerOk hr nofun).1 _
  | receive hr hs =>
    exact Inv.give (q := q.takeMessage _) { h with } (h.readerOk hr nofun).1 _
  | recvTimeout hr hs => exact h.setReader (h.readerOk hr nofun).1 trivial

end Queue

end CacheFlow.Shm
