import CacheFlow.Shm.StoreSteps

/-!
# What the object store guarantees

If no request lists an item that is new to the store more than once, the store is safe: chunks do
not share bytes and are freed in the order in which they were allocated, and no address that a
reader has left is freed or overwritten. If a request lists a new item twice, the flag of its chunk
lacks two touches; one reader can skip its touches while the count is small and another one count
them, and the chunk is freed before it is read.

Whether a chunk that nobody uses any more passes the check depends on how the readers interleave.
Of `n` readers, `n` touches have to be skipped, and if a reader gets to a later request with the
item before the others have read it, more are. Then the count stays below what the writer waits
for, and neither this chunk nor those behind it are freed.

## Main results

* `Store.always_safe` — **if requests list new items at most once, the store is safe.**
* `Store.reclaimable_iff` — **when a chunk that nobody uses any more can be freed.**
-/

namespace CacheFlow.Shm

open List Steps
namespace Store

variable {K : Type} [DecidableEq K] {c : StoreConfig} {q : Store K}

/-! ### Safety -/

theorem Inv.safe (h : q.Inv c) (hc : c.Bounded) : q.Safe c where
  apart := by
    rw [h.books.segments_eq hc]
    exact h.books.row.pairwise
  inside := by
    rw [h.books.segments_eq hc]
    exact h.books.row.inside
  inOrder := h.books.ids
  owed := by
    intro r hr op hop
    obtain ⟨e, he, hlisting⟩ := h.owed r hr op hop
    exact ⟨e, he, (congrArg Listing.address hlisting).symm, (congrArg Listing.id hlisting).symm⟩
  intact := fun _ hr op hop => h.readObject_eq hc hr op hop
  returns := h.got

theorem always_inv (hc : c.Bounded) (m : Mem UInt8) {es : List (Event K)}
    (h : Each (step c) NewOnce (init m) es) :
    Always (step c) (Inv c) (init m) es :=
  h.always (Inv.init m) fun _ _ _ hinv honce hstep => hinv.step hc honce hstep

/-- **If requests list new items at most once, the store is safe**, however writer and readers
interleave. -/
theorem always_safe (hc : c.Bounded) (m : Mem UInt8) {es : List (Event K)}
    (h : Each (step c) NewOnce (init m) es) :
    Always (step c) (Safe c) (init m) es :=
  fun es₁ es₂ t hes hrun => (always_inv hc m h es₁ es₂ t hes hrun).safe hc

/-! ### A request that lists an item twice -/

/-- A store for two readers and one chunk. -/
def oneChunkStore : StoreConfig := ⟨20, 20, 2, by decide⟩

theorem bounded_oneChunkStore : oneChunkStore.Bounded := ⟨by decide, by decide⟩

/-- An item of four bytes. -/
def word (key : ℕ) : Pending ℕ := ⟨key, 4, fun _ => 0, fun _ _ => rfl⟩

/-- A reader touches an address. -/
def touchSteps (r : ℕ) : List (Event ℕ) := [.load r, .store r]

/-- A reader gets an object. -/
def getSteps (r : ℕ) : List (Event ℕ) := [.read r, .load r, .store r]

/-- The writer handles a request of items that are there or find room. -/
def requestSteps (items : List (Pending ℕ)) : List (Event ℕ) :=
  .begin items :: items.map (fun _ => .item) ++ [.dispatch]

/-- One reader is done with a request of twice the same item, and the other one has only touched it;
the next item takes the chunk, and the second reader reads. -/
def twiceRun : List (Event ℕ) :=
  requestSteps [word 0, word 0] ++ touchSteps 0 ++ touchSteps 0 ++ getSteps 0 ++ getSteps 0 ++
    touchSteps 1 ++ touchSteps 1 ++ [.begin [word 1], .item, .free, .free, .read 1]

/-- A request of one item, and all that the readers do for it. -/
def servedSteps (key : ℕ) : List (Event ℕ) :=
  requestSteps [word key] ++ touchSteps 0 ++ getSteps 0 ++ touchSteps 1 ++ getSteps 1

/-- The same with an item once, and all reads. -/
def onceRun : List (Event ℕ) := servedSteps 0 ++ [.begin [word 1], .item, .free, .free]

theorem each_newOnce_of_le_one {es : List (Event K)} {q : Store K}
    (h : ∀ items, .begin items ∈ es → items.length ≤ 1) : Each (step c) NewOnce q es := by
  rintro es₁ ev es₂ t rfl -
  cases ev with
  | begin items =>
    intro k _
    exact countP_le_length.trans (h items (by simp))
  | item | free | dispatch | load | store | read => trivial

theorem always_safe_onceRun :
    (run (step oneChunkStore) (init fun _ => 0) onceRun).isSome = true ∧
      Always (step oneChunkStore) (Safe oneChunkStore) (init fun _ => 0) onceRun := by
  refine ⟨by decide +kernel, always_safe bounded_oneChunkStore _ (each_newOnce_of_le_one ?_)⟩
  simp [onceRun, servedSteps, requestSteps, touchSteps, getSteps]

/-- **A chunk that is overwritten before it is read.** The second reader's read finds the next
object's id in the chunk, and raises. -/
theorem not_safe_twiceRun : ∃ t,
    run (step oneChunkStore) (init fun _ => 0) twiceRun = some t ∧ ¬ t.Safe oneChunkStore ∧
      (t.reader 1).got.map (fun p => (p.1.id, p.2.isSome)) = [(0, false)] ∧
      t.entries.map (fun e => (e.id, e.key)) = [(1, 1)] := by
  have hstate : (run (step oneChunkStore) (init fun _ => 0) twiceRun).map (fun t =>
      ((t.reader 1).got.map fun p => (p.1.id, p.2.isSome),
        t.entries.map fun e => (e.id, e.key))) = some ([(0, false)], [(1, 1)]) := by
    decide +kernel
  obtain ⟨t, hrun, hstate⟩ := Option.map_eq_some_iff.mp hstate
  obtain ⟨hgot, hentries⟩ := Prod.mk.injEq _ _ _ _ ▸ hstate
  refine ⟨t, hrun, fun hsafe => ?_, hgot, hentries⟩
  obtain ⟨p, hp, hnone⟩ := mem_map.mp (hgot ▸ mem_singleton_self (0, false))
  rw [hsafe.returns 1 (by decide) p hp] at hnone
  exact absurd (Prod.mk.inj hnone).2 (by simp)

/-! ### What can be freed -/

theorem Inv.isFree_iff (h : q.Inv c) {e : Entry K} (he : e ∈ q.entries) (hunused : q.Unused c e) :
    q.isFree c e = true ↔ q.skipped.count e.uid ≤ c.nReaders := by
  obtain ⟨hreaders, hlistings, hcoming⟩ := hunused
  rcases Nat.eq_zero_or_pos c.nReaders with hn | hn
  · have hfree : (q.writerFlag e.id * c.nReaders : ℤ) ≤
        readCount c.dataBufferSize q.mem e.address := by
      rw [hn, Nat.cast_zero, mul_zero]
      exact h.nonneg e he
    simp only [isFree, hfree, h.skipped hn, decide_true, count_nil, Nat.zero_le]
  · have haccount := (h.dues hn).account e he
    have hlisted : (q.writer.listings.countP fun x => x.uid = e.uid) = 0 :=
      countP_eq_zero.mpr fun x hx huid => hlistings x hx (of_decide_eq_true huid)
    have hpending : (q.writer.pending.countP fun x => x.key = e.key) = 0 :=
      countP_eq_zero.mpr fun x hx hkey => hcoming x hx (of_decide_eq_true hkey)
    have hcounts : left c.nReaders (Op.counts e.uid) q.reader = 0 :=
      left_eq_zero_iff.mpr fun r hr op hop huid => hreaders r hr op hop (Op.uid_of_counts huid)
    have htouches : left c.nReaders (Op.touches e.uid) q.reader = 0 :=
      left_eq_zero_iff.mpr fun r hr op hop huid => hreaders r hr op hop (Op.uid_of_touches huid)
    unfold AccountOf at haccount
    rw [hlisted, hpending, hcounts, htouches] at haccount
    rw [← haccount.isFree_iff]
    exact decide_eq_true_iff

/-- **A chunk that nobody uses any more can be freed iff no more touches than there are readers were
skipped**, whatever the run, if its requests list new items at most once. -/
theorem reclaimable_iff (hc : c.Bounded) (m : Mem UInt8) {es : List (Event K)}
    (h : Each (step c) NewOnce (init m) es) {t : Store K}
    (hrun : run (step c) (init m) es = some t) :
    t.Reclaimable c ↔ ∀ e ∈ t.entries, t.Unused c e → t.skipped.count e.uid ≤ c.nReaders := by
  have hinv : t.Inv c := always_inv hc m h es [] t (append_nil es).symm hrun
  refine forall₂_congr fun e he => forall_congr' fun hunused => ?_
  exact hinv.isFree_iff he hunused

/-! ### A reader that is ahead -/

/-- Two requests with one item; the first reader is done with both before the second one has read
the item. -/
def hastyRun : List (Event ℕ) :=
  requestSteps [word 0] ++ requestSteps [word 0] ++ touchSteps 0 ++ touchSteps 1 ++ getSteps 0 ++
    touchSteps 0 ++ getSteps 0 ++ getSteps 1 ++ touchSteps 1 ++ getSteps 1

/-- The readers are done with a request, and its item is listed once more. -/
def patientRun : List (Event ℕ) := servedSteps 0 ++ servedSteps 0

/-- Writer and readers have nothing left to do. -/
def done (t : Store ℕ) : Bool :=
  (t.reader 0).todo.isEmpty && (t.reader 1).todo.isEmpty && t.writer.listings.isEmpty &&
    t.writer.pending.isEmpty

theorem unused_of_done {t : Store ℕ} (h : t.done = true) (e : Entry ℕ) :
    t.Unused oneChunkStore e := by
  simp only [done, Bool.and_eq_true, List.isEmpty_iff] at h
  obtain ⟨⟨⟨h0, h1⟩, hlistings⟩, hpending⟩ := h
  refine ⟨fun r hr op hop => ?_, by simp [hlistings], by simp [hpending]⟩
  have hr : r = 0 ∨ r = 1 := by
    change r < 2 at hr
    omega
  rcases hr with rfl | rfl
  · simp [h0] at hop
  · simp [h1] at hop

theorem reclaimable_iff_patientRun : ∃ t,
    run (step oneChunkStore) (init fun _ => 0) patientRun = some t ∧
      (∀ e, t.Unused oneChunkStore e) ∧
      (t.entries.map fun e => (e.key, t.skipped.count e.uid)) = [(0, 2)] ∧
      t.Reclaimable oneChunkStore := by
  have hstate : (run (step oneChunkStore) (init fun _ => 0) patientRun).map (fun t =>
      (t.done, t.entries.map fun e => (e.key, t.skipped.count e.uid)))
      = some (true, [(0, 2)]) := by
    decide +kernel
  obtain ⟨t, hrun, hstate⟩ := Option.map_eq_some_iff.mp hstate
  obtain ⟨hdone, hcounts⟩ := Prod.mk.injEq _ _ _ _ ▸ hstate
  refine ⟨t, hrun, unused_of_done hdone, hcounts, ?_⟩
  refine (reclaimable_iff bounded_oneChunkStore _ (each_newOnce_of_le_one ?_) hrun).mpr ?_
  · simp [patientRun, servedSteps, requestSteps, touchSteps, getSteps]
  · intro e he _
    have hcount := mem_map_of_mem (f := fun e => (e.key, t.skipped.count e.uid)) he
    rw [hcounts, mem_singleton, Prod.mk.injEq] at hcount
    exact hcount.2.le

/-- **A chunk that is not used any more and cannot be freed.** Both readers are done with both
requests; the writer's flag is three and waits for six, but the count is five. -/
theorem not_reclaimable_hastyRun : ∃ t,
    run (step oneChunkStore) (init fun _ => 0) hastyRun = some t ∧
      ¬ t.Reclaimable oneChunkStore ∧ t.done = true ∧
      t.entries.map (fun e => (t.writerFlag e.id, readCount 20 t.mem e.address)) = [(3, 5)] := by
  have hstate : (run (step oneChunkStore) (init fun _ => 0) hastyRun).map (fun t =>
      (t.done, t.entries.map fun e => (t.writerFlag e.id, readCount 20 t.mem e.address)))
      = some (true, [(3, 5)]) := by
    decide +kernel
  obtain ⟨t, hrun, hstate⟩ := Option.map_eq_some_iff.mp hstate
  obtain ⟨hdone, hentries⟩ := Prod.mk.injEq _ _ _ _ ▸ hstate
  refine ⟨t, hrun, fun hreclaim => ?_, hdone, hentries⟩
  obtain ⟨e, he, hflag⟩ := mem_map.mp (hentries ▸ mem_singleton_self ((3 : ℕ), (5 : ℤ)))
  have hfree : (t.writerFlag e.id * 2 : ℤ) ≤ readCount 20 t.mem e.address :=
    of_decide_eq_true (hreclaim e he (unused_of_done hdone e))
  rw [(Prod.mk.inj hflag).1, (Prod.mk.inj hflag).2] at hfree
  omega

end Store

end CacheFlow.Shm
