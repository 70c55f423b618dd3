import CacheFlow.Shm.StoreInv

/-!
# The readers of the object store

The steps of the readers keep the invariant of the store: they load and store the counts of chunks
that are in the books, one at a time, and they read objects that are in the buffer. With the steps
of the writer from `CacheFlow.Shm.StoreInv`, that is all steps.

## Main results

* `Store.Inv.readObject_eq` — a reader gets what was put.
* `Store.Inv.step` — **steps keep the invariant.**
-/

namespace CacheFlow.Shm

open List Function
namespace Store

variable {K : Type}

theorem Books.not_op_of_ne {c : StoreConfig} {q : Store K} (h : q.Books c) {e e' : Entry K}
    (he : e ∈ q.entries) (he' : e' ∈ q.entries) (hne : e' ≠ e) {op : Op}
    (hlisting : op.listing = e.listing) :
    op.listing.uid ≠ e'.uid ∧ ¬ op.counts e'.uid = true ∧ ¬ op.touches e'.uid = true := by
  have huid : op.listing.uid ≠ e'.uid := by
    rw [hlisting]
    exact fun huid => hne (h.eq_of_uid he he' huid).symm
  exact ⟨huid, fun hop => huid (Op.uid_of_counts hop), fun hop => huid (Op.uid_of_touches hop)⟩

variable [DecidableEq K] {c : StoreConfig} {q q' : Store K} {r : ℕ} {op : Op} {todo : List Op}
  {x : StoreReader}

/-! ### A reader goes on -/

theorem Inv.ordered_advance (h : q.Inv c) (htodo : (q.reader r).todo = op :: todo)
    (hx : x.todo = todo) : ∀ i, Ordered (update q.reader r x i).todo := by
  refine (forall_update_iff q.reader fun _ y => Ordered y.todo).mpr
    ⟨?_, fun i _ => h.ordered i⟩
  have hordered := h.ordered r
  rw [htodo] at hordered
  rw [hx]
  exact hordered.2

theorem Inv.owed_advance (h : q.Inv c) (htodo : (q.reader r).todo = op :: todo)
    (hx : x.todo = todo) : ∀ i < c.nReaders, ∀ op ∈ (update q.reader r x i).todo,
      ∃ e ∈ q.entries, op.listing = e.listing := by
  intro i hi op' hop'
  rcases eq_or_ne i r with rfl | hne
  · rw [update_self, hx] at hop'
    exact h.owed i hi op' (htodo ▸ mem_cons_of_mem op hop')
  · rw [update_of_ne hne] at hop'
    exact h.owed i hi op' hop'

theorem Inv.loaded_store (h : q.Inv c) {count : ℤ} (hcount : (q.reader r).loaded = some count)
    (hx : x.loaded = none) : ∀ i, (update q.reader r x i).loaded = none := by
  refine (forall_update_iff q.reader fun _ y => y.loaded = none).mpr
    ⟨hx, fun i hi => ?_⟩
  cases hother : (q.reader i).loaded with
  | none => rfl
  | some count' =>
    have hlock := (h.loaded i count' hother).1
    rw [(h.loaded r count hcount).1] at hlock
    exact absurd (Option.some.inj hlock).symm hi

theorem Inv.got_store (h : q.Inv c) (hx : x.got = (q.reader r).got) :
    ∀ i < c.nReaders, ∀ p ∈ (update q.reader r x i).got, p.2 = some p.1.obj := by
  intro i hi
  rcases eq_or_ne i r with rfl | hne
  · rw [update_self, hx]
    exact h.got i hi
  · rw [update_of_ne hne]
    exact h.got i hi

/-- The accounts of a chunk before an operation, by what is left after it. -/
theorem Inv.account_advance (h : q.Inv c) (hn : 0 < c.nReaders) (hr : r < c.nReaders)
    (htodo : (q.reader r).todo = op :: todo) (hx : x.todo = todo) {e : Entry K}
    (he : e ∈ q.entries) :
    Account c.nReaders (q.writerFlag e.id) (q.sent.count e.uid)
      (q.writer.listings.countP fun x => x.uid = e.uid)
      (q.writer.pending.countP fun x => x.key = e.key) (q.skipped.count e.uid)
      (left c.nReaders (Op.counts e.uid) (update q.reader r x) +
        if op.counts e.uid then 1 else 0)
      (left c.nReaders (Op.touches e.uid) (update q.reader r x) +
        if op.touches e.uid then 1 else 0)
      (readCount c.dataBufferSize q.mem e.address) := by
  have haccount := (h.dues hn).account e he
  unfold AccountOf at haccount
  rwa [left_advance _ hr htodo hx, left_advance _ hr htodo hx] at haccount

/-! ### Loading and storing a count -/

theorem Inv.load (h : q.Inv c) {y : Listing} (hlock : q.lock = none) (hr : r < c.nReaders)
    (htodo : (q.reader r).todo = op :: todo) (hy : op.listing = y) (hop : ∀ z, op ≠ .read z) :
    Inv c { q.setReader r { q.reader r with
        loaded := some (readCount c.dataBufferSize q.mem y.address) } with lock := some r } := by
  have htodos : ∀ i, (update q.reader r { q.reader r with
      loaded := some (readCount c.dataBufferSize q.mem y.address) } i).todo
        = (q.reader i).todo := by
    intro i
    rcases eq_or_ne i r with rfl | hne
    · rw [update_self]
    · rw [update_of_ne hne]
  have hleft : ∀ p, left c.nReaders p (update q.reader r { q.reader r with
      loaded := some (readCount c.dataBufferSize q.mem y.address) })
        = left c.nReaders p q.reader :=
    fun p => Finset.sum_congr rfl fun i _ => congrArg _ (htodos i)
  refine ⟨{ h.books with }, h.nonneg, ?_, ?_, ?_, h.freeing, h.got_store rfl, h.skipped,
    fun hn => ?_⟩
  · exact fun i => (htodos i).symm ▸ h.ordered i
  · exact fun i hi => (htodos i).symm ▸ h.owed i hi
  · intro i count hcount
    rcases eq_or_ne i r with rfl | hne
    · refine ⟨rfl, hr, op, todo, (htodos i).trans htodo, hop, ?_⟩
      change (update q.reader i _ i).loaded = _ at hcount
      rw [update_self] at hcount
      rw [hy]
      exact (Option.some.inj hcount).symm
    · -- nobody else has the lock
      change (update q.reader r _ i).loaded = _ at hcount
      rw [update_of_ne hne] at hcount
      have hother := (h.loaded i count hcount).1
      rw [hlock] at hother
      cases hother
  · have hdues := h.dues hn
    refine { hdues with account := fun e he => ?_ }
    have haccount := hdues.account e he
    unfold AccountOf at haccount
    rw [← hleft, ← hleft] at haccount
    exact haccount

theorem Inv.entry_of_loaded (h : q.Inv c) {count : ℤ} (hcount : (q.reader r).loaded = some count)
    (htodo : (q.reader r).todo = op :: todo) : r < c.nReaders ∧ (∀ y, op ≠ .read y) ∧
      ∃ e ∈ q.entries, op.listing = e.listing ∧
        count = readCount c.dataBufferSize q.mem e.address := by
  obtain ⟨-, hr, op', todo', htodo', hop, hvalue⟩ := h.loaded r count hcount
  rw [htodo, cons_eq_cons] at htodo'
  obtain ⟨rfl, rfl⟩ := htodo'
  obtain ⟨e, he, hlisting⟩ := h.owed r hr op (htodo ▸ mem_cons_self)
  rw [hlisting] at hvalue
  exact ⟨hr, hop, e, he, hlisting, hvalue⟩

/-- **A reader raises a count.** -/
theorem Inv.raise (h : q.Inv c) {count : ℤ} (hcount : (q.reader r).loaded = some count)
    (htodo : (q.reader r).todo = op :: todo) (hraises : raises c op count = true)
    (hlt : count + 1 < 2 ^ 31) :
    Inv c { q.setReader r ((q.reader r).advance todo) with
      mem := writeCount c.dataBufferSize q.mem op.listing.address (count + 1)
      lock := none } := by
  obtain ⟨hr, hop, e, he, hlisting, hvalue⟩ := h.entry_of_loaded hcount htodo
  have haddress : op.listing.address = e.address := congrArg Listing.address hlisting
  have hnonneg := h.nonneg e he
  have hordered := h.ordered_advance htodo (x := (q.reader r).advance todo) rfl
  have hnew : readCount c.dataBufferSize (writeCount c.dataBufferSize q.mem e.address (count + 1))
      e.address = count + 1 := readCount_writeCount (by omega) hlt
  rw [haddress]
  refine ⟨{ h.books with chunk := h.books.holdsChunk_writeCount he _ }, fun e' he' => ?_, hordered,
    h.owed_advance htodo rfl, fun i count' hcount' => ?_, h.freeing, h.got_store rfl, h.skipped,
    fun hn => ?_⟩
  · by_cases hne : e' = e
    · subst hne
      exact (by omega : 0 ≤ count + 1).trans_eq hnew.symm
    · exact (h.nonneg e' he').trans_eq (h.books.readCount_of_ne he he' (Ne.symm hne) _).symm
  · exact absurd ((h.loaded_store hcount rfl i).symm.trans hcount') (by simp)
  · have hdues := h.dues hn
    refine { hdues with account := fun e' he' => ?_ }
    have haccount := h.account_advance hn hr htodo (x := (q.reader r).advance todo) rfl he'
    show Account _ _ _ _ _ _ (left _ _ (update q.reader r _))
      (left _ _ (update q.reader r _)) (readCount _ (writeCount _ q.mem _ _) _)
    by_cases hne : e' = e
    · subst hne
      have huid : op.listing.uid = e'.uid := congrArg Listing.uid hlisting
      rw [hnew]
      rw [← hvalue] at haccount
      cases op with
      | touch y =>
        have htouch : Op.touches e'.uid (.touch y) = true := decide_eq_true huid
        rw [if_neg (by simp [Op.counts]), if_pos htouch] at haccount
        exact haccount.touchCounted (of_decide_eq_true hraises)
      | read y => exact absurd rfl (hop y)
      | count y =>
        have hget : Op.counts e'.uid (.count y) = true := decide_eq_true huid
        rw [if_pos hget, if_neg (by simp [Op.touches])] at haccount
        exact haccount.get (left_touches_le hordered _)
    · -- the accounts of the other chunks stay as they are
      obtain ⟨-, hcounts, htouches⟩ := h.books.not_op_of_ne he he' hne hlisting
      rw [if_neg hcounts, if_neg htouches] at haccount
      rw [h.books.readCount_of_ne he he' (Ne.symm hne)]
      exact haccount

/-- **A reader skips a touch.** -/
theorem Inv.skip (h : q.Inv c) {count : ℤ} (hcount : (q.reader r).loaded = some count)
    (htodo : (q.reader r).todo = op :: todo) (hraises : raises c op count = false) :
    Inv c { q.setReader r ((q.reader r).advance todo) with
      lock := none
      skipped := q.skipped ++ [op.listing.uid] } := by
  obtain ⟨hr, hop, e, he, hlisting, hvalue⟩ := h.entry_of_loaded hcount htodo
  have huid : op.listing.uid = e.uid := congrArg Listing.uid hlisting
  refine ⟨{ h.books with }, h.nonneg, h.ordered_advance htodo rfl, h.owed_advance htodo rfl,
    fun i count' hcount' => ?_, h.freeing, h.got_store rfl, fun hn => ?_, fun hn => ?_⟩
  · exact absurd ((h.loaded_store hcount rfl i).symm.trans hcount') (by simp)
  · omega
  · have hdues := h.dues hn
    refine { hdues with account := fun e' he' => ?_, skipped_lt := fun u hu => ?_ }
    · have haccount := h.account_advance hn hr htodo (x := (q.reader r).advance todo) rfl he'
      show Account _ _ _ _ _ ((q.skipped ++ [op.listing.uid]).count _)
        (left _ _ (update q.reader r _)) (left _ _ (update q.reader r _))
        (readCount _ q.mem e'.address)
      rw [count_append]
      by_cases hne : e' = e
      · subst hne
        rw [← hvalue] at haccount ⊢
        rw [huid, count_singleton_self]
        cases op with
        | touch y =>
          have htouch : Op.touches e'.uid (.touch y) = true := decide_eq_true huid
          rw [if_neg (by simp [Op.counts]), if_pos htouch] at haccount
          exact haccount.touchSkipped (not_le.mp (of_decide_eq_false hraises))
        | read y => exact absurd rfl (hop y)
        -- a read always raises the count
        | count y => cases hraises
      · obtain ⟨hother, hcounts, htouches⟩ := h.books.not_op_of_ne he he' hne hlisting
        rw [if_neg hcounts, if_neg htouches] at haccount
        rw [count_singleton, if_neg (by simpa using hother), Nat.add_zero]
        exact haccount
    · rcases mem_append.mp hu with hu | hu
      · exact hdues.skipped_lt u hu
      · rw [mem_singleton.mp hu, huid]
        exact h.books.uid_lt e he

/-! ### Reading an object -/

/-- **A reader gets what was put.** -/
theorem Inv.readObject_eq (h : q.Inv c) (hc : c.Bounded) (hr : r < c.nReaders) (op : Op)
    (hop : op ∈ (q.reader r).todo) :
    readObject c.dataBufferSize q.mem op.listing = some op.listing.obj := by
  obtain ⟨e, he, hlisting⟩ := h.owed r hr op hop
  rw [hlisting]
  exact h.books.readObject_eq hc he

theorem Inv.read (h : q.Inv c) {y : Listing} (hr : r < c.nReaders)
    (htodo : (q.reader r).todo = .read y :: todo) :
    Inv c (q.setReader r { q.reader r with
      todo := todo, got := (q.reader r).got ++ [(y, some y.obj)] }) := by
  set x : StoreReader :=
    { q.reader r with todo := todo, got := (q.reader r).got ++ [(y, some y.obj)] } with hx
  refine ⟨{ h.books with }, h.nonneg, h.ordered_advance htodo rfl, h.owed_advance htodo rfl, ?_,
    h.freeing, fun i hi p hp => ?_, h.skipped, fun hn => ?_⟩
  · intro i count hcount
    change (update q.reader r x i).loaded = some count at hcount
    rcases eq_or_ne i r with rfl | hne
    · -- who reads has not loaded a count
      rw [update_self] at hcount
      exact absurd rfl ((h.entry_of_loaded hcount htodo).2.1 y)
    · rw [update_of_ne hne] at hcount
      have hloaded := h.loaded i count hcount
      rw [← update_of_ne hne x q.reader] at hloaded
      exact hloaded
  · change p ∈ (update q.reader r x i).got at hp
    rcases eq_or_ne i r with rfl | hne
    · rw [update_self] at hp
      rcases mem_append.mp hp with hp | hp
      · exact h.got i hi p hp
      · rw [mem_singleton.mp hp]
    · rw [update_of_ne hne] at hp
      exact h.got i hi p hp
  · have hdues := h.dues hn
    refine { hdues with account := fun e he => ?_ }
    have haccount := h.account_advance hn hr htodo (x := x) rfl he
    exact haccount

/-! ### All steps -/

/-- **Steps keep the invariant.** -/
theorem Inv.step (h : q.Inv c) (hc : c.Bounded) {ev : Event K} (honce : q.NewOnce ev)
    (hstep : step c q ev = some q') : q'.Inv c := by
  cases move_of_step hstep with
  | begin items hw => exact h.begin hc hw honce
  | cached hw he hkey => exact h.cached hc hw he hkey
  | @large x todo done hw hnew =>
    have hpending : q.writer.pending = x :: todo := by rw [hw]; rfl
    have hdone : q.writer.listings = done := by rw [hw]; rfl
    rw [← hdone]
    exact h.pass hpending hnew
  | @put x todo done hw hnew hsize hroom =>
    have hpending : q.writer.pending = x :: todo := by rw [hw]; rfl
    have hdone : q.writer.listings = done := by rw [hw]; rfl
    rw [← hdone]
    exact h.put hc hpending hnew hsize hroom
  | full hw hnew hsize => exact h.full hw hnew hsize
  | free hw he hid hfree => exact h.free hc hw he hid hfree
  | putAgain hw => exact h.putAgain hc hw
  | dispatch hw => exact h.dispatch hw
  | load hlock hr htodo hx hop => exact h.load hlock hr htodo hx hop
  | raise hcount htodo hraises hlt => exact h.raise hcount htodo hraises hlt
  | skip hcount htodo hraises => exact h.skip hcount htodo hraises
  | @read r y todo obj hr htodo hobj =>
    -- what is in the books is in the buffer
    have hput : readObject _ q.mem y = some y.obj :=
      h.readObject_eq hc hr (.read y) (htodo ▸ mem_cons_self)
    obtain rfl := Option.some.inj (hobj.symm.trans hput)
    exact h.read hr htodo
  | @giveUp r y todo hr htodo hobj =>
    have hput : readObject _ q.mem y = some y.obj :=
      h.readObject_eq hc hr (.read y) (htodo ▸ mem_cons_self)
    cases hobj.symm.trans hput

end Store

end CacheFlow.Shm
