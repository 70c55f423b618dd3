import CacheFlow.Shm.StoreAccount

/-!
# The invariant of the object store

Books, readers and accounts through all steps of writer and readers. The writer frees a chunk only
if its accounts say that nobody uses it any more; so every address that a reader has left is in the
books, what a reader reads is the object that was put, and what it stores is the count of a chunk.

The requests are restricted in one way: an item that is not in the store is listed once. Otherwise
the flag of a new chunk lacks more than one touch, and may be reached too early.
-/

namespace CacheFlow.Shm

open List Function StoreWriter
namespace Store

variable {K : Type} [DecidableEq K]

/-! ### What a step does -/

/-- What a step does. -/
inductive Move (c : StoreConfig) (q : Store K) : Event K → Store K → Prop where
  | begin (items : List (Pending K)) (hw : q.writer = .idle) :
      Move c q (.begin items)
        { q with
          writerFlag := (items.map Pending.key).foldl (touch q.entries) q.writerFlag
          writer := .working items [] }
  | cached {x : Pending K} {todo : List (Pending K)} {done : List Listing} {e : Entry K}
      (hw : q.writer = .working (x :: todo) done) (he : e ∈ q.entries) (hkey : e.key = x.key) :
      Move c q .item
        { q with
          writerFlag := update q.writerFlag e.id (q.writerFlag e.id + 1)
          writer := .working todo (done ++ [e.listing]) }
  | large {x : Pending K} {todo : List (Pending K)} {done : List Listing}
      (hw : q.writer = .working (x :: todo) done) (hnew : ∀ e ∈ q.entries, e.key ≠ x.key) :
      Move c q .item { q with writer := .working todo done }
  | put {x : Pending K} {todo : List (Pending K)} {done : List Listing}
      (hw : q.writer = .working (x :: todo) done) (hnew : ∀ e ∈ q.entries, e.key ≠ x.key)
      (hsize : x.obj.len + 4 ≤ c.maxObjectSize)
      (hroom : q.ring.hasRoom c.dataBufferSize (x.obj.len + 12) = true) :
      Move c q .item (q.put c q.ring x todo done)
  | full {x : Pending K} {todo : List (Pending K)} {done : List Listing}
      (hw : q.writer = .working (x :: todo) done) (hnew : ∀ e ∈ q.entries, e.key ≠ x.key)
      (hsize : x.obj.len + 4 ≤ c.maxObjectSize) :
      Move c q .item { q with writer := .freeing x todo done 0 }
  | free {x : Pending K} {todo : List (Pending K)} {done : List Listing} {freedBytes : ℕ}
      {e : Entry K} (hw : q.writer = .freeing x todo done freedBytes) (he : e ∈ q.entries)
      (hid : e.id = q.ring.monotonicIdStart) (hfree : q.isFree c e = true) :
      Move c q .free (q.freeEntry c e x todo done freedBytes)
  | putAgain {x : Pending K} {todo : List (Pending K)} {done : List Listing} {freedBytes : ℕ}
      (hw : q.writer = .freeing x todo done freedBytes) :
      Move c q .free (q.putAgain c x todo done)
  | dispatch {done : List Listing} (hw : q.writer = .working [] done) :
      Move c q .dispatch
        { q with
          reader := fun r => { q.reader r with todo := (q.reader r).todo ++ requestOps done }
          sent := q.sent ++ done.map Listing.uid
          writer := .idle }
  | load {r : ℕ} {op : Op} {x : Listing} {todo : List Op} (hlock : q.lock = none)
      (hr : r < c.nReaders) (htodo : (q.reader r).todo = op :: todo) (hx : op.listing = x)
      (hop : ∀ y, op ≠ .read y) :
      Move c q (.load r)
        { q.setReader r { q.reader r with
            loaded := some (readCount c.dataBufferSize q.mem x.address) } with
          lock := some r }
  | raise {r : ℕ} {op : Op} {todo : List Op} {count : ℤ} (hcount : (q.reader r).loaded = some count)
      (htodo : (q.reader r).todo = op :: todo) (hraises : raises c op count = true)
      (hlt : count + 1 < 2 ^ 31) :
      Move c q (.store r)
        { q.setReader r ((q.reader r).advance todo) with
          mem := writeCount c.dataBufferSize q.mem op.listing.address (count + 1)
          lock := none }
  | skip {r : ℕ} {op : Op} {todo : List Op} {count : ℤ} (hcount : (q.reader r).loaded = some count)
      (htodo : (q.reader r).todo = op :: todo) (hraises : raises c op count = false) :
      Move c q (.store r)
        { q.setReader r ((q.reader r).advance todo) with
          lock := none
          skipped := q.skipped ++ [op.listing.uid] }
  | read {r : ℕ} {x : Listing} {todo : List Op} {obj : Buffer} (hr : r < c.nReaders)
      (htodo : (q.reader r).todo = .read x :: todo)
      (hobj : readObject c.dataBufferSize q.mem x = some obj) :
      Move c q (.read r)
        (q.setReader r { q.reader r with
          todo := todo, got := (q.reader r).got ++ [(x, some obj)] })
  | giveUp {r : ℕ} {x : Listing} {todo : List Op} (hr : r < c.nReaders)
      (htodo : (q.reader r).todo = .read x :: todo)
      (hobj : readObject c.dataBufferSize q.mem x = none) :
      Move c q (.read r)
        (q.setReader r { q.reader r with todo := [], got := (q.reader r).got ++ [(x, none)] })

variable {c : StoreConfig} {q q' : Store K}

variable {x : Pending K} {todo : List (Pending K)} {done : List Listing}

theorem move_takeItem
    (hw : q.writer = .working (x :: todo) done) : Move c q .item (q.takeItem c x todo done) := by
  unfold takeItem
  split
  · next e he =>
    exact .cached hw (mem_of_find?_eq_some he) (by simpa using List.find?_some he)
  · next hnone =>
    have hnew : ∀ e ∈ q.entries, e.key ≠ x.key := by simpa using hnone
    split_ifs with hlarge hroom
    · exact .large hw hnew
    · exact .put hw hnew (by omega) hroom
    · exact .full hw hnew (by omega)

/-- **Every step is a move.** -/
theorem move_of_step {ev : Event K} (h : step c q ev = some q') : Move c q ev q' := by
  -- no step if the writer is in another phase, or the reader is not at such an operation
  cases ev with (simp only [step] at h; split at h <;> try cases h)
  | begin items => exact .begin items ‹_›
  | item => exact move_takeItem ‹_›
  | free =>
    split at h
    · next e he =>
      split_ifs at h with hcheck
      · cases h
        exact .free ‹_› (mem_of_find?_eq_some he) (by simpa using List.find?_some he) hcheck.2
      · cases h
        exact .putAgain ‹_›
    · cases h
      exact .putAgain ‹_›
  | dispatch => exact .dispatch ‹_›
  | load r =>
    -- for either kind of operation that raises a count
    split_ifs at h with hr
    cases h
    exact .load ‹_› hr ‹_› rfl (by simp)
  | store r =>
    split_ifs at h with hraises hlt
    · cases h
      exact .raise ‹_› ‹_› hraises hlt
    · cases h
      exact .skip ‹_› ‹_› (by simpa using hraises)
  | read r =>
    split_ifs at h with hr
    split at h
    · cases h
      exact .read hr ‹_› ‹_›
    · cases h
      exact .giveUp hr ‹_› ‹_›

/-! ### The invariant -/

/-- The accounts of a chunk. -/
def AccountOf (c : StoreConfig) (q : Store K) (e : Entry K) : Prop :=
  Account c.nReaders (q.writerFlag e.id) (q.sent.count e.uid)
    (q.writer.listings.countP fun x => x.uid = e.uid)
    (q.writer.pending.countP fun x => x.key = e.key) (q.skipped.count e.uid)
    (left c.nReaders (Op.counts e.uid) q.reader) (left c.nReaders (Op.touches e.uid) q.reader)
    (readCount c.dataBufferSize q.mem e.address)

/-- What is due to the chunks, if there are readers. -/
structure Dues (c : StoreConfig) (q : Store K) : Prop where
  listed : ∀ x ∈ q.writer.listings, ∃ e ∈ q.entries, x = e.listing
  account : ∀ e ∈ q.entries, q.AccountOf c e
  /-- The items that are not there come at most once. -/
  once : ∀ k, (∀ e ∈ q.entries, e.key ≠ k) → (q.writer.pending.countP fun x => x.key = k) ≤ 1
  sent_lt : ∀ u ∈ q.sent, u < q.puts
  skipped_lt : ∀ u ∈ q.skipped, u < q.puts

/-- The invariant of the store. -/
structure Inv (c : StoreConfig) (q : Store K) : Prop where
  books : q.Books c
  nonneg : ∀ e ∈ q.entries, 0 ≤ readCount c.dataBufferSize q.mem e.address
  ordered : ∀ r, Ordered (q.reader r).todo
  /-- What they have left is in the books. -/
  owed : ∀ r < c.nReaders, ∀ op ∈ (q.reader r).todo, ∃ e ∈ q.entries, op.listing = e.listing
  /-- A count that was loaded is the one in the buffer. -/
  loaded : ∀ r count, (q.reader r).loaded = some count → q.lock = some r ∧ r < c.nReaders ∧
    ∃ op todo, (q.reader r).todo = op :: todo ∧ (∀ x, op ≠ .read x) ∧
      count = readCount c.dataBufferSize q.mem op.listing.address
  /-- Room is made for new items. -/
  freeing : ∀ x todo done freedBytes, q.writer = .freeing x todo done freedBytes →
    (∀ e ∈ q.entries, e.key ≠ x.key) ∧ x.obj.len + 4 ≤ c.maxObjectSize
  got : ∀ r < c.nReaders, ∀ p ∈ (q.reader r).got, p.2 = some p.1.obj
  skipped : c.nReaders = 0 → q.skipped = []
  dues : 0 < c.nReaders → q.Dues c

/-- A request lists the items that are not in the store at most once. -/
def NewOnce (q : Store K) : Event K → Prop
  | .begin items => ∀ k, q.isCached k = false → (items.countP fun x => x.key = k) ≤ 1
  | _ => True

theorem Inv.init (m : Mem UInt8) : (init m : Store K).Inv c where
  books := Books.init m
  nonneg := by simp [Store.init]
  ordered := fun _ => trivial
  owed := by simp [Store.init]
  loaded := by simp [Store.init]
  freeing := by simp [Store.init]
  got := by simp [Store.init]
  skipped := fun _ => rfl
  dues := fun _ => by
    refine ⟨?_, ?_, ?_, ?_, ?_⟩ <;> simp [Store.init, listings, pending]

/-! ### The writer touches the items -/

section Touch

variable {entries : List (Entry K)} {flag : ℕ → ℕ}

theorem touch_apply (hkeys : (entries.map Entry.key).Nodup) (hids : (entries.map Entry.id).Nodup)
    {e : Entry K} (he : e ∈ entries) (key : K) :
    touch entries flag key e.id = flag e.id + if key = e.key then 1 else 0 := by
  cases hfind : entries.find? fun e => e.key = key with
  | none =>
    have hne : e.key ≠ key := by simpa using List.find?_eq_none.mp hfind e he
    simp only [touch, hfind, if_neg hne.symm, Nat.add_zero]
  | some e' =>
    have hmem := mem_of_find?_eq_some hfind
    have hkey : e'.key = key := by simpa using List.find?_some hfind
    simp only [touch, hfind]
    by_cases heq : e' = e
    · subst heq
      rw [update_self, if_pos hkey.symm]
    · have hid : e.id ≠ e'.id :=
        fun h => heq (inj_on_of_nodup_map hids he hmem h).symm
      have hne : key ≠ e.key :=
        fun h => heq (inj_on_of_nodup_map hkeys hmem he (hkey.trans h))
      rw [update_of_ne hid, if_neg hne, Nat.add_zero]

theorem touch_of_ne {i : ℕ} (hi : ∀ e ∈ entries, e.id ≠ i) (key : K) :
    touch entries flag key i = flag i := by
  cases hfind : entries.find? fun e => e.key = key with
  | none => simp only [touch, hfind]
  | some e =>
    simp only [touch, hfind]
    rw [update_of_ne (hi e (mem_of_find?_eq_some hfind)).symm]

theorem foldl_touch_apply (hkeys : (entries.map Entry.key).Nodup)
    (hids : (entries.map Entry.id).Nodup) {e : Entry K} (he : e ∈ entries)
    (items : List (Pending K)) : ∀ flag : ℕ → ℕ,
      (items.map Pending.key).foldl (touch entries) flag e.id
        = flag e.id + items.countP fun x => x.key = e.key := by
  induction items with
  | nil => exact fun _ => rfl
  | cons x items ih =>
    intro flag
    rw [map_cons, foldl_cons, ih, touch_apply hkeys hids he, countP_cons]
    simp only [decide_eq_true_eq]
    omega

theorem foldl_touch_of_ne {i : ℕ} (hi : ∀ e ∈ entries, e.id ≠ i) (keys : List K) :
    ∀ flag : ℕ → ℕ, keys.foldl (touch entries) flag i = flag i := by
  induction keys with
  | nil => exact fun _ => rfl
  | cons k keys ih =>
    intro flag
    rw [foldl_cons, ih, touch_of_ne hi]

end Touch

theorem Inv.begin (h : q.Inv c) (hc : c.Bounded) {items : List (Pending K)}
    (hw : q.writer = .idle) (honce : q.NewOnce (.begin items)) :
    Inv c { q with
      writerFlag := (items.map Pending.key).foldl (touch q.entries) q.writerFlag
      writer := .working items [] } := by
  refine ⟨{ h.books with unflagged := fun i hi => ?_ }, h.nonneg, h.ordered, h.owed, h.loaded, ?_,
    h.got, h.skipped, fun hn => ?_⟩
  · exact (foldl_touch_of_ne hi _ _).trans (h.books.unflagged i hi)
  · exact fun _ _ _ _ hfreeing => by cases hfreeing
  · have hdues := h.dues hn
    refine ⟨by simp [listings], fun e he => ?_, fun k hk => ?_, hdues.sent_lt,
      hdues.skipped_lt⟩
    · have haccount := hdues.account e he
      unfold AccountOf at haccount ⊢
      rw [hw] at haccount
      dsimp only
      rw [foldl_touch_apply h.books.keys (h.books.nodup_ids hc) he]
      exact haccount.touchAll _
    · refine honce k ?_
      simpa [isCached] using hk

/-! ### The writer takes an item -/

/-- An item that is there is used again. -/
theorem Inv.cached (h : q.Inv c) (hc : c.Bounded) {e : Entry K} (hw : q.writer = .working (x :: todo) done)
    (he : e ∈ q.entries) (hkey : e.key = x.key) :
    Inv c { q with
      writerFlag := update q.writerFlag e.id (q.writerFlag e.id + 1)
      writer := .working todo (done ++ [e.listing]) } := by
  refine ⟨{ h.books with unflagged := fun i hi => ?_ }, h.nonneg, h.ordered, h.owed, h.loaded, ?_,
    h.got, h.skipped, fun hn => ?_⟩
  · show update q.writerFlag e.id _ i = 0
    rw [update_of_ne (hi e he).symm]
    exact h.books.unflagged i hi
  · exact fun _ _ _ _ hfreeing => by cases hfreeing
  · have hdues := h.dues hn
    refine ⟨fun y hy => ?_, fun e' he' => ?_, fun k hk => ?_, hdues.sent_lt, hdues.skipped_lt⟩
    · rcases mem_append.mp hy with hy | hy
      · exact hdues.listed y (by rwa [hw])
      · exact ⟨e, he, mem_singleton.mp hy⟩
    · have haccount := hdues.account e' he'
      unfold AccountOf at haccount ⊢
      rw [hw] at haccount
      simp only [listings, pending, countP_append,
        countP_cons] at haccount ⊢
      by_cases heq : e' = e
      · subst heq
        simp only [hkey, Entry.listing, update_self, decide_true, if_true] at haccount ⊢
        exact haccount.list
      · -- another chunk: neither its flag nor its listings change
        have hid : e'.id ≠ e.id := fun hid => heq (h.books.eq_of_id hc he' he hid)
        have huid : e.uid ≠ e'.uid := fun huid => heq (h.books.eq_of_uid he he' huid).symm
        have hne : x.key ≠ e'.key :=
          fun hne => heq (h.books.eq_of_key he he' (hkey.trans hne)).symm
        rw [update_of_ne hid]
        simpa [hne, huid, Entry.listing] using haccount
    · have hle := hdues.once k hk
      rw [hw] at hle
      simp only [pending, countP_cons] at hle ⊢
      omega

/-- A new item is not put. -/
theorem Inv.pass (h : q.Inv c)
    (hpending : q.writer.pending = x :: todo) (hnew : ∀ e ∈ q.entries, e.key ≠ x.key) :
    Inv c { q with writer := .working todo q.writer.listings } := by
  refine { h with books := { h.books with }, freeing := ?_, dues := fun hn => ?_ }
  · exact fun _ _ _ _ hfreeing => by cases hfreeing
  · have hdues := h.dues hn
    refine { hdues with account := fun e he => ?_, once := fun k hk => ?_ }
    · have haccount := hdues.account e he
      unfold AccountOf at haccount ⊢
      rw [hpending, countP_cons_of_neg (by simpa using (hnew e he).symm)] at haccount
      exact haccount
    · have hle := hdues.once k hk
      rw [hpending, countP_cons] at hle
      exact Nat.le_of_add_right_le hle

theorem Inv.full (h : q.Inv c)
    (hw : q.writer = .working (x :: todo) done) (hnew : ∀ e ∈ q.entries, e.key ≠ x.key)
    (hsize : x.obj.len + 4 ≤ c.maxObjectSize) :
    Inv c { q with writer := .freeing x todo done 0 } := by
  refine { h with books := { h.books with }, freeing := ?_, dues := fun hn => ?_ }
  · intro x' todo' done' freedBytes hfreeing
    cases hfreeing
    exact ⟨hnew, hsize⟩
  · have hdues := h.dues hn
    refine ⟨?_, fun e he => ?_, ?_, hdues.sent_lt, hdues.skipped_lt⟩
    · have hlisted := hdues.listed
      rwa [hw] at hlisted
    · have haccount := hdues.account e he
      unfold AccountOf at haccount ⊢
      rwa [hw] at haccount
    · have honce := hdues.once
      rwa [hw] at honce

/-! ### The writer puts an object -/

/-- Nobody has anything to do with an object that was not put yet. -/
theorem Inv.left_eq_zero (h : q.Inv c) {p : Op → Bool} {uid : ℕ} (huid : q.puts ≤ uid)
    (hp : ∀ op, p op = true → op.listing.uid = uid) : left c.nReaders p q.reader = 0 := by
  rw [left_eq_zero_iff]
  intro r hr op hop hpop
  obtain ⟨e, he, hlisting⟩ := h.owed r hr op hop
  have hlt := h.books.uid_lt e he
  have heq : e.uid = uid := (congrArg Listing.uid hlisting).symm.trans (hp op hpop)
  omega

/-- **An object is put.** -/
theorem Inv.put (h : q.Inv c) (hc : c.Bounded)
    (hpending : q.writer.pending = x :: todo) (hnew : ∀ e ∈ q.entries, e.key ≠ x.key)
    (hsize : x.obj.len + 4 ≤ c.maxObjectSize)
    (hroom : q.ring.hasRoom c.dataBufferSize (x.obj.len + 12) = true) :
    (q.put c q.ring x todo q.writer.listings).Inv c := by
  have hbooks := h.books.put h.books.row rfl rfl hsize hnew hroom todo q.writer.listings
  set e : Entry K := ⟨q.ring.monotonicIdEnd,
    q.ring.bufferEndReset c.dataBufferSize (x.obj.len + 12), x.key, q.puts, x.obj⟩ with he
  have hmem : ∀ {e'}, e' ∈ q.entries ++ [e] ↔ e' ∈ q.entries ∨ e' = e := by
    intro e'
    rw [mem_append, mem_singleton]
  have hids : ∀ e' ∈ q.entries, e'.id ≠ e.id := by
    intro e' he' hid
    have heq := hbooks.eq_of_id hc (hmem.mpr (Or.inl he')) (hmem.mpr (Or.inr rfl)) hid
    exact hnew e' he' (congrArg Entry.key heq)
  refine ⟨hbooks, fun e' he' => ?_, h.ordered, ?_, ?_, ?_, h.got, h.skipped, fun hn => ?_⟩
  · rcases hmem.mp he' with he' | rfl
    · exact (h.nonneg e' he').trans_eq (h.books.readCount_putBytes_of_mem hroom _ he').symm
    · exact (readCount_putBytes _ _ _).ge
  · intro r hr op hop
    obtain ⟨e', he', hlisting⟩ := h.owed r hr op hop
    exact ⟨e', hmem.mpr (Or.inl he'), hlisting⟩
  · intro r count hcount
    obtain ⟨hlock, hr, op, ops, hops, hread, hvalue⟩ := h.loaded r count hcount
    obtain ⟨e', he', hlisting⟩ := h.owed r hr op (hops ▸ mem_cons_self)
    refine ⟨hlock, hr, op, ops, hops, hread, hvalue.trans ?_⟩
    rw [hlisting]
    exact (h.books.readCount_putBytes_of_mem hroom _ he').symm
  · exact fun _ _ _ _ hfreeing => by cases hfreeing
  · have hdues := h.dues hn
    refine ⟨fun y hy => ?_, fun e' he' => ?_, fun k hk => ?_, fun u hu => ?_, fun u hu => ?_⟩
    · rcases mem_append.mp hy with hy | hy
      · obtain ⟨e', he', hlisting⟩ := hdues.listed y hy
        exact ⟨e', hmem.mpr (Or.inl he'), hlisting⟩
      · exact ⟨e, hmem.mpr (Or.inr rfl), mem_singleton.mp hy⟩
    · show Account _ (update q.writerFlag e.id (q.writerFlag e.id + 1) e'.id)
        (q.sent.count e'.uid) ((q.writer.listings ++ [e.listing]).countP _) (todo.countP _)
        (q.skipped.count e'.uid) (left _ _ q.reader) (left _ _ q.reader)
        (readCount _ (putBytes _ q.mem e.address e.id x.obj) e'.address)
      rw [countP_append]
      rcases hmem.mp he' with he' | rfl
      · have haccount := hdues.account e' he'
        unfold AccountOf at haccount
        have huid : e.listing.uid ≠ e'.uid := (h.books.uid_lt e' he').ne'
        rw [hpending, countP_cons_of_neg (by simpa using (hnew e' he').symm)] at haccount
        rw [update_of_ne (hids e' he'), h.books.readCount_putBytes_of_mem hroom _ he',
          countP_singleton, if_neg (by simpa using huid), Nat.add_zero]
        exact haccount
      · -- nobody has heard of the new chunk, and its item does not come again
        have hflag : q.writerFlag e.id = 0 := h.books.unflagged e.id hids
        have hsent : q.sent.count e.uid = 0 :=
          count_eq_zero_of_not_mem fun hu => (hdues.sent_lt _ hu).ne rfl
        have hskipped : q.skipped.count e.uid = 0 :=
          count_eq_zero_of_not_mem fun hu => (hdues.skipped_lt _ hu).ne rfl
        have hlisted : (q.writer.listings.countP fun y => y.uid = e.uid) = 0 := by
          refine countP_eq_zero.mpr fun y hy => ?_
          obtain ⟨e', he', rfl⟩ := hdues.listed y hy
          exact fun huid => (h.books.uid_lt e' he').ne (of_decide_eq_true huid)
        have htodo : (todo.countP fun y => y.key = e.key) = 0 := by
          have hle := hdues.once x.key hnew
          rw [hpending, countP_cons_of_pos (by simp)] at hle
          exact Nat.le_zero.mp (Nat.le_of_succ_le_succ hle)
        rw [update_self, hflag, hsent, hlisted, htodo, hskipped,
          h.left_eq_zero le_rfl fun _ => Op.uid_of_counts,
          h.left_eq_zero le_rfl fun _ => Op.uid_of_touches, readCount_putBytes,
          countP_singleton, if_pos (by simp [Entry.listing])]
        exact Account.new _
    · have hle := hdues.once k fun e' he' => hk e' (hmem.mpr (Or.inl he'))
      rw [hpending, countP_cons] at hle
      exact Nat.le_of_add_right_le hle
    · exact (hdues.sent_lt u hu).trans (Nat.lt_succ_self _)
    · exact (hdues.skipped_lt u hu).trans (Nat.lt_succ_self _)

theorem Inv.wrapped (h : q.Inv c) : Inv c { q with ring := q.ring.wrapped c.dataBufferSize } := by
  have hids : (q.ring.wrapped c.dataBufferSize).monotonicIdStart = q.ring.monotonicIdStart ∧
      (q.ring.wrapped c.dataBufferSize).monotonicIdEnd = q.ring.monotonicIdEnd := by
    unfold ObjectRing.wrapped
    split_ifs <;> exact ⟨rfl, rfl⟩
  have hbooks : Books c { q with ring := q.ring.wrapped c.dataBufferSize } :=
    { h.books with
      row := h.books.row.wrapped
      ids := h.books.ids.trans (by rw [← hids.1])
      idEnd := hids.2.trans (h.books.idEnd.trans (by rw [← hids.1]))
      idStart_lt := hids.1.trans_lt h.books.idStart_lt }
  exact { h with books := hbooks, dues := fun hn => { h.dues hn with } }

/-- Room was made, or not. -/
theorem Inv.putAgain (h : q.Inv c) (hc : c.Bounded) {freedBytes : ℕ}
    (hw : q.writer = .freeing x todo done freedBytes) :
    (q.putAgain c x todo done).Inv c := by
  obtain ⟨hnew, hsize⟩ := h.freeing x todo done freedBytes hw
  have hpending : q.writer.pending = x :: todo := by rw [hw]; rfl
  have hdone : q.writer.listings = done := by rw [hw]; rfl
  rw [← hdone]
  unfold Store.putAgain
  dsimp only
  split_ifs with hroom
  · exact h.wrapped.put hc hpending hnew hsize hroom
  · exact h.wrapped.pass hpending hnew

/-! ### The writer frees a chunk -/

/-- **The oldest chunk is freed.** By its accounts, nobody uses it any more. -/
theorem Inv.free (h : q.Inv c) (hc : c.Bounded) {freedBytes : ℕ} {e : Entry K}
    (hw : q.writer = .freeing x todo done freedBytes) (he : e ∈ q.entries)
    (hid : e.id = q.ring.monotonicIdStart) (hfree : q.isFree c e = true) :
    (q.freeEntry c e x todo done freedBytes).Inv c := by
  obtain ⟨es, hes⟩ : ∃ es, q.entries = e :: es := by
    cases hentries : q.entries with
    | nil => exact absurd he (by simp [hentries])
    | cons e₀ es =>
      have hhead := h.books.head_id hentries
      have hmem : e₀ ∈ q.entries := by simp [hentries]
      exact ⟨es, by rw [h.books.eq_of_id hc he hmem (hid.trans hhead.symm)]⟩
  have hbooks := h.books.free hc hes x todo done freedBytes
  obtain ⟨hentries, -⟩ := h.books.entries_freeEntry hc hes x todo done freedBytes
  have hsub : ∀ e' ∈ (q.freeEntry c e x todo done freedBytes).entries, e' ∈ q.entries := by
    intro e' he'
    rw [hentries] at he'
    exact hes ▸ mem_cons_of_mem e he'
  have hstays : ∀ e' ∈ q.entries, e' ≠ e →
      e' ∈ (q.freeEntry c e x todo done freedBytes).entries := by
    intro e' he' hne
    rw [hentries]
    exact (mem_cons.mp (hes ▸ he')).resolve_left hne
  have hgone : ∀ e' ∈ (q.freeEntry c e x todo done freedBytes).entries, e' ≠ e := by
    rintro e' he' rfl
    have hnodup := h.books.uids
    rw [hentries] at he'
    rw [hes, map_cons, nodup_cons] at hnodup
    exact hnodup.1 (mem_map_of_mem he')
  have hunused := fun hn => ((h.dues hn).account e he).of_isFree hn (of_decide_eq_true hfree)
  have hpending : q.writer.pending = x :: todo := by rw [hw]; rfl
  have hdone : q.writer.listings = done := by rw [hw]; rfl
  refine ⟨hbooks, fun e' he' => h.nonneg e' (hsub e' he'), h.ordered, ?_, h.loaded, ?_, h.got,
    h.skipped, fun hn => ?_⟩
  · intro r hr op hop
    obtain ⟨e', he', hlisting⟩ := h.owed r hr op hop
    refine ⟨e', hstays e' he' ?_, hlisting⟩
    rintro rfl
    -- nothing is left to do with the chunk
    obtain ⟨-, -, hcounts, htouches⟩ := hunused (Nat.zero_lt_of_lt hr)
    have hreads := Nat.le_zero.mp (hcounts ▸ left_reads_le h.ordered e'.uid)
    rw [left_eq_zero_iff] at hcounts htouches hreads
    have huid : op.listing.uid = e'.uid := congrArg Listing.uid hlisting
    cases op with
    | touch y => exact htouches r hr _ hop (decide_eq_true huid)
    | read y => exact hreads r hr _ hop (decide_eq_true huid)
    | count y => exact hcounts r hr _ hop (decide_eq_true huid)
  · intro x' todo' done' freedBytes' hfreeing
    cases hfreeing
    obtain ⟨hnew, hsize⟩ := h.freeing x todo done freedBytes hw
    exact ⟨fun e' he' => hnew e' (hsub e' he'), hsize⟩
  · have hdues := h.dues hn
    obtain ⟨hlisted, hcoming, -, -⟩ := hunused hn
    rw [hdone] at hlisted
    rw [hpending] at hcoming
    refine ⟨fun y hy => ?_, fun e' he' => ?_, fun k hk => ?_, hdues.sent_lt, hdues.skipped_lt⟩
    · obtain ⟨e', he', hlisting⟩ := hdues.listed y (hdone.symm ▸ hy)
      refine ⟨e', hstays e' he' ?_, hlisting⟩
      rintro rfl
      exact countP_eq_zero.mp hlisted y hy (decide_eq_true (congrArg Listing.uid hlisting))
    · have haccount := hdues.account e' (hsub e' he')
      have hne : e'.id ≠ e.id := fun hid => hgone e' he' (h.books.eq_of_id hc (hsub e' he') he hid)
      unfold AccountOf at haccount
      rw [hpending, hdone] at haccount
      show Account _ (update q.writerFlag e.id 0 e'.id) _ (done.countP _)
        ((x :: todo).countP _) _ _ _ _
      rwa [update_of_ne hne]
    · by_cases hkey : e.key = k
      · subst hkey
        exact hcoming.le.trans (Nat.zero_le 1)
      · have hle := hdues.once k fun e' he' => by
          by_cases heq : e' = e
          · exact heq ▸ hkey
          · exact hk e' (hstays e' he' heq)
        rwa [hpending] at hle

/-! ### The writer sends the request -/

/-- **A request is sent to the readers.** -/
theorem Inv.dispatch (h : q.Inv c) (hw : q.writer = .working [] done) : Inv c { q with
      reader := fun r => { q.reader r with todo := (q.reader r).todo ++ requestOps done }
      sent := q.sent ++ done.map Listing.uid
      writer := .idle } := by
  refine ⟨{ h.books with }, h.nonneg, ?_, ?_, ?_, ?_, h.got, h.skipped, fun hn => ?_⟩
  · exact fun r => (h.ordered r).append (ordered_requestOps done)
  · intro r hr op hop
    rcases mem_append.mp hop with hop | hop
    · exact h.owed r hr op hop
    · -- what is sent is what the writer has listed
      have hmem : op.listing ∈ done := by
        simp only [requestOps, mem_append, mem_map, mem_flatMap] at hop
        rcases hop with ⟨y, hy, rfl⟩ | ⟨y, hy, hop⟩
        · exact hy
        · rcases mem_pair.mp hop with rfl | rfl <;> exact hy
      exact (h.dues (Nat.zero_lt_of_lt hr)).listed _ (by rwa [hw])
  · intro r count hcount
    obtain ⟨hlock, hr, op, todo, htodo, hop⟩ := h.loaded r count hcount
    exact ⟨hlock, hr, op, todo ++ requestOps done, congrArg (· ++ requestOps done) htodo, hop⟩
  · exact fun _ _ _ _ hfreeing => by cases hfreeing
  · have hdues := h.dues hn
    refine ⟨by simp [listings], fun e he => ?_, fun k hk => Nat.zero_le 1,
      fun u hu => ?_, hdues.skipped_lt⟩
    · -- listings become touches and reads, one for each reader
      have haccount := (hdues.account e he).dispatch
      rw [hw] at haccount
      have hcount : (done.map Listing.uid).count e.uid = done.countP fun x => x.uid = e.uid := by
        rw [count_eq_countP, countP_map]
        rfl
      unfold AccountOf
      rw [left_append, left_append, (countP_requestOps done e.uid).1,
        (countP_requestOps done e.uid).2, count_append, hcount]
      exact haccount
    · rcases mem_append.mp hu with hu | hu
      · exact hdues.sent_lt u hu
      · obtain ⟨y, hy, rfl⟩ := mem_map.mp hu
        obtain ⟨e, he, rfl⟩ := hdues.listed y (by rwa [hw])
        exact h.books.uid_lt e he

end Store

end CacheFlow.Shm
