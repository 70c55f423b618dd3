import CacheFlow.Server.Eviction

/-!
# The answers of a batch allocation

`allocate_for_write` answers key by key, and the allocation for a later key may evict what an
earlier answer spoke of. An entry being written is never evicted, so the answers `new` and `busy`
stand. A key answered `exists` is moved to the recent end of the LRU order, which protects it only
as long as the victims before it make room.

## Main definitions

* `Store.Spared` — the victims before the keys answered `exists` make room.

## Main results

* `Store.answers_iff_spared` — the answers hold at return exactly if these keys are spared.
-/

namespace CacheFlow

open ExtentAllocator List Dict

namespace Store

variable {s s₁ s' : Store} {k session : String} {seen ks : List String} {size : ℤ}

/-- The answer for a key describes the store. -/
def Answered (s : Store) (session k : String) : AllocStatus × Option Entry → Prop
  | (.exists, _) => ∃ e, s.index.get? k = some e ∧ e.state = .ready
  | (.new, r) => ∃ e, r = some e ∧ s.writing.get? (k, session) = some e ∧ e.state = .writing ∧
      ∀ e' ∈ s.live, e' ≠ e →
        Disjoint (s.alloc.extent e.block).pages (s.alloc.extent e'.block).pages
  | (.busy, _) => ∃ t e, s.writing.get? (k, t) = some e
  | (.full, _) => True

/-- A key needs pages: it is neither READY nor being written. -/
def Needs (s : Store) (k : String) : Prop :=
  k ∉ s.index.keys ∧ ∀ t, s.writing.get? (k, t) = none

/-- No allocation of the rest of the batch has to evict a key answered `exists` before: where such
a key is a victim, the victims before it make room. -/
def Spared (size : ℤ) (session : String) : List String → List String → Store → Prop
  | _, [], _ => True
  | seen, k :: ks, s =>
      (s.Needs k → ∀ k' ∈ seen, ∀ i : ℕ, s.victims[i]? = some k' → s.Room size i) ∧
      Spared size session (if s.index.contains k then k :: seen else seen) ks
        (finalState (allocateKey size session true k) s)

/-! ### What an allocation leaves -/

theorem mem_keys_foldl_erase : ∀ (ks : List String) (d : Dict String Entry),
    k ∈ (ks.foldl erase d).keys ↔ k ∈ d.keys ∧ k ∉ ks := by
  intro ks
  induction ks with
  | nil => simp
  | cons x ks ih =>
    intro d
    simp only [foldl_cons, ih, keys_erase, d.nodup_keys.mem_erase_iff, mem_cons]
    tauto

/-- **A key stays in the index** if and only if it is no victim, or the victims before it make
room. -/
theorem LruAllocated.mem_index {off : Option ℤ} (h : LruAllocated s size off s') (hs : s.Inv) :
    k ∈ s'.index.keys ↔ k ∈ s.index.keys ∧ ∀ i : ℕ, s.victims[i]? = some k → s.Room size i := by
  obtain ⟨m, hm, ⟨a, freed, -, rfl⟩, hbefore, hoff⟩ := h
  have hroom : ∀ i < s.victims.length, m ≤ i → s.Room size i := by
    intro i hi hmi
    cases off with
    | none => obtain ⟨rfl, -⟩ := hoff; omega
    | some off => exact hs.room_mono hmi hoff.1
  refine (mem_keys_foldl_erase _ _).trans (and_congr_right fun _ => ?_)
  rw [mem_iff_getElem?]
  constructor
  · intro hnot i hi
    refine hroom i (List.getElem?_eq_some_iff.mp hi).1 (Nat.le_of_not_lt fun hlt => hnot ⟨i, ?_⟩)
    rwa [List.getElem?_take_of_lt hlt]
  · rintro hall ⟨i, hi⟩
    rw [List.getElem?_take] at hi
    split_ifs at hi with hlt
    exact hbefore i hlt (hall i hi)

theorem Inv.disjoint (h : s.Inv) {e e' : Entry} (he : e ∈ s.live) (he' : e' ∈ s.live)
    (hne : e' ≠ e) : Disjoint (s.alloc.extent e.block).pages (s.alloc.extent e'.block).pages := by
  have hdis := (pairwise_append.mp h.holds.tiling.disjoint).2.1
  rw [map_map, pairwise_map] at hdis
  have : Std.Symm fun a b : Entry => Disjoint ((s.alloc.extent ∘ Entry.block) a).pages
      ((s.alloc.extent ∘ Entry.block) b).pages := ⟨fun _ _ hab => hab.symm⟩
  exact hdis.forall he he' hne.symm

/-! ### One key -/

/-- What the round of a key does, by its answer. -/
def Round (s : Store) (size : ℤ) (session k : String) (r : AllocStatus × Option Entry)
    (s₁ : Store) : Prop :=
  match r.1 with
  | .exists => k ∈ s.index.keys ∧ s₁.index = s.index
  | .busy => k ∉ s.index.keys ∧ (∃ t e, s.writing.get? (k, t) = some e) ∧ s₁ = s
  | .full => s.Needs k ∧ ∃ off s₂, LruAllocated s size off s₂ ∧ s₁.index = s₂.index
  | .new => s.Needs k ∧ (∃ e, r.2 = some e ∧ s₁.writing.get? (k, session) = some e ∧
      e.state = .writing) ∧ ∃ off s₂, LruAllocated s size off s₂ ∧ s₁.index = s₂.index

theorem Inv.sat_round (h : s.Inv) (hsize : 1 ≤ size) (session k : String) :
    Sat (allocateKey size session true k) s (Round s size session k) := by
  unfold allocateKey
  simp only [sat_bind, sat_get, true_and]
  split_ifs with hexists hbusy hmine
  · have hk := contains_iff_mem_keys.mp hexists
    rw [sat_bind]
    refine (h.sat_moveToEnd ((h.lru k).mpr hk)).mono ?_
    rintro _ s' ⟨_, l, hs'⟩
    rw [sat_pure, hs']
    exact ⟨hk, rfl⟩
  · obtain ⟨⟨k', t⟩, hp, hk'⟩ := any_eq_true.mp hbusy
    obtain rfl := of_decide_eq_true hk'
    obtain ⟨e, he⟩ := mem_keys_iff.mp hp
    exact sat_pure.mpr ⟨fun hk => hexists (contains_iff_mem_keys.mpr hk), ⟨t, e, he⟩, rfl⟩
  · -- an entry of the session itself is being written, and so busy
    refine absurd (any_eq_true.mpr ⟨(k, session), ?_, by simp⟩) hbusy
    exact contains_iff_mem_keys.mp hmine
  · -- only now pages are needed
    have hneeds : s.Needs k := by
      refine ⟨fun hk => hexists (contains_iff_mem_keys.mpr hk), fun t => ?_⟩
      refine get?_eq_none_iff.mpr fun hmem => hbusy (any_eq_true.mpr ⟨(k, t), hmem, ?_⟩)
      simp
    rw [sat_bind]
    refine (h.sat_allocate_shed hsize).mono fun off s' hres => ?_
    cases off with
    | none => exact sat_pure.mpr ⟨hneeds, none, s', hres, rfl⟩
    | some off =>
      simp only [sat_bind, sat_get, sat_set, sat_pure]
      exact ⟨hneeds, ⟨_, rfl, get?_set_self .., rfl⟩, some off, s', hres, rfl⟩

variable {r : AllocStatus × Option Entry}

theorem Round.index_subset (h : Round s size session k r s₁)
    (hs : s.Inv) {k' : String} (hk' : k' ∈ s₁.index.keys) : k' ∈ s.index.keys := by
  obtain ⟨status, r⟩ := r
  cases status with
  | «exists» => exact h.2 ▸ hk'
  | busy => exact h.2.2 ▸ hk'
  | full =>
    obtain ⟨-, off, s₂, hres, hidx⟩ := h
    exact ((hres.mem_index hs).mp (hidx ▸ hk')).1
  | new =>
    obtain ⟨-, -, off, s₂, hres, hidx⟩ := h
    exact ((hres.mem_index hs).mp (hidx ▸ hk')).1

/-- The keys answered `exists` so far are READY after the round if and only if the round spares
them. -/
theorem Round.seen_iff (h : Round s size session k r s₁)
    (hs : s.Inv) (hseen : ∀ k' ∈ seen, k' ∈ s.index.keys) :
    (∀ k' ∈ if s.index.contains k then k :: seen else seen, k' ∈ s₁.index.keys) ↔
      (s.Needs k → ∀ k' ∈ seen, ∀ i : ℕ, s.victims[i]? = some k' → s.Room size i) := by
  have hneeds : ∀ {off s₂}, s.Needs k → LruAllocated s size off s₂ → s₁.index = s₂.index →
      ((∀ k' ∈ if s.index.contains k then k :: seen else seen, k' ∈ s₁.index.keys) ↔
        (s.Needs k → ∀ k' ∈ seen, ∀ i : ℕ, s.victims[i]? = some k' → s.Room size i)) := by
    intro off s₂ hn hres hidx
    rw [if_neg (mt contains_iff_mem_keys.mp hn.1), hidx]
    simp only [hn, true_imp_iff, hres.mem_index hs]
    exact forall₂_congr fun k' hk' => and_iff_right (hseen k' hk')
  obtain ⟨status, r⟩ := r
  cases status with
  | «exists» =>
    rw [if_pos (contains_iff_mem_keys.mpr h.1), h.2]
    exact iff_of_true (forall_mem_cons.mpr ⟨h.1, hseen⟩) fun hn => absurd h.1 hn.1
  | busy =>
    obtain ⟨hk, ⟨t, e, he⟩, rfl⟩ := h
    rw [if_neg (mt contains_iff_mem_keys.mp hk)]
    exact iff_of_true hseen fun hn => absurd he (by simp [hn.2 t])
  | full =>
    obtain ⟨hn, off, s₂, hres, hidx⟩ := h
    exact hneeds hn hres hidx
  | new =>
    obtain ⟨hn, -, off, s₂, hres, hidx⟩ := h
    exact hneeds hn hres hidx

/-- Later rounds can only take away a key answered `exists`. -/
theorem Round.answered (h : Round s size session k r s₁)
    (hs' : s'.Inv) (hw : Written s₁ session s') :
    s'.Answered session k r ↔ (k ∈ s.index.keys → k ∈ s'.index.keys) := by
  obtain ⟨status, r⟩ := r
  cases status with
  | «exists» =>
    simp only [h.1, true_imp_iff, Answered, mem_keys_iff]
    exact exists_congr fun e => and_iff_left_of_imp (hs'.ready k e)
  | busy =>
    obtain ⟨hk, ⟨t, e, he⟩, rfl⟩ := h
    exact iff_of_true ⟨t, e, hw.grows _ e he⟩ fun hk' => absurd hk' hk
  | full => exact iff_of_true trivial fun hk => absurd hk h.1.1
  | new =>
    obtain ⟨hn, ⟨e, hr, he, hstate⟩, -⟩ := h
    have hget := hw.grows _ e he
    refine iff_of_true ⟨e, hr, hget, hstate, fun e' he' hne => hs'.disjoint ?_ he' hne⟩
      fun hk => absurd hk hn.1
    exact mem_append_right _ (mem_values_iff.mpr ⟨_, hget⟩)

/-! ### The batch -/

/-- What the rounds of a batch keep: entries being written stay, and no key comes into the index. -/
def Later (s : Store) (session : String) (s' : Store) : Prop :=
  s'.Inv ∧ Written s session s' ∧ ∀ k ∈ s'.index.keys, k ∈ s.index.keys

/-- The rest of a batch, after some keys have been answered `exists`. -/
theorem Inv.sat_batch (hsize : 1 ≤ size) (ks seen : List String) (s : Store) (h : s.Inv)
    (hseen : (∀ k ∈ seen, k ∈ s.index.keys)) :
    Sat (ks.mapM (allocateKey size session true)) s fun out s' =>
      Later s session s' ∧ out.length = ks.length ∧
      (((∀ k ∈ seen, k ∈ s'.index.keys) ∧ ∀ p ∈ ks.zip out, s'.Answered session p.1 p.2) ↔
        Spared size session seen ks s) := by
  induction ks generalizing seen s with
  | nil =>
    refine sat_pure.mpr ⟨⟨h, .of_eq rfl, fun _ hk => hk⟩, rfl, ?_⟩
    simpa [Spared] using hseen
  | cons k ks ih =>
    rw [mapM_cons, sat_bind]
    obtain ⟨r, s₁, hr, hround⟩ := h.sat_round hsize session k
    obtain ⟨hkept, hwritten, -⟩ := (h.sat_allocateKey (by omega) session true k).of_ok hr
    have hfinal : finalState (allocateKey size session true k) s = s₁ := by rw [finalState, hr]
    refine ⟨r, s₁, hr, sat_bind.mpr ?_⟩
    rw [Spared, hfinal, ← hround.seen_iff h hseen]
    set seen' := if s.index.contains k then k :: seen else seen with hseen'
    have hcons : ∀ out s', Later s₁ session s' →
        (((∀ k ∈ seen, k ∈ s'.index.keys) ∧ ∀ p ∈ (k :: ks).zip (r :: out),
          s'.Answered session p.1 p.2) ↔
        (∀ k ∈ seen', k ∈ s'.index.keys) ∧ ∀ p ∈ ks.zip out, s'.Answered session p.1 p.2) := by
      intro out s' hl
      rw [zip_cons_cons, forall_mem_cons, hround.answered hl.1 hl.2.1, ← and_assoc]
      refine and_congr_left fun _ => ?_
      by_cases hk : k ∈ s.index.keys
      · simp [hseen', contains_iff_mem_keys.mpr hk, hk, and_comm]
      · simp [hseen', mt contains_iff_mem_keys.mp hk, hk]
    have hlater : ∀ s', Later s₁ session s' → Later s session s' := fun s' hl =>
      ⟨hl.1, hwritten.trans hl.2.1, fun k hk => hround.index_subset h (hl.2.2 k hk)⟩
    by_cases hc : ∀ k ∈ seen', k ∈ s₁.index.keys
    · refine (ih seen' s₁ hkept.inv hc).mono ?_
      rintro out s' ⟨hl, hlen, hiff⟩
      rw [sat_pure]
      refine ⟨hlater s' hl, by rw [length_cons, length_cons, hlen], ?_⟩
      rw [hcons out s' hl, hiff]
      exact ⟨fun hsp => ⟨hc, hsp⟩, fun hsp => hsp.2⟩
    · -- what this round has evicted stays away
      refine (ih [] s₁ hkept.inv (by simp)).mono ?_
      rintro out s' ⟨hl, hlen, -⟩
      rw [sat_pure]
      refine ⟨hlater s' hl, by rw [length_cons, length_cons, hlen], ?_⟩
      rw [hcons out s' hl]
      exact iff_of_false (fun hall => hc fun k hk => hl.2.2 k (hall.1 k hk)) fun hsp => hc hsp.1

/-- **The answers of a batch.** In every reachable state, for every batch with `skip_existing`: the
answers describe the state at return if and only if no allocation of the batch has to evict a key
answered `exists` before. -/
theorem answers_iff_spared (pool page : ℕ) (hpage : 0 < page) (capacity : Option ℤ)
    (ops : List StoreOp) (hpos : ∀ op ∈ ops, op.PositiveSize) (keys : List String) (size : ℤ)
    (hsize : 1 ≤ size) (session : String) :
    let s := (init pool page hpage capacity).run ops
    Sat (allocateForWrite keys size session true) s fun out s' => out.length = keys.length ∧
      ((∀ p ∈ keys.zip out, s'.Answered session p.1 p.2) ↔ Spared size session [] keys s) := by
  intro s
  have h : s.Inv := (inv_init pool page hpage capacity).run ops hpos
  exact (Inv.sat_batch hsize keys [] s h nofun).mono fun out s' ⟨_, hlen, hiff⟩ =>
    ⟨hlen, by simpa using hiff⟩

/-- In a pool of three pages one READY entry and a new one fit. -/
theorem answers_iff_spared_three_pages :
    let s := (init 12 4 (by decide) none).run
      [.allocateForWrite ["a"] 4 "w" true, .commit ["a"] "w"]
    Sat (allocateForWrite ["a", "b"] 4 "w" true) s fun out s' => out.length = 2 ∧
      ((∀ p ∈ ["a", "b"].zip out, s'.Answered "w" p.1 p.2) ↔ Spared 4 "w" [] ["a", "b"] s) :=
  answers_iff_spared 12 4 (by decide) none _ (by simp [StoreOp.PositiveSize]) ["a", "b"] 4
    (by decide) "w"

/-- In a pool of two pages, the allocation of two pages for the second key evicts the first, which
was answered `exists`. -/
theorem not_answered_two_pages :
    let s := (init 8 4 (by decide) none).run
      [.allocateForWrite ["a"] 4 "w" true, .commit ["a"] "w"]
    ¬ Sat (allocateForWrite ["a", "b"] 8 "w" true) s fun out s' =>
      ∀ p ∈ ["a", "b"].zip out, s'.Answered "w" p.1 p.2 := by
  rintro s ⟨out, s', hres, hall⟩
  have hends : (match allocateForWrite ["a", "b"] 8 "w" true s with
      | .ok out s' => (out.map Prod.fst, s'.index.keys)
      | .error _ s' => ([], s'.index.keys)) = ([.exists, .new], []) := by decide +kernel
  rw [hres] at hends
  obtain ⟨hout, hkeys⟩ := Prod.mk.inj hends
  cases out with
  | nil => cases hout
  | cons r out =>
    obtain ⟨status, r⟩ := r
    obtain rfl : status = .exists := (List.cons.inj hout).1
    obtain ⟨e, he, -⟩ := hall ("a", .exists, r) (by simp)
    have hmem := mem_keys_iff.mpr ⟨e, he⟩
    simp [hkeys] at hmem

end Store

end CacheFlow
