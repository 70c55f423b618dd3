import CacheFlow.Server.FirstFit
import CacheFlow.Server.StoreRun

/-!
# What is evicted for an allocation

The loop of `_allocate` tests the capacity, tries to allocate, and evicts the oldest unpinned entry
when either fails. One eviction takes the first victim away, so the tests of the later rounds are
tests about the entries left without a longer and longer prefix of the victims. `Room s n m` says
what such a test finds in terms of the pages alone: that the entries left without the first `m`
victims leave `n` bytes within the capacity, and a free run for them.

## Main results

* `Store.Inv.sat_allocate_shed`, `Store.sat_shrinkLoop_shed` — the two loops.
* `Store.evicts_shortest` — they evict no more than they need, in every reachable state.
-/

namespace CacheFlow

open ExtentAllocator List

namespace Store

variable {s s₁ s' : Store} {k : String} {e : Entry} {rest : List String} {n : ℤ} {j m : ℕ}

/-- The store without the READY entries of some keys; their pages are not given back. -/
def without (s : Store) (ks : List String) : Store :=
  { s with lru := ks.foldl Dict.erase s.lru, index := ks.foldl Dict.erase s.index }

/-- The blocks in use without the first victims. -/
def left (s : Store) (m : ℕ) : List Block := (s.without (s.victims.take m)).live.map Entry.block

/-- The bytes in use without the first victims. -/
def usedWithout (s : Store) (m : ℕ) : ℤ :=
  ((s.left m).map fun b => s.alloc.pagesFor b.size).sum * s.alloc.page

/-- Without the first `m` victims the capacity allows `n` bytes more, and some run of free pages
holds them. -/
def Room (s : Store) (n : ℤ) (m : ℕ) : Prop :=
  s.usedWithout m + s.alloc.pagesFor n * s.alloc.page ≤ s.capacityBytes ∧
    (s.alloc.fits (s.left m) n).Nonempty

/-- The first `m` victims have been evicted. Apart from them and the pages nothing has changed. -/
def Shed (s : Store) (m : ℕ) (s' : Store) : Prop :=
  ∃ a freed, SamePool s.alloc a ∧
    s' = { s.without (s.victims.take m) with alloc := a, freed := freed }

/-! ### One eviction -/

theorem victims_nodup (s : Store) : s.victims.Nodup := s.lru.nodup_keys.filter _

section

variable (h : Evicted s k e s₁)
include h

section

variable (hv : s.victims = k :: rest)
include hv

theorem Evicted.victims : s₁.victims = rest := by
  have hnot : k ∉ rest := (nodup_cons.mp (hv ▸ s.victims_nodup)).1
  obtain ⟨a, -, rfl⟩ := h.eq
  have hself : rest.filter (· ≠ k) = rest :=
    filter_eq_self.mpr fun x hx => by simpa using fun heq : x = k => hnot (heq ▸ hx)
  calc (s.lru.erase k).keys.filter _
      = s.victims.filter (· ≠ k) := by
        rw [Dict.keys_erase, s.lru.nodup_keys.erase_eq_filter, Store.victims, filter_filter,
          filter_filter]
        refine filter_congr fun x _ => ?_
        by_cases hx : x = k <;> simp [evictable, Dict.get?_erase, hx]
    _ = rest := by rw [hv, filter_cons_of_neg (by simp), hself]

theorem Evicted.length_victims : s.victims.length = s₁.victims.length + 1 := by
  rw [hv, h.victims hv, length_cons]

theorem Evicted.left (j : ℕ) : s₁.left j = s.left (j + 1) := by
  rw [Store.left, Store.left, h.victims hv, hv, take_succ_cons]
  obtain ⟨a, -, rfl⟩ := h.eq
  rfl

theorem Evicted.usedWithout (j : ℕ) : s₁.usedWithout j = s.usedWithout (j + 1) := by
  have hpool := h.kept.samePool
  simp only [Store.usedWithout, h.left hv, hpool.pagesFor, hpool.page]

end

theorem Evicted.capacityBytes : s₁.capacityBytes = s.capacityBytes := by
  obtain ⟨a, -, rfl⟩ := h.eq
  rfl

theorem Evicted.fits (hv : s.victims = k :: rest) (j : ℕ) :
    s₁.alloc.fits (s₁.left j) n = s.alloc.fits (s.left (j + 1)) n := by
  have hpool := h.kept.samePool
  have hfree : s₁.alloc.freePages (s.left (j + 1)) = s.alloc.freePages (s.left (j + 1)) :=
    hpool.freePages fun _ => Iff.rfl
  simp only [ExtentAllocator.fits, hpool.pagesFor, h.left hv, hfree]

theorem Evicted.room (hv : s.victims = k :: rest) (j : ℕ) : s₁.Room n j ↔ s.Room n (j + 1) := by
  have hpool := h.kept.samePool
  rw [Room, Room, h.usedWithout hv, h.capacityBytes, hpool.pagesFor, hpool.page, h.fits hv]

theorem Evicted.shed (hv : s.victims = k :: rest) (hs : Shed s₁ m s') : Shed s (m + 1) s' := by
  obtain ⟨a, freed, hpool, rfl⟩ := hs
  refine ⟨a, freed, h.kept.samePool.trans hpool, ?_⟩
  rw [h.victims hv, hv, take_succ_cons]
  obtain ⟨a', -, rfl⟩ := h.eq
  rfl

end

theorem shed_zero (s : Store) : Shed s 0 s := ⟨s.alloc, s.freed, .refl _, rfl⟩

theorem Inv.usedWithout_zero (h : s.Inv) : s.usedWithout 0 = s.alloc.usedBytes := by
  rw [Store.usedWithout, usedBytes, h.holds.used]
  rfl

/-! ### More victims, more room -/

theorem values_foldl_erase_sublist (ks : List String) (d : Dict String Entry) :
    (ks.foldl Dict.erase d).values.Sublist d.values := by
  induction ks generalizing d with
  | nil => exact .refl _
  | cons k ks ih => exact (ih _).trans (filter_sublist.map _)

theorem left_sublist (hm : m ≤ j) : (s.left j).Sublist (s.left m) := by
  obtain ⟨d, rfl⟩ := Nat.exists_eq_add_of_le hm
  rw [left, left, take_add, without, foldl_append, foldl_append]
  exact (((values_foldl_erase_sublist _ _).append_right _).append_right _).map _

theorem Inv.room_mono (h : s.Inv) (hm : m ≤ j) (hroom : s.Room n m) : s.Room n j := by
  have hsub := s.left_sublist hm
  have hpos : ∀ b ∈ s.left m, 0 ≤ s.alloc.pagesFor b.size := fun b hb =>
    (s.alloc.pagesFor_pos (h.holds.pos b ((s.left_sublist (Nat.zero_le m)).subset hb))).le
  refine ⟨le_trans ?_ hroom.1, hroom.2.mono fun p hp q hq => ⟨(hp hq).1, fun b hb => ?_⟩⟩
  · have hsum := (hsub.map fun b => s.alloc.pagesFor b.size).sum_le_sum fun x hx => by
      obtain ⟨b, hb, rfl⟩ := mem_map.mp hx
      exact hpos b hb
    have := mul_le_mul_of_nonneg_right hsum (Int.natCast_nonneg s.alloc.page)
    simpa only [usedWithout, add_le_add_iff_right] using this
  · exact (hp hq).2 b (hsub.subset hb)

/-! ### The loops -/

/-- The outcome of `allocate`: the fewest victims after which there is room have been evicted and
the lowest run of pages is taken, or all victims have been evicted in vain. -/
def LruAllocated (s : Store) (n : ℤ) (off : Option ℤ) (s' : Store) : Prop :=
  ∃ m ≤ s.victims.length, Shed s m s' ∧ (∀ j < m, ¬ s.Room n j) ∧
    match off with
    | none => m = s.victims.length ∧ ¬ s.Room n m
    | some off => s.Room n m ∧ s'.alloc.usedBytes ≤ s'.capacityBytes ∧
        ∃ p, off = p * s.alloc.page ∧ IsLeast (s.alloc.fits (s.left m) n) p

/-- One attempt succeeds if and only if there is room without an eviction. -/
theorem Inv.sat_tryAlloc_room (h : s.Inv) (hn : 1 ≤ n) :
    Sat (tryAlloc n) s fun off s' => match off with
      | none => s' = s ∧ ¬ s.Room n 0
      | some _ => LruAllocated s n off s' := by
  have hleft : s.left 0 = s.live.map Entry.block := rfl
  unfold tryAlloc
  simp only [sat_bind, sat_get, fitsCapacity, decide_eq_true_eq, ← h.usedWithout_zero]
  split_ifs with hfits
  · obtain ⟨off, a, ha, hres⟩ := h.holds.sat_alloc hn
    have hleast := (h.holds.sat_alloc_least hn).of_ok ha
    refine sat_onAlloc ⟨off, a, ha, ?_⟩
    cases off with
    | none => exact ⟨by rw [hres.1], fun hroom => (hleft ▸ hroom.2).ne_empty hleast⟩
    | some off =>
      obtain ⟨p, hp, hleast⟩ := hleast
      refine ⟨0, Nat.zero_le _, ⟨a, s.freed, hres.2, rfl⟩, by simp, ⟨hfits, p, hleast.1⟩, ?_,
        p, hp, hleast⟩
      have hused : a.usedBytes = s.usedWithout 0 + s.alloc.pagesFor n * s.alloc.page := by
        rw [usedBytes, hres.1.used, usedWithout, hleft, hres.2.page, ← add_mul]
        simp only [map_cons, sum_cons, hres.2.pagesFor, add_comm]
      exact hused.trans_le hfits
  · rw [sat_pure]
    exact ⟨rfl, fun hroom => hfits hroom.1⟩

theorem LruAllocated.of_evicted {off : Option ℤ} (hev : Evicted s k e s₁)
    (hv : s.victims = k :: rest) (hfull : ¬ s.Room n 0) (h : LruAllocated s₁ n off s') :
    LruAllocated s n off s' := by
  obtain ⟨m, hm, hshed, hbefore, hoff⟩ := h
  have hlen := hev.length_victims hv
  refine ⟨m + 1, by omega, hev.shed hv hshed, fun j hj => ?_, ?_⟩
  · cases j with
    | zero => exact hfull
    | succ j => exact fun hroom => hbefore j (by omega) ((hev.room hv j).mpr hroom)
  · cases off with
    | none => exact ⟨by omega, fun hroom => hoff.2 ((hev.room hv m).mpr hroom)⟩
    | some off =>
      obtain ⟨hroom, hused, p, hp, hleast⟩ := hoff
      refine ⟨(hev.room hv m).mp hroom, hused, p, ?_, ?_⟩
      · rw [hp, hev.kept.samePool.page]
      · rwa [← hev.fits hv]

theorem sat_allocateLoop_shed (hn : 1 ≤ n) (fuel : ℕ) (s : Store) (h : s.Inv)
    (hf : s.lru.keys.length < fuel) : Sat (allocateLoop n fuel) s (LruAllocated s n) := by
  induction fuel generalizing s with
  | zero => exact absurd hf (Nat.not_lt_zero _)
  | succ fuel ih =>
    unfold allocateLoop
    rw [sat_bind]
    refine (h.sat_tryAlloc_room hn).mono fun off s₀ hres => ?_
    cases off with
    | some off => simpa only [sat_pure] using hres
    | none =>
      obtain ⟨rfl, hfull⟩ := hres
      rw [sat_bind]
      refine h.sat_evictOne.mono fun b s₁ hev => ?_
      rcases hev with ⟨rfl, rfl, hv⟩ | ⟨rfl, k, e, hev, rest, hv⟩
      · simp only [Bool.false_eq_true, if_false, sat_pure]
        exact ⟨0, Nat.zero_le _, s₁.shed_zero, nofun, by rw [hv]; rfl, hfull⟩
      · have hlen := hev.length_lru h
        exact (ih s₁ hev.kept.inv (by omega)).mono fun off s' hres => .of_evicted hev hv hfull hres

/-- **`allocate` evicts the fewest victims.** -/
theorem Inv.sat_allocate_shed (h : s.Inv) (hn : 1 ≤ n) : Sat (allocate n) s (LruAllocated s n) := by
  unfold allocate
  exact sat_allocateLoop_shed hn _ s h (Nat.lt_succ_self _)

/-- The outcome of the loop of `set_capacity`: the fewest victims after which the entries fit have
been evicted, or all of them. -/
def LruShrunk (s : Store) (s' : Store) : Prop :=
  ∃ m ≤ s.victims.length, Shed s m s' ∧ (∀ j < m, s.capacityBytes < s.usedWithout j) ∧
    (s.usedWithout m ≤ s.capacityBytes ∨ m = s.victims.length)

theorem sat_shrinkLoop_shed (fuel : ℕ) (s : Store) (h : s.Inv) (hf : s.lru.keys.length < fuel) :
    Sat (shrinkLoop fuel) s fun _ s' => LruShrunk s s' := by
  induction fuel generalizing s with
  | zero => exact absurd hf (Nat.not_lt_zero _)
  | succ fuel ih =>
    unfold shrinkLoop
    simp only [sat_bind, sat_get, ← h.usedWithout_zero]
    split_ifs with hover
    · rw [sat_bind]
      refine h.sat_evictOne.mono fun b s₁ hev => ?_
      rcases hev with ⟨rfl, rfl, hv⟩ | ⟨rfl, k, e, hev, rest, hv⟩
      · simp only [Bool.false_eq_true, if_false, sat_pure]
        exact ⟨0, Nat.zero_le _, s₁.shed_zero, by simp, Or.inr (by rw [hv]; rfl)⟩
      · have hlen := hev.length_lru h
        have hvictims := hev.length_victims hv
        refine (ih s₁ hev.kept.inv (by omega)).mono ?_
        rintro _ s' ⟨m, hm, hshed, hbefore, hend⟩
        rw [hev.capacityBytes, hev.usedWithout hv] at hend
        refine ⟨m + 1, by omega, hev.shed hv hshed, fun j hj => ?_, by omega⟩
        cases j with
        | zero => exact hover
        | succ j =>
          have := hbefore j (by omega)
          rwa [hev.capacityBytes, hev.usedWithout hv] at this
    · rw [sat_pure]
      exact ⟨0, Nat.zero_le _, s.shed_zero, by simp, Or.inl (not_lt.mp hover)⟩

/-- **Eviction is minimal and exhaustive.** In every reachable state, `allocate` fails if and only
if there would be no room without all victims, and evicts the shortest prefix of the victims that
makes room; `setCapacity` evicts the shortest prefix that makes the entries fit, or all. -/
theorem evicts_shortest (pool page : ℕ) (hpage : 0 < page) (capacity : Option ℤ)
    (ops : List StoreOp) (hpos : ∀ op ∈ ops, op.PositiveSize) :
    let s := (init pool page hpage capacity).run ops
    (∀ n, 1 ≤ n → Sat (allocate n) s fun off s' =>
      (off = none ↔ ¬ s.Room n s.victims.length) ∧ LruAllocated s n off s') ∧
    ∀ c, Sat (setCapacity c) s fun r s' => r = max 0 (min c s.poolBytes) ∧ s'.capacityBytes = r ∧
      LruShrunk { s with capacityBytes := r } s' := by
  intro s
  have h : s.Inv := (inv_init pool page hpage capacity).run ops hpos
  refine ⟨fun n hn => ?_, fun c => ?_⟩
  · -- an allocation fails just if there is no room without any victim
    refine (h.sat_allocate_shed hn).mono fun off s' hres => ⟨?_, hres⟩
    obtain ⟨m, hm, -, -, hoff⟩ := hres
    cases off with
    | none =>
      obtain ⟨rfl, hno⟩ := hoff
      simpa using hno
    | some off => simpa using h.room_mono hm hoff.1
  · unfold setCapacity
    simp only [sat_bind, sat_modify, sat_get, sat_pure]
    set s₀ : Store := { s with capacityBytes := max 0 (min c s.poolBytes) }
    have hinv : s₀.Inv := { h with owns := h.owns.congr rfl rfl rfl }
    refine (sat_shrinkLoop_shed _ s₀ hinv (Nat.lt_succ_self _)).mono fun _ s' hres => ?_
    obtain ⟨m, -, ⟨a, freed, -, hs'⟩, -⟩ := id hres
    have hcap : s'.capacityBytes = max 0 (min c s.poolBytes) := by rw [hs']; rfl
    refine ⟨hcap, trivial, ?_⟩
    rw [hcap]
    exact hres

theorem evicts_shortest_two_of_three :
    let s := (init 12 4 (by decide) none).run
      [.allocateForWrite ["a", "b", "c"] 4 "w" true, .commit ["a", "b", "c"] "w"]
    s.victims = ["a", "b", "c"] ∧ (finalState (allocate 8) s).lru.keys = ["c"] ∧
      Sat (allocate 8) s fun off s' =>
        (off = none ↔ ¬ s.Room 8 s.victims.length) ∧ LruAllocated s 8 off s' :=
  ⟨by decide +kernel, by decide +kernel,
    (evicts_shortest 12 4 (by decide) none _ (by simp [StoreOp.PositiveSize])).1 8 (by decide)⟩

end Store

end CacheFlow
