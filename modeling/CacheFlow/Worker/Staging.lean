import CacheFlow.Lib.Steps
import CacheFlow.Server.FirstFit

/-!
# Waiting for staging memory

`StagingPool` of `staging.py`, with one registered region: transfers on several threads take slices
of it, and a caller for whom there is no room waits on a condition variable until its time is up. A
release wakes all who wait, and each of them tries again. A caller that goes to sleep does not look
at the pool until it is woken, so nobody may sleep through the moment there is room.

## Main results

* `StagingPool.always_sound` — **slices do not overlap, and nobody sleeps while there is room.**
-/

namespace CacheFlow

open List Steps ExtentAllocator

/-- `_PAGE`. -/
def stagingPage : ℕ := 2 * 2 ^ 20

/-- The pool, and the threads that wait for it. -/
structure StagingPool where
  capacity : ℕ
  /-- `_alloc`. -/
  alloc : ExtentAllocator
  /-- The slices that are out, by `_offset` and `nbytes`. -/
  slices : List Block
  /-- What the callers in `_cv.wait` ask for. -/
  asleep : List ℤ
  /-- What those ask for whose wait has ended and who have not tried again. -/
  woken : List ℤ

namespace StagingPool

/-- `__init__`. -/
def init (nbytes : ℕ) : StagingPool :=
  ⟨nbytes, .init nbytes stagingPage (by decide), [], [], []⟩

/-- One round of the loop of `acquire`, under the lock. The caller gets a slice, or waits, or gives
up if it has no time left. -/
def round (p : StagingPool) (nbytes : ℤ) (timeLeft : Bool) : Except PyErr StagingPool :=
  match ExtentAllocator.alloc nbytes p.alloc with
  | .error e _ => .error e
  | .ok (some off) a => .ok { p with alloc := a, slices := ⟨off, nbytes⟩ :: p.slices }
  | .ok none a =>
    .ok { p with alloc := a, asleep := if timeLeft then nbytes :: p.asleep else p.asleep }

/-- What a thread does with the pool. -/
inductive Op where
  /-- A call of `acquire`, up to its first wait. -/
  | acquire (nbytes : ℤ) (timeLeft : Bool)
  /-- A wait ends by itself, since its time is up or for no reason. -/
  | stir (nbytes : ℤ)
  /-- A caller whose wait has ended goes on with the loop. -/
  | retry (nbytes : ℤ) (timeLeft : Bool)
  /-- `release`. -/
  | release (s : Block)

/-- The pool after the operation, unless it raises. -/
def call (p : StagingPool) : Op → Except PyErr StagingPool
  | .acquire nbytes timeLeft => if p.capacity < nbytes then .ok p else p.round nbytes timeLeft
  | .stir nbytes => .ok { p with asleep := p.asleep.erase nbytes, woken := nbytes :: p.woken }
  | .retry nbytes timeLeft => { p with woken := p.woken.erase nbytes }.round nbytes timeLeft
  | .release s =>
    match ExtentAllocator.free s.offset s.size p.alloc with
    | .error e _ => .error e
    | .ok _ a =>
      .ok { p with alloc := a, slices := p.slices.erase s, asleep := [], woken := p.asleep ++ p.woken }

def step (p : StagingPool) (e : Op) : Option StagingPool := (p.call e).toOption

/-- Callers ask for something, and give back what they have. -/
def Allowed (p : StagingPool) : Op → Prop
  | .acquire nbytes _ => 1 ≤ nbytes
  | .stir nbytes => nbytes ∈ p.asleep
  | .retry nbytes _ => nbytes ∈ p.woken
  | .release s => s ∈ p.slices

instance (p : StagingPool) : ∀ e, Decidable (p.Allowed e)
  | .acquire .. => inferInstanceAs (Decidable (_ ≤ _))
  | .stir _ | .retry .. | .release _ => inferInstanceAs (Decidable (_ ∈ _))

/-- The bytes of a slice, from the start of the region. -/
def bytes (s : Block) : Set ℤ := Set.Ico s.offset (s.offset + s.size)

/-- What the callers rely on. -/
structure Sound (p : StagingPool) : Prop where
  apart : p.slices.Pairwise fun s t => Disjoint (bytes s) (bytes t)
  inside : ∀ s ∈ p.slices, bytes s ⊆ Set.Ico 0 (p.capacity : ℤ)
  /-- No wake-up is lost. -/
  asleep : ∀ n ∈ p.asleep, ExtentAllocator.alloc n p.alloc = .ok none p.alloc
  returns : ∀ e, p.Allowed e → ∃ q, p.call e = .ok q

/-! ### Bytes and pages -/

variable {a a' : ExtentAllocator} {bs : List Block} {n : ℤ}

/-- The page of a byte of a slice is a page of the slice. -/
theorem fdiv_mem_extent (h : a.Holds bs) {s : Block} (hs : s ∈ bs) {x : ℤ} (hx : x ∈ bytes s) :
    x.fdiv a.page ∈ (a.extent s).pages := by
  have hpage : (0 : ℤ) < a.page := by exact_mod_cast a.page_pos
  obtain ⟨t, ht⟩ := h.aligned s hs
  obtain ⟨hlo, hhi⟩ := hx
  have hlast : s.size ≤ a.pagesFor s.size * a.page := by
    rw [pagesFor, Int.fdiv_eq_ediv_of_nonneg _ hpage.le]
    have := Int.ediv_mul_le (-s.size) hpage.ne'
    linarith
  rw [Extent.mem_pages, extent, ht, mul_page_fdiv, Int.fdiv_eq_ediv_of_nonneg _ hpage.le]
  refine ⟨Int.le_ediv_of_mul_le hpage (ht ▸ hlo), Int.ediv_lt_of_lt_mul hpage ?_⟩
  rw [add_mul]
  linarith

/-- What does not fit does not fit beside one more allocation either. -/
theorem fits_cons_subset (hpool : SamePool a a') (s : Block) : a'.fits (s :: bs) n ⊆ a.fits bs n := by
  intro t ht p hp
  obtain ⟨hin, hfree⟩ := ht (by rwa [hpool.pagesFor])
  refine ⟨hpool.total ▸ hin, fun b hb => ?_⟩
  rw [← hpool.extent]
  exact hfree b (mem_cons_of_mem s hb)

theorem alloc_eq_none (h : a.Holds bs) (hn : 1 ≤ n) (hfits : a.fits bs n = ∅) :
    ExtentAllocator.alloc n a = .ok none a := by
  obtain ⟨off, a', halloc, hleast⟩ := h.sat_alloc_least hn
  cases off with
  | none =>
    obtain ⟨rfl, -⟩ := (h.sat_alloc (by omega)).of_ok halloc
    exact halloc
  | some off =>
    obtain ⟨s, -, hs, -⟩ := hleast
    exact absurd (hfits ▸ hs) (Set.notMem_empty s)

/-! ### Runs -/

/-- The allocator knows the slices, and those who sleep do not fit. -/
structure Inv (p : StagingPool) : Prop where
  holds : p.alloc.Holds p.slices
  pool : SamePool (.init p.capacity stagingPage (by decide)) p.alloc
  sizes : ∀ n ∈ p.asleep ++ p.woken, 1 ≤ n
  asleep : ∀ n ∈ p.asleep, p.alloc.fits p.slices n = ∅

variable {p : StagingPool}

theorem Inv.round (h : p.Inv) (hn : 1 ≤ n) (timeLeft : Bool) :
    ∃ q, p.round n timeLeft = .ok q ∧ q.Inv := by
  obtain ⟨off, a, halloc, hleast⟩ := h.holds.sat_alloc_least hn
  have hres := (h.holds.sat_alloc (by omega)).of_ok halloc
  rw [StagingPool.round, halloc]
  cases off with
  | none =>
    obtain ⟨rfl, -⟩ := hres
    refine ⟨_, rfl, h.holds, h.pool, ?_, ?_⟩ <;> cases timeLeft
    · exact h.sizes
    · exact forall_mem_cons.mpr ⟨hn, h.sizes⟩
    · exact h.asleep
    · exact forall_mem_cons.mpr ⟨hleast, h.asleep⟩
  | some off =>
    obtain ⟨hholds, hsame⟩ := hres
    refine ⟨_, rfl, hholds, h.pool.trans hsame, h.sizes, fun m hm => ?_⟩
    exact Set.subset_eq_empty (fits_cons_subset hsame _) (h.asleep m hm)

theorem Inv.call (h : p.Inv) {e : Op} (he : p.Allowed e) : ∃ q, p.call e = .ok q ∧ q.Inv := by
  cases e with
  | acquire n timeLeft =>
    simp only [StagingPool.call]
    split
    · exact ⟨p, rfl, h⟩
    · exact h.round he timeLeft
  | stir n =>
    refine ⟨_, rfl, h.holds, h.pool, fun m hm => h.sizes m ?_, fun m hm => ?_⟩
    · have hperm : (p.asleep.erase n ++ n :: p.woken).Perm (p.asleep ++ p.woken) :=
        perm_middle.trans ((perm_cons_erase he).symm.append_right _)
      exact hperm.mem_iff.mp hm
    · exact h.asleep m (mem_of_mem_erase hm)
  | retry n timeLeft =>
    have hwoken : Inv { p with woken := p.woken.erase n } :=
      ⟨h.holds, h.pool, fun m hm => h.sizes m ((Sublist.refl _).append erase_sublist |>.mem hm),
        h.asleep⟩
    exact hwoken.round (h.sizes n (mem_append_right _ he)) timeLeft
  | release s =>
    obtain ⟨_, a, hfree, hholds, hsame⟩ := (h.holds.perm (perm_cons_erase he)).sat_free
    simp only [StagingPool.call, hfree]
    exact ⟨_, rfl, hholds, h.pool.trans hsame, h.sizes, fun m hm => absurd hm not_mem_nil⟩

theorem Inv.sound (h : p.Inv) : p.Sound where
  apart := by
    have hdis := (pairwise_append.mp h.holds.tiling.disjoint).2.1
    refine (pairwise_map.mp hdis).imp_of_mem fun hs ht hst => ?_
    exact Set.disjoint_left.mpr fun x hxs hxt => Set.disjoint_left.mp hst
      (fdiv_mem_extent h.holds hs hxs) (fdiv_mem_extent h.holds ht hxt)
  inside := by
    intro s hs x hx
    have hpage : (0 : ℤ) < p.alloc.page := by exact_mod_cast p.alloc.page_pos
    obtain ⟨hlo, hhi⟩ := h.holds.tiling.inside _ (mem_append_right _ (mem_map_of_mem hs))
      (fdiv_mem_extent h.holds hs hx)
    rw [Int.fdiv_eq_ediv_of_nonneg _ hpage.le] at hlo hhi
    refine ⟨(Int.ediv_nonneg_iff_of_pos hpage).mp hlo, ?_⟩
    -- the pages do not reach beyond the bytes the pool was made with
    have hcap : (p.alloc.totalPages * p.alloc.page : ℤ) ≤ p.capacity := by
      rw [h.pool.total, h.pool.page]
      exact_mod_cast Nat.div_mul_le_self p.capacity stagingPage
    exact ((Int.ediv_lt_iff_lt_mul hpage).mp hhi).trans_le hcap
  asleep := fun n hn => alloc_eq_none h.holds (h.sizes n (mem_append_left _ hn)) (h.asleep n hn)
  returns := fun _ he => (h.call he).imp fun _ hq => hq.1

/-- **The staging pool is safe and loses no wake-up**, whatever the threads do with it and in
whatever order. -/
theorem always_sound (nbytes : ℕ) (es : List Op) (h : Each step Allowed (init nbytes) es) :
    Always step Sound (init nbytes) es := by
  have hinit : (init nbytes).Inv := ⟨holds_init .., .refl _, by simp [init], by simp [init]⟩
  have hinv : Always step Inv (init nbytes) es := by
    refine Each.always hinit (fun p e q hp he hstep => ?_) h
    obtain ⟨q', hcall, hq⟩ := hp.call he
    rw [step, hcall] at hstep
    exact Option.some_inj.mp hstep ▸ hq
  exact fun es₁ es₂ p hes hrun => (hinv es₁ es₂ p hes hrun).sound

/-- A second caller sleeps until the first one gives its slice back. -/
theorem always_sound_two_callers :
    Always step Sound (init stagingPage)
      [.acquire 5 true, .acquire 7 true, .release ⟨0, 5⟩, .retry 7 true] :=
  always_sound _ _ (by decide)

end StagingPool

end CacheFlow
