import CacheFlow.Server.Allocator

/-!
# First fit

What the extent allocator is for: whatever was allocated and given back before, its free extents are
the maximal runs of the pages that no live allocation covers. An allocation is then served at the
lowest offset where it fits, and is refused only where it fits nowhere; and since the maximal runs
depend on the live allocations alone, so does the allocator's state.

A pool smaller than a page is the one exception to the form of the state: its single free extent has
no pages. It never changes, as no allocation is ever served.

## Main definitions

* `ExtentAllocator.FirstFit` — what the allocator promises about its state and its next call.

## Main results

* `ExtentAllocator.reach_firstFit` — **after any run of calls.**
-/

namespace CacheFlow.ExtentAllocator

open List

/-- What a run of calls leads to: the allocator, and the allocations that are live. Sizes are
positive, and what is freed is a live allocation, with the size it was made with. -/
inductive Reach (totalBytes page : ℕ) (hpage : 0 < page) : ExtentAllocator → List Block → Prop where
  | init : Reach totalBytes page hpage (init totalBytes page hpage) []
  /-- An allocation that is served. -/
  | alloc {a a' : ExtentAllocator} {bs : List Block} {n off : ℤ} :
      Reach totalBytes page hpage a bs → 1 ≤ n → alloc n a = .ok (some off) a' →
        Reach totalBytes page hpage a' (⟨off, n⟩ :: bs)
  /-- An allocation that is refused. -/
  | full {a a' : ExtentAllocator} {bs : List Block} {n : ℤ} :
      Reach totalBytes page hpage a bs → 1 ≤ n → alloc n a = .ok none a' →
        Reach totalBytes page hpage a' bs
  /-- A live allocation is given back. -/
  | free {a a' : ExtentAllocator} {bs : List Block} {b : Block} :
      Reach totalBytes page hpage a bs → b ∈ bs → free b.offset b.size a = .ok () a' →
        Reach totalBytes page hpage a' (bs.erase b)

/-- The pages of the pool that no live allocation covers. -/
def freePages (a : ExtentAllocator) (bs : List Block) : Set ℤ :=
  {p | (0 ≤ p ∧ p < a.totalPages) ∧ ∀ b ∈ bs, p ∉ (a.extent b).pages}

/-- The offsets, in pages, at which an allocation would fit. -/
def fits (a : ExtentAllocator) (bs : List Block) (n : ℤ) : Set ℤ :=
  {s | (⟨s, a.pagesFor n⟩ : Extent).pages ⊆ a.freePages bs}

/-- What the allocator promises when `bs` are the live allocations. -/
structure FirstFit (a : ExtentAllocator) (bs : List Block) : Prop where
  sorted : a.starts.Pairwise (· < ·)
  keys : ∀ s, (∃ n, a.lens.get? s = some n) ↔ s ∈ a.starts
  pos : 0 < a.totalPages → ∀ s n, a.lens.get? s = some n → 0 < n
  /-- No two free extents touch or overlap. -/
  apart : ∀ s n t m, a.lens.get? s = some n → a.lens.get? t = some m → s < t → s + n < t
  /-- The free extents are the maximal runs of the free pages. -/
  maximal : ∀ s n, (a.lens.get? s = some n ∧ 0 < n) ↔
    (⟨s, n⟩ : Extent).IsMaximalRun (a.freePages bs)
  /-- `alloc` returns the lowest offset at which the pages are free, or there is none. -/
  alloc : ∀ n, 1 ≤ n → Sat (ExtentAllocator.alloc n) a fun off _ =>
    match off with
    | none => a.fits bs n = ∅
    | some off => ∃ s, off = s * a.page ∧ IsLeast (a.fits bs n) s
  /-- `free` of a live allocation returns. -/
  free : ∀ b ∈ bs, Sat (ExtentAllocator.free b.offset b.size) a fun _ _ => True

/-- The allocators cannot be told apart: the same starts, the same lengths for them, the same count.
The lengths are compared as dictionaries are, by what they hold. -/
structure SameState (a a' : ExtentAllocator) : Prop where
  pool : SamePool a a'
  starts : a'.starts = a.starts
  lens : ∀ s, a'.lens.get? s = a.lens.get? s
  used : a'.usedPages = a.usedPages

/-! ### Free pages and free extents -/

variable {a a' : ExtentAllocator} {bs bs' : List Block} {n : ℤ}

theorem Holds.mem_freePages (h : a.Holds bs) (p : ℤ) :
    p ∈ a.freePages bs ↔ ∃ e ∈ a.freeExtents, p ∈ e.pages := by
  constructor
  · rintro ⟨hin, hnot⟩
    obtain ⟨e, he, hp⟩ := h.tiling.covers p hin
    rcases mem_append.mp he with he | he
    · exact ⟨e, he, hp⟩
    · obtain ⟨b, hb, rfl⟩ := mem_map.mp he
      exact absurd hp (hnot b hb)
  · rintro ⟨e, he, hp⟩
    refine ⟨h.tiling.inside e (mem_append_left _ he) hp, fun b hb hpb => ?_⟩
    have hdis := (pairwise_append.mp h.tiling.disjoint).2.2 e he (a.extent b)
      (mem_map_of_mem hb)
    exact Set.disjoint_left.mp hdis hp hpb

theorem Canonical.apart (h : a.Canonical) : Apart a.freeExtents := by
  constructor
  · rw [freeExtents, pairwise_map]
    exact h.sorted
  · intro e he
    obtain ⟨s, hs, rfl⟩ := mem_map.mp he
    exact h.pos s hs

theorem Canonical.get?_iff (h : a.Canonical) {s n : ℤ} :
    a.lens.get? s = some n ↔ (⟨s, n⟩ : Extent) ∈ a.freeExtents := by
  rw [freeExtents, mem_map]
  constructor
  · intro hn
    exact ⟨s, (h.keys s).mp ⟨n, hn⟩, by rw [lenAt_of_get? hn]⟩
  · rintro ⟨t, ht, heq⟩
    obtain ⟨rfl, rfl⟩ := Extent.mk.injEq .. ▸ heq
    exact h.get? ht

theorem freePages_of_total (h : a.totalPages = 0) : a.freePages bs = ∅ := by
  refine Set.eq_empty_of_forall_notMem fun p hp => ?_
  obtain ⟨h0, hlt⟩ := hp.1
  rw [h] at hlt
  omega

theorem fits_of_total (h : a.totalPages = 0) (hn : 1 ≤ n) : a.fits bs n = ∅ := by
  refine Set.eq_empty_of_forall_notMem fun s hs => ?_
  have hmem := hs (Extent.start_mem_pages (a.pagesFor_pos hn))
  rw [freePages_of_total h] at hmem
  exact hmem

/-! ### The lowest fit -/

theorem Canonical.sat_alloc_first (h : a.Canonical) (n : ℤ) :
    Sat (alloc n) a fun off _ =>
      match off with
      | none => ∀ s ∈ a.starts, a.lenAt s < a.pagesFor n
      | some off => ∃ s ∈ a.starts, off = s * a.page ∧ a.pagesFor n ≤ a.lenAt s ∧
          ∀ t ∈ a.starts, t < s → a.lenAt t < a.pagesFor n := by
  unfold alloc
  simp only [sat_bind, sat_get]
  rcases firstFit_cases a.lens (a.pagesFor n) a.starts 0 with
    ⟨s, hs, hnone⟩ | ⟨hnone, hall⟩ | ⟨pre, s, ln, post, hl, hs, hfit, hpre, hres⟩
  · rw [h.get? hs] at hnone
    cases hnone
  · rw [hnone, sat_pure]
    intro s hs
    obtain ⟨m, hget, hlt⟩ := hall s hs
    rw [lenAt_of_get? hget]
    exact hlt
  · rw [hres]
    simp only [sat_bind, sat_set, sat_pure]
    refine ⟨s, by simp [hl], rfl, (lenAt_of_get? hs).symm ▸ hfit, fun t ht hts => ?_⟩
    -- the starts are in order, so a lower one was passed by the scan
    have hlt := h.lt
    rw [hl] at ht hlt
    obtain ⟨-, hcons, -⟩ := pairwise_append.mp hlt
    rcases mem_append.mp ht with ht | ht
    · obtain ⟨m, hget, hm⟩ := hpre t ht
      rw [lenAt_of_get? hget]
      exact hm
    · rcases mem_cons.mp ht with rfl | ht
      · exact absurd hts (lt_irrefl t)
      · exact absurd hts ((pairwise_cons.mp hcons).1 t ht).not_gt

/-- **An allocation is served at the lowest free run**, and refused if there is none. -/
theorem Holds.sat_alloc_least (h : a.Holds bs) (hn : 1 ≤ n) :
    Sat (alloc n) a fun off _ =>
      match off with
      | none => a.fits bs n = ∅
      | some off => ∃ s, off = s * a.page ∧ IsLeast (a.fits bs n) s := by
  have hneed := a.pagesFor_pos hn
  rcases h.wf with hc | hd
  · -- a run of free pages lies in one free extent, as they do not touch
    have hrun : ∀ t ∈ a.fits bs n, ∃ s ∈ a.starts, s ≤ t ∧ a.pagesFor n ≤ a.lenAt s := by
      intro t ht
      obtain ⟨f, hf, hle, hge⟩ := hc.apart.exists_of_run h.mem_freePages hneed ht
      obtain ⟨s, hs, rfl⟩ := mem_map.mp hf
      simp only at hle hge
      exact ⟨s, hs, hle, by omega⟩
    refine (hc.sat_alloc_first n).mono fun off _ hres => ?_
    cases off with
    | none =>
      refine Set.eq_empty_of_forall_notMem fun t ht => ?_
      obtain ⟨s, hs, -, hge⟩ := hrun t ht
      have := hres s hs
      omega
    | some off =>
      obtain ⟨s, hs, rfl, hfit, hlow⟩ := hres
      refine ⟨s, rfl, fun p hp => (h.mem_freePages p).mpr ?_, fun t ht => ?_⟩
      · refine ⟨⟨s, a.lenAt s⟩, mem_map.mpr ⟨s, hs, rfl⟩, ?_⟩
        rw [Extent.mem_pages] at hp ⊢
        simp only at hp ⊢
        omega
      · obtain ⟨u, hu, hle, hge⟩ := hrun t ht
        by_contra hlt
        have := hlow u hu (by omega)
        omega
  · refine (h.sat_alloc (by omega)).mono fun off a' hres => ?_
    cases off with
    | none => exact fits_of_total hd.total hn
    | some off =>
      -- an allocation in a pool without pages cannot have been served
      exfalso
      obtain ⟨hholds, hsame⟩ := hres
      have hin := hholds.tiling.inside (a'.extent ⟨off, n⟩) (by simp)
        (Extent.start_mem_pages (a'.pagesFor_pos hn))
      rw [hsame.total, hd.total, Set.mem_Ico, Nat.cast_zero] at hin
      omega

/-! ### The state is a function of the live allocations -/

theorem Holds.nodup (h : a.Holds bs) : bs.Nodup := by
  have hdis := (pairwise_append.mp h.tiling.disjoint).2.1
  rw [pairwise_map] at hdis
  refine hdis.imp_of_mem fun {b c} hb _ hbc heq => ?_
  subst heq
  have hmem := Extent.start_mem_pages (e := a.extent b) (a.pagesFor_pos (h.pos b hb))
  exact Set.disjoint_left.mp hbc hmem hmem

theorem SamePool.freePages (hpool : SamePool a a') (hmem : ∀ b, b ∈ bs ↔ b ∈ bs') :
    a'.freePages bs' = a.freePages bs := by
  ext p
  simp only [ExtentAllocator.freePages, Set.mem_ofPred_eq, hpool.total, hpool.extent, hmem]

theorem Holds.get?_iff_isMaximalRun (h : a.Holds bs) (hc : a.Canonical) {s n : ℤ} :
    a.lens.get? s = some n ↔ (⟨s, n⟩ : Extent).IsMaximalRun (a.freePages bs) := by
  rw [hc.get?_iff, hc.apart.isMaximalRun_iff h.mem_freePages]

theorem Holds.usedPages_eq (h : a.Holds bs) (h' : a'.Holds bs') (hpool : SamePool a a')
    (hmem : ∀ b, b ∈ bs ↔ b ∈ bs') : a'.usedPages = a.usedPages := by
  have hperm : bs.Perm bs' := (perm_ext_iff_of_nodup h.nodup h'.nodup).mpr hmem
  rw [h.used, h'.used, (hperm.symm.map _).sum_eq]
  simp only [hpool.pagesFor]

/-- **The live allocations determine the state.** -/
theorem Holds.sameState (h : a.Holds bs) (h' : a'.Holds bs') (hc : a.Canonical)
    (hc' : a'.Canonical) (hpool : SamePool a a') (hmem : ∀ b, b ∈ bs ↔ b ∈ bs') :
    SameState a a' := by
  have hlens : ∀ s, a'.lens.get? s = a.lens.get? s := by
    intro s
    refine Option.ext fun n => ?_
    rw [h.get?_iff_isMaximalRun hc, h'.get?_iff_isMaximalRun hc', hpool.freePages hmem]
  refine ⟨hpool, ?_, hlens, h.usedPages_eq h' hpool hmem⟩
  refine hc'.lt.eq_of_mem_iff hc.lt fun s => ?_
  rw [← hc.keys, ← hc'.keys, hlens]

/-! ### Runs -/

variable {totalBytes page : ℕ} {hpage : 0 < page}

theorem Reach.holds (h : Reach totalBytes page hpage a bs) :
    a.Holds bs ∧ SamePool (ExtentAllocator.init totalBytes page hpage) a := by
  induction h with
  | init => exact ⟨holds_init totalBytes page hpage, .refl _⟩
  | alloc _ hn heq ih =>
    obtain ⟨hholds, hsame⟩ := (ih.1.sat_alloc (by omega)).of_ok heq
    exact ⟨hholds, ih.2.trans hsame⟩
  | full _ hn heq ih =>
    obtain ⟨rfl, -⟩ := (ih.1.sat_alloc (by omega)).of_ok heq
    exact ih
  | free _ hb heq ih =>
    obtain ⟨hholds, hsame⟩ := (ih.1.perm (perm_cons_erase hb)).sat_free.of_ok heq
    exact ⟨hholds, ih.2.trans hsame⟩

/-- A pool without pages stays as it was made. -/
theorem Reach.degenerate (h : Reach totalBytes page hpage a bs) (htotal : totalBytes / page = 0) :
    a.Degenerate ∧ bs = [] ∧ a.usedPages = 0 := by
  induction h with
  | init =>
    refine ⟨⟨htotal, rfl, ?_⟩, rfl, rfl⟩
    rw [ExtentAllocator.init, htotal]
    rfl
  | alloc hreach hn heq ih =>
    -- nothing fits, so nothing is served
    have hleast := (hreach.holds.1.sat_alloc_least hn).of_ok heq
    obtain ⟨s, -, hs, -⟩ := hleast
    rw [fits_of_total ih.1.total hn] at hs
    exact absurd hs (Set.notMem_empty s)
  | full hreach hn heq ih =>
    obtain ⟨rfl, -⟩ := (hreach.holds.1.sat_alloc (by omega)).of_ok heq
    exact ih
  | free _ hb _ ih =>
    rw [ih.2.1] at hb
    exact absurd hb (not_mem_nil)

theorem Holds.canonical (h : a.Holds bs) (htotal : 0 < a.totalPages) : a.Canonical := by
  rcases h.wf with hc | hd
  · exact hc
  · have := hd.total
    omega

theorem Holds.firstFit (h : a.Holds bs) (hc : a.Canonical) : a.FirstFit bs where
  sorted := hc.lt
  keys := hc.keys
  pos := fun _ s n hn => lenAt_of_get? hn ▸ hc.pos s ((hc.keys s).mp ⟨n, hn⟩)
  apart := fun s n t m hn hm hlt => by
    have hpos := lenAt_of_get? hm ▸ hc.pos t ((hc.keys t).mp ⟨m, hm⟩)
    rcases hc.apart.cases (hc.get?_iff.mp hn) (hc.get?_iff.mp hm) with heq | h | h
    · have := congrArg Extent.start heq
      simp only at this
      omega
    · exact h
    · simp only at h
      omega
  maximal := fun s n => by
    rw [← h.get?_iff_isMaximalRun hc]
    constructor
    · exact fun hn => hn.1
    · exact fun hn => ⟨hn, lenAt_of_get? hn ▸ hc.pos s ((hc.keys s).mp ⟨n, hn⟩)⟩
  alloc := fun _ hn => h.sat_alloc_least hn
  free := fun _ hb => (h.perm (perm_cons_erase hb)).sat_free.mono fun _ _ _ => trivial

theorem Degenerate.get?_eq_some_iff (h : a.Degenerate) {s n : ℤ} :
    a.lens.get? s = some n ↔ s = 0 ∧ n = 0 := by
  rw [← Dict.mem_items_iff, h.lens]
  simp

theorem Degenerate.firstFit (hd : a.Degenerate) (h : a.Holds []) : a.FirstFit [] where
  sorted := by
    rw [hd.starts]
    exact pairwise_singleton _ 0
  keys := by
    intro s
    simp only [hd.get?_eq_some_iff, hd.starts, mem_singleton]
    exact ⟨fun h => h.choose_spec.1, fun hs => ⟨0, hs, rfl⟩⟩
  pos := fun hpos => absurd hd.total hpos.ne'
  apart := by
    intro s n t m hn hm hlt
    obtain ⟨rfl, -⟩ := hd.get?_eq_some_iff.mp hn
    obtain ⟨rfl, -⟩ := hd.get?_eq_some_iff.mp hm
    exact absurd hlt (lt_irrefl 0)
  maximal := by
    intro s n
    constructor
    · rintro ⟨hn, hpos⟩
      obtain ⟨-, rfl⟩ := hd.get?_eq_some_iff.mp hn
      exact absurd hpos (lt_irrefl 0)
    · intro hrun
      have hmem := hrun.subset (Extent.start_mem_pages hrun.pos)
      rw [freePages_of_total hd.total] at hmem
      exact absurd hmem (Set.notMem_empty _)
  alloc := fun _ hn => h.sat_alloc_least hn
  free := fun b hb => absurd hb not_mem_nil

/-- **The extent allocator is a first-fit allocator in canonical form.** After any run of calls its
free extents are the maximal runs of free pages, the next allocation is served at the lowest offset
where it fits or refused because there is none, and two runs that leave the same allocations live
leave the same state. -/
theorem reach_firstFit (totalBytes page : ℕ) (hpage : 0 < page) :
    (∀ a bs, Reach totalBytes page hpage a bs → a.FirstFit bs) ∧
    ∀ a bs a' bs', Reach totalBytes page hpage a bs → Reach totalBytes page hpage a' bs' →
      (∀ b, b ∈ bs ↔ b ∈ bs') → SameState a a' := by
  have hpool : ∀ {a bs a' bs'}, Reach totalBytes page hpage a bs →
      Reach totalBytes page hpage a' bs' → SamePool a a' := fun h h' =>
    ⟨h'.holds.2.page.trans h.holds.2.page.symm, h'.holds.2.total.trans h.holds.2.total.symm⟩
  rcases Nat.eq_zero_or_pos (totalBytes / page) with hz | hpos
  · refine ⟨fun a bs h => ?_, fun a bs a' bs' h h' _ => ?_⟩
    · obtain ⟨hd, rfl, -⟩ := h.degenerate hz
      exact hd.firstFit h.holds.1
    · obtain ⟨hd, -, hused⟩ := h.degenerate hz
      obtain ⟨hd', -, hused'⟩ := h'.degenerate hz
      refine ⟨hpool h h', hd'.starts.trans hd.starts.symm, fun s => ?_, hused'.trans hused.symm⟩
      refine Option.ext fun n => ?_
      rw [hd.get?_eq_some_iff, hd'.get?_eq_some_iff]
  · have hcan : ∀ {a bs}, Reach totalBytes page hpage a bs → a.Canonical := fun h =>
      h.holds.1.canonical (h.holds.2.total.symm ▸ hpos)
    refine ⟨fun a bs h => h.holds.1.firstFit (hcan h), fun a bs a' bs' h h' hmem => ?_⟩
    exact h.holds.1.sameState h'.holds.1 (hcan h) (hcan h') (hpool h h') hmem

/-- A pool of two pages after an allocation of 5 bytes with pages of 4: both are used, and the next
allocation is refused. -/
theorem reach_firstFit_two_pages : ∃ a, Reach 8 4 (by decide) a [⟨0, 5⟩] ∧ a.FirstFit [⟨0, 5⟩] := by
  have hreach : Reach 8 4 (by decide) _ [⟨0, 5⟩] := .alloc .init (by decide) rfl
  exact ⟨_, hreach, (reach_firstFit 8 4 (by decide)).1 _ _ hreach⟩

end CacheFlow.ExtentAllocator
