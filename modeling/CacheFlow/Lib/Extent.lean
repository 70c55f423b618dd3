import Mathlib

/-!
# Tilings by extents

An extent is a run of consecutive page numbers. A list of extents tiles
`[0, n)` when the extents are pairwise disjoint, lie inside and leave nothing
out. That is a statement about sets; what an allocator's proofs move around is
`coverage`, the number of extents a page lies in, which is additive in the list
and blind to its order. `tiling_iff_coverage` is the bridge: a list tiles
`[0, n)` exactly when it covers each page of it once and no other page at all.

## Main results

* `coverage_split` — cutting an extent in two keeps the coverage.
* `Apart.isMaximalRun_iff` — extents that do not touch are the maximal runs of what they cover.
-/

/-- A run of consecutive pages. -/
structure Extent where
  /-- The first page. -/
  start : ℤ
  len : ℤ
  deriving DecidableEq, Repr

namespace Extent

open List

/-- The page numbers of an extent. -/
def pages (e : Extent) : Set ℤ := Set.Ico e.start (e.start + e.len)

theorem mem_pages {e : Extent} {p : ℤ} : p ∈ e.pages ↔ e.start ≤ p ∧ p < e.start + e.len := Iff.rfl

instance (e : Extent) (p : ℤ) : Decidable (p ∈ e.pages) := decidable_of_iff _ mem_pages.symm

theorem start_mem_pages {e : Extent} (h : 0 < e.len) : e.start ∈ e.pages := by
  rw [mem_pages]
  omega

theorem disjoint_iff {e f : Extent} (he : 0 < e.len) (hf : 0 < f.len) :
    Disjoint e.pages f.pages ↔ e.start + e.len ≤ f.start ∨ f.start + f.len ≤ e.start := by
  rw [Set.disjoint_left]
  constructor
  · intro h
    by_contra hcon
    have hmem := @h (max e.start f.start)
    simp only [mem_pages] at hmem
    omega
  · intro h p hp hp'
    rw [mem_pages] at hp hp'
    omega

end Extent

/-! ### Coverage -/

/-- How many extents of a list a page lies in. -/
def coverage (l : List Extent) (p : ℤ) : ℕ := l.countP fun e => p ∈ e.pages

@[simp] theorem coverage_nil (p : ℤ) : coverage [] p = 0 := rfl

@[simp] theorem coverage_append (l l' : List Extent) (p : ℤ) :
    coverage (l ++ l') p = coverage l p + coverage l' p := by
  simp [coverage, List.countP_append]

theorem coverage_cons (e : Extent) (l : List Extent) (p : ℤ) :
    coverage (e :: l) p = coverage [e] p + coverage l p := coverage_append [e] l p

theorem coverage_singleton (e : Extent) (p : ℤ) :
    coverage [e] p = if p ∈ e.pages then 1 else 0 := by
  simp [coverage, List.countP_cons]

theorem coverage_congr {l l' : List Extent} (h : l.Perm l') (p : ℤ) :
    coverage l p = coverage l' p := h.countP_eq _

theorem coverage_pos_iff {l : List Extent} {p : ℤ} : 0 < coverage l p ↔ ∃ e ∈ l, p ∈ e.pages := by
  simp [coverage, List.countP_pos_iff]

theorem coverage_split (s : ℤ) {a b : ℤ} (ha : 0 ≤ a) (hb : 0 ≤ b) (p : ℤ) :
    coverage [⟨s, a + b⟩] p = coverage [⟨s, a⟩] p + coverage [⟨s + a, b⟩] p := by
  simp only [coverage_singleton, Extent.mem_pages]
  split_ifs <;> omega

/-- Covering no page twice is pairwise disjointness. -/
theorem coverage_le_one_iff {l : List Extent} :
    (∀ p, coverage l p ≤ 1) ↔ l.Pairwise fun e f => Disjoint e.pages f.pages := by
  induction l with
  | nil => simp
  | cons e l ih =>
    rw [List.pairwise_cons, ← ih]
    constructor
    · intro h
      refine ⟨fun f hf => Set.disjoint_left.mpr fun p hp hp' => ?_, fun p => ?_⟩
      · have h1 := h p
        have h2 : 0 < coverage l p := coverage_pos_iff.mpr ⟨f, hf, hp'⟩
        rw [coverage_cons, coverage_singleton, if_pos hp] at h1
        omega
      · have h1 := h p
        rw [coverage_cons] at h1
        omega
    · rintro ⟨hdis, hle⟩ p
      rw [coverage_cons, coverage_singleton]
      have h1 := hle p
      by_cases hp : p ∈ e.pages
      · -- no other extent of the list reaches a page of the head
        have h0 : ¬ 0 < coverage l p := by
          rw [coverage_pos_iff]
          rintro ⟨f, hf, hp'⟩
          exact Set.disjoint_left.mp (hdis f hf) hp hp'
        rw [if_pos hp]
        omega
      · rw [if_neg hp]
        omega

/-! ### Tilings -/

/-- A list of extents partitions the pages `[0, n)`. -/
structure Tiling (n : ℤ) (l : List Extent) : Prop where
  disjoint : l.Pairwise fun e f => Disjoint e.pages f.pages
  inside : ∀ e ∈ l, e.pages ⊆ Set.Ico 0 n
  covers : ∀ p ∈ Set.Ico 0 n, ∃ e ∈ l, p ∈ e.pages

/-- **A list tiles `[0, n)` exactly when it covers each of its pages once, and no
other page.** -/
theorem tiling_iff_coverage {n : ℤ} {l : List Extent} :
    Tiling n l ↔ ∀ p, coverage l p = if 0 ≤ p ∧ p < n then 1 else 0 := by
  constructor
  · intro h p
    have hle := coverage_le_one_iff.mpr h.disjoint p
    by_cases hp : 0 ≤ p ∧ p < n
    · rw [if_pos hp]
      have hpos : 0 < coverage l p := coverage_pos_iff.mpr (h.covers p hp)
      omega
    · rw [if_neg hp]
      by_contra hne
      obtain ⟨e, he, hpe⟩ := coverage_pos_iff.mp (Nat.pos_of_ne_zero hne)
      exact hp (h.inside e he hpe)
  · intro h
    refine ⟨coverage_le_one_iff.mp fun p => ?_, fun e he p hp => ?_, fun p hp => ?_⟩
    · rw [h p]
      split_ifs <;> omega
    · have hpos := coverage_pos_iff.mpr ⟨e, he, hp⟩
      rw [h p] at hpos
      by_contra hcon
      rw [if_neg (show ¬ (0 ≤ p ∧ p < n) from hcon)] at hpos
      exact absurd hpos (lt_irrefl 0)
    · rw [← coverage_pos_iff, h p, if_pos (show 0 ≤ p ∧ p < n from hp)]
      exact Nat.one_pos

theorem Tiling.coverage_le_one {n : ℤ} {l : List Extent} (h : Tiling n l) (p : ℤ) :
    coverage l p ≤ 1 := coverage_le_one_iff.mpr h.disjoint p

theorem Tiling.congr {n : ℤ} {l l' : List Extent} (h : Tiling n l)
    (hcov : ∀ p, coverage l' p = coverage l p) : Tiling n l' := by
  rw [tiling_iff_coverage] at h ⊢
  intro p
  rw [hcov p, h p]

/-! ### Maximal runs

The extents of a set of pages: the runs that cannot be made longer on either side. A list of
extents that keep clear of each other is the list of the maximal runs of the pages it covers. -/

/-- A nonempty run of pages of the set, with no page of it just before or just after. -/
structure Extent.IsMaximalRun (S : Set ℤ) (e : Extent) : Prop where
  pos : 0 < e.len
  subset : e.pages ⊆ S
  before : e.start - 1 ∉ S
  after : e.start + e.len ∉ S

/-- Nonempty extents in order, with a page between any two. -/
structure Apart (l : List Extent) : Prop where
  sorted : l.Pairwise fun e f => e.start + e.len < f.start
  pos : ∀ e ∈ l, 0 < e.len

namespace Apart

variable {l : List Extent} {S : Set ℤ} {e f : Extent}

theorem cases (h : Apart l) (he : e ∈ l) (hf : f ∈ l) :
    e = f ∨ e.start + e.len < f.start ∨ f.start + f.len < e.start := by
  obtain ⟨l₁, l₂, rfl⟩ := List.append_of_mem he
  obtain ⟨-, hcons, hcross⟩ := List.pairwise_append.mp h.sorted
  rcases List.mem_append.mp hf with hf | hf
  · exact Or.inr (Or.inr (hcross f hf e (by simp)))
  · rcases List.mem_cons.mp hf with rfl | hf
    · exact Or.inl rfl
    · exact Or.inr (Or.inl ((List.pairwise_cons.mp hcons).1 f hf))

section

variable (h : Apart l) (hS : ∀ p, p ∈ S ↔ ∃ e ∈ l, p ∈ e.pages)
include h hS

theorem isMaximalRun (he : e ∈ l) : e.IsMaximalRun S := by
  refine ⟨h.pos e he, fun p hp => (hS p).mpr ⟨e, he, hp⟩, fun hmem => ?_, fun hmem => ?_⟩
  all_goals
    obtain ⟨f, hf, hp⟩ := (hS _).mp hmem
    rw [Extent.mem_pages] at hp
    have hepos := h.pos e he
    rcases h.cases he hf with rfl | hlt | hlt <;> omega

/-- **A run of covered pages lies in one of the extents.** -/
theorem exists_of_run (hpos : 0 < e.len)
    (hrun : e.pages ⊆ S) : ∃ f ∈ l, f.start ≤ e.start ∧ e.start + e.len ≤ f.start + f.len := by
  obtain ⟨f, hf, hmem⟩ := (hS _).mp (hrun (Extent.start_mem_pages hpos))
  rw [Extent.mem_pages] at hmem
  refine ⟨f, hf, hmem.1, ?_⟩
  by_contra hlt
  -- the run would go on past the end of the extent, where no page is covered
  refine (h.isMaximalRun hS hf).after (hrun ?_)
  rw [Extent.mem_pages]
  omega

/-- **The extents are the maximal runs.** -/
theorem isMaximalRun_iff : e.IsMaximalRun S ↔ e ∈ l := by
  constructor
  · intro he
    obtain ⟨f, hf, hle, hge⟩ := h.exists_of_run hS he.pos he.subset
    have hfrun := h.isMaximalRun hS hf
    have hpos := he.pos
    -- a longer extent would have the page before the run, or the one after it
    have hstart : e.start = f.start := by
      by_contra hne
      refine he.before (hfrun.subset ?_)
      rw [Extent.mem_pages]
      omega
    have hlen : e.len = f.len := by
      by_contra hne
      refine he.after (hfrun.subset ?_)
      rw [Extent.mem_pages]
      omega
    have hef : e = f := by
      cases e
      simp only at hstart hlen
      rw [hstart, hlen]
    exact hef ▸ hf
  · exact h.isMaximalRun hS

end

end Apart
