import CacheFlow.Lib.Bisect
import CacheFlow.Lib.Dict
import CacheFlow.Lib.Exec
import CacheFlow.Lib.Extent

/-!
# The extent allocator

`ExtentAllocator` of `server/store.py`: a first-fit allocator of contiguous page
runs with coalescing frees. The free extents are kept twice over, as a sorted
list of starts and as a dictionary from starts to lengths; a start without a
length is a `KeyError` waiting to happen. Sizes are whatever integer the caller
passes, as in the source: nothing there rejects a size of zero or below, and the
specifications below are for positive sizes.

## Main definitions

* `ExtentAllocator.Holds a bs` — `a` is canonical, and `bs` are the live allocations.

## Main results

* `ExtentAllocator.Holds.sat_alloc`, `ExtentAllocator.Holds.sat_free` — the two methods.
-/

namespace CacheFlow

open List Dict

/-- The allocator's state. -/
structure ExtentAllocator where
  /-- Bytes in a page; a page size of zero is a division by zero at construction. -/
  page : ℕ
  page_pos : 0 < page
  totalPages : ℕ
  /-- The starts of the free extents, in order. -/
  starts : List ℤ
  /-- The length of the free extent at each start. -/
  lens : Dict ℤ ℤ
  usedPages : ℤ
  deriving DecidableEq

namespace ExtentAllocator

/-- The constructor: one free extent with the whole pool. -/
def init (totalBytes page : ℕ) (hpage : 0 < page) : ExtentAllocator where
  page := page
  page_pos := hpage
  totalPages := totalBytes / page
  starts := [0]
  lens := empty.set 0 (totalBytes / page : ℕ)
  usedPages := 0

/-- Pages needed for a number of bytes: `-(-nbytes // page)`. -/
def pagesFor (a : ExtentAllocator) (nbytes : ℤ) : ℤ := -((-nbytes).fdiv a.page)

/-- Bytes in the pages handed out. -/
def usedBytes (a : ExtentAllocator) : ℤ := a.usedPages * a.page

/-- The scan of `alloc`: the first free extent of at least `need` pages, as its
position from `i` on, its start and its length. -/
def firstFit (lens : Dict ℤ ℤ) (need : ℤ) : ℕ → List ℤ → Except PyErr (Option (ℕ × ℤ × ℤ))
  | _, [] => .ok none
  | i, s :: rest =>
      match lens.get? s with
      | none => .error .keyError
      | some ln => if need ≤ ln then .ok (some (i, s, ln)) else firstFit lens need (i + 1) rest

/-- Take the first `need` pages of the free extent at position `i`. -/
def carve (a : ExtentAllocator) (need : ℤ) (i : ℕ) (s ln : ℤ) : ExtentAllocator :=
  if need < ln then
    { a with
      starts := (a.starts.eraseIdx i).insertIdx i (s + need)
      lens := (a.lens.erase s).set (s + need) (ln - need)
      usedPages := a.usedPages + need }
  else
    { a with
      starts := a.starts.eraseIdx i
      lens := a.lens.erase s
      usedPages := a.usedPages + need }

/-- Allocate `nbytes`: a byte offset, or `none` if no contiguous run fits. -/
def alloc (nbytes : ℤ) : EStateM PyErr ExtentAllocator (Option ℤ) := do
  let a ← get
  let need := a.pagesFor nbytes
  match firstFit a.lens need 0 a.starts with
  | .error e => throw e
  | .ok none => pure none
  | .ok (some (i, s, ln)) =>
    set (a.carve need i s ln)
    pure (some (s * a.page))

/-- The first half of `free`: absorb the free extent that starts where the freed
one ends, if it is the one at position `i`. -/
def mergeNext (i : ℕ) (s n : ℤ) : EStateM PyErr ExtentAllocator ℤ := do
  let a ← get
  if a.starts[i]? = some (s + n) then
    set { a with starts := a.starts.eraseIdx i }
    match a.lens.get? (s + n) with
    | none => throw .keyError
    | some m =>
      modify fun a => { a with lens := a.lens.erase (s + n) }
      pure (n + m)
  else
    pure n

/-- The last step of `free`: a new free extent at position `i`. -/
def insertFree (i : ℕ) (s n : ℤ) : EStateM PyErr ExtentAllocator Unit :=
  modify fun a => { a with starts := a.starts.insertIdx i s, lens := a.lens.set s n }

/-- The second half of `free`: grow the free extent that ends where the freed one
starts, if it is the one before position `i`; otherwise insert a new one. -/
def mergePrev (i : ℕ) (s n : ℤ) : EStateM PyErr ExtentAllocator Unit := do
  let a ← get
  if 0 < i then
    match a.starts[i - 1]? with
    | none => throw .indexError
    | some prev =>
      match a.lens.get? prev with
      | none => throw .keyError
      | some m =>
        if prev + m = s then set { a with lens := a.lens.set prev (m + n) }
        else insertFree i s n
  else
    insertFree i s n

/-- Give back the pages of an allocation of `nbytes` at a byte offset. -/
def free (offset nbytes : ℤ) : EStateM PyErr ExtentAllocator Unit := do
  let a ← get
  let s := offset.fdiv a.page
  let n := a.pagesFor nbytes
  set { a with usedPages := a.usedPages - n }
  let i := bisectLeft a.starts s
  let n ← mergeNext i s n
  mergePrev i s n

/-! ### The free extents -/

/-- The length of the free extent at a start; zero if there is none. -/
def lenAt (a : ExtentAllocator) (s : ℤ) : ℤ := (a.lens.get? s).getD 0

/-- The free extents, in order. -/
def freeExtents (a : ExtentAllocator) : List Extent := a.starts.map fun s => ⟨s, a.lenAt s⟩

/-- The free extents are sorted and coalesced, and the two structures that hold
them agree. -/
structure Canonical (a : ExtentAllocator) : Prop where
  sorted : a.starts.Pairwise fun s t => s + a.lenAt s < t
  keys : ∀ s, (∃ n, a.lens.get? s = some n) ↔ s ∈ a.starts
  pos : ∀ s ∈ a.starts, 0 < a.lenAt s

/-- A pool smaller than a page: one free extent, of no pages, for ever. -/
structure Degenerate (a : ExtentAllocator) : Prop where
  total : a.totalPages = 0
  starts : a.starts = [0]
  lens : a.lens.items = [(0, 0)]

/-- The states an allocator can be in. -/
def Wf (a : ExtentAllocator) : Prop := a.Canonical ∨ a.Degenerate

/-- Nothing but the free extents and the page count has changed. -/
structure SamePool (a a' : ExtentAllocator) : Prop where
  page : a'.page = a.page
  total : a'.totalPages = a.totalPages

theorem SamePool.refl (a : ExtentAllocator) : SamePool a a := ⟨rfl, rfl⟩

variable {a : ExtentAllocator}

theorem SamePool.trans {b c : ExtentAllocator} (h : SamePool a b) (h' : SamePool b c) :
    SamePool a c := ⟨h'.page.trans h.page, h'.total.trans h.total⟩

theorem SamePool.pagesFor {a' : ExtentAllocator} (h : SamePool a a') (n : ℤ) :
    a'.pagesFor n = a.pagesFor n := by
  rw [ExtentAllocator.pagesFor, ExtentAllocator.pagesFor, h.page]

variable {nbytes : ℤ}

theorem pagesFor_pos (a : ExtentAllocator) (h : 0 < nbytes) : 0 < a.pagesFor nbytes := by
  have hp : (0 : ℤ) < a.page := by exact_mod_cast a.page_pos
  have hneg : (-nbytes).fdiv a.page < 0 := Int.fdiv_neg_of_neg_of_pos (by omega) hp
  rw [pagesFor]
  omega

theorem mul_page_fdiv (a : ExtentAllocator) (s : ℤ) : (s * a.page).fdiv a.page = s := by
  have hp : (a.page : ℤ) ≠ 0 := by exact_mod_cast a.page_pos.ne'
  exact Int.mul_fdiv_cancel s hp

variable {s : ℤ}

theorem lenAt_of_get? {n : ℤ} (h : a.lens.get? s = some n) : a.lenAt s = n := by
  rw [lenAt, h, Option.getD_some]

theorem Canonical.get? (h : a.Canonical) (hs : s ∈ a.starts) :
    a.lens.get? s = some (a.lenAt s) := by
  obtain ⟨n, hn⟩ := (h.keys s).mpr hs
  rw [hn, lenAt_of_get? hn]

theorem Canonical.lt (h : a.Canonical) : a.starts.Pairwise (· < ·) :=
  h.sorted.imp_of_mem fun hs _ hst => by
    have := h.pos _ hs
    omega

/-! ### First fit -/

/-- What the scan of `alloc` can report: an extent too small for every start it
passed, then one large enough, or none, or a start with no length. -/
theorem firstFit_cases (lens : Dict ℤ ℤ) (need : ℤ) (l : List ℤ) (i : ℕ) :
    (∃ s ∈ l, lens.get? s = none) ∨
    (firstFit lens need i l = .ok none ∧ ∀ s ∈ l, ∃ n, lens.get? s = some n ∧ n < need) ∨
    (∃ pre s ln post, l = pre ++ s :: post ∧ lens.get? s = some ln ∧ need ≤ ln ∧
      (∀ t ∈ pre, ∃ n, lens.get? t = some n ∧ n < need) ∧
      firstFit lens need i l = .ok (some (i + pre.length, s, ln))) := by
  induction l generalizing i with
  | nil => exact Or.inr (Or.inl ⟨rfl, by simp⟩)
  | cons s l ih =>
    cases hs : lens.get? s with
    | none => exact Or.inl ⟨s, by simp, hs⟩
    | some ln =>
      by_cases hfit : need ≤ ln
      · refine Or.inr (Or.inr ⟨[], s, ln, l, rfl, hs, hfit, by simp, ?_⟩)
        simp [firstFit, hs, hfit]
      · -- too small, so the search goes on behind it
        have hrec : firstFit lens need i (s :: l) = firstFit lens need (i + 1) l := by
          simp [firstFit, hs, hfit]
        rw [hrec]
        rcases ih (i + 1) with ⟨t, ht, hnone⟩ | ⟨hnone, hall⟩ | ⟨pre, t, n, post, hl, ht, hn, hpre, hres⟩
        · exact Or.inl ⟨t, mem_cons_of_mem s ht, hnone⟩
        · refine Or.inr (Or.inl ⟨hnone, fun t ht => ?_⟩)
          rcases mem_cons.mp ht with rfl | ht
          · exact ⟨ln, hs, by omega⟩
          · exact hall t ht
        · refine Or.inr (Or.inr ⟨s :: pre, t, n, post, by rw [hl]; rfl, ht, hn, fun u hu => ?_, ?_⟩)
          · rcases mem_cons.mp hu with rfl | hu
            · exact ⟨ln, hs, by omega⟩
            · exact hpre u hu
          · rw [hres, length_cons, show i + 1 + pre.length = i + (pre.length + 1) by omega]

/-- An allocator is canonical when its starts are listed with lengths `f` that
keep them apart, and its dictionary holds just those. -/
theorem Canonical.of_lens (a : ExtentAllocator) {l : List ℤ} (f : ℤ → ℤ)
    (hsorted : l.Pairwise fun x y => x + f x < y) (hpos : ∀ x ∈ l, 0 < f x)
    (hstarts : a.starts = l)
    (hlens : ∀ x, a.lens.get? x = if x ∈ l then some (f x) else none) :
    a.Canonical ∧ a.freeExtents = l.map fun s => ⟨s, f s⟩ := by
  have hlenAt : ∀ x ∈ l, a.lenAt x = f x := by
    intro x hx
    refine lenAt_of_get? ?_
    rw [hlens, if_pos hx]
  refine ⟨⟨?_, ?_, ?_⟩, ?_⟩
  · rw [hstarts]
    refine hsorted.imp_of_mem fun hx _ h => ?_
    rw [hlenAt _ hx]
    exact h
  · intro x
    rw [hstarts, hlens]
    by_cases hx : x ∈ l <;> simp [hx]
  · intro x hx
    rw [hstarts] at hx
    rw [hlenAt x hx]
    exact hpos x hx
  · rw [freeExtents, hstarts]
    exact map_congr_left fun x hx => by rw [hlenAt x hx]

theorem Canonical.get?_eq (h : a.Canonical) (x : ℤ) :
    a.lens.get? x = if x ∈ a.starts then some (a.lenAt x) else none := by
  by_cases hx : x ∈ a.starts
  · rw [if_pos hx, h.get? hx]
  · rw [if_neg hx]
    cases hn : a.lens.get? x with
    | none => rfl
    | some n => exact absurd ((h.keys x).mp ⟨n, hn⟩) hx

variable {pre post : List ℤ}

/-- **One free extent in place of another, or of none.** Everything `alloc` and
`free` do to the two structures has this shape: the extents before and after stay,
and the new one, `m` pages at `t`, keeps clear of them. -/
theorem Canonical.replace (a' : ExtentAllocator) {t m : ℤ}
    (hsorted : (pre ++ post).Pairwise fun x y => x + a.lenAt x < y)
    (hpos : ∀ x ∈ pre ++ post, 0 < a.lenAt x)
    (hm : 0 < m) (hpre : ∀ x ∈ pre, x + a.lenAt x < t) (hpost : ∀ y ∈ post, t + m < y)
    (hstarts : a'.starts = pre ++ t :: post)
    (hlens : ∀ x, a'.lens.get? x =
      if x = t then some m else if x ∈ pre ++ post then some (a.lenAt x) else none) :
    a'.Canonical ∧ ∀ p, coverage a'.freeExtents p =
      coverage [⟨t, m⟩] p + coverage ((pre ++ post).map fun s => ⟨s, a.lenAt s⟩) p := by
  have hne : ∀ x ∈ pre ++ post, x ≠ t := by
    intro x hx
    have h0 := hpos x hx
    rcases mem_append.mp hx with hx | hx
    · have := hpre x hx
      omega
    · have := hpost x hx
      omega
  have hpre' : ∀ x ∈ pre, x ≠ t := fun x hx => hne x (mem_append_left _ hx)
  have hpost' : ∀ x ∈ post, x ≠ t := fun x hx => hne x (mem_append_right _ hx)
  obtain ⟨h1, h2, h3⟩ := pairwise_append.mp hsorted
  have hsorted' : (pre ++ t :: post).Pairwise
      fun x y => x + (if x = t then m else a.lenAt x) < y := by
    refine pairwise_append.mpr ⟨h1.imp_of_mem fun hx _ h => ?_,
      pairwise_cons.mpr ⟨fun y hy => ?_, h2.imp_of_mem fun hx _ h => ?_⟩, fun x hx y hy => ?_⟩
    · rw [if_neg (hpre' _ hx)]
      exact h
    · rw [if_pos rfl]
      exact hpost y hy
    · rw [if_neg (hpost' _ hx)]
      exact h
    · rw [if_neg (hpre' x hx)]
      rcases mem_cons.mp hy with rfl | hy
      · exact hpre x hx
      · exact h3 x hx y hy
  have hmem : ∀ x, x ≠ t → (x ∈ pre ++ t :: post ↔ x ∈ pre ++ post) := by
    intro x hxt
    simp [hxt]
  have hpos' : ∀ x ∈ pre ++ t :: post, 0 < if x = t then m else a.lenAt x := by
    intro x hx
    by_cases hxt : x = t
    · rw [if_pos hxt]
      exact hm
    · rw [if_neg hxt]
      exact hpos x ((hmem x hxt).mp hx)
  have hlens' : ∀ x, a'.lens.get? x =
      if x ∈ pre ++ t :: post then some (if x = t then m else a.lenAt x) else none := by
    intro x
    rw [hlens]
    by_cases hxt : x = t
    · simp [hxt]
    · simp only [if_neg hxt, hmem x hxt]
  -- the lengths are those of `a`, but for the new extent
  obtain ⟨hcan, hext⟩ := Canonical.of_lens a' _ hsorted' hpos' hstarts hlens'
  refine ⟨hcan, fun p => ?_⟩
  have hmap : ∀ l : List ℤ, (∀ x ∈ l, x ≠ t) →
      (l.map fun s => (⟨s, if s = t then m else a.lenAt s⟩ : Extent))
        = l.map fun s => ⟨s, a.lenAt s⟩ :=
    fun l hl => map_congr_left fun x hx => by rw [if_neg (hl x hx)]
  rw [hext, map_append, map_cons, hmap pre hpre', hmap post hpost', if_pos rfl,
    map_append, coverage_append, coverage_append, coverage_cons]
  omega

/-! ### Allocation -/

theorem eraseIdx_length_append (pre post : List ℤ) (s : ℤ) :
    (pre ++ s :: post).eraseIdx pre.length = pre ++ post := by
  rw [eraseIdx_append_of_length_le le_rfl]
  simp

theorem insertIdx_length_append (pre post : List ℤ) (t : ℤ) :
    (pre ++ post).insertIdx pre.length t = pre ++ t :: post := by
  induction pre with
  | nil => rfl
  | cons x pre ih => simpa using ih

/-- What is left of the free extents without the one at `s`. -/
structure Middle (a : ExtentAllocator) (pre : List ℤ) (s : ℤ) (post : List ℤ) : Prop where
  sorted : (pre ++ post).Pairwise fun x y => x + a.lenAt x < y
  pos : ∀ x ∈ pre ++ post, 0 < a.lenAt x
  before : ∀ x ∈ pre, x + a.lenAt x < s
  after : ∀ y ∈ post, s + a.lenAt s < y
  get? : ∀ x, (a.lens.erase s).get? x = if x ∈ pre ++ post then some (a.lenAt x) else none
  coverage : ∀ p, coverage a.freeExtents p =
    coverage [⟨s, a.lenAt s⟩] p + coverage ((pre ++ post).map fun s => ⟨s, a.lenAt s⟩) p

theorem Canonical.middle (h : a.Canonical) (hstarts : a.starts = pre ++ s :: post) :
    a.Middle pre s post := by
  have hsorted := h.sorted
  rw [hstarts] at hsorted
  have hsub : (pre ++ post).Sublist (pre ++ s :: post) :=
    List.Sublist.append_left (sublist_cons_self s post) pre
  obtain ⟨-, hcons, hcross⟩ := pairwise_append.mp hsorted
  refine ⟨hsorted.sublist hsub, fun x hx => h.pos x (hstarts ▸ hsub.subset hx),
    fun x hx => hcross x hx s (by simp), (pairwise_cons.mp hcons).1, fun x => ?_, fun p => ?_⟩
  · have hnot : s ∉ pre ++ post := by
      have hlt := h.lt
      rw [hstarts] at hlt
      have hnd := hlt.imp (S := (· ≠ ·)) fun hab => ne_of_lt hab
      exact (nodup_middle.mp hnd).notMem
    rw [get?_erase, h.get?_eq, hstarts]
    by_cases hx : x = s
    · rw [if_pos hx, if_neg (hx ▸ hnot)]
    · have hiff : x ∈ pre ++ s :: post ↔ x ∈ pre ++ post := by simp [hx]
      simp only [if_neg hx, hiff]
  · rw [freeExtents, hstarts, map_append, map_cons, map_append, coverage_append, coverage_append,
      coverage_cons]
    omega

/-- Carving pages out of a free extent that has them. -/
theorem Canonical.carve (h : a.Canonical) {ln need : ℤ}
    (hstarts : a.starts = pre ++ s :: post) (hs : a.lens.get? s = some ln) (hfit : need ≤ ln)
    (hneed : 0 < need) :
    (a.carve need pre.length s ln).Canonical ∧
      ∀ p, coverage a.freeExtents p =
        coverage [⟨s, need⟩] p + coverage (a.carve need pre.length s ln).freeExtents p := by
  have hrest := h.middle hstarts
  obtain rfl : a.lenAt s = ln := lenAt_of_get? hs
  unfold ExtentAllocator.carve
  split_ifs with hlt
  · -- a remainder is left, right after the pages taken
    obtain ⟨hcan, hext⟩ := Canonical.replace (t := s + need) (m := a.lenAt s - need)
      { a with
        starts := (a.starts.eraseIdx pre.length).insertIdx pre.length (s + need)
        lens := (a.lens.erase s).set (s + need) (a.lenAt s - need)
        usedPages := a.usedPages + need }
      hrest.sorted hrest.pos (by omega) (fun x hx => by have := hrest.before x hx; omega)
      (fun y hy => by have := hrest.after y hy; omega)
      (by simp only [hstarts, eraseIdx_length_append, insertIdx_length_append])
      (fun x => by simp only [get?_set, hrest.get?])
    refine ⟨hcan, fun p => ?_⟩
    have hsplit := coverage_split s hneed.le (show 0 ≤ a.lenAt s - need by omega) p
    rw [add_sub_cancel] at hsplit
    rw [hrest.coverage p, hext p, hsplit]
    omega
  · have heq : a.lenAt s = need := by omega
    obtain ⟨hcan, hext⟩ := Canonical.of_lens
      { a with
        starts := a.starts.eraseIdx pre.length
        lens := a.lens.erase s
        usedPages := a.usedPages + need }
      a.lenAt hrest.sorted hrest.pos (by simp only [hstarts, eraseIdx_length_append]) hrest.get?
    refine ⟨hcan, fun p => ?_⟩
    rw [hrest.coverage p, hext, heq]

theorem samePool_carve (a : ExtentAllocator) (need : ℤ) (i : ℕ) (s ln : ℤ) :
    SamePool a (a.carve need i s ln) := by
  unfold carve
  split_ifs <;> exact ⟨rfl, rfl⟩

theorem usedPages_carve (a : ExtentAllocator) (need : ℤ) (i : ℕ) (s ln : ℤ) :
    (a.carve need i s ln).usedPages = a.usedPages + need := by
  unfold carve
  split_ifs <;> rfl

/-- What an allocation of `need` pages, at least one, does: it takes them from the
free extents, or every free extent is too small and nothing changes. -/
def Allocated (a : ExtentAllocator) (need : ℤ) (off : Option ℤ) (a' : ExtentAllocator) : Prop :=
  match off with
  | none => a' = a ∧ ∀ e ∈ a.freeExtents, e.len < need
  | some off => ∃ s, off = s * a.page ∧ a'.Canonical ∧ SamePool a a' ∧
      a'.usedPages = a.usedPages + need ∧
      ∀ p, coverage a.freeExtents p = coverage [⟨s, need⟩] p + coverage a'.freeExtents p

theorem Degenerate.get? (h : a.Degenerate) : a.lens.get? 0 = some 0 := by
  rw [← mem_items_iff, h.lens]
  simp

/-- **`alloc` carves the requested pages out of a free extent**, or finds none
large enough. -/
theorem sat_alloc (h : a.Wf) (hn : 0 < nbytes) :
    Sat (alloc nbytes) a (Allocated a (a.pagesFor nbytes)) := by
  have hneed := a.pagesFor_pos hn
  unfold alloc
  simp only [sat_bind, sat_get]
  rcases firstFit_cases a.lens (a.pagesFor nbytes) a.starts 0 with
    ⟨s, hs, hnone⟩ | ⟨hnone, hall⟩ | ⟨pre, s, ln, post, hl, hs, hfit, -, hres⟩
  · -- a start without a length cannot occur
    exfalso
    rcases h with hc | hd
    · rw [hc.get? hs] at hnone
      cases hnone
    · rw [hd.starts, mem_singleton] at hs
      rw [hs, hd.get?] at hnone
      cases hnone
  · rw [hnone]
    simp only [sat_pure, Allocated, true_and]
    intro e he
    obtain ⟨s, hs, rfl⟩ := mem_map.mp he
    obtain ⟨n, hget, hlt⟩ := hall s hs
    rw [lenAt_of_get? hget]
    exact hlt
  · rw [hres, Nat.zero_add]
    simp only [sat_bind, sat_set, sat_pure, Allocated]
    rcases h with hc | hd
    · obtain ⟨hcan, hcov⟩ := hc.carve hl hs hfit hneed
      exact ⟨s, rfl, hcan, samePool_carve _ _ _ _ _, usedPages_carve _ _ _ _ _, hcov⟩
    · -- an empty extent satisfies no positive request
      exfalso
      have hs0 : s ∈ a.starts := by simp [hl]
      rw [hd.starts, mem_singleton] at hs0
      rw [hs0, hd.get?] at hs
      cases hs
      omega

/-! ### Freeing -/

theorem exists_split_of_sorted : ∀ {l : List ℤ}, l.Pairwise (· < ·) → ∀ s : ℤ,
    ∃ pre post, l = pre ++ post ∧ (∀ x ∈ pre, x < s) ∧ ∀ y ∈ post, s ≤ y := by
  intro l
  induction l with
  | nil => intro _ s; exact ⟨[], [], rfl, by simp, by simp⟩
  | cons x l ih =>
    intro h s
    obtain ⟨hx, hl⟩ := pairwise_cons.mp h
    rcases lt_or_ge x s with hlt | hge
    · obtain ⟨pre, post, rfl, hpre, hpost⟩ := ih hl s
      refine ⟨x :: pre, post, rfl, fun y hy => ?_, hpost⟩
      rcases mem_cons.mp hy with rfl | hy
      · exact hlt
      · exact hpre y hy
    · refine ⟨[], x :: l, rfl, by simp, fun y hy => ?_⟩
      rcases mem_cons.mp hy with rfl | hy
      · exact hge
      · have := hx y hy
        omega

/-- What is left after the first half of `free`: the extents from the freed one on
no longer touch it. -/
structure Merged (a : ExtentAllocator) (pre : List ℤ) (s n n' : ℤ) (a' : ExtentAllocator) : Prop where
  canonical : a'.Canonical
  samePool : SamePool a a'
  usedPages : a'.usedPages = a.usedPages
  lenAt : ∀ x ∈ pre, a'.lenAt x = a.lenAt x
  pos : 0 < n'
  starts : ∃ post, a'.starts = pre ++ post ∧ ∀ y ∈ post, s + n' < y
  /-- The merged extent has the freed pages and those of the extent it absorbed. -/
  coverage : ∀ p, coverage [⟨s, n'⟩] p + coverage a'.freeExtents p =
    coverage [⟨s, n⟩] p + coverage a.freeExtents p

theorem sat_mergeNext (h : a.Canonical) {n : ℤ}
    (hstarts : a.starts = pre ++ post) (hn : 0 < n) (hpost : ∀ y ∈ post, s + n ≤ y) :
    Sat (mergeNext pre.length s n) a (Merged a pre s n) := by
  unfold mergeNext
  simp only [sat_bind, sat_get]
  cases post with
  | nil =>
    rw [if_neg (by simp [hstarts]), sat_pure]
    exact ⟨h, .refl a, rfl, fun _ _ => rfl, hn, ⟨[], hstarts, by simp⟩, fun _ => rfl⟩
  | cons r post =>
    have hhead : a.starts[pre.length]? = some r := by simp [hstarts]
    have hr : r ∈ a.starts := by simp [hstarts]
    have hrest := h.middle hstarts
    have hrpos := h.pos r hr
    simp only [hhead, Option.some.injEq]
    split_ifs with heq
    · -- the next extent starts where the freed one ends
      subst heq
      obtain ⟨hcan, hext⟩ := Canonical.of_lens
        { a with starts := a.starts.eraseIdx pre.length, lens := a.lens.erase (s + n) }
        a.lenAt hrest.sorted hrest.pos (by simp only [hstarts, eraseIdx_length_append]) hrest.get?
      simp only [sat_bind, sat_set, h.get? hr, sat_modify, sat_pure]
      refine ⟨hcan, ⟨rfl, rfl⟩, rfl, fun x hx => ?_, by omega, ⟨post, ?_, fun y hy => ?_⟩, fun p => ?_⟩
      · refine lenAt_of_get? ((hrest.get? x).trans ?_)
        rw [if_pos (mem_append_left _ hx)]
      · simp only [hstarts, eraseIdx_length_append]
      · have := hrest.after y hy
        omega
      · rw [hext, coverage_split s hn.le hrpos.le p, hrest.coverage p]
        omega
    · rw [sat_pure]
      refine ⟨h, .refl a, rfl, fun _ _ => rfl, hn, ⟨r :: post, hstarts, fun y hy => ?_⟩, fun _ => rfl⟩
      have hle := hpost r (by simp)
      rcases mem_cons.mp hy with rfl | hy
      · omega
      · have := hrest.after y hy
        omega

/-- The pages of an extent have been added to the free ones. -/
structure Freed (a : ExtentAllocator) (e : Extent) (a' : ExtentAllocator) : Prop where
  canonical : a'.Canonical
  samePool : SamePool a a'
  /-- The free extents have the pages of `e` and those they had. -/
  coverage : ∀ p, coverage a'.freeExtents p = coverage [e] p + coverage a.freeExtents p

theorem insertFree_freed (h : a.Canonical) {n : ℤ}
    (hstarts : a.starts = pre ++ post) (hn : 0 < n) (hpre : ∀ x ∈ pre, x + a.lenAt x < s)
    (hpost : ∀ y ∈ post, s + n < y) :
    Sat (insertFree pre.length s n) a fun _ a' =>
      Freed a ⟨s, n⟩ a' ∧ a'.usedPages = a.usedPages := by
  have hsorted := h.sorted
  rw [hstarts] at hsorted
  obtain ⟨hcan, hcov⟩ := Canonical.replace (t := s) (m := n)
    { a with starts := a.starts.insertIdx pre.length s, lens := a.lens.set s n }
    hsorted (fun x hx => h.pos x (hstarts ▸ hx)) hn hpre hpost
    (by simp only [hstarts, insertIdx_length_append])
    (fun x => by simp only [get?_set, h.get?_eq, hstarts])
  unfold insertFree
  rw [sat_modify]
  refine ⟨⟨hcan, ⟨rfl, rfl⟩, fun p => ?_⟩, rfl⟩
  rw [hcov p, freeExtents, hstarts]

theorem sat_mergePrev (h : a.Canonical) {n : ℤ}
    (hstarts : a.starts = pre ++ post) (hn : 0 < n) (hpre : ∀ x ∈ pre, x + a.lenAt x ≤ s)
    (hpost : ∀ y ∈ post, s + n < y) :
    Sat (mergePrev pre.length s n) a fun _ a' =>
      Freed a ⟨s, n⟩ a' ∧ a'.usedPages = a.usedPages := by
  unfold mergePrev
  simp only [sat_bind, sat_get]
  rcases eq_nil_or_concat pre with rfl | ⟨pre, x, rfl⟩
  · rw [if_neg (by simp)]
    exact insertFree_freed h hstarts hn (by simp) hpost
  · have hx : x ∈ a.starts := by simp [hstarts]
    have hlast : a.starts[(pre.concat x).length - 1]? = some x := by simp [hstarts]
    have hstarts' : a.starts = pre ++ x :: post := by simp [hstarts]
    have hrest := h.middle hstarts'
    have hxpos := h.pos x hx
    have hxs := hpre x (by simp)
    rw [if_pos (by simp), hlast]
    simp only [h.get? hx]
    split_ifs with heq
    · -- the extent before ends where the freed one starts: it grows
      obtain ⟨hcan, hcov⟩ := Canonical.replace (t := x) (m := a.lenAt x + n)
        { a with lens := a.lens.set x (a.lenAt x + n) } hrest.sorted hrest.pos
        (by omega) hrest.before (fun y hy => by have := hpost y hy; omega) hstarts'
        (fun y => by
          simp only [get?_set, h.get?_eq, hstarts']
          by_cases hy : y = x
          · simp [hy]
          · simp [hy])
      rw [sat_set]
      refine ⟨⟨hcan, ⟨rfl, rfl⟩, fun p => ?_⟩, rfl⟩
      rw [hcov p, coverage_split x hxpos.le hn.le p, heq, hrest.coverage p]
      omega
    · refine insertFree_freed h hstarts hn (fun y hy => ?_) hpost
      rw [concat_eq_append, mem_append, mem_singleton] at hy
      rcases hy with hy | rfl
      · have := hrest.before y hy
        omega
      · omega

/-- **`free` gives the pages of an allocation back** to the free extents, provided
none of them is free already. -/
theorem sat_free (h : a.Canonical) (hn : 0 < nbytes)
    (hdis : ∀ p, coverage [⟨s, a.pagesFor nbytes⟩] p + coverage a.freeExtents p ≤ 1) :
    Sat (free (s * a.page) nbytes) a fun _ a' =>
      Freed a ⟨s, a.pagesFor nbytes⟩ a' ∧ a'.usedPages = a.usedPages - a.pagesFor nbytes := by
  have hneed := a.pagesFor_pos hn
  generalize hk : a.pagesFor nbytes = n at hdis hneed
  have hapart : ∀ x ∈ a.starts, x + a.lenAt x ≤ s ∨ s + n ≤ x := by
    intro x hx
    have hmem : (⟨x, a.lenAt x⟩ : Extent) ∈ a.freeExtents := mem_map.mpr ⟨x, hx, rfl⟩
    have hpair : [⟨s, n⟩, ⟨x, a.lenAt x⟩].Pairwise
        fun e f : Extent => Disjoint e.pages f.pages := by
      refine coverage_le_one_iff.mp fun p => (le_trans ?_ (hdis p))
      rw [coverage_cons]
      have : coverage [⟨x, a.lenAt x⟩] p ≤ coverage a.freeExtents p :=
        (singleton_sublist.mpr hmem).countP_le
      omega
    have hd : Disjoint (⟨s, n⟩ : Extent).pages (⟨x, a.lenAt x⟩ : Extent).pages := by
      simpa using hpair
    have := (Extent.disjoint_iff hneed (h.pos x hx)).mp hd
    simp only at this
    omega
  obtain ⟨pre, post, hstarts, hpre, hpost⟩ := exists_split_of_sorted h.lt s
  -- the freed pages lie between the two halves of the free extents
  have hpre' : ∀ x ∈ pre, x + a.lenAt x ≤ s := by
    intro x hx
    have hlt := hpre x hx
    rcases hapart x (by simp [hstarts, hx]) with hle | hge <;> omega
  have hpost' : ∀ y ∈ post, s + n ≤ y := by
    intro y hy
    have hge := hpost y hy
    have hpos := h.pos y (by simp [hstarts, hy])
    rcases hapart y (by simp [hstarts, hy]) with hle | hge' <;> omega
  have hbis : bisectLeft a.starts s = pre.length := by
    rw [hstarts]
    exact bisectLeft_append hpre hpost
  unfold free
  simp only [sat_bind, sat_get, sat_set, mul_page_fdiv, hk, hbis]
  -- taking the pages off the count first does not touch the free extents
  have hcan : ({ a with usedPages := a.usedPages - n } : ExtentAllocator).Canonical :=
    { h with }
  refine (sat_mergeNext hcan hstarts hneed hpost').mono fun n' a' hm => ?_
  obtain ⟨post', hstarts', hpost''⟩ := hm.starts
  refine (sat_mergePrev hm.canonical hstarts' hm.pos (fun x hx => ?_) hpost'').mono ?_
  · rw [hm.lenAt x hx]
    exact hpre' x hx
  · rintro _ a'' ⟨hf, hused⟩
    have hsame := hm.samePool.trans hf.samePool
    refine ⟨⟨hf.canonical, ⟨hsame.page, hsame.total⟩, fun p => ?_⟩, ?_⟩
    · rw [hf.coverage p, hm.coverage p]
      rfl
    · rw [hused, hm.usedPages]

/-! ### The live allocations

The specifications of the two methods in terms of what has been allocated and not
yet freed: with the free extents, the live allocations tile the pool. -/

/-- An allocation: what `alloc` was asked for, and what it returned. -/
structure Block where
  offset : ℤ
  size : ℤ
  deriving DecidableEq

/-- The pages of an allocation. -/
def extent (a : ExtentAllocator) (b : Block) : Extent := ⟨b.offset.fdiv a.page, a.pagesFor b.size⟩

/-- The allocations `bs` are live, and are all that is. -/
structure Holds (a : ExtentAllocator) (bs : List Block) : Prop where
  wf : a.Wf
  tiling : Tiling a.totalPages (a.freeExtents ++ bs.map a.extent)
  used : a.usedPages = (bs.map fun b => a.pagesFor b.size).sum
  aligned : ∀ b ∈ bs, ∃ s, b.offset = s * a.page
  pos : ∀ b ∈ bs, 0 < b.size

theorem SamePool.extent {a' : ExtentAllocator} (h : SamePool a a') : a'.extent = a.extent := by
  funext b
  rw [ExtentAllocator.extent, ExtentAllocator.extent, h.page, h.pagesFor]

variable {bs : List Block}

theorem Holds.perm {bs' : List Block} (h : a.Holds bs) (hp : bs.Perm bs') : a.Holds bs' where
  wf := h.wf
  tiling := h.tiling.congr fun p => coverage_congr ((hp.symm.map a.extent).append_left _) p
  used := by rw [h.used, (hp.map _).sum_eq]
  aligned := fun b hb => h.aligned b (hp.mem_iff.mpr hb)
  pos := fun b hb => h.pos b (hp.mem_iff.mpr hb)

theorem holds_init (totalBytes page : ℕ) (hpage : 0 < page) :
    (init totalBytes page hpage).Holds [] := by
  have hget : (init totalBytes page hpage).lens.get? 0 = some ((totalBytes / page : ℕ) : ℤ) :=
    get?_set_self _ _ _
  have hlen := lenAt_of_get? hget
  have hext : (init totalBytes page hpage).freeExtents = [⟨0, (totalBytes / page : ℕ)⟩] := by
    rw [freeExtents, show (init totalBytes page hpage).starts = [0] from rfl, map_singleton, hlen]
  refine ⟨?_, ?_, rfl, by simp, by simp⟩
  · rcases Nat.eq_zero_or_pos (totalBytes / page) with hz | hpos
    · -- a pool smaller than a page: one free extent without pages
      refine Or.inr ⟨hz, rfl, ?_⟩
      have : (init totalBytes page hpage).lens.items = [(0, ((totalBytes / page : ℕ) : ℤ))] := rfl
      rw [this, hz]
      rfl
    · refine Or.inl (Canonical.of_lens (l := [0]) _ (fun _ => ((totalBytes / page : ℕ) : ℤ))
        (pairwise_singleton _ 0) ?_ rfl ?_).1
      · intro x _
        exact_mod_cast hpos
      · intro x
        rw [show (init totalBytes page hpage).lens = empty.set 0 _ from rfl, get?_set]
        by_cases hx : x = 0
        · simp [hx]
        · rw [if_neg hx, if_neg (by simpa using hx)]
          rfl
  · rw [hext]
    refine tiling_iff_coverage.mpr fun p => ?_
    simp only [map_nil, append_nil, coverage_singleton, Extent.mem_pages, zero_add]
    rfl

/-- **`alloc` on the live allocations**: one more, or no change. -/
theorem Holds.sat_alloc (h : a.Holds bs) (hn : 0 < nbytes) : Sat (alloc nbytes) a fun off a' =>
      match off with
      | none => a' = a ∧ ∀ e ∈ a.freeExtents, e.len < a.pagesFor nbytes
      | some off => a'.Holds (⟨off, nbytes⟩ :: bs) ∧ SamePool a a' := by
  refine (ExtentAllocator.sat_alloc h.wf hn).mono fun off a' hres => ?_
  cases off with
  | none => exact hres
  | some off =>
    obtain ⟨s, rfl, hcan, hsame, hused, hcov⟩ := hres
    refine ⟨⟨Or.inl hcan, ?_, ?_, ?_, ?_⟩, hsame⟩
    · -- the pages go from the free extents to the live allocations
      rw [hsame.total, hsame.extent]
      refine h.tiling.congr fun p => ?_
      have hext : a.extent ⟨s * a.page, nbytes⟩ = ⟨s, a.pagesFor nbytes⟩ := by
        rw [extent, mul_page_fdiv]
      rw [map_cons, hext, coverage_append, coverage_append, hcov p, coverage_cons]
      omega
    · have hmap : (bs.map fun b => a'.pagesFor b.size) = bs.map fun b => a.pagesFor b.size :=
        map_congr_left fun b _ => hsame.pagesFor b.size
      rw [hused, h.used, map_cons, sum_cons, hmap, hsame.pagesFor, add_comm]
    · intro b hb
      rw [hsame.page]
      rcases mem_cons.mp hb with rfl | hb
      · exact ⟨s, rfl⟩
      · exact h.aligned b hb
    · intro b hb
      rcases mem_cons.mp hb with rfl | hb
      · exact hn
      · exact h.pos b hb

/-- **`free` on the live allocations**: one less. -/
theorem Holds.sat_free {b : Block} (h : a.Holds (b :: bs)) :
    Sat (free b.offset b.size) a fun _ a' => a'.Holds bs ∧ SamePool a a' := by
  obtain ⟨s, hs⟩ := h.aligned b (by simp)
  have hsize := h.pos b (by simp)
  have hext : a.extent b = ⟨s, a.pagesFor b.size⟩ := by
    rw [extent, hs, mul_page_fdiv]
  have hcov := fun p => h.tiling.coverage_le_one p
  simp only [map_cons, hext, coverage_append] at hcov
  have hcan : a.Canonical := by
    rcases h.wf with hc | hd
    · exact hc
    · -- there is no page for the block to have
      exfalso
      have hin := h.tiling.inside ⟨s, a.pagesFor b.size⟩ (by simp [hext])
        (Extent.start_mem_pages (a.pagesFor_pos hsize))
      rw [hd.total] at hin
      simp only [Set.mem_Ico, Nat.cast_zero] at hin
      omega
  rw [hs]
  refine (ExtentAllocator.sat_free hcan hsize fun p => ?_).mono fun _ a' ⟨hf, hused⟩ => ?_
  · have := hcov p
    rw [coverage_cons] at this
    omega
  · have hsame := hf.samePool
    refine ⟨⟨Or.inl hf.canonical, ?_, ?_, ?_, ?_⟩, hsame⟩
    · rw [hsame.total, hsame.extent]
      refine h.tiling.congr fun p => ?_
      rw [map_cons, hext, coverage_append, coverage_append, hf.coverage p,
        coverage_cons ⟨s, a.pagesFor b.size⟩ (List.map _ bs)]
      omega
    · have : (bs.map fun b => a'.pagesFor b.size) = bs.map fun b => a.pagesFor b.size :=
        map_congr_left fun b _ => hsame.pagesFor b.size
      rw [hused, h.used, map_cons, sum_cons, this]
      omega
    · intro c hc
      rw [hsame.page]
      exact h.aligned c (mem_cons_of_mem b hc)
    · exact fun c hc => h.pos c (mem_cons_of_mem b hc)

end ExtentAllocator

end CacheFlow
