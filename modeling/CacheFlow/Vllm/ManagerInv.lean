import Mathlib.Data.List.Forall2
import CacheFlow.Vllm.Manager

/-!
# What the managers keep

The managers of the groups share one pool, so its invariant is about the blocks that the
requests hold in all groups together. For storing blocks more is needed: the blocks of a
request that do not count as stored yet have no hash, and no other list has them among its own
unstored ones. A method of one manager only edits the list of one request; the rest is a frame
that the step lemma carries along.

## Main definitions

* `KInv p ms l` — the invariant of the pool, the managers and the queue.

## Main results

* `KInv.free`, `KInv.allocateNewBlocks`, `KInv.cacheBlocks`, … — the methods of one manager keep it
  and raise nothing.
-/

namespace CacheFlow

open List SingleTypeKVCacheManager Dict BlockPool

namespace SingleTypeKVCacheManager

variable {g g' g'' : SingleTypeKVCacheManager} {r r' : String} {bs : List ℕ} {b n : ℕ}

/-! ### The lists of one manager -/

/-- The blocks that requests hold in the group. -/
def held (g : SingleTypeKVCacheManager) : List ℕ := g.reqToBlocks.values.flatten

/-- Those held by requests other than `r`. -/
def others (g : SingleTypeKVCacheManager) (r : String) : List ℕ :=
  (g.reqToBlocks.erase r).values.flatten

/-- The blocks of a request that do not count as stored. -/
def uncachedOf (g : SingleTypeKVCacheManager) (r : String) : List ℕ :=
  (g.blocksOf r).drop (g.cachedOf r)

theorem mem_blocksOf_of_mem_uncachedOf (h : b ∈ g.uncachedOf r) : b ∈ g.blocksOf r :=
  mem_of_mem_drop h

theorem held_perm (g : SingleTypeKVCacheManager) (r : String) :
    g.held.Perm (g.blocksOf r ++ g.others r) := by
  unfold held blocksOf others
  cases hget : g.reqToBlocks.get? r with
  | none => rw [erase_of_get?_eq_none hget, Option.getD_none, nil_append]
  | some blocks => exact (values_perm_of_get? hget).flatten

theorem mem_held_of_mem_blocksOf (h : b ∈ g.blocksOf r) : b ∈ g.held :=
  (g.held_perm r).mem_iff.mpr (mem_append_left _ h)

theorem blocksOf_setBlocks (g : SingleTypeKVCacheManager) (r r' : String) (bs : List ℕ) :
    (g.setBlocks r bs).blocksOf r' = if r' = r then bs else g.blocksOf r' := by
  unfold blocksOf setBlocks
  rw [get?_set]
  split_ifs <;> rfl

/-- The manager `g'` differs from `g` only in what request `r` has. -/
structure Edits (r : String) (g g' : SingleTypeKVCacheManager) : Prop where
  spec : g'.spec = g.spec
  id : g'.kvCacheGroupId = g.kvCacheGroupId
  held : g'.held.Perm (g'.blocksOf r ++ g.others r)
  blocksOf : ∀ r', r' ≠ r → g'.blocksOf r' = g.blocksOf r'
  /-- Other requests keep their counts. -/
  numCachedBlock : ∀ r', r' ≠ r → g'.numCachedBlock.get? r' = g.numCachedBlock.get? r'

theorem Edits.refl (r : String) (g : SingleTypeKVCacheManager) : Edits r g g :=
  ⟨rfl, rfl, g.held_perm r, fun _ _ => rfl, fun _ _ => rfl⟩

theorem Edits.trans (h : Edits r g g') (h' : Edits r g' g'') : Edits r g g'' := by
  refine ⟨h'.spec.trans h.spec, h'.id.trans h.id, ?_,
    fun r' hr => (h'.blocksOf r' hr).trans (h.blocksOf r' hr),
    fun r' hr => (h'.numCachedBlock r' hr).trans (h.numCachedBlock r' hr)⟩
  have hothers : (g'.others r).Perm (g.others r) :=
    (perm_append_left_iff _).mp ((g'.held_perm r).symm.trans h.held)
  exact h'.held.trans (hothers.append_left _)

theorem Edits.uncachedOf (h : Edits r g g') (hr : r' ≠ r) : g'.uncachedOf r' = g.uncachedOf r' := by
  unfold SingleTypeKVCacheManager.uncachedOf cachedOf
  rw [h.blocksOf r' hr, h.numCachedBlock r' hr]

theorem edits_setBlocks (g : SingleTypeKVCacheManager) (r : String) (bs : List ℕ) :
    Edits r g (g.setBlocks r bs) := by
  refine ⟨rfl, rfl, ?_, fun r' hr => by rw [blocksOf_setBlocks, if_neg hr], fun _ _ => rfl⟩
  rw [blocksOf_setBlocks, if_pos rfl]
  exact (values_set_perm g.reqToBlocks r bs).flatten

theorem edits_setCached (g : SingleTypeKVCacheManager) (r : String) (n : ℕ) :
    Edits r g (g.setCached r n) :=
  ⟨rfl, rfl, g.held_perm r, fun _ _ => rfl, fun _ hr => get?_set_of_ne _ hr n⟩

end SingleTypeKVCacheManager

/-! ### The invariant of all managers -/

section Groups

variable {H : Type} {p p' : BlockPool H} {pre post ms : List SingleTypeKVCacheManager}
  {g g' : SingleTypeKVCacheManager} {r : String} {l l' : List ℕ}

/-- The blocks that requests hold in all groups. -/
def heldAll (ms : List SingleTypeKVCacheManager) : List ℕ := ms.flatMap (·.held)

/-- The blocks held by all but request `r` in group `g`. -/
def heldRest (pre : List SingleTypeKVCacheManager) (g : SingleTypeKVCacheManager) (r : String)
    (post : List SingleTypeKVCacheManager) : List ℕ :=
  heldAll pre ++ (g.others r ++ heldAll post)

/-- What the lists of the requests satisfy. -/
structure GroupsInv (p : BlockPool H) (ms : List SingleTypeKVCacheManager) : Prop where
  ids : (ms.map (·.kvCacheGroupId)).Nodup
  nodup : ∀ g ∈ ms, ∀ r, ((g.blocksOf r).filter (· ≠ p.nullBlock)).Nodup
  /-- A block that does not count as stored has no hash. -/
  plain : ∀ g ∈ ms, ∀ r, ∀ b ∈ g.uncachedOf r, b ≠ p.nullBlock → (p.blocks b).blockHash = none
  /-- It does not count as such in two places. -/
  once : ∀ g ∈ ms, ∀ r, ∀ g' ∈ ms, ∀ r', ∀ b ∈ g.uncachedOf r, b ∈ g'.uncachedOf r' →
    b ≠ p.nullBlock → g.kvCacheGroupId = g'.kvCacheGroupId ∧ r = r'

/-- The invariant of the pool, the managers and the queue. -/
structure KInv (p : BlockPool H) (ms : List SingleTypeKVCacheManager) (l : List ℕ) : Prop where
  pool : p.Inv (heldAll ms) l
  groups : GroupsInv p ms

theorem mem_heldAll_of_mem_blocksOf {b : ℕ} (hg : g ∈ ms) (hb : b ∈ g.blocksOf r) : b ∈ heldAll ms :=
  mem_flatMap.mpr ⟨g, hg, mem_held_of_mem_blocksOf hb⟩

theorem SingleTypeKVCacheManager.Edits.heldAll_perm (h : Edits r g g')
    (pre post : List SingleTypeKVCacheManager) :
    (heldAll (pre ++ g' :: post)).Perm (g'.blocksOf r ++ heldRest pre g r post) := by
  unfold heldAll heldRest
  rw [flatMap_append, flatMap_cons]
  have hmid := (h.held.append_right (post.flatMap (·.held))).append_left (pre.flatMap (·.held))
  refine hmid.trans ?_
  rw [append_assoc]
  exact perm_append_comm_assoc ..

/-- Each list of the new managers is the edited one, or was a list before. -/
theorem SingleTypeKVCacheManager.Edits.cases (h : Edits r g g')
    (hids : ((pre ++ g :: post).map (·.kvCacheGroupId)).Nodup) {g₁ : SingleTypeKVCacheManager}
    (hg₁ : g₁ ∈ pre ++ g' :: post) (r₁ : String) :
    (g₁ = g' ∧ r₁ = r) ∨
      ∃ g₀ ∈ pre ++ g :: post, g₀.kvCacheGroupId = g₁.kvCacheGroupId ∧
        g₀.blocksOf r₁ = g₁.blocksOf r₁ ∧ g₀.uncachedOf r₁ = g₁.uncachedOf r₁ ∧
        ¬ (g₀.kvCacheGroupId = g.kvCacheGroupId ∧ r₁ = r) := by
  -- a manager on either side has another id
  have hside : ∀ g₁ ∈ pre ++ post, g₁.kvCacheGroupId ≠ g.kvCacheGroupId := by
    intro g₁ hg₁ heq
    have hnd : ((g :: (pre ++ post)).map (·.kvCacheGroupId)).Nodup :=
      (perm_middle.map kvCacheGroupId).nodup_iff.mp hids
    rw [map_cons, nodup_cons] at hnd
    exact hnd.1 (heq ▸ mem_map_of_mem hg₁)
  rcases mem_cons.mp (perm_middle.mem_iff.mp hg₁) with rfl | hmem
  · by_cases hr : r₁ = r
    · exact Or.inl ⟨rfl, hr⟩
    · exact Or.inr ⟨g, by simp, h.id.symm, (h.blocksOf r₁ hr).symm, (h.uncachedOf hr).symm,
        fun hand => hr hand.2⟩
  · refine Or.inr ⟨g₁, ?_, rfl, rfl, rfl, fun hand => hside g₁ hmem hand.1⟩
    exact perm_middle.mem_iff.mpr (mem_cons_of_mem g hmem)

/-- **The step lemma for the lists.** An edit may change the hashes of blocks in so far as a
block without a hash gets one only if it leaves the unstored part of the edited list. -/
theorem GroupsInv.edit (h : GroupsInv p (pre ++ g :: post)) (hedit : Edits r g g')
    (hnull : p'.nullBlock = p.nullBlock)
    (hnd : ((g'.blocksOf r).filter (· ≠ p.nullBlock)).Nodup)
    (hnew : ∀ b ∈ g'.uncachedOf r, b ≠ p.nullBlock → (p'.blocks b).blockHash = none ∧
      (b ∈ g.uncachedOf r ∨ b ∉ heldAll (pre ++ g :: post)))
    (hhash : ∀ b, b ≠ p.nullBlock → (p.blocks b).blockHash = none →
      (p'.blocks b).blockHash = none ∨ b ∈ g.uncachedOf r ∧ b ∉ g'.uncachedOf r) :
    GroupsInv p' (pre ++ g' :: post) := by
  have hg : g ∈ pre ++ g :: post := by simp
  refine ⟨?_, ?_, ?_, ?_⟩
  · have hids := h.ids
    rw [map_append, map_cons] at hids ⊢
    rwa [hedit.id]
  · intro g₁ hg₁ r₁
    rw [hnull]
    rcases hedit.cases h.ids hg₁ r₁ with ⟨rfl, rfl⟩ | ⟨g₀, hg₀, -, hblocks, -, -⟩
    · exact hnd
    · rw [← hblocks]
      exact h.nodup g₀ hg₀ r₁
  · intro g₁ hg₁ r₁ b hb hbn
    rw [hnull] at hbn
    rcases hedit.cases h.ids hg₁ r₁ with ⟨rfl, rfl⟩ | ⟨g₀, hg₀, -, -, hunc, hother⟩
    · exact (hnew b hb hbn).1
    · rw [← hunc] at hb
      -- it is not in the edited list as well
      refine (hhash b hbn (h.plain g₀ hg₀ r₁ b hb hbn)).resolve_right fun hleft => ?_
      exact hother (h.once g₀ hg₀ r₁ g hg r b hb hleft.1 hbn)
  · -- the place in the edited list against an old one
    have hmixed : ∀ g₀ ∈ pre ++ g :: post, ∀ r₀, ∀ b ∈ g'.uncachedOf r, b ∈ g₀.uncachedOf r₀ →
        b ≠ p.nullBlock → g'.kvCacheGroupId = g₀.kvCacheGroupId ∧ r = r₀ := by
      intro g₀ hg₀ r₀ b hb hb₀ hbn
      rcases (hnew b hb hbn).2 with hold | hfresh
      · rw [hedit.id]
        exact h.once g hg r g₀ hg₀ r₀ b hold hb₀ hbn
      · exact absurd (mem_heldAll_of_mem_blocksOf hg₀
          (mem_blocksOf_of_mem_uncachedOf hb₀)) hfresh
    intro g₁ hg₁ r₁ g₂ hg₂ r₂ b hb₁ hb₂ hbn
    rw [hnull] at hbn
    rcases hedit.cases h.ids hg₁ r₁ with ⟨rfl, rfl⟩ | ⟨g₀, hg₀, hid₁, -, hunc₁, -⟩ <;>
      rcases hedit.cases h.ids hg₂ r₂ with ⟨rfl, rfl⟩ | ⟨g₀', hg₀', hid₂, -, hunc₂, -⟩
    · exact ⟨rfl, rfl⟩
    · rw [← hunc₂] at hb₂
      rw [← hid₂]
      exact hmixed g₀' hg₀' r₂ b hb₁ hb₂ hbn
    · rw [← hunc₁] at hb₁
      rw [← hid₁]
      exact (hmixed g₀ hg₀ r₁ b hb₂ hb₁ hbn).imp Eq.symm Eq.symm
    · rw [← hunc₁] at hb₁
      rw [← hunc₂] at hb₂
      rw [← hid₁, ← hid₂]
      exact h.once g₀ hg₀ r₁ g₀' hg₀' r₂ b hb₁ hb₂ hbn

section Edit

variable (h : KInv p (pre ++ g :: post) l) (hedit : Edits r g g')
  (hnull : p'.nullBlock = p.nullBlock) (hpool : p'.Inv (g'.blocksOf r ++ heldRest pre g r post) l')
  (hnd : ((g'.blocksOf r).filter (· ≠ p.nullBlock)).Nodup)

include h hedit hnull hpool hnd

/-- **The step lemma.** -/
theorem KInv.edit
    (hnew : ∀ b ∈ g'.uncachedOf r, b ≠ p.nullBlock → (p'.blocks b).blockHash = none ∧
      (b ∈ g.uncachedOf r ∨ b ∉ heldAll (pre ++ g :: post)))
    (hhash : ∀ b, b ≠ p.nullBlock → (p.blocks b).blockHash = none →
      (p'.blocks b).blockHash = none ∨ b ∈ g.uncachedOf r ∧ b ∉ g'.uncachedOf r) :
    KInv p' (pre ++ g' :: post) l' :=
  ⟨hpool.perm (hedit.heldAll_perm pre post).symm, h.groups.edit hedit hnull hnd hnew hhash⟩

/-- The same for a method that keeps every hash and adds nothing to the unstored part. -/
theorem KInv.edit_of_sameHashes (hhash : SameHashes p p')
    (hnew : ∀ b ∈ g'.uncachedOf r, b ≠ p.nullBlock → b ∈ g.uncachedOf r) :
    KInv p' (pre ++ g' :: post) l' := by
  refine h.edit hedit hnull hpool hnd (fun b hb hbn => ⟨?_, Or.inl (hnew b hb hbn)⟩)
    fun b _ hnone => Or.inl ((hhash.blockHash b).trans hnone)
  rw [hhash.blockHash]
  exact h.groups.plain g (by simp) r b (hnew b hb hbn) hbn

/-- Fresh blocks come into the list of a request. -/
theorem KInv.edit_of_fresh {fresh : List ℕ} (hfresh : ∀ b ∈ fresh, b ∈ l)
    (hunc : ∀ b ∈ g'.uncachedOf r, b ≠ p.nullBlock → b ∈ g.uncachedOf r ∨ b ∈ fresh)
    (hhash : ∀ c, (p'.blocks c).blockHash = if c ∈ fresh then none else (p.blocks c).blockHash) :
    KInv p' (pre ++ g' :: post) l' := by
  have hnone : ∀ b, (p.blocks b).blockHash = none → (p'.blocks b).blockHash = none := by
    intro b hb
    rw [hhash, hb, ite_self]
  refine h.edit hedit hnull hpool hnd (fun b hb hbn => ?_) fun b _ hb => Or.inl (hnone b hb)
  rcases hunc b hb hbn with hold | hnew
  · exact ⟨hnone b (h.groups.plain g (by simp) r b hold hbn), Or.inl hold⟩
  · exact ⟨by rw [hhash, if_pos hnew], Or.inr (h.pool.ref.not_mem_of_mem (hfresh b hnew))⟩

end Edit

/-! ### Giving blocks back -/

theorem edits_erase (g : SingleTypeKVCacheManager) (r : String) :
    Edits r g (g.without r) ∧ (g.without r).blocksOf r = [] ∧
      (g.without r).numCachedBlock.get? r = none := by
  have hblocks : (g.without r).blocksOf r = [] := by
    unfold blocksOf without
    rw [get?_erase_self, Option.getD_none]
  refine ⟨⟨rfl, rfl, ?_, fun r' hr => ?_, fun r' hr => get?_erase_of_ne _ hr⟩, hblocks,
    get?_erase_self _ r⟩
  · rw [hblocks]
    exact List.Perm.refl _
  · unfold blocksOf without
    rw [get?_erase_of_ne _ hr]

/-- **Freeing** a request in one group: the last blocks go to the queue first. -/
theorem KInv.free (h : KInv p (pre ++ g :: post) l) (r : String) :
    Returns (g.free r p) fun x =>
      KInv x.2 (pre ++ x.1 :: post) (l ++ (g.blocksOf r).reverse.filter fun b =>
          b ≠ p.nullBlock ∧ b ∉ heldRest pre g r post) ∧ Same p x.2 ∧
        SameHashes p x.2 ∧ Edits r g x.1 ∧ x.1.blocksOf r = [] ∧
        x.1.numCachedBlock.get? r = none := by
  have hperm : (heldAll (pre ++ g :: post)).Perm
      ((g.blocksOf r).reverse ++ heldRest pre g r post) :=
    ((Edits.refl r g).heldAll_perm pre post).trans
      ((reverse_perm _).symm.append_right _)
  have hnd : ((g.blocksOf r).reverse.filter (· ≠ p.nullBlock)).Nodup := by
    rw [filter_reverse]
    exact nodup_reverse.mpr (h.groups.nodup g (by simp) r)
  unfold SingleTypeKVCacheManager.free
  rw [returns_bind]
  refine (h.pool.freeBlocks hperm hnd).mono ?_
  rintro p' ⟨hpool, hsame, hhash⟩
  obtain ⟨hedit, hblocks, hcached⟩ := edits_erase g r
  rw [← nil_append (heldRest pre g r post), ← hblocks] at hpool
  refine returns_pure.mpr ⟨h.edit_of_sameHashes hedit hsame.nullBlock ?_ ?_ hhash ?_, hsame, hhash,
    hedit, hblocks, hcached⟩
  · rwa [hblocks, nil_append] at hpool ⊢
  · rw [hblocks]
    exact nodup_nil
  · intro b hb
    rw [uncachedOf, hblocks, drop_nil] at hb
    cases hb

/-- What the loop of `remove_skipped_blocks` does: some blocks before the bound are replaced by the
null block. -/
theorem skipLoop_spec (null : ℕ) : ∀ (n : ℕ) (bs : List ℕ),
    (skipLoop null bs n).1.length = bs.length ∧
    (∀ i, (skipLoop null bs n).1[i]? = bs[i]? ∨ i < n ∧ (skipLoop null bs n).1[i]? = some null) ∧
    (∀ b ∈ (skipLoop null bs n).2, ∃ i < n, bs[i]? = some b) ∧
    ∀ c, c ≠ null → bs.count c = (skipLoop null bs n).2.count c + (skipLoop null bs n).1.count c := by
  have hstop : ∀ (n : ℕ) (bs : List ℕ), bs.length = bs.length ∧
      (∀ i, bs[i]? = bs[i]? ∨ i < n ∧ bs[i]? = some null) ∧
      (∀ b ∈ ([] : List ℕ), ∃ i < n, bs[i]? = some b) ∧
      ∀ c, c ≠ null → bs.count c = ([] : List ℕ).count c + bs.count c :=
    fun n bs => ⟨rfl, fun i => Or.inl rfl, fun b hb => absurd hb not_mem_nil,
      fun c _ => (Nat.zero_add _).symm⟩
  intro n
  induction n with
  | zero => exact fun bs => hstop 0 bs
  | succ n ih =>
    intro bs
    rw [skipLoop]
    cases hget : bs[n]? with
    | none => exact hstop (n + 1) bs
    | some b =>
      dsimp only
      split_ifs with hb
      · exact hstop (n + 1) bs
      · -- the block is replaced by the null block, and the loop goes left
        obtain ⟨hlt, rfl⟩ := List.getElem?_eq_some_iff.mp hget
        obtain ⟨hlen, hpoint, hremoved, hcount⟩ := ih (bs.set n null)
        refine ⟨hlen.trans (length_set ..), fun i => ?_, fun b hb => ?_, fun c hc => ?_⟩
        · rcases hpoint i with heq | ⟨hi, heq⟩
          · rw [List.getElem?_set] at heq
            by_cases hin : n = i
            · rw [if_pos hin, if_pos hlt] at heq
              exact Or.inr ⟨by omega, heq⟩
            · rw [if_neg hin] at heq
              exact Or.inl heq
          · exact Or.inr ⟨by omega, heq⟩
        · rcases mem_cons.mp hb with rfl | hb
          · exact ⟨n, by omega, hget⟩
          · obtain ⟨i, hi, hib⟩ := hremoved b hb
            rw [List.getElem?_set_ne (by omega)] at hib
            exact ⟨i, by omega, hib⟩
        · have hset := hcount c hc
          rw [count_set hlt] at hset
          have hle : (if bs[n] == c then 1 else 0) ≤ bs.count c := by
            split_ifs with heq
            · rw [← eq_of_beq heq]
              exact count_pos_iff.mpr (getElem_mem hlt)
            · exact Nat.zero_le _
          rw [if_neg (c := (null == c) = true) (by simpa using Ne.symm hc)] at hset
          dsimp only
          rw [count_cons]
          omega

/-- A list has no block twice when it has every block but the null block once at most. -/
theorem nodup_filter_iff {null : ℕ} {bs : List ℕ} :
    (bs.filter (· ≠ null)).Nodup ↔ ∀ c, c ≠ null → bs.count c ≤ 1 := by
  rw [nodup_iff_count_le_one]
  refine forall_congr' fun c => ?_
  by_cases hc : c = null
  · have hmem : c ∉ bs.filter (· ≠ null) := by simp [hc]
    rw [count_eq_zero.mpr hmem]
    simp [hc]
  · rw [count_filter (by simpa using hc)]
    simp [hc]

/-- In the list of request `r` some of the first `n` blocks are replaced by the null block, and
nothing else is changed. -/
structure SkipsOnly (null n : ℕ) (r : String) (g g' : SingleTypeKVCacheManager) : Prop where
  edits : Edits r g g'
  numCachedBlock : g'.numCachedBlock = g.numCachedBlock
  length : (g'.blocksOf r).length = (g.blocksOf r).length
  /-- A place keeps its block, or it is one of the first and gets the null block. -/
  getElem? : ∀ i, (g'.blocksOf r)[i]? = (g.blocksOf r)[i]? ∨ i < n ∧ (g'.blocksOf r)[i]? = some null
  count_le : ∀ c, c ≠ null → (g'.blocksOf r).count c ≤ (g.blocksOf r).count c

theorem SkipsOnly.refl (null n : ℕ) (r : String) (g : SingleTypeKVCacheManager) :
    SkipsOnly null n r g g :=
  ⟨Edits.refl r g, rfl, rfl, fun _ => Or.inl rfl, fun _ _ => Nat.le_refl _⟩

/-- **Removing** the blocks before the window. -/
theorem KInv.removeSkippedBlocks (h : KInv p (pre ++ g :: post) l) (r : String) (total : ℕ) :
    Returns (g.removeSkippedBlocks r total p) fun x =>
      (∃ freed, (∀ b ∈ freed, ∃ i < g.numSkippedBlocks total, (g.blocksOf r)[i]? = some b) ∧
        KInv x.2 (pre ++ x.1 :: post) (l ++ freed)) ∧
        Same p x.2 ∧ SameHashes p x.2 ∧
        SkipsOnly p.nullBlock (g.numSkippedBlocks total) r g x.1 := by
  unfold SingleTypeKVCacheManager.removeSkippedBlocks
  split_ifs with hskip
  · exact returns_ok.mpr ⟨⟨[], fun _ hb => absurd hb not_mem_nil, by rwa [append_nil]⟩,
      Same.refl p, ⟨fun _ => rfl, rfl⟩, SkipsOnly.refl ..⟩
  obtain ⟨hlen, hpoint, hplaces, hcount⟩ := skipLoop_spec p.nullBlock
    (min (g.numSkippedBlocks total) (g.blocksOf r).length) (g.blocksOf r)
  dsimp only
  generalize skipLoop p.nullBlock (g.blocksOf r)
    (min (g.numSkippedBlocks total) (g.blocksOf r).length) = x at hlen hpoint hplaces hcount ⊢
  obtain ⟨left, removed⟩ := x
  dsimp only at hlen hpoint hplaces hcount ⊢
  have hone := nodup_filter_iff.mp (h.groups.nodup g (by simp) r)
  -- up to null blocks, what is held is what is removed and what is left
  have hpool : p.Inv (removed ++ (left ++ heldRest pre g r post)) l := by
    refine h.pool.of_count fun c hc => ?_
    rw [((Edits.refl r g).heldAll_perm pre post).count_eq, count_append, count_append,
      count_append, hcount c hc]
    omega
  have hremoved : (removed.filter (· ≠ p.nullBlock)).Nodup := by
    refine nodup_filter_iff.mpr fun c hc => ?_
    have := hcount c hc
    have := hone c hc
    omega
  have hblocks : (g.setBlocks r left).blocksOf r = left := by
    rw [blocksOf_setBlocks, if_pos rfl]
  rw [returns_bind]
  refine (hpool.freeBlocks (List.Perm.refl _) hremoved).mono ?_
  rintro p' ⟨hpool', hsame, hhash⟩
  have hedit := edits_setBlocks g r left
  rw [← hblocks] at hpool'
  refine returns_pure.mpr ⟨⟨_, fun b hb => ?_,
    h.edit_of_sameHashes hedit hsame.nullBlock hpool' ?_ hhash ?_⟩, hsame, hhash, hedit, rfl, ?_, ?_,
    fun c hc => ?_⟩
  · obtain ⟨i, hi, hib⟩ := hplaces b (mem_filter.mp hb).1
    exact ⟨i, by omega, hib⟩
  · rw [hblocks]
    refine nodup_filter_iff.mpr fun c hc => ?_
    have := hcount c hc
    have := hone c hc
    omega
  · -- the blocks not stored yet are the same, or null
    intro b hb hbn
    rw [uncachedOf, hblocks] at hb
    obtain ⟨i, hi⟩ := mem_iff_getElem?.mp hb
    rw [List.getElem?_drop] at hi
    rcases hpoint (g.cachedOf r + i) with heq | ⟨-, heq⟩
    · refine mem_iff_getElem?.mpr ⟨i, ?_⟩
      rw [uncachedOf, List.getElem?_drop, ← heq]
      exact hi
    · exact absurd (Option.some.inj (hi.symm.trans heq)) hbn
  · rw [hblocks, hlen]
  · intro i
    rw [hblocks]
    exact (hpoint i).imp_right fun hi => ⟨by omega, hi.2⟩
  · rw [hblocks, hcount c hc]
    exact Nat.le_add_left ..

/-! ### Taking blocks -/

/-- The hits that are taken over: those that do not lie before the window. -/
def SingleTypeKVCacheManager.keptHits (g : SingleTypeKVCacheManager) (hits : List ℕ) (total : ℕ) :
    List ℕ :=
  hits.drop (g.numSkippedBlocks total)

/-- How many blocks are taken for external tokens. -/
def SingleTypeKVCacheManager.externalBlocks (g : SingleTypeKVCacheManager) (hits : List ℕ)
    (numLocal numExternal : ℕ) : ℕ :=
  let total := numLocal + numExternal
  let numSkippedBlocks := g.numSkippedBlocks total
  let external :=
    if 0 < numSkippedBlocks then min (total - g.spec.getNumSkippedTokens total) numExternal
    else numExternal
  if 0 < external then cdiv total g.spec.blockSize - max numSkippedBlocks hits.length else 0

/-- What the manager takes out of the queue: the hits it takes over, and so many blocks for
external tokens. -/
def SingleTypeKVCacheManager.round (g : SingleTypeKVCacheManager) (hits : List ℕ)
    (numLocal numExternal : ℕ) : List ℕ × ℕ :=
  (g.keptHits hits (numLocal + numExternal), g.externalBlocks hits numLocal numExternal)

theorem SingleTypeKVCacheManager.Edits.numSkippedBlocks (h : Edits r g g') (total : ℕ) :
    g'.numSkippedBlocks total = g.numSkippedBlocks total := by
  unfold SingleTypeKVCacheManager.numSkippedBlocks
  rw [h.spec]

theorem SingleTypeKVCacheManager.Edits.round (h : Edits r g g') (hits : List ℕ)
    (numLocal numExternal : ℕ) :
    g'.round hits numLocal numExternal = g.round hits numLocal numExternal := by
  unfold SingleTypeKVCacheManager.round SingleTypeKVCacheManager.keptHits
    externalBlocks
  simp only [h.numSkippedBlocks, h.spec]

/-- Hits and fresh blocks become the list of a request that has nothing in the group. -/
theorem KInv.edit_of_round (h : KInv p (pre ++ g :: post) l) (hempty : g.blocksOf r = [])
    {kept : List ℕ} {e sk : ℕ} (hnd : (kept.filter (· ≠ p.nullBlock)).Nodup)
    (hedit : Edits r g g')
    (hblocks : g'.blocksOf r = List.replicate sk p.nullBlock ++ kept ++ (l.filter (· ∉ kept)).take e)
    (hcached : g'.cachedOf r = sk + kept.length) (hsame : Same p p')
    (hpool : p'.Inv ((l.filter (· ∉ kept)).take e ++ (kept ++ heldAll (pre ++ g :: post))) l')
    (hhash : ∀ c, (p'.blocks c).blockHash =
      if c ∈ (l.filter (· ∉ kept)).take e then none else (p.blocks c).blockHash) :
    KInv p' (pre ++ g' :: post) l' := by
  have hqueue : ((l.filter (· ∉ kept)).take e).Nodup :=
    (h.pool.ref.queue.nodup.filter _).sublist (take_sublist ..)
  have hfree : ∀ b ∈ (l.filter (· ∉ kept)).take e, b ∈ l := fun b hb =>
    mem_of_mem_filter (mem_of_mem_take hb)
  refine h.edit_of_fresh hedit hsame.nullBlock ?_ ?_ hfree ?_ hhash
  · refine hpool.of_count fun c hc => ?_
    rw [hsame.nullBlock] at hc
    rw [hblocks, ((Edits.refl r g).heldAll_perm pre post |>.append_left kept
      |>.append_left _).count_eq, hempty]
    simp only [count_append, count_replicate, count_nil]
    rw [if_neg (by simpa using Ne.symm hc)]
    omega
  · refine nodup_filter_iff.mpr fun c hc => ?_
    have hkept := nodup_filter_iff.mp hnd c hc
    have hfresh := nodup_iff_count_le_one.mp hqueue c
    rw [hblocks, count_append, count_append, count_replicate,
      if_neg (by simpa using Ne.symm hc)]
    -- a fresh block is none of the hits
    by_cases hmem : c ∈ (l.filter (· ∉ kept)).take e
    · have hnot : c ∉ kept := by simpa using (mem_filter.mp (mem_of_mem_take hmem)).2
      rw [count_eq_zero.mpr hnot]
      omega
    · rw [count_eq_zero.mpr hmem]
      omega
  · intro b hb _
    rw [uncachedOf, hblocks, hcached, drop_left' (by simp)] at hb
    exact Or.inr hb

theorem KInv.edit_of_append (h : KInv p (pre ++ g :: post) l) (hedit : Edits r g g') {n : ℕ}
    (hblocks : g'.blocksOf r = g.blocksOf r ++ l.take n) (hcached : g'.cachedOf r = g.cachedOf r)
    (hnull : p'.nullBlock = p.nullBlock) (hpool : p'.Inv (l.take n ++ heldAll (pre ++ g :: post)) l')
    (hhash : ∀ c, (p'.blocks c).blockHash =
      if c ∈ l.take n then none else (p.blocks c).blockHash) :
    KInv p' (pre ++ g' :: post) l' := by
  have hold := (Edits.refl r g).heldAll_perm pre post
  refine h.edit_of_fresh hedit hnull ?_ ?_ (fun b hb => mem_of_mem_take hb) ?_ hhash
  · refine hpool.perm ((hold.append_left _).trans ?_)
    rw [hblocks, ← append_assoc]
    exact perm_append_comm.append_right _
  · refine nodup_filter_iff.mpr fun c hc => ?_
    have hblock := nodup_filter_iff.mp (h.groups.nodup g (by simp) r) c hc
    have hfresh := nodup_iff_count_le_one.mp h.pool.ref.queue.nodup c
    rw [hblocks, count_append]
    -- a block of the queue is not held
    by_cases hmem : c ∈ l.take n
    · have hnot : c ∉ g.blocksOf r := fun hc' =>
        h.pool.ref.not_mem_of_mem (mem_of_mem_take hmem)
          (mem_heldAll_of_mem_blocksOf (by simp) hc')
      rw [count_eq_zero.mpr hnot]
      have := (take_sublist n l).count_le c
      omega
    · rw [count_eq_zero.mpr hmem]
      omega
  · intro b hb _
    rw [uncachedOf, hblocks, hcached, drop_append] at hb
    exact (mem_append.mp hb).imp_right mem_of_mem_drop

section Hashed

variable [DecidableEq H]

/-- What a manager has after it has taken its round for a request. -/
structure TookRound (p p' : BlockPool H) (l : List ℕ) (r : String) (hits : List ℕ)
    (numLocal numExternal : ℕ) (g g' : SingleTypeKVCacheManager) : Prop where
  edits : Edits r g g'
  /-- The list: null blocks before the window, the hits, the fresh blocks. -/
  blocksOf : g'.blocksOf r =
    List.replicate (g.numSkippedBlocks (numLocal + numExternal)) p.nullBlock ++
      (g.round hits numLocal numExternal).1 ++
      (l.filter (· ∉ (g.round hits numLocal numExternal).1)).take (g.round hits numLocal numExternal).2
  /-- All but the fresh blocks count as stored. -/
  cached : g'.numCachedBlock.get? r =
    some (g.numSkippedBlocks (numLocal + numExternal) + (g.round hits numLocal numExternal).1.length)
  /-- The fresh blocks lose their hashes. -/
  blockHash : ∀ c, (p'.blocks c).blockHash =
    if c ∈ (l.filter (· ∉ (g.round hits numLocal numExternal).1)).take
      (g.round hits numLocal numExternal).2 then none else (p.blocks c).blockHash

/-- **Taking over hits** and taking blocks for external tokens, for a request that has nothing in
the group. -/
theorem KInv.allocateNewComputedBlocks (h : KInv p (pre ++ g :: post) l)
    (hidle : g.numCachedBlock.get? r = none) (hempty : g.blocksOf r = [])
    {hits : List ℕ} {numLocal numExternal : ℕ} {round : List ℕ × ℕ}
    (hround : g.round hits numLocal numExternal = round)
    (hlt : ∀ b ∈ round.1, b < p.numGpuBlocks) (hnd : (round.1.filter (· ≠ p.nullBlock)).Nodup)
    (hoff : p.enableCaching = false → round.1 = [])
    (hmax : max (g.numSkippedBlocks (numLocal + numExternal)) hits.length
      ≤ cdiv (numLocal + numExternal) g.spec.blockSize)
    (hroom : round.2 ≤ (l.filter (· ∉ round.1)).length) :
    Returns (g.allocateNewComputedBlocks r hits numLocal numExternal p) fun x =>
      KInv x.2 (pre ++ x.1 :: post) ((l.filter (· ∉ round.1)).drop round.2) ∧
        Same p x.2 ∧ TookRound p x.2 l r hits numLocal numExternal g x.1 := by
  obtain ⟨kept, e⟩ := round
  obtain ⟨hkept, he⟩ := Prod.mk.inj hround
  dsimp only at hlt hnd hoff hroom ⊢
  have hlen : g.numSkippedBlocks (numLocal + numExternal) + kept.length
      = max (g.numSkippedBlocks (numLocal + numExternal)) hits.length := by
    rw [← hkept, keptHits, length_drop]
    omega
  -- without caching there is nothing to touch
  have htouch : touchComputed p kept = p.touch kept := by
    unfold touchComputed
    cases hcaching : p.enableCaching with
    | true => rfl
    | false =>
      rw [hoff hcaching]
      rfl
  -- what remains is the same for both branches
  have hdone : ∀ (g' : SingleTypeKVCacheManager) (p' : BlockPool H), Edits r g g' →
      g'.blocksOf r = List.replicate (g.numSkippedBlocks (numLocal + numExternal)) p.nullBlock ++
        kept ++ (l.filter (· ∉ kept)).take e →
      g'.numCachedBlock.get? r
        = some (g.numSkippedBlocks (numLocal + numExternal) + kept.length) →
      p'.Inv ((l.filter (· ∉ kept)).take e ++ (kept ++ heldAll (pre ++ g :: post)))
        ((l.filter (· ∉ kept)).drop e) →
      Same p p' →
      (∀ c, (p'.blocks c).blockHash =
        if c ∈ (l.filter (· ∉ kept)).take e then none else (p.blocks c).blockHash) →
      KInv p' (pre ++ g' :: post) ((l.filter (· ∉ kept)).drop e) ∧ Same p p' ∧
        TookRound p p' l r hits numLocal numExternal g g' := by
    intro g' p' hedit hblocks hcached hpool hsame hhash
    refine ⟨h.edit_of_round hempty hnd hedit hblocks ?_ hsame hpool hhash, hsame, hedit, ?_, ?_, ?_⟩
    · rw [cachedOf, hcached, Option.getD_some]
    · rw [hround]
      exact hblocks
    · rw [hround]
      exact hcached
    · rw [hround]
      exact hhash
  unfold SingleTypeKVCacheManager.allocateNewComputedBlocks
  rw [if_neg (by rw [Dict.contains, hidle]; decide), if_neg (by rw [hempty]; simp)]
  dsimp only
  rw [← keptHits, hkept, htouch, returns_bind]
  refine (h.pool.touch hlt).mono ?_
  rintro q ⟨hq, hsame, hhash⟩
  rw [hsame.nullBlock]
  unfold externalBlocks at he
  dsimp only at he
  generalize (if 0 < g.numSkippedBlocks (numLocal + numExternal) then _ else numExternal) = external
    at he ⊢
  by_cases hext : 0 < external
  · -- the pool is asked for the blocks of external tokens
    rw [if_pos hext] at he ⊢
    have hcount : ((cdiv (numLocal + numExternal) g.spec.blockSize : ℤ)
        - (List.replicate (g.numSkippedBlocks (numLocal + numExternal)) p.nullBlock ++ kept).length)
          = e := by
      rw [length_append, length_replicate, hlen]
      omega
    show Returns (q.getNewBlocks ((cdiv (numLocal + numExternal) g.spec.blockSize : ℤ)
      - (List.replicate _ p.nullBlock ++ kept).length) >>= _) _
    rw [hcount, returns_bind]
    refine (hq.getNewBlocks hroom).mono ?_
    rintro ⟨fresh, p'⟩ ⟨rfl, hpool, hsame', hhash'⟩
    refine returns_pure.mpr (hdone _ p' ?_ ?_ ?_ hpool (hsame.trans hsame') fun c => ?_)
    · exact ((edits_setBlocks g r _).trans
        (edits_setCached _ r _)).trans
        (edits_setBlocks _ r _)
    · rw [blocksOf_setBlocks, if_pos rfl]
    · show (set _ r _).get? r = _
      rw [get?_set_self, length_append, length_replicate]
    · rw [hhash', hhash.blockHash]
  · rw [if_neg hext] at he ⊢
    subst he
    refine returns_pure.mpr (hdone _ q ?_ ?_ ?_ ?_ hsame fun c => ?_)
    · exact (edits_setBlocks g r _).trans
        (edits_setCached _ r _)
    · rw [take_zero, append_nil]
      show (setBlocks g r _).blocksOf r = _
      rw [blocksOf_setBlocks, if_pos rfl]
    · show (set _ r _).get? r = _
      rw [get?_set_self, length_append, length_replicate]
    · exact hq
    · rw [take_zero, if_neg (by simp)]
      exact hhash.blockHash c

/-- **Taking new blocks**. -/
theorem KInv.allocateNewBlocks (h : KInv p (pre ++ g :: post) l) {numTokens n : ℕ}
    (hn : cdiv numTokens g.spec.blockSize - (g.blocksOf r).length = n) (hroom : n ≤ l.length) :
    Returns (g.allocateNewBlocks r numTokens p) fun x =>
      KInv x.2 (pre ++ x.1.2 :: post) (l.drop n) ∧ Same p x.2 ∧ Edits r g x.1.2 ∧
        x.1.1 = l.take n ∧ x.1.2.blocksOf r = g.blocksOf r ++ l.take n ∧
        x.1.2.numCachedBlock = g.numCachedBlock ∧
        ∀ c, (x.2.blocks c).blockHash = if c ∈ l.take n then none else (p.blocks c).blockHash := by
  have hdone : ∀ p' : BlockPool H, p'.Inv (l.take n ++ heldAll (pre ++ g :: post)) (l.drop n) →
      Same p p' →
      (∀ c, (p'.blocks c).blockHash = if c ∈ l.take n then none else (p.blocks c).blockHash) →
      KInv p' (pre ++ g.setBlocks r (g.blocksOf r ++ l.take n) :: post) (l.drop n) := by
    intro p' hpool hsame hhash
    refine h.edit_of_append (edits_setBlocks g r _) ?_ rfl hsame.nullBlock
      hpool hhash
    rw [blocksOf_setBlocks, if_pos rfl]
  unfold SingleTypeKVCacheManager.allocateNewBlocks
  dsimp only
  split_ifs with hle
  · -- the list is long enough
    obtain rfl : n = 0 := by omega
    have hsame := Same.refl p
    have hinv := hdone p h.pool hsame (by simp)
    rw [take_zero, append_nil] at hinv ⊢
    refine returns_ok.mpr ⟨hinv, hsame, edits_setBlocks g r _, rfl, ?_, rfl,
      by simp⟩
    rw [blocksOf_setBlocks, if_pos rfl]
  · have hcount : ((cdiv numTokens g.spec.blockSize : ℤ) - (g.blocksOf r).length) = n := by omega
    rw [hcount, returns_bind]
    refine (h.pool.getNewBlocks hroom).mono ?_
    rintro ⟨fresh, p'⟩ ⟨rfl, hpool, hsame, hhash⟩
    refine returns_pure.mpr ⟨hdone p' hpool hsame hhash, hsame,
      edits_setBlocks g r _, rfl, ?_, rfl, hhash⟩
    rw [blocksOf_setBlocks, if_pos rfl]

/-! ### Storing blocks -/

/-- The blocks of a request that are stored next: full ones that do not count as stored. -/
def SingleTypeKVCacheManager.toStore (g : SingleTypeKVCacheManager) (r : String) (numTokens : ℕ) :
    List ℕ :=
  ((g.blocksOf r).take (numTokens / g.spec.blockSize)).drop (g.cachedOf r)

theorem SingleTypeKVCacheManager.mem_uncachedOf_of_mem_toStore {numTokens b : ℕ}
    (hb : b ∈ g.toStore r numTokens) : b ∈ g.uncachedOf r := by
  rw [toStore, drop_take] at hb
  exact mem_of_mem_take hb

theorem SingleTypeKVCacheManager.exists_of_mem_toStore {numTokens b : ℕ}
    (hb : b ∈ g.toStore r numTokens) :
    ∃ i, g.cachedOf r ≤ i ∧ i < numTokens / g.spec.blockSize ∧ (g.blocksOf r)[i]? = some b := by
  obtain ⟨i, hi⟩ := mem_iff_getElem?.mp hb
  rw [toStore, List.getElem?_drop, List.getElem?_take] at hi
  split_ifs at hi with hlt
  exact ⟨g.cachedOf r + i, Nat.le_add_right .., hlt, hi⟩

/-- How storing the full blocks of a request changes the hashes. -/
structure StoredHashes (p p' : BlockPool H) (request : KvRequest H) (numTokens : ℕ)
    (g : SingleTypeKVCacheManager) : Prop where
  /-- Other blocks keep theirs. -/
  other : ∀ c, c ∉ g.toStore request.requestId numTokens ∨ c = p.nullBlock →
    (p'.blocks c).blockHash = (p.blocks c).blockHash
  /-- A block that is stored has the hash at its place. -/
  stored : ∀ (i b : ℕ) (hash : List H), g.cachedOf request.requestId ≤ i →
    i < numTokens / g.spec.blockSize → (g.blocksOf request.requestId)[i]? = some b →
    (regroup request.blockHashes (g.spec.blockSize / p.hashBlockSize))[i]? = some hash →
    b ≠ p.nullBlock → (p'.blocks b).blockHash = some (hash, g.kvCacheGroupId)

theorem eq_null_of_mem_take_of_mem_drop {null b n : ℕ} {bs : List ℕ}
    (hnd : (bs.filter (· ≠ null)).Nodup) (htake : b ∈ bs.take n) (hdrop : b ∈ bs.drop n) :
    b = null := by
  by_contra hb
  have hcount := nodup_filter_iff.mp hnd b hb
  rw [← take_append_drop n bs, count_append] at hcount
  have := count_pos_iff.mpr htake
  have := count_pos_iff.mpr hdrop
  omega

/-- **Storing** the full blocks of a request in one group. -/
theorem KInv.cacheBlocks (h : KInv p (pre ++ g :: post) l) {request : KvRequest H} {numTokens : ℕ}
    (hcaching : p.enableCaching = true) (hpos : 0 < p.hashBlockSize)
    (hdvd : g.spec.blockSize % p.hashBlockSize = 0)
    (hfull : numTokens / g.spec.blockSize ≤ (g.blocksOf request.requestId).length)
    (hhashes : numTokens / g.spec.blockSize
      ≤ request.blockHashes.length / (g.spec.blockSize / p.hashBlockSize)) :
    Returns (g.cacheBlocks request numTokens p) fun x =>
      KInv x.2 (pre ++ x.1 :: post) l ∧ Same p x.2 ∧ Edits request.requestId g x.1 ∧
        x.1.blocksOf request.requestId = g.blocksOf request.requestId ∧
        x.1.cachedOf request.requestId
          = max (g.cachedOf request.requestId) (numTokens / g.spec.blockSize) ∧
        StoredHashes p x.2 request numTokens g := by
  unfold SingleTypeKVCacheManager.cacheBlocks
  dsimp only
  set r := request.requestId
  split_ifs with hle
  · refine returns_ok.mpr ⟨h, Same.refl p, Edits.refl _ g, rfl, (max_eq_left hle).symm,
      fun c _ => rfl, fun i b hash hi hlt => ?_⟩
    exact absurd (hi.trans_lt hlt) (Nat.not_lt.mpr hle)
  · have hg : g ∈ pre ++ g :: post := by simp
    have hnd := h.groups.nodup g hg r
    -- what is stored does not count as such before, and does afterwards
    have hsub : ∀ b ∈ g.toStore r numTokens, b ∈ g.uncachedOf r :=
      fun b hb => mem_uncachedOf_of_mem_toStore hb
    have hleft : ∀ b ∈ g.toStore r numTokens, b ≠ p.nullBlock →
        b ∉ (g.blocksOf r).drop (numTokens / g.spec.blockSize) :=
      fun b hb hbn hdrop => hbn (eq_null_of_mem_take_of_mem_drop hnd (mem_of_mem_drop hb) hdrop)
    have hlen : request.blockHashes.length / (g.spec.blockSize / p.hashBlockSize)
        ≤ request.blockHashes.length := Nat.div_le_self ..
    unfold cacheFullBlocks
    rw [if_neg hle, if_neg (by omega), hashesAt_eq hpos hdvd]
    show Returns (cacheLoop g.kvCacheGroupId p (g.toStore r numTokens) _ >>= _) _
    rw [returns_bind]
    refine (Inv.cacheLoop _ _ p h.pool hcaching ?_ ?_ ?_ ?_).mono ?_
    · rw [toStore, length_drop, length_take, length_drop, length_regroup]
      omega
    · intro b hb
      exact h.pool.ref.lt b (mem_heldAll_of_mem_blocksOf hg (mem_of_mem_drop (hsub b hb)))
    · exact fun b hb hbn => h.groups.plain g hg r b (hsub b hb) hbn
    · refine hnd.sublist (List.Sublist.filter _ ?_)
      exact (drop_sublist _ _).trans (take_sublist _ _)
    · rintro p' ⟨hpool, hsame, hother, hstored⟩
      have hdone : ∀ g', Edits r g g' → g'.blocksOf r = g.blocksOf r →
          g'.cachedOf r = numTokens / g.spec.blockSize → KInv p' (pre ++ g' :: post) l := by
        intro g' hedit hblocks hcached
        have hunc : g'.uncachedOf r = (g.blocksOf r).drop (numTokens / g.spec.blockSize) := by
          rw [uncachedOf, hblocks, hcached]
        refine h.edit hedit hsame.nullBlock ?_ (by rwa [hblocks]) ?_ ?_
        · rw [hblocks]
          exact hpool.perm ((Edits.refl _ g).heldAll_perm pre post)
        · intro b hb hbn
          rw [hunc] at hb
          -- no fewer blocks count as stored than before
          have hold : b ∈ g.uncachedOf r := drop_subset_drop_left _ (Nat.le_of_not_le hle) hb
          refine ⟨?_, Or.inl hold⟩
          rw [hother b (Or.inl fun hs => hleft b hs hbn hb)]
          exact h.groups.plain g hg r b hold hbn
        · intro b hbn hnone
          by_cases hs : b ∈ g.toStore r numTokens
          · exact Or.inr ⟨hsub b hs, by rw [hunc]; exact hleft b hs hbn⟩
          · exact Or.inl ((hother b (Or.inl hs)).trans hnone)
      have hedit := (edits_setBlocks g r (g.blocksOf r)).trans
        (edits_setCached _ _ (numTokens / g.spec.blockSize))
      have hblocks : ((g.setBlocks r (g.blocksOf r)).setCached r
          (numTokens / g.spec.blockSize)).blocksOf r = g.blocksOf r := by
        show (setBlocks g _ _).blocksOf _ = _
        rw [blocksOf_setBlocks, if_pos rfl]
      have hcached : ((g.setBlocks r (g.blocksOf r)).setCached r
          (numTokens / g.spec.blockSize)).cachedOf r = numTokens / g.spec.blockSize := by
        show ((Dict.set _ _ _).get? _).getD 0 = _
        rw [get?_set_self, Option.getD_some]
      refine returns_pure.mpr ⟨hdone _ hedit hblocks hcached, hsame, hedit, hblocks,
        hcached.trans (max_eq_right (by omega)).symm, hother, fun i b hash hi hlt hb hh hbn => ?_⟩
      refine hstored (i - g.cachedOf r) b hash ?_ ?_ hbn
      · rw [toStore, List.getElem?_drop, Nat.add_sub_cancel' hi, List.getElem?_take, if_pos hlt]
        exact hb
      · rw [List.getElem?_drop, Nat.add_sub_cancel' hi]
        exact hh

end Hashed

end Groups

end CacheFlow
