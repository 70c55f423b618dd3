import CacheFlow.Server.Store

/-!
# Writing with `skip_existing` is exclusive

When every allocation skips the keys that are READY or being written, a key is never both, nor
written by two sessions, and so a commit finds no version to replace and nothing is ever retired.
All operations but an allocation and a commit only take keys away (`Thins`), whether they return or
raise, so the exclusion has to be looked at in those two.

## Main results

* `Store.along_allocateKey`, `Store.along_commitKey` — one key of an allocation or a commit.
* `Store.exclusive_run` — whole runs.
-/

namespace CacheFlow

open Dict StoreReply

namespace Store

/-- No key is both READY and being written, none is being written by two sessions, and no version
has been replaced while it was pinned. -/
structure Exclusive (s : Store) : Prop where
  apart : ∀ k t, (k, t) ∈ s.writing.keys → k ∉ s.index.keys
  session : ∀ k t t', (k, t) ∈ s.writing.keys → (k, t') ∈ s.writing.keys → t = t'
  retired : s.retired = []

/-- Keys have only been taken away. -/
structure Thins (s s' : Store) : Prop where
  index : ∀ k ∈ s'.index.keys, k ∈ s.index.keys
  writing : ∀ p ∈ s'.writing.keys, p ∈ s.writing.keys
  retired : s.retired = [] → s'.retired = []

variable {α : Type} {s s' : Store} {k : String}

theorem Thins.of_eq (hi : s'.index = s.index) (hw : s'.writing = s.writing)
    (hr : s'.retired = s.retired) : Thins s s' :=
  ⟨fun _ h => hi ▸ h, fun _ h => hw ▸ h, fun h => hr.trans h⟩

instance : IsPreorder Store Thins where
  refl _ := .of_eq rfl rfl rfl
  trans _ _ _ h h' :=
    ⟨fun k hk => h.index k (h'.index k hk), fun p hp => h.writing p (h'.writing p hp),
      fun hr => h'.retired (h.retired hr)⟩

theorem Exclusive.thins (h : s.Exclusive) (ht : Thins s s') : s'.Exclusive where
  apart k t hp hk := h.apart k t (ht.writing _ hp) (ht.index k hk)
  session k t t' hp hp' := h.session k t t' (ht.writing _ hp) (ht.writing _ hp')
  retired := ht.retired h.retired

/-! ### The methods that take keys away -/

theorem thins_onAlloc (m : EStateM PyErr ExtentAllocator α) : Along Thins (onAlloc m) := by
  intro s
  unfold finalState onAlloc
  cases m s.alloc <;> exact .of_eq rfl rfl rfl

theorem thins_freeEntry (e : Entry) : Along Thins (freeEntry e) :=
  Along.bind (fun _ => .of_eq rfl rfl rfl) fun _ => thins_onAlloc _

theorem thins_dropReady (k : String) (e : Entry) : Along Thins (dropReady k e) := by
  refine Along.bind (fun s => ⟨fun k' hk' => ?_, fun _ h => h, fun h => h⟩) fun _ =>
    thins_freeEntry e
  exact List.mem_of_mem_erase (keys_erase s.index k ▸ hk')

theorem thins_evictOne : Along Thins evictOne := by
  have hscan : ∀ keys, Along Thins (evictScan keys) := by
    intro keys
    induction keys with
    | nil => exact along_pure false
    | cons k keys ih =>
      refine along_get.bind fun s => ?_
      cases s.index.get? k with
      | none => exact along_throw _
      | some e =>
        dsimp only
        split_ifs
        · exact (thins_dropReady k e).bind fun _ => along_pure true
        · exact ih
  exact along_get.bind fun s => hscan _

theorem thins_allocate (n : ℤ) : Along Thins (allocate n) := by
  have hloop : ∀ fuel, Along Thins (allocateLoop n fuel) := by
    intro fuel
    induction fuel with
    | zero => exact along_pure none
    | succ fuel ih =>
      refine Along.bind (along_get.bind fun s => ?_) fun off => ?_
      · split_ifs
        · exact thins_onAlloc _
        · exact along_pure none
      · cases off with
        | some off => exact along_pure _
        | none =>
          refine thins_evictOne.bind fun b => ?_
          split_ifs
          · exact ih
          · exact along_pure none
  exact along_get.bind fun s => hloop _

theorem thins_setCapacity (c : ℤ) : Along Thins (setCapacity c) := by
  have hloop : ∀ fuel, Along Thins (shrinkLoop fuel) := by
    intro fuel
    induction fuel with
    | zero => exact along_pure ()
    | succ fuel ih =>
      refine along_get.bind fun s => ?_
      split_ifs
      · refine thins_evictOne.bind fun b => ?_
        split_ifs
        · exact ih
        · exact along_pure ()
      · exact along_pure ()
  exact Along.bind (fun _ => .of_eq rfl rfl rfl) fun _ =>
    along_get.bind fun s => (hloop _).bind fun _ => along_get.bind fun s => along_pure _

theorem thins_flush : Along Thins flush := by
  refine along_get.bind fun s => along_foldlM (fun n k => along_get.bind fun s => ?_) _ 0
  cases s.index.get? k with
  | none => exact along_throw _
  | some e =>
    dsimp only
    split_ifs
    · exact (thins_dropReady k e).bind fun _ => along_pure _
    · exact along_pure _

theorem thins_moveToEnd (k : String) : Along Thins (moveToEnd k) := by
  refine along_get_bind fun s => ?_
  split_ifs <;> exact .of_eq rfl rfl rfl

theorem thins_set_index {e : Entry} (he : s.index.get? k = some e) (e' : Entry) :
    Thins s { s with index := s.index.set k e' } := by
  refine ⟨fun k' hk' => ?_, fun _ h => h, fun h => h⟩
  rcases mem_keys_set.mp hk' with rfl | hk'
  · exact mem_keys_iff.mpr ⟨e, he⟩
  · exact hk'

theorem thins_lookup (keys : List String) (ranks : ℤ) (pin : Bool) (leaseMs : ℤ) (owner : String)
    (now : ℚ) : Along Thins (lookup keys ranks pin leaseMs owner now) := by
  have hpin : ∀ k, Along Thins (pinEntry k) := by
    intro k
    refine along_modify fun s => ?_
    split
    · exact refl_of Thins s
    · rename_i e he
      exact thins_set_index he _
  refine along_get.bind fun s => (along_forM thins_moveToEnd _).bind fun _ => ?_
  split_ifs
  · exact (along_forM hpin _).bind fun _ => along_get_bind fun s => .of_eq rfl rfl rfl
  · exact along_pure _

theorem thins_unpin (k : String) : Along Thins (unpin k) := by
  have hretired : Along Thins (unpinRetired k) := by
    refine along_get_bind fun s => ?_
    cases hi : s.retired.findIdx? fun r => r.key = k ∧ 0 < r.pins with
    | none => exact refl_of Thins s
    | some i =>
      -- something is retired, and so nothing is said about it
      have hne : s.retired ≠ [] := fun h => by simp [h] at hi
      dsimp only
      cases s.retired[i]? with
      | none => exact refl_of Thins s
      | some r =>
        refine along_set_bind ⟨fun _ h => h, fun _ h => h, fun h => absurd h hne⟩ ?_
        split_ifs
        · refine (thins_freeEntry _).bind fun _ s => ⟨fun _ h => h, fun _ h => h, fun h => ?_⟩
          show s.retired.eraseIdx i = []
          rw [h, List.eraseIdx_nil]
        · exact along_pure ()
  refine along_get_bind fun s => ?_
  cases he : s.index.get? k with
  | none => exact hretired s
  | some e =>
    dsimp only
    split_ifs
    · exact thins_set_index he _
    · exact hretired s

theorem thins_release (lid : ℤ) : Along Thins (release lid) := by
  refine along_get_bind fun s => ?_
  cases s.leases.get? lid with
  | none => exact refl_of Thins s
  | some lease =>
    exact along_set_bind (.of_eq rfl rfl rfl)
      ((along_forM thins_unpin lease.keys).bind fun _ => along_pure true)

theorem thins_expireLeases (now : ℚ) : Along Thins (expireLeases now) :=
  along_get.bind fun _ => (along_forM (fun lid => (thins_release lid).bind fun _ =>
    along_pure ()) _).bind fun _ => along_pure _

theorem thins_erase_writing (s : Store) (p : String × String) :
    Thins s { s with writing := s.writing.erase p } := by
  refine ⟨fun _ h => h, fun q hq => ?_, fun h => h⟩
  obtain ⟨e, he⟩ := mem_keys_iff.mp hq
  rw [get?_erase] at he
  split_ifs at he
  exact mem_keys_iff.mpr ⟨e, he⟩

theorem thins_abort (keys : List String) (session : String) : Along Thins (abort keys session) := by
  refine along_foldlM (fun n k => along_get_bind fun s => ?_) keys 0
  cases s.writing.get? (k, session) with
  | none => exact refl_of Thins s
  | some e =>
    exact along_set_bind (thins_erase_writing s _)
      ((thins_freeEntry e).bind fun _ => along_pure (n + 1))

/-! ### Allocating and committing -/

/-- The exclusion is kept. -/
def KeepsExclusive (s s' : Store) : Prop := s.Exclusive → s'.Exclusive

instance : IsPreorder Store KeepsExclusive where
  refl _ h := h
  trans _ _ _ h h' hs := h' (h hs)

/-- A new entry is for a key that is neither READY nor being written. -/
theorem along_allocateKey (size : ℤ) (session k : String) :
    Along KeepsExclusive (allocateKey size session true k) := by
  refine along_get_bind fun s h => ?_
  split_ifs with hexists hbusy hmine
  · exact h.thins ((thins_moveToEnd k).bind (fun _ => along_pure _) s)
  · exact h
  · exact h
  · rw [finalState_bind]
    have hthins := thins_allocate size s
    rw [finalState] at hthins
    cases hres : allocate size s with
    | error e s' => rw [hres] at hthins; exact h.thins hthins
    | ok off s' =>
      rw [hres] at hthins
      have h' := h.thins hthins
      cases off with
      | none => exact h'
      | some off =>
        -- making room has only taken keys away, so the key is still free
        have hk : k ∉ s'.index.keys := fun hk =>
          hexists ⟨rfl, contains_iff_mem_keys.mpr (hthins.index k hk)⟩
        have hw : ∀ t, (k, t) ∉ s'.writing.keys := fun t ht =>
          hbusy ⟨rfl, List.any_eq_true.mpr ⟨(k, t), hthins.writing _ ht, by simp⟩⟩
        refine ⟨fun k' t hp => ?_, fun k' t t' hp hp' => ?_, h'.retired⟩
        · rcases mem_keys_set.mp hp with heq | hp
          · rwa [(Prod.mk.inj heq).1]
          · exact h'.apart k' t hp
        · rcases mem_keys_set.mp hp with heq | hp <;>
            rcases mem_keys_set.mp hp' with heq' | hp'
          · rw [(Prod.mk.inj heq).2, (Prod.mk.inj heq').2]
          · exact absurd ((Prod.mk.inj heq).1 ▸ hp') (hw t')
          · exact absurd ((Prod.mk.inj heq').1 ▸ hp) (hw t)
          · exact h'.session k' t t' hp hp'

/-- A commit finds nothing under its key. -/
theorem along_commitKey (session : String) (n : ℕ) (k : String) :
    Along KeepsExclusive (commitKey session n k) := by
  intro s h
  refine Sat.of_finalState ?_
  unfold commitKey
  simp only [sat_bind, sat_get]
  cases hget : s.writing.get? (k, session) with
  | none => exact sat_pure.mpr h
  | some e =>
    have hp := mem_keys_iff.mpr ⟨e, hget⟩
    have hold : s.index.get? k = none := get?_eq_none_iff.mpr (h.apart k session hp)
    have h' := h.thins (thins_erase_writing s (k, session))
    simp only [sat_bind, sat_set, replaceOld, sat_get, hold, sat_pure, sat_modify]
    refine ⟨fun k' t hp' hk' => ?_, h'.session, h'.retired⟩
    rcases mem_keys_set.mp hk' with rfl | hk'
    · -- the session has stopped writing the key, and no other one was
      obtain ⟨e', he'⟩ := mem_keys_iff.mp hp'
      rw [get?_erase] at he'
      split_ifs at he' with hne
      exact hne (by rw [h.session k' t session (mem_keys_iff.mpr ⟨e', he'⟩) hp])
    · exact h'.apart k' t hp' hk'

end Store

/-- An allocation skips the keys that are READY or being written. -/
def StoreOp.SkipsExisting : StoreOp → Prop
  | .allocateForWrite _ _ _ skip => skip = true
  | _ => True

namespace Store

theorem Exclusive.step {s : Store} (h : s.Exclusive) {op : StoreOp} (hop : op.SkipsExisting) :
    (s.step op).Exclusive := by
  cases op with
  | allocateForWrite keys size session skip =>
    obtain rfl : skip = true := hop
    have hm := along_mapM (along_allocateKey size session) keys
    exact hm.bind (fun out => along_pure (allocated out)) s h
  | commit keys session =>
    have hm := along_foldlM (along_commitKey session) keys 0
    exact hm.bind (fun n => along_pure (count n)) s h
  | abort keys session =>
    exact h.thins ((thins_abort keys session).bind (fun n => along_pure (count n)) s)
  | dropSession session =>
    have hm : Along Thins (dropSession session) := along_get.bind fun s => thins_abort _ session
    exact h.thins (hm.bind (fun n => along_pure (count n)) s)
  | lookup keys ranks pin leaseMs owner now =>
    have hm := thins_lookup keys ranks pin leaseMs owner now
    exact h.thins (hm.bind (fun r => along_pure (found r)) s)
  | release lid =>
    exact h.thins ((thins_release lid).bind (fun b => along_pure (released b)) s)
  | expireLeases now =>
    exact h.thins ((thins_expireLeases now).bind (fun n => along_pure (count n)) s)
  | setCapacity c =>
    exact h.thins ((thins_setCapacity c).bind (fun r => along_pure (capacity r)) s)
  | flush => exact h.thins (thins_flush.bind (fun n => along_pure (count n)) s)

/-- **Deduplicated writing is exclusive.** In every run in which all allocations skip existing
keys, whatever their sizes and whoever calls, no key is both READY and being written, none is being
written by two sessions, and nothing is retired. -/
theorem exclusive_run (pool page : ℕ) (hpage : 0 < page) (capacity : Option ℤ)
    (ops : List StoreOp) (hskip : ∀ op ∈ ops, op.SkipsExisting) :
    ((init pool page hpage capacity).run ops).Exclusive := by
  refine foldl_invariant ops _ (fun op hop s h => h.step (hskip op hop)) ?_
  exact ⟨fun _ _ hp => (by cases hp), fun _ _ _ hp => (by cases hp), rfl⟩

theorem exclusive_two_sessions :
    let s := (init 12 4 (by decide) none).run
      [.allocateForWrite ["a", "a"] 4 "w" true, .allocateForWrite ["a", "b"] 4 "v" true,
        .commit ["a"] "w"]
    s.index.keys = ["a"] ∧ s.writing.keys = [("b", "v")] ∧ s.Exclusive :=
  ⟨by decide +kernel, by decide +kernel,
    exclusive_run 12 4 (by decide) none _ (by simp [StoreOp.SkipsExisting])⟩

end Store

end CacheFlow
