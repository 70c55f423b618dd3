import CacheFlow.Server.StoreRun

/-!
# Whose pin a lease takes off

A lease lists keys, and `lookup` hands out entry objects. Between the two, a commit
may have replaced the version behind a key. `_unpin` then takes the pin off the first
pinned version it finds, READY before retired and old before new, which is not always
the one the lease pinned: releasing a lease on a retired version can unpin a newer
version that another lease is still reading.

`Traced` adds to the store the history that says which entries each lease was given.

## Main definitions

* `Traced.LeaseSafe` — every entry under an active lease still owns its pages.

## Main results

* `Traced.leaseSafe_of_ownReach` — if each lease, when it ends, has its own versions come first.
-/

namespace CacheFlow

open List Dict Entry

/-- The entries a reply hands out under a lease. -/
def StoreReply.held : StoreReply → List (ℤ × Entry)
  | .found ⟨_, some l, rows⟩ => rows.flatten.map fun e => (l.leaseId, e)
  | _ => []

/-- A store, and the entries its lookups have handed out under leases. -/
structure Traced where
  store : Store
  /-- The entries handed out, with the lease. -/
  held : List (ℤ × Entry)

namespace Traced

open Store

/-- A new store. -/
def init (pool page : ℕ) (hpage : 0 < page) (capacity : Option ℤ) : Traced :=
  ⟨Store.init pool page hpage capacity, []⟩

/-- Carry out an operation. -/
def step (t : Traced) (op : StoreOp) : Traced :=
  match op.exec t.store with
  | .ok r s' => ⟨s', t.held ++ r.held⟩
  | .error _ s' => ⟨s', t.held⟩

/-- Carry out a run of operations. -/
def run (t : Traced) (ops : List StoreOp) : Traced := ops.foldl step t

/-- The lease is active. -/
def Active (t : Traced) (lid : ℤ) : Bool := t.store.leases.contains lid

/-- How often active leases pinned the object `u`. -/
def holds (t : Traced) (u : ℕ) : ℕ := t.held.countP fun h => t.Active h.1 && h.2.uid == u

/-- **Lease safety.** An entry handed out under a lease that is still active has not
been freed; it is in the store, in its place, with a pin for each time an active lease
pinned it; and no allocation returns pages that overlap its own. -/
def LeaseSafe (t : Traced) : Prop :=
  ∀ h ∈ t.held, t.Active h.1 = true →
    h.2.uid ∉ t.store.freed ∧
    (∃ e ∈ t.store.live, e.core = h.2.core ∧ t.holds h.2.uid ≤ e.pins) ∧
    ∀ keys size session skip, 0 < size →
      Sat (allocateForWrite keys size session skip) t.store fun out s' =>
        ∀ a ∈ out, ∀ e, a.2 = some e →
          Disjoint (s'.alloc.extent e.block).pages (s'.alloc.extent h.2.block).pages

/-! ### When a lease ends -/

/-- For each entry of the lease, it is the version of its key that `unpin` finds
first. -/
def OwnFirst (t : Traced) (lid : ℤ) : Prop :=
  ∀ h ∈ t.held, h.1 = lid → (t.store.unpinTarget h.2.key).map uid = some h.2.uid

/-- The same for leases that end one after the other. -/
def EndsOwn : Traced → List ℤ → Prop
  | _, [] => True
  | t, lid :: ls => (t.Active lid = true → t.OwnFirst lid) ∧ EndsOwn (t.step (.release lid)) ls

/-- The leases an operation ends have their own versions come first. -/
def OwnEnds (t : Traced) : StoreOp → Prop
  | .release lid => t.EndsOwn [lid]
  | .expireLeases now => t.EndsOwn (t.store.deadLeases now)
  | _ => True

/-- The states reached by operations with positive sizes that end leases only when
their own versions come first. -/
inductive OwnReach : Traced → Prop
  | init (pool page : ℕ) (hpage : 0 < page) (capacity : Option ℤ) :
      OwnReach (init pool page hpage capacity)
  | step {t : Traced} {op : StoreOp} : OwnReach t → op.PositiveSize → t.OwnEnds op →
      OwnReach (t.step op)

/-! ### Exact accounting by identity -/

/-- The pins of each object are those of the active leases that were given it. -/
structure Exact (t : Traced) : Prop where
  inv : t.store.Inv
  pins : ∀ u, pinCount (ofUid u) t.store.readable = t.holds u
  /-- An entry under an active lease is in its place. -/
  cores : ∀ h ∈ t.held, t.Active h.1 = true → h.2.core ∈ t.store.readable.map core
  heldIds : ∀ h ∈ t.held, h.1 < t.store.leaseIds
  ids : ∀ lid ∈ t.store.leases.keys, lid < t.store.leaseIds
  /-- A lease lists the keys of the entries it was given. -/
  keys : ∀ lid l, t.store.leases.get? lid = some l →
    l.keys = (t.held.filter fun h => h.1 = lid).map fun h => h.2.key

theorem exact_init (pool page : ℕ) (hpage : 0 < page) (capacity : Option ℤ) :
    (init pool page hpage capacity).Exact where
  inv := inv_init pool page hpage capacity
  pins := fun _ => rfl
  cores := fun h hh => by cases hh
  heldIds := fun h hh => by cases hh
  ids := fun lid hlid => by cases hlid
  keys := fun lid l hl => by cases hl

variable {s : Store}

theorem nodup_readable (h : s.Inv) : (s.readable.map uid).Nodup := by
  have hnd := h.owns.nodup
  rw [map_map, live, map_append] at hnd
  exact hnd.of_append_left

variable {e : Entry}

theorem eq_of_uid_eq (h : s.Inv) {e' : Entry} (he : e ∈ s.readable)
    (he' : e' ∈ s.readable) (heq : e.uid = e'.uid) : e = e' :=
  inj_on_of_nodup_map (nodup_readable h) he he' heq

theorem pinCount_ofUid (h : s.Inv) (he : e ∈ s.readable) :
    pinCount (ofUid e.uid) s.readable = e.pins := by
  have hp := perm_cons_erase he
  have hnd := (hp.map uid).nodup_iff.mp (nodup_readable h)
  rw [map_cons, nodup_cons] at hnd
  have hrest : pinCount (ofUid e.uid) (s.readable.erase e) = 0 := by
    refine sum_eq_zero fun n hn => ?_
    obtain ⟨e', he', rfl⟩ := mem_map.mp hn
    have hne : e'.uid ≠ e.uid := fun heq => hnd.1 (heq ▸ mem_map_of_mem he')
    simp [ofUid, hne]
  rw [pinCount_perm _ hp, pinCount_cons, hrest]
  simp [ofUid]

theorem exists_of_pinCount_ofUid {u : ℕ} (h : 0 < pinCount (ofUid u) s.readable) :
    ∃ e ∈ s.readable, e.uid = u ∧ 0 < e.pins := by
  obtain ⟨e, he, hsel, hpins⟩ := pinCount_pos _ h
  exact ⟨e, he, by simpa [ofUid] using hsel, hpins⟩

variable {t : Traced}

theorem holds_pos {h : ℤ × Entry} (hh : h ∈ t.held) (ha : t.Active h.1 = true) :
    0 < t.holds h.2.uid :=
  countP_pos_iff.mpr ⟨h, hh, by simp [ha]⟩

theorem Exact.exists_entry (ht : t.Exact) {h : ℤ × Entry} (hh : h ∈ t.held)
    (ha : t.Active h.1 = true) :
    ∃ e ∈ t.store.readable, e.core = h.2.core ∧ e.pins = t.holds h.2.uid := by
  obtain ⟨e, he, hcore⟩ := mem_map.mp (ht.cores h hh ha)
  have huid : e.uid = h.2.uid := congrArg Prod.fst hcore
  refine ⟨e, he, hcore, ?_⟩
  rw [← pinCount_ofUid ht.inv he, ht.pins, huid]

variable {s' : Store}

theorem mem_cores_of_kept (hk : Kept s s') (he : e ∈ s.readable)
    (hpins : 0 < e.pins) : e.core ∈ s'.readable.map core := by
  have hmem : ({ e with retired := false } : Entry) ∈ s'.pinnedEntries := by
    refine hk.pinned.mem_iff.mpr (mem_map.mpr ⟨e, mem_filter.mpr ⟨he, ?_⟩, rfl⟩)
    simpa using hpins
  obtain ⟨e', he', heq⟩ := mem_map.mp hmem
  refine mem_map.mpr ⟨e', (mem_filter.mp he').1, ?_⟩
  have hcore := congrArg core heq
  exact hcore

/-- Operations that touch neither leases nor pinned entries keep the accounting. -/
theorem Exact.kept (ht : t.Exact) (hk : Kept t.store s') : Exact ⟨s', t.held⟩ := by
  have hactive : ∀ lid, (⟨s', t.held⟩ : Traced).Active lid = t.Active lid := by
    intro lid
    rw [Active, Active, hk.leases]
  refine ⟨hk.inv, fun u => ?_, fun h hh ha => ?_, ?_, ?_, ?_⟩
  · rw [hk.pinCount, ht.pins, holds, holds]
    simp only [hactive]
  · rw [hactive] at ha
    obtain ⟨e, he, hcore, hpins⟩ := ht.exists_entry hh ha
    rw [← hcore]
    exact mem_cores_of_kept hk he (hpins ▸ holds_pos hh ha)
  · simpa only [hk.leaseIds] using ht.heldIds
  · simpa only [hk.leaseIds, hk.leases] using ht.ids
  · simpa only [hk.leases] using ht.keys

theorem sum_ofUid_eq_countP (u : ℕ) (es : List Entry) :
    (es.map fun e => if ofUid u e.uid e.key then 1 else 0).sum = es.countP fun e => e.uid == u := by
  induction es with
  | nil => rfl
  | cons e es ih =>
    rw [map_cons, sum_cons, ih, countP_cons, Nat.add_comm]
    simp [ofUid]

theorem Exact.leased (ht : t.Exact) {es : List Entry} {l : Lease} {s₁ : Store}
    (hp : Pinned t.store es s₁) (hready : ∀ e ∈ es, t.store.index.get? e.key = some e)
    (hid : l.leaseId = t.store.leaseIds) (hkeys : l.keys = es.map key) :
    Exact ⟨{ s₁ with leaseIds := t.store.leaseIds + 1, leases := t.store.leases.set l.leaseId l },
      t.held ++ es.map fun e => (l.leaseId, e)⟩ := by
  set t' : Traced := ⟨{ s₁ with
    leaseIds := t.store.leaseIds + 1, leases := t.store.leases.set l.leaseId l },
    t.held ++ es.map fun e => (l.leaseId, e)⟩ with hdef
  -- the id is a new one
  have hne : ∀ h ∈ t.held, h.1 ≠ l.leaseId := by
    intro h hh heq
    have := ht.heldIds h hh
    omega
  have hactive : ∀ lid, lid ≠ l.leaseId → t'.Active lid = t.Active lid := by
    intro lid hlid
    simp only [hdef, Active, Dict.contains, Dict.get?_set_of_ne _ hlid]
  have hnew : t'.Active l.leaseId = true := by
    simp only [hdef, Active, Dict.contains, Dict.get?_set_self, Option.isSome_some]
  refine ⟨hp.inv.set_leases _ _, fun u => ?_, fun h hh ha => ?_, fun h hh => ?_, fun lid hlid => ?_,
    fun lid l' hl' => ?_⟩
  · have hold : (t.held.countP fun h => t'.Active h.1 && h.2.uid == u) = t.holds u :=
      countP_congr fun h hh => by rw [hactive h.1 (hne h hh)]
    have hnews : ((es.map fun e => (l.leaseId, e)).countP fun h => t'.Active h.1 && h.2.uid == u) =
        es.countP fun e => e.uid == u := by
      rw [countP_map]
      exact countP_congr fun e _ => by simp [hnew]
    rw [holds, countP_append, hold, hnews, ← ht.pins, ← sum_ofUid_eq_countP]
    exact hp.count (ofUid u)
  · refine hp.cores.mem_iff.mpr ?_
    rcases mem_append.mp hh with hh | hh
    · rw [hactive h.1 (hne h hh)] at ha
      exact ht.cores h hh ha
    · obtain ⟨e, he, rfl⟩ := mem_map.mp hh
      exact mem_map_of_mem
        (mem_append_left _ (mem_values_iff.mpr ⟨e.key, hready e he⟩))
  · simp only [hdef]
    rcases mem_append.mp hh with hh | hh
    · have := ht.heldIds h hh
      omega
    · obtain ⟨e, -, rfl⟩ := mem_map.mp hh
      omega
  · simp only [hdef] at hlid ⊢
    rcases mem_keys_set.mp hlid with rfl | hlid
    · omega
    · have := ht.ids lid hlid
      omega
  · simp only [hdef, filter_append, map_append, get?_set] at hl' ⊢
    split_ifs at hl' with heq
    · -- the new lease was given the new entries, and none of the old ones
      cases hl'
      subst heq
      have hold : (t.held.filter fun h => h.1 = l.leaseId) = [] :=
        filter_eq_nil_iff.mpr fun h hh => by simpa using hne h hh
      have hall : ((es.map fun e => (l.leaseId, e)).filter fun h => h.1 = l.leaseId) =
          es.map fun e => (l.leaseId, e) := filter_eq_self.mpr fun h hh => by
        obtain ⟨e, -, rfl⟩ := mem_map.mp hh
        simp
      rw [hold, hall, hkeys, map_map]
      rfl
    · have hnone : ((es.map fun e => (l.leaseId, e)).filter fun h => h.1 = lid) = [] :=
        filter_eq_nil_iff.mpr fun h hh => by
          obtain ⟨e, -, rfl⟩ := mem_map.mp hh
          simpa using Ne.symm heq
      rw [hnone, map_nil, append_nil]
      exact ht.keys lid l' hl'

/-- **Unpinning entries that come first.** When each entry is the first version of its
key that `unpin` finds, and has the pins, each object loses the pins of its entries. -/
theorem UnpinnedAll.count_uid : ∀ (es : List Entry) {s s' : Store},
    UnpinnedAll s (es.map key) s' → s.Inv →
    (∀ e ∈ es, ∃ t, s.unpinTarget e.key = some t ∧ t.uid = e.uid ∧
      (es.countP fun e' => e'.uid == e.uid) ≤ t.pins) →
    ∀ u, pinCount (ofUid u) s'.readable + (es.countP fun e => e.uid == u) =
      pinCount (ofUid u) s.readable := by
  intro es
  induction es with
  | nil =>
    intro s s' h _ _ u
    cases h
    simp
  | cons e es ih =>
    intro s s' h hs hfirst u
    cases h with
    | @cons _ s₁ _ _ _ hk hrest =>
      obtain ⟨t, ht, htuid, htpins⟩ := hfirst e mem_cons_self
      rw [countP_cons] at htpins
      simp only [beq_self_eq_true, if_true] at htpins
      have hfirst' : ∀ e' ∈ es, ∃ t', s₁.unpinTarget e'.key = some t' ∧ t'.uid = e'.uid ∧
          (es.countP fun e'' => e''.uid == e'.uid) ≤ t'.pins := by
        intro e' he'
        obtain ⟨t', ht', htuid', htpins'⟩ := hfirst e' (mem_cons_of_mem e he')
        rw [countP_cons] at htpins'
        by_cases hkey : e'.key = e.key
        · -- the same key: the same version, with a pin to spare
          rw [hkey, ht, Option.some.injEq] at ht'
          subst ht'
          have hmem : 0 < es.countP fun e'' => e''.uid == e.uid :=
            countP_pos_iff.mpr ⟨e', he', by simp [← htuid, htuid']⟩
          have hagain := hk.again t ht (by omega)
          rw [← hkey] at hagain
          refine ⟨_, hagain, htuid', ?_⟩
          rw [← htuid', htuid]
          simp only
          omega
        · exact ⟨t', (hk.other _ hkey).trans ht', htuid', by omega⟩
      have hrec := ih hrest hk.inv hfirst' u
      have hone := hk.count (ofUid u)
      rw [ht] at hone
      simp only [onePin, ofUid, decide_eq_true_eq, htuid] at hone
      rw [countP_cons]
      simp only [beq_iff_eq]
      omega

/-- The entries a lease was given. -/
def heldBy (t : Traced) (lid : ℤ) : List Entry := (t.held.filter fun h => h.1 = lid).map Prod.snd

variable {lid : ℤ}

theorem mem_heldBy : e ∈ t.heldBy lid ↔ (lid, e) ∈ t.held := by
  simp [heldBy]

/-- The holds on an object, with those of one active lease apart. -/
theorem holds_erase (ha : t.Active lid = true) (hl : s'.leases = t.store.leases.erase lid) (u : ℕ) :
    (⟨s', t.held⟩ : Traced).holds u + ((t.heldBy lid).countP fun e => e.uid == u) = t.holds u := by
  have hactive : ∀ x, (⟨s', t.held⟩ : Traced).Active x = (!decide (x = lid) && t.Active x) := by
    intro x
    simp only [Active, hl, Dict.contains, Dict.get?_erase]
    by_cases hx : x = lid <;> simp [hx]
  rw [holds, holds, heldBy, countP_map, countP_filter]
  simp only [hactive]
  induction t.held with
  | nil => rfl
  | cons h hs ih =>
    simp only [countP_cons, Function.comp_apply] at ih ⊢
    by_cases hx : h.1 = lid
    · by_cases hu : h.2.uid = u
      · simp only [hx, ha, hu, decide_true, Bool.not_true, Bool.false_and, Bool.true_and, beq_self_eq_true,
          Bool.false_eq_true, if_true, if_false]
        omega
      · have hne : (h.2.uid == u) = false := by simpa using hu
        simp only [hne, Bool.and_false, Bool.false_and, Bool.false_eq_true, if_false]
        omega
    · simp only [hx, decide_false, Bool.not_false, Bool.true_and, Bool.and_false, Bool.false_eq_true, if_false]
      omega

/-- **Ending a lease whose own versions come first keeps the accounting.** -/
theorem Exact.ended (ht : t.Exact) {l : Lease}
    (hget : t.store.leases.get? lid = some l) (hown : t.OwnFirst lid)
    (hun : UnpinnedAll { t.store with leases := t.store.leases.erase lid } l.keys s') :
    Exact ⟨s', t.held⟩ := by
  have hs₀ := ht.inv.set_leases (t.store.leases.erase lid) t.store.leaseIds
  obtain ⟨hinv, hl, hids, -, hcores⟩ := hun.frame hs₀
  have ha : t.Active lid = true := by
    rw [Active, Dict.contains, hget, Option.isSome_some]
  have hholds := holds_erase ha hl
  have hkeys : l.keys = (t.heldBy lid).map key := by
    rw [ht.keys lid l hget, heldBy, map_map]
    rfl
  rw [hkeys] at hun
  -- each entry of the lease comes first, with the pins the lease put on it
  have hfirst : ∀ e ∈ t.heldBy lid, ∃ g, ({ t.store with
      leases := t.store.leases.erase lid } : Store).unpinTarget e.key = some g ∧ g.uid = e.uid ∧
      ((t.heldBy lid).countP fun e' => e'.uid == e.uid) ≤ g.pins := by
    intro e he
    obtain ⟨g, hg, huid⟩ := Option.map_eq_some_iff.mp (hown (lid, e) (mem_heldBy.mp he) rfl)
    dsimp only at hg huid
    refine ⟨g, hg, huid, ?_⟩
    have hmem := (ht.inv.of_unpinTarget hg).1
    have hpins := ht.pins g.uid
    rw [pinCount_ofUid ht.inv hmem] at hpins
    have := hholds g.uid
    rw [huid] at this hpins
    omega
  have hcount := UnpinnedAll.count_uid _ hun hs₀ hfirst
  have hpins : ∀ u, pinCount (ofUid u) s'.readable = (⟨s', t.held⟩ : Traced).holds u := by
    intro u
    have h₁ := hcount u
    have h₂ := hholds u
    have h₃ := ht.pins u
    simp only [readable] at *
    omega
  have hmono : ∀ x, (⟨s', t.held⟩ : Traced).Active x = true → t.Active x = true := by
    intro x hx
    simp only [Active, hl, Dict.contains, Dict.get?_erase] at hx ⊢
    split_ifs at hx with heq
    · cases hx
    · exact hx
  refine ⟨hinv, hpins, fun h hh hact => ?_, ?_, ?_, fun x l' hl' => ?_⟩
  · -- a pin is left, so the object is there, and it is the same block
    obtain ⟨e, he, huid, -⟩ := exists_of_pinCount_ofUid (hpins h.2.uid ▸ holds_pos hh hact)
    obtain ⟨e₀, he₀, hcore₀⟩ := mem_map.mp (hcores e he)
    obtain ⟨e₁, he₁, hcore₁⟩ := mem_map.mp (ht.cores h hh (hmono _ hact))
    have huid₀ : e₀.uid = e.uid := congrArg Prod.fst hcore₀
    have huid₁ : e₁.uid = h.2.uid := congrArg Prod.fst hcore₁
    have heq : e₀ = e₁ := eq_of_uid_eq ht.inv he₀ he₁ (by omega)
    refine mem_map.mpr ⟨e, he, ?_⟩
    rw [← hcore₀, heq, hcore₁]
  · simpa only [hids] using ht.heldIds
  · intro x hx
    simp only [hl, hids, keys_erase] at hx ⊢
    exact ht.ids x (mem_of_mem_erase hx)
  · simp only [hl, get?_erase] at hl'
    split_ifs at hl' with heq
    exact ht.keys x l' hl'

/-! ### Runs -/

/-- An operation has its effect, and its reply adds to the entries handed out. -/
theorem step_eq (h : t.store.Inv) {op : StoreOp} (hpos : op.PositiveSize) :
    ∃ r s', Effect t.store op r s' ∧ t.step op = ⟨s', t.held ++ r.held⟩ := by
  obtain ⟨r, s', hexec, heff⟩ := h.sat_exec op hpos
  exact ⟨r, s', heff, by simp only [step, hexec]⟩

theorem step_release (h : t.store.Inv) (lid : ℤ) :
    Sat (release lid) t.store fun _ s' => Ended t.store [lid] s' ∧
      t.step (.release lid) = ⟨s', t.held⟩ := by
  obtain ⟨b, s', hexec, hend, -⟩ := h.sat_release lid
  refine ⟨b, s', hexec, hend, ?_⟩
  have hmap : StoreOp.exec (.release lid) t.store = .ok (.released b) s' := by
    simp only [StoreOp.exec, Functor.map, EStateM.map, hexec]
  simp only [step, hmap, StoreReply.held, append_nil]

theorem Exact.release (ht : t.Exact)
    (hown : t.Active lid = true → t.OwnFirst lid) : (t.step (.release lid)).Exact := by
  obtain ⟨b, s', -, hend, hstep⟩ := step_release ht.inv lid
  rw [hstep]
  cases hend with
  | skip hnone hrest =>
    cases hrest
    exact ht
  | cons hget hun hrest =>
    cases hrest
    exact ht.ended hget (hown (by rw [Active, Dict.contains, hget, Option.isSome_some])) hun

/-- The loop of `expireLeases` is a run of releases. -/
theorem sat_releases (ls : List ℤ) (t : Traced) (h : t.store.Inv) :
    Sat (forM ls fun lid => do let _ ← release lid) t.store fun _ s' =>
      t.run (ls.map .release) = ⟨s', t.held⟩ := by
  induction ls generalizing t with
  | nil =>
    rw [forM_nil, sat_pure]
    rfl
  | cons lid ls ih =>
    rw [forM_cons, sat_bind, sat_bind]
    refine (step_release h lid).mono fun _ s₁ ⟨hend, hstep⟩ => ?_
    rw [sat_pure]
    refine (ih ⟨s₁, t.held⟩ (hend.inv h)).mono fun _ s' hrun => ?_
    rw [map_cons, run, foldl_cons, hstep]
    exact hrun

theorem Exact.releases (ls : List ℤ) {t : Traced} (ht : t.Exact) (hown : t.EndsOwn ls) :
    (t.run (ls.map .release)).Exact := by
  induction ls generalizing t with
  | nil => exact ht
  | cons lid ls ih =>
    exact ih (ht.release hown.1) hown.2

theorem step_expireLeases (h : t.store.Inv) (now : ℚ) :
    t.step (.expireLeases now) = t.run ((t.store.deadLeases now).map .release) := by
  have hsat : Sat (expireLeases now) t.store fun _ s' =>
      t.run ((t.store.deadLeases now).map .release) = ⟨s', t.held⟩ := by
    unfold expireLeases
    simp only [sat_bind, sat_get, sat_pure]
    exact sat_releases _ t h
  obtain ⟨n, s', hexec, hrun⟩ := hsat
  have hmap : StoreOp.exec (.expireLeases now) t.store = .ok (.count n) s' := by
    simp only [StoreOp.exec, Functor.map, EStateM.map, hexec]
  rw [hrun]
  simp only [step, hmap, StoreReply.held, append_nil]

theorem Exact.kept_reply (ht : t.Exact) (hk : Kept t.store s')
    {r : StoreReply} (hr : r.held = []) : Exact ⟨s', t.held ++ r.held⟩ := by
  rw [hr, append_nil]
  exact ht.kept hk

theorem Exact.lookedUp (ht : t.Exact) {ranks : ℤ} {keys : List String} {pin : Bool}
    {r : LookupReply} (h : LookedUp t.store ranks keys pin r s') :
    Exact ⟨s', t.held ++ (StoreReply.found r).held⟩ := by
  obtain ⟨hits, lease, found⟩ := r
  cases lease with
  | none => exact ht.kept_reply (h.kept rfl).1 rfl
  | some l =>
    obtain ⟨hid, hkeys, s₁, hp, hs'⟩ := h.pinned l rfl
    subst hs'
    exact ht.leased hp h.ready hid hkeys

/-- **Every operation keeps the accounting**, if the leases it ends have their own
versions come first. -/
theorem Exact.step (ht : t.Exact) {op : StoreOp} (hpos : op.PositiveSize)
    (hown : t.OwnEnds op) : (t.step op).Exact := by
  obtain ⟨r, s', heff, hstep⟩ := step_eq ht.inv hpos
  cases op with
  | release lid => exact ht.release hown.1
  | expireLeases now =>
    rw [step_expireLeases ht.inv]
    exact ht.releases _ hown
  | lookup keys ranks pin leaseMs owner now =>
    obtain ⟨reply, rfl, hl⟩ := heff
    rw [hstep]
    exact ht.lookedUp hl
  | allocateForWrite keys size session skip =>
    obtain ⟨out, rfl, hk, -⟩ := heff
    exact hstep ▸ ht.kept_reply hk rfl
  | commit | abort | dropSession | setCapacity | flush =>
    -- these leave leases and pins alone
    obtain ⟨⟨n, rfl⟩, hk, -⟩ := heff
    exact hstep ▸ ht.kept_reply hk rfl

theorem OwnReach.exact (h : OwnReach t) : t.Exact := by
  induction h with
  | init pool page hpage capacity => exact exact_init pool page hpage capacity
  | step _ hpos hown ih => exact ih.step hpos hown

/-- Exact accounting makes the leases safe. -/
theorem Exact.leaseSafe (ht : t.Exact) : t.LeaseSafe := by
  intro h hh ha
  obtain ⟨e, he, hcore, hpins⟩ := ht.exists_entry hh ha
  refine ⟨fun hfreed => ?_, ⟨e, mem_append_left _ he, hcore, hpins.ge⟩, ?_⟩
  · refine (ht.inv.owns.freed _ hfreed).2 ?_
    have hmem : h.2.core ∈ t.store.live.map core :=
      hcore ▸ mem_map_of_mem (mem_append_left _ he)
    exact mem_map_of_mem hmem
  · intro keys size session skip hsize
    refine (ht.inv.sat_allocateForWrite keys hsize session skip).mono
      fun out s' ⟨hk, _, hout⟩ a hmem e' he' => ?_
    -- both are live after the allocation, one readable and one being written
    have hread := mem_cores_of_kept hk he (hpins ▸ holds_pos hh ha)
    obtain ⟨e₁, he₁, hcore₁⟩ := mem_map.mp hread
    have hblock : e₁.block = h.2.block := congrArg Prod.snd (hcore₁.trans hcore)
    have hdis := hk.inv.holds.tiling.disjoint
    rw [live, map_append, map_append] at hdis
    have hpair := (pairwise_append.mp (pairwise_append.mp hdis).2.1).2.2
    have hd := hpair _ (mem_map_of_mem (mem_map_of_mem he₁))
      _ (mem_map_of_mem (mem_map_of_mem (hout a hmem e' he')))
    rw [hblock] at hd
    exact hd.symm

/-- **Leases are safe while the versions that end with them come first.** -/
theorem leaseSafe_of_ownReach {t : Traced} (h : OwnReach t) : t.LeaseSafe := h.exact.leaseSafe

/-- A lease on a version that is replaced while it is read, and then released. -/
theorem leaseSafe_of_replaced_version :
    LeaseSafe ((((((init 4 1 Nat.one_pos none).step
      (.allocateForWrite ["a:0"] 1 "w" true)).step (.commit ["a:0"] "w")).step
      (.lookup ["a"] 1 true 60000 "w" 0)).step (.allocateForWrite ["a:0"] 1 "w" false)).step
      (.commit ["a:0"] "w") |>.step (.release 1)) := by
  refine leaseSafe_of_ownReach (.step (.step (.step (.step (.step (.step (.init 4 1 Nat.one_pos none)
    ?_ trivial) trivial trivial) trivial trivial) ?_ trivial) trivial trivial) trivial ⟨fun _ => ?_, trivial⟩)
  · exact Int.one_pos
  · exact Int.one_pos
  · unfold OwnFirst
    decide +kernel

/-- Two versions of a key, each under its own lease: releasing the lease on the retired
version takes the pin off the READY one, which the other lease is still reading. -/
theorem not_leaseSafe_after_release :
    let ops : List StoreOp :=
      [.allocateForWrite ["a:0"] 1 "w" true, .commit ["a:0"] "w", .lookup ["a"] 1 true 60000 "w" 0,
       .allocateForWrite ["a:0"] 1 "w" false, .commit ["a:0"] "w", .lookup ["a"] 1 true 60000 "w" 0,
       .release 1]
    (∀ op ∈ ops, op.PositiveSize) ∧ ¬ ((init 4 1 Nat.one_pos none).run ops).LeaseSafe := by
  intro ops
  refine ⟨by simp [ops, StoreOp.PositiveSize], fun hsafe => ?_⟩
  have hbad : ∃ h ∈ ((init 4 1 Nat.one_pos none).run ops).held,
      ((init 4 1 Nat.one_pos none).run ops).Active h.1 = true ∧
      ∀ e ∈ ((init 4 1 Nat.one_pos none).run ops).store.live, e.core = h.2.core →
        ¬ ((init 4 1 Nat.one_pos none).run ops).holds h.2.uid ≤ e.pins := by
    decide +kernel
  obtain ⟨h, hh, ha, hpins⟩ := hbad
  obtain ⟨-, ⟨e, he, hcore, hle⟩, -⟩ := hsafe h hh ha
  exact hpins e he hcore hle

end Traced

end CacheFlow
