import CacheFlow.Server.StorePins

/-!
# Runs of the store

What one operation can do is said once, in `Store.Effect`; every invariant of the
store's runs is read off it. With positive entry sizes no operation raises, whatever
the order of the operations and the sessions they come from.

## Main results

* `Store.Inv.sat_exec` — every operation has its effect.
* `Store.space_and_index_of_run` — entries and free extents tile the pool.
* `Store.pins_of_run` — by key, pins and leases agree.
-/

namespace CacheFlow

open List

namespace Store

/-! ### What an operation does -/

/-- What an operation answers, and how it changes the store. -/
def Effect (s : Store) : StoreOp → StoreReply → Store → Prop
  | .allocateForWrite _ _ session _, r, s' => ∃ out, r = .allocated out ∧ Kept s s' ∧
      Written s session s' ∧ ∀ a ∈ out, ∀ e, a.2 = some e → e ∈ s'.writing.values
  | .commit keys session, r, s' => (∃ n, r = .count n) ∧ Kept s s' ∧
      WrittenWithout s session keys s'
  | .abort keys session, r, s' => (∃ n, r = .count n) ∧ Kept s s' ∧
      WrittenWithout s session keys s'
  | .dropSession session, r, s' => (∃ n, r = .count n) ∧ Kept s s' ∧
      ∀ p, s'.writing.get? p = if p.2 = session then none else s.writing.get? p
  | .lookup keys ranks pin _ _ _, r, s' => ∃ reply, r = .found reply ∧
      LookedUp s ranks keys pin reply s'
  | .release lid, r, s' => Ended s [lid] s' ∧ r = .released (s.leases.get? lid).isSome
  | .expireLeases now, r, s' => Ended s (s.deadLeases now) s' ∧
      r = .count (s.deadLeases now).length
  | .setCapacity _, r, s' => (∃ c, r = .capacity c) ∧ Kept s s' ∧ s'.writing = s.writing
  | .flush, r, s' => (∃ n, r = .count n) ∧ Kept s s' ∧ s'.writing = s.writing

variable {s : Store}

/-- **Every operation has its effect**, and none raises. -/
theorem Inv.sat_exec (h : s.Inv) (op : StoreOp) (hpos : op.PositiveSize) :
    Sat op.exec s (Effect s op) := by
  cases op with
  | allocateForWrite keys size session skip =>
    exact sat_map.mpr ((h.sat_allocateForWrite keys hpos session skip).mono
      fun out s' hs' => ⟨out, rfl, hs'⟩)
  | commit keys session =>
    exact sat_map.mpr ((h.sat_commit keys session).mono fun n s' hs' => ⟨⟨n, rfl⟩, hs'⟩)
  | abort keys session =>
    exact sat_map.mpr ((h.sat_abort keys session).mono fun n s' hs' => ⟨⟨n, rfl⟩, hs'⟩)
  | dropSession session =>
    exact sat_map.mpr ((h.sat_dropSession session).mono fun n s' hs' => ⟨⟨n, rfl⟩, hs'⟩)
  | lookup keys ranks pin leaseMs owner now =>
    exact sat_map.mpr ((h.sat_lookup keys ranks pin leaseMs owner now).mono
      fun r s' hs' => ⟨r, rfl, hs'⟩)
  | release lid =>
    exact sat_map.mpr ((h.sat_release lid).mono fun b s' ⟨hend, hb⟩ => ⟨hend, by rw [hb]⟩)
  | expireLeases now =>
    exact sat_map.mpr ((h.sat_expireLeases now).mono fun n s' ⟨hend, hn⟩ => ⟨hend, by rw [hn]⟩)
  | setCapacity c =>
    exact sat_map.mpr ((h.sat_setCapacity c).mono fun n s' hs' => ⟨⟨n, rfl⟩, hs'⟩)
  | flush => exact sat_map.mpr (h.sat_flush.mono fun n s' hs' => ⟨⟨n, rfl⟩, hs'⟩)

/-- As the leases see it: an operation leaves them and the pinned entries alone, makes
one lease, or ends some. -/
inductive LeaseEffect (s s' : Store) : Prop
  /-- Neither a lease nor a pinned entry has changed. -/
  | kept : Kept s s' → LeaseEffect s s'
  /-- The entries `es` have been pinned under the new lease `l`. -/
  | leased (es : List Entry) (l : Lease) (s₁ : Store) : Pinned s es s₁ →
      l.leaseId = s.leaseIds → l.keys = es.map Entry.key →
      s' = { s₁ with leaseIds := s.leaseIds + 1, leases := s.leases.set l.leaseId l } →
      LeaseEffect s s'
  | ended (ls : List ℤ) : Ended s ls s' → LeaseEffect s s'

variable {s' : Store}

theorem LookedUp.leaseEffect {ranks : ℤ} {keys : List String} {pin : Bool}
    {r : LookupReply} (h : LookedUp s ranks keys pin r s') : LeaseEffect s s' := by
  cases hl : r.lease with
  | none => exact .kept (h.kept hl).1
  | some l =>
    obtain ⟨hid, hkeys, s₁, hp, hs'⟩ := h.pinned l hl
    exact .leased _ l s₁ hp hid hkeys hs'

theorem Effect.leaseEffect {op : StoreOp} {r : StoreReply} (h : Effect s op r s') :
    LeaseEffect s s' := by
  cases op with
  | allocateForWrite keys size session skip =>
    obtain ⟨out, -, hk, -⟩ := h
    exact .kept hk
  | commit keys session => exact .kept h.2.1
  | abort keys session => exact .kept h.2.1
  | dropSession session => exact .kept h.2.1
  | lookup keys ranks pin leaseMs owner now =>
    obtain ⟨reply, -, hl⟩ := h
    exact hl.leaseEffect
  | release lid => exact .ended _ h.1
  | expireLeases now => exact .ended _ h.1
  | setCapacity c => exact .kept h.2.1
  | flush => exact .kept h.2.1

/-- Only an allocation adds to what is being written, and what it adds is its
session's. -/
theorem Effect.written {op : StoreOp} {r : StoreReply} (h : Effect s op r s')
    (hs : s.Inv) {p : String × String} {e : Entry} (he : s'.writing.get? p = some e) :
    s.writing.get? p = some e ∨ ∃ keys size skip, op = .allocateForWrite keys size p.2 skip := by
  cases op with
  | allocateForWrite keys size session skip =>
    obtain ⟨out, -, -, hw, -⟩ := h
    rcases hw.mine p e he with he | rfl
    · exact Or.inl he
    · exact Or.inr ⟨keys, size, skip, rfl⟩
  | commit | abort | dropSession =>
    rw [h.2.2 p] at he
    split_ifs at he
    exact Or.inl he
  | lookup keys ranks pin leaseMs owner now =>
    obtain ⟨reply, -, hl⟩ := h
    cases hlease : reply.lease with
    | none => exact Or.inl ((hl.kept hlease).2 ▸ he)
    | some l =>
      obtain ⟨-, -, s₁, hp, rfl⟩ := hl.pinned l hlease
      exact Or.inl (hp.writing ▸ he)
  | release lid => exact Or.inl (h.1.writing hs ▸ he)
  | expireLeases now => exact Or.inl (h.1.writing hs ▸ he)
  | setCapacity c => exact Or.inl (h.2.2 ▸ he)
  | flush => exact Or.inl (h.2.2 ▸ he)

theorem LeaseEffect.inv (h : LeaseEffect s s') (hs : s.Inv) : s'.Inv := by
  cases h with
  | kept hk => exact hk.inv
  | leased es l s₁ hp _ _ hs' =>
    rw [hs']
    exact hp.inv.set_leases _ _
  | ended ls he => exact he.inv hs

/-! ### The invariant of runs -/

theorem inv_init (pool page : ℕ) (hpage : 0 < page) (capacity : Option ℤ) :
    (init pool page hpage capacity).Inv where
  owns := ⟨ExtentAllocator.holds_init pool page hpage, nodup_nil, by simp [live, readable, init,
    Dict.values], by simp [init]⟩
  lru := fun k => Iff.rfl
  key := fun k e he => by cases he
  ready := fun k e he => by cases he
  writing := fun k t e he => by cases he
  retired := fun e he => by cases he

theorem Inv.step (h : s.Inv) {op : StoreOp} (hpos : op.PositiveSize) :
    ∃ r, Effect s op r (s.step op) := by
  have hsat := (h.sat_exec op hpos).mono fun r s' hr => (⟨r, hr⟩ : ∃ r, Effect s op r s')
  exact hsat.of_finalState

/-- **The invariant holds after every run.** -/
theorem Inv.run (h : s.Inv) (ops : List StoreOp)
    (hpos : ∀ op ∈ ops, op.PositiveSize) : (s.run ops).Inv := by
  refine foldl_invariant ops s (fun op hop s hs => ?_) h
  obtain ⟨r, hr⟩ := hs.step (hpos op hop)
  exact hr.leaseEffect.inv hs

/-- **Space and index.** After every run with positive sizes, the entries and the free
extents tile the pool, the used pages are the entries', and the containers agree. -/
theorem space_and_index_of_run (pool page : ℕ) (hpage : 0 < page) (capacity : Option ℤ)
    (ops : List StoreOp) (hpos : ∀ op ∈ ops, op.PositiveSize) :
    let s := (init pool page hpage capacity).run ops
    Tiling s.alloc.totalPages
      (s.alloc.freeExtents ++ s.live.map fun e => s.alloc.extent ⟨e.offset, e.size⟩) ∧
    s.alloc.usedPages = (s.live.map fun e => s.alloc.pagesFor e.size).sum ∧
    (∀ k, k ∈ s.lru.keys ↔ k ∈ s.index.keys) ∧
    (∀ k e, s.index.get? k = some e → e.key = k ∧ e.state = .ready) ∧
    (∀ e ∈ s.retired, 0 < e.pins) ∧
    ∀ k t e, s.writing.get? (k, t) = some e → e.key = k ∧ e.owner = some t := by
  intro s
  have h : s.Inv := (inv_init pool page hpage capacity).run ops hpos
  have htiling := h.holds.tiling
  have hused := h.holds.used
  rw [map_map] at htiling hused
  refine ⟨htiling, hused, h.lru, fun k e he => ⟨h.key k e he, h.ready k e he⟩, h.retired,
    fun k t e he => ?_⟩
  obtain ⟨hkey, howner, -⟩ := h.writing k t e he
  exact ⟨hkey, howner⟩

theorem space_and_index_of_two_writes :
    let s := (init 40 4 (by decide) none).run
      [.allocateForWrite ["a:0", "b:0"] 5 "w" true, .commit ["a:0"] "w"]
    s.alloc.usedPages = 4 ∧ Tiling s.alloc.totalPages
      (s.alloc.freeExtents ++ s.live.map fun e => s.alloc.extent ⟨e.offset, e.size⟩) :=
  ⟨by decide +kernel,
    (space_and_index_of_run 40 4 (by decide) none _ (by simp [StoreOp.PositiveSize])).1⟩

/-! ### Pins and leases, by key -/

/-- How often a lease pins a key; zero if it is not active. -/
def leaseKeyCount (s : Store) (k : String) (lid : ℤ) : ℕ :=
  match s.leases.get? lid with
  | none => 0
  | some l => l.keys.count k

/-- How often the active leases pin a key. -/
def leaseCount (s : Store) (k : String) : ℕ := (s.leases.values.map fun l => l.keys.count k).sum

/-- The pins on all versions of a key. -/
def pinsOf (s : Store) (k : String) : ℕ :=
  (match s.index.get? k with
    | none => 0
    | some e => e.pins) +
  ((s.retired.filter fun e => e.key = k).map Entry.pins).sum

/-- By key, the pins are those of the active leases, whose numbers have been given
out. -/
structure Accounted (s : Store) : Prop where
  pins : ∀ k, pinCount (ofKey k) s.readable = s.leaseCount k
  ids : ∀ lid ∈ s.leases.keys, lid < s.leaseIds

theorem pinCount_ofKey_eq_zero {k : String} {l : List Entry} (h : ∀ e ∈ l, e.key ≠ k) :
    pinCount (ofKey k) l = 0 := by
  refine sum_eq_zero fun n hn => ?_
  obtain ⟨e, he, rfl⟩ := mem_map.mp hn
  simp [ofKey, h e he]

theorem pinCount_ofKey_retired (k : String) (l : List Entry) :
    pinCount (ofKey k) l = ((l.filter fun e => e.key = k).map Entry.pins).sum := by
  induction l with
  | nil => rfl
  | cons e l ih =>
    rw [pinCount_cons, ih]
    by_cases hk : e.key = k <;> simp [ofKey, hk]

/-- The pins of a key are counted once over the READY version and the retired ones. -/
theorem Inv.pinsOf_eq (h : s.Inv) (k : String) : s.pinsOf k = pinCount (ofKey k) s.readable := by
  rw [readable, pinCount_append, pinsOf, pinCount_ofKey_retired k s.retired, Nat.add_right_cancel_iff]
  -- another READY entry has another key
  have hother : ∀ d : Dict String Entry, (∀ k' e, d.get? k' = some e → e.key = k' ∧ k' ≠ k) →
      pinCount (ofKey k) d.values = 0 := by
    intro d hd
    refine pinCount_ofKey_eq_zero fun e he => ?_
    obtain ⟨k', hk'⟩ := Dict.mem_values_iff.mp he
    obtain ⟨hkey, hne⟩ := hd k' e hk'
    rw [hkey]
    exact hne
  cases hget : s.index.get? k with
  | none =>
    refine (hother s.index fun k' e he => ⟨h.key k' e he, ?_⟩).symm
    rintro rfl
    rw [hget] at he
    cases he
  | some e =>
    rw [pinCount_perm _ (Dict.values_perm_of_get? hget), pinCount_cons,
      hother (s.index.erase k) fun k' e' he' => ?_]
    · simp [ofKey, h.key k e hget]
    · rw [Dict.get?_erase] at he'
      split_ifs at he' with hk
      exact ⟨h.key k' e' he', hk⟩

theorem accounted_init (pool page : ℕ) (hpage : 0 < page) (capacity : Option ℤ) :
    (init pool page hpage capacity).Accounted :=
  ⟨fun _ => rfl, fun lid hlid => by cases hlid⟩

variable {lid : ℤ}

theorem leaseCount_erase {l : Lease} (h : s.leases.get? lid = some l) (k : String) :
    s.leaseCount k = l.keys.count k + ({ s with leases := s.leases.erase lid } : Store).leaseCount k := by
  have hp := (Dict.values_perm_of_get? h).map fun l => l.keys.count k
  rw [leaseCount, hp.sum_eq, map_cons, sum_cons, leaseCount]

/-- One lease ended: its keys lose its pins, and it is gone. -/
theorem Accounted.unpinnedAll {s₁ : Store} (ha : s.Accounted) (hs : s.Inv) {l : Lease}
    (hget : s.leases.get? lid = some l)
    (hun : UnpinnedAll { s with leases := s.leases.erase lid } l.keys s₁) :
    s₁.Inv ∧ s₁.Accounted ∧ s₁.leases = s.leases.erase lid ∧ s₁.leaseIds = s.leaseIds ∧
      ∀ k, pinCount (ofKey k) s₁.readable + l.keys.count k = pinCount (ofKey k) s.readable := by
  have hs₀ := hs.set_leases (s.leases.erase lid) s.leaseIds
  obtain ⟨hinv, hl, hids, -, -⟩ := hun.frame hs₀
  have hcount := hun.count_key hs₀ fun k => by
    have h₁ := ha.pins k
    have h₂ := leaseCount_erase hget k
    simp only [readable] at *
    omega
  refine ⟨hinv, ⟨fun k => ?_, fun x hx => ?_⟩, hl, hids, hcount⟩
  · have h₁ := ha.pins k
    have h₂ := leaseCount_erase hget k
    have h₃ := hcount k
    have h₄ : s₁.leaseCount k = ({ s with leases := s.leases.erase lid } : Store).leaseCount k := by
      rw [leaseCount, hl, leaseCount]
    simp only [readable] at *
    omega
  · rw [hl, Dict.keys_erase] at hx
    rw [hids]
    exact ha.ids x (mem_of_mem_erase hx)

/-- **Ending leases, by key.** The invariants are kept, exactly the given leases are
gone, and each key has lost the pins of those that were active. -/
theorem Ended.accounted {ls : List ℤ} (h : Ended s ls s') (hs : s.Inv)
    (ha : s.Accounted) : s'.Accounted ∧ s'.leaseIds = s.leaseIds ∧
      ∀ x, s'.leases.get? x = if x ∈ ls then none else s.leases.get? x := by
  induction h with
  | nil => exact ⟨ha, rfl, fun x => by simp⟩
  | @skip s s' lid ls hget _ ih =>
    obtain ⟨ha', hids, hl⟩ := ih hs ha
    refine ⟨ha', hids, fun x => ?_⟩
    rw [hl]
    by_cases hx : x = lid
    · simp [hx, hget]
    · simp [hx]
  | @cons s s₁ s' lid ls l hget hun _ ih =>
    obtain ⟨hinv, ha₁, hl₁, hids₁, -⟩ := ha.unpinnedAll hs hget hun
    obtain ⟨ha', hids, hl⟩ := ih hinv ha₁
    refine ⟨ha', hids.trans hids₁, fun x => ?_⟩
    rw [hl, hl₁, Dict.get?_erase]
    by_cases hx : x = lid
    · simp [hx]
    · simp [hx]

theorem Ended.count_key {ls : List ℤ} (h : Ended s ls s') (hs : s.Inv)
    (ha : s.Accounted) (hnd : ls.Nodup) (k : String) :
    pinCount (ofKey k) s'.readable + (ls.map (s.leaseKeyCount k)).sum =
      pinCount (ofKey k) s.readable := by
  induction h with
  | nil => simp
  | @skip s s' lid ls hget _ ih =>
    have hrec := ih hs ha (nodup_cons.mp hnd).2
    have hzero : s.leaseKeyCount k lid = 0 := by simp [leaseKeyCount, hget]
    rw [map_cons, sum_cons, hzero, Nat.zero_add]
    exact hrec
  | @cons s s₁ s' lid ls l hget hun _ ih =>
    obtain ⟨hnot, hnd'⟩ := nodup_cons.mp hnd
    obtain ⟨hinv, ha₁, hl₁, -, hcount⟩ := ha.unpinnedAll hs hget hun
    have hrec := ih hinv ha₁ hnd'
    have hfirst : s.leaseKeyCount k lid = l.keys.count k := by simp [leaseKeyCount, hget]
    -- the leases still to come are not the one just ended
    have hrest : ls.map (s₁.leaseKeyCount k) = ls.map (s.leaseKeyCount k) := by
      refine map_congr_left fun x hx => ?_
      have hne : x ≠ lid := fun heq => hnot (heq ▸ hx)
      rw [leaseKeyCount, leaseKeyCount, hl₁, Dict.get?_erase_of_ne _ hne]
    rw [hrest] at hrec
    have hk := hcount k
    rw [map_cons, sum_cons, hfirst]
    omega

theorem sum_ofKey_eq_count (k : String) (es : List Entry) :
    (es.map fun e => if ofKey k e.uid e.key then 1 else 0).sum = (es.map Entry.key).count k := by
  induction es with
  | nil => rfl
  | cons e es ih =>
    rw [map_cons, sum_cons, ih, map_cons, count_cons, Nat.add_comm]
    simp [ofKey]

theorem Accounted.leased {s₁ : Store} (ha : s.Accounted) {es : List Entry} {l : Lease}
    (hp : Pinned s es s₁) (hid : l.leaseId = s.leaseIds) (hkeys : l.keys = es.map Entry.key) :
    ({ s₁ with leaseIds := s.leaseIds + 1, leases := s.leases.set l.leaseId l } : Store).Accounted := by
  have hfresh : s.leases.get? l.leaseId = none := by
    refine Dict.get?_eq_none_iff.mpr fun hmem => ?_
    have := ha.ids _ hmem
    omega
  refine ⟨fun k => ?_, fun x hx => ?_⟩
  · have hcount : (es.map fun e => if ofKey k e.uid e.key then 1 else 0).sum = l.keys.count k := by
      rw [hkeys, sum_ofKey_eq_count]
    have hvalues := (Dict.values_set_perm_of_get?_eq_none hfresh l).map fun l => l.keys.count k
    have hpins := hp.count (ofKey k)
    rw [hcount, ha.pins k] at hpins
    rw [leaseCount, hvalues.sum_eq, map_cons, sum_cons, Nat.add_comm]
    exact hpins
  · rcases Dict.mem_keys_set.mp hx with rfl | hx
    · simp only
      omega
    · have := ha.ids x hx
      simp only
      omega

theorem LeaseEffect.accounted (h : LeaseEffect s s') (hs : s.Inv)
    (ha : s.Accounted) : s'.Accounted := by
  cases h with
  | kept hk =>
    refine ⟨fun k => ?_, fun lid hlid => ?_⟩
    · rw [hk.pinCount, ha.pins, leaseCount, leaseCount, hk.leases]
    · rw [hk.leases] at hlid
      rw [hk.leaseIds]
      exact ha.ids lid hlid
  | leased es l s₁ hp hid hkeys hs' =>
    rw [hs']
    exact ha.leased hp hid hkeys
  | ended ls he => exact (he.accounted hs ha).1

/-- A lease number that is neither active nor still to come stays so. -/
theorem LeaseEffect.stale (h : LeaseEffect s s') (hs : s.Inv) (ha : s.Accounted)
    (hlt : lid < s.leaseIds) (hnot : lid ∉ s.leases.keys) :
    lid < s'.leaseIds ∧ lid ∉ s'.leases.keys := by
  cases h with
  | kept hk =>
    rw [hk.leases, hk.leaseIds]
    exact ⟨hlt, hnot⟩
  | leased es l s₁ hp hid hkeys hs' =>
    subst hs'
    refine ⟨by simp only; omega, fun hmem => ?_⟩
    rcases Dict.mem_keys_set.mp hmem with heq | hmem
    · omega
    · exact hnot hmem
  | ended ls he =>
    obtain ⟨-, hids, hl⟩ := he.accounted hs ha
    rw [hids, ← Dict.get?_eq_none_iff, hl]
    refine ⟨hlt, ?_⟩
    split_ifs
    · rfl
    · exact Dict.get?_eq_none_iff.mpr hnot

theorem Inv.accounted_run (h : s.Inv) (ha : s.Accounted) (ops : List StoreOp)
    (hpos : ∀ op ∈ ops, op.PositiveSize) : (s.run ops).Inv ∧ (s.run ops).Accounted := by
  refine foldl_invariant (I := fun s => s.Inv ∧ s.Accounted) ops s (fun op hop s hs => ?_) ⟨h, ha⟩
  obtain ⟨r, hr⟩ := hs.1.step (hpos op hop)
  exact ⟨hr.leaseEffect.inv hs.1, hr.leaseEffect.accounted hs.1 hs.2⟩

/-- A lease that has ended never becomes active again. -/
theorem Inv.stale_run (h : s.Inv) (ha : s.Accounted) (hlt : lid < s.leaseIds)
    (hnot : lid ∉ s.leases.keys) (ops : List StoreOp) (hpos : ∀ op ∈ ops, op.PositiveSize) :
    lid ∉ (s.run ops).leases.keys := by
  have hrun : (s.run ops).Inv ∧ (s.run ops).Accounted ∧ lid < (s.run ops).leaseIds ∧
      lid ∉ (s.run ops).leases.keys := by
    refine foldl_invariant (I := fun s => s.Inv ∧ s.Accounted ∧ lid < s.leaseIds ∧
      lid ∉ s.leases.keys) ops s (fun op hop s hs => ?_) ⟨h, ha, hlt, hnot⟩
    obtain ⟨r, hr⟩ := hs.1.step (hpos op hop)
    have hle := hr.leaseEffect
    exact ⟨hle.inv hs.1, hle.accounted hs.1 hs.2.1, hle.stale hs.1 hs.2.1 hs.2.2.1 hs.2.2.2⟩
  exact hrun.2.2.2

/-- Without an active lease nothing is pinned, and nothing is retired. -/
theorem Accounted.unpinned (ha : s.Accounted) (hs : s.Inv) (hnone : s.leases.keys = []) :
    (∀ e ∈ s.live, e.pins = 0) ∧ s.retired = [] := by
  have hvalues : s.leases.values = [] := by
    rw [Dict.values, map_eq_nil_iff]
    rwa [Dict.keys, map_eq_nil_iff] at hnone
  have hread : ∀ e ∈ s.readable, e.pins = 0 := by
    intro e he
    have hle := le_pinCount (ofKey e.key) he (by simp [ofKey])
    rw [ha.pins, leaseCount, hvalues] at hle
    exact Nat.le_zero.mp hle
  constructor
  · intro e he
    rcases mem_append.mp he with he | he
    · exact hread e he
    · obtain ⟨⟨k, t⟩, hget⟩ := Dict.mem_values_iff.mp he
      exact (hs.writing k t e hget).2.2
  · refine eq_nil_iff_forall_not_mem.mpr fun e he => ?_
    have hpos := hs.retired e he
    rw [hread e (mem_append_right _ he)] at hpos
    exact absurd hpos (lt_irrefl 0)

/-- **Pins by key.** After every run with positive sizes: the pins on the versions of
a key are those of the active leases; ending leases, by `release` or `expireLeases`,
takes off exactly the pins of those that are active, and ends just them; a lease that
has ended stays so; and when none is active nothing is pinned or retired. -/
theorem pins_of_run (pool page : ℕ) (hpage : 0 < page) (capacity : Option ℤ) (ops : List StoreOp)
    (hpos : ∀ op ∈ ops, op.PositiveSize) :
    let s := (init pool page hpage capacity).run ops
    (∀ k, s.pinsOf k = s.leaseCount k) ∧
    (∀ lid, Sat (release lid) s fun b s' => b = (s.leases.get? lid).isSome ∧
      (∀ k, s'.pinsOf k + s.leaseKeyCount k lid = s.pinsOf k) ∧
      ∀ x, s'.leases.get? x = if x = lid then none else s.leases.get? x) ∧
    (∀ now, Sat (expireLeases now) s fun n s' => n = (s.deadLeases now).length ∧
      (∀ k, s'.pinsOf k + ((s.deadLeases now).map (s.leaseKeyCount k)).sum = s.pinsOf k) ∧
      ∀ x, s'.leases.get? x = if x ∈ s.deadLeases now then none else s.leases.get? x) ∧
    (∀ lid, lid < s.leaseIds → lid ∉ s.leases.keys → ∀ ops' : List StoreOp,
      (∀ op ∈ ops', op.PositiveSize) → lid ∉ (s.run ops').leases.keys) ∧
    (s.leases.keys = [] → (∀ e ∈ s.live, e.pins = 0) ∧ s.retired = []) := by
  intro s
  obtain ⟨h, ha⟩ : s.Inv ∧ s.Accounted := (inv_init pool page hpage capacity).accounted_run
    (accounted_init pool page hpage capacity) ops hpos
  -- the effect of ending leases, as `pinsOf` sees it
  have hended : ∀ ls s', Ended s ls s' → ls.Nodup →
      (∀ k, s'.pinsOf k + (ls.map (s.leaseKeyCount k)).sum = s.pinsOf k) ∧
      ∀ x, s'.leases.get? x = if x ∈ ls then none else s.leases.get? x := by
    intro ls s' he hnd
    refine ⟨fun k => ?_, (he.accounted h ha).2.2⟩
    rw [(he.inv h).pinsOf_eq, h.pinsOf_eq]
    exact he.count_key h ha hnd k
  refine ⟨fun k => ?_, fun lid => ?_, fun now => ?_, fun lid hlt hnot ops' hpos' => ?_, ha.unpinned h⟩
  · rw [h.pinsOf_eq, ha.pins]
  · refine (h.sat_release lid).mono ?_
    rintro b s' ⟨he, hb⟩
    obtain ⟨hpins, hl⟩ := hended [lid] s' he (nodup_singleton lid)
    exact ⟨hb, by simpa using hpins, by simpa using hl⟩
  · refine (h.sat_expireLeases now).mono ?_
    rintro n s' ⟨he, hn⟩
    have hnd : (s.deadLeases now).Nodup := s.leases.nodup_keys.sublist (filter_sublist.map _)
    exact ⟨hn, hended _ s' he hnd⟩
  · exact h.stale_run ha hlt hnot ops' hpos'

theorem pins_of_one_lease :
    let s := (init 16 1 Nat.one_pos none).run
      [.allocateForWrite ["a:0"] 1 "w" true, .commit ["a:0"] "w", .lookup ["a"] 1 true 60000 "w" 0]
    s.pinsOf "a:0" = 1 ∧ s.pinsOf "a:0" = s.leaseCount "a:0" :=
  ⟨by decide +kernel,
    (pins_of_run 16 1 Nat.one_pos none _ (by simp [StoreOp.PositiveSize])).1 "a:0"⟩

/-- A run with an entry of size zero after which the lease is gone and a pin of it is
left: the zero-sized entry leaves a free extent without a length behind, `release`
raises a `KeyError` when it frees the first retired version, and the second key of the
lease is never unpinned. -/
theorem pins_left_by_release_after_zero_size :
    let s := (init 16 1 Nat.one_pos none).run
      [.allocateForWrite ["p"] 1 "w" true, .allocateForWrite ["a:0", "b:0"] 1 "w" true,
       .commit ["a:0", "b:0"] "w", .lookup ["a", "b"] 1 true 60000 "w" 0,
       .allocateForWrite ["a:0", "b:0"] 1 "w" false, .commit ["a:0", "b:0"] "w", .abort ["p"] "w",
       .allocateForWrite ["z"] 0 "w" true, .allocateForWrite ["x"] 1 "w" true, .abort ["z"] "w",
       .abort ["x"] "w", .allocateForWrite ["y"] 1 "w" true, .release 1]
    s.leases.keys = [] ∧ s.leaseCount "b:0" = 0 ∧ s.pinsOf "b:0" = 1 := by
  decide +kernel

end Store

end CacheFlow
