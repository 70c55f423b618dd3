import CacheFlow.Lib.Steps
import CacheFlow.Worker.LoadStep

/-!
# One lease, many ranks

The scheduler hands a load to the workers of all ranks. They read different entries, but the lease
on the entries is one: it is made by the lookup, for all ranks together. Every worker runs at its
own pace, and every worker gives the lease back when its own load ends, or when it could not begin.

Here the ranks are put side by side. A rank is a `LoadWorker` with the groups of reads its network
card still has to complete, oldest first, and with the requests its background thread still has to
send. The server is the list of the leases it was told to release.

## Main definitions

* `Ranks.Safe` — nobody reads under a lease that was released.
* `Ranks.Orderly` — a rank ends a load only when its own reads have completed.

## Main results

* `Ranks.safe_iff` — being orderly is enough for one rank, and for no greater number.
-/

namespace CacheFlow

open List Function Option Steps LoadWorker

/-- How the engines of all ranks are configured. -/
structure LoadConfig where
  blockSize : ℕ
  numLayers : ℕ
  layerwiseLoad : Bool
  numLayers_pos : 0 < numLayers

namespace LoadConfig

/-- How many groups of reads `begin_load` posts. -/
def numGroups (c : LoadConfig) : ℕ := if c.layerwiseLoad then c.numLayers else 1

/-- The group that `load_layer` waits for. -/
def groupOf (c : LoadConfig) (layer : ℕ) : ℕ := if c.layerwiseLoad then layer else 0

theorem groupOf_last (c : LoadConfig) : c.groupOf (c.numLayers - 1) + 1 = c.numGroups := by
  have hpos := c.numLayers_pos
  unfold groupOf numGroups
  split_ifs <;> omega

/-- `begin_load` has posted so many groups when it ends in this way. -/
def Posts (c : LoadConfig) : BeginOutcome → ℕ → Prop
  | .refused, n => n = 0
  | .postFails, n => n < c.numGroups
  | .posted, n => n = c.numGroups

instance (c : LoadConfig) (o : BeginOutcome) (n : ℕ) : Decidable (c.Posts o n) := by
  cases o <;> unfold Posts <;> infer_instance

end LoadConfig

/-- A group of reads that has been posted and has not completed. -/
structure PostedRead where
  slice : ℕ
  lease : Option ℤ
  group : ℕ
  deriving DecidableEq

/-- The worker of one rank. -/
structure Rank where
  /-- The connector and its engine. -/
  worker : LoadWorker
  /-- The reads on their way, oldest first. -/
  reads : List PostedRead
  /-- The layers that were asked for in this step. -/
  asked : List ℕ
  /-- The leases under which a load was begun. -/
  begun : List ℤ
  /-- How many of the releases have been sent; the background thread sends them in order. -/
  sent : ℕ

namespace Rank

variable (c : LoadConfig) (env : LoadEnv) (r : Rank)

/-- A rank that has done nothing yet. -/
def init : Rank := ⟨.init, [], [], [], 0⟩

/-- `start_load_kv`, for a load that the rank has not begun before; so many groups are posted. -/
def start (rid : String) (spec : LoadSpec) (n : ℕ) : Option Rank :=
  if rid ∉ r.worker.loads.keys ∧ (∀ lease ∈ spec.lease, lease ∉ r.begun) ∧
      c.Posts (env.begin rid) n then
    some { r with
      worker := r.worker.startLoad c.blockSize env (rid, spec)
      reads := r.reads ++ (List.range n).map (⟨r.worker.nextSlice, spec.lease, ·⟩)
      begun := r.begun ++ spec.lease.toList }
  else none

/-- What is scattered has arrived: `load_layer` waits for the group of the layer, or for the only
group the first time. -/
def Arrived (layer : Option ℕ) : Prop :=
  ∀ p ∈ r.worker.loads.items, ∀ l ∈ layer, p.2.failed = false → env.layer p.1 l ≠ .fails false →
    (c.layerwiseLoad = true ∨ p.2.layersDone = 0) →
      ∀ q ∈ r.reads, q.slice = p.2.slice → q.group ≠ c.groupOf l

instance (layer : Option ℕ) : Decidable (r.Arrived c env layer) := by
  unfold Arrived
  infer_instance

/-- `wait_for_layer_load`, for a layer that was not asked for before. -/
def wait (layer : Option ℕ) : Option Rank :=
  if (∀ l ∈ layer, l ∉ r.asked ∧ l < c.numLayers) ∧ r.Arrived c env layer then
    some { r with
      worker := r.worker.waitForLayerLoad c.numLayers env layer
      asked := layer.toList ++ r.asked }
  else none

/-- `wait_for_save`: the step is over. -/
def save : Rank := { r with worker := r.worker.waitForSave c.numLayers, asked := [] }

/-- The oldest reads complete. -/
def complete : Option Rank :=
  match r.reads with
  | [] => none
  | _ :: reads => some { r with reads := reads }

/-- The background thread sends the next release. -/
def send : Option (ℤ × Rank) :=
  (r.worker.leaseReleases[r.sent]?).map fun lease => (lease, { r with sent := r.sent + 1 })

/-- `finish_load` of a failed load waits for the last group. The wait does not time out: the group
of every load that has ended since has completed. -/
def Drains (w : LoadWorker) : Prop :=
  ∀ p ∈ w.finished.drop r.worker.finished.length, p.2.failed = true →
    ∀ q ∈ r.reads, q.slice = p.2.slice → q.group + 1 ≠ c.numGroups

instance (w : LoadWorker) : Decidable (r.Drains c w) := by
  unfold Drains
  infer_instance

end Rank

/-- The ranks and the server. -/
structure Ranks (worldSize : ℕ) where
  rank : Fin worldSize → Rank
  handed : List (String × LoadSpec)
  /-- The leases that the server was told to release. -/
  released : List ℤ

/-- What can happen. -/
inductive RankEvent (worldSize : ℕ) where
  /-- The scheduler hands a load to all ranks. -/
  | hand (rid : String) (spec : LoadSpec)
  /-- A rank starts a load; so many groups of reads are posted. -/
  | start (i : Fin worldSize) (env : LoadEnv) (k n : ℕ)
  | wait (i : Fin worldSize) (env : LoadEnv) (layer : Option ℕ)
  | save (i : Fin worldSize)
  /-- The oldest reads of a rank complete. -/
  | complete (i : Fin worldSize)
  | send (i : Fin worldSize)

namespace Ranks

variable {worldSize : ℕ} (c : LoadConfig) (s : Ranks worldSize)

/-- Nothing has happened. -/
def init (worldSize : ℕ) : Ranks worldSize := ⟨fun _ => .init, [], []⟩

/-- The ranks with one of them changed. -/
def set (i : Fin worldSize) (r : Rank) : Ranks worldSize :=
  { s with rank := update s.rank i r }

/-- One event. -/
def step : RankEvent worldSize → Option (Ranks worldSize)
  | .hand rid spec =>
    -- the server makes a lease once
    if ∀ p ∈ s.handed, ∀ lease ∈ spec.lease, p.2.lease ≠ some lease then
      some { s with handed := s.handed ++ [(rid, spec)] }
    else none
  | .start i env k n => do
    let p ← s.handed[k]?
    let r ← (s.rank i).start c env p.1 p.2 n
    some (s.set i r)
  | .wait i env layer => do
    let r ← (s.rank i).wait c env layer
    some (s.set i r)
  | .save i => some (s.set i ((s.rank i).save c))
  | .complete i => do
    let r ← (s.rank i).complete
    some (s.set i r)
  | .send i => do
    let (lease, r) ← (s.rank i).send
    some { s.set i r with released := s.released ++ [lease] }

/-- No rank has reads on their way under a lease that was released. -/
def Safe : Prop := ∀ lease ∈ s.released, ∀ i, ∀ q ∈ (s.rank i).reads, q.lease ≠ some lease

instance : Decidable s.Safe := by
  unfold Safe
  infer_instance

/-- The ranks take care of their own reads: a load whose reads could not be posted has posted none,
and the reads of a load that failed later are waited for. -/
def Orderly : RankEvent worldSize → Prop
  | .start _ env k n => ∀ p ∈ s.handed[k]?, env.begin p.1 = .postFails → n = 0
  | .wait i env layer =>
    (s.rank i).Drains c ((s.rank i).worker.waitForLayerLoad c.numLayers env layer)
  | .save i => (s.rank i).Drains c ((s.rank i).worker.waitForSave c.numLayers)
  | .hand _ _ | .complete _ | .send _ => True

instance (e : RankEvent worldSize) : Decidable (s.Orderly c e) := by
  cases e <;> unfold Orderly <;> infer_instance

end Ranks

/-! ### One rank -/

namespace LoadWorker

variable {w : LoadWorker} {numLayers : ℕ} {env : LoadEnv}

theorem lease_loadLayer (l : ℕ) (rid : String) (job : LoadJob) :
    (loadLayer env l rid job).lease = job.lease := by
  unfold loadLayer
  split_ifs
  · rfl
  · split <;> rfl

/-- A load that cannot begin gives its lease back, another one is open with it. -/
theorem startLoad_cases (w : LoadWorker) (blockSize : ℕ) (env : LoadEnv)
    (p : String × LoadSpec) :
    (env.begin p.1 = .posted ∧
      (w.startLoad blockSize env p).loads = w.loads.set p.1
        ⟨p.2.lease, w.nextSlice, p.2.failedBlocks blockSize, 0, false, []⟩ ∧
      (w.startLoad blockSize env p).leaseReleases = w.leaseReleases) ∨
    (env.begin p.1 ≠ .posted ∧ (w.startLoad blockSize env p).loads = w.loads ∧
      (w.startLoad blockSize env p).leaseReleases = w.leaseReleases ++ p.2.lease.toList) := by
  unfold startLoad beginLoad
  cases hbegin : env.begin p.1 with
  | posted => exact Or.inl ⟨rfl, rfl, rfl⟩
  | refused => exact Or.inr ⟨nofun, rfl, rfl⟩
  | postFails => exact Or.inr ⟨nofun, rfl, rfl⟩

theorem finished_finishLoads (w : LoadWorker) : (w.finishLoads numLayers).finished.drop
    w.finished.length = (w.updateJobs fun _ => checkLayers numLayers).loads.items :=
  drop_left

theorem Inv.slice_lt {seen : List ℕ} (h : w.Inv seen) {p : String × LoadJob}
    (hp : p ∈ w.loads.items) : p.2.slice < w.nextSlice := by
  have hmem : p.2.slice ∈ w.loads.values.map LoadJob.slice :=
    mem_map_of_mem (mem_map_of_mem (f := Prod.snd) hp)
  exact mem_range.mp (h.slices.mem_iff.mp (mem_append_left _ hmem))

end LoadWorker

namespace Rank

/-- What holds of a rank that takes care of its own reads. -/
structure Inv (c : LoadConfig) (r : Rank) : Prop where
  worker : r.worker.Inv r.asked
  asked : ∀ l ∈ r.asked, l < c.numLayers
  /-- The reads on their way are those of open loads. -/
  owned : ∀ q ∈ r.reads, ∃ p ∈ r.worker.loads.items, p.2.slice = q.slice ∧ p.2.lease = q.lease
  /-- The groups of a load were posted in order, -/
  ordered : r.reads.Pairwise fun a b => a.slice = b.slice → a.group < b.group
  /-- up to the last one. -/
  last : ∀ q ∈ r.reads, q.group < c.numGroups ∧
    ∃ z ∈ r.reads, z.slice = q.slice ∧ z.group + 1 = c.numGroups
  arrived : ∀ p ∈ r.worker.loads.items, p.2.failed = false → ∀ l ∈ p.2.scattered,
    ∀ q ∈ r.reads, q.slice = p.2.slice → q.group ≠ c.groupOf l
  /-- The lease of an open load has not been given back. -/
  held : ∀ p ∈ r.worker.loads.items, ∀ lease ∈ p.2.lease, lease ∉ r.worker.leaseReleases
  /-- A load is begun once under a lease. -/
  begun : (∀ p ∈ r.worker.loads.items, ∀ lease ∈ p.2.lease, lease ∈ r.begun) ∧
    ∀ lease ∈ r.worker.leaseReleases, lease ∈ r.begun

variable {c : LoadConfig} {env : LoadEnv} {r r' : Rank}

theorem inv_init : init.Inv c where
  worker := ⟨List.Perm.refl _, nofun⟩
  asked := nofun
  owned := nofun
  ordered := List.Pairwise.nil
  last := nofun
  arrived := nofun
  held := nofun
  begun := ⟨nofun, nofun⟩

/-- **A rank does not read under a lease that it has given back.** -/
theorem Inv.not_released (h : r.Inv c) {q : PostedRead} (hq : q ∈ r.reads) {lease : ℤ}
    (hlease : q.lease = some lease) : lease ∉ r.worker.leaseReleases := by
  obtain ⟨p, hp, -, heq⟩ := h.owned q hq
  exact h.held p hp lease (heq.trans hlease)

/-- Where the last group of a load has completed, all have. -/
theorem Inv.slice_ne (h : r.Inv c) {slice : ℕ}
    (hlast : ∀ q ∈ r.reads, q.slice = slice → q.group + 1 ≠ c.numGroups) :
    ∀ q ∈ r.reads, q.slice ≠ slice := by
  intro q hq heq
  obtain ⟨-, z, hz, hslice, hgroup⟩ := h.last q hq
  exact hlast z hz (hslice.trans heq) hgroup

/-- **An orderly rank that ends its loads has no reads left.** The last group of a failed load has
been waited for, and a load that has not failed has scattered the last layer. -/
theorem Inv.finish (h : r.Inv c) (hdrains : r.Drains c (r.worker.finishLoads c.numLayers)) :
    r.reads = [] := by
  rw [eq_nil_iff_forall_not_mem]
  intro q hq
  obtain ⟨p, hp, hslice, -⟩ := h.owned q hq
  have hcheck : p.2.Advanced (checkLayers c.numLayers p.2) r.asked ∧ _ :=
    advanced_checkLayers (h.worker.jobs p hp)
  obtain ⟨hadv, hcomplete⟩ := hcheck
  have hchecked : (p.1, checkLayers c.numLayers p.2) ∈
      (r.worker.updateJobs fun _ => checkLayers c.numLayers).loads.items :=
    mem_map.mpr ⟨p, hp, rfl⟩
  refine h.slice_ne ?_ q hq hslice.symm
  intro z hz hzslice
  cases hfailed : (checkLayers c.numLayers p.2).failed with
  | true =>
    refine hdrains (p.1, checkLayers c.numLayers p.2) ?_ hfailed z hz
      (hzslice.trans hadv.slice.symm)
    rw [finished_finishLoads]
    exact hchecked
  | false =>
    -- the check has changed nothing, so all layers are scattered
    have hdone := hcomplete hfailed
    have hsame : checkLayers c.numLayers p.2 = p.2 := by
      unfold checkLayers at hfailed ⊢
      by_cases hshort : (!p.2.failed && decide (p.2.layersDone < c.numLayers)) = true
      · rw [if_pos hshort] at hfailed
        cases hfailed
      · rw [if_neg hshort]
    rw [hsame] at hfailed hdone
    have hperm := scattered_perm (h.worker.jobs p hp) h.asked hfailed hdone
    have hmem : c.numLayers - 1 ∈ p.2.scattered :=
      hperm.mem_iff.mpr (mem_range.mpr (Nat.sub_lt c.numLayers_pos Nat.one_pos))
    intro hgroup
    rw [← c.groupOf_last, Nat.add_right_cancel_iff] at hgroup
    exact h.arrived p hp hfailed _ hmem z hz hzslice hgroup

/-- The leases given back when the loads end are those of the open loads. -/
theorem mem_leaseReleases_finishLoads {w : LoadWorker} {numLayers : ℕ} {lease : ℤ}
    (hmem : lease ∈ (w.finishLoads numLayers).leaseReleases) :
    lease ∈ w.leaseReleases ∨ ∃ p ∈ w.loads.items, p.2.lease = some lease := by
  rcases mem_append.mp hmem with hmem | hmem
  · exact Or.inl hmem
  · obtain ⟨job, hjob, hlease⟩ := mem_filterMap.mp hmem
    obtain ⟨q, hq, rfl⟩ := mem_map.mp hjob
    obtain ⟨p, hp, rfl⟩ := mem_map.mp hq
    refine Or.inr ⟨p, hp, ?_⟩
    dsimp only [checkLayers] at hlease
    split_ifs at hlease <;> exact hlease

section

variable (h : r.Inv c)
include h

theorem Inv.finished (hdrains : r.Drains c (r.worker.finishLoads c.numLayers))
    {asked : List ℕ} (hasked : ∀ l ∈ asked, l < c.numLayers) :
    ({ r with worker := r.worker.finishLoads c.numLayers, asked := asked } : Rank).Inv c := by
  have hnil := h.finish hdrains
  refine ⟨h.worker.finishLoads asked, hasked, ?_, ?_, ?_, nofun, nofun, nofun, fun lease hmem => ?_⟩
  · exact fun q hq => absurd (hnil ▸ hq) not_mem_nil
  · rw [hnil]
    exact List.Pairwise.nil
  · exact fun q hq => absurd (hnil ▸ hq) not_mem_nil
  · rcases mem_leaseReleases_finishLoads hmem with hmem | ⟨p, hp, hlease⟩
    · exact h.begun.2 lease hmem
    · exact h.begun.1 p hp lease hlease

/-- A load begins: its reads are posted behind the others, to a slice of its own. -/
theorem Inv.posted {rid : String} {spec : LoadSpec}
    (hnew : rid ∉ r.worker.loads.keys) (hfresh : ∀ lease ∈ spec.lease, lease ∉ r.begun)
    {w : LoadWorker} (hw : w.Inv r.asked) {blocks : List ℕ}
    (hloads : w.loads =
      r.worker.loads.set rid ⟨spec.lease, r.worker.nextSlice, blocks, 0, false, []⟩)
    (hreleases : w.leaseReleases = r.worker.leaseReleases) :
    ({ r with
      worker := w
      reads := r.reads ++ (List.range c.numGroups).map (⟨r.worker.nextSlice, spec.lease, ·⟩)
      begun := r.begun ++ spec.lease.toList } : Rank).Inv c := by
  have hitems : ∀ p, p ∈ w.loads.items ↔
      p = (rid, ⟨spec.lease, r.worker.nextSlice, blocks, 0, false, []⟩) ∨
        p ∈ r.worker.loads.items := by
    intro p
    rw [hloads, Dict.mem_items_set]
    refine or_congr_right ⟨And.left, fun hp => ⟨hp, fun heq => hnew ?_⟩⟩
    exact heq ▸ mem_map_of_mem (f := Prod.fst) hp
  -- the slice is a new one
  have hslice : ∀ p ∈ r.worker.loads.items, p.2.slice ≠ r.worker.nextSlice :=
    fun p hp => (h.worker.slice_lt hp).ne
  have hold : ∀ q ∈ r.reads, q.slice ≠ r.worker.nextSlice := by
    intro q hq
    obtain ⟨p, hp, heq, -⟩ := h.owned q hq
    exact heq ▸ hslice p hp
  refine ⟨hw, h.asked, fun q hq => ?_, ?_, fun q hq => ?_, fun p hp hfailed l hl q hq heq => ?_,
    fun p hp lease hlease => ?_, fun p hp lease hlease => ?_, fun lease hmem => ?_⟩
  · rcases mem_append.mp hq with hq | hq
    · obtain ⟨p, hp, heq⟩ := h.owned q hq
      exact ⟨p, (hitems p).mpr (Or.inr hp), heq⟩
    · obtain ⟨g, -, rfl⟩ := mem_map.mp hq
      exact ⟨_, (hitems _).mpr (Or.inl rfl), rfl, rfl⟩
  · refine pairwise_append.mpr ⟨h.ordered, ?_, fun a ha b hb heq => ?_⟩
    · rw [pairwise_map]
      refine List.Pairwise.imp (R := (· < ·)) ?_ pairwise_lt_range
      exact fun hlt _ => hlt
    · obtain ⟨g, -, rfl⟩ := mem_map.mp hb
      exact absurd heq (hold a ha)
  · rcases mem_append.mp hq with hq | hq
    · obtain ⟨hlt, z, hz, hrest⟩ := h.last q hq
      exact ⟨hlt, z, mem_append_left _ hz, hrest⟩
    · obtain ⟨g, hg, rfl⟩ := mem_map.mp hq
      rw [mem_range] at hg
      have hlast : c.numGroups - 1 + 1 = c.numGroups := Nat.sub_add_cancel (Nat.one_le_of_lt hg)
      refine ⟨hg, _, mem_append_right _ (mem_map.mpr ⟨c.numGroups - 1, ?_, rfl⟩), rfl,
        hlast⟩
      exact mem_range.mpr (Nat.lt_of_succ_le hlast.le)
  · rcases (hitems p).mp hp with rfl | hp
    · cases hl
    · rcases mem_append.mp hq with hq | hq
      · exact h.arrived p hp hfailed l hl q hq heq
      · obtain ⟨g, -, rfl⟩ := mem_map.mp hq
        exact absurd heq.symm (hslice p hp)
  · show lease ∉ w.leaseReleases
    rw [hreleases]
    rcases (hitems p).mp hp with rfl | hp
    · -- a new lease cannot have been released
      exact fun hmem => hfresh lease hlease (h.begun.2 lease hmem)
    · exact h.held p hp lease hlease
  · rcases (hitems p).mp hp with rfl | hp
    · exact mem_append_right _ (mem_toList.mpr hlease)
    · exact mem_append_left _ (h.begun.1 p hp lease hlease)
  · have hmem' : lease ∈ w.leaseReleases := hmem
    rw [hreleases] at hmem'
    exact mem_append_left _ (h.begun.2 lease hmem')

theorem Inv.start {rid : String} {spec : LoadSpec} {n : ℕ}
    (hstart : r.start c env rid spec n = some r') (hok : env.begin rid = .postFails → n = 0) :
    r'.Inv c := by
  unfold Rank.start at hstart
  split_ifs at hstart with hcan
  obtain ⟨hnew, hfresh, hposts⟩ := hcan
  obtain rfl := some_inj.mp hstart
  have hw : (r.worker.startLoad c.blockSize env (rid, spec)).Inv r.asked :=
    h.worker.startLoad hnew
  rcases startLoad_cases r.worker c.blockSize env (rid, spec) with
    ⟨hbegin, hloads, hreleases⟩ | ⟨hbegin, hloads, hreleases⟩
  · dsimp only at hbegin
    rw [hbegin] at hposts
    obtain rfl : n = c.numGroups := hposts
    exact h.posted hnew hfresh hw hloads hreleases
  · -- nothing is on its way for it
    obtain rfl : n = 0 := by
      cases houtcome : env.begin rid with
      | posted => exact absurd houtcome hbegin
      | refused =>
        rw [houtcome] at hposts
        exact hposts
      | postFails => exact hok houtcome
    rw [range_zero, map_nil, append_nil]
    refine ⟨hw, h.asked, hloads.symm ▸ h.owned, h.ordered, h.last, hloads.symm ▸ h.arrived,
      fun p hp lease hlease hmem => ?_, fun p hp lease hlease => ?_, fun lease hmem => ?_⟩
    · rw [hloads] at hp
      rw [hreleases, mem_append, mem_toList] at hmem
      rcases hmem with hmem | hmem
      · exact h.held p hp lease hlease hmem
      · exact hfresh lease hmem (h.begun.1 p hp lease hlease)
    · rw [hloads] at hp
      exact mem_append_left _ (h.begun.1 p hp lease hlease)
    · rw [hreleases, mem_append] at hmem
      exact mem_append.mpr (hmem.imp_left (h.begun.2 lease))

/-- One layer of every open load is asked for. -/
theorem Inv.loadLayer {l : ℕ} (hl : l ∉ r.asked) (hlt : l < c.numLayers)
    (harrived : r.Arrived c env (some l)) :
    ({ r with
      worker := r.worker.updateJobs (loadLayer env l)
      asked := l :: r.asked } : Rank).Inv c := by
  have hadv : ∀ p ∈ r.worker.loads.items,
      p.2.Advanced (LoadWorker.loadLayer env l p.1 p.2) (l :: r.asked) :=
    fun p hp => advanced_loadLayer (h.worker.jobs p hp) hl p.1
  refine ⟨h.worker.updateJobs hadv, ?_, fun q hq => ?_, h.ordered, h.last, ?_, ?_, ?_, h.begun.2⟩
  · intro k hk
    rcases mem_cons.mp hk with rfl | hk
    · exact hlt
    · exact h.asked k hk
  · obtain ⟨p, hp, hslice, hlease⟩ := h.owned q hq
    exact ⟨_, mem_map.mpr ⟨p, hp, rfl⟩, (hadv p hp).slice.trans hslice,
      (lease_loadLayer l p.1 p.2).trans hlease⟩
  · intro p' hp' hfailed k hk q hq hslice
    obtain ⟨p, hp, rfl⟩ := mem_map.mp hp'
    rw [(hadv p hp).slice] at hslice
    have hwas : p.2.failed = false := by
      cases hf : p.2.failed with
      | false => rfl
      | true => exact absurd ((hadv p hp).failed hf) (by rw [hfailed]; exact Bool.false_ne_true)
    unfold LoadWorker.loadLayer at hfailed hk
    rw [if_neg (by rw [hwas]; exact Bool.false_ne_true)] at hfailed hk
    cases houtcome : env.layer p.1 l with
    | fails scattered =>
      rw [houtcome] at hfailed
      cases hfailed
    | injected =>
      rw [houtcome] at hk
      rcases mem_cons.mp hk with rfl | hk
      · by_cases hwait : c.layerwiseLoad = true ∨ p.2.layersDone = 0
        · exact harrived p hp k rfl hwas (by rw [houtcome]; exact nofun) hwait q hq hslice
        · -- the only group was waited for at an earlier layer
          rw [not_or, Bool.not_eq_true] at hwait
          obtain ⟨k', hk'⟩ := exists_mem_of_length_pos
            (Nat.pos_of_ne_zero ((h.worker.jobs p hp).counted hwas ▸ hwait.2))
          have hother := h.arrived p hp hwas k' hk' q hq hslice
          simpa [LoadConfig.groupOf, hwait.1] using hother
      · exact h.arrived p hp hwas k hk q hq hslice
  · intro p' hp' lease hlease
    obtain ⟨p, hp, rfl⟩ := mem_map.mp hp'
    exact h.held p hp lease ((lease_loadLayer l p.1 p.2).symm.trans hlease)
  · intro p' hp' lease hlease
    obtain ⟨p, hp, rfl⟩ := mem_map.mp hp'
    exact h.begun.1 p hp lease ((lease_loadLayer l p.1 p.2).symm.trans hlease)

theorem Inv.reask (hnone : r.worker.loads.items = []) {asked : List ℕ}
    (hasked : ∀ l ∈ asked, l < c.numLayers) : ({ r with asked := asked } : Rank).Inv c := by
  refine { h with worker := ⟨h.worker.slices, fun p hp => ?_⟩, asked := hasked }
  exact absurd (hnone ▸ hp) not_mem_nil

theorem Inv.wait {layer : Option ℕ} (hwait : r.wait c env layer = some r')
    (hdrains : r.Drains c (r.worker.waitForLayerLoad c.numLayers env layer)) : r'.Inv c := by
  unfold Rank.wait at hwait
  split_ifs at hwait with hcan
  obtain ⟨hlayer, harrived⟩ := hcan
  obtain rfl := some_inj.mp hwait
  have hasked : ∀ l ∈ layer.toList ++ r.asked, l < c.numLayers := by
    intro l hl
    rcases mem_append.mp hl with hl | hl
    · exact (hlayer l (mem_toList.mp hl)).2
    · exact h.asked l hl
  unfold waitForLayerLoad at hdrains ⊢
  by_cases hnone : r.worker.loads.items = []
  · rw [if_pos hnone]
    exact h.reask hnone hasked
  · rw [if_neg hnone] at hdrains ⊢
    cases layer with
    | none => exact h
    | some l =>
      have hnext := h.loadLayer (hlayer l rfl).1 (hlayer l rfl).2 harrived
      dsimp only at hdrains ⊢
      split_ifs at hdrains ⊢ with hlast
      · exact hnext.finished hdrains hasked
      · exact hnext

/-- `wait_for_save`. -/
theorem Inv.save (hdrains : r.Drains c (r.worker.waitForSave c.numLayers)) : (r.save c).Inv c := by
  unfold Rank.save
  unfold waitForSave at hdrains ⊢
  by_cases hnone : r.worker.loads.items = []
  · rw [if_pos hnone]
    exact h.reask hnone nofun
  · rw [if_neg hnone] at hdrains ⊢
    exact h.finished hdrains nofun

/-- The oldest reads complete: the last group of a load is never the first to. -/
theorem Inv.complete (hcomplete : r.complete = some r') : r'.Inv c := by
  unfold Rank.complete at hcomplete
  split at hcomplete
  · cases hcomplete
  rename_i first reads hreads
  obtain rfl := some_inj.mp hcomplete
  have hordered := h.ordered
  rw [hreads, pairwise_cons] at hordered
  have hsub : ∀ q ∈ reads, q ∈ r.reads := fun q hq => hreads ▸ mem_cons_of_mem _ hq
  refine ⟨h.worker, h.asked, fun q hq => h.owned q (hsub q hq), hordered.2, fun q hq => ?_,
    fun p hp hfailed l hl q hq => h.arrived p hp hfailed l hl q (hsub q hq), h.held, h.begun⟩
  obtain ⟨hlt, z, hz, hslice, hgroup⟩ := h.last q (hsub q hq)
  refine ⟨hlt, z, ?_, hslice, hgroup⟩
  rw [hreads] at hz
  rcases mem_cons.mp hz with rfl | hz
  · have hbefore := hordered.1 q hq hslice
    omega
  · exact hz

end

/-! ### What was given back -/

theorem subset_start {rid : String} {spec : LoadSpec} {n : ℕ}
    (hstart : r.start c env rid spec n = some r') :
    r.worker.leaseReleases ⊆ r'.worker.leaseReleases := by
  unfold Rank.start at hstart
  split_ifs at hstart
  obtain rfl := some_inj.mp hstart
  rcases startLoad_cases r.worker c.blockSize env (rid, spec) with
    ⟨-, -, hreleases⟩ | ⟨-, -, hreleases⟩
  · rw [hreleases]
    exact List.Subset.refl _
  · rw [hreleases]
    exact subset_append_left ..

theorem subset_wait {layer : Option ℕ} (hwait : r.wait c env layer = some r') :
    r.worker.leaseReleases ⊆ r'.worker.leaseReleases := by
  unfold Rank.wait at hwait
  split_ifs at hwait
  obtain rfl := some_inj.mp hwait
  dsimp only [waitForLayerLoad]
  split
  · exact List.Subset.refl _
  split
  · exact List.Subset.refl _
  split
  · exact subset_append_left ..
  · exact List.Subset.refl _

theorem subset_save : r.worker.leaseReleases ⊆ (r.save c).worker.leaseReleases := by
  dsimp only [Rank.save, waitForSave]
  split
  · exact List.Subset.refl _
  · exact subset_append_left ..

end Rank

/-! ### All ranks -/

namespace Ranks

variable {worldSize : ℕ} {c : LoadConfig} {s s' : Ranks worldSize}

/-- What holds where all ranks take care of their own reads. -/
structure Inv (c : LoadConfig) (s : Ranks worldSize) : Prop where
  rank : ∀ i, (s.rank i).Inv c
  /-- What the server released was given back by some rank. -/
  released : ∀ lease ∈ s.released, ∃ i, lease ∈ (s.rank i).worker.leaseReleases

theorem inv_init : (init worldSize).Inv c := ⟨fun _ => Rank.inv_init, nofun⟩

theorem Inv.set (h : s.Inv c) {i : Fin worldSize} {r : Rank} (hr : r.Inv c)
    (hsub : (s.rank i).worker.leaseReleases ⊆ r.worker.leaseReleases) : (s.set i r).Inv c := by
  refine ⟨fun j => ?_, fun lease hlease => ?_⟩
  · by_cases hij : j = i
    · subst hij
      show (update s.rank j r j).Inv c
      rw [update_self]
      exact hr
    · show (update s.rank i r j).Inv c
      rw [update_of_ne hij]
      exact h.rank j
  · obtain ⟨j, hj⟩ := h.released lease hlease
    refine ⟨j, ?_⟩
    show lease ∈ (update s.rank i r j).worker.leaseReleases
    by_cases hij : j = i
    · subst hij
      rw [update_self]
      exact hsub hj
    · rw [update_of_ne hij]
      exact hj

/-- **One event.** -/
theorem Inv.step (h : s.Inv c) {e : RankEvent worldSize} (hok : s.Orderly c e)
    (hstep : s.step c e = some s') : s'.Inv c := by
  cases e with
  | hand rid spec =>
    dsimp only [Ranks.step] at hstep
    split_ifs at hstep
    obtain rfl := some_inj.mp hstep
    exact ⟨h.rank, h.released⟩
  | start i env k n =>
    obtain ⟨p, hp, hstep⟩ := bind_eq_some_iff.mp hstep
    obtain ⟨r, hr, hstep⟩ := bind_eq_some_iff.mp hstep
    obtain rfl := some_inj.mp hstep
    exact h.set ((h.rank i).start hr (hok p hp)) (Rank.subset_start hr)
  | wait i env layer =>
    obtain ⟨r, hr, hstep⟩ := bind_eq_some_iff.mp hstep
    obtain rfl := some_inj.mp hstep
    exact h.set ((h.rank i).wait hr hok) (Rank.subset_wait hr)
  | save i =>
    obtain rfl := some_inj.mp hstep
    exact h.set ((h.rank i).save hok) Rank.subset_save
  | complete i =>
    obtain ⟨r, hr, hstep⟩ := bind_eq_some_iff.mp hstep
    obtain rfl := some_inj.mp hstep
    refine h.set ((h.rank i).complete hr) ?_
    unfold Rank.complete at hr
    split at hr
    · cases hr
    · cases hr
      exact List.Subset.refl _
  | send i =>
    obtain ⟨⟨lease, r⟩, hr, hstep⟩ := bind_eq_some_iff.mp hstep
    obtain rfl := some_inj.mp hstep
    obtain ⟨lease', hlease, heq⟩ := map_eq_some_iff.mp hr
    cases heq
    have hset : (s.set i { s.rank i with sent := (s.rank i).sent + 1 }).Inv c :=
      h.set { h.rank i with } (List.Subset.refl _)
    -- a release that is sent was asked for by the rank
    refine ⟨hset.rank, fun lease' hmem => ?_⟩
    rcases mem_append.mp hmem with hmem | hmem
    · exact hset.released lease' hmem
    · obtain rfl := mem_singleton.mp hmem
      refine ⟨i, ?_⟩
      show lease' ∈ (update s.rank i _ i).worker.leaseReleases
      rw [update_self]
      exact mem_of_getElem? hlease

/-- A single rank is the one that gave the lease back. -/
theorem Inv.safe (h : s.Inv c) (hone : worldSize ≤ 1) : s.Safe := by
  intro lease hlease i q hq heq
  obtain ⟨j, hj⟩ := h.released lease hlease
  have hij : i = j := by omega
  subst hij
  exact (h.rank i).not_released hq heq hj

/-! ### Two ranks -/

/-- A load under the lease 7. -/
def sharedSpec : LoadSpec := ⟨some 7, 0, 4, [0]⟩

/-- A step in which `begin_load` ends in this way, and all layers arrive. -/
def beginsWith (o : BeginOutcome) : LoadEnv := ⟨fun _ _ => false, fun _ => o, fun _ _ => .injected⟩

/-- The second rank has posted its reads when the first finds no staging memory, and gives the lease
back. -/
def refusal (c : LoadConfig) (i j : Fin worldSize) : List (RankEvent worldSize) :=
  [.hand "r" sharedSpec, .start j (beginsWith .posted) 0 c.numGroups,
    .start i (beginsWith .refused) 0 0, .send i]

/-- The rank that has posted its reads. -/
def reading (c : LoadConfig) : Rank where
  worker := LoadWorker.init.startLoad c.blockSize (beginsWith .posted) ("r", sharedSpec)
  reads := (List.range c.numGroups).map (⟨0, some 7, ·⟩)
  asked := []
  begun := [7]
  sent := 0

/-- The rank that could not begin, when it has sent so many releases. -/
def refusing (c : LoadConfig) (sent : ℕ) : Rank where
  worker := LoadWorker.init.startLoad c.blockSize (beginsWith .refused) ("r", sharedSpec)
  reads := []
  asked := []
  begun := [7]
  sent := sent

/-- The state after that. -/
theorem run_refusal {i j : Fin worldSize} (hij : i ≠ j) :
    run (step c) (init worldSize) (refusal c i j) = some
      ⟨update (update (fun _ => .init) j (reading c)) i (refusing c 1),
        [("r", sharedSpec)], [7]⟩ := by
  have hstart : Rank.init.start c (beginsWith .posted) "r" sharedSpec c.numGroups =
      some (reading c) := if_pos ⟨nofun, fun _ _ => nofun, rfl⟩
  have hrefused : Rank.init.start c (beginsWith .refused) "r" sharedSpec 0 =
      some (refusing c 0) := if_pos ⟨nofun, fun _ _ => nofun, rfl⟩
  have hsend : (refusing c 0).send = some (7, refusing c 1) := rfl
  simp only [refusal, run_cons, run_nil, step, init, set, not_mem_nil,
    IsEmpty.forall_iff, implies_true, if_true, bind_some, bind_eq_bind,
    nil_append, List.getElem?_cons_zero, hstart, update_of_ne hij, hrefused,
    update_self, hsend, update_idem]

theorem each_refusal (i j : Fin worldSize) :
    Each (step c) (Orderly c) (init worldSize) (refusal c i j) := by
  rintro es₁ e es₂ t hes -
  have hmem : e ∈ refusal c i j := by
    rw [hes]
    exact mem_append_right _ mem_cons_self
  simp only [refusal, mem_cons, not_mem_nil, or_false] at hmem
  rcases hmem with rfl | rfl | rfl | rfl
  · trivial
  · exact fun _ _ hfails => nomatch hfails
  · exact fun _ _ hfails => nomatch hfails
  · trivial

/-- **One lease cannot be shared by ranks that give it back one by one.** If all ranks take care of
their own reads, no read is ever on its way under a lease that was released, provided that there is
one rank only. -/
theorem safe_iff (c : LoadConfig) (worldSize : ℕ) :
    (∀ es, Each (step c) (Orderly c) (init worldSize) es →
      Always (step c) Safe (init worldSize) es) ↔ worldSize ≤ 1 := by
  constructor
  · intro hsafe
    by_contra htwo
    rw [not_le] at htwo
    have hij : (⟨0, Nat.lt_of_succ_lt htwo⟩ : Fin worldSize) ≠ ⟨1, htwo⟩ := by
      rw [Ne, Fin.mk.injEq]
      exact Nat.zero_ne_one
    have hlast := hsafe _ (each_refusal _ _) _ [] _ (append_nil _).symm (run_refusal hij)
    -- the first group of the second rank is on its way
    have hpos : 0 < c.numGroups := by
      rw [← c.groupOf_last]
      exact Nat.succ_pos _
    refine hlast 7 mem_cons_self ⟨1, htwo⟩ ⟨0, some 7, 0⟩ ?_ rfl
    dsimp only
    exact mem_map.mpr ⟨0, mem_range.mpr hpos, rfl⟩
  · intro hone es heach
    have hinv : Always (step c) (Inv c) (init worldSize) es :=
      heach.always inv_init fun s e s' h hok hstep => h.step hok hstep
    exact fun es₁ es₂ s hes hrun => (hinv es₁ es₂ s hes hrun).safe hone

/-- Two ranks with one layer. -/
def oneLayerConfig : LoadConfig := ⟨4, 1, true, Nat.one_pos⟩

/-- Both ranks have posted their reads. Those of the first complete, it scatters the layer, ends
the load and gives the lease back. -/
def overtaking : List (RankEvent 2) :=
  [.hand "r" sharedSpec, .start 0 (beginsWith .posted) 0 1, .start 1 (beginsWith .posted) 0 1,
    .complete 0, .wait 0 (beginsWith .posted) (some 0), .save 0, .send 0]

/-- **Without any failure, the first rank to finish releases the lease of the other.** -/
theorem not_safe_overtaking :
    Each (step oneLayerConfig) (Orderly oneLayerConfig) (init 2) overtaking ∧
      ∃ s, run (step oneLayerConfig) (init 2) overtaking = some s ∧ s.released = [7] ∧
        (s.rank 1).reads = [⟨0, some 7, 0⟩] ∧ ¬ s.Safe := by
  refine ⟨by decide +kernel, _, rfl, ?_, ?_, ?_⟩
  · decide +kernel
  · decide +kernel
  · decide +kernel

end Ranks

end CacheFlow
