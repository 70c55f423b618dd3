import CacheFlow.Offload.Backend

/-!
# What the counter of a block stands for

Readiness, pins and failed stores share one counter per block. `Account` says what it means, in
terms of the transfers that have been prepared and not completed: `-1` while the block is being
stored, and otherwise at least the number of loads under way. It is stated hash by hash of a lookup
function, so that it does not depend on how a manager arranges its blocks.

The counter is a `c_int32`. After `2 ^ 31` loads of one block at a time it has wrapped around, and
the block is stuck: no load of it can be prepared or completed any more, and it is never evicted.

## Main results

* `Account.pin`, `Account.unpin`, `Account.stored`, … — one lemma for each thing that happens to a
  block.
* `Account.idle` — a block that may be evicted has no transfer under way.
-/

namespace CacheFlow.Offload

open List Function

/-- The counter of a block, if there is one, agrees with the numbers of loads and stores of it that
were prepared and not completed. -/
structure Fits (block : Option BlockStatus) (loads stores : ℕ) : Prop where
  storing : 0 < stores → ∃ b, block = some b ∧ b.refCnt = -1
  once : stores ≤ 1
  exclusive : 0 < stores → loads = 0
  present : 0 < loads → ∃ b, block = some b
  /-- The counter of any other block is at least the number of its loads, or has wrapped around. -/
  reading : ∀ b, block = some b → stores = 0 →
    (loads ≤ b.refCnt ∧ b.refCnt < 2 ^ 31) ∨ b.refCnt = -2 ^ 31

/-- The counters agree with the transfers under way, hash by hash. -/
def Account {K : Type} (g : K → Option BlockStatus) (loads stores : K → ℕ) : Prop :=
  ∀ h, Fits (g h) (loads h) (stores h)

/-! ### One block -/

namespace Fits

variable {b : BlockStatus} {loads loads' stores : ℕ}

theorem absent : Fits none 0 0 :=
  ⟨fun h => absurd h (lt_irrefl 0), Nat.zero_le 1, fun _ => rfl, fun h => absurd h (lt_irrefl 0),
    fun _ h => by cases h⟩

theorem ofRefCnt (hb : (loads ≤ b.refCnt ∧ b.refCnt < 2 ^ 31) ∨ b.refCnt = -2 ^ 31) :
    Fits (some b) loads 0 :=
  ⟨fun h => absurd h (lt_irrefl 0), Nat.zero_le 1, fun h => absurd h (lt_irrefl 0),
    fun _ => ⟨b, rfl⟩, fun _ hb' _ => Option.some.inj hb' ▸ hb⟩

theorem ofNotReady (hb : b.refCnt = -1) : Fits (some b) 0 1 :=
  ⟨fun _ => ⟨b, rfl, hb⟩, le_rfl, fun _ => rfl, fun h => absurd h (lt_irrefl 0),
    fun _ _ h => absurd h one_ne_zero⟩

theorem eq_zero_of_absent (h : Fits none loads stores) : loads = 0 ∧ stores = 0 := by
  constructor
  · by_contra hne
    obtain ⟨b, hb⟩ := h.present (Nat.pos_of_ne_zero hne)
    cases hb
  · by_contra hne
    obtain ⟨b, hb, -⟩ := h.storing (Nat.pos_of_ne_zero hne)
    cases hb

theorem mono {block : Option BlockStatus} (h : Fits block loads stores) (hle : loads' ≤ loads) :
    Fits block loads' stores := { h with
  exclusive := fun hs => by
    have := h.exclusive hs
    omega
  present := fun hl => h.present (lt_of_lt_of_le hl hle)
  reading := fun b hb hs => by
    rcases h.reading b hb hs with ⟨hle', hlt⟩ | hwrap
    · exact Or.inl ⟨by omega, hlt⟩
    · exact Or.inr hwrap }

/-- A block that is ready is not being stored, and its counter is in range. -/
theorem ready (h : Fits (some b) loads stores) (hb : 0 ≤ b.refCnt) :
    stores = 0 ∧ loads ≤ b.refCnt ∧ b.refCnt < 2 ^ 31 := by
  have hs : stores = 0 := by
    by_contra hne
    obtain ⟨b', hb', href⟩ := h.storing (Nat.pos_of_ne_zero hne)
    rw [Option.some.injEq] at hb'
    rw [hb'] at hb
    omega
  rcases h.reading b rfl hs with hin | hwrap
  · exact ⟨hs, hin⟩
  · omega

end Fits

/-! ### All blocks -/

namespace Account

variable {K : Type} {g : K → Option BlockStatus} {loads loads' stores : K → ℕ} {h : K}
  {b : BlockStatus}

theorem empty : Account (fun _ : K => none) (fun _ => 0) (fun _ => 0) := fun _ => Fits.absent

section

variable (acc : Account g loads stores)
include acc

theorem mono (hle : ∀ h, loads' h ≤ loads h) :
    Account g loads' stores := fun h => (acc h).mono (hle h)

theorem at_some (hg : g h = some b) : Fits (some b) (loads h) (stores h) := hg ▸ acc h

/-- **A block whose counter is 0 has no transfer under way.** -/
theorem idle (hg : g h = some b) (hb : b.refCnt = 0) : loads h = 0 ∧ stores h = 0 := by
  obtain ⟨hs, hle, -⟩ := (acc.at_some hg).ready (by omega)
  exact ⟨by omega, hs⟩

theorem busy (hbusy : 0 < loads h ∨ 0 < stores h) : ∃ b, g h = some b := by
  rcases hbusy with hl | hs
  · exact (acc h).present hl
  · obtain ⟨b, hb, -⟩ := (acc h).storing hs
    exact ⟨b, hb⟩

end

variable [DecidableEq K]

section

variable (acc : Account g loads stores)
include acc

theorem update {block : Option BlockStatus} {n m : ℕ}
    (hfit : Fits block n m) :
    Account (update g h block) (update loads h n)
      (update stores h m) := by
  intro k
  by_cases hk : k = h
  · subst hk
    simp only [update_self]
    exact hfit
  · simp only [update_of_ne hk]
    exact acc k

theorem pin (hg : g h = some b) (hb : b.isReady) :
    Account (Function.update g h (some { b with refCnt := cInt32 (b.refCnt + 1) }))
      (Function.update loads h (loads h + 1)) stores := by
  obtain ⟨hs, hle, hlt⟩ := (acc.at_some hg).ready hb
  have hfit : Fits (some { b with refCnt := cInt32 (b.refCnt + 1) }) (loads h + 1) 0 := by
    refine Fits.ofRefCnt ?_
    rcases lt_or_ge (b.refCnt + 1) (2 ^ 31) with hin | hmax
    · rw [cInt32_of_lt (by omega) hin]
      exact Or.inl ⟨by push_cast; omega, hin⟩
    · have heq : b.refCnt + 1 = 2 ^ 31 := by omega
      rw [heq, cInt32_max]
      exact Or.inr rfl
  have hacc := acc.update (h := h) hfit
  rwa [← hs, update_eq_self] at hacc

theorem unpin (hg : g h = some b) (hb : 0 < b.refCnt) :
    Account (Function.update g h (some { b with refCnt := cInt32 (b.refCnt - 1) }))
      (Function.update loads h (loads h - 1)) stores := by
  obtain ⟨hs, hle, hlt⟩ := (acc.at_some hg).ready hb.le
  have hfit : Fits (some { b with refCnt := cInt32 (b.refCnt - 1) }) (loads h - 1) 0 := by
    refine Fits.ofRefCnt (Or.inl ?_)
    rw [cInt32_of_lt (by omega) (by omega)]
    exact ⟨by simp only; omega, by simp only; omega⟩
  have hacc := acc.update (h := h) hfit
  rwa [← hs, update_eq_self] at hacc

theorem stored (hs : 0 < stores h) :
    Account (Function.update g h (some { b with refCnt := 0 })) loads
      (Function.update stores h 0) := by
  have hl := (acc h).exclusive hs
  have hfit : Fits (some { b with refCnt := 0 }) 0 0 :=
    Fits.ofRefCnt (Or.inl ⟨le_rfl, by norm_num⟩)
  have hacc := acc.update (h := h) hfit
  rwa [← hl, update_eq_self, hl] at hacc

/-- A store has failed: the block goes. -/
theorem failed (hs : 0 < stores h) :
    Account (Function.update g h none) loads (Function.update stores h 0) := by
  have hacc := acc.update (h := h) Fits.absent
  nth_rewrite 1 [← (acc h).exclusive hs] at hacc
  rwa [update_eq_self] at hacc

theorem evict (hg : g h = some b) (hb : b.refCnt = 0) :
    Account (Function.update g h none) loads stores := by
  obtain ⟨hl, hs⟩ := acc.idle hg hb
  have hacc := acc.update (h := h) Fits.absent
  nth_rewrite 1 [← hl] at hacc
  rwa [← hs, update_eq_self, update_eq_self] at hacc

theorem insert (hg : g h = none) (hb : b.refCnt = -1) :
    Account (Function.update g h (some b)) loads (Function.update stores h 1) := by
  obtain ⟨hl, -⟩ := (hg ▸ acc h : Fits none (loads h) (stores h)).eq_zero_of_absent
  have hacc := acc.update (h := h) (Fits.ofNotReady hb)
  rwa [← hl, update_eq_self] at hacc

end

theorem insertAll (ps : List (K × BlockStatus)) {g : K → Option BlockStatus} {loads stores : K → ℕ}
    (acc : Account g loads stores) (hnd : (ps.map Prod.fst).Nodup)
    (hnone : (∀ p ∈ ps, g p.1 = none)) (href : (∀ p ∈ ps, p.2.refCnt = -1)) :
    Account (ps.foldl (fun g p => Function.update g p.1 (some p.2)) g) loads
        fun h => stores h + (ps.map Prod.fst).count h := by
  induction ps generalizing g loads stores with
  | nil => simpa using acc
  | cons p ps ih =>
    rw [map_cons, nodup_cons] at hnd
    have hp := hnone p (by simp)
    have hzero : stores p.1 = 0 :=
      (hp ▸ acc p.1 : Fits none (loads p.1) (stores p.1)).eq_zero_of_absent.2
    have hrest := ih (acc.insert hp (href p (by simp))) hnd.2
      (fun q hq => by
        have hne : q.1 ≠ p.1 := fun heq => hnd.1 (heq ▸ mem_map_of_mem hq)
        rw [update_of_ne hne]
        exact hnone q (mem_cons_of_mem p hq))
      fun q hq => href q (mem_cons_of_mem p hq)
    -- counting the stores one by one or all at once
    have hcount : (fun h => stores h + ((p :: ps).map Prod.fst).count h) =
        fun h => Function.update stores p.1 1 h + (ps.map Prod.fst).count h := by
      funext h
      by_cases hh : h = p.1
      · rw [hh, map_cons, count_cons_self, update_self, hzero]
        omega
      · rw [map_cons, count_cons_of_ne (Ne.symm hh), update_of_ne hh]
    rw [hcount]
    exact hrest

end Account

/-- A count that goes through a list, one hash further. -/
theorem update_count_cons {K : Type} [DecidableEq K] (F : K → ℕ → ℕ) {a : K} {l : List K} {n : ℕ}
    (hn : n = F a (l.count a)) :
    update (fun k => F k ((a :: l).count k)) a n = fun k => F k (l.count k) := by
  funext k
  by_cases hk : k = a
  · rw [hk, update_self, hn]
  · rw [update_of_ne hk, count_cons_of_ne (Ne.symm hk)]

namespace Account

variable {K : Type} [DecidableEq K] {g : K → Option BlockStatus} {loads stores base : K → ℕ}
  {a : K} {l : List K} {b : BlockStatus}

theorem pin_next (acc : Account g (fun k => base k - (a :: l).count k) stores)
    (hle : (a :: l).count a ≤ base a) (hg : g a = some b) (hb : b.isReady) :
    Account (Function.update g a (some { b with refCnt := cInt32 (b.refCnt + 1) }))
      (fun k => base k - l.count k) stores := by
  rw [count_cons_self] at hle
  have hacc := acc.pin hg hb
  rwa [update_count_cons (fun k n => base k - n) (by rw [count_cons_self]; omega)] at hacc

theorem unpin_next (acc : Account g (fun k => base k + (a :: l).count k) stores) (hg : g a = some b)
    (hb : 0 < b.refCnt) :
    Account (Function.update g a (some { b with refCnt := cInt32 (b.refCnt - 1) }))
      (fun k => base k + l.count k) stores := by
  have hacc := acc.unpin hg hb
  rwa [update_count_cons (fun k n => base k + n) (by rw [count_cons_self]; omega)] at hacc

/-- The next store of a list: its block is not ready, and the store is completed or has failed. -/
theorem store_next (acc : Account g loads fun k => base k + (a :: l).count k) :
    ∃ b, g a = some b ∧ ¬ b.isReady ∧
      Account (Function.update g a (some { b with refCnt := 0 })) loads (fun k => base k + l.count k) ∧
      Account (Function.update g a none) loads fun k => base k + l.count k := by
  have hpos : 0 < base a + (a :: l).count a := by
    rw [count_cons_self]
    omega
  obtain ⟨b, hb, href⟩ := (acc a).storing hpos
  have hone : base a + (a :: l).count a ≤ 1 := (acc a).once
  rw [count_cons_self] at hone
  have hcount := update_count_cons (fun k n => base k + n) (show 0 = base a + l.count a by omega)
  refine ⟨b, hb, ?_, hcount ▸ acc.stored hpos, hcount ▸ acc.failed hpos⟩
  rw [BlockStatus.not_isReady_iff]
  omega

end Account

end CacheFlow.Offload
