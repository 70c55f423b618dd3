import CacheFlow.Lib.Recency
import CacheFlow.Mm.Mirror

/-!
# The order of the LRU cache

`LRUCache` of `utils/cache.py` writes to the order of its parent class in `touch`, which the
receiver's cache of the multimodal items calls before it looks an item up. A key that is touched
and not stored then stands in the order, and an eviction that meets it does not return.

## Main definitions

* `LruCache.Consistent` — the oldest entry can be removed, and every `put` returns.

## Main results

* `LruCache.always_consistent_iff` — exactly if only stored keys are touched.
-/

namespace CacheFlow.Mm

open List Steps

/-- The calls on a cache without pinned items. -/
inductive CacheOp (K V : Type) where
  | get (k : K) : CacheOp K V
  | put (k : K) (v : V) (size : ℕ) : CacheOp K V
  | touch (k : K) : CacheOp K V
  | pop (k : K) : CacheOp K V
  | removeOldest : CacheOp K V

variable {K V : Type} [DecidableEq K]

namespace LruCache

/-- `pop`: nothing is removed if the key has no entry. -/
def pop (k : K) (c : LruCache K V) : LruCache K V :=
  match c.data.get? k with
  | none => c
  | some (_, held) =>
    { c with data := c.data.erase k, currsize := c.currsize - held, order := c.order.erase k }

/-- `remove_oldest`: `popitem` pops the first key of the order. -/
def removeOldest : EStateM CacheErr (LruCache K V) Unit := do
  let c ← get
  if c.data.keys = [] then pure () else
  match c.order with
  | [] => throw .allPinned
  | k :: _ => set (c.pop k)

/-- A call. -/
def call : CacheOp K V → EStateM CacheErr (LruCache K V) Unit
  | .get k => (fun _ => ()) <$> getItem k
  | .put k v size => setItem k v size
  | .touch k => modify (touch · k)
  | .pop k => modify (pop k)
  | .removeOldest => removeOldest

/-- The key that a call uses; a value that is too large is not stored. -/
def used (c : LruCache K V) : CacheOp K V → List K
  | .get k => [k]
  | .put k _ size => if size ≤ c.maxsize then [k] else []
  | .touch k => [k]
  | _ => []

/-- The cache and the keys used so far after a call that returns or raises. -/
def step (s : LruCache K V × List K) (op : CacheOp K V) : Option (LruCache K V × List K) :=
  match call op s.1 with
  | .error .hangs _ => none
  | .error _ c => some (c, s.1.used op ++ s.2)
  | .ok _ c => some (c, s.1.used op ++ s.2)

/-- The order has the stored keys by their last uses, and the sizes add up. -/
structure Ordered (c : LruCache K V) (uses : List K) : Prop where
  order : c.order.Perm c.data.keys
  recency : ByRecency uses c.order
  currsize : c.currsize = (c.data.values.map Prod.snd).sum
  le : c.currsize ≤ c.maxsize

/-- Besides, `remove_oldest` removes the first entry in the order, and every `put` of a value that
is not too large returns. -/
structure Consistent (s : LruCache K V × List K) : Prop extends Ordered s.1 s.2 where
  oldest : s.1.data.keys ≠ [] → ∃ k, s.1.order.head? = some k ∧ k ∈ s.1.data.keys ∧
    Sat removeOldest s.1 fun _ c => c.data = s.1.data.erase k
  put : ∀ k v size, size ≤ s.1.maxsize → Sat (setItem k v size) s.1 fun _ _ => True

/-- The call touches no key without an entry. -/
def TouchesStored (s : LruCache K V × List K) : CacheOp K V → Prop
  | .touch k => k ∈ s.1.data.keys
  | _ => True

variable {c : LruCache K V} {uses : List K} {k : K} {s : LruCache K V × List K}

section

variable (h : Ordered c uses)
include h

theorem Ordered.split {v : V} {n : ℕ} (hk : c.data.get? k = some (v, n)) :
    c.currsize = n + ((c.data.erase k).values.map Prod.snd).sum := by
  rw [h.currsize, ((Dict.values_perm_of_get? hk).map Prod.snd).sum_eq, map_cons, sum_cons]

theorem Ordered.pop (k : K) : Ordered (c.pop k) uses := by
  unfold LruCache.pop
  cases hk : c.data.get? k with
  | none => exact h
  | some p =>
    have hsplit := h.split hk
    refine ⟨?_, h.recency.sublist erase_sublist, ?_, ?_⟩
    · rw [Dict.keys_erase]
      exact h.order.erase k
    · show c.currsize - p.2 = ((c.data.erase k).values.map Prod.snd).sum
      omega
    · exact (Nat.sub_le _ _).trans h.le

theorem Ordered.nodup : c.order.Nodup :=
  h.order.nodup_iff.mpr c.data.nodup_keys

theorem Ordered.recency_touch (k : K) : ByRecency (k :: uses) (c.touch k).order :=
  (h.recency.sublist erase_sublist).use h.nodup.not_mem_erase

theorem Ordered.touch (hk : k ∈ c.data.keys) : Ordered (c.touch k) (k :: uses) := by
  refine ⟨?_, h.recency_touch k, h.currsize, h.le⟩
  have hmem : k ∈ c.order := h.order.mem_iff.mpr hk
  exact ((perm_append_singleton k _).trans (perm_cons_erase hmem).symm).trans h.order

/-- **The entry is written**, if there is room for it. -/
theorem Ordered.addItem (v : V) {n : ℕ}
    (hroom : c.currsize + n - (c.heldSize k).getD 0 ≤ c.maxsize) :
    Ordered (c.addItem k v n) (k :: uses) := by
  refine ⟨?_, h.recency_touch k, ?_, hroom⟩
  · show (c.order.erase k ++ [k]).Perm (c.data.set k (v, n)).keys
    rw [perm_ext_iff_of_nodup (h.nodup.erase k |>.append (nodup_singleton k)
      (by simpa using h.nodup.not_mem_erase)) (Dict.nodup_keys _)]
    intro a
    rw [Dict.mem_keys_set, mem_append, mem_singleton, h.nodup.mem_erase_iff, h.order.mem_iff]
    tauto
  · show c.currsize + n - (c.heldSize k).getD 0 = ((c.data.set k (v, n)).values.map Prod.snd).sum
    rw [((Dict.values_set_perm c.data k (v, n)).map Prod.snd).sum_eq, map_cons, sum_cons, heldSize]
    cases hk : c.data.get? k with
    | none =>
      rw [Dict.erase_of_get?_eq_none hk, ← h.currsize]
      simp [Nat.add_comm]
    | some p =>
      have hsplit := h.split hk
      simp only [Option.map_some, Option.getD_some]
      omega

end

/-- **Room is made** by removing the oldest entries: each key in the order has one. -/
theorem Ordered.makeRoom {n : ℕ} (hn : n ≤ c.maxsize) (order : List K) (horder : c.order = order)
    (h : Ordered c uses) : Sat (makeRoom n order) c fun _ c' =>
      Ordered c' uses ∧ c'.maxsize = c.maxsize ∧ c'.currsize + n ≤ c'.maxsize := by
  induction order generalizing c with
  | nil =>
    have hzero : c.currsize = 0 := by
      have hkeys : c.data.keys = [] := (horder ▸ h.order).nil_eq.symm
      rw [h.currsize, Dict.values, map_eq_nil_iff.mp hkeys]
      rfl
    unfold LruCache.makeRoom
    rw [sat_bind, sat_get, if_pos (by omega), sat_pure]
    exact ⟨h, rfl, by omega⟩
  | cons k order ih =>
    unfold LruCache.makeRoom
    rw [sat_bind, sat_get]
    split_ifs with hfits
    · exact sat_pure.mpr ⟨h, rfl, hfits⟩
    · have hmem : k ∈ c.data.keys := h.order.mem_iff.mp (by simp [horder])
      obtain ⟨p, hp⟩ := Dict.mem_keys_iff.mp hmem
      have hpop := h.pop k
      simp only [LruCache.pop, hp, horder, erase_cons_head] at hpop
      simp only [hp, sat_bind, sat_set]
      exact ih hn rfl hpop

/-- **A value that is not too large is stored.** -/
theorem Ordered.setItem (h : Ordered c uses) (k : K) (v : V) {n : ℕ} (hn : n ≤ c.maxsize) :
    Sat (setItem k v n) c fun _ c' => Ordered c' (k :: uses) := by
  unfold LruCache.setItem
  rw [sat_bind, sat_get, if_neg (by omega)]
  split_ifs with hgrow
  · rw [sat_bind]
    refine (h.makeRoom hn c.order rfl).mono fun _ c' hc => ?_
    rw [sat_modify]
    exact hc.1.addItem v ((Nat.sub_le _ _).trans hc.2.2)
  · rw [sat_modify]
    refine h.addItem v ?_
    -- the entry of the key is at least as large
    cases hk : c.heldSize k with
    | none => simp [hk] at hgrow
    | some m =>
      have hle := h.le
      simp only [hk, Option.all_some, decide_eq_true_eq] at hgrow
      simp only [Option.getD_some]
      omega

theorem Ordered.removeOldest (h : Ordered c uses) (hne : c.data.keys ≠ []) :
    ∃ k, c.order.head? = some k ∧ k ∈ c.data.keys ∧
      Sat removeOldest c fun _ c' => c'.data = c.data.erase k ∧ Ordered c' uses := by
  cases horder : c.order with
  | nil => exact absurd (horder ▸ h.order).nil_eq.symm hne
  | cons k order =>
    have hmem : k ∈ c.data.keys := h.order.mem_iff.mp (by simp [horder])
    obtain ⟨p, hp⟩ := Dict.mem_keys_iff.mp hmem
    refine ⟨k, rfl, hmem, ?_⟩
    unfold LruCache.removeOldest
    simp only [sat_bind, sat_get, if_neg hne, horder, sat_set]
    exact ⟨by simp [LruCache.pop, hp], h.pop k⟩

theorem Ordered.consistent (h : Ordered s.1 s.2) : Consistent s where
  toOrdered := h
  oldest hne := by
    obtain ⟨k, hhead, hmem, hsat⟩ := h.removeOldest hne
    exact ⟨k, hhead, hmem, hsat.mono fun _ _ hc => hc.1⟩
  put k v size hsize := (h.setItem k v hsize).mono fun _ _ _ => trivial

theorem step_of_sat {op : CacheOp K V} {Q : LruCache K V → Prop}
    (h : Sat (call op) s.1 fun _ c => Q c) : ∃ c, step s op = some (c, s.1.used op ++ s.2) ∧ Q c := by
  obtain ⟨a, c, hcall, hq⟩ := h
  exact ⟨c, by rw [step, hcall], hq⟩

/-- **A call that touches a stored key, or none**, returns and keeps the order. -/
theorem Ordered.step (h : Ordered s.1 s.2) {op : CacheOp K V} (hop : TouchesStored s op) :
    ∃ c, step s op = some (c, s.1.used op ++ s.2) ∧ Ordered c (s.1.used op ++ s.2) := by
  cases op with
  | get k =>
    refine step_of_sat ?_
    rw [call, sat_map, getItem, sat_bind, sat_get]
    cases hk : s.1.data.get? k with
    | none =>
      have hnot : k ∉ s.1.order := fun hmem =>
        Dict.get?_eq_none_iff.mp hk (h.order.mem_iff.mp hmem)
      exact sat_pure.mpr { h with recency := h.recency.use_absent hnot }
    | some p =>
      simp only [sat_bind, sat_set, sat_pure]
      exact h.touch (Dict.mem_keys_iff.mpr ⟨p, hk⟩)
  | put k v size =>
    by_cases hsize : size ≤ s.1.maxsize
    · refine step_of_sat ?_
      rw [used, if_pos hsize]
      exact h.setItem k v hsize
    · -- the call raises before it touches the cache
      have hraise : call (.put k v size) s.1 = .error .valueTooLarge s.1 :=
        congrFun (if_pos (Nat.lt_of_not_le hsize)) s.1
      refine ⟨s.1, by rw [LruCache.step, hraise], ?_⟩
      rw [used, if_neg hsize]
      exact h
  | touch k => exact step_of_sat (sat_modify.mpr (h.touch hop))
  | pop k => exact step_of_sat (sat_modify.mpr (h.pop k))
  | removeOldest =>
    refine step_of_sat ?_
    by_cases hne : s.1.data.keys = []
    · unfold call LruCache.removeOldest
      rw [sat_bind, sat_get, if_pos hne, sat_pure]
      exact h
    · obtain ⟨k, -, -, hsat⟩ := h.removeOldest hne
      exact hsat.mono fun _ _ hc => hc.2

/-- **The cache is consistent** throughout a run just if only stored keys are touched. -/
theorem always_consistent_iff (maxsize : ℕ) (ops : List (CacheOp K V)) :
    Always step Consistent (new maxsize, []) ops ↔ Each step TouchesStored (new maxsize, []) ops := by
  constructor
  · rintro h ops₁ op ops₂ s rfl hrun
    cases op with
    | touch k =>
      have hstep : step s (.touch k) = some (s.1.touch k, k :: s.2) := rfl
      have hnext := h (ops₁ ++ [.touch k]) ops₂ _ (by simp)
        (run_concat_eq_some.mpr ⟨s, hrun, hstep⟩)
      exact hnext.order.mem_iff.mp (mem_append_right _ (mem_singleton_self k))
    | _ => trivial
  · intro h
    have hnew : Ordered (new maxsize : LruCache K V) [] :=
      ⟨Perm.refl _, byRecency_nil [], rfl, Nat.zero_le _⟩
    refine h.always hnew.consistent fun s op s' hs hop hstep => ?_
    obtain ⟨c, hc, hordered⟩ := hs.toOrdered.step hop
    obtain rfl : (c, s.1.used op ++ s.2) = s' := Option.some_inj.mp (hc.symm.trans hstep)
    exact hordered.consistent

/-- A key that is not stored is touched, and the second `put` does not return. -/
theorem hangs_of_touch :
    ∃ s, run step ((new 1, []) : LruCache ℕ Unit × List ℕ) [.touch 1, .put 2 () 1] = some s ∧
      setItem 3 () 1 s.1 = .error .hangs s.1 := ⟨_, rfl, rfl⟩

end LruCache

end CacheFlow.Mm
