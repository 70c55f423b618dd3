import CacheFlow.Lib.Dict

/-!
# Ordered dictionaries in order of use

`OrderedDict.move_to_end` makes a dictionary remember which of its keys were used last. What is
meant by that is a statement about the history of uses, not about the dictionary: a key stands
before another if its last use is the older one. The history is a list of keys with the latest use
first, so the position of a key in it is the number of uses since its own.

## Main results

* `Dict.keys_moveToEnd`, `Dict.get?_moveToEnd` — only the order changes.
-/

variable {K V W : Type*} [DecidableEq K]

/-! ### Moving an entry to the end -/

namespace Dict

open List Function

/-- `move_to_end`; nothing if the key is absent, where the source has a `KeyError`. -/
def moveToEnd (d : Dict K V) (k : K) : Option (Dict K V) :=
  (d.get? k).map fun v => (d.erase k).set k v

variable {d d' : Dict K V} {k : K}

theorem moveToEnd_eq_some (h : d.moveToEnd k = some d') :
    ∃ v, d.get? k = some v ∧ d' = (d.erase k).set k v := by
  obtain ⟨v, hv, heq⟩ := Option.map_eq_some_iff.mp h
  exact ⟨v, hv, heq.symm⟩

theorem not_mem_keys_erase (d : Dict K V) (k : K) : k ∉ (d.erase k).keys :=
  get?_eq_none_iff.mp (get?_erase_self d k)

/-- The key goes to the end, the others keep their order. -/
theorem keys_moveToEnd (h : d.moveToEnd k = some d') : d'.keys = d.keys.erase k ++ [k] := by
  obtain ⟨v, -, rfl⟩ := moveToEnd_eq_some h
  rw [keys_set_of_not_mem (d.not_mem_keys_erase k), keys_erase]

theorem get?_moveToEnd (h : d.moveToEnd k = some d') (k' : K) : d'.get? k' = d.get? k' := by
  obtain ⟨v, hv, rfl⟩ := moveToEnd_eq_some h
  rw [get?_set]
  split_ifs with hk
  · rw [hk, hv]
  · exact get?_erase_of_ne d hk

theorem values_moveToEnd (h : d.moveToEnd k = some d') : d'.values.Perm d.values := by
  obtain ⟨v, hv, rfl⟩ := moveToEnd_eq_some h
  refine (values_set_perm_of_get?_eq_none (get?_erase_self d k) v).trans ?_
  exact (values_perm_of_get? hv).symm

theorem map_values_set_perm {v w : V} (f : V → W) (h : d.get? k = some v)
    (hvw : f w = f v) : ((d.set k w).values.map f).Perm (d.values.map f) := by
  refine ((values_set_perm d k w).map f).trans ?_
  rw [map_cons, hvw, ← map_cons]
  exact ((values_perm_of_get? h).map f).symm

theorem keys_set_of_get? {v : V} (h : d.get? k = some v) (w : V) : (d.set k w).keys = d.keys := by
  rw [keys, set_of_mem (mem_keys_iff.mpr ⟨v, h⟩), keys]
  exact map_fst_replace _ _ _

theorem get?_set_update (d : Dict K V) (k : K) (v : V) :
    (d.set k v).get? = update d.get? k (some v) := by
  funext k'
  rw [get?_set, update_apply]

theorem get?_erase_update (d : Dict K V) (k : K) : (d.erase k).get? = update d.get? k none := by
  funext k'
  rw [get?_erase, update_apply]

theorem get?_foldl_set (ps : List (K × V)) (d : Dict K V) :
    (ps.foldl (fun d p => d.set p.1 p.2) d).get? =
      ps.foldl (fun (g : K → Option V) p => update g p.1 (some p.2)) d.get? := by
  induction ps generalizing d with
  | nil => rfl
  | cons p ps ih => rw [foldl_cons, ih, foldl_cons, get?_set_update]

/-- `update`: the entries of the other dictionary win. -/
theorem get?_foldl_set_items (d e : Dict K V) (k : K) :
    (e.items.foldl (fun d p => d.set p.1 p.2) d).get? k = (e.get? k).or (d.get? k) := by
  have hlist : ∀ (ps : List (K × V)) (d : Dict K V), (ps.map Prod.fst).Nodup →
      (ps.foldl (fun d p => d.set p.1 p.2) d).get? k
        = ((ps.find? fun p => p.1 = k).map Prod.snd).or (d.get? k) := by
    intro ps
    induction ps with
    | nil => intro d _; rfl
    | cons p ps ih =>
      intro d hnd
      obtain ⟨hnot, hnd⟩ := nodup_cons.mp hnd
      rw [foldl_cons, ih _ hnd, get?_set]
      by_cases hk : p.1 = k
      · -- the key does not occur again
        have hnone : (ps.find? fun q => q.1 = k) = none := by
          refine List.find?_eq_none.mpr fun q hq hqk => hnot ?_
          rw [hk, ← of_decide_eq_true hqk]
          exact mem_map_of_mem hq
        rw [hnone, List.find?_cons_of_pos (by simpa using hk), if_pos hk.symm]
        rfl
      · rw [List.find?_cons_of_neg (by simpa using hk), if_neg (Ne.symm hk)]
  exact hlist e.items d e.nodup

theorem items_foldl_set (ps : List (K × V)) (d : Dict K V) (hnd : (ps.map Prod.fst).Nodup)
    (hnew : (∀ k ∈ ps.map Prod.fst, k ∉ d.keys)) :
    (ps.foldl (fun d p => d.set p.1 p.2) d).items = d.items ++ ps := by
  induction ps generalizing d with
  | nil => simp
  | cons p ps ih =>
    rw [map_cons, nodup_cons] at hnd
    have hp : p.1 ∉ d.keys := hnew p.1 (by simp)
    rw [foldl_cons, ih (d.set p.1 p.2) hnd.2 fun k hk => ?_, set_of_not_mem hp,
      append_assoc, singleton_append]
    rw [mem_keys_set, not_or]
    exact ⟨fun heq => hnd.1 (heq ▸ hk), hnew k (mem_cons_of_mem _ hk)⟩

end Dict

/-! ### The order of last uses -/

/-- The keys are in the order of their last uses, oldest first. The latest use stands first in
`uses`. -/
def ByRecency (uses keys : List K) : Prop :=
  keys.Pairwise fun a b => uses.idxOf b < uses.idxOf a

theorem byRecency_nil (uses : List K) : ByRecency uses [] := List.Pairwise.nil

theorem ByRecency.sublist {uses keys keys' : List K} (h : ByRecency uses keys)
    (hsub : keys'.Sublist keys) : ByRecency uses keys' := List.Pairwise.sublist hsub h

/-- **A key that is used goes to the end.** -/
theorem ByRecency.use {uses keys : List K} {k : K} (h : ByRecency uses keys) (hk : k ∉ keys) :
    ByRecency (k :: uses) (keys ++ [k]) := by
  have hcons : ∀ a ∈ keys, (k :: uses).idxOf a = uses.idxOf a + 1 := by
    intro a ha
    have hne : k ≠ a := fun heq => hk (heq ▸ ha)
    rw [List.idxOf_cons_ne uses hne]
  refine List.pairwise_append.mpr ⟨h.imp_of_mem fun {a b} ha hb hab => ?_,
    List.pairwise_singleton _ k, fun a ha b hb => ?_⟩
  · rw [hcons a ha, hcons b hb]
    omega
  · obtain rfl := List.mem_singleton.mp hb
    rw [hcons a ha, List.idxOf_cons_self]
    omega

theorem ByRecency.use_absent {uses keys : List K} {k : K} (h : ByRecency uses keys)
    (hk : k ∉ keys) : ByRecency (k :: uses) keys :=
  (h.use hk).sublist (List.sublist_append_left keys [k])

theorem ByRecency.append {new uses keys : List K} (h : ByRecency uses keys) (hnd : new.Nodup)
    (hnew : (∀ k ∈ new, k ∉ keys)) : ByRecency (new.reverse ++ uses) (keys ++ new) := by
  induction new generalizing uses keys with
  | nil => simpa using h
  | cons k new ih =>
    rw [List.nodup_cons] at hnd
    have hk := h.use (hnew k (by simp))
    have hrest := ih hk hnd.2 fun k' hk' => by
      rw [List.mem_append, List.mem_singleton, not_or]
      exact ⟨hnew k' (List.mem_cons_of_mem _ hk'), fun heq => hnd.1 (heq ▸ hk')⟩
    simpa using hrest
