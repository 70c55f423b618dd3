import Mathlib

/-!
# Insertion-ordered dictionaries

A dictionary that remembers the order its keys were first inserted in: a list of
pairs with distinct keys. Assigning to a key that is present keeps its place,
assigning to a new one appends it, and deleting a key closes the gap.

## Main results

* `Dict.get?_set`, `Dict.get?_erase` — how lookup sees the two updates.
* `Dict.values_perm_of_get?`, `Dict.values_set_perm` — the values are the one at
  the key and the rest.
-/

/-- An insertion-ordered dictionary. -/
structure Dict (K V : Type*) where
  /-- The pairs, oldest key first. -/
  items : List (K × V)
  nodup : (items.map Prod.fst).Nodup

namespace Dict

open List

variable {K V : Type*}

variable {d : Dict K V}

@[ext] theorem ext {e : Dict K V} (h : d.items = e.items) : d = e := by
  cases d; cases e; simp_all

/-- The dictionary with no keys. -/
def empty : Dict K V := ⟨[], by simp⟩

instance : EmptyCollection (Dict K V) := ⟨empty⟩

instance : Inhabited (Dict K V) := ⟨empty⟩

@[simp] theorem items_empty : (∅ : Dict K V).items = [] := rfl

instance [DecidableEq K] [DecidableEq V] : DecidableEq (Dict K V) := fun d e =>
  decidable_of_iff (d.items = e.items) ⟨ext, fun h => h ▸ rfl⟩

/-- The keys, oldest first. -/
def keys (d : Dict K V) : List K := d.items.map Prod.fst

/-- The values, in the order of their keys. -/
def values (d : Dict K V) : List V := d.items.map Prod.snd

/-- The dictionary with every value changed in its place. -/
def mapValues {W : Type*} (d : Dict K V) (f : K → V → W) : Dict K W :=
  ⟨d.items.map fun p => (p.1, f p.1 p.2), by
    rw [map_map]
    exact d.nodup⟩

theorem nodup_keys (d : Dict K V) : d.keys.Nodup := d.nodup

theorem nodup_items (d : Dict K V) : d.items.Nodup := List.Nodup.of_map _ d.nodup

@[simp] theorem keys_empty : (∅ : Dict K V).keys = [] := rfl

@[simp] theorem values_empty : (∅ : Dict K V).values = [] := rfl

variable [DecidableEq K]

/-- The value at a key. -/
def get? (d : Dict K V) (k : K) : Option V := (d.items.find? fun p => p.1 = k).map Prod.snd

/-- Whether a key is present. -/
def contains (d : Dict K V) (k : K) : Bool := (d.get? k).isSome

/-- Delete a key; nothing happens if it is absent. -/
def erase (d : Dict K V) (k : K) : Dict K V :=
  ⟨d.items.filter fun p => p.1 ≠ k, d.nodup.sublist (filter_sublist.map _)⟩

theorem map_fst_replace (l : List (K × V)) (k : K) (v : V) :
    (l.map fun p => if p.1 = k then (k, v) else p).map Prod.fst = l.map Prod.fst := by
  rw [map_map]
  refine map_congr_left fun p _ => ?_
  by_cases h : p.1 = k <;> simp [h]

/-- Assign to a key: in place if it is present, at the end otherwise. -/
def set (d : Dict K V) (k : K) (v : V) : Dict K V :=
  if h : k ∈ d.items.map Prod.fst then
    ⟨d.items.map fun p => if p.1 = k then (k, v) else p, by rw [map_fst_replace]; exact d.nodup⟩
  else
    ⟨d.items ++ [(k, v)], by
      rw [map_append, nodup_append]
      refine ⟨d.nodup, by simp, ?_⟩
      intro a ha b hb hab
      rw [map_singleton, mem_singleton] at hb
      rw [hab, hb] at ha
      exact h ha⟩

/-! ### Lookup -/

variable {k : K} {v : V}

theorem mem_items_iff : (k, v) ∈ d.items ↔ d.get? k = some v := by
  obtain ⟨l, hl⟩ := d
  simp only [get?]
  induction l with
  | nil => simp
  | cons p l ih =>
    rw [map_cons, nodup_cons] at hl
    obtain ⟨a, b⟩ := p
    by_cases h : a = k
    · subst h
      have hno : ∀ w, (a, w) ∉ l := fun w hw => hl.1 (mem_map.mpr ⟨_, hw, rfl⟩)
      simp [hno, eq_comm]
    · simp only [mem_cons, Prod.mk.injEq, List.find?_cons, h, decide_false]
      rw [← ih hl.2]
      simp [Ne.symm h]

theorem get?_eq_none_iff : d.get? k = none ↔ k ∉ d.keys := by
  simp only [get?, keys, Option.map_eq_none_iff, List.find?_eq_none, decide_eq_true_eq,
    mem_map, not_exists, not_and]

theorem mem_keys_iff : k ∈ d.keys ↔ ∃ v, d.get? k = some v := by
  rw [← Option.ne_none_iff_exists', Ne, get?_eq_none_iff, not_not]

theorem mem_values_iff : v ∈ d.values ↔ ∃ k, d.get? k = some v := by
  simp only [values, mem_map, Prod.exists, exists_eq_right, mem_items_iff]

@[simp] theorem get?_empty (k : K) : (∅ : Dict K V).get? k = none := rfl

theorem contains_iff : d.contains k = true ↔ ∃ v, d.get? k = some v :=
  Option.isSome_iff_exists

theorem contains_iff_mem_keys : d.contains k = true ↔ k ∈ d.keys := by
  rw [contains_iff, mem_keys_iff]

/-! ### The two updates -/

theorem mem_items_erase {p : K × V} : p ∈ (d.erase k).items ↔ p ∈ d.items ∧ p.1 ≠ k := by
  simp [erase, mem_filter]

theorem get?_erase (d : Dict K V) (k k' : K) :
    (d.erase k).get? k' = if k' = k then none else d.get? k' := by
  refine Option.ext fun v => ?_
  rw [← mem_items_iff, mem_items_erase]
  by_cases h : k' = k
  · simp [h]
  · simp [h, mem_items_iff]

@[simp] theorem get?_erase_self (d : Dict K V) (k : K) : (d.erase k).get? k = none := by
  rw [get?_erase, if_pos rfl]

theorem get?_erase_of_ne (d : Dict K V) {k' : K} (h : k' ≠ k) :
    (d.erase k).get? k' = d.get? k' := by
  rw [get?_erase, if_neg h]

theorem erase_of_get?_eq_none (h : d.get? k = none) : d.erase k = d := by
  refine ext (filter_eq_self.mpr fun p hp => ?_)
  have hk : k ∉ d.keys := get?_eq_none_iff.mp h
  have hne : p.1 ≠ k := fun he => hk (he ▸ mem_map.mpr ⟨p, hp, rfl⟩)
  simp [hne]

theorem keys_erase (d : Dict K V) (k : K) : (d.erase k).keys = d.keys.erase k := by
  rw [d.nodup_keys.erase_eq_filter]
  simp only [keys, erase, filter_map]
  congr 1
  refine filter_congr fun p _ => ?_
  by_cases h : p.1 = k <;> simp [h]

theorem set_of_mem (h : k ∈ d.keys) (v : V) :
    (d.set k v).items = d.items.map fun p => if p.1 = k then (k, v) else p := by
  unfold set
  rw [dif_pos (show k ∈ d.items.map Prod.fst from h)]

theorem set_of_not_mem (h : k ∉ d.keys) (v : V) : (d.set k v).items = d.items ++ [(k, v)] := by
  unfold set
  rw [dif_neg (show k ∉ d.items.map Prod.fst from h)]

theorem keys_set_of_not_mem (h : k ∉ d.keys) (v : V) : (d.set k v).keys = d.keys ++ [k] := by
  rw [keys, set_of_not_mem h, map_append, keys]
  rfl

theorem mem_items_set {p : K × V} :
    p ∈ (d.set k v).items ↔ p = (k, v) ∨ (p ∈ d.items ∧ p.1 ≠ k) := by
  by_cases h : k ∈ d.keys
  · rw [set_of_mem h, mem_map]
    constructor
    · rintro ⟨q, hq, rfl⟩
      by_cases hqk : q.1 = k
      · simp [hqk]
      · simp [hqk, hq]
    · rintro (rfl | ⟨hp, hne⟩)
      · obtain ⟨q, hq, hqk⟩ := mem_map.mp h
        exact ⟨q, hq, by simp [hqk]⟩
      · exact ⟨p, hp, by simp [hne]⟩
  · rw [set_of_not_mem h, mem_append, mem_singleton]
    have hne : p ∈ d.items → p.1 ≠ k := fun hp he => h (he ▸ mem_map.mpr ⟨p, hp, rfl⟩)
    constructor
    · rintro (hp | rfl)
      · exact Or.inr ⟨hp, hne hp⟩
      · exact Or.inl rfl
    · rintro (rfl | ⟨hp, -⟩)
      · exact Or.inr rfl
      · exact Or.inl hp

theorem get?_set (d : Dict K V) (k k' : K) (v : V) :
    (d.set k v).get? k' = if k' = k then some v else d.get? k' := by
  refine Option.ext fun w => ?_
  rw [← mem_items_iff, mem_items_set]
  by_cases h : k' = k
  · simp [h, eq_comm]
  · simp [h, mem_items_iff]

@[simp] theorem get?_set_self (d : Dict K V) (k : K) (v : V) : (d.set k v).get? k = some v := by
  rw [get?_set, if_pos rfl]

theorem get?_set_of_ne (d : Dict K V) {k' : K} (h : k' ≠ k) (v : V) :
    (d.set k v).get? k' = d.get? k' := by
  rw [get?_set, if_neg h]

theorem mem_keys_set {k' : K} : k' ∈ (d.set k v).keys ↔ k' = k ∨ k' ∈ d.keys := by
  rw [mem_keys_iff, get?_set]
  by_cases h : k' = k
  · simp [h]
  · simp [h, mem_keys_iff]

/-! ### Splitting off one pair -/

theorem items_perm_of_get? (h : d.get? k = some v) :
    d.items.Perm ((k, v) :: (d.erase k).items) := by
  refine (perm_ext_iff_of_nodup d.nodup_items ?_).mpr fun p => ?_
  · refine nodup_cons.mpr ⟨fun hmem => ?_, (d.erase k).nodup_items⟩
    exact (mem_items_erase.mp hmem).2 rfl
  · rw [mem_cons, mem_items_erase]
    obtain ⟨a, b⟩ := p
    constructor
    · intro hp
      by_cases hk : a = k
      · subst hk
        have hb : b = v := by simpa [h, eq_comm] using mem_items_iff.mp hp
        exact Or.inl (by rw [hb])
      · exact Or.inr ⟨hp, hk⟩
    · rintro (hp | hp)
      · rw [hp]; exact mem_items_iff.mpr h
      · exact hp.1

theorem erase_set (d : Dict K V) (k : K) (v : V) : (d.set k v).erase k = d.erase k := by
  refine ext ?_
  by_cases hk : k ∈ d.keys
  · simp only [erase, set_of_mem hk]
    rw [filter_map, filter_congr (q := fun p => decide (p.1 ≠ k))]
    · refine (map_congr_left fun p hp => ?_).trans (map_id _)
      have hne : p.1 ≠ k := by simpa using (mem_filter.mp hp).2
      simp [hne]
    · intro p _
      by_cases hp : p.1 = k <;> simp [hp]
  · simp [erase, set_of_not_mem hk]

theorem items_set_perm (d : Dict K V) (k : K) (v : V) :
    (d.set k v).items.Perm ((k, v) :: (d.erase k).items) := by
  have h := items_perm_of_get? (get?_set_self d k v)
  rwa [erase_set] at h

theorem set_of_get? (h : d.get? k = some v) : d.set k v = d := by
  refine ext ?_
  rw [set_of_mem (mem_keys_iff.mpr ⟨v, h⟩)]
  refine (map_congr_left fun p hp => ?_).trans (map_id _)
  split_ifs with hk
  · have hv : d.get? k = some p.2 := mem_items_iff.mp (hk ▸ hp)
    rw [h, Option.some.injEq] at hv
    rw [hv, ← hk]
    rfl
  · rfl

theorem values_perm_of_get? (h : d.get? k = some v) :
    d.values.Perm (v :: (d.erase k).values) := (items_perm_of_get? h).map Prod.snd

theorem values_set_perm (d : Dict K V) (k : K) (v : V) :
    (d.set k v).values.Perm (v :: (d.erase k).values) := (items_set_perm d k v).map Prod.snd

theorem values_set_perm_of_get?_eq_none (h : d.get? k = none) (v : V) :
    (d.set k v).values.Perm (v :: d.values) := by
  have hp := values_set_perm d k v
  rwa [erase_of_get?_eq_none h] at hp

end Dict
