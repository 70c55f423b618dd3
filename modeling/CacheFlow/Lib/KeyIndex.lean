import CacheFlow.Lib.Dict

/-!
# Records with a reverse index

Records are kept by their id, and some of them carry a key. A second dictionary leads from a key to
the id of the record that carries it. The two belong together if an entry of the index leads to a
record with that key, and every record with a key is found under it.

## Main results

* `Indexed.insert` — a record without a key comes.
* `Indexed.erase` — a record goes, and its key with it.
* `Indexed.rekey_iff` — when a record may be entered under a key.
-/

namespace CacheFlow

open Dict Option

variable {I K V : Type} [DecidableEq I] [DecidableEq K]

/-- The index leads from the keys to the records that carry them. -/
structure Indexed (key : V → Option K) (records : Dict I V) (index : Dict K I) : Prop where
  /-- An entry leads to a record with its key. -/
  points : ∀ k i, index.get? k = some i → ∃ v, records.get? i = some v ∧ key v = some k
  /-- A record with a key is found under it. -/
  found : ∀ i v k, records.get? i = some v → key v = some k → index.get? k = some i

namespace Indexed

variable {key : V → Option K} {records : Dict I V} {index : Dict K I} {i : I} {v v' : V} {k : K}

theorem empty : Indexed key (∅ : Dict I V) (∅ : Dict K I) where
  points _ _ h := absurd h nofun
  found _ _ _ h := absurd h nofun

theorem indexed_iff : Indexed key records index ↔
    ∀ k i, index.get? k = some i ↔ (records.get? i).bind key = some k := by
  simp only [bind_eq_some_iff]
  constructor
  · refine fun h k i => ⟨h.points k i, ?_⟩
    rintro ⟨v, hv, hk⟩
    exact h.found i v k hv hk
  · exact fun h => ⟨fun k i => (h k i).mp, fun i v k hv hk => (h k i).mpr ⟨v, hv, hk⟩⟩

section

variable (h : Indexed key records index)
include h

theorem congr {records' : Dict I V}
    (hkeys : ∀ j, (records'.get? j).bind key = (records.get? j).bind key) :
    Indexed key records' index := by
  simpa only [indexed_iff, hkeys] using h

/-- A record is changed and keeps its key. -/
theorem set (hv : records.get? i = some v) (hkey : key v' = key v) :
    Indexed key (records.set i v') index := by
  refine h.congr fun j => ?_
  rw [get?_set]
  split_ifs with hj
  · rw [hj, hv]
    exact hkey
  · rfl

theorem insert (hfree : records.get? i = none) (hkey : key v = none) :
    Indexed key (records.set i v) index := by
  refine h.congr fun j => ?_
  rw [get?_set]
  split_ifs with hj
  · rw [hj, hfree]
    exact hkey
  · rfl

theorem erase_of_key_none (hv : records.get? i = some v) (hkey : key v = none) :
    Indexed key (records.erase i) index := by
  refine h.congr fun j => ?_
  rw [get?_erase]
  split_ifs with hj
  · rw [hj, hv]
    exact hkey.symm
  · rfl

theorem erase (hv : records.get? i = some v) (hkey : key v = some k) :
    Indexed key (records.erase i) (index.erase k) := by
  have hi := h.found i v k hv hkey
  rw [indexed_iff] at h ⊢
  intro k' j
  rw [get?_erase, get?_erase]
  split_ifs with hk hj hj
  · simp
  · -- no other record has the key
    rw [← h, hk, hi, some_inj]
    simp [Ne.symm hj]
  · rw [h, hj, hv, bind_some, hkey]
    simp [Ne.symm hk]
  · exact h k' j

/-- **A record is entered under a key.** It must not have had another key, and no other record may
have this one. -/
theorem rekey_iff (hv : records.get? i = some v)
    (hkey : key v' = some k) :
    Indexed key (records.set i v') (index.set k i) ↔
      (key v = none ∨ key v = some k) ∧
        ∀ j w, j ≠ i → records.get? j = some w → key w ≠ some k := by
  constructor
  · intro h'
    constructor
    · cases hold : key v with
      | none => exact Or.inl rfl
      | some k' =>
        -- the entry of the old key is still there, and leads to a record with the new one
        by_contra hne
        have hk : k' ≠ k := fun heq => hne (Or.inr (by rw [heq]))
        have hentry : (index.set k i).get? k' = some i := by
          rw [get?_set_of_ne _ hk]
          exact h.found i v k' hv hold
        obtain ⟨w, hw, hkw⟩ := h'.points k' i hentry
        rw [get?_set_self] at hw
        obtain rfl : v' = w := some_inj.mp hw
        exact hk (some_inj.mp (hkw.symm.trans hkey))
    · intro j w hne hw hkw
      have hentry := h'.found j w k (by rw [get?_set_of_ne _ hne, hw]) hkw
      rw [get?_set_self] at hentry
      exact hne (some_inj.mp hentry).symm
  · rintro ⟨hold, hothers⟩
    rw [indexed_iff] at h ⊢
    intro k' j
    rw [get?_set, get?_set]
    split_ifs with hk hj hj
    · simp [hk, hj, hkey]
    · refine iff_of_false (fun hij => hj (some_inj.mp hij).symm) fun hw => ?_
      obtain ⟨w, hw, hkw⟩ := bind_eq_some_iff.mp hw
      exact hothers j w hj hw (hk ▸ hkw)
    · -- the record is in the index under no other key
      rw [h, hj, hv, bind_some, bind_some, hkey]
      rcases hold with hold | hold <;> simp [hold, Ne.symm hk]
    · exact h k' j

end

end Indexed

end CacheFlow
