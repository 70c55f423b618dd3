import CacheFlow.Server.StoreInv

/-!
# Pins and leases

A lease remembers keys, while the pins are on entries: `lookup` adds a pin to the
READY version of each key, `_unpin` takes one off whichever version it finds first.
Both are described here by what they do to `pinCount p`, the number of pins on the
entries that `p` selects by identity and key. Selecting by key gives the accounting
against the leases' key lists; selecting by identity gives, in `StoreLease`, the
accounting against the entries that a lease was given.

## Main results

* `Store.Inv.sat_unpin`, `Store.Inv.sat_lookup`, `Store.Inv.sat_release`,
  `Store.Inv.sat_expireLeases` — the specifications.
-/

namespace CacheFlow

open List Dict Option Entry

namespace Store

/-! ### Counting pins -/

/-- The pins of the entries that `p` selects by identity and key. -/
def pinCount (p : ℕ → String → Bool) (l : List Entry) : ℕ :=
  (l.map fun e => if p e.uid e.key then e.pins else 0).sum

section Count

variable (p : ℕ → String → Bool)

@[simp] theorem pinCount_nil : pinCount p [] = 0 := rfl

theorem pinCount_cons (e : Entry) (l : List Entry) :
    pinCount p (e :: l) = (if p e.uid e.key then e.pins else 0) + pinCount p l := by
  rw [pinCount, map_cons, sum_cons, pinCount]

theorem pinCount_append (l l' : List Entry) :
    pinCount p (l ++ l') = pinCount p l + pinCount p l' := by
  rw [pinCount, map_append, sum_append, pinCount, pinCount]

theorem pinCount_perm {l l' : List Entry} (h : l.Perm l') : pinCount p l = pinCount p l' :=
  (h.map _).sum_eq

theorem pinCount_pinnedOf (l : List Entry) : pinCount p (pinnedOf l) = pinCount p l := by
  induction l with
  | nil => rfl
  | cons e l ih =>
    rw [pinCount_cons]
    cases Nat.eq_zero_or_pos e.pins with
    | inl h => rw [pinnedOf_cons_unpinned h, ih, h, ite_self, Nat.zero_add]
    | inr h => rw [pinnedOf_cons_pinned h, pinCount_cons, ih]

theorem Kept.pinCount {s s' : Store} (h : Kept s s') :
    pinCount p s'.readable = pinCount p s.readable := by
  rw [← pinCount_pinnedOf, ← pinCount_pinnedOf p s.readable]
  exact pinCount_perm p h.pinned

theorem pinCount_pos {l : List Entry} (h : 0 < pinCount p l) :
    ∃ e ∈ l, p e.uid e.key = true ∧ 0 < e.pins := by
  induction l with
  | nil => exact absurd h (lt_irrefl 0)
  | cons e l ih =>
    rw [pinCount_cons] at h
    by_cases he : p e.uid e.key = true ∧ 0 < e.pins
    · exact ⟨e, mem_cons_self, he⟩
    · have hzero : (if p e.uid e.key then e.pins else 0) = 0 := by
        split_ifs with hp
        · exact Nat.eq_zero_of_not_pos fun hpos => he ⟨hp, hpos⟩
        · rfl
      rw [hzero, Nat.zero_add] at h
      obtain ⟨e', he', hsel⟩ := ih h
      exact ⟨e', mem_cons_of_mem e he', hsel⟩

theorem le_pinCount {l : List Entry} {e : Entry} (he : e ∈ l) (hp : p e.uid e.key = true) :
    e.pins ≤ pinCount p l := by
  obtain ⟨l', hperm⟩ : ∃ l', l.Perm (e :: l') := ⟨l.erase e, perm_cons_erase he⟩
  rw [pinCount_perm p hperm, pinCount_cons, if_pos hp]
  exact Nat.le_add_right _ _

end Count

/-- Selecting by key. -/
def ofKey (k : String) : ℕ → String → Bool := fun _ k' => k' = k

/-- Selecting by identity. -/
def ofUid (u : ℕ) : ℕ → String → Bool := fun u' _ => u' = u

/-! ### Changing the pins of one entry -/

/-- The entry `e` of a list has got `n` pins. -/
def Repinned (l : List Entry) (e : Entry) (n : ℕ) (l' : List Entry) : Prop :=
  ∃ rest, l.Perm (e :: rest) ∧ l'.Perm ({ e with pins := n } :: rest)

variable {e : Entry} {n : ℕ} {l l' : List Entry}

theorem Repinned.cores (h : Repinned l e n l') : (l.map core).Perm (l'.map core) := by
  obtain ⟨rest, h₁, h₂⟩ := h
  exact (h₁.map core).trans (h₂.map core).symm

theorem Repinned.append_right (h : Repinned l e n l')
    (t : List Entry) : Repinned (l ++ t) e n (l' ++ t) := by
  obtain ⟨rest, h₁, h₂⟩ := h
  exact ⟨rest ++ t, h₁.append_right t, h₂.append_right t⟩

theorem Repinned.append_left (h : Repinned l e n l')
    (t : List Entry) : Repinned (t ++ l) e n (t ++ l') := by
  obtain ⟨rest, h₁, h₂⟩ := h
  exact ⟨t ++ rest, (h₁.append_left t).trans perm_middle,
    (h₂.append_left t).trans perm_middle⟩

theorem Repinned.pinCount (h : Repinned l e n l') (p : ℕ → String → Bool) :
    Store.pinCount p l' + (if p e.uid e.key then e.pins else 0) =
      Store.pinCount p l + (if p e.uid e.key then n else 0) := by
  obtain ⟨rest, h₁, h₂⟩ := h
  rw [pinCount_perm p h₁, pinCount_perm p h₂, pinCount_cons, pinCount_cons]
  dsimp only
  omega

theorem repinned_index {s : Store} {k : String} (h : s.index.get? k = some e) (n : ℕ) :
    Repinned s.index.values e n (s.index.set k { e with pins := n }).values :=
  ⟨_, values_perm_of_get? h, values_set_perm s.index k _⟩

theorem Inv.set_pins {s : Store} (h : s.Inv) {k : String} (hget : s.index.get? k = some e) (n : ℕ) :
    ({ s with index := s.index.set k { e with pins := n } } : Store).Inv := by
  have hk : k ∈ s.index.keys := mem_keys_iff.mpr ⟨e, hget⟩
  have hcores := (((repinned_index hget n).append_right s.retired).append_right
    s.writing.values).cores
  refine ⟨(h.owns.perm hcores).congr rfl rfl rfl, fun k' => ?_, fun k' e' he' => ?_,
    fun k' e' he' => ?_, h.writing, h.retired⟩
  · rw [h.lru, mem_keys_set]
    constructor
    · exact Or.inr
    · rintro (rfl | hk')
      · exact hk
      · exact hk'
  · rw [get?_set] at he'
    split_ifs at he' with heq
    · cases he'
      exact (h.key k e hget).trans heq.symm
    · exact h.key k' e' he'
  · rw [get?_set] at he'
    split_ifs at he' with heq
    · cases he'
      exact h.ready k e hget
    · exact h.ready k' e' he'

/-! ### Taking a pin off -/

/-- The retired version of a key that `unpin` takes a pin off. -/
def retiredTarget (s : Store) (k : String) : Option Entry :=
  s.retired.find? fun r => r.key = k ∧ 0 < r.pins

/-- The version of a key that `unpin` takes a pin off. -/
def unpinTarget (s : Store) (k : String) : Option Entry :=
  match s.index.get? k with
  | some e => if 0 < e.pins then some e else s.retiredTarget k
  | none => s.retiredTarget k

/-- One pin fewer on an entry, if there is one. -/
def onePin (p : ℕ → String → Bool) : Option Entry → ℕ
  | none => 0
  | some e => if p e.uid e.key then 1 else 0

/-- What taking a pin off a key does. -/
structure Unpinned (s : Store) (k : String) (s' : Store) : Prop where
  inv : s'.Inv
  leases : s'.leases = s.leases
  leaseIds : s'.leaseIds = s.leaseIds
  writing : s'.writing = s.writing
  cores : ∀ e ∈ s'.readable, e.core ∈ s.readable.map core
  /-- One pin has come off the target. -/
  count : ∀ p, pinCount p s'.readable + onePin p (s.unpinTarget k) = pinCount p s.readable
  other : ∀ k', k' ≠ k → s'.unpinTarget k' = s.unpinTarget k'
  /-- The target of this key stays, while it has a pin left. -/
  again : ∀ e, s.unpinTarget k = some e → 2 ≤ e.pins →
    s'.unpinTarget k = some { e with pins := e.pins - 1 }

/-- The position a search by index finds, as a split of the list. -/
theorem exists_split_of_findIdx? {α : Type} {l : List α} {p : α → Bool} {i : ℕ}
    (h : l.findIdx? p = some i) :
    ∃ pre a post, l = pre ++ a :: post ∧ i = pre.length ∧ p a = true ∧ ∀ b ∈ pre, ¬ p b = true := by
  obtain ⟨hi, hp, hbefore⟩ := List.findIdx?_eq_some_iff_getElem.mp h
  refine ⟨l.take i, l[i], l.drop (i + 1), ?_, ?_, hp, fun b hb => ?_⟩
  · rw [← drop_eq_getElem_cons hi, take_append_drop]
  · rw [length_take, Nat.min_eq_left hi.le]
  · obtain ⟨j, hj, rfl⟩ := mem_take_iff_getElem.mp hb
    exact hbefore j (lt_of_lt_of_le hj (Nat.min_le_left _ _))

theorem Inv.unpinned_index {s : Store} (h : s.Inv) {k : String}
    (hget : s.index.get? k = some e) (hpins : 0 < e.pins) :
    Unpinned s k { s with index := s.index.set k { e with pins := e.pins - 1 } } := by
  have htarget : s.unpinTarget k = some e := by simp [unpinTarget, hget, hpins]
  have hre := (repinned_index hget (e.pins - 1)).append_right s.retired
  refine ⟨h.set_pins hget _, rfl, rfl, rfl, fun e' he' => ?_, fun p => ?_, fun k' hk' => ?_,
    fun e' he' htwo => ?_⟩
  · exact hre.cores.mem_iff.mpr (mem_map_of_mem he')
  · have hcount := hre.pinCount p
    rw [htarget]
    simp only [onePin]
    simp only [readable] at *
    split_ifs at * <;> omega
  · simp only [unpinTarget, retiredTarget, get?_set_of_ne _ hk']
  · rw [htarget, some.injEq] at he'
    subst he'
    simp only [unpinTarget, get?_set_self]
    rw [if_pos (by omega)]

theorem unpinTarget_of_unpinned {s : Store} {k : String}
    (h : ∀ e, s.index.get? k = some e → e.pins = 0) : s.unpinTarget k = s.retiredTarget k := by
  unfold unpinTarget
  cases hget : s.index.get? k with
  | none => rfl
  | some e => simp [h e hget]

theorem find?_skip {k k' : String} (hk : k' ≠ k) {r : Entry} (hr : r.key = k)
    (pre post : List Entry) :
    (pre ++ r :: post).find? (fun r => r.key = k' ∧ 0 < r.pins) =
      (pre ++ post).find? (fun r => r.key = k' ∧ 0 < r.pins) := by
  have hne : ¬ (r.key = k') := fun h => hk (h.symm.trans hr)
  rw [List.find?_append, List.find?_append, List.find?_cons_of_neg (by simp [hne])]

/-- The first pinned version of a key among the retired ones is found. -/
theorem find?_first {k : String} {r : Entry} {pre : List Entry}
    (hpre : ∀ b ∈ pre, ¬ (b.key = k ∧ 0 < b.pins)) (hkey : r.key = k) (hpins : 0 < r.pins)
    (post : List Entry) :
    (pre ++ r :: post).find? (fun r => r.key = k ∧ 0 < r.pins) = some r := by
  have hnone : pre.find? (fun r => r.key = k ∧ 0 < r.pins) = none :=
    List.find?_eq_none.mpr fun b hb => by simpa using hpre b hb
  rw [List.find?_append, hnone, none_or, List.find?_cons_of_pos (by simp [hkey, hpins])]

section Retired

variable {s : Store} {k : String} {pre post : List Entry} {r : Entry}

section

variable (h : s.Inv) (hindex : ∀ e, s.index.get? k = some e → e.pins = 0)
include h hindex

/-- A retired version loses a pin and keeps another. -/
theorem Inv.unpinned_retired
    (hsplit : s.retired = pre ++ r :: post) (hpre : ∀ b ∈ pre, ¬ (b.key = k ∧ 0 < b.pins))
    (hkey : r.key = k) (htwo : 2 ≤ r.pins) :
    Unpinned s k { s with retired := pre ++ { r with pins := r.pins - 1 } :: post } := by
  have htarget : s.unpinTarget k = some r := by
    rw [unpinTarget_of_unpinned hindex, retiredTarget, hsplit]
    exact find?_first hpre hkey (by omega) post
  -- the version found loses one pin, and the order stays
  have hre : Repinned s.retired r (r.pins - 1) (pre ++ { r with pins := r.pins - 1 } :: post) :=
    ⟨pre ++ post, hsplit ▸ perm_middle, perm_middle⟩
  have hread := hre.append_left s.index.values
  refine ⟨{ h with
      owns := (h.owns.perm (hread.append_right s.writing.values).cores).congr rfl rfl rfl,
      retired := fun e he => ?_ }, rfl, rfl, rfl, fun e' he' => ?_, fun p => ?_,
    fun k' hk' => ?_, fun e he _ => ?_⟩
  · rcases mem_append.mp he with he | he
    · exact h.retired e (hsplit ▸ mem_append_left _ he)
    · rcases mem_cons.mp he with rfl | he
      · simp only
        omega
      · exact h.retired e (hsplit ▸ mem_append_right _ (mem_cons_of_mem r he))
  · exact hread.cores.mem_iff.mpr (mem_map_of_mem he')
  · have hcount := hread.pinCount p
    rw [htarget]
    simp only [onePin]
    simp only [readable] at *
    split_ifs at * <;> omega
  · simp only [unpinTarget, retiredTarget, hsplit]
    rw [find?_skip hk' hkey, find?_skip (r := { r with pins := r.pins - 1 }) hk' hkey]
  · rw [htarget, some.injEq] at he
    subst he
    refine (unpinTarget_of_unpinned (s := { s with
      retired := pre ++ { r with pins := r.pins - 1 } :: post }) hindex).trans ?_
    exact find?_first (r := { r with pins := r.pins - 1 }) hpre hkey (show 0 < r.pins - 1 by omega) post

/-- A retired version loses its last pin, and its pages are given back. -/
theorem Inv.sat_free_retired
    (hsplit : s.retired = pre ++ r :: post) (hpre : ∀ b ∈ pre, ¬ (b.key = k ∧ 0 < b.pins))
    (hkey : r.key = k) (hone : r.pins = 1) {l : List Entry} :
    Sat (freeEntry { r with pins := r.pins - 1 }) { s with retired := l } fun _ s' =>
      s'.retired = l ∧ Unpinned s k { s' with retired := pre ++ post } := by
  have htarget : s.unpinTarget k = some r := by
    rw [unpinTarget_of_unpinned hindex, retiredTarget, hsplit]
    exact find?_first hpre hkey (by omega) post
  have hread : s.readable.Perm (r :: (s.index.values ++ (pre ++ post))) := by
    rw [readable, hsplit]
    exact (perm_middle.append_left _).trans perm_middle
  -- its last pin: the version gives its pages back
  have howns : ({ s with retired := l } : Store).Owns
      (({ r with pins := r.pins - 1 } : Entry).core ::
        ((s.index.values ++ (pre ++ post)) ++ s.writing.values).map core) :=
    (h.owns.perm ((hread.append_right s.writing.values).map core)).congr rfl rfl rfl
  refine (sat_freeEntry howns).mono ?_
  rintro _ s' ⟨ho, a, hsame, hs'⟩
  subst hs'
  refine ⟨rfl, { h with owns := ho.congr rfl rfl rfl, retired := fun e he => ?_ }, rfl, rfl, rfl,
    fun e' he' => ?_, fun p => ?_, fun k' hk' => ?_, fun e he htwo => ?_⟩
  · refine h.retired e (hsplit ▸ ?_)
    rcases mem_append.mp he with he | he
    · exact mem_append_left _ he
    · exact mem_append_right _ (mem_cons_of_mem r he)
  · exact (hread.map core).mem_iff.mpr (mem_cons_of_mem _ (mem_map_of_mem he'))
  · rw [htarget, pinCount_perm p hread, pinCount_cons, hone, Nat.add_comm]
    rfl
  · simp only [unpinTarget, retiredTarget, hsplit]
    rw [find?_skip hk' hkey]
  · rw [htarget, some.injEq] at he
    subst he
    omega

/-- **The second half of `unpin`.** -/
theorem Inv.sat_unpinRetired : Sat (unpinRetired k) s fun _ s' => Unpinned s k s' := by
  unfold unpinRetired
  simp only [sat_bind, sat_get]
  cases hfind : s.retired.findIdx? fun r => r.key = k ∧ 0 < r.pins with
  | none =>
    have htarget : s.unpinTarget k = none := by
      rw [unpinTarget_of_unpinned hindex, retiredTarget]
      exact List.find?_eq_none.mpr fun r hr => by simpa using List.findIdx?_eq_none_iff.mp hfind r hr
    simp only [sat_pure]
    refine ⟨h, rfl, rfl, rfl, fun e he => mem_map_of_mem he, fun p => ?_, fun _ _ => rfl,
      fun e he _ => ?_⟩
    · rw [htarget]
      rfl
    · rw [htarget] at he
      cases he
  | some i =>
    obtain ⟨pre, r, post, hsplit, rfl, hr, hbefore⟩ := exists_split_of_findIdx? hfind
    have hpre : ∀ b ∈ pre, ¬ (b.key = k ∧ 0 < b.pins) := fun b hb => by simpa using hbefore b hb
    obtain ⟨hkey, hpos⟩ : r.key = k ∧ 0 < r.pins := by simpa using hr
    have hgetr : s.retired[pre.length]? = some r := by rw [hsplit]; simp
    have hset : s.retired.set pre.length { r with pins := r.pins - 1 } =
        pre ++ { r with pins := r.pins - 1 } :: post := by rw [hsplit]; simp
    simp only [hgetr, sat_bind, sat_set]
    split_ifs with hlast
    · -- the last pin: the version is freed
      simp only [sat_bind, sat_modify]
      refine (h.sat_free_retired hindex hsplit hpre hkey (by omega)).mono ?_
      rintro _ s' ⟨hl, hun⟩
      have herase : s'.retired.eraseIdx pre.length = pre ++ post := by
        rw [hl, hset, eraseIdx_append_of_length_le (Nat.le_refl _), Nat.sub_self]
        rfl
      rwa [herase]
    · rw [sat_pure, hset]
      exact h.unpinned_retired hindex hsplit hpre hkey (by omega)

end

end Retired

/-- **`unpin` takes one pin off its target.** -/
theorem Inv.sat_unpin {s : Store} (h : s.Inv) (k : String) :
    Sat (unpin k) s fun _ s' => Unpinned s k s' := by
  unfold unpin
  simp only [sat_bind, sat_get]
  cases hget : s.index.get? k with
  | none => exact h.sat_unpinRetired fun e he => by rw [hget] at he; cases he
  | some e =>
    dsimp only
    split_ifs with hpins
    · rw [sat_set]
      exact h.unpinned_index hget hpins
    · refine h.sat_unpinRetired fun e' he' => ?_
      rw [hget, some.injEq] at he'
      subst he'
      omega

/-! ### Looking up -/

theorem exists_of_mem_mapM {α β : Type} {f : α → Option β} : ∀ {l : List α} {bs : List β},
    l.mapM f = some bs → ∀ b ∈ bs, ∃ a ∈ l, f a = some b := by
  intro l
  induction l with
  | nil =>
    intro bs h b hb
    rw [mapM_nil, Option.pure_def, Option.some.injEq] at h
    rw [← h] at hb
    cases hb
  | cons a l ih =>
    intro bs h b hb
    rw [mapM_cons] at h
    obtain ⟨c, hc, h⟩ := bind_eq_some_iff.mp h
    obtain ⟨cs, hcs, h⟩ := bind_eq_some_iff.mp h
    rw [Option.pure_def, Option.some.injEq] at h
    subst h
    rcases mem_cons.mp hb with rfl | hb
    · exact ⟨a, mem_cons_self, hc⟩
    · obtain ⟨a', ha', hf⟩ := ih hcs b hb
      exact ⟨a', mem_cons_of_mem a ha', hf⟩

theorem exists_get?_of_mem_hitRows {s : Store} {ranks : ℤ} : ∀ {keys : List String},
    ∀ row ∈ s.hitRows ranks keys, ∀ e ∈ row, ∃ k, s.index.get? k = some e := by
  intro keys
  induction keys with
  | nil => intro row hrow; cases hrow
  | cons chunk keys ih =>
    intro row hrow e he
    rw [hitRows] at hrow
    cases hhit : s.hitRow ranks chunk with
    | none =>
      rw [hhit] at hrow
      cases hrow
    | some first =>
      rw [hhit] at hrow
      rcases mem_cons.mp hrow with rfl | hrow
      · obtain ⟨r, -, hr⟩ := exists_of_mem_mapM hhit e he
        exact ⟨_, hr⟩
      · exact ih row hrow e he

theorem Inv.get?_of_mem_found {s : Store} (h : s.Inv) {ranks : ℤ} {keys : List String}
    (he : e ∈ (foundRows ranks (s.hitRows ranks keys)).flatten) : s.index.get? e.key = some e := by
  obtain ⟨col, hcol, he⟩ := mem_flatten.mp he
  obtain ⟨r, -, rfl⟩ := mem_map.mp hcol
  obtain ⟨row, hrow, hget⟩ := mem_filterMap.mp he
  obtain ⟨k, hk⟩ := exists_get?_of_mem_hitRows row hrow e (mem_of_getElem? hget)
  rwa [h.key k e hk]

/-- The entries `es` have got a pin more for each time they are listed. -/
structure Pinned (s : Store) (es : List Entry) (s' : Store) : Prop where
  inv : s'.Inv
  leases : s'.leases = s.leases
  leaseIds : s'.leaseIds = s.leaseIds
  writing : s'.writing = s.writing
  cores : (s'.readable.map core).Perm (s.readable.map core)
  /-- The READY entries are the same, up to their pins. -/
  index : ∀ k e, s.index.get? k = some e → ∃ n, s'.index.get? k = some { e with pins := n }
  /-- The new pins are on the entries listed. -/
  count : ∀ p, pinCount p s'.readable =
    pinCount p s.readable + (es.map fun e => if p e.uid e.key then 1 else 0).sum

variable {s' : Store}

theorem Pinned.of_kept {s : Store} (h : s'.Inv) (hs' : ∃ l, s' = { s with lru := l }) :
    Pinned s [] s' := by
  obtain ⟨l, rfl⟩ := hs'
  exact ⟨h, rfl, rfl, rfl, .refl _, fun k e he => ⟨e.pins, he⟩, fun p => rfl⟩

theorem Pinned.trans {s s'' : Store} {es es' : List Entry} (h : Pinned s es s')
    (h' : Pinned s' es' s'') : Pinned s (es ++ es') s'' := by
  refine ⟨h'.inv, h'.leases.trans h.leases, h'.leaseIds.trans h.leaseIds,
    h'.writing.trans h.writing, h'.cores.trans h.cores, fun k e he => ?_, fun p => ?_⟩
  · obtain ⟨n, hn⟩ := h.index k e he
    obtain ⟨n', hn'⟩ := h'.index k _ hn
    exact ⟨n', hn'⟩
  · rw [h'.count, h.count, map_append, sum_append, Nat.add_assoc]

theorem Inv.sat_pinEntry {s : Store} (h : s.Inv)
    (hget : s.index.get? e.key = some { e with pins := n }) :
    Sat (pinEntry e.key) s fun _ s' => Pinned s [e] s' := by
  unfold pinEntry
  simp only [sat_modify, hget]
  have hre := (repinned_index hget (n + 1)).append_right s.retired
  refine ⟨h.set_pins hget (n + 1), rfl, rfl, rfl, hre.cores.symm, fun k e' he' => ?_, fun p => ?_⟩
  · by_cases hk : k = e.key
    · subst hk
      rw [hget, some.injEq] at he'
      subst he'
      exact ⟨n + 1, get?_set_self ..⟩
    · exact ⟨e'.pins, (get?_set_of_ne _ hk _).trans he'⟩
  · have hcount := hre.pinCount p
    simp only [readable, map_cons, map_nil, sum_cons, sum_nil] at *
    split_ifs at * <;> omega

theorem sat_pinEntries (es : List Entry) (s : Store) (h : s.Inv)
    (hes : (∀ e ∈ es, ∃ n, s.index.get? e.key = some { e with pins := n })) :
    Sat (forM (es.map key) pinEntry) s fun _ s' => Pinned s es s' := by
  induction es generalizing s with
  | nil =>
    rw [map_nil, forM_nil, sat_pure]
    exact .of_kept h ⟨s.lru, rfl⟩
  | cons e es ih =>
    obtain ⟨n, hn⟩ := hes e mem_cons_self
    rw [map_cons, forM_cons, sat_bind]
    refine (h.sat_pinEntry hn).mono fun _ s₁ hp => ?_
    -- the entries still to come have kept their places
    have hes' : ∀ e' ∈ es, ∃ n, s₁.index.get? e'.key = some { e' with pins := n } := by
      intro e' he'
      obtain ⟨m, hm⟩ := hes e' (mem_cons_of_mem e he')
      obtain ⟨m', hm'⟩ := hp.index _ _ hm
      exact ⟨m', hm'⟩
    exact (ih s₁ hp.inv hes').mono fun _ s' hp' => hp.trans hp'

theorem Inv.sat_moveAll {s : Store} (h : s.Inv) (ks : List String) (hks : ∀ k ∈ ks, k ∈ s.index.keys) :
    Sat (forM ks moveToEnd) s fun _ s' => Kept s s' ∧ ∃ l, s' = { s with lru := l } := by
  refine sat_forM (I := fun s' => Kept s s' ∧ ∃ l, s' = { s with lru := l }) ks s
    (fun k hk s₁ ⟨hkept, l, hs₁⟩ => ?_) ⟨h.kept, s.lru, rfl⟩
  have hmem : k ∈ s₁.lru.keys := (hkept.inv.lru k).mpr (by rw [hs₁]; exact hks k hk)
  refine (hkept.inv.sat_moveToEnd hmem).mono ?_
  rintro _ s₂ ⟨hkept', l', hs₂⟩
  exact ⟨hkept.trans hkept', l', by rw [hs₂, hs₁]⟩

/-- What a lookup answers and does. -/
structure LookedUp (s : Store) (ranks : ℤ) (keys : List String) (pin : Bool) (r : LookupReply)
    (s' : Store) : Prop where
  found : r.found = foundRows ranks (s.hitRows ranks keys)
  hits : r.hits = (s.hitRows ranks keys).length
  ready : ∀ e ∈ r.found.flatten, s.index.get? e.key = some e
  lease : r.lease.isSome ↔ pin = true ∧ r.hits ≠ 0
  kept : r.lease = none → Kept s s' ∧ s'.writing = s.writing
  /-- With a lease, its entries are pinned and it is active under a new number. -/
  pinned : ∀ l, r.lease = some l → l.leaseId = s.leaseIds ∧ l.keys = r.found.flatten.map key ∧
    ∃ s₁, Pinned s r.found.flatten s₁ ∧
      s' = { s₁ with leaseIds := s.leaseIds + 1, leases := s.leases.set l.leaseId l }

/-- **The specification of `lookup`.** -/
theorem Inv.sat_lookup {s : Store} (h : s.Inv) (keys : List String) (ranks : ℤ) (pin : Bool)
    (leaseMs : ℤ) (owner : String) (now : ℚ) :
    Sat (lookup keys ranks pin leaseMs owner now) s (LookedUp s ranks keys pin) := by
  unfold lookup
  simp only [sat_bind, sat_get]
  have hfound : ∀ e ∈ (foundRows ranks (s.hitRows ranks keys)).flatten,
      s.index.get? e.key = some e := fun e he => h.get?_of_mem_found he
  set found := foundRows ranks (s.hitRows ranks keys) with hdef
  have hmem : ∀ k ∈ found.flatten.map Entry.key, k ∈ s.index.keys := by
    intro k hk
    obtain ⟨e, he, rfl⟩ := mem_map.mp hk
    exact mem_keys_iff.mpr ⟨e, hfound e he⟩
  refine (h.sat_moveAll _ hmem).mono ?_
  rintro _ s₁ ⟨hkept, l, hs₁⟩
  split_ifs with hpin
  · -- a lease is made for what was found
    simp only [sat_bind, sat_get, sat_set, sat_pure]
    have hfound₁ : ∀ e ∈ found.flatten, ∃ n, s₁.index.get? e.key = some { e with pins := n } :=
      fun e he => ⟨e.pins, by rw [hs₁]; exact hfound e he⟩
    refine (sat_pinEntries found.flatten s₁ hkept.inv hfound₁).mono fun _ s₂ hp => ?_
    have hp' : Pinned s found.flatten s₂ := (Pinned.of_kept hkept.inv ⟨l, hs₁⟩).trans hp
    refine ⟨hdef, rfl, hfound, by simpa using hpin, (fun hnone => by cases hnone), fun l hl => ?_⟩
    rw [some.injEq] at hl
    subst hl
    refine ⟨hp'.leaseIds, rfl, s₂, hp', ?_⟩
    rw [hp'.leaseIds, hp'.leases]
  · rw [sat_pure]
    refine ⟨hdef, rfl, hfound, ?_, fun _ => ⟨hkept, by rw [hs₁]⟩, (fun l hl => by cases hl)⟩
    simpa using hpin

/-! ### Ending leases -/

/-- A pin has been taken off each of the keys, in order. -/
inductive UnpinnedAll : Store → List String → Store → Prop
  | nil {s : Store} : UnpinnedAll s [] s
  | cons {s s₁ s' : Store} {k : String} {ks : List String} :
      Unpinned s k s₁ → UnpinnedAll s₁ ks s' → UnpinnedAll s (k :: ks) s'

theorem sat_unpinAll (ks : List String) (s : Store) (h : s.Inv) :
    Sat (forM ks unpin) s fun _ s' => UnpinnedAll s ks s' := by
  induction ks generalizing s with
  | nil =>
    rw [forM_nil, sat_pure]
    exact .nil
  | cons k ks ih =>
    rw [forM_cons, sat_bind]
    refine (h.sat_unpin k).mono fun _ s₁ hk => ?_
    exact (ih s₁ hk.inv).mono fun _ s' hks => .cons hk hks

theorem UnpinnedAll.frame {s : Store} {ks : List String} (h : UnpinnedAll s ks s') (hs : s.Inv) :
    s'.Inv ∧ s'.leases = s.leases ∧ s'.leaseIds = s.leaseIds ∧ s'.writing = s.writing ∧
      ∀ e ∈ s'.readable, e.core ∈ s.readable.map core := by
  induction h with
  | nil => exact ⟨hs, rfl, rfl, rfl, fun e he => mem_map_of_mem he⟩
  | cons hk _ ih =>
    obtain ⟨hinv, hl, hids, hw, hcores⟩ := ih hk.inv
    refine ⟨hinv, hl.trans hk.leases, hids.trans hk.leaseIds, hw.trans hk.writing, fun e he => ?_⟩
    obtain ⟨e₁, he₁, hcore⟩ := mem_map.mp (hcores e he)
    rw [← hcore]
    exact hk.cores e₁ he₁

/-- The target of a key is a pinned version of it. -/
theorem Inv.of_unpinTarget {s : Store} (h : s.Inv) {k : String}
    (he : s.unpinTarget k = some e) : e ∈ s.readable ∧ e.key = k ∧ 0 < e.pins := by
  have hretired : s.retiredTarget k = some e → e ∈ s.readable ∧ e.key = k ∧ 0 < e.pins := by
    intro hr
    have hmem := mem_of_find?_eq_some hr
    have hprop := List.find?_some hr
    exact ⟨mem_append_right _ hmem, by simpa using hprop⟩
  unfold unpinTarget at he
  cases hget : s.index.get? k with
  | none =>
    rw [hget] at he
    exact hretired he
  | some e' =>
    rw [hget] at he
    dsimp only at he
    split_ifs at he with hpins
    · rw [some.injEq] at he
      subst he
      exact ⟨mem_append_left _ (mem_values_iff.mpr ⟨k, hget⟩), h.key k e' hget, hpins⟩
    · exact hretired he

theorem Inv.unpinTarget_isSome {s : Store} (h : s.Inv) {k : String}
    (he : e ∈ s.readable) (hkey : e.key = k) (hpins : 0 < e.pins) : ∃ t, s.unpinTarget k = some t := by
  by_cases hready : ∃ e', s.index.get? k = some e' ∧ 0 < e'.pins
  · obtain ⟨e', hget, hpins'⟩ := hready
    exact ⟨e', by simp [unpinTarget, hget, hpins']⟩
  · have hindex : ∀ e', s.index.get? k = some e' → e'.pins = 0 := fun e' he' =>
      Nat.eq_zero_of_not_pos fun hpos => hready ⟨e', he', hpos⟩
    rw [unpinTarget_of_unpinned hindex]
    rcases mem_append.mp he with he | he
    · -- a READY version is the one in the index
      obtain ⟨k', hk'⟩ := mem_values_iff.mp he
      rw [← h.key k' e hk', hkey] at hk'
      exact absurd (hindex e hk') hpins.ne'
    · cases hfind : s.retiredTarget k with
      | some t => exact ⟨t, rfl⟩
      | none =>
        have hno : e.key = k → e.pins = 0 := by simpa using List.find?_eq_none.mp hfind e he
        exact absurd (hno hkey) hpins.ne'

/-- While a key has a pin, taking one off lowers its count and no other. -/
theorem Unpinned.count_key {s : Store} {k : String} (h : Unpinned s k s') (hs : s.Inv)
    (hpos : 0 < pinCount (ofKey k) s.readable) (k' : String) :
    pinCount (ofKey k') s'.readable + (if k = k' then 1 else 0) = pinCount (ofKey k') s.readable := by
  obtain ⟨e, he, hsel, hpins⟩ := pinCount_pos _ hpos
  obtain ⟨t, ht⟩ := hs.unpinTarget_isSome he (by simpa [ofKey] using hsel) hpins
  obtain ⟨-, htkey, -⟩ := hs.of_unpinTarget ht
  have hcount := h.count (ofKey k')
  rw [ht] at hcount
  simpa [onePin, ofKey, htkey] using hcount

/-- **By key, each of the keys loses a pin for every time it is listed.** -/
theorem UnpinnedAll.count_key {s : Store} {ks : List String} (h : UnpinnedAll s ks s')
    (hs : s.Inv) (hpins : ∀ k, ks.count k ≤ pinCount (ofKey k) s.readable) (k : String) :
    pinCount (ofKey k) s'.readable + ks.count k = pinCount (ofKey k) s.readable := by
  induction h with
  | nil => simp
  | @cons s s₁ s' k₀ ks hk _ ih =>
    have hpos : 0 < pinCount (ofKey k₀) s.readable := by
      have := hpins k₀
      rw [count_cons_self] at this
      omega
    have hone := hk.count_key hs hpos
    have hrest : ∀ k, ks.count k ≤ pinCount (ofKey k) s₁.readable := by
      intro k
      have h₁ := hpins k
      have h₂ := hone k
      rw [count_cons] at h₁
      simp only [beq_iff_eq] at h₁
      omega
    have h₁ := ih hk.inv hrest
    have h₂ := hone k
    rw [count_cons]
    simp only [beq_iff_eq]
    omega

/-- The leases of a list have been ended, in order, where they were active. -/
inductive Ended : Store → List ℤ → Store → Prop
  | nil {s : Store} : Ended s [] s
  /-- A lease that is not active. -/
  | skip {s s' : Store} {lid : ℤ} {ls : List ℤ} :
      s.leases.get? lid = none → Ended s ls s' → Ended s (lid :: ls) s'
  /-- An active lease is forgotten and its keys are unpinned. -/
  | cons {s s₁ s' : Store} {lid : ℤ} {ls : List ℤ} {l : Lease} : s.leases.get? lid = some l →
      UnpinnedAll { s with leases := s.leases.erase lid } l.keys s₁ → Ended s₁ ls s' →
      Ended s (lid :: ls) s'

theorem Inv.set_leases {s : Store} (h : s.Inv) (d : Dict ℤ Lease) (n : ℤ) :
    ({ s with leases := d, leaseIds := n } : Store).Inv :=
  { h with owns := h.owns.congr rfl rfl rfl }

/-- **The specification of `release`.** -/
theorem Inv.sat_release {s : Store} (h : s.Inv) (lid : ℤ) :
    Sat (release lid) s fun b s' => Ended s [lid] s' ∧ b = (s.leases.get? lid).isSome := by
  unfold release
  simp only [sat_bind, sat_get]
  cases hget : s.leases.get? lid with
  | none =>
    simp only [sat_pure]
    exact ⟨.skip hget .nil, rfl⟩
  | some l =>
    simp only [sat_bind, sat_set, sat_pure]
    exact (sat_unpinAll l.keys _ (h.set_leases _ s.leaseIds)).mono fun _ s' hun =>
      ⟨.cons hget hun .nil, rfl⟩

theorem Ended.inv {s : Store} {ls : List ℤ} (h : Ended s ls s') (hs : s.Inv) : s'.Inv := by
  induction h with
  | nil => exact hs
  | skip _ _ ih => exact ih hs
  | cons _ hun _ ih => exact ih (hun.frame (hs.set_leases _ _)).1

theorem Ended.writing {s : Store} {ls : List ℤ} (h : Ended s ls s') (hs : s.Inv) :
    s'.writing = s.writing := by
  induction h with
  | nil => rfl
  | skip _ _ ih => exact ih hs
  | cons _ hun _ ih =>
    obtain ⟨hinv, -, -, hw, -⟩ := hun.frame (hs.set_leases _ _)
    exact (ih hinv).trans hw

theorem Ended.append {s s₁ : Store} {ls ls' : List ℤ} (h : Ended s ls s₁) (h' : Ended s₁ ls' s') :
    Ended s (ls ++ ls') s' := by
  induction h with
  | nil => exact h'
  | skip hget _ ih => exact .skip hget (ih h')
  | cons hget hun _ ih => exact .cons hget hun (ih h')

theorem sat_releaseAll (ls : List ℤ) (s : Store) (h : s.Inv) :
    Sat (forM ls fun lid => do let _ ← release lid) s fun _ s' => Ended s ls s' := by
  induction ls generalizing s with
  | nil =>
    rw [forM_nil, sat_pure]
    exact .nil
  | cons lid ls ih =>
    rw [forM_cons, sat_bind, sat_bind]
    refine (h.sat_release lid).mono ?_
    rintro _ s₁ ⟨hend, _⟩
    rw [sat_pure]
    exact (ih s₁ (hend.inv h)).mono fun _ s' hrest => hend.append hrest

/-- **The specification of `expireLeases`.** -/
theorem Inv.sat_expireLeases {s : Store} (h : s.Inv) (now : ℚ) :
    Sat (expireLeases now) s fun n s' => Ended s (s.deadLeases now) s' ∧
      n = (s.deadLeases now).length := by
  unfold expireLeases
  simp only [sat_bind, sat_get, sat_pure]
  exact (sat_releaseAll _ s h).mono fun _ s' hend => ⟨hend, trivial⟩

end Store

end CacheFlow
