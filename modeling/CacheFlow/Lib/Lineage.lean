import Mathlib.Data.List.Basic

/-!
# Queues in which parents come later

Things in a queue have keys, and keys have parents. If for each thing in the queue there is one
with the key of its parent that is not in front of it, then taking things from the front of the
queue takes no key away before those of its children.

## Main results

* `ParentLater.filter`, `ParentLater.drop`, `ParentLater.append` — things leave the queue, are taken
  from its front and lose their keys, or come in at its end.
* `not_mem_of_reverse_filter` — when a list is queued from its end, what was in front comes later.
-/

namespace CacheFlow

open List

variable {κ β : Type}

/-- Whenever a thing in the queue has a key with a parent, some thing with this parent is not in
front of it. -/
def ParentLater (parent : κ → Option κ) (key : β → Option κ) (l : List β) : Prop :=
  ∀ (u : List β) (b : β) (v : List β) (k k' : κ), l = u ++ b :: v → key b = some k →
    parent k = some k' → ∃ b', key b' = some k' ∧ b' ∉ u

variable {parent : κ → Option κ} {key key' : β → Option κ} {l fresh : List β}

theorem parentLater_of_forall_eq_none (h : ∀ b, key b = none) : ParentLater parent key l := by
  intro u b v k k' _ hkey
  rw [h b] at hkey
  cases hkey

theorem ParentLater.congr (h : ParentLater parent key l) (hqueue : ∀ b ∈ l, key' b = key b)
    (hkeeps : ∀ b k, key b = some k → key' b = some k) : ParentLater parent key' l := by
  intro u b v k k' hl hkey hparent
  have hb : b ∈ l := by simp [hl]
  obtain ⟨b', hb', hu⟩ := h u b v k k' hl ((hqueue b hb).symm.trans hkey) hparent
  exact ⟨b', hkeeps b' k' hb', hu⟩

theorem ParentLater.filter (h : ParentLater parent key l) (q : β → Bool) :
    ParentLater parent key (l.filter q) := by
  intro u b v k k' hl hkey hparent
  obtain ⟨u', w, rfl, rfl, hw⟩ := filter_eq_append_iff.mp hl
  obtain ⟨x, y, rfl, hx, -, -⟩ := filter_eq_cons_iff.mp hw
  obtain ⟨b', hb', hu⟩ := h (u' ++ x) b y k k' (by simp) hkey hparent
  refine ⟨b', hb', fun hmem => hu ?_⟩
  exact mem_append_left x (mem_of_mem_filter hmem)

theorem ParentLater.drop [DecidableEq β] (h : ParentLater parent key l) (n : ℕ)
    (hkey' : ∀ b, key' b = if b ∈ l.take n then none else key b) :
    ParentLater parent key' (l.drop n) := by
  intro u b v k k' hl hkey hparent
  rw [hkey'] at hkey
  split_ifs at hkey
  have hsplit : l = (l.take n ++ u) ++ b :: v := by
    rw [append_assoc, ← hl, take_append_drop]
  obtain ⟨b', hb', hu⟩ := h _ b v k k' hsplit hkey hparent
  rw [mem_append, not_or] at hu
  exact ⟨b', by rw [hkey', if_neg hu.1, hb'], hu.2⟩

/-- Things may come in at the end, if their parents are not in front of them. -/
theorem ParentLater.append (h : ParentLater parent key l)
    (hfresh : ∀ u b v k k', fresh = u ++ b :: v → key b = some k → parent k = some k' →
      ∃ b', key b' = some k' ∧ b' ∉ l ∧ b' ∉ u) : ParentLater parent key (l ++ fresh) := by
  intro u b v k k' hl hkey hparent
  rcases append_eq_append_iff.mp hl with ⟨w, rfl, hw⟩ | ⟨w, rfl, hw⟩
  · obtain ⟨b', hb', hl', hu⟩ := hfresh w b v k k' hw hkey hparent
    exact ⟨b', hb', fun hmem => (mem_append.mp hmem).elim hl' hu⟩
  · cases w with
    | nil =>
      obtain ⟨b', hb', hl', -⟩ := hfresh [] b v k k' hw.symm hkey hparent
      exact ⟨b', hb', by simpa using hl'⟩
    | cons c w =>
      obtain ⟨rfl, -⟩ := List.cons.inj hw
      exact h u b w k k' rfl hkey hparent

/-- What is in front in a list comes later when the list is queued from its end. -/
theorem not_mem_of_reverse_filter [DecidableEq β] {bs u v : List β} {b b' : β} {i j : ℕ}
    {q : β → Bool} (hb : bs.count b ≤ 1) (hb' : bs.count b' ≤ 1)
    (hsplit : bs.reverse.filter q = u ++ b :: v) (hi : bs[i]? = some b) (hj : bs[j]? = some b')
    (hij : j < i) : b' ∉ u := by
  have hlt := (List.getElem?_eq_some_iff.mp hi).1
  have hbs : bs = bs.take i ++ b :: bs.drop (i + 1) := by
    conv_lhs => rw [← take_append_drop i bs, drop_eq_getElem_cons hlt]
    rw [(List.getElem?_eq_some_iff.mp hi).2]
  have hfront : b' ∈ bs.take i := by
    apply mem_of_getElem?
    rw [List.getElem?_take_of_lt hij, hj]
  rw [hbs, count_append] at hb hb'
  rw [count_cons_self] at hb
  have hpos := count_pos_iff.mpr hfront
  have hq : q b = true := by
    have hmem : b ∈ bs.reverse.filter q := by simp [hsplit]
    exact of_mem_filter hmem
  -- the last blocks of the list are those in front of `b` in the queue
  rw [hbs, reverse_append, reverse_cons, append_assoc, filter_append,
    singleton_append, filter_cons_of_pos hq] at hsplit
  have hback : ∀ c, c ∉ bs.drop (i + 1) → c ∉ (bs.drop (i + 1)).reverse.filter q := by
    intro c hc hmem
    exact hc (mem_reverse.mp (mem_of_mem_filter hmem))
  have hnot : b ∉ bs.drop (i + 1) := count_eq_zero.mp (by omega)
  have hnot' : b ∉ (bs.take i).reverse.filter q := by
    intro hmem
    have := count_pos_iff.mpr (mem_reverse.mp (mem_of_mem_filter hmem))
    omega
  obtain ⟨rfl, -, -⟩ := (append_cons_inj_of_notMem (hback b hnot) hnot').mp hsplit
  refine hback b' fun hmem => ?_
  have := count_pos_iff.mpr (mem_cons_of_mem b hmem)
  omega

end CacheFlow
