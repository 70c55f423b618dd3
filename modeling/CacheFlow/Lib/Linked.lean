import Mathlib.Data.List.Chain
import Mathlib.Data.List.Nodup
import Mathlib.Logic.Function.Basic

/-!
# Doubly linked lists

Nodes carry a link to the next and to the previous one. A list of nodes is linked when
every two neighbours point at each other. An edit touches the links of few nodes; what it
leaves alone stays linked.

## Main results

* `Links.Linked.join_append` — link the end of one list to the start of another.
* `Links.Linked.unlink` — take a node out.
-/

namespace CacheFlow

open List Function

/-- The links of every node. -/
structure Links (ν : Type) where
  next : ν → Option ν
  prev : ν → Option ν

namespace Links

variable {ν : Type} {q q' : Links ν} {l u v : List ν} {a b p x : ν}

/-- The nodes of a list are linked in its order. -/
def Linked (q : Links ν) (l : List ν) : Prop :=
  l.IsChain fun a b => q.next a = some b ∧ q.prev b = some a

/-- Only the nodes of a list have links. -/
def Within (q : Links ν) (l : List ν) : Prop := ∀ x ∉ l, q.next x = none ∧ q.prev x = none

theorem linked_singleton : q.Linked [a] := isChain_singleton a

theorem linked_cons_cons : q.Linked (a :: b :: l) ↔
    (q.next a = some b ∧ q.prev b = some a) ∧ q.Linked (b :: l) := isChain_cons_cons

theorem linked_append_cons : q.Linked (u ++ a :: v) ↔ q.Linked (u ++ [a]) ∧ q.Linked (a :: v) :=
  isChain_split

/-- A list stays linked when the links along it do not change. -/
theorem Linked.congr (h : q.Linked l) (hnext : ∀ a ∈ l.dropLast, q'.next a = q.next a)
    (hprev : ∀ a ∈ l.tail, q'.prev a = q.prev a) : q'.Linked l := by
  induction l with
  | nil => exact List.IsChain.nil
  | cons a l ih =>
    cases l with
    | nil => exact linked_singleton
    | cons b l =>
      rw [linked_cons_cons] at h ⊢
      obtain ⟨⟨hn, hp⟩, hrest⟩ := h
      refine ⟨⟨?_, ?_⟩, ih hrest (fun c hc => hnext c ?_) fun c hc => hprev c ?_⟩
      · rw [hnext a mem_cons_self, hn]
      · rw [hprev b mem_cons_self, hp]
      · exact mem_cons_of_mem a hc
      · exact mem_cons_of_mem b hc

variable [DecidableEq ν]

/-- Link two nodes. -/
def join (q : Links ν) (a b : ν) : Links ν :=
  ⟨update q.next a (some b), update q.prev b (some a)⟩

/-- Take the links of a node away. -/
def clear (q : Links ν) (a : ν) : Links ν :=
  ⟨update q.next a none, update q.prev a none⟩

theorem join_next_self : (q.join a b).next a = some b := update_self ..

theorem join_prev_self : (q.join a b).prev b = some a := update_self ..

theorem join_next_of_ne (h : x ≠ a) : (q.join a b).next x = q.next x := update_of_ne h ..

theorem join_prev_of_ne (h : x ≠ b) : (q.join a b).prev x = q.prev x := update_of_ne h ..

theorem clear_next_of_ne (h : x ≠ a) : (q.clear a).next x = q.next x := update_of_ne h ..

theorem clear_prev_of_ne (h : x ≠ a) : (q.clear a).prev x = q.prev x := update_of_ne h ..

theorem Linked.clear (h : q.Linked l) (hx : x ∉ l) : (q.clear x).Linked l := by
  refine h.congr (fun c hc => clear_next_of_ne ?_) fun c hc => clear_prev_of_ne ?_
  · rintro rfl
    exact hx ((dropLast_sublist l).subset hc)
  · rintro rfl
    exact hx (mem_of_mem_tail hc)

theorem Within.join (h : q.Within l) (ha : a ∈ l) (hb : b ∈ l) : (q.join a b).Within l := by
  intro x hx
  rw [join_next_of_ne (ne_of_mem_of_not_mem ha hx).symm,
    join_prev_of_ne (ne_of_mem_of_not_mem hb hx).symm]
  exact h x hx

theorem Within.clear (h : q.Within l) (hl : ∀ y ∈ l, y = x ∨ y ∈ v) : (q.clear x).Within v := by
  intro y hy
  rcases eq_or_ne y x with rfl | hne
  · exact ⟨update_self .., update_self ..⟩
  · rw [clear_next_of_ne hne, clear_prev_of_ne hne]
    exact h y fun hmem => ((hl y hmem).resolve_left hne |> hy)

/-- **Link two lists** whose nodes are distinct. -/
theorem Linked.join_append (hu : q.Linked (u ++ [p])) (hv : q.Linked (b :: v))
    (hnd : (u ++ p :: b :: v).Nodup) : (q.join p b).Linked (u ++ p :: b :: v) := by
  obtain ⟨hu', hpbv, hdisj⟩ := nodup_append.mp hnd
  obtain ⟨hp, hb⟩ := nodup_cons.mp hpbv
  rw [linked_append_cons, linked_cons_cons]
  refine ⟨hu.congr (fun c hc => join_next_of_ne ?_) fun c hc => join_prev_of_ne ?_,
    ⟨join_next_self, join_prev_self⟩,
    hv.congr (fun c hc => join_next_of_ne ?_) fun c hc => join_prev_of_ne ?_⟩
  · rw [dropLast_concat] at hc
    exact hdisj c hc p mem_cons_self
  · rcases mem_append.mp (mem_of_mem_tail hc) with hc | hc
    · exact hdisj c hc b (mem_cons_of_mem p mem_cons_self)
    · rw [mem_singleton.mp hc]
      exact fun hpb => hp (hpb ▸ mem_cons_self)
  · rintro rfl
    exact hp ((dropLast_sublist (b :: v)).subset hc)
  · rintro rfl
    exact (nodup_cons.mp hb).1 hc

/-- **Take a node out**: link its neighbours and take its links away. -/
theorem Linked.unlink (h : q.Linked (u ++ p :: x :: b :: v))
    (hnd : (u ++ p :: x :: b :: v).Nodup) :
    ((q.join p b).clear x).Linked (u ++ p :: b :: v) := by
  have hsub : List.Sublist (u ++ p :: b :: v) (u ++ p :: x :: b :: v) :=
    ((sublist_cons_self x (b :: v)).cons_cons p).append_left u
  have hx : x ∉ u ++ p :: b :: v := by
    have hmid : (x :: (u ++ p :: b :: v)).Nodup := by
      refine hnd.perm ?_
      rw [append_cons u p (x :: b :: v), append_cons u p (b :: v)]
      exact perm_middle
    exact (nodup_cons.mp hmid).1
  rw [linked_append_cons, linked_cons_cons, linked_cons_cons] at h
  exact (h.1.join_append h.2.2.2 (hnd.sublist hsub)).clear hx

end Links

end CacheFlow
