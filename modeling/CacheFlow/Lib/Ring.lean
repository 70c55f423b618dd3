import Mathlib.Data.List.Basic
import Mathlib.Data.Nat.ModEq

/-!
# Ring buffers that grow

A queue in a buffer of fixed size: the items lie in a row that starts at the head and wraps
around at the end. When the buffer is full, the items move to the start of one that is
larger. What a slot outside of the row holds does not matter.

## Main results

* `Ring.toList_push`, `Ring.pop?_eq_none_iff`, `Ring.toList_eq_of_pop?` — the ring is a queue.
-/

namespace CacheFlow

open List

/-- A queue in a buffer. -/
structure Ring (α : Type) where
  buf : ℕ → α
  cap : ℕ
  head : ℕ
  len : ℕ
  len_le : len ≤ cap
  /-- The head is a slot, if there are any. -/
  head_lt : cap = 0 ∨ head < cap

namespace Ring

variable {α : Type}

/-- A ring without a buffer. -/
def empty [Inhabited α] : Ring α := ⟨fun _ => default, 0, 0, 0, le_rfl, Or.inl rfl⟩

section

variable (r : Ring α)

/-- The items, the first one first. -/
def toList : List α := (List.range r.len).map fun i => r.buf ((r.head + i) % r.cap)

@[simp] theorem length_toList : r.toList.length = r.len := by
  rw [toList, length_map, length_range]

/-- The items in a larger buffer, from its start on. -/
def grow (cap : ℕ) (h : r.cap < cap) : Ring α where
  buf := fun i => r.buf ((r.head + i) % r.cap)
  cap := cap
  head := 0
  len := r.len
  len_le := r.len_le.trans h.le
  head_lt := Or.inr (Nat.zero_lt_of_lt h)

/-- Put an item into the slot after the last one. -/
def store (a : α) (h : r.len < r.cap) : Ring α where
  buf := fun i => if i = (r.head + r.len) % r.cap then a else r.buf i
  cap := r.cap
  head := r.head
  len := r.len + 1
  len_le := h
  head_lt := r.head_lt

theorem len_grow_lt (cap : ℕ) (h : r.cap < cap) : (r.grow cap h).len < (r.grow cap h).cap :=
  Nat.lt_of_le_of_lt r.len_le h

/-- Append an item; a full buffer grows to `cap` slots first. -/
def push (a : α) (cap : ℕ) (hcap : r.cap < cap) : Ring α :=
  if h : r.len = r.cap then (r.grow cap hcap).store a (r.len_grow_lt cap hcap)
  else r.store a (lt_of_le_of_ne r.len_le h)

/-- Take the first item. -/
def pop? : Option (α × Ring α) :=
  if h : r.len = 0 then none
  else some (r.buf r.head,
    { r with
      head := (r.head + 1) % r.cap
      len := r.len - 1
      len_le := (Nat.sub_le _ _).trans r.len_le
      head_lt := Or.inr (Nat.mod_lt _ (by have := r.len_le; omega)) })

theorem toList_grow (cap : ℕ) (h : r.cap < cap) : (r.grow cap h).toList = r.toList := by
  refine map_congr_left fun i hi => ?_
  have hlt : i < cap := (mem_range.mp hi).trans_le (r.len_le.trans h.le)
  show r.buf ((r.head + (0 + i) % cap) % r.cap) = _
  rw [Nat.zero_add, Nat.mod_eq_of_lt hlt]

theorem toList_store (a : α) (h : r.len < r.cap) : (r.store a h).toList = r.toList ++ [a] := by
  show (List.range (r.len + 1)).map _ = _
  rw [range_succ, map_append, map_singleton]
  congr 1
  · refine map_congr_left fun i hi => ?_
    have hi' : i < r.len := mem_range.mp hi
    -- distinct items lie in distinct slots
    have hne : (r.head + i) % r.cap ≠ (r.head + r.len) % r.cap := by
      intro heq
      have hmod : i ≡ r.len [MOD r.cap] := Nat.ModEq.add_left_cancel' r.head heq
      exact hi'.ne (Nat.ModEq.eq_of_lt_of_lt hmod (hi'.trans h) h)
    exact if_neg hne
  · exact congrArg (fun x => [x]) (if_pos rfl)

section

variable (a : α) (cap : ℕ) (hcap : r.cap < cap)
include a cap hcap

@[simp] theorem toList_push : (r.push a cap hcap).toList = r.toList ++ [a] := by
  unfold push
  split_ifs with h
  · rw [toList_store, toList_grow]
  · rw [toList_store]

theorem len_push : (r.push a cap hcap).len = r.len + 1 := by
  rw [← length_toList, toList_push, length_append, length_toList, length_singleton]

theorem cap_push : (r.push a cap hcap).cap = if r.len = r.cap then cap else r.cap := by
  unfold push
  split_ifs <;> rfl

end

end

theorem pop?_eq_none_iff {r : Ring α} : r.pop? = none ↔ r.len = 0 := by
  unfold pop?
  split_ifs with h <;> simp [h]

theorem toList_eq_of_pop? {r r' : Ring α} {a : α} (h : r.pop? = some (a, r')) :
    r.toList = a :: r'.toList := by
  unfold pop? at h
  split_ifs at h with hlen
  cases h
  have hcap : 0 < r.cap := (Nat.pos_of_ne_zero hlen).trans_le r.len_le
  have hhead : r.head < r.cap := r.head_lt.resolve_left hcap.ne'
  obtain ⟨n, hn⟩ := Nat.exists_eq_succ_of_ne_zero hlen
  unfold toList
  dsimp only
  rw [hn, Nat.succ_sub_one, range_succ_eq_map, map_cons, map_map, Nat.add_zero,
    Nat.mod_eq_of_lt hhead]
  congr 1
  refine map_congr_left fun i _ => ?_
  show r.buf ((r.head + (i + 1)) % r.cap) = r.buf (((r.head + 1) % r.cap + i) % r.cap)
  rw [Nat.mod_add_mod, Nat.add_comm i 1, Nat.add_assoc]

theorem len_eq_of_pop? {r r' : Ring α} {a : α} (h : r.pop? = some (a, r')) :
    r.len = r'.len + 1 := by
  rw [← length_toList, toList_eq_of_pop? h, length_cons, length_toList]

end Ring

end CacheFlow
