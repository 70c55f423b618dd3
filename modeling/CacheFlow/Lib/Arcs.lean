import Mathlib.Data.Nat.ModEq
import Mathlib.Tactic

/-!
# Segments in a row around a ring

A ring of `D` cells is cut at a multiple of `D`. Segments are laid out on it one after the other,
from a position that only grows, with gaps between them where a segment would have crossed the cut.
Positions count for ever; the cell of a position is its remainder, and a segment is known by an
address with the same remainder.

As long as the row is not longer than the ring, no two segments share a cell.

## Main results

* `Laid.concat` — one more segment at the end.
* `Laid.sub` — a full turn less.
* `Laid.pairwise` — **no two segments share a cell.**
-/

namespace CacheFlow

/-- The segments, given by address and length, lie in a row between the positions `v` and `stop`,
and none of them crosses the cut. -/
def Laid (D stop : ℕ) : ℕ → List (ℕ × ℕ) → Prop
  | v, [] => v ≤ stop
  | v, (a, s) :: l => ∃ w, v ≤ w ∧ w % D = a % D ∧ a % D + s ≤ D ∧ Laid D stop (w + s) l

/-- Two segments do not share a cell. -/
def CellsApart (D : ℕ) (x y : ℕ × ℕ) : Prop :=
  x.1 % D + x.2 ≤ y.1 % D ∨ y.1 % D + y.2 ≤ x.1 % D

namespace Laid

variable {D stop v : ℕ} {l : List (ℕ × ℕ)}

theorem le : ∀ {l : List (ℕ × ℕ)} {v : ℕ}, Laid D stop v l → v ≤ stop := by
  intro l
  induction l with
  | nil => exact fun h => h
  | cons x l ih =>
    rintro v ⟨w, hvw, -, -, h⟩
    have := ih h
    omega

theorem concat {p a s : ℕ} (hp : stop ≤ p) (ha : p % D = a % D) (hs : a % D + s ≤ D) :
    ∀ {l : List (ℕ × ℕ)} {v : ℕ}, Laid D stop v l → Laid D (p + s) v (l ++ [(a, s)]) := by
  intro l
  induction l with
  | nil =>
    intro v h
    exact ⟨p, Nat.le_trans h hp, ha, hs, le_rfl⟩
  | cons x l ih =>
    rintro v ⟨w, hvw, hw, hx, h⟩
    exact ⟨w, hvw, hw, hx, ih h⟩

theorem sub : ∀ {l : List (ℕ × ℕ)} {v : ℕ}, D ≤ v → Laid D stop v l →
    Laid D (stop - D) (v - D) l := by
  intro l
  induction l with
  | nil => exact fun _ h => Nat.sub_le_sub_right h D
  | cons x l ih =>
    rintro v hv ⟨w, hvw, hw, hx, h⟩
    refine ⟨w - D, by omega, ?_, hx, ?_⟩
    · rw [← hw, Nat.mod_eq_sub_mod (hv.trans hvw)]
    · rw [← Nat.sub_add_comm (hv.trans hvw)]
      exact ih (by omega) h

theorem inside : ∀ {l : List (ℕ × ℕ)} {v : ℕ}, Laid D stop v l → ∀ x ∈ l, x.1 % D + x.2 ≤ D := by
  intro l
  induction l with
  | nil => simp
  | cons x l ih =>
    rintro v ⟨w, -, -, hx, h⟩ y hy
    rcases List.mem_cons.mp hy with rfl | hy
    · exact hx
    · exact ih h y hy

theorem sum_le : ∀ {l : List (ℕ × ℕ)} {v : ℕ}, Laid D stop v l →
    v + (l.map Prod.snd).sum ≤ stop := by
  intro l
  induction l with
  | nil => exact fun h => h
  | cons x l ih =>
    rintro v ⟨w, hvw, -, -, h⟩
    have := ih h
    rw [List.map_cons, List.sum_cons]
    omega

/-- What is between a segment and a full turn after it does not share a cell with the segment. -/
theorem apart_of_le {w s w' s' : ℕ} (hle : w + s ≤ w') (hturn : w' + s' ≤ w + D) :
    w % D + s ≤ w' % D ∨ w' % D + s' ≤ w % D := by
  have hw := Nat.div_add_mod w D
  have hw' := Nat.div_add_mod w' D
  rcases Nat.lt_trichotomy (w' / D) (w / D) with hlt | heq | hgt
  · -- it cannot be a turn before
    have := Nat.mul_le_mul_left D (Nat.succ_le_of_lt hlt)
    rw [Nat.mul_succ] at this
    omega
  · rw [heq] at hw'
    omega
  · have := Nat.mul_le_mul_left D (Nat.succ_le_of_lt hgt)
    rw [Nat.mul_succ] at this
    omega

/-- The segments of the row do not share a cell with one before it, as long as the row ends within a
turn. -/
theorem apart {w a s : ℕ} (ha : w % D = a % D) (hturn : stop ≤ w + D) :
    ∀ {l : List (ℕ × ℕ)} {v : ℕ}, w + s ≤ v → Laid D stop v l →
      ∀ y ∈ l, CellsApart D (a, s) y := by
  intro l
  induction l with
  | nil => simp
  | cons x l ih =>
    rintro v hv ⟨w', hvw, hw', -, h⟩ y hy
    rcases List.mem_cons.mp hy with rfl | hy
    · have hend := h.le
      have hcells := apart_of_le (hv.trans hvw) (hend.trans hturn)
      rwa [ha, hw'] at hcells
    · exact ih (by omega) h y hy

/-- **No two segments share a cell**, as long as the row is not longer than the ring. -/
theorem pairwise : ∀ {l : List (ℕ × ℕ)} {v : ℕ}, Laid D stop v l → stop ≤ v + D →
    l.Pairwise (CellsApart D) := by
  intro l
  induction l with
  | nil => exact fun _ _ => List.Pairwise.nil
  | cons x l ih =>
    rintro v ⟨w, hvw, hw, hx, h⟩ hturn
    refine List.Pairwise.cons ?_ (ih h (by omega))
    exact apart hw (by omega) le_rfl h

/-- The position of a segment within a turn is known from its address. -/
theorem eq_of_mod_eq {start w a : ℕ} (hw : w % D = a % D) (hle : start ≤ w) (hlt : w < start + D) :
    w = start + (((a : ℤ) - start) % D).toNat := by
  have hmod : ((a : ℤ) - start) % D = w - start := by
    have hcongr : (a : ℤ) - start ≡ w - start [ZMOD D] :=
      Int.ModEq.sub_right _ (by exact_mod_cast (show a ≡ w [MOD D] from hw.symm))
    rw [hcongr, Int.emod_eq_of_lt (by omega) (by omega)]
  omega

end Laid

end CacheFlow
