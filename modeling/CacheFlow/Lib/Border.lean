import Mathlib.Order.Bounds.Defs
import Mathlib.Tactic

/-!
# Borders of a word

The beginning of a word may stand again inside the word. The lengths at which it does, in front of
some place, are the borders there; a shorter border is a border of a longer one, so that all of them
are found from the longest by going from border to border.

## Main results

* `Tries.longest_succ`, `Tries.longest_zero`, `Tries.fall` — a match, and the two kinds of mismatch.
-/

namespace CacheFlow

variable {α : Type} {t : ℕ → α} {m v w i : ℕ}

/-- The first `v` letters of the word end again at place `i`, having begun later. -/
def EndsAt (t : ℕ → α) : ℕ → ℕ → Prop
  | 0, _ => True
  | _ + 1, 0 => False
  | v + 1, i + 1 => t v = t (i + 1) ∧ EndsAt t v i

theorem EndsAt.le (h : EndsAt t v i) : v ≤ i := by
  induction v generalizing i with
  | zero => exact Nat.zero_le i
  | succ v ih =>
    cases i with
    | zero => exact h.elim
    | succ i => exact Nat.succ_le_succ (ih h.2)

theorem endsAt_iff : EndsAt t v i ↔ v ≤ i ∧ ∀ j < v, t j = t (i + 1 - v + j) := by
  induction v generalizing i with
  | zero => simp [EndsAt]
  | succ v ih =>
    cases i with
    | zero => simp [EndsAt]
    | succ i =>
      simp only [EndsAt, ih, Nat.forall_lt_succ_right, Nat.add_le_add_iff_right,
        Nat.add_sub_add_right]
      constructor
      · rintro ⟨hlast, hle, hall⟩
        exact ⟨hle, hall, by rw [Nat.sub_add_cancel (by omega)]; exact hlast⟩
      · rintro ⟨hle, hall, hlast⟩
        exact ⟨by rwa [Nat.sub_add_cancel (by omega)] at hlast, hle, hall⟩

/-- **The shorter borders** at a place are those of the longer one. -/
theorem EndsAt.iff_of_lt (h : EndsAt t v i) (hw : w < v) : EndsAt t w i ↔ EndsAt t w (v - 1) := by
  induction w generalizing v i with
  | zero => exact Iff.rfl
  | succ w ih =>
    obtain ⟨v, rfl⟩ : ∃ u, v = u + 2 := ⟨v - 2, by omega⟩
    cases i with
    | zero => exact h.elim
    | succ i =>
      simp only [EndsAt, Nat.add_succ_sub_one, ← h.1]
      rw [ih h.2 (by omega), Nat.add_sub_cancel]

/-- The longest border at a place, of length at most `m`. -/
def Longest (t : ℕ → α) (m i v : ℕ) : Prop := IsGreatest {w | w ≤ m ∧ EndsAt t w i} v

/-- `v` is a border of length below `m` at place `i`, and no longer one goes on to the next place. -/
structure Tries (t : ℕ → α) (m i v : ℕ) : Prop where
  lt : v < m
  ends : EndsAt t v i
  le : ∀ w ≤ m, EndsAt t w (i + 1) → w ≤ v + 1

theorem Tries.longest_succ (h : Tries t m i v) (heq : t v = t (i + 1)) :
    Longest t m (i + 1) (v + 1) := ⟨⟨h.lt, heq, h.ends⟩, fun w hw => h.le w hw.1 hw.2⟩

theorem Tries.longest_zero (h : Tries t m i 0) (hne : t 0 ≠ t (i + 1)) : Longest t m (i + 1) 0 := by
  refine ⟨⟨Nat.zero_le m, trivial⟩, fun w hw => ?_⟩
  cases w with
  | zero => exact le_rfl
  | succ w =>
    have hle := h.le _ hw.1 hw.2
    obtain rfl : w = 0 := by omega
    exact absurd hw.2.1 hne

/-- After a mismatch the longest border of the one tried is tried. -/
theorem Tries.fall (h : Tries t m i v) (hne : t v ≠ t (i + 1)) (hv : 0 < v)
    (hlps : Longest t m (v - 1) w) : Tries t m i w := by
  have hw := hlps.1.2.le
  refine ⟨by have := h.lt; omega, (h.ends.iff_of_lt (by omega)).mpr hlps.1.2, fun u hu hends => ?_⟩
  cases u with
  | zero => exact Nat.zero_le _
  | succ u =>
    have hle := h.le _ hu hends
    have huv : u ≠ v := fun heq => hne (heq ▸ hends.1)
    have hborder := (h.ends.iff_of_lt (by omega : u < v)).mp hends.2
    exact Nat.succ_le_succ (hlps.2 ⟨by omega, hborder⟩)

/-- The longest border is tried at the next place. -/
theorem Longest.tries (h : Longest t m i v) (hv : v < m) : Tries t m i v := by
  refine ⟨hv, h.1.2, fun w hw hends => ?_⟩
  cases w with
  | zero => exact Nat.zero_le _
  | succ w => exact Nat.succ_le_succ (h.2 ⟨by omega, hends.2⟩)

/-- If it is as long as can be, its longest border is. -/
theorem Longest.tries_of_eq (h : Longest t m i m) (hm : 0 < m) (hlps : Longest t m (m - 1) w) :
    Tries t m i w := by
  have hw := hlps.1.2.le
  refine ⟨by omega, (h.1.2.iff_of_lt (by omega)).mpr hlps.1.2, fun u hu hends => ?_⟩
  cases u with
  | zero => exact Nat.zero_le _
  | succ u =>
    have hborder := (h.1.2.iff_of_lt (by omega : u < m)).mp hends.2
    exact Nat.succ_le_succ (hlps.2 ⟨by omega, hborder⟩)

end CacheFlow
