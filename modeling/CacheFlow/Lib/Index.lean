import Mathlib.Algebra.BigOperators.Group.List.Basic
import Mathlib.Algebra.Order.BigOperators.Group.List

/-!
# Row-major indices

A position in an array of a given shape, as a list of coordinates and as one number.
`ravel` and `unravel` translate between the two in row-major order; `pair i n j` is the
position of `(i, j)` in an array whose last dimension is `n`.

## Main results

* `ravel_unravel` — the coordinates of a number in range come back as the number.
* `pair_div`, `pair_mod`, `pair_lt` — taking a pair of coordinates apart.
-/

namespace CacheFlow

/-- The coordinates of a position in an array of the given shape. -/
def unravel : List ℕ → ℕ → List ℕ
  | [], _ => []
  | _ :: ds, f => f / ds.prod :: unravel ds (f % ds.prod)

/-- The position of coordinates in an array of the given shape, if they lie in it. -/
def ravel : List ℕ → List ℕ → Option ℕ
  | [], [] => some 0
  | d :: ds, i :: is => if i < d then (ravel ds is).map fun f => i * ds.prod + f else none
  | [], _ :: _ => none
  | _ :: _, [] => none

theorem ravel_unravel (shape : List ℕ) {f : ℕ} (hf : f < shape.prod) :
    ravel shape (unravel shape f) = some f := by
  induction shape generalizing f with
  | nil =>
    rw [List.prod_nil] at hf
    rw [unravel, ravel]
    congr 1
    omega
  | cons d ds ih =>
    rw [List.prod_cons] at hf
    have hpos : 0 < ds.prod := by
      rcases Nat.eq_zero_or_pos ds.prod with h | h
      · rw [h, Nat.mul_zero] at hf
        exact absurd hf (Nat.not_lt_zero f)
      · exact h
    rw [unravel, ravel, if_pos (Nat.div_lt_of_lt_mul (Nat.mul_comm d _ ▸ hf)),
      ih (Nat.mod_lt f hpos), Option.map_some, Nat.mul_comm, Nat.div_add_mod]

theorem unravel_of_ravel {shape is : List ℕ} {f : ℕ} (h : ravel shape is = some f) :
    unravel shape f = is ∧ f < shape.prod := by
  induction shape generalizing is f with
  | nil =>
    cases is with
    | nil =>
      cases h
      exact ⟨rfl, Nat.one_pos⟩
    | cons i is => cases h
  | cons d ds ih =>
    cases is with
    | nil => cases h
    | cons i is =>
      rw [ravel] at h
      split_ifs at h with hi
      obtain ⟨g, hg, rfl⟩ := Option.map_eq_some_iff.mp h
      obtain ⟨hun, hlt⟩ := ih hg
      rw [unravel, List.prod_cons, Nat.mul_comm i, Nat.mul_add_mod, Nat.mod_eq_of_lt hlt,
        Nat.mul_add_div (Nat.zero_lt_of_lt hlt), Nat.div_eq_of_lt hlt, Nat.add_zero, hun]
      refine ⟨rfl, ?_⟩
      have hle : (i + 1) * ds.prod ≤ d * ds.prod := Nat.mul_le_mul_right _ hi
      rw [Nat.succ_mul, Nat.mul_comm i] at hle
      omega

/-! ### Pairs of coordinates -/

/-- The position of `(i, j)` in rows of length `n`. -/
def pair (i n j : ℕ) : ℕ := i * n + j

theorem pair_mod {i n j : ℕ} (h : j < n) : pair i n j % n = j := by
  rw [pair, Nat.mul_comm, Nat.mul_add_mod, Nat.mod_eq_of_lt h]

theorem pair_div {i n j : ℕ} (h : j < n) : pair i n j / n = i := by
  rw [pair, Nat.mul_comm, Nat.mul_add_div (Nat.zero_lt_of_lt h), Nat.div_eq_of_lt h, Nat.add_zero]

theorem row_end_le {i m : ℕ} (n : ℕ) (hi : i < m) : i * n + n ≤ m * n := by
  rw [← Nat.succ_mul]
  exact Nat.mul_le_mul_right n hi

theorem rows_apart {i k : ℕ} (n : ℕ) (hne : i ≠ k) : i * n + n ≤ k * n ∨ k * n + n ≤ i * n := by
  rcases Nat.lt_or_gt_of_ne hne with hlt | hlt
  · exact Or.inl (row_end_le n hlt)
  · exact Or.inr (row_end_le n hlt)

theorem pair_lt {i m n j : ℕ} (hi : i < m) (hj : j < n) : pair i n j < m * n := by
  have hle : (i + 1) * n ≤ m * n := Nat.mul_le_mul_right n hi
  rw [Nat.succ_mul] at hle
  rw [pair]
  omega

end CacheFlow
