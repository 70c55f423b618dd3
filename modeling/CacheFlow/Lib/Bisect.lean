import Mathlib

/-!
# Bisection of a sorted list

`bisectLeft l x` is the leftmost position at which `x` can be inserted in the
sorted list `l`, found by halving the interval. The loop is bounded by the
length of the list, which is more than it needs: every round shrinks the
interval.

## Main results

* `bisectLeft_append` — at the boundary of the elements below `x`, which is all a
  sorted list allows.
-/

/-- The bisection loop on the interval `[lo, hi)`, with a bound on the rounds. -/
def bisectLoop (l : List ℤ) (x : ℤ) : ℕ → ℕ → ℕ → ℕ
  | 0, lo, _ => lo
  | fuel + 1, lo, hi =>
      if lo < hi then
        if l.getD ((lo + hi) / 2) 0 < x then bisectLoop l x fuel ((lo + hi) / 2 + 1) hi
        else bisectLoop l x fuel lo ((lo + hi) / 2)
      else lo

/-- The leftmost position at which `x` can be inserted in a sorted list. -/
def bisectLeft (l : List ℤ) (x : ℤ) : ℕ := bisectLoop l x l.length 0 l.length

/-- The loop finds the boundary `k` between the elements below `x` and the others,
whenever there is one inside the interval. -/
theorem bisectLoop_eq {l : List ℤ} {x : ℤ} {k : ℕ} (hlt : ∀ i, i < k → l.getD i 0 < x)
    (hge : ∀ i, k ≤ i → i < l.length → x ≤ l.getD i 0) (fuel lo hi : ℕ) (hf : hi - lo ≤ fuel)
    (hlo : lo ≤ k) (hhi : k ≤ hi) (hlen : hi ≤ l.length) : bisectLoop l x fuel lo hi = k := by
  induction fuel generalizing lo hi with
  | zero =>
    rw [bisectLoop]
    omega
  | succ fuel ih =>
    rw [bisectLoop]
    split_ifs with hcmp hmid
    · -- the middle element is below `x`, so the boundary is beyond it
      have hk : (lo + hi) / 2 < k := by
        by_contra hcon
        have := hge ((lo + hi) / 2) (by omega) (by omega)
        omega
      exact ih _ _ (by omega) (by omega) hhi hlen
    · have hk : k ≤ (lo + hi) / 2 := by
        by_contra hcon
        exact hmid (hlt _ (by omega))
      exact ih _ _ (by omega) hlo hk (by omega)
    · omega

/-- **Bisection finds the boundary** of a list split into elements below `x` and
elements from `x` on. -/
theorem bisectLeft_append {l r : List ℤ} {x : ℤ} (hl : ∀ y ∈ l, y < x) (hr : ∀ y ∈ r, x ≤ y) :
    bisectLeft (l ++ r) x = l.length := by
  refine bisectLoop_eq (fun i hi => ?_) (fun i hi hlen => ?_) _ _ _ (by omega) (by omega)
    (by simp) le_rfl
  · rw [List.getD_append _ _ _ _ hi, List.getD_eq_getElem _ _ hi]
    exact hl _ (List.getElem_mem hi)
  · rw [List.length_append] at hlen
    rw [List.getD_append_right _ _ _ _ hi, List.getD_eq_getElem _ _ (by omega)]
    exact hr _ (List.getElem_mem _)

example : bisectLeft [1, 3, 4, 8] 4 = 2 := by decide
