import Mathlib.Algebra.BigOperators.Intervals
import CacheFlow.Shm.StoreBooks

/-!
# Flag and count of a chunk

For each chunk there are two accounts. The writer's flag grows by one for each touch and by one for
each address that is sent; the request that puts an item does not touch it. The count in the buffer
grows by one for each read, and for each touch of a reader that finds the count at the number of
readers or above. If an address is sent `k` times to `n` readers, `2 * n * k` touches and reads
come in, less the touches that were skipped, and the writer waits for `n * (2 * k - 1)` of them.

Touches are skipped as long as the count is below the number of readers. Until then it has grown by
reads only, and each of these comes after a touch that was skipped. Hence at least `n` touches are
skipped, and the count does not get ahead of the flag. Nothing keeps more than `n` touches from
being skipped.

## Main results

* `Account.of_isFree` — **a chunk that passes the check is not used any more.**
* `Account.isFree_iff` — when one that is not used any more passes it.
-/

namespace CacheFlow.Shm

open List Function

/-! ### The order of touches, reads and counts -/

/-- The operation is a touch of an object. -/
def Op.touches (uid : ℕ) : Op → Bool
  | .touch x => x.uid = uid
  | _ => false

/-- The operation raises the count after an object was read. -/
def Op.counts (uid : ℕ) : Op → Bool
  | .count x => x.uid = uid
  | _ => false

/-- The operation reads an object. -/
def Op.reads (uid : ℕ) : Op → Bool
  | .read x => x.uid = uid
  | _ => false

theorem Op.uid_of_touches {uid : ℕ} {op : Op} (h : op.touches uid = true) :
    op.listing.uid = uid := by
  cases op with
  | touch x => exact of_decide_eq_true h
  | read x => cases h
  | count x => cases h

theorem Op.uid_of_counts {uid : ℕ} {op : Op} (h : op.counts uid = true) : op.listing.uid = uid := by
  cases op with
  | touch x => cases h
  | read x => cases h
  | count x => exact of_decide_eq_true h

/-- There are no more touches and no more reads of an object than counts. -/
def Balanced (l : List Op) : Prop :=
  ∀ uid, l.countP (Op.touches uid) ≤ l.countP (Op.counts uid) ∧
    l.countP (Op.reads uid) ≤ l.countP (Op.counts uid)

/-- However much of the list is done, what remains is balanced. -/
def Ordered : List Op → Prop
  | [] => True
  | op :: l => Balanced (op :: l) ∧ Ordered l

theorem Ordered.balanced {l : List Op} (h : Ordered l) : Balanced l := by
  cases l with
  | nil => exact fun _ => ⟨le_rfl, le_rfl⟩
  | cons op l => exact h.1

theorem Balanced.append {l₁ l₂ : List Op} (h₁ : Balanced l₁) (h₂ : Balanced l₂) :
    Balanced (l₁ ++ l₂) := by
  intro uid
  have h₁ := h₁ uid
  have h₂ := h₂ uid
  simp only [countP_append]
  omega

theorem Ordered.append {l₁ l₂ : List Op} (h₁ : Ordered l₁) (h₂ : Ordered l₂) :
    Ordered (l₁ ++ l₂) := by
  induction l₁ with
  | nil => exact h₂
  | cons op l ih => exact ⟨h₁.1.append h₂.balanced, ih h₁.2⟩

theorem countP_map_touch (xs : List Listing) (uid : ℕ) :
    (xs.map Op.touch).countP (Op.touches uid) = (xs.countP fun x => x.uid = uid) ∧
      (xs.map Op.touch).countP (Op.counts uid) = 0 ∧
      (xs.map Op.touch).countP (Op.reads uid) = 0 := by
  induction xs with
  | nil => exact ⟨rfl, rfl, rfl⟩
  | cons x xs ih =>
    simp only [map_cons, countP_cons, Op.touches, Op.counts, Op.reads, ih]
    simp

theorem countP_gets (xs : List Listing) (uid : ℕ) :
    (xs.flatMap fun x => [Op.read x, Op.count x]).countP (Op.touches uid) = 0 ∧
      (xs.flatMap fun x => [Op.read x, Op.count x]).countP (Op.counts uid)
        = (xs.countP fun x => x.uid = uid) ∧
      (xs.flatMap fun x => [Op.read x, Op.count x]).countP (Op.reads uid)
        = xs.countP fun x => x.uid = uid := by
  induction xs with
  | nil => exact ⟨rfl, rfl, rfl⟩
  | cons x xs ih =>
    simp only [flatMap_cons, cons_append, nil_append, countP_cons, Op.touches,
      Op.counts, Op.reads, ih]
    simp

theorem countP_requestOps (xs : List Listing) (uid : ℕ) :
    (requestOps xs).countP (Op.touches uid) = (xs.countP fun x => x.uid = uid) ∧
      (requestOps xs).countP (Op.counts uid) = xs.countP fun x => x.uid = uid := by
  simp only [requestOps, countP_append, countP_map_touch, countP_gets, Nat.add_zero,
    Nat.zero_add, and_self]

/-- **A reader touches all addresses of a request first, and counts each read after it.** -/
theorem ordered_requestOps (xs : List Listing) : Ordered (requestOps xs) := by
  have hbalanced : ∀ xs : List Listing,
      Balanced (xs.flatMap fun x => [Op.read x, Op.count x]) := by
    intro xs uid
    have hgets := countP_gets xs uid
    omega
  have hgets : ∀ xs : List Listing, Ordered (xs.flatMap fun x => [Op.read x, Op.count x]) := by
    intro xs
    induction xs with
    | nil => trivial
    | cons x xs ih =>
      refine ⟨hbalanced (x :: xs), fun uid => ?_, ih⟩
      have hrest := hbalanced xs uid
      change (Op.count x :: xs.flatMap _).countP _ ≤ (Op.count x :: xs.flatMap _).countP _ ∧
        (Op.count x :: xs.flatMap _).countP _ ≤ (Op.count x :: xs.flatMap _).countP _
      simp only [countP_cons, Op.touches, Op.counts, Op.reads, Bool.false_eq_true, if_false]
      omega
  -- the touches that are left are some of the addresses that are read later
  have htouches : ∀ ys : List Listing, ys.Sublist xs →
      Ordered (ys.map Op.touch ++ xs.flatMap fun x => [Op.read x, Op.count x]) := by
    intro ys
    induction ys with
    | nil => exact fun _ => hgets xs
    | cons y ys ih =>
      intro hsub
      refine ⟨fun uid => ?_, ih ((sublist_cons_self y ys).trans hsub)⟩
      have hle := hsub.countP_le (p := fun x : Listing => decide (x.uid = uid))
      change ((y :: ys).map Op.touch ++ _).countP _ ≤ ((y :: ys).map Op.touch ++ _).countP _ ∧
        ((y :: ys).map Op.touch ++ _).countP _ ≤ ((y :: ys).map Op.touch ++ _).countP _
      simp only [countP_append, countP_gets, countP_map_touch]
      omega
  exact htouches xs (List.Sublist.refl xs)

/-! ### What the readers have left -/

/-- How many operations of a kind the readers have left. -/
def left (n : ℕ) (p : Op → Bool) (reader : ℕ → StoreReader) : ℕ :=
  ∑ r ∈ Finset.range n, (reader r).todo.countP p

section Left

variable {n : ℕ} {p : Op → Bool} {reader : ℕ → StoreReader}

theorem left_update {r : ℕ} (hr : r < n) (x : StoreReader) :
    left n p (update reader r x) + (reader r).todo.countP p
      = left n p reader + x.todo.countP p := by
  have hmem := Finset.mem_range.mpr hr
  have hrest : ∑ i ∈ (Finset.range n).erase r, (update reader r x i).todo.countP p
      = ∑ i ∈ (Finset.range n).erase r, (reader i).todo.countP p := by
    refine Finset.sum_congr rfl fun i hi => ?_
    rw [update_of_ne (Finset.ne_of_mem_erase hi)]
  unfold left
  rw [← Finset.sum_erase_add _ _ hmem, ← Finset.sum_erase_add _ _ hmem, hrest,
    update_self]
  omega

theorem left_advance (p : Op → Bool) {r : ℕ} {op : Op} {todo : List Op} {x : StoreReader}
    (hr : r < n) (htodo : (reader r).todo = op :: todo) (hx : x.todo = todo) :
    left n p reader = left n p (update reader r x) + if p op then 1 else 0 := by
  have hleft : _ = left n p reader + _ := left_update hr x
  rw [htodo, hx, countP_cons] at hleft
  omega

theorem left_append (ops : List Op) :
    left n p (fun r => { reader r with todo := (reader r).todo ++ ops })
      = left n p reader + n * ops.countP p := by
  simp only [left, countP_append, Finset.sum_add_distrib, Finset.sum_const,
    Finset.card_range, smul_eq_mul]

theorem left_eq_zero_iff : left n p reader = 0 ↔ ∀ r < n, ∀ op ∈ (reader r).todo, ¬ p op := by
  simp only [left, Finset.sum_eq_zero_iff, Finset.mem_range, countP_eq_zero]

theorem left_touches_le (h : ∀ r, Ordered (reader r).todo) (uid : ℕ) :
    left n (Op.touches uid) reader ≤ left n (Op.counts uid) reader :=
  Finset.sum_le_sum fun r _ => ((h r).balanced uid).1

theorem left_reads_le (h : ∀ r, Ordered (reader r).todo) (uid : ℕ) :
    left n (Op.reads uid) reader ≤ left n (Op.counts uid) reader :=
  Finset.sum_le_sum fun r _ => ((h r).balanced uid).2

end Left

/-! ### The two accounts -/

/-- Flag and count of a chunk, given how often its address was sent and is about to be sent, how
often its item is still to come in the request the writer is at, how many touches were skipped, and
how many counts and touches the readers have left. -/
structure Account (n flag sent listed pending skipped counts touches : ℕ) (count : ℤ) : Prop where
  flag : flag + 1 = 2 * sent + 2 * listed + pending
  listed : 1 ≤ sent + listed
  tally : count + skipped + counts + touches = (2 * (n * sent) : ℕ)
  early : count < n → count + counts = (n * sent : ℕ)
  late : n ≤ count → n ≤ skipped

namespace Account

variable {n flag sent listed pending skipped counts touches : ℕ} {count : ℤ}

/-- **A chunk that passes the check is not used any more.** -/
theorem of_isFree (h : Account n flag sent listed pending skipped counts touches count) (hn : 0 < n)
    (hfree : (flag * n : ℤ) ≤ count) :
    listed = 0 ∧ pending = 0 ∧ counts = 0 ∧ touches = 0 := by
  obtain ⟨hflag, hsent, htally, -, hlate⟩ := h
  have hnonneg : (0 : ℤ) ≤ flag * n := by positivity
  lift count to ℕ using hnonneg.trans hfree
  norm_cast at hfree htally hlate
  have hmul : flag * n + n = 2 * (n * sent) + 2 * (listed * n) + pending * n := by
    have := congrArg (· * n) hflag
    linarith
  have hle : 1 * n ≤ flag * n := Nat.mul_le_mul_right n (by omega)
  have hlisted : listed * n = 0 := by omega
  have hpending : pending * n = 0 := by omega
  rw [Nat.mul_eq_zero] at hlisted hpending
  omega

/-- **A chunk that is not used any more passes the check if no more touches than there are readers
were skipped.** -/
theorem isFree_iff (h : Account n flag sent 0 0 skipped 0 0 count) :
    (flag * n : ℤ) ≤ count ↔ skipped ≤ n := by
  obtain ⟨hflag, -, htally, -, -⟩ := h
  have hmul : (flag * n : ℤ) + n = (2 * (n * sent) : ℕ) := by
    have := congrArg (· * n) hflag
    push_cast [← @Nat.cast_inj ℤ] at this ⊢
    linarith
  omega

/-- A new item: its address is about to be sent. -/
theorem new (n : ℕ) : Account n 1 0 1 0 0 0 0 0 := by
  refine ⟨rfl, le_rfl, by simp, fun _ => by simp, fun h => ?_⟩
  omega

theorem list (h : Account n flag sent listed (pending + 1) skipped counts touches count) :
    Account n (flag + 1) sent (listed + 1) pending skipped counts touches count := { h with
  flag := by
    have := h.flag
    omega
  listed := h.listed.trans (by omega) }

theorem touchAll (h : Account n flag sent listed 0 skipped counts touches count) (pending : ℕ) :
    Account n (flag + pending) sent listed pending skipped counts touches count := { h with
  flag := by
    have := h.flag
    omega }

theorem dispatch (h : Account n flag sent listed pending skipped counts touches count) :
    Account n flag (sent + listed) 0 pending skipped (counts + n * listed) (touches + n * listed)
      count := { h with
  flag := by
    have := h.flag
    omega
  tally := by
    have := h.tally
    push_cast [Nat.mul_add] at this ⊢
    omega
  early := by
    intro hlt
    have := h.early hlt
    push_cast [Nat.mul_add] at this ⊢
    omega }

theorem touchCounted (h : Account n flag sent listed pending skipped counts (touches + 1) count)
    (hle : n ≤ count) :
    Account n flag sent listed pending skipped counts touches (count + 1) := { h with
  tally := by
    have := h.tally
    omega
  early := by omega
  late := fun _ => h.late hle }

theorem touchSkipped (h : Account n flag sent listed pending skipped counts (touches + 1) count)
    (hlt : count < n) : Account n flag sent listed pending (skipped + 1) counts touches count where
  flag := h.flag
  listed := h.listed
  tally := by
    have := h.tally
    omega
  early := h.early
  late := by omega

/-- A reader has read the object. If that brings the count to the number of readers, as many
touches have been skipped, since none was counted. -/
theorem get (h : Account n flag sent listed pending skipped (counts + 1) touches count)
    (hordered : touches ≤ counts) :
    Account n flag sent listed pending skipped counts touches (count + 1) := { h with
  tally := by
    have := h.tally
    omega
  early := by
    intro hlt
    have := h.early (by omega)
    omega
  late := by
    intro hle
    rcases Int.lt_or_le count n with hlt | hold
    · have hearly := h.early hlt
      have htally := h.tally
      omega
    · exact h.late hold }

end Account

end CacheFlow.Shm
