import Mathlib.Tactic.Ring
import Mathlib.Data.List.Basic

/-!
# Byte-addressed memory

Memory is a function from addresses to bytes. Everything that moves data copies a
contiguous range, and every statement about data says that a range holds a given
content; the two meet in `holdsAt_copy` and the frame rule `HoldsAt.copy_of_disjoint`.
-/

namespace CacheFlow

/-- Memory: a byte for each address. -/
abbrev Mem (β : Type) := ℕ → β

variable {β : Type}

/-- Write the content `c` to the range of `len` bytes at `a`. -/
def fill (m : Mem β) (a len : ℕ) (c : ℕ → β) : Mem β := fun x =>
  if a ≤ x ∧ x < a + len then c (x - a) else m x

/-- Copy `len` bytes at `sa` of `src` to `da` of `dst`. -/
def copyRange (src : Mem β) (sa : ℕ) (dst : Mem β) (da len : ℕ) : Mem β :=
  fill dst da len fun r => src (sa + r)

/-- The range of `len` bytes at `a` holds the content `c`. -/
def HoldsAt (m : Mem β) (a len : ℕ) (c : ℕ → β) : Prop := ∀ r < len, m (a + r) = c r

variable {len a : ℕ}

theorem fill_of_mem (m : Mem β) {r : ℕ} (c : ℕ → β) (h : r < len) :
    fill m a len c (a + r) = c r := by
  rw [fill, if_pos ⟨Nat.le_add_right a r, Nat.add_lt_add_left h a⟩, Nat.add_sub_cancel_left]

theorem fill_of_not_mem (m : Mem β) {x : ℕ} (c : ℕ → β) (h : x < a ∨ a + len ≤ x) :
    fill m a len c x = m x := by
  rw [fill, if_neg]
  omega

theorem holdsAt_fill (m : Mem β) (a len : ℕ) (c : ℕ → β) : HoldsAt (fill m a len c) a len c :=
  fun _ hr => fill_of_mem m c hr

variable {c : ℕ → β}

/-- **The frame rule**: what a write does not overlap, it does not change. -/
theorem HoldsAt.fill_of_disjoint {m : Mem β} (h : HoldsAt m a len c)
    {a' len' : ℕ} (c' : ℕ → β) (hdis : a + len ≤ a' ∨ a' + len' ≤ a) :
    HoldsAt (fill m a' len' c') a len c := by
  intro r hr
  rw [fill_of_not_mem m c' (by omega)]
  exact h r hr

theorem holdsAt_copy {src : Mem β} {sa : ℕ} (h : HoldsAt src sa len c)
    (dst : Mem β) (da : ℕ) : HoldsAt (copyRange src sa dst da len) da len c := by
  intro r hr
  rw [copyRange, fill_of_mem dst _ hr]
  exact h r hr

theorem HoldsAt.copy_of_disjoint {dst : Mem β} (h : HoldsAt dst a len c)
    (src : Mem β) (sa : ℕ) {da len' : ℕ} (hdis : a + len ≤ da ∨ da + len' ≤ a) :
    HoldsAt (copyRange src sa dst da len') a len c :=
  h.fill_of_disjoint _ hdis

theorem HoldsAt.sub {m : Mem β} (h : HoldsAt m a len c) {off len' : ℕ}
    (hle : off + len' ≤ len) : HoldsAt m (a + off) len' fun r => c (off + r) := by
  intro r hr
  rw [Nat.add_assoc]
  exact h (off + r) (by omega)

end CacheFlow
