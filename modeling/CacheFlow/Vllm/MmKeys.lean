import CacheFlow.Connector.BlockHash

/-!
# The multi-modal inputs that the hasher finds in a block

`_gen_mm_extra_hash_keys` looks for the inputs of a block with a cursor that a call of the hasher
moves along from block to block. A call that starts with the first block starts with the first
input, a later call with the last one. Here the inputs that it finds are told from their ranges,
without the cursor.

## Main definitions

* `inputsAt B start b`: the inputs that are found in block `b` by a call that starts with block
  `start`.

## Main results

* `genMmExtraHashKeys_eq`: the cursor finds these inputs.
-/

namespace CacheFlow

open List

/-- The token after the last placeholder of an input. -/
def MmFeature.stop (f : MmFeature) : ℕ := f.offset + f.length

/-- The cursor goes on to the next input: this one starts before `t` and goes no further. -/
def MmFeature.endsBy (t : ℕ) (f : MmFeature) : Bool := f.offset < t ∧ f.stop ≤ t

/-- The keys for inputs. -/
def mmKeys (fs : List MmFeature) : List ExtraKey := fs.map fun f => .str f.identifier

/-- The inputs that are found from `s` to `t`: none behind the first that does not end there, and of
the others those that have a token there or end at `s`. -/
def found (s t : ℕ) (fs : List MmFeature) : List MmFeature :=
  (fs.take ((fs.takeWhile (MmFeature.endsBy t)).length + 1)).filter fun f =>
    f.offset < t ∧ s ≤ f.stop

/-- The inputs that a call has to look at, when `start` blocks have hashes. -/
def lookedAt (fs : List MmFeature) (start : ℕ) : List MmFeature :=
  if start = 0 then fs else fs.getLast?.toList

/-- The inputs that are left to look at for block `b`. -/
def leftAt (fs : List MmFeature) (B start b : ℕ) : List MmFeature :=
  if b = start then lookedAt fs start
  else (lookedAt fs start).dropWhile (MmFeature.endsBy (b * B))

/-- The inputs that are found in block `b` by a call that starts with block `start`: none when the
last one ends before the block. -/
def inputsAt (fs : List MmFeature) (B start b : ℕ) : List MmFeature :=
  if ∃ last ∈ fs.getLast?, b * B ≤ last.stop then
    found (b * B) (b * B + B) (leftAt fs B start b)
  else []

theorem found_cons_of_endsBy {s t : ℕ} {f : MmFeature} (hf : f.endsBy t = true)
    (fs : List MmFeature) :
    found s t (f :: fs) = if s ≤ f.stop then f :: found s t fs else found s t fs := by
  have hin : f.offset < t := by
    simp only [MmFeature.endsBy, decide_eq_true_eq] at hf
    exact hf.1
  rw [found, takeWhile_cons_of_pos hf, length_cons, take_succ_cons, filter_cons]
  simp only [hin, true_and, decide_eq_true_eq]
  rfl

theorem found_cons_of_not_endsBy {s t : ℕ} {f : MmFeature} (hst : s < t)
    (hf : ¬f.endsBy t = true) (fs : List MmFeature) :
    found s t (f :: fs) = if f.offset < t then [f] else [] := by
  rw [found, takeWhile_cons_of_neg hf, length_nil, Nat.zero_add, take_succ_cons, take_zero,
    filter_cons, filter_nil]
  refine if_congr ?_ rfl rfl
  simp only [MmFeature.endsBy, decide_eq_true_eq] at hf ⊢
  omega

theorem endsBy_mono {s t : ℕ} (hst : s ≤ t) {f : MmFeature} (h : f.endsBy s = true) :
    f.endsBy t = true := by
  simp only [MmFeature.endsBy, decide_eq_true_eq] at h ⊢
  omega

theorem dropWhile_dropWhile_endsBy {s t : ℕ} (hst : s ≤ t) (fs : List MmFeature) :
    (fs.dropWhile (MmFeature.endsBy s)).dropWhile (MmFeature.endsBy t) =
      fs.dropWhile (MmFeature.endsBy t) := by
  induction fs with
  | nil => rfl
  | cons f fs ih =>
    by_cases hf : f.endsBy s = true
    · rw [dropWhile_cons_of_pos hf, ih, dropWhile_cons_of_pos (endsBy_mono hst hf)]
    · rw [dropWhile_cons_of_neg hf]

theorem drop_length_takeWhile {α : Type} (p : α → Bool) (l : List α) :
    l.drop (l.takeWhile p).length = l.dropWhile p := by
  conv_lhs => arg 2; rw [← takeWhile_append_dropWhile (p := p) (l := l)]
  exact drop_left

namespace VllmRequest

/-- **The loop over the inputs** finds those, and moves on to the first that does not end in the
block. -/
theorem mmLoop_eq {s t : ℕ} (hst : s < t) (fs : List MmFeature) (idx : ℕ) :
    mmLoop s t fs idx =
      (mmKeys (found s t fs), idx + (fs.takeWhile (MmFeature.endsBy t)).length) := by
  induction fs generalizing idx with
  | nil => rfl
  | cons f fs ih =>
    have hstop : f.offset + f.length = f.stop := rfl
    unfold mmLoop
    by_cases hin : f.offset < t
    · by_cases hends : f.stop ≤ t
      · have hf : f.endsBy t = true := by simp [MmFeature.endsBy, hin, hends]
        rw [if_pos hin, hstop, ih, found_cons_of_endsBy hf, takeWhile_cons_of_pos hf, length_cons,
          if_pos hends, Nat.add_assoc, Nat.add_comm 1]
        split_ifs with hpassed hfound
        · omega
        · rfl
        · rfl
        · omega
      · have hf : ¬f.endsBy t = true := by simp [MmFeature.endsBy, hends]
        rw [if_pos hin, hstop, if_neg (by omega), if_neg hends, found_cons_of_not_endsBy hst hf,
          if_pos hin, takeWhile_cons_of_neg hf]
        rfl
    · have hf : ¬f.endsBy t = true := by simp [MmFeature.endsBy, hin]
      rw [if_neg hin, found_cons_of_not_endsBy hst hf, if_neg hin, takeWhile_cons_of_neg hf]
      rfl

variable (r : VllmRequest)

/-- The cursor when the call comes to block `b`. It is not used any more when the last input ends
before the block. -/
def CursorAt (B start b : ℕ) (idx : ℤ) : Prop :=
  (∀ last ∈ r.mmFeatures.getLast?, last.stop < b * B) ∨
    r.mmFeatures.drop (if idx < 0 then r.mmFeatures.length + idx else idx).toNat =
      leftAt r.mmFeatures B start b

variable {r} {B start b : ℕ} {idx : ℤ}

theorem cursorAt_start (hB : 0 < B) :
    r.CursorAt B start start (if start * B > 0 then -1 else 0) := by
  refine Or.inr ?_
  rw [leftAt, if_pos rfl, lookedAt]
  rcases Nat.eq_zero_or_pos start with rfl | hpos
  · simp
  · rw [if_pos (Nat.mul_pos hpos hB), if_neg hpos.ne']
    cases hlast : r.mmFeatures.getLast? with
    | none => simp [List.getLast?_eq_none_iff.mp hlast]
    | some last =>
      obtain ⟨fs, hfs⟩ := List.getLast?_eq_some_iff.mp hlast
      simp [hfs]

/-- **One block**: the cursor finds its inputs, and comes to the next block. -/
theorem genMmExtraHashKeys_eq (hB : 0 < B) (hb : start ≤ b) (hat : r.CursorAt B start b idx) :
    (r.genMmExtraHashKeys (b * B) (b * B + B) idx).1 = mmKeys (inputsAt r.mmFeatures B start b) ∧
      r.CursorAt B start (b + 1) (r.genMmExtraHashKeys (b * B) (b * B + B) idx).2 := by
  have hnext : (b + 1) * B = b * B + B := Nat.succ_mul b B
  unfold genMmExtraHashKeys inputsAt
  cases hlast : r.mmFeatures.getLast? with
  | none => exact ⟨by simp [mmKeys], Or.inl (by simp [hlast])⟩
  | some last =>
    dsimp only
    by_cases hbefore : last.offset + last.length < b * B
    · rw [if_pos hbefore, if_neg (by simpa [MmFeature.stop] using hbefore)]
      refine ⟨rfl, Or.inl fun last' hlast' => ?_⟩
      rw [hlast, Option.mem_some_iff] at hlast'
      rw [← hlast', hnext]
      exact Nat.lt_add_right B hbefore
    · have hdrop := hat.resolve_left fun h => hbefore (h last hlast)
      have hreaches : ∃ last' ∈ some last, b * B ≤ last'.stop := ⟨last, rfl, Nat.not_lt.mp hbefore⟩
      rw [if_neg hbefore, if_pos hreaches, mmLoop_eq (Nat.lt_add_of_pos_right hB), hdrop]
      refine ⟨rfl, Or.inr ?_⟩
      -- the number is not negative, and what is left ends behind the block
      have hne : b + 1 ≠ start := by omega
      rw [if_neg (Int.not_lt.mpr (Int.natCast_nonneg _)), Int.toNat_natCast, ← drop_drop, hdrop,
        drop_length_takeWhile, leftAt, leftAt, if_neg hne, hnext]
      split_ifs
      · rfl
      · exact dropWhile_dropWhile_endsBy (Nat.le_add_right _ _) _

/-- `generate_block_hash_extra_keys`, with the keys of the multi-modal inputs given. -/
def extraKeysOf (r : VllmRequest) (start stop : ℕ) (mm : List ExtraKey) :
    Option (List ExtraKey) :=
  let keys := r.genLoraExtraHashKeys ++ mm ++ r.cacheSaltKeys start ++
    r.genPromptEmbedsExtraHashKeys start stop
  if keys = [] then none else some keys

theorem generateBlockHashExtraKeys_eq (hB : 0 < B) (hb : start ≤ b)
    (hat : r.CursorAt B start b idx) :
    (r.generateBlockHashExtraKeys (b * B) (b * B + B) idx).1 =
        r.extraKeysOf (b * B) (b * B + B) (mmKeys (inputsAt r.mmFeatures B start b)) ∧
      r.CursorAt B start (b + 1) (r.generateBlockHashExtraKeys (b * B) (b * B + B) idx).2 := by
  obtain ⟨hkeys, hnext⟩ := genMmExtraHashKeys_eq hB hb hat
  rw [← hkeys]
  exact ⟨rfl, hnext⟩

end VllmRequest

end CacheFlow
