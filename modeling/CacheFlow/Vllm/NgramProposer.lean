import CacheFlow.Lib.Border

/-!
# Proposing tokens from n-grams

`_find_longest_matched_ngram_and_propose_tokens` of `spec_decode/ngram_proposer.py`: the longest end
of the tokens that occurs earlier is found by one scan of the reversed tokens, with a table of
borders that is no longer than the longest n-gram, and the tokens after its earliest occurrence are
proposed.

## Main results

* `NgramScan.Inv.round` — a round keeps the borders right.
* `propose_exact` — what is proposed.
-/

namespace CacheFlow

open List Option

variable {α : Type}

/-- The variables of the loop. -/
structure NgramScan where
  lps : List ℕ
  longestNgram : ℕ
  position : ℕ
  prevLps : ℕ
  i : ℕ

namespace NgramScan

/-- `lps[i] = v`, for the first `maxNgram` prefixes. -/
def store (maxNgram : ℕ) (lps : List ℕ) (i v : ℕ) : Option (List ℕ) :=
  if i < maxNgram then if i < lps.length then some (lps.set i v) else none
  else some lps

/-- The prefix to make longer, which must not be longer than `maxNgram`. -/
def capped (maxNgram : ℕ) (lps : List ℕ) (v : ℕ) : Option ℕ :=
  if v = maxNgram then lps[maxNgram - 1]? else some v

variable [DecidableEq α]

/-- A round of the loop; nothing if it reads or writes out of bounds. -/
def round (tokens : List α) (maxNgram : ℕ) (s : NgramScan) : Option NgramScan := do
  let a ← tokens[s.prevLps]?
  let b ← tokens[s.i]?
  if a = b then
    let v := s.prevLps + 1
    let lps ← store maxNgram s.lps s.i v
    let prevLps ← capped maxNgram lps v
    if s.longestNgram ≤ v then return ⟨lps, v, s.i, prevLps, s.i + 1⟩
    else return ⟨lps, s.longestNgram, s.position, prevLps, s.i + 1⟩
  else if s.prevLps ≠ 0 then
    let v ← s.lps[s.prevLps - 1]?
    return { s with prevLps := v }
  else return { s with i := s.i + 1 }

/-- The loop; nothing if a round fails or it goes on for more than `fuel` rounds. -/
def scan (tokens : List α) (maxNgram : ℕ) : ℕ → NgramScan → Option NgramScan
  | 0, s => if s.i < tokens.length then none else some s
  | fuel + 1, s =>
    if s.i < tokens.length then (s.round tokens maxNgram).bind (scan tokens maxNgram fuel)
    else some s

end NgramScan

/-- `_find_longest_matched_ngram_and_propose_tokens`; the difference is cut off at zero, as there is
nothing to propose below. -/
def findLongestMatchedNgramAndProposeTokens [DecidableEq α] (fuel : ℕ) (originTokens : List α)
    (minNgram maxNgram maxModelLen k : ℕ) : Option (List α) :=
  let totalToken := originTokens.length
  if totalToken < minNgram then some []
  else
    let k := min k (maxModelLen - totalToken)
    if k = 0 then some []
    else
      let start : NgramScan := ⟨replicate maxNgram 0, 0, 0, 0, 1⟩
      (start.scan originTokens.reverse maxNgram fuel).map fun s =>
        if s.longestNgram < minNgram then []
        else
          let startPosition := totalToken - 1 - s.position + s.longestNgram
          (originTokens.drop startPosition).take (min k (totalToken - startPosition))

/-! ### The scan -/

namespace NgramScan

variable {t : List α} {m : ℕ} {s : NgramScan}

/-- The prefixes of the word are compared by their letters. -/
abbrev word (t : List α) (j : ℕ) : Option α := t[j]?

/-- What holds before every round. -/
structure Inv (t : List α) (m : ℕ) (s : NgramScan) : Prop where
  pos : 0 < s.i
  le : s.i ≤ t.length
  length : s.lps.length = m
  /-- The table is right up to the place, -/
  table : ∀ j < s.i, ∀ v, s.lps[j]? = some v → Longest (word t) m j v
  /-- and empty from there on. -/
  rest : ∀ j, s.i ≤ j → ∀ v, s.lps[j]? = some v → v = 0
  tries : Tries (word t) m (s.i - 1) s.prevLps
  /-- No border so far is longer than the one noted, or as long and at a later place. -/
  best : ∀ p < s.i, ∀ w ≤ m, 0 < w → EndsAt (word t) w p →
    w < s.longestNgram ∨ w = s.longestNgram ∧ p ≤ s.position
  found : 0 < s.longestNgram →
    s.position < s.i ∧ s.longestNgram ≤ m ∧ EndsAt (word t) s.longestNgram s.position

theorem inv_start (ht : 0 < t.length) (hm : 0 < m) : Inv t m ⟨replicate m 0, 0, 0, 0, 1⟩ where
  pos := Nat.one_pos
  le := ht
  length := length_replicate
  table j hj v hv := by
    obtain rfl := eq_of_mem_replicate (mem_of_getElem? hv)
    obtain rfl : j = 0 := by simpa using hj
    exact ⟨⟨Nat.zero_le m, trivial⟩, fun w hw => hw.2.le⟩
  rest j _ v hv := eq_of_mem_replicate (mem_of_getElem? hv)
  tries := ⟨hm, trivial, fun w _ hw => hw.le⟩
  best p hp w _ hpos hw := by
    have hle := hw.le
    simp only at hp
    omega
  found h := absurd h (lt_irrefl 0)

/-- **The scan goes on** from the longest border at its place. -/
theorem Inv.advance (h : Inv t m s) (hi : s.i < t.length) {v prevLps l p : ℕ} {lps : List ℕ}
    (hv : Longest (word t) m s.i v) (hlen : lps.length = m)
    (hlps : ∀ j u, lps[j]? = some u → j = s.i ∧ u = v ∨ j ≠ s.i ∧ s.lps[j]? = some u)
    (htries : Tries (word t) m s.i prevLps)
    (hbest : s.longestNgram ≤ v ∧ l = v ∧ p = s.i ∨
      (v < s.longestNgram ∨ v = 0) ∧ l = s.longestNgram ∧ p = s.position) :
    Inv t m ⟨lps, l, p, prevLps, s.i + 1⟩ where
  pos := Nat.succ_pos _
  le := hi
  length := hlen
  table j hj u hu := by
    rcases hlps j u hu with ⟨rfl, rfl⟩ | ⟨hne, hu⟩
    · exact hv
    · exact h.table j (by simp only at hj; omega) u hu
  rest j hj u hu := by
    rcases hlps j u hu with ⟨rfl, -⟩ | ⟨-, hu⟩
    · exact absurd hj (Nat.not_succ_le_self _)
    · exact h.rest j (Nat.le_of_succ_le hj) u hu
  tries := htries
  best q hq w hw hpos hends := by
    simp only at hq ⊢
    rcases Nat.lt_succ_iff_lt_or_eq.mp hq with hlt | rfl
    · have hold := h.best q hlt w hw hpos hends
      omega
    · have hle : w ≤ v := hv.2 ⟨hw, hends⟩
      omega
  found hl := by
    rcases hbest with ⟨-, rfl, rfl⟩ | ⟨-, rfl, rfl⟩
    · exact ⟨Nat.lt_succ_self _, hv.1⟩
    · obtain ⟨hlt, hrest⟩ := h.found hl
      exact ⟨Nat.lt_succ_of_lt hlt, hrest⟩

/-- The table after a match, if the place is in it. -/
theorem Inv.store (h : Inv t m s) (v : ℕ) :
    ∃ lps, NgramScan.store m s.lps s.i v = some lps ∧ lps.length = m ∧
      ∀ j u, lps[j]? = some u → j = s.i ∧ u = v ∨ j ≠ s.i ∧ s.lps[j]? = some u := by
  unfold NgramScan.store
  split_ifs with hi hlt
  · refine ⟨s.lps.set s.i v, rfl, by rw [length_set, h.length], ?_⟩
    intro j u hu
    by_cases hj : s.i = j
    · rw [← hj, List.getElem?_set_self (h.length.symm ▸ hi), some.injEq] at hu
      exact Or.inl ⟨hj.symm, hu.symm⟩
    · rw [List.getElem?_set_ne hj] at hu
      exact Or.inr ⟨Ne.symm hj, hu⟩
  · exact absurd (h.length.symm ▸ hi) hlt
  · refine ⟨s.lps, rfl, h.length, fun j u hu => Or.inr ⟨?_, hu⟩⟩
    have hlt := (List.getElem?_eq_some_iff.mp hu).1
    rw [h.length] at hlt
    omega

/-- **A round** returns, keeps the borders right, and brings the loop nearer to its end. -/
theorem Inv.round [DecidableEq α] (h : Inv t m s) (hi : s.i < t.length) :
    ∃ s', s.round t m = some s' ∧ Inv t m s' ∧
      2 * (t.length - s'.i) + s'.prevLps < 2 * (t.length - s.i) + s.prevLps := by
  have hpos := h.pos
  have hprev := h.tries.ends.le
  have hlt := h.tries.lt
  have htries := h.tries
  have hsucc : s.i - 1 + 1 = s.i := Nat.sub_add_cancel hpos
  have hsame : ∀ j u, s.lps[j]? = some u → j = s.i ∧ u = 0 ∨ j ≠ s.i ∧ s.lps[j]? = some u := by
    intro j u hu
    by_cases hj : j = s.i
    · exact Or.inl ⟨hj, h.rest j hj.ge u hu⟩
    · exact Or.inr ⟨hj, hu⟩
  have hget : ∀ j < m, j < s.i → ∃ v, s.lps[j]? = some v ∧ Longest (word t) m j v := by
    intro j hj hji
    have hv := List.getElem?_eq_getElem (h.length.symm ▸ hj : j < s.lps.length)
    exact ⟨_, hv, h.table j hji _ hv⟩
  unfold NgramScan.round
  rw [List.getElem?_eq_getElem (by omega : s.prevLps < t.length), List.getElem?_eq_getElem hi]
  simp only [bind_eq_bind, bind_some]
  by_cases hab : t[s.prevLps] = t[s.i]
  · -- the border is longer by one token
    have heq : word t s.prevLps = word t (s.i - 1 + 1) := by
      rw [hsucc, word, word, List.getElem?_eq_getElem hi, List.getElem?_eq_getElem (by omega), hab]
    have hlong := htries.longest_succ heq
    rw [hsucc] at hlong
    obtain ⟨lps, hstore, hlen, hlps⟩ := h.store (s.prevLps + 1)
    -- a prefix of full length ends where the table is complete
    obtain ⟨prevLps, hnext, hle, htries'⟩ : ∃ v, capped m lps (s.prevLps + 1) = some v ∧
        v ≤ s.prevLps + 1 ∧ Tries (word t) m s.i v := by
      unfold capped
      split_ifs with hfull
      · obtain ⟨v, hv, hborder⟩ := hget (m - 1) (by omega) (by omega)
        have hle := hborder.1.2.le
        rw [hfull] at hlong
        refine ⟨v, ?_, by omega, hlong.tries_of_eq (by omega) hborder⟩
        have hw := List.getElem?_eq_getElem (by omega : m - 1 < lps.length)
        rcases hlps _ _ hw with ⟨hm, -⟩ | ⟨-, hw'⟩
        · omega
        · rw [hw, ← hw', hv]
      · exact ⟨_, rfl, le_rfl, hlong.tries (by omega)⟩
    rw [if_pos hab, hstore]
    rw [bind_some, hnext, bind_some]
    split_ifs with hbest
    · exact ⟨_, rfl, h.advance hi hlong hlen hlps htries' (Or.inl ⟨hbest, rfl, rfl⟩),
        by simp only; omega⟩
    · exact ⟨_, rfl, h.advance hi hlong hlen hlps htries' (Or.inr ⟨Or.inl (by omega), rfl, rfl⟩),
        by simp only; omega⟩
  · have hne : word t s.prevLps ≠ word t (s.i - 1 + 1) := by
      rw [hsucc, word, word, List.getElem?_eq_getElem hi, List.getElem?_eq_getElem (by omega)]
      exact fun heq => hab (some.inj heq)
    rw [if_neg hab]
    split_ifs with hzero
    · -- the next shorter border is tried
      obtain ⟨v, hv, hlong⟩ := hget (s.prevLps - 1) (by omega) (by omega)
      have hle := hlong.1.2.le
      rw [hv]
      exact ⟨_, rfl, { h with tries := htries.fall hne (Nat.pos_of_ne_zero hzero) hlong },
        by simp only; omega⟩
    · -- no border is left
      rw [not_not] at hzero
      rw [hzero] at htries hne
      have hlong := htries.longest_zero hne
      rw [hsucc] at hlong
      refine ⟨_, rfl, ?_, by simp only; omega⟩
      exact h.advance hi hlong h.length hsame (hzero ▸ hlong.tries (by omega))
          (Or.inr ⟨Or.inr rfl, rfl, rfl⟩)

/-- **The loop** ends, and within two rounds for each token. -/
theorem Inv.scan [DecidableEq α] {fuel : ℕ} (h : Inv t m s)
    (hfuel : 2 * (t.length - s.i) + s.prevLps ≤ fuel) :
    ∃ s', s.scan t m fuel = some s' ∧ Inv t m s' ∧ t.length ≤ s'.i := by
  induction fuel generalizing s with
  | zero => exact ⟨s, if_neg (by omega), h, by omega⟩
  | succ fuel ih =>
    rw [NgramScan.scan]
    split_ifs with hi
    · obtain ⟨s₁, hround, h₁, hlt⟩ := h.round hi
      rw [hround]
      exact ih h₁ (by omega)
    · exact ⟨s, rfl, h, by omega⟩

end NgramScan

/-! ### What is proposed -/

/-- The last `n` tokens occur earlier, at `s`. -/
def OccursAt (l : List α) (n s : ℕ) : Prop :=
  s + n < l.length ∧ (l.drop s).take n = l.drop (l.length - n)

theorem occursAt_iff {l : List α} {n s : ℕ} :
    OccursAt l n s ↔ s + n < l.length ∧ ∀ x < n, l[s + x]? = l[l.length - n + x]? := by
  refine and_congr_right fun hlt => ⟨fun h x hx => ?_, fun h => List.ext_getElem? fun x => ?_⟩
  · rw [← List.getElem?_drop, ← List.getElem?_drop, ← h, List.getElem?_take_of_lt hx]
  · rcases Nat.lt_or_ge x n with hx | hx
    · rw [List.getElem?_take_of_lt hx, List.getElem?_drop, List.getElem?_drop, h x hx]
    · rw [List.getElem?_eq_none (by rw [length_take]; omega),
        List.getElem?_eq_none (by rw [length_drop]; omega)]

theorem endsAt_reverse {l : List α} {n i : ℕ} (hi : i < l.length) :
    EndsAt (NgramScan.word l.reverse) n i ↔ OccursAt l n (l.length - 1 - i) := by
  have hword : ∀ j < l.length, NgramScan.word l.reverse j = l[l.length - 1 - j]? := fun j hj =>
    List.getElem?_reverse hj
  rw [endsAt_iff, occursAt_iff, show n ≤ i ↔ l.length - 1 - i + n < l.length by omega]
  refine and_congr_right fun hlt => ⟨fun h x hx => ?_, fun h j hj => ?_⟩
  · have heq := h (n - 1 - x) (by omega)
    rw [hword _ (by omega), hword _ (by omega)] at heq
    convert heq.symm using 2 <;> omega
  · rw [hword _ (by omega), hword _ (by omega)]
    convert (h (n - 1 - j) (by omega)).symm using 2 <;> omega

variable {l : List α} {minNgram maxNgram maxModelLen k fuel : ℕ}

/-- **What the scan finds**: the longest of the last tokens that occur earlier, and where they occur
first. -/
theorem NgramScan.Inv.occursAt {s : NgramScan} (h : Inv l.reverse maxNgram s)
    (hend : l.length ≤ s.i) :
    (∀ n p, 0 < n → n ≤ maxNgram → OccursAt l n p → n < s.longestNgram ∨
      n = s.longestNgram ∧ l.length - 1 - s.position ≤ p) ∧
    (0 < s.longestNgram → s.longestNgram ≤ maxNgram ∧
      OccursAt l s.longestNgram (l.length - 1 - s.position)) := by
  constructor
  · intro n p hn hle hocc
    have hlt := hocc.1
    rw [show p = l.length - 1 - (l.length - 1 - p) by omega, ← endsAt_reverse (by omega)] at hocc
    have hbest := h.best _ (by omega) n hle hn hocc
    omega
  · intro hpos
    obtain ⟨hlt, hle, hends⟩ := h.found hpos
    have hi := h.le
    rw [length_reverse] at hi
    exact ⟨hle, (endsAt_reverse (by omega)).mp hends⟩

/-- **The proposal is exact.** Nothing is proposed if there are too few tokens, no room is left or
no end of the tokens of a length in question occurs earlier; otherwise the tokens after the earliest
occurrence of the longest one. -/
theorem propose_exact [DecidableEq α] (hmin : 1 ≤ minNgram) (hle : minNgram ≤ maxNgram)
    (hk : 1 ≤ k) (hfuel : 2 * l.length ≤ fuel) :
    ∃ r, findLongestMatchedNgramAndProposeTokens fuel l minNgram maxNgram maxModelLen k = some r ∧
      (r = [] ↔ l.length < minNgram ∨ maxModelLen ≤ l.length ∨
        ∀ n p, minNgram ≤ n → n ≤ maxNgram → ¬ OccursAt l n p) ∧
      (l.length < maxModelLen → ∀ n p,
        IsGreatest {n | minNgram ≤ n ∧ n ≤ maxNgram ∧ ∃ p, OccursAt l n p} n →
        IsLeast {p | OccursAt l n p} p → r = (l.drop (p + n)).take
          (min k (min (maxModelLen - l.length) (l.length - (p + n))))) := by
  unfold findLongestMatchedNgramAndProposeTokens
  dsimp only
  split_ifs with hshort hroom
  · refine ⟨[], rfl, by simp [hshort], fun _ n p hn hp => ?_⟩
    have hlt := hp.1.1
    have hge := hn.1.1
    omega
  · exact ⟨[], rfl, iff_of_true rfl (Or.inr (Or.inl (by omega))), fun hlt => by omega⟩
  -- the scan ends, and its match is the longest and the earliest
  obtain ⟨s, hscan, hinv, hend⟩ := (NgramScan.inv_start
    (by rw [length_reverse]; omega : 0 < l.reverse.length) (by omega : 0 < maxNgram)).scan
    (by simp only [length_reverse]; omega : _ ≤ fuel)
  rw [length_reverse] at hend
  obtain ⟨hall, hfound⟩ := hinv.occursAt hend
  rw [hscan, map_some]
  split_ifs with hnone
  · -- an n-gram that is too short does not count
    have hno : ∀ n p, minNgram ≤ n → n ≤ maxNgram → ¬ OccursAt l n p := by
      intro n p hn hm hocc
      have hlt := hall n p (by omega) hm hocc
      omega
    refine ⟨[], rfl, iff_of_true rfl (Or.inr (Or.inr hno)), fun _ n p hn hp => ?_⟩
    exact absurd hp.1 (hno n p hn.1.1 hn.1.2.1)
  · obtain ⟨hm, hocc⟩ := hfound (by omega)
    have hlt := hocc.1
    refine ⟨_, rfl, iff_of_false ?_ ?_, fun _ n p hn hp => ?_⟩
    · apply ne_nil_of_length_pos
      rw [length_take, length_drop]
      omega
    · rintro (h | h | h)
      · exact hshort h
      · omega
      · exact h _ _ (by omega) hm hocc
    · obtain rfl : n = s.longestNgram := by
        have hge := hn.2 ⟨by omega, hm, _, hocc⟩
        have hlt := hall n p (by omega) hn.1.2.1 hp.1
        omega
      obtain rfl : p = l.length - 1 - s.position := by
        have hge := hp.2 hocc
        have hlt := hall _ p (by omega) hm hp.1
        omega
      rw [min_assoc]

theorem propose_exact_repeat : ∃ r, findLongestMatchedNgramAndProposeTokens 10 [1, 2, 3, 1, 2] 1 3 9 2
    = some r ∧ r = [3, 1] := by
  obtain ⟨r, hr, -⟩ := @propose_exact ℕ [1, 2, 3, 1, 2] 1 3 9 2 10 _ (by decide) (by decide)
    (by decide) (by decide)
  exact ⟨r, hr, some.inj (hr.symm.trans (by decide))⟩

end CacheFlow
