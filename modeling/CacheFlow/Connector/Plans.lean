import CacheFlow.Connector.Leases
import Mathlib.Algebra.Order.Floor.Div

/-!
# The shape of a load plan

When a lookup finds more chunks than vLLM has computed, `get_num_new_matched_tokens` cuts the rows
of entries down to the chunks that are needed. The range of tokens is aligned to chunks at neither
end: it starts after the tokens vLLM has, and the last token of the prompt is withheld. The worker
later finds the entry of a token by its own arithmetic, so the two have to agree on where a row
starts.

## Main definitions

* `Plan.WellFormed` — what `begin_load` needs of a plan.

## Main results

* `Sched.plan_of_lookup` — a plan made from an answer is well formed.
-/

namespace CacheFlow

/-- `begin_load`: the entry a token is read from and its place there, `jdx` and `pdx`. The tensors
are signed, so that a token before the first chunk would have a negative index. -/
def loadIndices (chunkTokens chunk0 t : ℕ) : ℤ × ℤ :=
  ((t : ℤ) / chunkTokens - chunk0, t % chunkTokens)

/-- A plan that supplies tokens from `numComputedTokens` on, out of the answer `r`. -/
structure Plan.WellFormed (chunkTokens promptLen numComputedTokens : ℕ) (r : LookupAnswer)
    (p : Plan) : Prop where
  start : p.tokStart = numComputedTokens
  pos : p.tokStart < p.tokStop
  stop : p.tokStop ≤ promptLen - 1
  /-- The first chunk is that of the first token. -/
  chunk0 : p.chunk0 = numComputedTokens / chunkTokens
  ranks : p.entries.length = r.entries.length
  /-- A row ends with the chunk of the last token. -/
  length : ∀ part ∈ p.entries, p.chunk0 + part.length = p.tokStop ⌈/⌉ chunkTokens
  /-- The worker finds every token in the entry of its chunk. -/
  found : ∀ t, p.tokStart ≤ t → t < p.tokStop → ∀ (rank : ℕ) part row,
    p.entries[rank]? = some part → r.entries[rank]? = some row →
      ∃ j q : ℕ, loadIndices chunkTokens p.chunk0 t = ((j : ℤ), (q : ℤ)) ∧ j < part.length ∧
        q < chunkTokens ∧ part[j]? = row[t / chunkTokens]?

section Cut

variable {C n stop t : ℕ} {row : List ℤ}

theorem ceilDiv_le_of_le_mul (hC : 0 < C) (hstop : stop ≤ row.length * C) :
    stop ⌈/⌉ C ≤ row.length := by
  rw [ceilDiv_le_iff_le_mul hC, Nat.mul_comm]
  exact hstop

theorem div_lt_ceilDiv (hC : 0 < C) (ht : t < stop) : t / C < stop ⌈/⌉ C := by
  rw [Nat.div_lt_iff_lt_mul hC, Nat.mul_comm]
  exact ht.trans_le (le_smul_ceilDiv hC)

/-- The length of a row that is cut to the chunks `n / C` to `stop ⌈/⌉ C`. -/
theorem length_cut (hC : 0 < C) (hn : n < stop) (hstop : stop ≤ row.length * C) :
    n / C + ((row.take (stop ⌈/⌉ C)).drop (n / C)).length = stop ⌈/⌉ C := by
  have hlast := ceilDiv_le_of_le_mul hC hstop
  have hfirst := div_lt_ceilDiv hC hn
  rw [List.length_drop, List.length_take]
  omega

/-- The worker's arithmetic undoes the cut. -/
theorem cut_found (hC : 0 < C) (hn : n ≤ t) (ht : t < stop) (hstop : stop ≤ row.length * C) :
    ∃ j q : ℕ, loadIndices C (n / C) t = ((j : ℤ), (q : ℤ)) ∧
      j < ((row.take (stop ⌈/⌉ C)).drop (n / C)).length ∧ q < C ∧
      ((row.take (stop ⌈/⌉ C)).drop (n / C))[j]? = row[t / C]? := by
  have hlength := length_cut hC (hn.trans_lt ht) hstop
  have hlast := div_lt_ceilDiv hC ht
  -- the token is not before the first chunk, so that its index is not negative
  have hfirst : n / C ≤ t / C := Nat.div_le_div_right hn
  refine ⟨t / C - n / C, t % C, ?_, by omega, Nat.mod_lt t hC, ?_⟩
  · rw [loadIndices, Nat.cast_sub hfirst]
    simp
  · rw [List.getElem?_drop, Nat.add_sub_cancel' hfirst, List.getElem?_take_of_lt hlast]

end Cut

namespace Sched

variable {cfg : SchedConfig} {c : Sched}

/-- The answers to the lookups so far, with the requests they were for. -/
def lookedUp (c : Sched) : List (String × LookupAnswer) := c.trace.filterMap fun
  | .looked rid r => some (rid, r)
  | _ => none

@[simp] theorem lookedUp_put (rid : String) (st : ReqState) :
    (c.put rid st).lookedUp = c.lookedUp := rfl

@[simp] theorem lookedUp_note_looked (rid : String) (r : LookupAnswer) :
    (c.note (.looked rid r)).lookedUp = c.lookedUp ++ [(rid, r)] := by
  simp [lookedUp, note]

@[simp] theorem lookedUp_releaseLease (lease : Option ℤ) :
    (c.releaseLease lease).lookedUp = c.lookedUp := by
  cases lease with
  | none => rfl
  | some l => unfold releaseLease releaseAsync; cases c.schedSession <;> simp [lookedUp, note]

theorem lookedUp_state {rid : String} {request : VllmRequest} {st : ReqState} {c' : Sched}
    (h : c.state cfg rid request = .ok (st, c')) : c'.lookedUp = c.lookedUp := by
  rcases state_cases h with ⟨-, rfl⟩ | ⟨-, -, -, -, rfl⟩
  · rfl
  · simp [lookedUp, note, put]

/-- The answer is noted, whatever comes of it. -/
theorem lookedUp_answered {rid : String} {st : ReqState} {n : ℕ} {r : LookupAnswer} {now : ℚ} :
    (c.answered cfg rid st n r now).2.lookedUp = c.lookedUp ++ [(rid, r)] := by
  unfold answered
  dsimp only
  generalize min ((if cfg.enableLoad then r.hits else 0) * cfg.chunkTokens) (st.promptLen - 1) =
    loadable
  split_ifs
  · simp
  · cases r.rkey <;> simp

/-- An answer with rows that are as long as it says makes a well-formed plan, if it makes one. -/
theorem answered_wellFormed {rid : String} {st st' : ReqState} {n : ℕ} {r : LookupAnswer} {now : ℚ}
    {p : Plan} (hrows : ∀ row ∈ r.entries, row.length = r.hits) (hnone : st.plan = none)
    (hst' : (c.answered cfg rid st n r now).2.states.get? rid = some st') (hp : st'.plan = some p) :
    p.WellFormed cfg.chunkTokens st'.promptLen n r ∧
      (c.answered cfg rid st n r now).1 = .ok (p.tokStop - p.tokStart, false) := by
  have hC := cfg.chunkTokens_pos
  unfold answered at hst' ⊢
  dsimp only at hst' ⊢
  -- what can be loaded lies in the chunks that were found, and before the last token
  have hhits : (if cfg.enableLoad then r.hits else 0) ≤ r.hits := by split_ifs <;> omega
  have hloadable := Nat.min_le_left ((if cfg.enableLoad then r.hits else 0) * cfg.chunkTokens)
    (st.promptLen - 1)
  have hprompt := Nat.min_le_right ((if cfg.enableLoad then r.hits else 0) * cfg.chunkTokens)
    (st.promptLen - 1)
  have hfound := hloadable.trans (Nat.mul_le_mul_right cfg.chunkTokens hhits)
  generalize min ((if cfg.enableLoad then r.hits else 0) * cfg.chunkTokens) (st.promptLen - 1) =
    loadable at hst' hprompt hfound ⊢
  by_cases hcovered : loadable ≤ n
  · -- nothing to load, and no plan
    rw [if_pos hcovered, releaseLease_states, put_states, Dict.get?_set_self] at hst'
    cases hst'
    exact absurd (hnone.symm.trans hp) nofun
  · rw [if_neg hcovered] at hst' ⊢
    have hstop : n + (loadable - n) = loadable := by omega
    cases hrkey : r.rkey with
    | none =>
      rw [hrkey, put_states, Dict.get?_set_self] at hst'
      cases hst'
      exact absurd (hnone.symm.trans hp) nofun
    | some rkey =>
      rw [hrkey, put_states, Dict.get?_set_self, hstop, ← Nat.ceilDiv_eq_add_pred_div] at hst'
      cases hst'
      cases hp
      have hlong : ∀ row ∈ r.entries, loadable ≤ row.length * cfg.chunkTokens := by
        intro row hrow
        rw [hrows row hrow]
        exact hfound
      refine ⟨⟨rfl, by simpa using hcovered, hprompt, rfl, List.length_map _, ?_, ?_⟩, rfl⟩
      · intro part hpart
        obtain ⟨row, hrow, rfl⟩ := List.mem_map.mp hpart
        exact length_cut hC (by omega) (hlong row hrow)
      · intro t hstart ht rank part row hpart hrow
        rw [List.getElem?_map, hrow, Option.map_some, Option.some.injEq] at hpart
        subst hpart
        exact cut_found hC hstart ht (hlong row (List.mem_of_getElem? hrow))

/-- **A plan made from an answer is well formed.** When a query has its lookup answered, and the
rows of the answer are as long as it says, a plan the request then has supplies at least one token
and leaves one to compute, its rows are those of the chunks it touches, and the worker finds each
token in the entry of its chunk. -/
theorem plan_of_lookup {rid : String} {request : VllmRequest} {n : ℕ} {env : QueryEnv}
    {r : LookupAnswer} {st : ReqState} {p : Plan}
    (hlooked : (c.getNumNewMatchedTokens cfg rid request n env).2.lookedUp =
      c.lookedUp ++ [(rid, r)])
    (hrows : ∀ row ∈ r.entries, row.length = r.hits)
    (hst : (c.getNumNewMatchedTokens cfg rid request n env).2.states.get? rid = some st)
    (hp : st.plan = some p) :
    p.WellFormed cfg.chunkTokens st.promptLen n r ∧
      (c.getNumNewMatchedTokens cfg rid request n env).1 = .ok (p.tokStop - p.tokStart, false) := by
  -- a call that ends before the lookup is answered has looked nothing up
  have hnot : ∀ {c' : Sched}, c'.lookedUp = c.lookedUp →
      c'.lookedUp ≠ c.lookedUp ++ [(rid, r)] := by
    intro c' h h'
    simpa using congrArg List.length (h.symm.trans h')
  rcases @query_cases cfg c rid request n env with hc | ⟨-, st₁, c₁, hstate, hrest⟩
  · exact absurd hlooked (hnot (congrArg lookedUp hc))
  have hc₁ := lookedUp_state hstate
  rcases hrest with hc | ⟨c₂, rfl, hrest⟩
  · exact absurd hlooked (hnot (hc ▸ hc₁))
  have hc₂ : ((c₁.dropPlan rid st₁).2.session env).2.lookedUp = c.lookedUp := by
    rw [lookedUp, (session_spec env).2.1, ← hc₁]
    exact lookedUp_releaseLease _
  rcases hrest with hc | ⟨r', -, -, hc⟩
  · exact absurd hlooked (hnot (hc ▸ hc₂))
  · rw [hc] at hlooked hst ⊢
    -- the answer that was noted is the one the plan is made from
    obtain rfl : r' = r := by
      have hnoted := lookedUp_answered.symm.trans hlooked
      rw [hc₂] at hnoted
      simpa using hnoted
    exact answered_wellFormed hrows rfl hst hp

/-- Three chunks of two tokens are found for a prompt of six tokens, three of which are computed:
tokens 3 and 4 are planned, in the second and third chunk. -/
theorem plan_of_three_chunks : ∃ p : Plan,
    p.WellFormed 2 6 3 ⟨3, some 1, [[10, 20, 30], [40, 50, 60]], some 7⟩ ∧
      p.tokStart = 3 ∧ p.tokStop = 5 ∧ p.entries = [[20, 30], [50, 60]] := by
  have h := @plan_of_lookup
    { sampleSchedConfig with chunkTokens := 2, chunkTokens_pos := by decide } init "a"
    (BlockHasher.adapterRequest none [1, 2, 3, 4, 5, 6]) 3
    { sampleQuery 0 true true 1 (some 7) with
      reply := fun _ => some ⟨3, some 1, [[10, 20, 30], [40, 50, 60]], some 7⟩ }
    ⟨3, some 1, [[10, 20, 30], [40, 50, 60]], some 7⟩ _ _ rfl (by decide) rfl rfl
  exact ⟨_, h.1, rfl, rfl, rfl⟩

end Sched

end CacheFlow
