import CacheFlow.Connector.Scheduler

/-!
# Incremental saves

In each step the connector emits, for a request, the chunks of its prompt that the step
completes and that neither an earlier step emitted nor a lookup found in the pool. Steps
can be of any size, a request can be preempted and go on from an earlier token, and it can
be looked up again at any time.

What has happened to a request since it got its state is its *life*, read off the trace.

## Main definitions

* `Sched.SavesOk` — saves are increasing, not premature and complete.

## Main results

* `Sched.saves_of_run` — the saves of every request are, after every run.
-/

namespace CacheFlow

open List

/-- Something that happened to a request. -/
inductive LifeEvent where
  /-- A lookup found leading chunks in the pool. -/
  | found (hits : ℕ) : LifeEvent
  /-- A step computed the prompt up to `reach` tokens, with a save or without. -/
  | step (reach : ℕ) (save : Option SaveSpec) : LifeEvent

namespace Sched

/-- The life of a request, one event on; it begins when the request gets its state. -/
def lifeStep (rid : String) (life : List LifeEvent) : SchedEvent → List LifeEvent
  | .created r => if r = rid then [] else life
  | .looked r answer => if r = rid then life ++ [.found answer.hits] else life
  | .submitted _ _ => life
  | .unsent _ => life
  | .built out md =>
    match out.items.find? fun it => it.rid = rid with
    | none => life
    | some it => life ++ [.step it.reach (md.saves.get? rid)]
  | .finished r => if r = rid then [] else life

/-- What has happened to a request since it got its state. -/
def life (c : Sched) (rid : String) : List LifeEvent := c.trace.foldl (lifeStep rid) []

/-- The saves of a life, each with how far its step computed the prompt. -/
def savesOf (life : List LifeEvent) : List (ℕ × SaveSpec) := life.filterMap fun
  | .step reach (some save) => some (reach, save)
  | _ => none

/-- A chunk has been emitted. -/
def Saved (life : List LifeEvent) (i : ℕ) : Prop :=
  ∃ p ∈ savesOf life, p.2.chunk0 ≤ i ∧ i < p.2.chunk0 + p.2.keys.length

/-- A lookup has found more chunks than `i`. -/
def FoundBeyond (life : List LifeEvent) (i : ℕ) : Prop := ∃ hits, .found hits ∈ life ∧ i < hits

/-- A step has reached token `n`. -/
def Reached (life : List LifeEvent) (n : ℕ) : Prop := ∃ reach save, .step reach save ∈ life ∧ n ≤ reach

/-- The saves of a request are in order. -/
structure SavesOk (cfg : SchedConfig) (st : ReqState) (life : List LifeEvent) : Prop where
  /-- Each begins where those before it have ended, or later. -/
  increasing : (savesOf life).Pairwise fun p q => p.2.chunk0 + p.2.keys.length ≤ q.2.chunk0
  /-- Each has only chunks that are computed when its step is done, under their own keys. -/
  computed : ∀ p ∈ savesOf life, ∀ j < p.2.keys.length,
    (p.2.chunk0 + j + 1) * cfg.chunkTokens ≤ min p.1 st.promptLen ∧
      ∃ key, p.2.keys[j]? = some key ∧ st.keys[p.2.chunk0 + j]? = some key
  /-- When the prompt is computed, every chunk has been emitted or was found in the pool. -/
  complete : cfg.enableSave = true → Reached life st.promptLen → ∀ i < st.keys.length,
    Saved life i ∨ (cfg.skipSaveIfPrefixCached = true ∧ FoundBeyond life i)

/-- What is kept along a life for that. -/
structure SavesInv (cfg : SchedConfig) (st : ReqState) (life : List LifeEvent) : Prop where
  increasing : (savesOf life).Pairwise fun p q => p.2.chunk0 + p.2.keys.length ≤ q.2.chunk0
  computed : ∀ p ∈ savesOf life, ∀ j < p.2.keys.length,
    (p.2.chunk0 + j + 1) * cfg.chunkTokens ≤ min p.1 st.promptLen ∧
      ∃ key, p.2.keys[j]? = some key ∧ st.keys[p.2.chunk0 + j]? = some key
  length_le : st.keys.length ≤ st.promptLen / cfg.chunkTokens
  upto : ∀ p ∈ savesOf life, p.2.chunk0 + p.2.keys.length ≤ st.savedUpto
  /-- The chunks below `saved_upto` have been handled. -/
  handled : ∀ i < st.savedUpto, Saved life i ∨
    (cfg.skipSaveIfPrefixCached = true ∧ FoundBeyond life i)
  hits : ∀ i < st.dpuHits, FoundBeyond life i
  /-- A step that reached the end of the prompt has handled all chunks. -/
  reached : cfg.enableSave = true → Reached life st.promptLen → st.keys.length ≤ st.savedUpto

variable {cfg : SchedConfig} {st st' : ReqState} {life : List LifeEvent}

theorem SavesInv.ok (h : SavesInv cfg st life) : SavesOk cfg st life :=
  ⟨h.increasing, h.computed, fun hsave hreach i hi =>
    h.handled i (hi.trans_le (h.reached hsave hreach))⟩

/-! ### One event -/

@[simp] theorem savesOf_append (l l' : List LifeEvent) :
    savesOf (l ++ l') = savesOf l ++ savesOf l' := filterMap_append

theorem Saved.append {i : ℕ} (h : Saved life i) (l : List LifeEvent) : Saved (life ++ l) i := by
  obtain ⟨p, hp, hi⟩ := h
  exact ⟨p, by rw [savesOf_append]; exact mem_append_left _ hp, hi⟩

theorem FoundBeyond.append {i : ℕ} (h : FoundBeyond life i) (l : List LifeEvent) :
    FoundBeyond (life ++ l) i := by
  obtain ⟨hits, hmem, hi⟩ := h
  exact ⟨hits, mem_append_left _ hmem, hi⟩

theorem SavesInv.start {promptLen : ℕ} {keys : List String}
    (hlen : keys.length ≤ promptLen / cfg.chunkTokens) :
    SavesInv cfg { promptLen := promptLen, keys := keys } [] where
  increasing := List.Pairwise.nil
  computed := fun _ hp => absurd hp not_mem_nil
  length_le := hlen
  upto := fun _ hp => absurd hp not_mem_nil
  handled := fun i hi => absurd hi (Nat.not_lt_zero i)
  hits := fun i hi => absurd hi (Nat.not_lt_zero i)
  reached := fun _ ⟨_, _, hmem, _⟩ => absurd hmem not_mem_nil

theorem SavesInv.found (h : SavesInv cfg st life) (hits : ℕ) :
    SavesInv cfg { st with dpuHits := max st.dpuHits hits } (life ++ [.found hits]) := by
  have hsaves : savesOf (life ++ [.found hits]) = savesOf life := by
    rw [savesOf_append]
    exact append_nil _
  constructor
  · rw [hsaves]; exact h.increasing
  · rw [hsaves]; exact h.computed
  · exact h.length_le
  · rw [hsaves]; exact h.upto
  · intro i hi
    rcases h.handled i hi with hsaved | ⟨hskip, hfound⟩
    · exact Or.inl (hsaved.append _)
    · exact Or.inr ⟨hskip, hfound.append _⟩
  · intro i hi
    rcases lt_max_iff.mp hi with hold | hnew
    · exact (h.hits i hold).append _
    · exact ⟨hits, mem_append_right _ mem_cons_self, hnew⟩
  · rintro hsave ⟨reach, save, hmem, hle⟩
    rcases mem_append.mp hmem with hmem | hmem
    · exact h.reached hsave ⟨reach, save, hmem, hle⟩
    · cases mem_singleton.mp hmem

theorem mul_le_of_lt_chunksUpto {tokens i : ℕ} (hi : i < chunksUpto cfg st tokens) :
    (i + 1) * cfg.chunkTokens ≤ min tokens st.promptLen :=
  (Nat.mul_le_mul_right _ (hi.trans_le (Nat.min_le_left _ _))).trans (Nat.div_mul_le_self _ _)

/-- What a save is, when there is one: the chunks from `saveStart` to `chunksUpto`. -/
theorem emitSave_eq_some {tokens : ℕ} {save : SaveSpec} (h : emitSave cfg st tokens = some save) :
    save.chunk0 = saveStart cfg st ∧ saveStart cfg st < chunksUpto cfg st tokens ∧
      save.chunk0 + save.keys.length = chunksUpto cfg st tokens ∧
      ∀ j < save.keys.length, ∃ key, save.keys[j]? = some key ∧ st.keys[save.chunk0 + j]? = some key := by
  simp only [emitSave] at h
  split_ifs at h with hoff hlt
  have hlen : chunksUpto cfg st tokens ≤ st.keys.length := Nat.min_le_right _ _
  cases h
  refine ⟨rfl, hlt, ?_, fun j hj => ?_⟩
  · show saveStart cfg st + ((st.keys.take (chunksUpto cfg st tokens)).drop (saveStart cfg st)).length =
      chunksUpto cfg st tokens
    rw [length_drop, length_take]
    omega
  · rw [length_drop, length_take] at hj
    have hj' : saveStart cfg st + j < st.keys.length := by omega
    refine ⟨st.keys[saveStart cfg st + j], ?_, List.getElem?_eq_getElem hj'⟩
    rw [List.getElem?_drop, List.getElem?_take_of_lt (by omega), List.getElem?_eq_getElem hj']

theorem mem_savesOf_step {reach : ℕ} {save : Option SaveSpec} {p : ℕ × SaveSpec} :
    p ∈ savesOf (life ++ [.step reach save]) ↔ p ∈ savesOf life ∨ ∃ s, save = some s ∧ p = (reach, s) := by
  cases save <;> simp [savesOf]

/-- A step that moves `saved_upto` on to `upto` with or without a save keeps the invariant if
the save is in its place and whatever it passes over was found. -/
theorem SavesInv.append_step (h : SavesInv cfg st life) {reach upto : ℕ} {save : Option SaveSpec}
    (hle : st.savedUpto ≤ upto)
    (hsave : ∀ s, save = some s → st.savedUpto ≤ s.chunk0 ∧ s.chunk0 + s.keys.length = upto ∧
      ∀ j < s.keys.length, (s.chunk0 + j + 1) * cfg.chunkTokens ≤ min reach st.promptLen ∧
        ∃ key, s.keys[j]? = some key ∧ st.keys[s.chunk0 + j]? = some key)
    (hpassed : ∀ i, st.savedUpto ≤ i → i < upto →
      (∃ s, save = some s ∧ s.chunk0 ≤ i) ∨ (cfg.skipSaveIfPrefixCached = true ∧ i < st.dpuHits))
    (hreach : cfg.enableSave = true → st.promptLen ≤ reach → st.keys.length ≤ upto) :
    SavesInv cfg { st with savedUpto := upto } (life ++ [.step reach save]) := by
  constructor
  · rw [savesOf_append, pairwise_append]
    refine ⟨h.increasing, by cases save <;> simp [savesOf], fun p hp q hq => ?_⟩
    obtain ⟨s, rfl, rfl⟩ : ∃ s, save = some s ∧ q = (reach, s) := by
      cases save with
      | none => exact absurd hq not_mem_nil
      | some s => exact ⟨s, rfl, mem_singleton.mp hq⟩
    exact (h.upto p hp).trans (hsave s rfl).1
  · intro p hp j hj
    rcases mem_savesOf_step.mp hp with hp | ⟨s, rfl, rfl⟩
    · exact h.computed p hp j hj
    · exact (hsave s rfl).2.2 j hj
  · exact h.length_le
  · intro p hp
    rcases mem_savesOf_step.mp hp with hp | ⟨s, rfl, rfl⟩
    · exact (h.upto p hp).trans hle
    · exact (hsave s rfl).2.1.le
  · intro i hi
    rcases Nat.lt_or_ge i st.savedUpto with hold | hnew
    · exact (h.handled i hold).imp (fun hs => hs.append _) fun hf => ⟨hf.1, hf.2.append _⟩
    · -- passed in this step: it is saved now, or a lookup has found it
      rcases hpassed i hnew hi with ⟨s, rfl, hstart⟩ | ⟨hskip, hhits⟩
      · have hend : i < s.chunk0 + s.keys.length := by
          rw [(hsave s rfl).2.1]
          exact hi
        exact Or.inl ⟨(reach, s), mem_savesOf_step.mpr (Or.inr ⟨s, rfl, rfl⟩), hstart, hend⟩
      · exact Or.inr ⟨hskip, (h.hits i hhits).append _⟩
  · exact fun i hi => (h.hits i hi).append _
  · rintro henable ⟨r, s, hmem, hr⟩
    rcases mem_append.mp hmem with hmem | hmem
    · exact (h.reached henable ⟨r, s, hmem, hr⟩).trans hle
    · cases mem_singleton.mp hmem
      exact hreach henable hr

theorem SavesInv.step (h : SavesInv cfg st life) (reach : ℕ) :
    SavesInv cfg (afterEmit cfg st reach) (life ++ [.step reach (emitSave cfg st reach)]) := by
  by_cases hoff : st.keys = [] ∨ (!cfg.enableSave) = true
  · have hnone : emitSave cfg st reach = none := if_pos hoff
    have hstate : afterEmit cfg st reach =
        { st with loadEmitted := st.loadEmitted || st.plan.isSome } := if_pos hoff
    rw [hnone, hstate]
    have hkept : SavesInv cfg { st with savedUpto := st.savedUpto } (life ++ [.step reach none]) := by
      refine h.append_step le_rfl (fun s hs => nomatch hs) (fun i hi hi' => by omega) ?_
      intro henable _
      rcases hoff with hkeys | hoff
      · rw [hkeys]
        exact Nat.zero_le _
      · simp [henable] at hoff
    exact { hkept with }
  · have hstate : afterEmit cfg st reach = { st with
        loadEmitted := st.loadEmitted || st.plan.isSome
        savedUpto := max st.savedUpto (chunksUpto cfg st reach) } := if_neg hoff
    have hstart : st.savedUpto ≤ saveStart cfg st := by
      unfold saveStart
      split_ifs
      · exact Nat.le_max_left _ _
      · exact le_rfl
    rw [hstate]
    have hmoved : SavesInv cfg { st with savedUpto := max st.savedUpto (chunksUpto cfg st reach) }
        (life ++ [.step reach (emitSave cfg st reach)]) := by
      refine h.append_step (Nat.le_max_left _ _) ?_ ?_ ?_
      · intro s hs
        obtain ⟨hchunk, hlt, hend, hkeys⟩ := emitSave_eq_some hs
        refine ⟨hchunk ▸ hstart, by omega, fun j hj => ⟨?_, hkeys j hj⟩⟩
        exact mul_le_of_lt_chunksUpto (by omega)
      · intro i hi hi'
        -- what lies before the save was found by a lookup
        have hlt : i < chunksUpto cfg st reach := by omega
        rcases Nat.lt_or_ge i (saveStart cfg st) with hbefore | hafter
        · right
          unfold saveStart at hbefore
          split_ifs at hbefore with hskip
          · exact ⟨hskip, by omega⟩
          · omega
        · left
          have hsome : emitSave cfg st reach = some ⟨(st.keys.take (chunksUpto cfg st reach)).drop
              (saveStart cfg st), saveStart cfg st, st.blockIds⟩ := by
            simp only [emitSave]
            rw [if_neg hoff, if_pos (hafter.trans_lt hlt)]
          exact ⟨_, hsome, hafter⟩
      · intro _ hle
        have hall : chunksUpto cfg st reach = st.keys.length := by
          unfold chunksUpto
          rw [Nat.min_eq_right hle, Nat.min_eq_right h.length_le]
        rw [hall]
        exact Nat.le_max_right _ _
    exact { hmoved with }

/-! ### Runs -/

variable {c : Sched}

theorem life_note (e : SchedEvent) (rid : String) : (c.note e).life rid = lifeStep rid (c.life rid) e := by
  rw [life, note, foldl_append]
  rfl

variable {c' : Sched}

theorem life_eq_of_trace {c : Sched} (h : c'.trace = c.trace) (rid : String) :
    c'.life rid = c.life rid := by
  rw [life, h, life]

theorem life_releaseLease (lease : Option ℤ) (rid : String) :
    (c.releaseLease lease).life rid = c.life rid := by
  cases lease with
  | none => rfl
  | some lease =>
    unfold releaseLease releaseAsync
    cases c.schedSession <;> exact life_note _ rid

variable (cfg) in
/-- The saves of every request the connector knows are in order. -/
def Tidy (c : Sched) : Prop := ∀ rid st, c.states.get? rid = some st →
  cfg.enabled = true ∧ SavesInv cfg st (c.life rid)

theorem Tidy.of_eq (h : c.Tidy cfg) (hstates : c'.states = c.states)
    (hlife : ∀ rid, c'.life rid = c.life rid) : c'.Tidy cfg := by
  intro rid st hst
  rw [hlife]
  exact h rid st (hstates ▸ hst)

variable {rid : String}

section

variable (h : c.Tidy cfg)
include h

theorem Tidy.set
    (hstates : c'.states = c.states.set rid st') (hlife : ∀ r, r ≠ rid → c'.life r = c.life r)
    (hst' : cfg.enabled = true ∧ SavesInv cfg st' (c'.life rid)) : c'.Tidy cfg := by
  intro r st hst
  rw [hstates, Dict.get?_set] at hst
  split_ifs at hst with hr
  · cases hst
    rw [hr]
    exact hst'
  · rw [hlife r hr]
    exact h r st hst

theorem Tidy.dropPlan (hst : c.states.get? rid = some st') : (c.dropPlan rid st').2.Tidy cfg := by
  have hlife : ∀ r, (c.dropPlan rid st').2.life r = c.life r := fun r =>
    (life_eq_of_trace rfl r).trans (life_releaseLease _ r)
  refine h.set dropPlan_states (fun r _ => hlife r) ?_
  rw [hlife]
  exact ⟨(h rid st' hst).1, { (h rid st' hst).2 with }⟩

theorem Tidy.state (henabled : cfg.enabled = true) {request : VllmRequest}
    (hstate : c.state cfg rid request = .ok (st', c')) :
    c'.Tidy cfg ∧ c'.states.get? rid = some st' := by
  rcases state_cases hstate with ⟨hget, rfl⟩ | ⟨-, keys, hkeys, hst, rfl⟩
  · exact ⟨h, hget⟩
  · refine ⟨h.set rfl (fun r hr => ?_) ⟨henabled, ?_⟩, Dict.get?_set_self _ _ _⟩
    · rw [life_note]
      exact if_neg (Ne.symm hr)
    · have hlife : ((c.put rid st').note (.created rid)).life rid = [] := by
        rw [life_note]
        exact if_pos rfl
      rw [hlife, hst]
      apply SavesInv.start
      rw [length_chunkKeys hkeys]
      exact Nat.min_le_right _ _

theorem Tidy.answered {n : ℕ} {r : LookupAnswer}
    {now : ℚ} (hst : c.states.get? rid = some st') : (c.answered cfg rid st' n r now).2.Tidy cfg := by
  obtain ⟨henabled, hinv⟩ := h rid st' hst
  have hother : ∀ q, q ≠ rid → (c.note (.looked rid r)).life q = c.life q := by
    intro q hq
    rw [life_note]
    exact if_neg (Ne.symm hq)
  have hself : (c.note (.looked rid r)).life rid = c.life rid ++ [.found r.hits] := by
    rw [life_note]
    exact if_pos rfl
  have hfound := hinv.found r.hits
  rw [← hself] at hfound
  -- whatever becomes of the plan, the hits are noted
  have hput : ∀ st'', SavesInv cfg st'' ((c.note (.looked rid r)).life rid) →
      ((c.note (.looked rid r)).put rid st'').Tidy cfg :=
    fun st'' h'' => h.set rfl hother ⟨henabled, h''⟩
  unfold Sched.answered
  dsimp only
  generalize min ((if cfg.enableLoad then r.hits else 0) * cfg.chunkTokens) (st'.promptLen - 1) = loadable
  split_ifs
  · exact (hput _ hfound).of_eq (releaseLease_states _) (life_releaseLease _)
  · cases r.rkey with
    | none => exact hput _ hfound
    | some rkey => exact hput _ { hfound with }

theorem Tidy.query (rid : String) (request : VllmRequest) (n : ℕ) (env : QueryEnv) :
    (c.getNumNewMatchedTokens cfg rid request n env).2.Tidy cfg := by
  rcases @query_cases cfg c rid request n env with hc | ⟨henabled, st, c₁, hstate, hrest⟩
  · rwa [hc]
  obtain ⟨h₁, hget⟩ := h.state henabled hstate
  rcases hrest with hc | ⟨c₂, rfl, hrest⟩
  · rwa [hc]
  obtain ⟨hstates, htrace, -⟩ := @session_spec (c₁.dropPlan rid st).2 env
  have h₂ := (h₁.dropPlan hget).of_eq hstates (life_eq_of_trace htrace)
  rcases hrest with hc | ⟨r, -, -, hc⟩
  · rwa [hc]
  · rw [hc]
    exact h₂.answered (get?_session_dropPlan env)

theorem Tidy.alloc (rid : String) (n : ℕ) : (c.updateStateAfterAlloc rid n).Tidy cfg := by
  unfold updateStateAfterAlloc
  cases hget : c.states.get? rid with
  | none => exact h
  | some st =>
    dsimp only
    split_ifs
    · exact h.dropPlan hget
    · exact h

theorem Tidy.build (out : SchedulerOutput) : (c.buildConnectorMeta cfg out).2.Tidy cfg := by
  unfold buildConnectorMeta
  split_ifs with henabled
  · -- a connector that is not enabled knows no requests
    intro rid st hst
    have htrue := (h rid st hst).1
    simp [htrue] at henabled
  · intro rid st' hst'
    have htrace := @emitItems_trace cfg out.items (c, ⟨∅, ∅⟩)
    obtain ⟨hitem, hother⟩ := @emitItems_get? cfg out.items (c, ⟨∅, ∅⟩) (nodup_items out) rid
    generalize out.items.foldl (emitItem cfg) (c, ⟨∅, ∅⟩) = cm at htrace hitem hother hst' ⊢
    rw [note_states] at hst'
    rw [life_note, life_eq_of_trace htrace, lifeStep]
    cases hfind : out.items.find? fun it => it.rid = rid with
    | none =>
      have hnone : ∀ it ∈ out.items, it.rid ≠ rid := by simpa using hfind
      rw [(hother hnone).1] at hst'
      exact h rid st' hst'
    | some it =>
      have hrid : it.rid = rid := by simpa using List.find?_some hfind
      obtain ⟨hstate, hsave⟩ := hitem it (mem_of_find?_eq_some hfind) hrid
      rw [hstate] at hst'
      obtain ⟨st, hst, rfl⟩ := Option.map_eq_some_iff.mp hst'
      obtain ⟨henabled, hinv⟩ := h rid st hst
      have hblocked : SavesInv cfg (it.blocked st) (c.life rid) := { hinv with }
      rw [hst, Option.bind_some, Dict.get?_empty, Option.or_none] at hsave
      rw [hsave]
      exact ⟨henabled, hblocked.step it.reach⟩

theorem Tidy.finish (rid : String) : (c.requestFinished rid).Tidy cfg := by
  have hother : ∀ {d : Sched} {r : String}, r ≠ rid → (d.note (.finished rid)).life r = d.life r := by
    intro d r hr
    rw [life_note]
    exact if_neg (Ne.symm hr)
  unfold requestFinished
  intro r st' hst'
  cases hget : c.states.get? rid with
  | none =>
    rw [hget] at hst'
    have hne : r ≠ rid := by
      rintro rfl
      rw [note_states, hget] at hst'
      cases hst'
    rw [hother hne]
    exact h r st' hst'
  | some st =>
    rw [hget] at hst'
    rw [note_states, releaseLease_states, Dict.get?_erase] at hst'
    split_ifs at hst' with hne
    rw [hother hne, life_releaseLease]
    exact h r st' hst'

theorem Tidy.call (k : SchedCall) : (c.call cfg k).Tidy cfg := by
  cases k with
  | query rid request n env => exact h.query rid request n env
  | alloc rid n => exact h.alloc rid n
  | build out => exact h.build out
  | finish rid => exact h.finish rid

end

/-- **The saves of a request.** After any calls, the saves emitted for a request since it got its
state are increasing and hold only chunks computed when their step is done, each under its own key;
once a step has reached the end of the prompt, every chunk has been emitted or, if such chunks are
skipped, was found in the pool. -/
theorem saves_of_run (cfg : SchedConfig) (calls : List SchedCall) (rid : String) (st : ReqState)
    (hst : (run cfg calls).states.get? rid = some st) :
    SavesOk cfg st ((run cfg calls).life rid) := by
  have htidy : (run cfg calls).Tidy cfg := by
    apply foldl_invariant
    · exact fun k _ _ h => h.call k
    · exact fun rid st h => nomatch h
  exact (htidy rid st hst).2.ok

theorem saves_of_two_chunks : ∃ st, (run sampleSchedConfig sampleCalls).states.get? "a" = some st ∧
    st.keys.length = 2 ∧ Reached ((run sampleSchedConfig sampleCalls).life "a") st.promptLen ∧
    (Saved ((run sampleSchedConfig sampleCalls).life "a") 1 ∨
      sampleSchedConfig.skipSaveIfPrefixCached = true ∧
        FoundBeyond ((run sampleSchedConfig sampleCalls).life "a") 1) := by
  have hreached : Reached ((run sampleSchedConfig sampleCalls).life "a") 2 :=
    ⟨2, _, mem_cons_of_mem _ mem_cons_self, le_rfl⟩
  refine ⟨_, rfl, rfl, hreached, ?_⟩
  exact (saves_of_run sampleSchedConfig sampleCalls "a" _ rfl).complete rfl hreached 1 (by decide)

end Sched

end CacheFlow
