import CacheFlow.Lib.Steps
import CacheFlow.Vllm.RequestOutput

/-!
# Constrained decoding after reasoning

A request with structured output is constrained by a grammar. With a reasoning parser the grammar
starts after the reasoning, whose end is marked by one token. In each step the scheduler asks
`should_advance` whether the new tokens go to the grammar. While the reasoning has not ended it
looks for the mark among the last tokens, those from the number of computed tokens on, and if it is
there, this step's tokens do not go to the grammar, but those of the next step do.

A step with accepted draft tokens has several new tokens, and all but the last of them are computed.
So only the last one is looked at; and the tokens after the mark in the same step are lost.

## Main definitions

* `Structured.Covered` — the grammar has got what it should.

## Main results

* `Structured.always_covered_iff` — exactly if the mark is the last token of its step.
-/

namespace CacheFlow.Vllm

open List Option Steps Scheduler CacheFlow.Vllm.Request

/-! ### The code -/

/-- `BaseThinkingReasoningParser`. -/
structure ThinkingParser where
  startTokenId : ℤ
  endTokenId : ℤ
  deriving DecidableEq, Repr

namespace ThinkingParser

/-- `is_reasoning_end`: the last of the two marks is the end. -/
def isReasoningEnd (p : ThinkingParser) (ids : List ℤ) : Bool :=
  match ids.reverse.find? fun t => t = p.startTokenId || t = p.endTokenId with
  | none => false
  | some t => t ≠ p.startTokenId

/-- `is_reasoning_end_streaming`. -/
def isReasoningEndStreaming (p : ThinkingParser) (delta : List ℤ) : Bool := p.endTokenId ∈ delta

end ThinkingParser

/-- `StructuredOutputManager`. -/
structure StructuredOutputManager where
  reasoner : Option ThinkingParser
  enableInReasoning : Bool
  deriving DecidableEq, Repr

/-- A request with its `StructuredOutputRequest`. -/
structure Structured where
  request : Request
  reasoningEnded : Option Bool
  /-- The tokens given to `grammar.accept_tokens`. -/
  accepted : List ℤ
  deriving DecidableEq, Repr

/-- `use_structured_output`. -/
def Request.useStructuredOutput (r : Request) : Bool :=
  r.samplingParams.any SamplingParams.structuredOutputs

/-- `all_token_ids[delta_from:]` of `should_advance`. -/
def Request.deltaTokenIds (r : Request) : List ℤ :=
  r.allTokenIds.drop
    (sliceEnd r.numTokens (r.numComputedTokens - r.numOutputPlaceholders))

namespace StructuredOutputManager

/-- `should_fill_bitmask`. -/
def shouldFillBitmask (m : StructuredOutputManager) (s : Structured) : Bool × Structured :=
  match m.reasoner with
  | none => (true, s)
  | some p =>
    if m.enableInReasoning then (true, s)
    else
      let ended := s.reasoningEnded.getD (p.isReasoningEnd s.request.promptTokenIds)
      (ended, { s with reasoningEnded := some ended })

/-- `should_advance`. -/
def shouldAdvance (m : StructuredOutputManager) (s : Structured) : Bool × Structured :=
  if s.request.useStructuredOutput = false then (false, s)
  else
    match m.reasoner with
    | none => (true, s)
    | some p =>
      if m.enableInReasoning then (true, s)
      else if s.reasoningEnded = some true then (true, s)
      else if p.isReasoningEndStreaming s.request.deltaTokenIds then
        (false, { s with reasoningEnded := some true })
      else (false, s)

/-- The part of `update_from_output` for one request: rejected drafts, new tokens, the grammar. -/
def update (m : StructuredOutputManager) (hasher : Option ℕ) (maxModelLen : ℕ)
    (drafts generated : List ℤ) (s : Structured) : Except VllmErr Structured := do
  let r := rejectDrafts drafts generated s.request
  let ((newTokenIds, _), r) ← r.updateWithOutput hasher maxModelLen generated
  let s := { s with request := r }
  if newTokenIds = [] then pure s
  else
    let (advance, s) := m.shouldAdvance s
    if advance then pure { s with accepted := s.accepted ++ newTokenIds } else pure s

end StructuredOutputManager

namespace Structured

/-- What happens to a request that runs. -/
inductive Event where
  /-- The bitmask of the step is filled. -/
  | fill
  | preempt
  /-- A step: so many tokens are scheduled, these drafts among them, and these tokens come out. -/
  | step (numScheduled : ℕ) (drafts generated : List ℤ)
  deriving DecidableEq, Repr

/-- The step of a synchronous scheduler: part of a prompt, without output; or all tokens and drafts
are computed, and accepted drafts and one more token come out. -/
def Fits (r : Request) (numScheduled : ℕ) (drafts generated : List ℤ) : Prop :=
  (drafts = [] ∧ generated = []) ∨
    (r.numComputedTokens + numScheduled = r.numTokens + drafts.length ∧
      1 ≤ generated.length ∧ generated.length ≤ drafts.length + 1)

instance (r : Request) (n : ℕ) (drafts generated : List ℤ) :
    Decidable (Fits r n drafts generated) := by unfold Fits; infer_instance

/-- One event, of a request that is not resumable: one that stops goes on to the grammar as it is, as
`_handle_stopped_request` leaves it alone. -/
def next (m : StructuredOutputManager) (hasher : Option ℕ) (maxModelLen : ℕ) (s : Structured) :
    Event → Option Structured
  | .fill => some (m.shouldFillBitmask s).2
  | .preempt => some { s with request := s.request.preempted }
  | .step numScheduled drafts generated =>
    if s.request.isFinished = false ∧ s.request.resumable = false ∧
        Fits s.request numScheduled drafts generated then
      let r := { s.request with
        numComputedTokens := s.request.numComputedTokens + numScheduled }
      (m.update hasher maxModelLen drafts generated { s with request := r }).toOption
    else none

/-! ### What the grammar should get -/

/-- The tokens after the first mark. -/
def afterMark (mark : ℤ) (tokens : List ℤ) : List ℤ := (tokens.dropWhile (· ≠ mark)).tail

/-- The grammar has got exactly the tokens after the first mark, and the reasoning has ended if and
only if there is one. -/
def Covered (p : ThinkingParser) (s : Structured) : Prop :=
  s.accepted = afterMark p.endTokenId s.request.outputTokenIds ∧
    (s.reasoningEnded = some true ↔ p.endTokenId ∈ s.request.outputTokenIds)

/-- The tokens that a request emits in a step: the generated ones up to a stop. -/
def emitted (hasher : Option ℕ) (maxModelLen : ℕ) (r : Request) (generated : List ℤ) : List ℤ :=
  ((r.updateWithOutput hasher maxModelLen generated).toOption.map (·.1.1)).getD []

/-- If the mark is emitted, for the first time, it is the last token that was generated. -/
def MarkLast (p : ThinkingParser) (hasher : Option ℕ) (maxModelLen : ℕ) (s : Structured) :
    Event → Prop
  | .step _ _ generated =>
    p.endTokenId ∉ s.request.outputTokenIds →
      p.endTokenId ∉ emitted hasher maxModelLen s.request generated ∨
        (emitted hasher maxModelLen s.request generated = generated ∧
          p.endTokenId ∉ generated.dropLast)
  | _ => True

/-! ### Tokens after a mark -/

section Mark

variable {mark : ℤ} {l l' : List ℤ}

theorem afterMark_of_not_mem (h : mark ∉ l) : afterMark mark l = [] := by
  have hnil : l.dropWhile (· ≠ mark) = [] := by
    rw [dropWhile_eq_nil_iff]
    intro t ht
    simpa using fun heq : t = mark => h (heq ▸ ht)
  rw [afterMark, hnil, tail_nil]

theorem afterMark_append_of_not_mem (h : mark ∉ l) :
    afterMark mark (l ++ l') = afterMark mark l' := by
  have hall : ∀ t ∈ l, (decide (t ≠ mark)) = true := fun t ht => by
    simpa using fun heq : t = mark => h (heq ▸ ht)
  rw [afterMark, dropWhile_append_of_pos hall, afterMark]

theorem afterMark_append_of_mem (h : mark ∈ l) :
    afterMark mark (l ++ l') = afterMark mark l ++ l' := by
  induction l with
  | nil => exact absurd h not_mem_nil
  | cons t l ih =>
    by_cases ht : t = mark
    · subst ht
      simp [afterMark]
    · have hmem : mark ∈ l := (mem_cons.mp h).resolve_left (Ne.symm ht)
      simpa [afterMark, ht] using ih hmem

/-- Nothing follows the first mark just if it is the last token. -/
theorem afterMark_eq_nil_iff (h : mark ∈ l) : afterMark mark l = [] ↔ mark ∉ l.dropLast := by
  rcases eq_nil_or_concat l with rfl | ⟨l₁, t, rfl⟩
  · exact absurd h not_mem_nil
  · rw [concat_eq_append, dropLast_concat]
    by_cases hmem : mark ∈ l₁
    · rw [afterMark_append_of_mem hmem]
      simp [hmem]
    · rw [afterMark_append_of_not_mem hmem]
      have ht : t = mark := by simpa [hmem, eq_comm] using h
      simp [ht, afterMark, hmem]

/-- What is looked at of the new tokens: the last of the generated ones, if it was emitted. -/
theorem mem_drop_iff {new generated : List ℤ} (hnew : new <+: generated) (hne : generated ≠ []) :
    mark ∈ new.drop (generated.length - 1) ↔ new = generated ∧ generated.getLast? = some mark := by
  obtain ⟨l₁, t, rfl⟩ := (eq_nil_or_concat generated).resolve_left hne
  rw [concat_eq_append] at hnew ⊢
  have hlen : (l₁ ++ [t]).length - 1 = l₁.length := by simp
  rw [hlen, List.getLast?_concat]
  rcases prefix_concat_iff.mp hnew with rfl | hshort
  · rw [drop_left, mem_singleton, some_inj, eq_comm]
    exact (and_iff_right rfl).symm
  · have hnil : new.drop l₁.length = [] := drop_eq_nil_of_le hshort.length_le
    rw [hnil]
    refine iff_of_false not_mem_nil ?_
    rintro ⟨rfl, -⟩
    have hle := hshort.length_le
    rw [length_append, length_singleton] at hle
    omega

end Mark

/-! ### One event -/

/-- The state of a request in which the grammar has got what it should. -/
structure Thinking (p : ThinkingParser) (s : Structured) : Prop where
  covered : s.Covered p
  uses : s.request.useStructuredOutput = true
  prompt : p.isReasoningEnd s.request.promptTokenIds = false
  placeholders : s.request.numOutputPlaceholders = 0

variable {p : ThinkingParser} {hasher : Option ℕ} {maxModelLen : ℕ} {s s' : Structured}

theorem Thinking.fill (h : Thinking p s) :
    Thinking p (StructuredOutputManager.shouldFillBitmask ⟨some p, false⟩ s).2 := by
  refine { h with covered := ⟨h.covered.1, ?_⟩ }
  show some (s.reasoningEnded.getD (p.isReasoningEnd s.request.promptTokenIds)) = some true ↔
    p.endTokenId ∈ s.request.outputTokenIds
  rw [h.prompt, ← h.covered.2]
  cases s.reasoningEnded with
  | none => simp
  | some b => simp

/-- Rejected drafts: what counts as computed is all but the last of the generated tokens. -/
theorem numComputedTokens_rejectDrafts {r : Request} {n : ℕ} {drafts generated : List ℤ}
    (hfits : Fits r n drafts generated) (hne : generated ≠ []) :
    (rejectDrafts drafts generated
      { r with numComputedTokens := r.numComputedTokens + n }).numComputedTokens =
        r.numTokens + (generated.length - 1 : ℕ) := by
  rcases hfits with ⟨-, hnil⟩ | ⟨hsum, hpos, hle⟩
  · exact absurd hnil hne
  · unfold rejectDrafts
    split
    · rename_i hdrafts
      rw [hdrafts, length_nil] at hsum hle
      dsimp only
      omega
    · rename_i hdrafts
      have hdraft := length_pos_of_ne_nil hdrafts
      dsimp only
      omega

theorem numOutputPlaceholders_rejectDrafts {r : Request} (drafts generated : List ℤ)
    (hplaces : r.numOutputPlaceholders = 0) :
    (rejectDrafts drafts generated r).numOutputPlaceholders = 0 := by
  unfold rejectDrafts
  split
  · exact hplaces
  · dsimp only
    rw [hplaces, if_neg (lt_irrefl 0)]

/-- The request after a step, with the generated tokens and those that it emits. -/
structure Emits (r : Request) (generated new : List ℤ) (r' : Request) : Prop where
  sub : new <+: generated
  outputs : r'.outputTokenIds = r.outputTokenIds ++ new
  all : r'.allTokenIds = r.allTokenIds ++ new
  sampling : r'.samplingParams = r.samplingParams
  prompt : r'.promptTokenIds = r.promptTokenIds
  placeholders : r'.numOutputPlaceholders = 0
  /-- All generated tokens but the last are computed. -/
  computed : generated ≠ [] → r'.numComputedTokens = r.numTokens + (generated.length - 1 : ℕ)

/-- The end of a step: the new tokens go to the grammar, or not. -/
def absorb (m : StructuredOutputManager) (new : List ℤ) (s : Structured) : Structured :=
  if new = [] then s
  else if (m.shouldAdvance s).1 then
    { (m.shouldAdvance s).2 with accepted := (m.shouldAdvance s).2.accepted ++ new }
  else (m.shouldAdvance s).2

/-- An update is the output of the request, and the end of the step. -/
theorem update_eq (m : StructuredOutputManager) (drafts generated : List ℤ) (s : Structured) :
    m.update hasher maxModelLen drafts generated s =
      ((rejectDrafts drafts generated s.request).updateWithOutput hasher maxModelLen
        generated).map fun x => absorb m x.1.1 { s with request := x.2 } := by
  unfold StructuredOutputManager.update absorb
  dsimp only
  cases (rejectDrafts drafts generated s.request).updateWithOutput hasher maxModelLen
      generated with
  | error e => rfl
  | ok x =>
    show (if x.1.1 = [] then _ else if _ then _ else _) = Except.ok (if x.1.1 = [] then _ else _)
    rw [apply_ite Except.ok, apply_ite Except.ok]
    rfl

/-- A step is what it emits, and the end of it. -/
theorem next_step {m : StructuredOutputManager} {n : ℕ} {drafts generated : List ℤ}
    (hplaces : s.request.numOutputPlaceholders = 0)
    (hstep : s.next m hasher maxModelLen (.step n drafts generated) = some s') : ∃ r,
    Emits s.request generated (emitted hasher maxModelLen s.request generated) r ∧
      s' = absorb m (emitted hasher maxModelLen s.request generated) { s with request := r } := by
  unfold next at hstep
  dsimp only at hstep
  split at hstep
  · rename_i hfits
    have hcomputed := numComputedTokens_rejectDrafts hfits.2.2
    have hplaces' : (rejectDrafts drafts generated { s.request with
        numComputedTokens := s.request.numComputedTokens + n }).numOutputPlaceholders = 0 :=
      numOutputPlaceholders_rejectDrafts drafts generated hplaces
    obtain ⟨computed, places, hreject⟩ := rejectDrafts_eq drafts generated
      { s.request with numComputedTokens := s.request.numComputedTokens + n }
    -- the counts do not matter for what is emitted
    replace hreject : _ = s.request.recounted computed s.request.numExternalComputedTokens places :=
      hreject
    rw [hreject] at hcomputed hplaces'
    rw [update_eq, hreject, updateWithOutput_recounted] at hstep
    unfold emitted
    cases hout : s.request.updateWithOutput hasher maxModelLen generated with
    | error e =>
      rw [hout] at hstep
      exact absurd hstep nofun
    | ok x =>
      obtain ⟨status, blocks, hr, hsub, -, -⟩ := updateWithOutput_ensures _ _ _ hout
      rw [hout] at hstep
      refine ⟨_, ?_, (some_inj.mp hstep).symm⟩
      dsimp only
      rw [hr]
      exact ⟨hsub, rfl, rfl, rfl, rfl, hplaces', hcomputed⟩
  · exact absurd hstep nofun

/-- What `should_advance` looks at: the new tokens from the last of the generated ones on. -/
theorem Emits.delta {r r' : Request} {generated new : List ℤ} (h : Emits r generated new r')
    (hne : generated ≠ []) : r'.deltaTokenIds = new.drop (generated.length - 1) := by
  have hfrom : r'.numComputedTokens - r'.numOutputPlaceholders
      = ((r.numTokens + (generated.length - 1) : ℕ) : ℤ) := by
    rw [h.computed hne, h.placeholders]
    push_cast
    ring
  unfold deltaTokenIds
  rw [hfrom, sliceEnd, if_pos (Int.natCast_nonneg _), Int.toNat_natCast, h.all,
    numTokens, ← drop_drop, drop_left]

theorem request_shouldAdvance (m : StructuredOutputManager) (s : Structured) :
    (m.shouldAdvance s).2.request = s.request := by
  unfold StructuredOutputManager.shouldAdvance
  repeat' split
  all_goals rfl

theorem request_absorb (m : StructuredOutputManager) (new : List ℤ) (s : Structured) :
    (absorb m new s).request = s.request := by
  unfold absorb
  repeat' split
  all_goals first | rfl | exact request_shouldAdvance m s

/-- A mark that does not stand before the last token is the last token. -/
theorem getLast?_eq_of_not_mem_dropLast {mark : ℤ} {l : List ℤ} (h : mark ∈ l)
    (hnot : mark ∉ l.dropLast) : l.getLast? = some mark := by
  rcases eq_nil_or_concat l with rfl | ⟨l₁, t, rfl⟩
  · exact absurd h not_mem_nil
  · rw [concat_eq_append] at h hnot ⊢
    rw [dropLast_concat] at hnot
    have ht : t = mark := by simpa [hnot, eq_comm] using h
    rw [List.getLast?_concat, ht]

/-- **One step.** The grammar has what it should just if a first mark among the emitted tokens is
the last one that was generated. -/
theorem Thinking.covered_absorb_iff {generated new : List ℤ} {r : Request} (h : Thinking p s)
    (he : Emits s.request generated new r) :
    (absorb ⟨some p, false⟩ new { s with request := r }).Covered p ↔
      (p.endTokenId ∉ s.request.outputTokenIds →
        p.endTokenId ∉ new ∨ (new = generated ∧ p.endTokenId ∉ generated.dropLast)) := by
  obtain ⟨haccepted, hended⟩ := h.covered
  have huses : r.useStructuredOutput = true := by
    rw [useStructuredOutput, he.sampling]
    exact h.uses
  by_cases hnew : new = []
  · refine iff_of_true ?_ fun _ => Or.inl (by rw [hnew]; exact not_mem_nil)
    have houts := he.outputs
    rw [hnew, append_nil] at houts
    rw [absorb, if_pos hnew, Covered, houts]
    exact h.covered
  have hne : generated ≠ [] := by
    rintro rfl
    exact hnew (prefix_nil.mp he.sub)
  by_cases hmem : p.endTokenId ∈ s.request.outputTokenIds
  · -- the reasoning has ended before, and the new tokens go to the grammar
    refine iff_of_true ?_ fun hnot => absurd hmem hnot
    have hadvance : StructuredOutputManager.shouldAdvance ⟨some p, false⟩ { s with request := r }
        = (true, { s with request := r }) := by
      simp [StructuredOutputManager.shouldAdvance, huses, hended.mpr hmem]
    rw [absorb, if_neg hnew, hadvance, if_pos rfl]
    refine ⟨?_, ?_⟩
    · show s.accepted ++ new = afterMark p.endTokenId r.outputTokenIds
      rw [he.outputs, afterMark_append_of_mem hmem, haccepted]
    · show s.reasoningEnded = some true ↔ p.endTokenId ∈ r.outputTokenIds
      rw [he.outputs]
      exact iff_of_true (hended.mpr hmem) (mem_append_left _ hmem)
  · have hgoing : s.reasoningEnded ≠ some true := fun heq => hmem (hended.mp heq)
    have hnone : s.accepted = [] := haccepted.trans (afterMark_of_not_mem hmem)
    have hafter : afterMark p.endTokenId r.outputTokenIds = afterMark p.endTokenId new := by
      rw [he.outputs, afterMark_append_of_not_mem hmem]
    have hmark : p.endTokenId ∈ r.outputTokenIds ↔ p.endTokenId ∈ new := by
      simp [he.outputs, hmem]
    have hadvance : StructuredOutputManager.shouldAdvance ⟨some p, false⟩ { s with request := r }
        = (false, { s with request := r, reasoningEnded :=
            if p.endTokenId ∈ r.deltaTokenIds then some true else s.reasoningEnded }) := by
      by_cases hseen : p.endTokenId ∈ r.deltaTokenIds <;>
        simp [StructuredOutputManager.shouldAdvance, huses, hgoing,
          ThinkingParser.isReasoningEndStreaming, hseen]
    rw [absorb, if_neg hnew, hadvance, if_neg Bool.false_ne_true, forall_prop_of_true hmem]
    show s.accepted = afterMark _ r.outputTokenIds ∧ ((if _ then _ else _) = some true ↔ _) ↔ _
    rw [hafter, hnone, hmark]
    by_cases hseen : p.endTokenId ∈ r.deltaTokenIds
    · -- the mark is found, and this step's tokens are kept from the grammar
      rw [if_pos hseen]
      rw [he.delta hne] at hseen
      obtain ⟨rfl, hlast⟩ := (mem_drop_iff he.sub hne).mp hseen
      have hin : p.endTokenId ∈ new := mem_of_getLast? hlast
      rw [eq_comm, afterMark_eq_nil_iff hin]
      simp [hin]
    · -- it is not found, and must not be there
      rw [if_neg hseen]
      rw [he.delta hne, mem_drop_iff he.sub hne] at hseen
      constructor
      · rintro ⟨-, hiff⟩
        exact Or.inl fun hin => hgoing (hiff.mpr hin)
      · intro hcond
        have hnot : p.endTokenId ∉ new := by
          rcases hcond with hnot | ⟨rfl, hnot⟩
          · exact hnot
          · exact fun hin => hseen ⟨rfl, getLast?_eq_of_not_mem_dropLast hin hnot⟩
        exact ⟨(afterMark_of_not_mem hnot).symm, iff_of_false hgoing hnot⟩

/-- One event, from a state in which the grammar has what it should. -/
theorem Thinking.step {ev : Event} (h : Thinking p s)
    (hstep : s.next ⟨some p, false⟩ hasher maxModelLen ev = some s') :
    (s'.Covered p → MarkLast p hasher maxModelLen s ev) ∧
      (MarkLast p hasher maxModelLen s ev → Thinking p s') := by
  cases ev with
  | fill =>
    obtain rfl : _ = s' := some_inj.mp hstep
    exact ⟨fun _ => trivial, fun _ => h.fill⟩
  | preempt =>
    obtain rfl : _ = s' := some_inj.mp hstep
    exact ⟨fun _ => trivial, fun _ => { h with }⟩
  | step n drafts generated =>
    obtain ⟨r, he, rfl⟩ := next_step h.placeholders hstep
    have hiff := h.covered_absorb_iff he
    refine ⟨hiff.mp, fun hmark => ⟨hiff.mpr hmark, ?_, ?_, ?_⟩⟩
    · rw [request_absorb, useStructuredOutput, he.sampling]
      exact h.uses
    · rw [request_absorb, he.prompt]
      exact h.prompt
    · rw [request_absorb]
      exact he.placeholders

/-! ### Whole runs -/

/-- **Constrained decoding covers everything after the reasoning**, in every state of a run, if and
only if in each step the first mark among the emitted tokens, if there is one, is the last token
that was generated. -/
theorem always_covered_iff (p : ThinkingParser) (hasher : Option ℕ) (maxModelLen : ℕ) (r : Request)
    (es : List Event) (t : Structured) (huses : r.useStructuredOutput = true)
    (hprompt : p.isReasoningEnd r.promptTokenIds = false) (hout : r.outputTokenIds = [])
    (hplaces : r.numOutputPlaceholders = 0)
    (hrun : run (next ⟨some p, false⟩ hasher maxModelLen) ⟨r, none, []⟩ es = some t) :
    Always (next ⟨some p, false⟩ hasher maxModelLen) (Covered p) ⟨r, none, []⟩ es ↔
      Each (next ⟨some p, false⟩ hasher maxModelLen) (MarkLast p hasher maxModelLen)
        ⟨r, none, []⟩ es := by
  have hfirst : Thinking p ⟨r, none, []⟩ := by
    refine ⟨⟨?_, ?_⟩, huses, hprompt, hplaces⟩
    · show [] = afterMark p.endTokenId r.outputTokenIds
      rw [hout]
      rfl
    · show none = some true ↔ p.endTokenId ∈ r.outputTokenIds
      rw [hout]
      exact iff_of_false nofun not_mem_nil
  exact (always_iff_each hfirst (fun _ h => h.covered) (fun _ _ _ h hstep => h.step hstep)
    hrun).1

instance (p : ThinkingParser) (hasher : Option ℕ) (maxModelLen : ℕ) (s : Structured) (ev : Event) :
    Decidable (MarkLast p hasher maxModelLen s ev) := by
  cases ev <;> unfold MarkLast <;> infer_instance

/-- A parser with its two marks. -/
def thinkParser : ThinkingParser := ⟨100, 200⟩

/-- A request whose prompt opens the reasoning. -/
def thinkRequest : Request where
  requestId := "a"
  samplingParams := some { maxTokens := 16, structuredOutputs := true }
  maxTokens := 16
  status := .running
  promptTokenIds := [1, 2, 100]
  numPromptTokens := 3
  allTokenIds := [1, 2, 100]

/-- The mark comes as the last of two tokens, and the next two tokens go to the grammar. -/
def markLastEvents : List Event :=
  [.fill, .step 3 [] [5], .step 3 [6, 7] [6, 200], .fill, .step 2 [8] [8, 9]]

theorem always_covered_markLast :
    Always (next ⟨some thinkParser, false⟩ none 64) (Covered thinkParser)
      ⟨thinkRequest, none, []⟩ markLastEvents := by
  have hrun : (run (next ⟨some thinkParser, false⟩ none 64) ⟨thinkRequest, none, []⟩
      markLastEvents).isSome = true := by decide +kernel
  obtain ⟨t, ht⟩ := isSome_iff_exists.mp hrun
  exact (always_covered_iff thinkParser none 64 thinkRequest markLastEvents t rfl (by decide) rfl
    rfl ht).mpr (by decide +kernel)

/-- A draft of the mark is accepted, and one more token comes with it: the end of the reasoning is
not seen, and the grammar never gets a token. -/
theorem not_always_covered_markDrafted :
    ¬ ∀ (p : ThinkingParser) (hasher : Option ℕ) (maxModelLen : ℕ) (r : Request) (es : List Event)
      (t : Structured), r.useStructuredOutput = true → p.isReasoningEnd r.promptTokenIds = false →
      r.outputTokenIds = [] → r.numOutputPlaceholders = 0 →
      run (next ⟨some p, false⟩ hasher maxModelLen) ⟨r, none, []⟩ es = some t →
      Always (next ⟨some p, false⟩ hasher maxModelLen) (Covered p) ⟨r, none, []⟩ es := by
  intro h
  have hrun : (run (next ⟨some thinkParser, false⟩ none 64) ⟨thinkRequest, none, []⟩
      [.step 3 [] [5], .step 2 [200] [200, 7]]).any
        (fun t => t.request.outputTokenIds = [5, 200, 7] ∧ t.reasoningEnded = none) = true := by
    decide +kernel
  obtain ⟨t, ht, hseen⟩ := (any_eq_true _ _).mp hrun
  obtain ⟨houts, hended⟩ := of_decide_eq_true hseen
  have hcovered := h thinkParser none 64 thinkRequest _ t rfl (by decide) rfl rfl ht _ [] t
    (append_nil _).symm ht
  have hmark := hcovered.2
  rw [houts, hended] at hmark
  exact absurd (hmark.mpr (by decide)) nofun

end Structured

end CacheFlow.Vllm
