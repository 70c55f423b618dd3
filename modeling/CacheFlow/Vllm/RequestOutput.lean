import CacheFlow.Vllm.Request

/-!
# What output does to a request

`_update_request_with_output` appends the sampled tokens one by one and stops at the first that
ends the request. Which tokens it takes does not depend on the counts of the request, so it does
not matter that rejected draft tokens have been taken off them before.

## Main results

* `Request.updateWithOutput_ensures` — what output changes.
* `Request.updateWithOutput_recounted` — it does not look at the counts.
-/

namespace CacheFlow.Vllm

namespace Request

/-- Output changes the tokens and the hashes of a request, and its status if it stops. -/
theorem updateWithOutput_ensures {hasher : Option ℕ} {maxModelLen : ℕ} (tokens : List ℤ)
    (r : Request) :
    Ensures (r.updateWithOutput hasher maxModelLen tokens) fun x =>
      ∃ status blocks, x.2 = { r with
          outputTokenIds := r.outputTokenIds ++ x.1.1
          allTokenIds := r.allTokenIds ++ x.1.1
          hashedBlocks := blocks
          status := status } ∧
        x.1.1 <+: tokens ∧ (x.1.2 = false → status = r.status ∧ x.1.1 = tokens) ∧
        (x.1.2 = true → status.isFinished = true) := by
  induction tokens generalizing r with
  | nil =>
    refine ensures_ok.mpr ⟨r.status, r.hashedBlocks, ?_, List.nil_prefix, fun _ => ⟨rfl, rfl⟩, ?_⟩
    · simp only [List.append_nil]
    · exact fun h => by cases h
  | cons token tokens ih =>
    rw [updateWithOutput, ensures_bind]
    refine (checkStop_ensures maxModelLen _).mono ?_
    rintro ⟨stopped, r'⟩ (⟨hgoes, hr'⟩ | ⟨hstops, status, hstatus, hr'⟩)
    · obtain rfl : stopped = false := hgoes
      obtain rfl : r' = _ := hr'
      show Ensures (_ >>= _) _
      rw [ensures_bind]
      refine (ih _).mono ?_
      rintro ⟨⟨kept, stopped⟩, r'⟩ ⟨status, blocks, hr', hprefix, hgoes, hstops⟩
      refine ensures_pure.mpr ⟨status, blocks, ?_, ?_, fun h => ⟨(hgoes h).1, ?_⟩, hstops⟩
      · dsimp only at hr' ⊢
        rw [hr']
        simp only [appendOutputTokenIds, extendBlockHashes, List.append_assoc, List.singleton_append]
      · exact List.cons_prefix_cons.mpr ⟨rfl, hprefix⟩
      · exact congrArg (token :: ·) (hgoes h).2
    · -- the token ends the request, and the rest is not taken
      obtain rfl : stopped = true := hstops
      obtain rfl : r' = _ := hr'
      refine ensures_pure.mpr ⟨status, _, rfl, ?_, (fun h => by cases h), fun _ => hstatus⟩
      exact List.cons_prefix_cons.mpr ⟨rfl, List.nil_prefix⟩

/-- The request with other counts. -/
def recounted (r : Request) (computed external placeholders : ℤ) : Request :=
  { r with
    numComputedTokens := computed
    numExternalComputedTokens := external
    numOutputPlaceholders := placeholders }

/-- Whether a request stops does not depend on its counts. -/
theorem checkStop_recounted (maxModelLen : ℕ) (r : Request) (a b c : ℤ) :
    (r.recounted a b c).checkStop maxModelLen =
      (r.checkStop maxModelLen).map fun x => (x.1, x.2.recounted a b c) := by
  -- the conditions are the same, and so are the outcomes up to the counts
  unfold checkStop
  rw [apply_ite (Except.map _)]
  refine congrArg (ite _ _) ?_
  rw [show (r.recounted a b c).samplingParams = r.samplingParams from rfl]
  cases r.samplingParams with
  | none => rfl
  | some params =>
    rw [apply_ite (Except.map _)]
    refine congrArg (ite _ _) ?_
    rw [show (r.recounted a b c).outputTokenIds = r.outputTokenIds from rfl]
    cases r.outputTokenIds.getLast? with
    | none => rfl
    | some last =>
      rw [apply_ite (Except.map _), apply_ite (Except.map _), apply_ite (Except.map _)]
      rfl

theorem hasherLoop_recounted (r : Request) (a b c : ℤ) (blockSize : ℕ) (n start : ℕ) (idx : ℤ) :
    (r.recounted a b c).hasherLoop blockSize n start idx = r.hasherLoop blockSize n start idx := by
  induction n generalizing start idx with
  | zero => exact rfl
  | succ n ih =>
    rw [hasherLoop, hasherLoop, ih]
    rfl

theorem append_recounted (hasher : Option ℕ) (r : Request) (a b c : ℤ) (token : ℤ) :
    (r.recounted a b c).appendOutputTokenIds hasher token =
      (r.appendOutputTokenIds hasher token).recounted a b c := by
  cases hasher with
  | none => rfl
  | some blockSize =>
    have hloop := hasherLoop_recounted { r with
      outputTokenIds := r.outputTokenIds ++ [token]
      allTokenIds := r.allTokenIds ++ [token] } a b c blockSize
    unfold appendOutputTokenIds extendBlockHashes getHashNewFullBlocks
    dsimp only [recounted] at hloop ⊢
    rw [hloop]
    rfl

theorem updateWithOutput_recounted {hasher : Option ℕ} {maxModelLen : ℕ} (a b c : ℤ)
    (tokens : List ℤ) (r : Request) :
    (r.recounted a b c).updateWithOutput hasher maxModelLen tokens =
        (r.updateWithOutput hasher maxModelLen tokens).map fun x => (x.1, x.2.recounted a b c) := by
  induction tokens generalizing r with
  | nil => exact rfl
  | cons token tokens ih =>
    rw [updateWithOutput, updateWithOutput, append_recounted, checkStop_recounted]
    cases (r.appendOutputTokenIds hasher token).checkStop maxModelLen with
    | error e => rfl
    | ok x =>
      obtain ⟨stopped, r'⟩ := x
      cases stopped with
      | true => rfl
      | false =>
        dsimp only [Except.map, bind, Except.bind]
        rw [ih]
        cases r'.updateWithOutput hasher maxModelLen tokens <;> rfl

end Request

namespace Scheduler

/-- Draft tokens that were rejected do not count as computed, nor as placeholders. -/
def rejectDrafts (drafts generated : List ℤ) (r : Request) : Request :=
  if drafts = [] then r
  else
    let numRejected : ℤ := drafts.length - (generated.length - 1)
    { r with
      numComputedTokens :=
        if 0 < r.numComputedTokens then r.numComputedTokens - numRejected else r.numComputedTokens
      numOutputPlaceholders :=
        if 0 < r.numOutputPlaceholders then r.numOutputPlaceholders - numRejected
        else r.numOutputPlaceholders }

theorem rejectDrafts_eq (drafts generated : List ℤ) (r : Request) : ∃ computed placeholders,
    rejectDrafts drafts generated r =
      r.recounted computed r.numExternalComputedTokens placeholders := by
  unfold rejectDrafts
  split
  · exact ⟨r.numComputedTokens, r.numOutputPlaceholders, rfl⟩
  · exact ⟨_, _, rfl⟩

end Scheduler

end CacheFlow.Vllm
