import CacheFlow.Rdma.Endpoint

/-!
# Posts that fail

`cf_post` refuses a batch with an operation of invalid length before it queues anything. When the
ring cannot grow, it gives up in the middle of a batch: the operations before that one stay in the
ring, without the end of their batch, and the sequence number of the one that found no place is
used up.

## Main definitions

* `Endpoint.Undone` — a call has left no trace, now or later.

## Main results

* `Endpoint.undone_iff_grows` — which posts that fail leave none.
-/

namespace CacheFlow

open List

/-- What `cf_post` returns. -/
inductive PostStatus where
  | ok
  | eio
  | einval
  | enomem
  deriving DecidableEq

namespace Endpoint

section Definitions

variable (env : EpEnv) (ep : Endpoint)

/-- The return value of `cf_post`. -/
def cfPostStatus (opcode : ℕ) (ops : List CfOp) : PostStatus :=
  if ep.error then .eio
  else if ops.any invalid then .einval
  else match pushBatch env opcode ops ep with
    | (false, _) => .enomem
    | (true, _) => if (ep.cfPost env opcode ops).error then .eio else .ok

/-- Whether a ring of `cap` places, `len` of them taken, fails to grow while `n` more operations are
queued, under the numbers after `seq`. -/
def growthFails : (n len cap seq : ℕ) → Bool
  | 0, _, _, _ => false
  | n + 1, len, cap, seq =>
    if len = cap then !env.malloc (seq + 1) || growthFails n (len + 1) (nextCap cap) (seq + 1)
    else growthFails n (len + 1) cap (seq + 1)

/-- A call that led from one endpoint to another has left no trace: after any further locked
sections the NIC has been given the same, and the counter, the queue and the tickets are the same
as without the call. -/
def Undone (ep' : Endpoint) : Prop := ∀ events : List EpEvent,
  (events.foldl (step env) ep').sent = (events.foldl (step env) ep).sent ∧
    (events.foldl (step env) ep').nextSeq = (events.foldl (step env) ep).nextSeq ∧
    (events.foldl (step env) ep').q.toList = (events.foldl (step env) ep).q.toList ∧
    (events.foldl (step env) ep').tickets = (events.foldl (step env) ep).tickets

end Definitions

variable {env : EpEnv} {ep : Endpoint} {opcode : ℕ}

/-! ### Queueing a batch -/

/-- The loop that queues a batch stops early exactly if memory runs out. -/
theorem pushBatch_fst {ops : List CfOp} {ep : Endpoint} :
    (pushBatch env opcode ops ep).1 =
    !growthFails env ops.length ep.q.len ep.q.cap ep.nextSeq := by
  induction ops generalizing ep with
  | nil => exact rfl
  | cons op ops ih =>
    rw [pushBatch, length_cons, growthFails]
    unfold qPush
    by_cases hfull : ep.q.len = ep.q.cap
    · cases env.malloc (ep.nextSeq + 1) with
      | false => simp [hfull]
      | true => simp [hfull, ih, Ring.len_push, Ring.cap_push]
    · simp [hfull, ih, Ring.len_push, Ring.cap_push]

/-- **What a batch leaves behind when memory runs out**: some of its operations are queued, and one
number more than these have is used up. -/
theorem pushBatch_failed : ∀ {ops : List CfOp} {ep : Endpoint},
    (pushBatch env opcode ops ep).1 = false → ∃ k < ops.length, ∃ q : Ring QOp,
      (pushBatch env opcode ops ep).2 = { ep with q := q, nextSeq := ep.nextSeq + (k + 1) } ∧
        q.toList = ep.q.toList ++ (numbered opcode ep.nextSeq ops).take k ∧
        env.malloc (ep.nextSeq + (k + 1)) = false := by
  intro ops
  induction ops with
  | nil => exact fun h => by cases h
  | cons op ops ih =>
    intro ep h
    rw [pushBatch] at h ⊢
    unfold qPush at h ⊢
    by_cases hfull : ep.q.len = ep.q.cap ∧ !env.malloc (ep.nextSeq + 1)
    · rw [if_pos hfull] at h ⊢
      exact ⟨0, Nat.succ_pos _, ep.q, rfl, by simp, by simpa using hfull.2⟩
    · rw [if_neg hfull] at h ⊢
      obtain ⟨k, hk, q, hep, hq, hmalloc⟩ := ih h
      have hadd : ep.nextSeq + (k + 1 + 1) = ep.nextSeq + 1 + (k + 1) := by omega
      refine ⟨k + 1, Nat.succ_lt_succ hk, q, ?_, ?_, ?_⟩
      · rw [hadd]
        exact hep
      · rw [hq, Ring.toList_push, numbered, take_succ_cons, append_assoc,
          singleton_append]
      · rw [hadd]
        exact hmalloc

/-! ### Later drains -/

theorem fillChain_keeps {k : ℕ} {ep : Endpoint} {wrs : List SendWr} :
    (fillChain k ep wrs).1.sent = ep.sent ∧ wrs <+: (fillChain k ep wrs).2 := by
  induction k generalizing ep wrs with
  | zero => exact ⟨rfl, prefix_rfl⟩
  | succ k ih =>
    unfold fillChain
    cases ep.q.pop? with
    | none => exact ⟨rfl, prefix_rfl⟩
    | some p =>
      obtain ⟨hsent, hprefix⟩ := ih
      exact ⟨hsent, (prefix_append _ _).trans hprefix⟩

theorem sent_prefix_drainLoop {fuel : ℕ} {ep : Endpoint} :
    ep.sent <+: (drainLoop env fuel ep).sent := by
  induction fuel generalizing ep with
  | zero => exact prefix_rfl
  | succ fuel ih =>
    have hsent := (@fillChain_keeps (min ep.room 32) ep []).1
    unfold drainLoop
    split_ifs
    · exact prefix_rfl
    · exact prefix_rfl
    · dsimp only
      split_ifs
      · refine List.IsPrefix.trans ?_ ih
        rw [← hsent]
        exact prefix_append _ _
      · exact hsent ▸ prefix_rfl

/-- The first operation in the queue is handed over as soon as there is room. -/
theorem mem_sent_drainLocked {o : QOp} {rest : List QOp} (herror : ep.error = false)
    (hroom : ep.room ≠ 0) (hsend : ∀ n, env.postSend n = true) (hq : ep.q.toList = o :: rest) :
    ⟨o, ep.signals o⟩ ∈ (ep.drainLocked env).sent := by
  have hlen : ep.q.len ≠ 0 := by
    rw [← Ring.length_toList, hq]
    simp
  obtain ⟨fuel, hfuel⟩ := Nat.exists_eq_succ_of_ne_zero hlen
  obtain ⟨k, hk⟩ := Nat.exists_eq_succ_of_ne_zero (show min ep.room 32 ≠ 0 by omega)
  cases hpop : ep.q.pop? with
  | none => exact absurd (Ring.pop?_eq_none_iff.mp hpop) hlen
  | some p =>
    obtain ⟨o', q⟩ := p
    obtain rfl : o' = o := (List.cons.inj ((Ring.toList_eq_of_pop? hpop).symm.trans hq)).1
    rw [drainLocked, hfuel, drainLoop, if_neg (by simp [hlen, herror]), if_neg hroom, hk, fillChain,
      hpop]
    dsimp only
    rw [if_pos (hsend _)]
    -- it is the first of the first chain
    apply sent_prefix_drainLoop.subset
    apply mem_append_right
    apply fillChain_keeps.2.subset
    exact mem_singleton_self _

/-! ### Atomicity -/

/-- What `cf_post` does before it drains. -/
theorem cfPost_cases (env : EpEnv) (ep : Endpoint) (opcode : ℕ) (ops : List CfOp) :
    (ep.error = true ∧ ep.cfPostStatus env opcode ops = .eio) ∨
    (ep.error = false ∧ ops.any invalid = true ∧ ep.cfPostStatus env opcode ops = .einval ∧
      ep.cfPost env opcode ops = ep) ∨
    (ep.error = false ∧ ops.any invalid = false ∧
      growthFails env ops.length ep.q.len ep.q.cap ep.nextSeq = true ∧
      ep.cfPostStatus env opcode ops = .enomem ∧
      ep.cfPost env opcode ops = (pushBatch env opcode ops ep).2) ∨
    (growthFails env ops.length ep.q.len ep.q.cap ep.nextSeq = false ∧
      (ep.cfPostStatus env opcode ops = .eio ∨ ep.cfPostStatus env opcode ops = .ok)) := by
  have hfst := @pushBatch_fst env opcode ops ep
  unfold cfPostStatus
  cases herror : ep.error with
  | true => exact Or.inl ⟨rfl, rfl⟩
  | false =>
    cases hinvalid : ops.any invalid with
    | true => exact Or.inr (Or.inl ⟨rfl, rfl, rfl, by simp [cfPost, herror, hinvalid]⟩)
    | false =>
      cases hpush : pushBatch env opcode ops ep with
      | mk ok ep' =>
        rw [hpush] at hfst
        cases ok with
        | false =>
          -- memory has run out in the middle of the batch
          refine Or.inr (Or.inr (Or.inl ⟨rfl, rfl, by simpa using hfst, rfl, ?_⟩))
          simp [cfPost, herror, hinvalid, hpush]
        | true =>
          refine Or.inr (Or.inr (Or.inr ⟨by simpa using hfst, ?_⟩))
          cases (ep.cfPost env opcode ops).error <;> simp

/-- A batch that memory runs out for uses up numbers. -/
theorem nextSeq_lt_of_growthFails {ops : List CfOp}
    (h : growthFails env ops.length ep.q.len ep.q.cap ep.nextSeq = true) :
    ep.nextSeq < (pushBatch env opcode ops ep).2.nextSeq := by
  obtain ⟨k, -, q, hep, -⟩ := @pushBatch_failed env opcode ops ep (by rw [pushBatch_fst, h]; rfl)
  rw [hep]
  show ep.nextSeq < ep.nextSeq + (k + 1)
  omega

/-- **A post that fails leaves no trace exactly if memory does not run out.** A batch with an
invalid operation is refused as a whole; a batch for which the ring cannot grow is not. -/
theorem undone_iff_grows (env : EpEnv) (ep : Endpoint) (opcode : ℕ) (ops : List CfOp) :
    (ep.cfPostStatus env opcode ops = .einval ∨ ep.cfPostStatus env opcode ops = .enomem →
      ep.Undone env (ep.cfPost env opcode ops)) ↔
    (ep.error = false → ops.any invalid = false →
      growthFails env ops.length ep.q.len ep.q.cap ep.nextSeq = false) := by
  rcases cfPost_cases env ep opcode ops with ⟨herror, hst⟩ | ⟨herror, hinvalid, hst, hcall⟩ |
    ⟨herror, hinvalid, hfails, hst, hcall⟩ | ⟨hgrows, hst⟩
  · simp [herror, hst]
  · -- nothing has been done yet
    simp [hinvalid, hcall, Undone]
  · simp only [herror, hinvalid, hfails, hst, hcall, or_true, forall_const, Bool.true_eq_false,
      iff_false]
    intro hundone
    exact absurd (hundone []).2.1 (nextSeq_lt_of_growthFails hfails).ne'
  · rcases hst with hst | hst <;> simp [hgrows, hst]

/-- A batch of one operation more than the first ring holds, and no memory for the second: a later
drain hands an operation of the batch to the NIC. -/
theorem handed_over_after_enomem :
    let env : EpEnv := ⟨fun _ => true, fun n => n ≠ 1025⟩
    let ops := List.replicate 1025 (⟨0, 64, 1, 2, 8⟩ : CfOp)
    (init 1).cfPostStatus env 1 ops = .enomem ∧
      ∃ w ∈ (((init 1).cfPost env 1 ops).step env .drain).sent, w.qop.op ∈ ops := by
  intro env ops
  have hinvalid : ops.any invalid = false := by decide +kernel
  have hgrowth : growthFails env ops.length 0 0 0 = true := by decide +kernel
  rcases cfPost_cases env (init 1) 1 ops with ⟨herror, -⟩ | ⟨-, hinvalid', -⟩ |
    ⟨-, -, -, hst, hcall⟩ | ⟨hgrows, -⟩
  · cases herror
  · cases hinvalid.symm.trans hinvalid'
  · refine ⟨hst, ?_⟩
    obtain ⟨k, -, q, hep, hq, hmalloc⟩ := @pushBatch_failed env 1 ops (init 1)
      (by rw [pushBatch_fst]; exact congrArg not hgrowth)
    -- 1024 operations are queued, and the first of them goes out
    obtain rfl : k = 1024 := by simpa [env, init] using hmalloc
    rw [hcall, hep]
    refine ⟨_, mem_sent_drainLocked rfl Nat.one_ne_zero (fun _ => rfl) hq, ?_⟩
    exact mem_replicate.mpr ⟨by decide, rfl⟩
  · cases hgrowth.symm.trans hgrows

end Endpoint

end CacheFlow
