import Mathlib.Data.List.Induction
import CacheFlow.Lib.Ring

/-!
# The send queue of an RDMA endpoint

`cfrdma.c`: an endpoint hands its operations to the NIC through a send queue of limited
depth. Operations that do not fit wait in a ring buffer, which `cf_post` fills and
`drain_locked` empties, in chains of at most 32. Not every operation is *signaled*: only a
signaled one raises a completion, and its completion stands for all operations before it.

Several threads post, and a progress thread reaps completions; all of them hold the lock of
the endpoint, so a run is a sequence of the locked sections in any order. Sequence numbers
are natural numbers here: 64 bits do not run out in the life of an endpoint.

## Main definitions

* `Endpoint.cfPost`, `Endpoint.drainLocked`, `Endpoint.reap` — the locked sections.

## Main results

* `Endpoint.progress_of_run` — operations reach the NIC once and in order, and every ticket
  completes.
-/

namespace CacheFlow

open List

/-- `cf_op`: one RDMA operation. -/
structure CfOp where
  laddr : ℕ
  raddr : ℕ
  lkey : ℕ
  rkey : ℕ
  len : ℕ
  deriving DecidableEq, Inhabited

/-- `qop`: an operation in the software queue. -/
structure QOp where
  op : CfOp
  seq : ℕ
  opcode : ℕ
  /-- Whether it is the last one of its batch. -/
  batchEnd : Bool
  deriving DecidableEq, Inhabited

/-- A work request in the send queue: the operation it was made of, which gives it its
`wr_id`, and its flag. -/
structure SendWr where
  qop : QOp
  /-- Whether it raises a completion. -/
  signaled : Bool
  deriving DecidableEq

/-- What the calls out of the library return. -/
structure EpEnv where
  /-- Whether the call of `ibv_post_send` with a number succeeds. -/
  postSend : ℕ → Bool
  /-- Whether there is memory for the ring when the operation with a number is queued. -/
  malloc : ℕ → Bool

/-- `cf_ep`, and what the NIC has seen of it. -/
structure Endpoint where
  sqDepth : ℕ
  /-- The operations that are not yet in the send queue. -/
  q : Ring QOp
  /-- The last sequence number given out. -/
  nextSeq : ℕ
  /-- The last sequence number handed to the NIC. -/
  postedSeq : ℕ
  /-- The last sequence number known complete. -/
  completedSeq : ℕ
  /-- The last signaled sequence number posted. -/
  lastSignaled : ℕ
  error : Bool
  /-- What has been handed to the NIC. -/
  sent : List SendWr
  /-- How often `ibv_post_send` has been called. -/
  sends : ℕ
  /-- How many completions have been polled. -/
  polled : ℕ
  /-- The tickets that `cf_post` has returned. -/
  tickets : List ℕ

namespace Endpoint

variable (env : EpEnv) (ep : Endpoint)

/-- A new endpoint. -/
def init (sqDepth : ℕ) : Endpoint := ⟨sqDepth, .empty, 0, 0, 0, 0, false, [], 0, 0, []⟩

/-- The size of the next ring. -/
def nextCap (cap : ℕ) : ℕ := if cap = 0 then 1024 else cap * 2

theorem lt_nextCap (cap : ℕ) : cap < nextCap cap := by
  unfold nextCap
  split_ifs <;> omega

/-- `q_push`. -/
def qPush (o : QOp) : Option Endpoint :=
  if ep.q.len = ep.q.cap ∧ !env.malloc o.seq then none
  else some { ep with q := ep.q.push o (nextCap ep.q.cap) (lt_nextCap _) }

/-- Whether an operation is signaled: the end of a batch is, and often enough that a full
send queue always has a signaled operation in flight. -/
def signals (o : QOp) : Bool := o.batchEnd || ep.sqDepth / 2 ≤ o.seq - ep.lastSignaled

/-- Take an operation off the ring into the chain. -/
def handOver (o : QOp) (q : Ring QOp) : Endpoint :=
  { ep with
    q := q
    lastSignaled := if ep.signals o then o.seq else ep.lastSignaled
    postedSeq := o.seq }

/-- The inner loop of `drain_locked`: at most `k` operations go into the chain. -/
def fillChain : ℕ → Endpoint → List SendWr → Endpoint × List SendWr
  | 0, ep, wrs => (ep, wrs)
  | k + 1, ep, wrs =>
    match ep.q.pop? with
    | none => (ep, wrs)
    | some (o, q) => fillChain k (ep.handOver o q) (wrs ++ [⟨o, ep.signals o⟩])

/-- Free places in the send queue. -/
def room : ℕ := ep.sqDepth - (ep.postedSeq - ep.completedSeq)

/-- The outer loop of `drain_locked`, for so many rounds at most. -/
def drainLoop : ℕ → Endpoint → Endpoint
  | 0, ep => ep
  | fuel + 1, ep =>
    if ep.q.len = 0 ∨ ep.error then ep
    else if ep.room = 0 then ep
    else
      let (ep', wrs) := fillChain (min ep.room 32) ep []
      if env.postSend ep'.sends then
        drainLoop fuel { ep' with sent := ep'.sent ++ wrs, sends := ep'.sends + 1 }
      else { ep' with error := true, sends := ep'.sends + 1 }

/-- `drain_locked`. Each round takes an operation off the ring, so the length of the ring is
as many rounds as there can be. -/
def drainLocked : Endpoint := drainLoop env ep.q.len ep

/-- The loop of `cf_post` that queues a batch; whether there was memory. -/
def pushBatch (opcode : ℕ) : List CfOp → Endpoint → Bool × Endpoint
  | [], ep => (true, ep)
  | op :: ops, ep =>
    let ep := { ep with nextSeq := ep.nextSeq + 1 }
    match ep.qPush env ⟨op, ep.nextSeq, opcode % 2 ^ 8, ops.isEmpty⟩ with
    | none => (false, ep)
    | some ep => pushBatch opcode ops ep

/-- An operation `cf_post` refuses. -/
def invalid (op : CfOp) : Bool := op.len = 0 || 2 ^ 31 < op.len

/-- `cf_post`. -/
def cfPost (opcode : ℕ) (ops : List CfOp) : Endpoint :=
  if ep.error then ep
  else if ops.any invalid then ep
  else match pushBatch env opcode ops ep with
    | (false, ep) => ep
    | (true, ep) =>
      let ep := { ep with tickets := ep.tickets ++ [ep.nextSeq] }
      ep.drainLocked env

/-- The sequence numbers of the signaled operations, in the order they were handed over. -/
def signaledSeqs (out : List SendWr) : List ℕ := (out.filter SendWr.signaled).map fun w => w.qop.seq

/-- One completion, of the next signaled operation in the send queue if there is one; whether
it is a success. -/
def complete (ok : Bool) : Endpoint :=
  match (signaledSeqs ep.sent)[ep.polled]? with
  | none => ep
  | some wrId =>
    let ep := { ep with polled := ep.polled + 1 }
    if !ok then { ep with error := true }
    else if ep.completedSeq < wrId then { ep with completedSeq := wrId }
    else ep

/-- A round of `reap`, which finds as many completions as there are statuses, or fewer. -/
def reap (statuses : List Bool) : Endpoint :=
  if statuses = [] ∨ (signaledSeqs ep.sent)[ep.polled]? = none then ep
  else (statuses.foldl complete ep).drainLocked env

end Endpoint

/-- A locked section. -/
inductive EpEvent where
  /-- `cf_post`. -/
  | post (opcode : ℕ) (ops : List CfOp) : EpEvent
  /-- `drain_locked`. -/
  | drain : EpEvent
  /-- A round of `reap`. -/
  | reap (statuses : List Bool) : EpEvent

/-- All completions that an event polls are successes. -/
def EpEvent.Succeeds : EpEvent → Prop
  | .reap statuses => ∀ ok ∈ statuses, ok = true
  | _ => True

namespace Endpoint

variable (env : EpEnv)

/-- The endpoint after a locked section. -/
def step (ep : Endpoint) : EpEvent → Endpoint
  | .post opcode ops => ep.cfPost env opcode ops
  | .drain => ep.drainLocked env
  | .reap statuses => ep.reap env statuses

/-- The endpoint after a run. -/
def run (sqDepth : ℕ) (events : List EpEvent) : Endpoint := events.foldl (step env) (init sqDepth)

/-- The operations of a batch, numbered from `n + 1` on. -/
def numbered (opcode : ℕ) : ℕ → List CfOp → List QOp
  | _, [] => []
  | n, op :: ops => ⟨op, n + 1, opcode % 2 ^ 8, ops.isEmpty⟩ :: numbered opcode (n + 1) ops

/-- The operations accepted so far and those an event adds. -/
def accept (acc : List QOp) : EpEvent → List QOp
  | .post opcode ops => if ops.any invalid then acc else acc ++ numbered opcode acc.length ops
  | _ => acc

/-- The operations that the posts of a run are accepted with. -/
def accepted (events : List EpEvent) : List QOp := events.foldl accept []

/-! ### The invariant -/

/-- What holds of an endpoint that has accepted `acc`, of which `out` has gone into the send
queue or into the chain that is being built. -/
structure Inv (ep : Endpoint) (out : List SendWr) (acc : List QOp) : Prop where
  noError : ep.error = false
  split : out.map SendWr.qop ++ ep.q.toList = acc
  seqs : acc.map QOp.seq = List.range' 1 acc.length
  next : ep.nextSeq = acc.length
  posted : ep.postedSeq = out.length
  completed_le : ep.completedSeq ≤ ep.postedSeq
  fits : ep.postedSeq ≤ ep.completedSeq + ep.sqDepth
  ends : ∀ w ∈ out, w.qop.batchEnd = true → w.signaled = true
  /-- `last_signaled` is the number of a signaled operation. -/
  last : ep.lastSignaled = 0 ∨ ∃ w ∈ out, w.signaled = true ∧ w.qop.seq = ep.lastSignaled
  /-- There are few operations after it. -/
  gap : ep.lastSignaled ≤ ep.postedSeq ∧ ep.postedSeq < ep.lastSignaled + max 1 (ep.sqDepth / 2)
  polled_le : ep.polled ≤ (signaledSeqs out).length
  known : ∀ s ∈ (signaledSeqs out).take ep.polled, s ≤ ep.completedSeq
  unpolled : ∀ s ∈ (signaledSeqs out).drop ep.polled, ep.completedSeq < s

variable {env} {ep : Endpoint} {out : List SendWr} {acc : List QOp}

section

variable (h : ep.Inv out acc)
include h

theorem Inv.out_seqs : out.map (fun w => w.qop.seq) = List.range' 1 out.length := by
  have hseqs := h.seqs
  rw [← h.split, map_append, map_map, length_append, length_map,
    ← List.range'_append_1] at hseqs
  exact (append_inj hseqs (by simp)).1

theorem Inv.seq_mem {w : SendWr} (hw : w ∈ out) : 1 ≤ w.qop.seq ∧ w.qop.seq ≤ ep.postedSeq := by
  have hmem : w.qop.seq ∈ out.map fun w => w.qop.seq := mem_map_of_mem hw
  rw [h.out_seqs, mem_range'_1] at hmem
  rw [h.posted]
  omega

theorem Inv.signaledSeqs_sorted : (signaledSeqs out).Pairwise (· < ·) := by
  have hsub : List.Sublist (signaledSeqs out) (List.range' 1 out.length) := by
    rw [← h.out_seqs]
    exact filter_sublist.map _
  exact List.Pairwise.sublist hsub pairwise_lt_range'

/-- The operation at the head of the ring has the next number. -/
theorem Inv.seq_of_pop? {o : QOp} {q : Ring QOp} (hpop : ep.q.pop? = some (o, q)) :
    o.seq = out.length + 1 := by
  have hseqs := h.seqs
  rw [← h.split, Ring.toList_eq_of_pop? hpop, map_append, map_map, length_append,
    length_map, ← List.range'_append_1, map_cons, length_cons, List.range'_succ] at hseqs
  have hrest := (append_inj hseqs (by simp)).2
  rw [List.cons.injEq] at hrest
  omega

theorem Inv.handOver {o : QOp} {q : Ring QOp} (hpop : ep.q.pop? = some (o, q))
    (hroom : ep.postedSeq < ep.completedSeq + ep.sqDepth) :
    (ep.handOver o q).Inv (out ++ [⟨o, ep.signals o⟩]) acc := by
  have hseq := h.seq_of_pop? hpop
  have hposted := h.posted
  obtain ⟨hlast, hgap⟩ := h.gap
  have hsig : signaledSeqs (out ++ [⟨o, ep.signals o⟩]) =
      signaledSeqs out ++ if ep.signals o = true then [o.seq] else [] := by
    unfold signaledSeqs
    cases ep.signals o <;> simp
  constructor
  · exact h.noError
  · rw [← h.split, Ring.toList_eq_of_pop? hpop]
    simp [Endpoint.handOver]
  · exact h.seqs
  · exact h.next
  · rw [length_append]
    exact hseq
  · show ep.completedSeq ≤ o.seq
    have := h.completed_le
    omega
  · show o.seq ≤ ep.completedSeq + ep.sqDepth
    omega
  · -- the end of a batch is always signaled
    intro w hw hend
    rcases mem_append.mp hw with hw | hw
    · exact h.ends w hw hend
    · rw [mem_singleton.mp hw] at hend ⊢
      simp only [signals, Bool.or_eq_true]
      exact Or.inl hend
  · show (if ep.signals o then o.seq else ep.lastSignaled) = 0 ∨
      ∃ w ∈ out ++ [⟨o, ep.signals o⟩], w.signaled = true ∧
        w.qop.seq = if ep.signals o then o.seq else ep.lastSignaled
    by_cases hsignals : ep.signals o = true
    · rw [if_pos hsignals]
      exact Or.inr ⟨_, mem_append_right _ mem_cons_self, hsignals, rfl⟩
    · rw [if_neg hsignals]
      refine h.last.imp id fun ⟨w, hw, hws⟩ => ⟨w, mem_append_left _ hw, hws⟩
  · show (if ep.signals o then o.seq else ep.lastSignaled) ≤ o.seq ∧
      o.seq < (if ep.signals o then o.seq else ep.lastSignaled) + max 1 (ep.sqDepth / 2)
    by_cases hsignals : ep.signals o = true
    · rw [if_pos hsignals]
      omega
    · -- an operation without a signal is close to the last one with it
      rw [if_neg hsignals]
      simp only [signals, Bool.or_eq_true, decide_eq_true_eq, not_or] at hsignals
      omega
  · rw [hsig, length_append]
    exact h.polled_le.trans (Nat.le_add_right _ _)
  · intro s hs
    change s ∈ (signaledSeqs (out ++ [⟨o, ep.signals o⟩])).take ep.polled at hs
    rw [hsig, take_append_of_le_length h.polled_le] at hs
    exact h.known s hs
  · intro s hs
    change s ∈ (signaledSeqs (out ++ [⟨o, ep.signals o⟩])).drop ep.polled at hs
    rw [hsig, drop_append_of_le_length h.polled_le] at hs
    rcases mem_append.mp hs with hs | hs
    · exact h.unpolled s hs
    · -- it cannot have completed before it is handed over
      have hlt : ep.completedSeq < o.seq := by
        have := h.completed_le
        omega
      split_ifs at hs
      · rw [mem_singleton.mp hs]
        exact hlt
      · exact absurd hs not_mem_nil

/-- What was sent, and how often, is no part of the invariant. -/
theorem Inv.posts (sent : List SendWr) (sends : ℕ) :
    ({ ep with sent := sent, sends := sends } : Endpoint).Inv out acc :=
  { h with }

end

/-! ### Draining -/

/-- What draining leaves alone. -/
structure Kept (ep ep' : Endpoint) : Prop where
  sqDepth : ep'.sqDepth = ep.sqDepth
  nextSeq : ep'.nextSeq = ep.nextSeq
  completedSeq : ep'.completedSeq = ep.completedSeq
  tickets : ep'.tickets = ep.tickets

theorem Kept.refl (ep : Endpoint) : Kept ep ep := ⟨rfl, rfl, rfl, rfl⟩

theorem Kept.trans {ep₁ ep₂ ep₃ : Endpoint} (h : Kept ep₁ ep₂) (h' : Kept ep₂ ep₃) : Kept ep₁ ep₃ :=
  ⟨h'.sqDepth.trans h.sqDepth, h'.nextSeq.trans h.nextSeq, h'.completedSeq.trans h.completedSeq,
    h'.tickets.trans h.tickets⟩

/-- Building a chain of at most as many operations as there is room for. -/
theorem fillChain_spec {before : List SendWr} {k : ℕ} {ep : Endpoint} {wrs : List SendWr}
    (h : ep.Inv (before ++ wrs) acc) (hroom : ep.postedSeq + k ≤ ep.completedSeq + ep.sqDepth) :
    (fillChain k ep wrs).1.Inv (before ++ (fillChain k ep wrs).2) acc ∧
        Kept ep (fillChain k ep wrs).1 ∧ (fillChain k ep wrs).1.sent = ep.sent ∧
        (fillChain k ep wrs).1.q.len ≤ ep.q.len ∧
        (k ≠ 0 → ep.q.len ≠ 0 → (fillChain k ep wrs).1.q.len < ep.q.len) := by
  induction k generalizing ep wrs with
  | zero =>
    exact ⟨h, Kept.refl ep, rfl, le_rfl, fun hk => absurd rfl hk⟩
  | succ k ih =>
    unfold fillChain
    cases hpop : ep.q.pop? with
    | none =>
      exact ⟨h, Kept.refl ep, rfl, le_rfl, fun _ hlen => absurd (Ring.pop?_eq_none_iff.mp hpop) hlen⟩
    | some p =>
      obtain ⟨o, q⟩ := p
      have hseq := h.seq_of_pop? hpop
      have hposted := h.posted
      have hlen := Ring.len_eq_of_pop? hpop
      have hnext := h.handOver hpop (by omega)
      rw [append_assoc] at hnext
      have hroom' : (ep.handOver o q).postedSeq + k ≤
          (ep.handOver o q).completedSeq + (ep.handOver o q).sqDepth := by
        show o.seq + k ≤ ep.completedSeq + ep.sqDepth
        omega
      -- the operation is handed over, and the rest of the chain is a shorter one
      obtain ⟨hinv, hkept, hsent, hle, -⟩ := ih hnext hroom'
      have hless : (fillChain k (ep.handOver o q) (wrs ++ [⟨o, ep.signals o⟩])).1.q.len < ep.q.len := by
        have hq : (ep.handOver o q).q.len = q.len := rfl
        omega
      exact ⟨hinv, { hkept with }, hsent, hless.le,
        fun _ _ => hless⟩

/-- **Draining** keeps the invariant, and with enough rounds ends when the ring is empty or
the send queue is full. -/
theorem drainLoop_spec (hsend : ∀ n, env.postSend n = true) : ∀ {fuel : ℕ} {ep : Endpoint},
    ep.Inv ep.sent acc →
      (drainLoop env fuel ep).Inv (drainLoop env fuel ep).sent acc ∧
        Kept ep (drainLoop env fuel ep) ∧
        (ep.q.len ≤ fuel → (drainLoop env fuel ep).q.len = 0 ∨
          (drainLoop env fuel ep).postedSeq = ep.completedSeq + ep.sqDepth) := by
  intro fuel
  induction fuel with
  | zero => exact fun h => ⟨h, Kept.refl _, fun hlen => Or.inl (Nat.le_zero.mp hlen)⟩
  | succ fuel ih =>
    intro ep h
    unfold drainLoop
    split_ifs with hempty hfull
    · refine ⟨h, Kept.refl _, fun _ => Or.inl ?_⟩
      rcases hempty with hempty | herror
      · exact hempty
      · rw [h.noError] at herror
        cases herror
    · -- the send queue is full
      refine ⟨h, Kept.refl _, fun _ => Or.inr ?_⟩
      have hfits := h.fits
      have hle := h.completed_le
      unfold room at hfull
      omega
    · -- a chain is posted, which makes the ring shorter
      rw [not_or] at hempty
      have hchain : ep.postedSeq + min ep.room 32 ≤ ep.completedSeq + ep.sqDepth := by
        unfold room at hfull ⊢
        omega
      have hinv : ep.Inv (ep.sent ++ []) acc := by rwa [append_nil]
      obtain ⟨hinv', hkept, hsent, -, hless⟩ := fillChain_spec hinv hchain
      have hlt := hless (by omega) hempty.1
      dsimp only
      rw [if_pos (hsend _)]
      generalize fillChain (min ep.room 32) ep [] = r at hinv' hkept hsent hlt ⊢
      have hposted := hinv'.posts (r.1.sent ++ r.2) (r.1.sends + 1)
      rw [← hsent] at hposted
      obtain ⟨hdone, hkept', hend⟩ := ih hposted
      refine ⟨hdone, hkept.trans { hkept' with },
        fun hlen => ?_⟩
      rw [← hkept.completedSeq, ← hkept.sqDepth]
      exact hend (Nat.le_of_lt_succ (hlt.trans_le hlen))

/-! ### Posting and reaping -/

theorem pushBatch_spec (hmalloc : ∀ n, env.malloc n = true) {opcode : ℕ} {ops : List CfOp}
    {ep : Endpoint} {acc : List QOp} (h : ep.Inv out acc) :
    (pushBatch env opcode ops ep).1 = true ∧
        (pushBatch env opcode ops ep).2.Inv out (acc ++ numbered opcode acc.length ops) ∧
        (pushBatch env opcode ops ep).2.sent = ep.sent ∧
        (pushBatch env opcode ops ep).2.tickets = ep.tickets ∧
        (pushBatch env opcode ops ep).2.sqDepth = ep.sqDepth := by
  induction ops generalizing ep acc with
  | nil =>
    exact ⟨rfl, by simpa [numbered, pushBatch] using h, rfl, rfl, rfl⟩
  | cons op ops ih =>
    have hnext := h.next
    unfold pushBatch
    dsimp only
    generalize ho : (⟨op, ep.nextSeq + 1, opcode % 2 ^ 8, ops.isEmpty⟩ : QOp) = o
    have hpush : ({ ep with nextSeq := ep.nextSeq + 1 } : Endpoint).qPush env o = some
        { ep with
          nextSeq := ep.nextSeq + 1
          q := ep.q.push o (nextCap ep.q.cap) (lt_nextCap _) } := by
      unfold qPush
      rw [if_neg (by simp [hmalloc])]
    rw [hpush]
    -- the operation gets the next number and the last place in the ring
    have hseq : o.seq = acc.length + 1 := by rw [← ho, ← hnext]
    have hone : ({ ep with
        nextSeq := ep.nextSeq + 1
        q := ep.q.push o (nextCap ep.q.cap) (lt_nextCap _) } : Endpoint).Inv out (acc ++ [o]) := by
      refine { h with split := ?_, seqs := ?_, next := ?_ }
      · rw [Ring.toList_push, ← append_assoc, h.split]
      · rw [map_append, h.seqs, length_append, map_singleton, hseq, Nat.add_comm acc.length]
        exact (List.range'_1_concat).symm
      · rw [length_append]
        exact congrArg (· + 1) hnext
    obtain ⟨hok, hinv, hsent, htickets, hdepth⟩ := ih hone
    refine ⟨hok, ?_, hsent, htickets, hdepth⟩
    rw [numbered, ← hnext, ho]
    rw [append_assoc, length_append, ← hnext] at hinv
    exact hinv

/-- A completion moves `completed_seq` on to the next signaled operation. -/
theorem complete_spec (h : ep.Inv ep.sent acc) :
    (ep.complete true).Inv (ep.complete true).sent acc ∧ (ep.complete true).sqDepth = ep.sqDepth ∧
      (ep.complete true).tickets = ep.tickets ∧ ep.completedSeq ≤ (ep.complete true).completedSeq ∧
      ((signaledSeqs ep.sent)[ep.polled]? ≠ none →
        ep.completedSeq < (ep.complete true).completedSeq) := by
  unfold complete
  cases hget : (signaledSeqs ep.sent)[ep.polled]? with
  | none => exact ⟨h, rfl, rfl, le_rfl, fun hne => absurd rfl hne⟩
  | some s =>
    have hdrop : (signaledSeqs ep.sent).drop ep.polled =
        s :: (signaledSeqs ep.sent).drop (ep.polled + 1) := by
      obtain ⟨hlt, rfl⟩ := List.getElem?_eq_some_iff.mp hget
      exact drop_eq_getElem_cons hlt
    -- completions come in order, so this one is later than all before
    have hnew : ep.completedSeq < s := h.unpolled s (by rw [hdrop]; exact mem_cons_self)
    have hsorted := h.signaledSeqs_sorted.sublist (drop_sublist ep.polled _)
    rw [hdrop, pairwise_cons] at hsorted
    have hposted : s ≤ ep.postedSeq := by
      obtain ⟨w, hw, rfl⟩ := mem_map.mp (mem_of_getElem? hget)
      exact (h.seq_mem (mem_of_mem_filter hw)).2
    dsimp only
    rw [if_neg (by simp), if_pos hnew]
    refine ⟨⟨h.noError, h.split, h.seqs, h.next, h.posted, hposted, ?_, h.ends, h.last, h.gap, ?_, ?_,
      hsorted.1⟩, rfl, rfl, hnew.le, fun _ => hnew⟩
    · exact h.fits.trans (Nat.add_le_add_right hnew.le _)
    · exact (List.getElem?_eq_some_iff.mp hget).1
    · intro t ht
      rw [take_add_one, hget] at ht
      rcases mem_append.mp ht with ht | ht
      · exact (h.known t ht).trans hnew.le
      · exact (mem_singleton.mp ht).le

theorem completes_spec : ∀ {statuses : List Bool} {ep : Endpoint}, (∀ ok ∈ statuses, ok = true) →
    ep.Inv ep.sent acc →
      (statuses.foldl complete ep).Inv (statuses.foldl complete ep).sent acc ∧
        (statuses.foldl complete ep).sqDepth = ep.sqDepth ∧
        (statuses.foldl complete ep).tickets = ep.tickets ∧
        ep.completedSeq ≤ (statuses.foldl complete ep).completedSeq ∧
        (statuses ≠ [] → (signaledSeqs ep.sent)[ep.polled]? ≠ none →
          ep.completedSeq < (statuses.foldl complete ep).completedSeq) := by
  intro statuses
  induction statuses with
  | nil => exact fun _ h => ⟨h, rfl, rfl, le_rfl, fun hne => absurd rfl hne⟩
  | cons ok statuses ih =>
    intro ep hall h
    obtain rfl := hall ok mem_cons_self
    obtain ⟨hinv, hdepth, htickets, hle, hlt⟩ := complete_spec h
    obtain ⟨hinv', hdepth', htickets', hle', -⟩ :=
      ih (fun ok hok => hall ok (mem_cons_of_mem _ hok)) hinv
    exact ⟨hinv', hdepth'.trans hdepth, htickets'.trans htickets, hle.trans hle',
      fun _ hsome => (hlt hsome).trans_le hle'⟩

/-! ### Between the locked sections -/

/-- What holds whenever the lock is free. -/
structure Rest (ep : Endpoint) (acc : List QOp) : Prop where
  inv : ep.Inv ep.sent acc
  idle : ep.q.len = 0 ∨ ep.postedSeq = ep.completedSeq + ep.sqDepth
  lastEnd : ∀ o, acc.getLast? = some o → o.batchEnd = true
  /-- A ticket is the number of an operation that ends a batch. -/
  tickets : ∀ t ∈ ep.tickets, t = 0 ∨ ∃ o ∈ acc, o.seq = t ∧ o.batchEnd = true

theorem Inv.drainLocked (h : ep.Inv ep.sent acc) (hsend : ∀ n, env.postSend n = true)
    (hlast : ∀ o, acc.getLast? = some o → o.batchEnd = true)
    (htickets : ∀ t ∈ ep.tickets, t = 0 ∨ ∃ o ∈ acc, o.seq = t ∧ o.batchEnd = true) :
    (ep.drainLocked env).Rest acc ∧ Kept ep (ep.drainLocked env) := by
  obtain ⟨hinv, hkept, hend⟩ := @drainLoop_spec env acc hsend ep.q.len ep h
  refine ⟨⟨hinv, ?_, hlast, ?_⟩, hkept⟩
  · unfold Endpoint.drainLocked
    rw [hkept.completedSeq, hkept.sqDepth]
    exact hend le_rfl
  · unfold Endpoint.drainLocked
    rw [hkept.tickets]
    exact htickets

theorem getLast?_numbered {opcode : ℕ} : ∀ {n : ℕ} {ops : List CfOp} {o : QOp},
    (numbered opcode n ops).getLast? = some o → o.batchEnd = true := by
  intro n ops
  induction ops generalizing n with
  | nil => exact fun h => nomatch h
  | cons op ops ih =>
    intro o h
    cases ops with
    | nil =>
      rw [numbered, numbered, List.getLast?_singleton, Option.some.injEq] at h
      rw [← h]
      rfl
    | cons op' ops =>
      exact ih (by rw [numbered]; exact h)

theorem Inv.seq_getLast? (h : ep.Inv out acc) {o : QOp} (ho : acc.getLast? = some o) :
    o.seq = ep.nextSeq := by
  have hseqs := congrArg List.getLast? h.seqs
  rw [List.getLast?_map, ho, Option.map_some, List.getLast?_range'] at hseqs
  split_ifs at hseqs with hzero
  rw [Option.some.injEq] at hseqs
  rw [h.next]
  omega

theorem Rest.cfPost (h : ep.Rest acc) (hsend : ∀ n, env.postSend n = true)
    (hmalloc : ∀ n, env.malloc n = true) (opcode : ℕ) (ops : List CfOp) :
    (ep.cfPost env opcode ops).Rest (accept acc (.post opcode ops)) ∧
      (ep.cfPost env opcode ops).sqDepth = ep.sqDepth := by
  unfold Endpoint.cfPost accept
  dsimp only
  rw [h.inv.noError, if_neg (by simp)]
  split_ifs with hinvalid
  · exact ⟨h, rfl⟩
  obtain ⟨hok, hinv, hsent, htickets, hdepth⟩ := @pushBatch_spec env ep.sent hmalloc opcode ops ep acc h.inv
  generalize pushBatch env opcode ops ep = r at hok hinv hsent htickets hdepth ⊢
  obtain ⟨ok, ep'⟩ := r
  subst hok
  have hlast : ∀ o, (acc ++ numbered opcode acc.length ops).getLast? = some o → o.batchEnd = true := by
    intro o ho
    rw [List.getLast?_append] at ho
    rcases Option.or_eq_some_iff.mp ho with ho | ⟨-, ho⟩
    · exact getLast?_numbered ho
    · exact h.lastEnd o ho
  -- the new ticket is the number of the last operation, if there is one
  have hticket : ∀ t ∈ ep'.tickets ++ [ep'.nextSeq],
      t = 0 ∨ ∃ o ∈ acc ++ numbered opcode acc.length ops, o.seq = t ∧ o.batchEnd = true := by
    intro t ht
    rcases mem_append.mp ht with ht | ht
    · rw [htickets] at ht
      exact (h.tickets t ht).imp id fun ⟨o, ho, hot⟩ => ⟨o, mem_append_left _ ho, hot⟩
    · rw [mem_singleton.mp ht]
      cases hget : (acc ++ numbered opcode acc.length ops).getLast? with
      | none =>
        left
        rw [hinv.next, List.getLast?_eq_none_iff.mp hget, length_nil]
      | some o => exact Or.inr ⟨o, mem_of_getLast? hget, hinv.seq_getLast? hget, hlast o hget⟩
  rw [← hsent] at hinv
  have hinv' : ({ ep' with tickets := ep'.tickets ++ [ep'.nextSeq] } : Endpoint).Inv ep'.sent
      (acc ++ numbered opcode acc.length ops) :=
    { hinv with }
  obtain ⟨hrest, hkept⟩ := Inv.drainLocked hinv' hsend hlast hticket
  exact ⟨hrest, hkept.sqDepth.trans hdepth⟩

/-- **An operation that is not complete is on its way.** While some operation is not
complete, a signaled one is in the send queue. -/
theorem Rest.inFlight (h : ep.Rest acc) (hdepth : 1 ≤ ep.sqDepth) (hlt : ep.completedSeq < ep.nextSeq) :
    ∃ w ∈ ep.sent, w.signaled = true ∧ ep.completedSeq < w.qop.seq ∧ w.qop.seq ≤ ep.postedSeq := by
  rcases h.idle with hempty | hfull
  · -- everything has been sent, the end of the last batch last
    have hsplit := h.inv.split
    have hnil : ep.q.toList = [] := eq_nil_of_length_eq_zero (by rw [Ring.length_toList, hempty])
    rw [hnil, append_nil] at hsplit
    cases hget : acc.getLast? with
    | none =>
      have hnext := h.inv.next
      rw [List.getLast?_eq_none_iff.mp hget, length_nil] at hnext
      omega
    | some o =>
      have hmem := mem_of_getLast? hget
      rw [← hsplit] at hmem
      obtain ⟨w, hw, rfl⟩ := mem_map.mp hmem
      have hseq := h.inv.seq_getLast? hget
      exact ⟨w, hw, h.inv.ends w hw (h.lastEnd _ hget), by omega, (h.inv.seq_mem hw).2⟩
  · -- a full send queue is longer than the distance between signals
    obtain ⟨hle, hgap⟩ := h.inv.gap
    rcases h.inv.last with hzero | ⟨w, hw, hsignaled, hseq⟩
    · omega
    · exact ⟨w, hw, hsignaled, by omega, by omega⟩

/-- A signaled operation that is not complete has a completion that was not polled. -/
theorem Inv.exists_completion (h : ep.Inv ep.sent acc) {w : SendWr} (hw : w ∈ ep.sent)
    (hsignaled : w.signaled = true) (hlt : ep.completedSeq < w.qop.seq) :
    (signaledSeqs ep.sent)[ep.polled]? ≠ none := by
  intro hnone
  have hall : (signaledSeqs ep.sent).take ep.polled = signaledSeqs ep.sent :=
    take_of_length_le (List.getElem?_eq_none_iff.mp hnone)
  have hmem : w.qop.seq ∈ signaledSeqs ep.sent :=
    mem_map.mpr ⟨w, mem_filter.mpr ⟨hw, hsignaled⟩, rfl⟩
  have hle := h.known w.qop.seq (by rw [hall]; exact hmem)
  omega

theorem Rest.reap (h : ep.Rest acc) (hsend : ∀ n, env.postSend n = true) {statuses : List Bool}
    (hall : ∀ ok ∈ statuses, ok = true) :
    (ep.reap env statuses).Rest acc ∧ (ep.reap env statuses).sqDepth = ep.sqDepth ∧
      (ep.reap env statuses).tickets = ep.tickets ∧
      ep.completedSeq ≤ (ep.reap env statuses).completedSeq ∧
      (1 ≤ ep.sqDepth → statuses ≠ [] → ep.completedSeq < ep.nextSeq →
        ep.completedSeq < (ep.reap env statuses).completedSeq) := by
  unfold Endpoint.reap
  split_ifs with hnothing
  · refine ⟨h, rfl, rfl, le_rfl, fun hdepth hne hlt => ?_⟩
    obtain ⟨w, hw, hsignaled, hseq, -⟩ := h.inFlight hdepth hlt
    rcases hnothing with hnil | hnone
    · exact absurd hnil hne
    · exact absurd hnone (h.inv.exists_completion hw hsignaled hseq)
  · rw [not_or] at hnothing
    obtain ⟨hinv, hdepth, htickets, hle, hlt⟩ := completes_spec hall h.inv
    obtain ⟨hrest, hkept⟩ := hinv.drainLocked hsend h.lastEnd (by rw [htickets]; exact h.tickets)
    refine ⟨hrest, hkept.sqDepth.trans hdepth, hkept.tickets.trans htickets, ?_, fun _ _ _ => ?_⟩
    · rw [hkept.completedSeq]
      exact hle
    · rw [hkept.completedSeq]
      exact hlt hnothing.1 hnothing.2

/-! ### Runs -/

/-- A locked section comes to rest. -/
theorem Rest.step (h : ep.Rest acc) (hsend : ∀ n, env.postSend n = true)
    (hmalloc : ∀ n, env.malloc n = true) {e : EpEvent} (he : e.Succeeds) :
    (ep.step env e).Rest (accept acc e) ∧ (ep.step env e).sqDepth = ep.sqDepth := by
  cases e with
  | post opcode ops => exact h.cfPost hsend hmalloc opcode ops
  | drain =>
    obtain ⟨hrest, hkept⟩ := h.inv.drainLocked hsend h.lastEnd h.tickets
    exact ⟨hrest, hkept.sqDepth⟩
  | reap statuses =>
    obtain ⟨hrest, hdepth, -⟩ := h.reap hsend he
    exact ⟨hrest, hdepth⟩

/-- A run without failures is at rest after every locked section. -/
theorem rest_of_run (hsend : ∀ n, env.postSend n = true) (hmalloc : ∀ n, env.malloc n = true)
    {d : ℕ} {events : List EpEvent} (hall : (∀ e ∈ events, e.Succeeds)) :
    (run env d events).Rest (accepted events) ∧ (run env d events).sqDepth = d := by
  induction events using List.reverseRecOn with
  | nil =>
    refine ⟨⟨⟨rfl, rfl, rfl, rfl, rfl, le_rfl, Nat.zero_le _, ?_, Or.inl rfl, ⟨le_rfl, ?_⟩, le_rfl, ?_, ?_⟩,
      Or.inl rfl, ?_, ?_⟩, rfl⟩
    · exact fun w hw => absurd hw not_mem_nil
    · show 0 < 0 + max 1 (d / 2)
      omega
    · exact fun s hs => absurd hs not_mem_nil
    · exact fun s hs => absurd hs not_mem_nil
    · exact fun o ho => nomatch ho
    · exact fun t ht => absurd ht not_mem_nil
  | append_singleton events e ih =>
    obtain ⟨hrest, hdepth⟩ := ih fun e' he' => hall e' (mem_append_left _ he')
    have hstep := hrest.step hsend hmalloc (hall e (mem_append_right _ mem_cons_self))
    rw [run, accepted, foldl_append, foldl_append]
    exact ⟨hstep.1, hstep.2.trans hdepth⟩

/-- Every round of reaping that finds something completes an operation, until all are. -/
theorem Rest.reaps (hsend : ∀ n, env.postSend n = true) : ∀ {rounds : List (List Bool)} {ep : Endpoint},
    ep.Rest acc → 1 ≤ ep.sqDepth → (∀ r ∈ rounds, r ≠ [] ∧ ∀ ok ∈ r, ok = true) →
      ep.nextSeq ≤ ep.completedSeq + rounds.length →
      ep.nextSeq ≤ ((rounds.map EpEvent.reap).foldl (Endpoint.step env) ep).completedSeq := by
  intro rounds
  induction rounds with
  | nil => exact fun _ _ _ hle => hle
  | cons r rounds ih =>
    intro ep h hdepth hall hle
    obtain ⟨hne, hok⟩ := hall r mem_cons_self
    obtain ⟨hrest, hdepth', -, hmono, hlt⟩ := h.reap hsend hok
    have hnext : (ep.reap env r).nextSeq = ep.nextSeq := hrest.inv.next.trans h.inv.next.symm
    rw [length_cons] at hle
    have hgo := ih hrest (hdepth'.symm ▸ hdepth) (fun r' hr' => hall r' (mem_cons_of_mem _ hr'))
    rw [hnext] at hgo
    apply hgo
    by_cases hdone : ep.completedSeq < ep.nextSeq
    · have := hlt hdepth hne hdone
      omega
    · omega

variable (env) in
/-- Order, bound and progress of an endpoint that has accepted `acc`. -/
structure Progress (ep : Endpoint) (acc : List QOp) : Prop where
  order : ep.sent.map SendWr.qop ++ ep.q.toList = acc
  /-- They are numbered from one on, and `posted_seq` is the last one handed over. -/
  seqs : acc.map QOp.seq = List.range' 1 acc.length ∧ ep.postedSeq = ep.sent.length
  /-- The send queue is not overfull. -/
  depth : ep.completedSeq ≤ ep.postedSeq ∧ ep.postedSeq - ep.completedSeq ≤ ep.sqDepth
  /-- When operations wait for room, a signaled one is in flight. -/
  signaled : ep.q.len ≠ 0 → ep.sqDepth ≤ ep.postedSeq - ep.completedSeq →
    ∃ w ∈ ep.sent, w.signaled = true ∧ ep.completedSeq < w.qop.seq ∧ w.qop.seq ≤ ep.postedSeq
  ends : ∀ w ∈ ep.sent, w.qop.batchEnd = true → w.signaled = true
  /-- A ticket that is not complete has a signaled operation in flight, and is complete when
  completions have been found as often as there are operations to complete. -/
  tickets : ∀ t ∈ ep.tickets, (ep.completedSeq < t →
      ∃ w ∈ ep.sent, w.signaled = true ∧ ep.completedSeq < w.qop.seq) ∧
    ∀ rounds : List (List Bool), (∀ r ∈ rounds, r ≠ [] ∧ ∀ ok ∈ r, ok = true) →
      ep.nextSeq ≤ ep.completedSeq + rounds.length →
      t ≤ ((rounds.map EpEvent.reap).foldl (step env) ep).completedSeq

theorem Rest.ticket_le (h : ep.Rest acc) {t : ℕ} (ht : t ∈ ep.tickets) : t ≤ ep.nextSeq := by
  rcases h.tickets t ht with rfl | ⟨o, ho, rfl, -⟩
  · exact Nat.zero_le _
  · have hmem : o.seq ∈ acc.map QOp.seq := mem_map_of_mem ho
    rw [h.inv.seqs, mem_range'_1] at hmem
    rw [h.inv.next]
    omega

/-- **The endpoint makes progress.** For every positive depth and every interleaving of posts,
drains and completions in which nothing fails, the operations reach the NIC once and in the order of
their numbers, never more than the depth are in flight, and no ticket waits for a completion that
does not come. -/
theorem progress_of_run (hsend : ∀ n, env.postSend n = true) (hmalloc : ∀ n, env.malloc n = true)
    {d : ℕ} (hd : 1 ≤ d) {events : List EpEvent} (hall : ∀ e ∈ events, e.Succeeds) :
    (run env d events).Progress env (accepted events) ∧ (run env d events).sqDepth = d := by
  obtain ⟨hrest, hdepth⟩ := @rest_of_run env hsend hmalloc d events hall
  have hpos : 1 ≤ (run env d events).sqDepth := hdepth.symm ▸ hd
  have hinv := hrest.inv
  refine ⟨⟨hinv.split, ⟨hinv.seqs, hinv.posted⟩, ⟨hinv.completed_le, ?_⟩, ?_, hinv.ends, ?_⟩, hdepth⟩
  · have := hinv.fits
    omega
  · intro hlen hfull
    apply hrest.inFlight hpos
    -- what waits in the ring has a number beyond the last one posted
    have hnext := hinv.next
    rw [← hinv.split, length_append, length_map, Ring.length_toList, ← hinv.posted] at hnext
    omega
  · intro t ht
    have hle := hrest.ticket_le ht
    refine ⟨fun hlt => ?_, fun rounds hrounds hmany => ?_⟩
    · obtain ⟨w, hw, hsignaled, hseq, -⟩ := hrest.inFlight hpos (hlt.trans_le hle)
      exact ⟨w, hw, hsignaled, hseq⟩
    · exact hle.trans (Rest.reaps hsend hrest hpos hrounds hmany)

/-- Nothing fails. -/
def sampleEpEnv : EpEnv := ⟨fun _ => true, fun _ => true⟩

/-- Two operations for a send queue of one. -/
def sampleEpEvents : List EpEvent := [.post 1 [⟨0, 64, 1, 2, 8⟩, ⟨8, 72, 1, 2, 8⟩]]

theorem progress_of_two_ops : (run sampleEpEnv 1 sampleEpEvents).q.len = 1 ∧
    (run sampleEpEnv 1 sampleEpEvents).tickets = [2] ∧
    (∃ w ∈ (run sampleEpEnv 1 sampleEpEvents).sent, w.signaled = true ∧
      0 < w.qop.seq ∧ w.qop.seq ≤ (run sampleEpEnv 1 sampleEpEvents).postedSeq) ∧
    2 ≤ (run sampleEpEnv 1 (sampleEpEvents ++ [.reap [true], .reap [true]])).completedSeq := by
  have hlen : (run sampleEpEnv 1 sampleEpEvents).q.len = 1 := by decide +kernel
  have htickets : (run sampleEpEnv 1 sampleEpEvents).tickets = [2] := by decide +kernel
  have hsucceeds : ∀ e ∈ sampleEpEvents, e.Succeeds := by
    intro e he
    cases mem_singleton.mp he
    trivial
  have hprogress := (@progress_of_run sampleEpEnv (fun _ => rfl) (fun _ => rfl) 1 le_rfl
    sampleEpEvents hsucceeds).1
  refine ⟨hlen, htickets, hprogress.signaled (by rw [hlen]; decide) (by decide +kernel), ?_⟩
  refine (hprogress.tickets 2 (by rw [htickets]; exact mem_singleton.mpr rfl)).2
    [[true], [true]] ?_ (by decide +kernel)
  simp

end Endpoint

end CacheFlow
