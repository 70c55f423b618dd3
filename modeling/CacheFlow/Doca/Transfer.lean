import CacheFlow.Doca.Chunks
import CacheFlow.Lib.Steps

/-!
# One transfer on the DPU

The handler of a request submits its chunks one after the other. While it waits for room in the
queue of the engine the callbacks of earlier chunks run, and after it has returned the main loop runs
the others. So a transfer is a machine with two events, the outcome of the next submission and the
callback of a chunk in flight, in any order. A request of several chunks has a tracker that counts
them; whoever counts the last one sends the completion and frees the tracker.

## Main definitions

* `Answered` — one completion, at the end, with the right status; the tracker is freed once.

## Main results

* `Live.step` — one event.
* `answered_iff` — which complete runs answer the host.
-/

namespace CacheFlow.Doca

open List

/-! ### The state -/

/-- `chunk_tracker_t`. -/
structure ChunkTracker where
  transferId : UInt64
  totalLength : UInt64
  chunksTotal : ℕ
  chunksCompleted : ℕ
  chunksFailed : ℕ
  deriving DecidableEq, Repr

/-- What the pointer to the tracker points to. -/
inductive TrackerCell where
  /-- `NULL`: a request of one chunk has none. -/
  | null
  | live (tracker : ChunkTracker)
  | freed
  deriving DecidableEq, Repr

/-- A transfer: what is left to submit, what is in flight and what was sent. -/
structure Transfer where
  request : TransferRequest
  todo : List Chunk
  /-- The accepted chunks whose callback has not run. -/
  inFlight : List Chunk
  tracker : TrackerCell
  /-- How often a tracker was allocated. -/
  allocs : ℕ
  /-- How often it was freed. -/
  frees : ℕ
  /-- Whether it was used after that. -/
  misused : Bool
  /-- The completions sent to the host. -/
  sent : List TransferComplete
  deriving DecidableEq, Repr

namespace Transfer

/-- `send_transfer_completion`. -/
def sendCompletion (t : Transfer) (status : ErrorCode) (bytes : UInt64) : Transfer :=
  { t with sent := t.sent ++ [⟨t.request.transferId, status, bytes⟩] }

/-- `free(tracker)`. -/
def freeTracker (t : Transfer) : Transfer :=
  { t with tracker := .freed, frees := t.frees + 1 }

/-- `dma_completed_callback`. -/
def dmaCompletedCallback (t : Transfer) (c : Chunk) : Transfer :=
  match t.tracker with
  | .null => t.sendCompletion .success c.length
  | .freed => { t with misused := true }
  | .live tracker =>
    let tracker := { tracker with chunksCompleted := tracker.chunksCompleted + 1 }
    if tracker.chunksTotal ≤ tracker.chunksCompleted + tracker.chunksFailed then
      let status := if tracker.chunksFailed = 0 then ErrorCode.success else .dmaFailed
      (t.sendCompletion status tracker.totalLength).freeTracker
    else { t with tracker := .live tracker }

/-- `dma_error_callback`. -/
def dmaErrorCallback (t : Transfer) : Transfer :=
  match t.tracker with
  | .null => t.sendCompletion .dmaFailed 0
  | .freed => { t with misused := true }
  | .live tracker =>
    let tracker := { tracker with chunksFailed := tracker.chunksFailed + 1 }
    if tracker.chunksTotal ≤ tracker.chunksCompleted + tracker.chunksFailed then
      (t.sendCompletion .dmaFailed 0).freeTracker
    else { t with tracker := .live tracker }

/-- `tracker->chunks_failed++` in the submission loop; a single chunk that is refused leaves no
trace. -/
def countRefused (t : Transfer) : Transfer :=
  match t.tracker with
  | .null => t
  | .freed => { t with misused := true }
  | .live tracker =>
    { t with tracker := .live { tracker with chunksFailed := tracker.chunksFailed + 1 } }

/-- The test after the submission loop. -/
def afterLoop (t : Transfer) : Transfer :=
  match t.tracker with
  | .null => t
  | .freed => { t with misused := true }
  | .live tracker =>
    if tracker.chunksFailed = tracker.chunksTotal then
      (t.sendCompletion .dmaFailed 0).freeTracker
    else t

/-- One round of the submission loop, with the outcome of `submit_dma_chunk`. -/
def submitNext (t : Transfer) (accepted : Bool) (c : Chunk) (rest : List Chunk) : Transfer :=
  let t :=
    if accepted then { t with todo := rest, inFlight := t.inFlight ++ [c] }
    else countRefused { t with todo := rest }
  if rest = [] then t.afterLoop else t

end Transfer

/-! ### The handlers -/

/-- A refused STORE is only logged. -/
def refuseStore (req : TransferRequest) : Transfer :=
  ⟨req, [], [], .null, 0, 0, false, []⟩

/-- A refused LOAD is answered. -/
def refuseLoad (req : TransferRequest) : Transfer :=
  ⟨req, [], [], .null, 0, 0, false, [⟨req.transferId, .invalidBuffer, 0⟩]⟩

/-- The handlers up to the first submission: the check, and the tracker of a chunked request. -/
def beginTransfer (refuse : TransferRequest → Transfer) (dma : DmaEngine)
    (buffers : UInt64 → Option DpuBuffer) (req : TransferRequest) : Transfer :=
  match admitRequest buffers req with
  | .error _ => refuse req
  | .ok _ =>
    if isChunked dma req then
      let tracker : ChunkTracker :=
        ⟨req.transferId, req.length, (numChunks dma req.length).toNat, 0, 0⟩
      let t : Transfer := ⟨req, chunksOf dma req, [], .live tracker, 1, 0, false, []⟩
      if t.todo = [] then t.afterLoop else t
    else ⟨req, chunksOf dma req, [], .null, 0, 0, false, []⟩

/-- `handle_transfer_request`. -/
def handleTransferRequest := beginTransfer refuseStore

/-- `handle_load_request`. -/
def handleLoadRequest := beginTransfer refuseLoad

/-- The handler of a request, by its direction. -/
def handleRequest : Direction → DmaEngine → (UInt64 → Option DpuBuffer) → TransferRequest → Transfer
  | .store => handleTransferRequest
  | .load => handleLoadRequest

/-! ### Events and runs -/

/-- What can happen to a transfer. -/
inductive TransferEvent where
  /-- The next chunk is submitted and accepted, or not. -/
  | submit (accepted : Bool)
  /-- The callback of a chunk in flight runs, for a completed copy or for an error. -/
  | callback (i : ℕ) (completed : Bool)
  deriving DecidableEq, Repr

/-- Whether an event is what one hopes for. -/
def TransferEvent.good : TransferEvent → Bool
  | .submit accepted => accepted
  | .callback _ completed => completed

namespace Transfer

/-- One event; `none` if it cannot happen. -/
def step (t : Transfer) : TransferEvent → Option Transfer
  | .submit accepted =>
    match t.todo with
    | [] => none
    | c :: rest => some (t.submitNext accepted c rest)
  | .callback i completed =>
    match t.inFlight[i]? with
    | none => none
    | some c =>
      let t := { t with inFlight := t.inFlight.eraseIdx i }
      some (if completed then t.dmaCompletedCallback c else t.dmaErrorCallback)

/-- The events one after the other. -/
def run : Transfer → List TransferEvent → Option Transfer := Steps.run step

/-- Every chunk was submitted, and the callback of every accepted chunk has run. -/
def Done (t : Transfer) : Prop := t.todo = [] ∧ t.inFlight = []

/-- The last submission may fail: another chunk is in flight, whose callback will send the
completion, or no chunk was completed, so that the test after the loop sends it. -/
def MayFailLast (t : Transfer) : Prop :=
  match t.tracker with
  | .live tracker => t.inFlight ≠ [] ∨ tracker.chunksCompleted = 0
  | _ => False

/-- A submission that fails, of the last chunk, and nobody is left to send the completion. -/
def LosesReply (t : Transfer) (e : TransferEvent) : Prop :=
  e = .submit false ∧ t.todo.length = 1 ∧ ¬ t.MayFailLast

/-- No event of a run loses the reply. -/
def Keeps : Transfer → List TransferEvent → Prop :=
  Steps.Each step fun t e => ¬ t.LosesReply e

end Transfer

/-- The host is told once, when all is over, and truthfully; and the tracker is freed once. -/
structure Answered (t₀ : Transfer) (es : List TransferEvent) (t : Transfer) : Prop where
  one : t.sent.map (·.transferId) = [t₀.request.transferId]
  last : Steps.Always Transfer.step (fun t₁ => t₁.sent ≠ [] → t₁.Done) t₀ es
  /-- It reports success if and only if the chunks were all accepted and completed. -/
  status : (∃ m ∈ t.sent, m.status = .success) ↔ es ≠ [] ∧ ∀ e ∈ es, e.good = true
  freed : t.frees = t.allocs ∧ t.allocs ≤ 1
  unused : t.misused = false

/-! ### What one event does -/

namespace Transfer

/-- The transfer will still be answered, or has been: after the events so far. -/
inductive Live (id : UInt64) (t : Transfer) (es : List TransferEvent) : Prop where
  /-- A single chunk is to be submitted or in flight. -/
  | single (htracker : t.tracker = .null) (hone : t.todo.length + t.inFlight.length = 1)
      (hgood : ∀ e ∈ es, e.good = true) (hsent : t.sent = []) (hallocs : t.allocs = 0)
      (hfrees : t.frees = 0) (hmisused : t.misused = false)
      (hid : t.request.transferId = id)
  /-- The tracker counts, and something is left to do. -/
  | tracked (tracker : ChunkTracker) (htracker : t.tracker = .live tracker)
      (hopen : 0 < t.todo.length + t.inFlight.length)
      (htotal : tracker.chunksTotal = t.todo.length + t.inFlight.length
        + tracker.chunksCompleted + tracker.chunksFailed)
      (hgood : tracker.chunksFailed = 0 ↔ ∀ e ∈ es, e.good = true) (hsent : t.sent = [])
      (hallocs : t.allocs = 1) (hfrees : t.frees = 0) (hmisused : t.misused = false)
      (hid : t.request.transferId = id)
  | answered (hdone : t.Done) (m : TransferComplete) (hsent : t.sent = [m])
      (hm : m.transferId = id) (hstatus : m.status = .success ↔ es ≠ [] ∧ ∀ e ∈ es, e.good = true)
      (hfreed : t.frees = t.allocs ∧ t.allocs ≤ 1) (hmisused : t.misused = false)

/-- Nobody will send the completion any more. -/
def Lost (t : Transfer) : Prop := t.Done ∧ t.sent = []

variable {e : TransferEvent}

theorem not_step_of_done {t t' : Transfer} (h : t.Done) : t.step e ≠ some t' := by
  obtain ⟨htodo, hflight⟩ := h
  cases e with
  | submit accepted => simp [step, htodo]
  | callback i completed => simp [step, hflight]

theorem eq_of_run_of_done {t t' : Transfer} {es : List TransferEvent} (h : t.Done)
    (hrun : t.run es = some t') : t = t' := by
  cases es with
  | nil => exact Option.some_inj.mp hrun
  | cons e es =>
    obtain ⟨t₁, hstep, -⟩ := Option.bind_eq_some_iff.mp hrun
    exact absurd hstep (not_step_of_done h)

theorem forall_good_concat {es : List TransferEvent} :
    (∀ x ∈ es ++ [e], x.good = true) ↔ (∀ x ∈ es, x.good = true) ∧ e.good = true := by
  simp [or_imp, forall_and]

variable {id : UInt64} {t t' : Transfer} {es : List TransferEvent}

variable {c : Chunk}

/-- The callback of a chunk, for a completed copy or for an error. -/
def callback (completed : Bool) (t : Transfer) (c : Chunk) : Transfer :=
  if completed then t.dmaCompletedCallback c else t.dmaErrorCallback

theorem callback_null (completed : Bool) (htracker : t.tracker = .null) :
    callback completed t c =
      t.sendCompletion (if completed then .success else .dmaFailed)
        (if completed then c.length else 0) := by
  cases completed <;> simp [callback, dmaCompletedCallback, dmaErrorCallback, htracker]

theorem callback_live {tracker : ChunkTracker} (completed : Bool)
    (htracker : t.tracker = .live tracker) :
    callback completed t c =
      if tracker.chunksTotal ≤ tracker.chunksCompleted + tracker.chunksFailed + 1 then
        (t.sendCompletion
          (if tracker.chunksFailed + (!completed).toNat = 0 then .success else .dmaFailed)
          (if completed then tracker.totalLength else 0)).freeTracker
      else { t with tracker := .live { tracker with
        chunksCompleted := tracker.chunksCompleted + completed.toNat
        chunksFailed := tracker.chunksFailed + (!completed).toNat } } := by
  cases completed <;>
    simp [callback, dmaCompletedCallback, dmaErrorCallback, htracker, Nat.add_assoc, Nat.add_comm 1]

section

variable (h : Live id t es)
include h

/-- The callback of a chunk in flight: the transfer stays live, or the last one answers it. -/
theorem Live.callback {i : ℕ} (completed : Bool) (hc : t.inFlight[i]? = some c) :
    Live id (callback completed { t with inFlight := t.inFlight.eraseIdx i } c)
      (es ++ [.callback i completed]) := by
  obtain ⟨hi, -⟩ := List.getElem?_eq_some_iff.mp hc
  have hlen := length_eraseIdx_of_lt hi
  have hgood' : (∀ x ∈ es ++ [TransferEvent.callback i completed], x.good = true) ↔
      (∀ x ∈ es, x.good = true) ∧ completed = true := forall_good_concat
  cases h with
  | single htracker hone hgood hsent hallocs hfrees hmisused hid =>
    have htodo : t.todo = [] := eq_nil_of_length_eq_zero (by omega)
    have hflight : t.inFlight.eraseIdx i = [] := eq_nil_of_length_eq_zero (by omega)
    rw [callback_null (t := { t with inFlight := t.inFlight.eraseIdx i }) completed htracker]
    refine .answered ⟨htodo, hflight⟩ _ (congrArg (· ++ [_]) hsent) hid ?_ ?_ hmisused
    · rw [hgood', and_iff_right hgood]
      cases completed <;> simp
    · exact ⟨hfrees.trans hallocs.symm, hallocs.trans_le (Nat.zero_le 1)⟩
  | tracked tracker htracker hopen htotal hgood hsent hallocs hfrees hmisused hid =>
    have hfailed : tracker.chunksFailed + (!completed).toNat = 0 ↔
        ∀ x ∈ es ++ [TransferEvent.callback i completed], x.good = true := by
      rw [hgood', ← hgood, Nat.add_eq_zero_iff]
      cases completed <;> simp
    have hone : completed.toNat + (!completed).toNat = 1 := by cases completed <;> rfl
    rw [callback_live (t := { t with inFlight := t.inFlight.eraseIdx i }) completed htracker]
    split
    · -- the last one: the callback sends the completion
      rename_i hlast
      have htodo : t.todo = [] := eq_nil_of_length_eq_zero (by omega)
      have hflight : t.inFlight.eraseIdx i = [] := eq_nil_of_length_eq_zero (by omega)
      refine .answered ⟨htodo, hflight⟩ _ (congrArg (· ++ [_]) hsent) hid ?_ ?_ hmisused
      · rw [← hfailed]
        by_cases hzero : tracker.chunksFailed + (!completed).toNat = 0
        · rw [if_pos hzero]
          exact ⟨fun _ => ⟨by simp, hzero⟩, fun _ => rfl⟩
        · rw [if_neg hzero]
          exact ⟨nofun, fun hall => absurd hall.2 hzero⟩
      · simp [freeTracker, sendCompletion, hallocs, hfrees]
    · rename_i hnot
      refine .tracked _ rfl ?_ ?_ hfailed hsent hallocs hfrees hmisused hid
      · show 0 < t.todo.length + (t.inFlight.eraseIdx i).length
        omega
      · show tracker.chunksTotal = t.todo.length + (t.inFlight.eraseIdx i).length
          + (tracker.chunksCompleted + completed.toNat)
          + (tracker.chunksFailed + (!completed).toNat)
        omega
  | answered hdone m hsent hm hstatus hfreed hmisused =>
    rw [hdone.2] at hi
    exact absurd hi (Nat.not_lt_zero i)

/-- A chunk that is accepted: the transfer stays live, and the test after the loop finds nothing. -/
theorem Live.accepted {rest : List Chunk} (hc : t.todo = c :: rest) :
    Live id (t.submitNext true c rest) (es ++ [.submit true]) := by
  have hlen : t.todo.length = rest.length + 1 := by rw [hc, length_cons]
  have hgood' : (∀ x ∈ es ++ [TransferEvent.submit true], x.good = true) ↔
      ∀ x ∈ es, x.good = true := by
    rw [forall_good_concat]
    exact and_iff_left rfl
  cases h with
  | single htracker hone hgood hsent hallocs hfrees hmisused hid =>
    have hnext : t.submitNext true c rest
        = { t with todo := rest, inFlight := t.inFlight ++ [c] } := by
      simp [submitNext, afterLoop, htracker]
    rw [hnext]
    refine .single htracker ?_ (hgood'.mpr hgood) hsent hallocs hfrees hmisused hid
    show rest.length + (t.inFlight ++ [c]).length = 1
    rw [length_append, length_singleton]
    omega
  | tracked tracker htracker hopen htotal hgood hsent hallocs hfrees hmisused hid =>
    have hne : tracker.chunksFailed ≠ tracker.chunksTotal := by omega
    have hnext : t.submitNext true c rest
        = { t with todo := rest, inFlight := t.inFlight ++ [c] } := by
      simp [submitNext, afterLoop, htracker, hne]
    rw [hnext]
    have hlen' : rest.length + (t.inFlight ++ [c]).length = t.todo.length + t.inFlight.length := by
      rw [length_append, length_singleton]
      omega
    refine .tracked tracker htracker (hlen'.symm ▸ hopen) ?_ (hgood.trans hgood'.symm) hsent hallocs
      hfrees hmisused hid
    show tracker.chunksTotal = rest.length + (t.inFlight ++ [c]).length
      + tracker.chunksCompleted + tracker.chunksFailed
    rw [hlen', htotal]
  | answered hdone m hsent hm hstatus hfreed hmisused =>
    -- then there is no chunk left to submit
    rw [hdone.1] at hc
    exact absurd hc nofun

/-- A chunk that is refused: unless it is the last one and nobody is left, the transfer stays live. -/
theorem Live.refused {rest : List Chunk} (hc : t.todo = c :: rest) :
    (t.LosesReply (.submit false) → Lost (t.submitNext false c rest)) ∧
      (¬ t.LosesReply (.submit false) →
        Live id (t.submitNext false c rest) (es ++ [.submit false])) := by
  have hlen : t.todo.length = rest.length + 1 := by rw [hc, length_cons]
  have hbad : ¬ ∀ x ∈ es ++ [TransferEvent.submit false], x.good = true := by
    rw [forall_good_concat]
    exact fun hall => Bool.false_ne_true hall.2
  cases h with
  | single htracker hone hgood hsent hallocs hfrees hmisused hid =>
    -- the only chunk, and there is no tracker: nobody answers
    have hrest : rest = [] := eq_nil_of_length_eq_zero (by omega)
    have hflight : t.inFlight = [] := eq_nil_of_length_eq_zero (by omega)
    have hloses : t.LosesReply (.submit false) := ⟨rfl, by omega, by simp [MayFailLast, htracker]⟩
    refine ⟨fun _ => ?_, fun hnot => absurd hloses hnot⟩
    simp [Lost, Done, submitNext, countRefused, afterLoop, htracker, hrest, hflight, hsent]
  | tracked tracker htracker hopen htotal hgood hsent hallocs hfrees hmisused hid =>
    by_cases hall : rest = [] ∧ tracker.chunksFailed + 1 = tracker.chunksTotal
    · -- all chunks have failed: the test after the loop sends the completion
      obtain ⟨hrest, hall⟩ := hall
      rw [hrest, length_nil] at hlen
      have hflight : t.inFlight = [] := eq_nil_of_length_eq_zero (by omega)
      have hmay : t.MayFailLast := by
        simp only [MayFailLast, htracker]
        exact Or.inr (by omega)
      refine ⟨fun hloses => absurd hmay hloses.2.2, fun _ => ?_⟩
      have hnext : t.submitNext false c rest
          = ((countRefused { t with todo := [] }).sendCompletion .dmaFailed 0).freeTracker := by
        simp [submitNext, countRefused, afterLoop, htracker, hrest, hall]
      rw [hnext]
      refine .answered ⟨?_, ?_⟩ ⟨t.request.transferId, .dmaFailed, 0⟩ ?_ hid ?_ ?_ ?_
      · simp [countRefused, htracker, freeTracker, sendCompletion]
      · simp [countRefused, htracker, freeTracker, sendCompletion, hflight]
      · simp [countRefused, htracker, freeTracker, sendCompletion, hsent]
      · exact ⟨nofun, fun hall => absurd hall.2 hbad⟩
      · simp [countRefused, htracker, freeTracker, sendCompletion, hallocs, hfrees]
      · simp [countRefused, htracker, freeTracker, sendCompletion, hmisused]
    · -- others are under way, or have come through
      have hnext : t.submitNext false c rest = { t with
          todo := rest
          tracker := .live { tracker with chunksFailed := tracker.chunksFailed + 1 } } := by
        by_cases hrest : rest = []
        · simp [submitNext, countRefused, afterLoop, htracker, hrest, not_and.mp hall hrest]
        · simp [submitNext, countRefused, htracker, hrest]
      rw [hnext]
      constructor
      · rintro ⟨-, hone, hmay⟩
        simp only [MayFailLast, htracker, not_or, not_not] at hmay
        have hrest : rest = [] := eq_nil_of_length_eq_zero (by omega)
        exact ⟨⟨hrest, hmay.1⟩, hsent⟩
      · intro hnot
        have hleft : 0 < rest.length + t.inFlight.length := by
          by_contra hzero
          have hflight : t.inFlight = [] := eq_nil_of_length_eq_zero (by omega)
          refine hnot ⟨rfl, by omega, ?_⟩
          simp only [MayFailLast, htracker, hflight, ne_eq, not_true, false_or]
          exact fun hnone => hall ⟨eq_nil_of_length_eq_zero (by omega), by omega⟩
        refine .tracked _ rfl hleft ?_ ?_ hsent hallocs hfrees hmisused hid
        · show tracker.chunksTotal = rest.length + t.inFlight.length
            + tracker.chunksCompleted + (tracker.chunksFailed + 1)
          omega
        · exact ⟨fun hzero => absurd hzero (Nat.succ_ne_zero _), fun hall => absurd hall hbad⟩
  | answered hdone m hsent hm hstatus hfreed hmisused =>
    rw [hdone.1] at hc
    exact absurd hc nofun

/-- **One event.** A live transfer stays live, unless the event loses its reply. -/
theorem Live.step (hstep : t.step e = some t') :
    (t.LosesReply e → Lost t') ∧ (¬ t.LosesReply e → Live id t' (es ++ [e])) := by
  cases e with
  | submit accepted =>
    cases hc : t.todo with
    | nil => simp [Transfer.step, hc] at hstep
    | cons c rest =>
      obtain rfl : t.submitNext accepted c rest = t' := by simpa [Transfer.step, hc] using hstep
      cases accepted with
      | true => exact ⟨fun hloses => absurd hloses.1 (by decide), fun _ => h.accepted hc⟩
      | false => exact h.refused hc
  | callback i completed =>
    refine ⟨fun hloses => absurd hloses.1 nofun, fun _ => ?_⟩
    cases hc : t.inFlight[i]? with
    | none => simp [Transfer.step, hc] at hstep
    | some c =>
      obtain rfl : Transfer.callback completed { t with inFlight := t.inFlight.eraseIdx i } c
          = t' := by simpa [Transfer.step, Transfer.callback, hc] using hstep
      exact h.callback completed hc

end

/-! ### Whole runs -/

variable {t₀ : Transfer}

/-- **A run.** The transfer is live after it, or an event has lost its reply and the run is over. -/
theorem Live.run (h₀ : Live id t₀ []) : ∀ {es : List TransferEvent} {t : Transfer},
    t₀.run es = some t → (Live id t es ∧ t₀.Keeps es) ∨ (Lost t ∧ ¬ t₀.Keeps es) := by
  intro es
  induction es using List.reverseRecOn with
  | nil =>
    intro t hrun
    obtain rfl : t₀ = t := Option.some_inj.mp hrun
    exact Or.inl ⟨h₀, Steps.each_nil⟩
  | append_singleton es e ih =>
    intro t' hrun
    obtain ⟨t, hrun, hstep⟩ := Steps.run_concat_eq_some.mp hrun
    rw [Keeps, Steps.each_concat hrun]
    rcases ih hrun with ⟨hlive, hkeeps⟩ | ⟨hlost, -⟩
    · obtain ⟨hlost, hlive'⟩ := hlive.step hstep
      by_cases hloses : t.LosesReply e
      · exact Or.inr ⟨hlost hloses, fun hall => hall.2 hloses⟩
      · exact Or.inl ⟨hlive' hloses, hkeeps, hloses⟩
    · exact absurd hstep (not_step_of_done hlost.1)

theorem Live.done_of_sent (h : Live id t es) (hsent : t.sent ≠ []) : t.Done := by
  cases h with
  | single _ _ _ hnone => exact absurd hnone hsent
  | tracked _ _ _ _ _ hnone => exact absurd hnone hsent
  | answered hdone => exact hdone

/-- The end of a run that loses no reply. -/
theorem Live.answered_run (h₀ : Live t₀.request.transferId t₀ []) (hrun : t₀.run es = some t)
    (hdone : t.Done) (hkeeps : t₀.Keeps es) : Answered t₀ es t := by
  have hlast : Steps.Always Transfer.step (fun t₁ => t₁.sent ≠ [] → t₁.Done) t₀ es := by
    intro es₁ es₂ t₁ _ hrun₁ hsent
    rcases h₀.run hrun₁ with ⟨hlive, -⟩ | ⟨hlost, -⟩
    · exact hlive.done_of_sent hsent
    · exact hlost.1
  rcases h₀.run hrun with ⟨hlive, -⟩ | ⟨-, hloses⟩
  · cases hlive with
    | single _ hone => simp [hdone.1, hdone.2] at hone
    | tracked _ _ hopen => simp [hdone.1, hdone.2] at hopen
    | answered _ m hsent hm hstatus hfreed hmisused =>
      refine ⟨?_, hlast, ?_, hfreed, hmisused⟩
      · rw [hsent, map_singleton, hm]
      · rw [hsent, ← hstatus]
        simp
  · exact absurd hkeeps hloses

theorem Lost.not_answered (h : Lost t) : ¬ Answered t₀ es t := by
  intro hanswered
  have hone := hanswered.one
  rw [h.2] at hone
  exact absurd hone nofun

end Transfer

/-! ### The handlers -/

theorem length_chunkLoop (dma : DmaEngine) :
    ∀ (n : ℕ) (remaining offset : UInt64), (chunkLoop dma n remaining offset).length = n
  | 0, _, _ => rfl
  | n + 1, _, _ => congrArg (· + 1) (length_chunkLoop dma n _ _)

section Handlers

variable {dir : Direction} {dma : DmaEngine} {buffers : UInt64 → Option DpuBuffer}
  {req : TransferRequest}

theorem handleRequest_eq : handleRequest dir dma buffers req
    = beginTransfer (if dir = .load then refuseLoad else refuseStore) dma buffers req := by
  cases dir <;> rfl

theorem handleRequest_error {e : Refusal} (h : admitRequest buffers req = .error e) :
    handleRequest dir dma buffers req = if dir = .load then refuseLoad req else refuseStore req := by
  rw [handleRequest_eq, beginTransfer, h]
  cases dir <;> rfl

theorem live_beginTransfer {refuse : TransferRequest → Transfer} {buf : DpuBuffer}
    (h : admitRequest buffers req = .ok buf) :
    Transfer.Live req.transferId (beginTransfer refuse dma buffers req) [] := by
  have hnil : ∀ e ∈ ([] : List TransferEvent), e.good = true := fun e he => absurd he not_mem_nil
  unfold beginTransfer
  rw [h]
  dsimp only
  split
  · rename_i hchunked
    have hlen : (chunksOf dma req).length = (numChunks dma req.length).toNat := by
      rw [chunksOf, if_pos hchunked, length_chunkLoop]
    split
    · -- the number of chunks has wrapped to zero
      rename_i hempty
      have hzero : (numChunks dma req.length).toNat = 0 := by rw [← hlen, hempty]; rfl
      simp only [Transfer.afterLoop, hzero, if_true]
      refine .answered ⟨hempty, rfl⟩ ⟨req.transferId, .dmaFailed, 0⟩ rfl rfl ?_ ⟨rfl, le_rfl⟩ rfl
      exact ⟨nofun, fun hall => absurd rfl hall.1⟩
    · rename_i hne
      refine .tracked _ rfl ?_ ?_ ⟨fun _ => hnil, fun _ => rfl⟩ rfl rfl rfl rfl rfl
      · exact length_pos_of_ne_nil hne
      · exact hlen.symm
  · rename_i hsingle
    have hone : chunksOf dma req = [⟨req.offset, req.length⟩] := by rw [chunksOf, if_neg hsingle]
    refine .single rfl ?_ hnil rfl rfl rfl rfl rfl
    rw [hone]
    rfl

theorem request_handleRequest : (handleRequest dir dma buffers req).request = req := by
  rw [handleRequest_eq]
  unfold beginTransfer
  cases admitRequest buffers req with
  | error e => cases dir <;> rfl
  | ok buf =>
    dsimp only
    split
    · split
      · unfold Transfer.afterLoop
        dsimp only
        split <;> rfl
      · rfl
    · rfl

/-- A refused LOAD is live, for it is answered. -/
theorem live_refuseLoad : Transfer.Live req.transferId (refuseLoad req) [] :=
  .answered ⟨rfl, rfl⟩ ⟨req.transferId, .invalidBuffer, 0⟩ rfl rfl
    ⟨nofun, fun hall => absurd rfl hall.1⟩ ⟨rfl, Nat.zero_le 1⟩ rfl

/-- A refused STORE is lost, any other request is live. -/
theorem live_handleRequest (h : (∃ e, admitRequest buffers req = .error e) → dir = .load) :
    Transfer.Live req.transferId (handleRequest dir dma buffers req) [] := by
  cases hadmit : admitRequest buffers req with
  | error e =>
    rw [handleRequest_error hadmit, if_pos (h ⟨e, hadmit⟩)]
    exact live_refuseLoad
  | ok buf =>
    rw [handleRequest_eq]
    exact live_beginTransfer hadmit

end Handlers

/-- **One completion for each request.** Whatever the order of submissions and callbacks, a run that
is over has answered the host, once and truthfully, if and only if a refused request was a LOAD and
no submission has lost the reply. -/
theorem answered_iff (dir : Direction) (dma : DmaEngine) (buffers : UInt64 → Option DpuBuffer)
    (req : TransferRequest) (es : List TransferEvent) (t : Transfer)
    (hrun : (handleRequest dir dma buffers req).run es = some t) (hdone : t.Done) :
    Answered (handleRequest dir dma buffers req) es t ↔
      ((∃ e, admitRequest buffers req = .error e) → dir = .load) ∧
        (handleRequest dir dma buffers req).Keeps es := by
  constructor
  · intro hanswered
    have hload : (∃ e, admitRequest buffers req = .error e) → dir = .load := by
      rintro ⟨e, he⟩
      by_contra hstore
      rw [handleRequest_error he, if_neg hstore] at hrun hanswered
      obtain rfl := Transfer.eq_of_run_of_done ⟨rfl, rfl⟩ hrun
      exact absurd hanswered (Transfer.Lost.not_answered ⟨hdone, rfl⟩)
    refine ⟨hload, ?_⟩
    rcases (live_handleRequest hload).run hrun with ⟨-, hkeeps⟩ | ⟨hlost, -⟩
    · exact hkeeps
    · exact absurd hanswered hlost.not_answered
  · rintro ⟨hload, hkeeps⟩
    refine Transfer.Live.answered_run ?_ hrun hdone hkeeps
    rw [request_handleRequest]
    exact live_handleRequest hload

/-- Two chunks; the second callback runs before the first one. -/
def twoChunkRun : List TransferEvent :=
  [.submit true, .submit true, .callback 1 true, .callback 0 true]

/-- A STORE of two chunks. -/
def twoChunkRequest : TransferRequest := ⟨0, 0, 2048, 7⟩

/-- What it leaves. -/
def twoChunkTransfer : Transfer :=
  ⟨twoChunkRequest, [], [], .freed, 1, 1, false, [⟨7, .success, 2048⟩]⟩

/-- A STORE of two chunks whose submissions are accepted is answered. -/
theorem answered_twoChunks :
    Answered (handleRequest .store kilobyteDma (fun _ => some pageBuffer) twoChunkRequest) twoChunkRun
      twoChunkTransfer := by
  refine (answered_iff .store kilobyteDma (fun _ => some pageBuffer) twoChunkRequest twoChunkRun
    twoChunkTransfer (by decide +kernel) ⟨rfl, rfl⟩).mpr ⟨?_, ?_⟩
  · rintro ⟨e, he⟩
    have hok : admitRequest (fun _ => some pageBuffer) twoChunkRequest = .ok pageBuffer := by
      decide +kernel
    exact absurd he nofun
  · rintro es₁ e es₂ t₁ hes - ⟨rfl, -, -⟩
    have hmem : TransferEvent.submit false ∈ twoChunkRun := by
      rw [hes]
      exact mem_append_right _ mem_cons_self
    exact absurd hmem (by decide)

/-- The first chunk completes while the handler waits for room, and the second is refused: the run is
over, nothing was sent and the tracker is still there. -/
theorem unanswered_lastRefused :
    ∃ t, (handleRequest .store kilobyteDma (fun _ => some pageBuffer) twoChunkRequest).run
        [.submit true, .callback 0 true, .submit false] = some t ∧ t.Done ∧
      ¬ Answered (handleRequest .store kilobyteDma (fun _ => some pageBuffer) twoChunkRequest)
        [.submit true, .callback 0 true, .submit false] t := by
  refine ⟨⟨twoChunkRequest, [], [], .live ⟨7, 2048, 2, 1, 1⟩, 1, 0, false, []⟩, by decide +kernel,
    ⟨rfl, rfl⟩, fun hanswered => ?_⟩
  exact absurd hanswered.one nofun

end CacheFlow.Doca
