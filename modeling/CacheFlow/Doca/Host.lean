import CacheFlow.Doca.Chunks
import CacheFlow.Lib.Steps

/-!
# The blocking calls of the host

All messages of the DPU go through one bounded queue of the host. A call that waits pops the queue
until it finds what it looks for, and throws away the rest: `host_provider_wait_transfer` looks for
a completion with its transfer id, `host_provider_register_buffer` for any acknowledgement. The
call that unregisters a buffer does not wait for its acknowledgement at all.

Calls are numbered in the order in which they are made. The numbers are not in the messages; they
are kept beside them, to say whose answer a message is.

## Main definitions

* `Host.InTurn` — calls whose answers cannot be mistaken.

## Main results

* `Host.Orderly.step` — one event.
* `Host.always_sound_of_inTurn` — whole runs.
-/

namespace CacheFlow.Doca

open List Option

/-! ### Messages -/

/-- What the DPU sends to the host. -/
inductive Payload where
  /-- `MSG_ACK`. -/
  | ack
  /-- `MSG_TRANSFER_COMPLETE`. -/
  | transferComplete (comp : TransferComplete)
  deriving DecidableEq, Repr

/-- A message to the host. -/
structure Message where
  /-- The call that it answers. -/
  call : ℕ
  /-- The message. -/
  payload : Payload
  deriving DecidableEq, Repr

/-- It is a completion. -/
def Message.isCompletion (m : Message) : Bool := m.payload ≠ .ack

/-- What the host asks of the DPU. -/
inductive Ask where
  /-- `MSG_REGISTER_BUFFER`. -/
  | register
  /-- `MSG_UNREGISTER_BUFFER`. -/
  | unregister
  /-- `MSG_TRANSFER_REQUEST` or `MSG_LOAD_REQUEST`, with its id. -/
  | move (transferId : UInt64)
  deriving DecidableEq, Repr

/-- A request to the DPU. -/
structure Asked where
  /-- The call that sent it. -/
  call : ℕ
  /-- The request. -/
  ask : Ask
  deriving DecidableEq, Repr

/-- It is a store or a load. -/
def Asked.isMove (q : Asked) : Bool :=
  match q.ask with
  | .move _ => true
  | _ => false

/-! ### The host -/

/-- `MAX_QUEUE_SIZE`. -/
def maxQueueSize : ℕ := 128

/-- What the host is doing. -/
inductive Mode where
  /-- It is in no call. -/
  | idle
  /-- It waits for the acknowledgement of a registration, for so many more rounds. -/
  | registering (call rounds : ℕ)
  /-- It waits for a completion with this id, for so many more rounds. -/
  | waiting (call : ℕ) (transferId : UInt64) (rounds : ℕ)
  deriving DecidableEq, Repr

/-- What a blocking call returned. -/
inductive Returned where
  /-- The transfer of this call succeeded, or failed. -/
  | status (call : ℕ) (success : Bool)
  /-- The buffer of this call is registered. -/
  | registered (call : ℕ)
  /-- `DOCA_ERROR_TIME_OUT`. -/
  | timedOut (call : ℕ)
  deriving DecidableEq, Repr

/-- The host, with the requests on their way, and a record of what happened. -/
structure Host where
  nextTransferId : UInt64
  nextLoadId : UInt64
  /-- `msg_queue`. -/
  queue : List Message
  /-- What the host is doing. -/
  mode : Mode
  /-- The number of calls. -/
  calls : ℕ
  /-- The requests that have no answer yet. -/
  pending : List Asked
  /-- The stores and loads whose status has not been returned, with their ids. -/
  outstanding : List (ℕ × UInt64)
  /-- The registrations and unregistrations that the DPU has acknowledged. -/
  acknowledged : List ℕ
  /-- The statuses that the DPU has sent. -/
  reported : List (ℕ × ErrorCode)
  /-- What the blocking calls returned. -/
  returned : List Returned
  /-- The calls whose completion was thrown away while it was outstanding. -/
  lost : List ℕ
  deriving DecidableEq, Repr

namespace Host

/-- The host after `host_provider_init`. -/
def init : Host := ⟨1, 1000000, [], .idle, 0, [], [], [], [], [], []⟩

/-- A message is thrown away. -/
def discard (m : Message) (s : Host) : Host :=
  if m.isCompletion ∧ m.call ∈ s.outstanding.map (·.1) then { s with lost := s.lost ++ [m.call] }
  else s

/-- `message_queue_push`, of `client_recv_callback`. -/
def push (m : Message) (s : Host) : Host :=
  if maxQueueSize ≤ s.queue.length then s.discard m else { s with queue := s.queue ++ [m] }

/-! ### The calls -/

/-- A store or a load under an id; nothing is on its way if it could not be sent. -/
def request (id : UInt64) (sent : Bool) (s : Host) : Host :=
  if sent then
    { s with
      calls := s.calls + 1
      pending := s.pending ++ [⟨s.calls, .move id⟩]
      outstanding := s.outstanding ++ [(s.calls, id)] }
  else { s with calls := s.calls + 1 }

/-- `host_provider_transfer`. -/
def transfer (sent : Bool) (s : Host) : Host :=
  request s.nextTransferId sent { s with nextTransferId := s.nextTransferId + 1 }

/-- `host_provider_load`. -/
def load (sent : Bool) (s : Host) : Host :=
  request s.nextLoadId sent { s with nextLoadId := s.nextLoadId + 1 }

/-- The rounds of `host_provider_wait_transfer`: `int retries = timeout_ms * 10`. -/
def waitRounds (timeoutMs : UInt32) : ℕ :=
  let retries := (timeoutMs * 10).toNat
  if retries < 2 ^ 31 then retries else 0

/-- `host_provider_wait_transfer`, up to its loop. -/
def wait (call : ℕ) (timeoutMs : UInt32) (s : Host) : Option Host :=
  (s.outstanding.find? (·.1 = call)).map fun x =>
    { s with mode := .waiting call x.2 (waitRounds timeoutMs) }

/-- `host_provider_register_buffer`, up to its loop; it waits even if nothing could be sent. -/
def register (sent : Bool) (s : Host) : Host :=
  { s with
    calls := s.calls + 1
    pending := if sent then s.pending ++ [⟨s.calls, .register⟩] else s.pending
    mode := .registering s.calls 1000 }

/-- `host_provider_unregister_buffer`. -/
def unregister (sent : Bool) (s : Host) : Host :=
  { s with
    calls := s.calls + 1
    pending := if sent then s.pending ++ [⟨s.calls, .unregister⟩] else s.pending }

/-- One round of the loop of `host_provider_wait_transfer`. -/
def pollWait (call : ℕ) (id : UInt64) (rounds : ℕ) (s : Host) : Host :=
  match s.queue with
  | [] => { s with mode := .waiting call id rounds }
  | m :: queue =>
    match m.payload with
    | .transferComplete comp =>
      if comp.transferId = id then
        { s with
          queue := queue
          mode := .idle
          outstanding := s.outstanding.filter (·.1 ≠ call)
          returned := s.returned ++ [.status call (comp.status = .success)] }
      else discard m { s with queue := queue, mode := .waiting call id rounds }
    | .ack => { s with queue := queue, mode := .waiting call id rounds }

/-- One round of the loop of `host_provider_register_buffer`. -/
def pollRegister (call rounds : ℕ) (s : Host) : Host :=
  match s.queue with
  | [] => { s with mode := .registering call rounds }
  | m :: queue =>
    match m.payload with
    | .ack =>
      { s with queue := queue, mode := .idle, returned := s.returned ++ [.registered call] }
    | .transferComplete _ => discard m { s with queue := queue, mode := .registering call rounds }

/-- One round of the loop the host is in, or the end of it. -/
def poll (s : Host) : Option Host :=
  match s.mode with
  | .idle => none
  | .registering call 0 =>
    some { s with mode := .idle, returned := s.returned ++ [.timedOut call] }
  | .registering call (rounds + 1) => some (s.pollRegister call rounds)
  | .waiting call _ 0 => some { s with mode := .idle, returned := s.returned ++ [.timedOut call] }
  | .waiting call id (rounds + 1) => some (s.pollWait call id rounds)

/-! ### The DPU -/

/-- What the DPU answers to a request: an acknowledgement, or a status. -/
def replyTo (q : Asked) (status : ErrorCode) (bytes : UInt64) : Message where
  call := q.call
  payload :=
    match q.ask with
    | .move id => .transferComplete ⟨id, status, bytes⟩
    | _ => .ack

/-- The answer of the DPU arrives. -/
def answer (q : Asked) (status : ErrorCode) (bytes : UInt64) (s : Host) : Host :=
  push (replyTo q status bytes)
    { s with
      pending := s.pending.filter (·.call ≠ q.call)
      acknowledged := if q.isMove then s.acknowledged else s.acknowledged ++ [q.call]
      reported := if q.isMove then s.reported ++ [(q.call, status)] else s.reported }

/-- What can happen. -/
inductive Event where
  /-- `host_provider_transfer`. -/
  | transfer (sent : Bool)
  /-- `host_provider_load`. -/
  | load (sent : Bool)
  /-- `host_provider_wait_transfer`, for the transfer of this call. -/
  | wait (call : ℕ) (timeoutMs : UInt32)
  /-- `host_provider_register_buffer`. -/
  | register (sent : Bool)
  /-- `host_provider_unregister_buffer`. -/
  | unregister (sent : Bool)
  /-- A round of a loop. -/
  | poll
  /-- The answer to the request of this call arrives. -/
  | answer (call : ℕ) (status : ErrorCode) (bytes : UInt64)
  /-- The DPU refuses the request of this call without an answer. -/
  | refuse (call : ℕ)
  deriving DecidableEq, Repr

/-- One event; calls are made one after the other. -/
def step (s : Host) : Event → Option Host
  | .transfer sent => if s.mode = .idle then some (s.transfer sent) else none
  | .load sent => if s.mode = .idle then some (s.load sent) else none
  | .wait call timeoutMs => if s.mode = .idle then s.wait call timeoutMs else none
  | .register sent => if s.mode = .idle then some (s.register sent) else none
  | .unregister sent => if s.mode = .idle then some (s.unregister sent) else none
  | .poll => s.poll
  | .answer call status bytes =>
    (s.pending.find? (·.call = call)).map fun q => s.answer q status bytes
  | .refuse call => some { s with pending := s.pending.filter (·.call ≠ call) }

/-! ### What a caller relies on -/

/-- Every call gets its own answer. -/
structure Sound (s : Host) : Prop where
  /-- A returned status is the one that the DPU sent for the transfer. -/
  status : ∀ call success, .status call success ∈ s.returned →
    ∃ st, (call, st) ∈ s.reported ∧ success = decide (st = .success)
  registered : ∀ call, .registered call ∈ s.returned → call ∈ s.acknowledged
  lost : s.lost = []
  distinct : (s.outstanding.map (·.2)).Nodup

/-- It is the turn of this transfer: its completion is the first one in the queue, or there is none
in the queue and no other is on its way. -/
def Turn (call : ℕ) (s : Host) : Prop :=
  match s.queue.find? Message.isCompletion with
  | some m => m.call = call
  | none => ∀ q ∈ s.pending, q.isMove → q.call = call

instance (call : ℕ) (s : Host) : Decidable (Turn call s) := by
  unfold Turn
  split <;> infer_instance

/-- There is room in the queue for one more answer. -/
def HasRoom (s : Host) : Prop := s.queue.length + s.pending.length < maxQueueSize

instance (s : Host) : Decidable (HasRoom s) := by unfold HasRoom; infer_instance

/-- Calls in turn: a transfer is asked for under a new id and with room for its answer; a transfer
is waited for in its turn; a buffer is registered when there is no other answer, in the queue or to
come; and a buffer is unregistered with room for the answer. -/
def InTurn (s : Host) : Event → Prop
  | .transfer sent => sent = true → s.nextTransferId ∉ s.outstanding.map (·.2) ∧ s.HasRoom
  | .load sent => sent = true → s.nextLoadId ∉ s.outstanding.map (·.2) ∧ s.HasRoom
  | .wait call _ => s.Turn call
  | .register _ => s.queue = [] ∧ s.pending = []
  | .unregister sent => sent = true → s.HasRoom
  | _ => True

instance (s : Host) (e : Event) : Decidable (s.InTurn e) := by
  cases e <;> unfold InTurn <;> infer_instance

/-! ### Requests and answers belong together -/

/-- The requests, the answers and the transfers fit: every call has one request or one answer at
most, and every completion is of an outstanding transfer. -/
structure Books (queue : List Message) (pending : List Asked) (outstanding : List (ℕ × UInt64))
    (acknowledged : List ℕ) (reported : List (ℕ × ErrorCode)) (calls : ℕ) : Prop where
  room : queue.length + pending.length ≤ maxQueueSize
  unique : (queue.map (·.call) ++ pending.map (·.call)).Nodup
  earlier : ∀ c ∈ queue.map (·.call) ++ pending.map (·.call), c < calls
  moved : (outstanding.map (·.1)).Nodup
  started : ∀ x ∈ outstanding, x.1 < calls
  distinct : (outstanding.map (·.2)).Nodup
  /-- A completion in the queue is of an outstanding transfer, and has its status. -/
  completions : ∀ c comp, ⟨c, .transferComplete comp⟩ ∈ queue →
    (c, comp.transferId) ∈ outstanding ∧ (c, comp.status) ∈ reported
  acks : ∀ c, ⟨c, .ack⟩ ∈ queue → c ∈ acknowledged
  moves : ∀ c id, ⟨c, .move id⟩ ∈ pending → (c, id) ∈ outstanding

section Books

variable {queue : List Message} {pending : List Asked} {outstanding : List (ℕ × UInt64)}
  {acknowledged : List ℕ} {reported : List (ℕ × ErrorCode)} {calls : ℕ}

section Keep

variable (h : Books queue pending outstanding acknowledged reported calls)

include h

/-- A call that sends nothing. -/
theorem Books.call : Books queue pending outstanding acknowledged reported (calls + 1) :=
  { h with
    earlier := fun c hc => Nat.lt_succ_of_lt (h.earlier c hc)
    started := fun x hx => Nat.lt_succ_of_lt (h.started x hx) }

/-- A transfer is started under a new id. -/
theorem Books.start {id : UInt64} (hid : id ∉ outstanding.map (·.2)) :
    Books queue pending (outstanding ++ [(calls, id)]) acknowledged reported (calls + 1) := { h with
  earlier := h.call.earlier
  moved := by
    rw [map_append, map_singleton, nodup_append_comm]
    refine nodup_cons.mpr ⟨fun hmem => ?_, h.moved⟩
    obtain ⟨x, hx, hcall⟩ := mem_map.mp hmem
    exact Nat.lt_irrefl _ (hcall ▸ h.started x hx)
  started := by
    intro x hx
    rcases mem_append.mp hx with hx | hx
    · exact h.call.started x hx
    · rw [mem_singleton.mp hx]
      exact Nat.lt_succ_self calls
  distinct := by
    rw [map_append, map_singleton, nodup_append_comm]
    exact nodup_cons.mpr ⟨hid, h.distinct⟩
  completions c comp hc :=
    ⟨mem_append_left _ (h.completions c comp hc).1, (h.completions c comp hc).2⟩
  moves c id hc := mem_append_left _ (h.moves c id hc) }

/-- A request is sent, for a call that has none. -/
theorem Books.ask {q : Asked} (hroom : queue.length + pending.length < maxQueueSize)
    (hnew : q.call ∉ queue.map (·.call) ++ pending.map (·.call)) (hcall : q.call < calls)
    (hmoves : ∀ id, q.ask = .move id → (q.call, id) ∈ outstanding) :
    Books queue (pending ++ [q]) outstanding acknowledged reported calls := { h with
  room := by
    rw [length_append, length_singleton]
    omega
  unique := by
    rw [map_append, ← append_assoc, nodup_append_comm]
    exact nodup_cons.mpr ⟨hnew, h.unique⟩
  earlier := by
    intro c hc
    rw [map_append, ← append_assoc, mem_append] at hc
    rcases hc with hc | hc
    · exact h.earlier c hc
    · rw [mem_singleton.mp hc]
      exact hcall
  moves := by
    intro c id hc
    rcases mem_append.mp hc with hc | hc
    · exact h.moves c id hc
    · obtain rfl := mem_singleton.mp hc
      exact hmoves id rfl }

theorem Books.calls_not_mem : calls ∉ queue.map (·.call) ++ pending.map (·.call) :=
  fun hmem => Nat.lt_irrefl _ (h.earlier calls hmem)

theorem Books.drop (c : ℕ) :
    Books queue (pending.filter (·.call ≠ c)) outstanding acknowledged reported calls :=
  have hsub : (queue.map (·.call) ++ (pending.filter (·.call ≠ c)).map (·.call)).Sublist
      (queue.map (·.call) ++ pending.map (·.call)) :=
    (filter_sublist.map _).append_left _
  { h with
    room := (Nat.add_le_add_left (length_filter_le _ _) _).trans h.room
    unique := h.unique.sublist hsub
    earlier := fun c hc => h.earlier c (hsub.subset hc)
    moves := fun c id hc => h.moves c id (mem_of_mem_filter hc) }

/-- The number of a request is free for its answer. -/
theorem Books.call_not_mem_drop {q : Asked} (hq : q ∈ pending) :
    q.call ∉ queue.map (·.call) ++ (pending.filter (·.call ≠ q.call)).map (·.call) := by
  intro hmem
  rcases mem_append.mp hmem with hmem | hmem
  · exact (nodup_append.mp h.unique).2.2 _ hmem _ (mem_map_of_mem hq) rfl
  · obtain ⟨q', hq', hcall⟩ := mem_map.mp hmem
    simpa [hcall] using (mem_filter.mp hq').2

/-- An answer comes to a call that has none. -/
theorem Books.put {m : Message} (hroom : queue.length + pending.length < maxQueueSize)
    (hnew : m.call ∉ queue.map (·.call) ++ pending.map (·.call)) (hcall : m.call < calls)
    (hcomp : ∀ comp, m.payload = .transferComplete comp →
      (m.call, comp.transferId) ∈ outstanding ∧ (m.call, comp.status) ∈ reported)
    (hack : m.payload = .ack → m.call ∈ acknowledged) :
    Books (queue ++ [m]) pending outstanding acknowledged reported calls := { h with
  room := by
    rw [length_append, length_singleton]
    omega
  unique := by
    have hperm : ((queue ++ [m]).map (·.call) ++ pending.map (·.call)).Perm
        (m.call :: (queue.map (·.call) ++ pending.map (·.call))) := by
      rw [map_append, append_assoc]
      exact perm_middle
    exact hperm.nodup_iff.mpr (nodup_cons.mpr ⟨hnew, h.unique⟩)
  earlier := by
    intro c hc
    rw [map_append, append_assoc] at hc
    rcases mem_cons.mp (perm_middle.mem_iff.mp hc) with rfl | hc
    · exact hcall
    · exact h.earlier c hc
  completions := by
    intro c comp hc
    rcases mem_append.mp hc with hc | hc
    · exact h.completions c comp hc
    · obtain rfl := mem_singleton.mp hc
      exact hcomp comp rfl
  acks := by
    intro c hc
    rcases mem_append.mp hc with hc | hc
    · exact h.acks c hc
    · obtain rfl := mem_singleton.mp hc
      exact hack rfl }

theorem Books.record {acknowledged' : List ℕ} {reported' : List (ℕ × ErrorCode)}
    (hacks : acknowledged ⊆ acknowledged') (hreports : reported ⊆ reported') :
    Books queue pending outstanding acknowledged' reported' calls :=
  { h with
    completions := fun c comp hc =>
      ⟨(h.completions c comp hc).1, hreports (h.completions c comp hc).2⟩
    acks := fun c hc => hacks (h.acks c hc) }

end Keep

theorem Books.tail {m : Message}
    (h : Books (m :: queue) pending outstanding acknowledged reported calls) :
    Books queue pending outstanding acknowledged reported calls :=
  { h with
    room := by
      have hroom := h.room
      rw [length_cons] at hroom
      omega
    unique := (nodup_cons.mp h.unique).2
    earlier := fun c hc => h.earlier c (mem_cons_of_mem _ hc)
    completions := fun c comp hc => h.completions c comp (mem_cons_of_mem _ hc)
    acks := fun c hc => h.acks c (mem_cons_of_mem _ hc) }

/-- With its answer, a transfer ends. -/
theorem Books.finish {m : Message}
    (h : Books (m :: queue) pending outstanding acknowledged reported calls) :
    Books queue pending (outstanding.filter (·.1 ≠ m.call)) acknowledged reported calls :=
  have hnot := (nodup_cons.mp h.unique).1
  have hkeep : ∀ {c id}, c ≠ m.call → (c, id) ∈ outstanding →
      (c, id) ∈ outstanding.filter (·.1 ≠ m.call) := fun hne hmem =>
    mem_filter.mpr ⟨hmem, by simpa using hne⟩
  { h.tail with
    moved := h.moved.sublist (filter_sublist.map _)
    started := fun x hx => h.started x (mem_of_mem_filter hx)
    distinct := h.distinct.sublist (filter_sublist.map _)
    completions := fun c comp hc => by
      obtain ⟨hmem, hreport⟩ := h.tail.completions c comp hc
      refine ⟨hkeep ?_ hmem, hreport⟩
      rintro rfl
      exact hnot (mem_append_left _ (mem_map.mpr ⟨_, hc, rfl⟩))
    moves := fun c id hc => by
      refine hkeep ?_ (h.moves c id hc)
      rintro rfl
      exact hnot (mem_append_right _ (mem_map.mpr ⟨_, hc, rfl⟩)) }

end Books

/-! ### One event -/

/-- What a call in progress can rely on. -/
def InMode (s : Host) : Prop :=
  match s.mode with
  | .idle => True
  | .registering call _ =>
    (∀ m ∈ s.queue, m = ⟨call, .ack⟩) ∧ ∀ q ∈ s.pending, q = ⟨call, .register⟩
  | .waiting call id _ => (call, id) ∈ s.outstanding ∧ s.Turn call

/-- The state of a host whose calls are made in turn. -/
structure Orderly (s : Host) : Prop where
  sound : s.Sound
  /-- The books are right. -/
  books : Books s.queue s.pending s.outstanding s.acknowledged s.reported s.calls
  mode : s.InMode

variable {s s' : Host}

/-- A call returns what the DPU has said of it. -/
theorem Sound.returns {x : Returned} (h : s.Sound) (hreturned : s'.returned = s.returned ++ [x])
    (hacks : s'.acknowledged = s.acknowledged) (hreports : s'.reported = s.reported)
    (hlost : s'.lost = s.lost) (hdistinct : (s'.outstanding.map (·.2)).Nodup)
    (hstatus : ∀ call success, x = .status call success →
      ∃ st, (call, st) ∈ s.reported ∧ success = decide (st = .success))
    (hregistered : ∀ call, x = .registered call → call ∈ s.acknowledged) : s'.Sound where
  status call success hmem := by
    rw [hreports]
    rw [hreturned, mem_append, mem_singleton] at hmem
    exact hmem.elim (h.status call success) fun heq => hstatus call success heq.symm
  registered call hmem := by
    rw [hacks]
    rw [hreturned, mem_append, mem_singleton] at hmem
    exact hmem.elim (h.registered call) fun heq => hregistered call heq.symm
  lost := hlost.trans h.lost
  distinct := hdistinct

theorem inMode_of_idle (h : s.mode = .idle) : s.InMode := by
  rw [InMode, h]
  trivial

/-- A store or a load, under a new id and with room for its answer. -/
theorem Orderly.request {id : UInt64} {sent : Bool} (h : Orderly s) (hidle : s.mode = .idle)
    (hturn : sent = true → id ∉ s.outstanding.map (·.2) ∧ s.HasRoom) :
    Orderly (request id sent s) := by
  unfold Host.request
  split
  · rename_i hsent
    obtain ⟨hid, hroom⟩ := hturn hsent
    have hstart := h.books.start hid
    refine ⟨?_, ?_, inMode_of_idle hidle⟩
    · exact { h.sound with distinct := hstart.distinct }
    · refine hstart.ask hroom h.books.calls_not_mem (Nat.lt_succ_self _) fun id' heq => ?_
      obtain rfl : id = id' := Ask.move.inj heq
      exact mem_append_right _ (mem_singleton_self _)
  · exact ⟨{ h.sound with }, h.books.call, inMode_of_idle hidle⟩

/-- A buffer is registered while no other answer can come. -/
theorem Orderly.register (sent : Bool) (h : Orderly s) (hqueue : s.queue = [])
    (hpending : s.pending = []) : Orderly (s.register sent) := by
  have hnew := h.books.calls_not_mem
  have hbooks := h.books.call
  refine ⟨{ h.sound with }, ?_, ?_⟩
  · show Books s.queue (if sent then _ else _) _ _ _ _
    split
    · refine hbooks.ask ?_ hnew (Nat.lt_succ_self _) nofun
      rw [hqueue, hpending]
      decide
    · exact hbooks
  · show (∀ m ∈ s.queue, _) ∧ ∀ q ∈ (if sent then _ else _), _
    rw [hqueue, hpending]
    refine ⟨nofun, ?_⟩
    split
    · exact fun q hq => mem_singleton.mp hq
    · exact nofun

theorem Orderly.unregister {sent : Bool} (h : Orderly s) (hidle : s.mode = .idle)
    (hroom : sent = true → s.HasRoom) : Orderly (s.unregister sent) := by
  refine ⟨{ h.sound with }, ?_, inMode_of_idle hidle⟩
  show Books s.queue (if sent then _ else _) _ _ _ _
  split
  · rename_i hsent
    exact h.books.call.ask (hroom hsent) h.books.calls_not_mem (Nat.lt_succ_self _) nofun
  · exact h.books.call

theorem Orderly.wait {call : ℕ} {timeoutMs : UInt32} (h : Orderly s) (hturn : s.Turn call)
    (hwait : s.wait call timeoutMs = some s') : Orderly s' := by
  obtain ⟨x, hx, rfl⟩ := map_eq_some_iff.mp hwait
  obtain rfl : x.1 = call := by simpa using List.find?_some hx
  exact ⟨{ h.sound with }, h.books, mem_of_find?_eq_some hx, hturn⟩

/-! ### The DPU's side of an event -/

theorem isCompletion_replyTo (q : Asked) (status : ErrorCode) (bytes : UInt64) :
    (replyTo q status bytes).isCompletion = q.isMove := by
  obtain ⟨call, ask⟩ := q
  cases ask <;> rfl

theorem Turn.of_subset {call : ℕ} (h : s.Turn call) (hqueue : s'.queue = s.queue)
    (hsub : s'.pending ⊆ s.pending) : s'.Turn call := by
  unfold Turn at h ⊢
  rw [hqueue]
  cases hfind : s.queue.find? Message.isCompletion with
  | some m =>
    rw [hfind] at h
    exact h
  | none =>
    rw [hfind] at h
    exact fun q hq => h q (hsub hq)

theorem Turn.answer {call : ℕ} {q : Asked} {status : ErrorCode} {bytes : UInt64}
    (h : s.Turn call) (hq : q ∈ s.pending) (hqueue : s'.queue = s.queue ++ [replyTo q status bytes])
    (hsub : s'.pending ⊆ s.pending) : s'.Turn call := by
  unfold Turn at h ⊢
  rw [hqueue, List.find?_append]
  cases hfind : s.queue.find? Message.isCompletion with
  | some m =>
    rw [hfind] at h
    exact h
  | none =>
    -- the queue has no completion: the new one is the first
    rw [hfind] at h
    by_cases hmove : q.isMove = true
    · rw [List.find?_cons_of_pos ((isCompletion_replyTo q status bytes).trans hmove)]
      exact h q hq hmove
    · rw [List.find?_cons_of_neg (by rw [isCompletion_replyTo]; exact hmove), List.find?_nil]
      exact fun q' hq' => h q' (hsub hq')

/-- With room in the queue, an answer is put at its end. -/
theorem answer_eq {q : Asked} {status : ErrorCode} {bytes : UInt64}
    (hroom : s.queue.length < maxQueueSize) :
    s.answer q status bytes = { s with
      queue := s.queue ++ [replyTo q status bytes]
      pending := s.pending.filter (·.call ≠ q.call)
      acknowledged := if q.isMove then s.acknowledged else s.acknowledged ++ [q.call]
      reported := if q.isMove then s.reported ++ [(q.call, status)] else s.reported } := by
  unfold answer push
  rw [if_neg (Nat.not_le.mpr hroom)]

theorem Orderly.answer {q : Asked} (h : Orderly s) (hq : q ∈ s.pending) (status : ErrorCode)
    (bytes : UInt64) : Orderly (s.answer q status bytes) := by
  -- one request less is pending, so there is room for its answer
  have hfewer : (s.pending.filter (·.call ≠ q.call)).length < s.pending.length :=
    length_filter_lt_length_iff_exists.mpr ⟨q, hq, by simp⟩
  have hroom := h.books.room
  have hacks : s.acknowledged ⊆
      if q.isMove then s.acknowledged else s.acknowledged ++ [q.call] := by
    split
    · exact List.Subset.refl _
    · exact subset_append_left _ _
  have hreports : s.reported ⊆
      if q.isMove then s.reported ++ [(q.call, status)] else s.reported := by
    split
    · exact subset_append_left _ _
    · exact List.Subset.refl _
  rw [answer_eq (by omega)]
  refine ⟨{ h.sound with
    status := fun call success hmem =>
      (h.sound.status call success hmem).imp fun _ => And.imp_left (hreports ·)
    registered := fun call hmem => hacks (h.sound.registered call hmem) }, ?_, ?_⟩
  · refine ((h.books.drop q.call).record hacks hreports).put (by omega)
      (h.books.call_not_mem_drop hq) ?_ ?_ ?_
    · exact h.books.earlier _ (mem_append_right _ (mem_map_of_mem hq))
    · intro comp hcomp
      obtain ⟨call, ask⟩ := q
      cases ask with
      | move id =>
        obtain rfl := Payload.transferComplete.inj hcomp
        exact ⟨h.books.moves call id hq, mem_append_right _ (mem_singleton_self _)⟩
      | register => exact absurd hcomp nofun
      | unregister => exact absurd hcomp nofun
    · intro hack
      obtain ⟨call, ask⟩ := q
      cases ask with
      | move id => exact absurd hack nofun
      | register => exact mem_append_right _ (mem_singleton_self _)
      | unregister => exact mem_append_right _ (mem_singleton_self _)
  · -- whoever waits has its answer still to come
    have hmode := h.mode
    unfold InMode at hmode ⊢
    dsimp only
    split at hmode
    · trivial
    · obtain ⟨hqueue, hpending⟩ := hmode
      refine ⟨fun m hm => ?_, fun q' hq' => hpending q' (mem_of_mem_filter hq')⟩
      rcases mem_append.mp hm with hm | hm
      · exact hqueue m hm
      · rw [mem_singleton.mp hm, hpending q hq]
        rfl
    · exact ⟨hmode.1, hmode.2.answer hq rfl (filter_subset_self _)⟩

theorem Orderly.refuse (h : Orderly s) (call : ℕ) :
    Orderly { s with pending := s.pending.filter (·.call ≠ call) } := by
  refine ⟨{ h.sound with }, h.books.drop call, ?_⟩
  have hmode := h.mode
  unfold InMode at hmode ⊢
  dsimp only
  split at hmode
  · trivial
  · exact ⟨hmode.1, fun q hq => hmode.2 q (mem_of_mem_filter hq)⟩
  · exact ⟨hmode.1, hmode.2.of_subset rfl (filter_subset_self _)⟩

/-! ### The rounds of a loop -/

theorem Orderly.timeOut (h : Orderly s) (call : ℕ) :
    Orderly { s with mode := .idle, returned := s.returned ++ [.timedOut call] } :=
  ⟨h.sound.returns rfl rfl rfl rfl h.sound.distinct nofun nofun, h.books, trivial⟩

/-- The loop of a registration finds the acknowledgement of that registration. -/
theorem Orderly.pollRegister {call n rounds : ℕ} (h : Orderly s)
    (hmode : s.mode = .registering call n) : Orderly (s.pollRegister call rounds) := by
  have hin := h.mode
  rw [InMode, hmode] at hin
  obtain ⟨hqueue, hpending⟩ := hin
  have hbooks := h.books
  unfold Host.pollRegister
  split
  · exact ⟨{ h.sound with }, hbooks, hqueue, hpending⟩
  · rename_i m queue hcons
    rw [hcons] at hqueue hbooks
    obtain rfl : m = ⟨call, .ack⟩ := hqueue m mem_cons_self
    refine ⟨h.sound.returns rfl rfl rfl rfl h.sound.distinct nofun fun c heq => ?_, hbooks.tail,
      trivial⟩
    obtain rfl : call = c := Returned.registered.inj heq
    exact hbooks.acks call mem_cons_self

/-- The loop of a wait finds acknowledgements, which nobody needs, and then its own completion. -/
theorem Orderly.pollWait {call n rounds : ℕ} {id : UInt64} (h : Orderly s)
    (hmode : s.mode = .waiting call id n) : Orderly (s.pollWait call id rounds) := by
  have hin := h.mode
  rw [InMode, hmode] at hin
  obtain ⟨hid, hturn⟩ := hin
  have hbooks := h.books
  unfold Host.pollWait
  split
  · exact ⟨{ h.sound with }, hbooks, hid, hturn⟩
  · rename_i m queue hcons
    obtain ⟨c, payload⟩ := m
    rw [Turn, hcons] at hturn
    rw [hcons] at hbooks
    cases payload with
    | ack =>
      exact ⟨{ h.sound with }, hbooks.tail, hid, hturn⟩
    | transferComplete comp =>
      -- the first completion is that of the call, and so it has its id
      obtain rfl : c = call := hturn
      obtain ⟨hmem, hreport⟩ := hbooks.completions c comp mem_cons_self
      have hsame : comp.transferId = id :=
        congrArg Prod.snd (inj_on_of_nodup_map hbooks.moved hmem hid rfl)
      dsimp only
      rw [if_pos hsame]
      have hfinish := hbooks.finish
      refine ⟨h.sound.returns rfl rfl rfl rfl hfinish.distinct ?_ nofun, hfinish, trivial⟩
      intro c' success heq
      obtain ⟨rfl, rfl⟩ := Returned.status.inj heq
      exact ⟨comp.status, hreport, rfl⟩

theorem Orderly.poll (h : Orderly s) (hpoll : s.poll = some s') : Orderly s' := by
  unfold Host.poll at hpoll
  split at hpoll
  · exact absurd hpoll nofun
  · rename_i call hmode
    obtain rfl := some_inj.mp hpoll
    exact h.timeOut call
  · rename_i call rounds hmode
    obtain rfl := some_inj.mp hpoll
    exact h.pollRegister hmode
  · rename_i call id hmode
    obtain rfl := some_inj.mp hpoll
    exact h.timeOut call
  · rename_i call id rounds hmode
    obtain rfl := some_inj.mp hpoll
    exact h.pollWait hmode

/-- **One event** of a host whose calls are made in turn. -/
theorem Orderly.step {e : Event} (h : Orderly s) (hturn : s.InTurn e)
    (hstep : s.step e = some s') : Orderly s' := by
  cases e with
  | transfer sent =>
    obtain ⟨hidle, rfl⟩ := ite_none_right_eq_some.mp hstep |>.imp_right some_inj.mp
    refine Orderly.request (s := { s with nextTransferId := s.nextTransferId + 1 }) ?_ hidle hturn
    exact ⟨{ h.sound with }, h.books, h.mode⟩
  | load sent =>
    obtain ⟨hidle, rfl⟩ := ite_none_right_eq_some.mp hstep |>.imp_right some_inj.mp
    refine Orderly.request (s := { s with nextLoadId := s.nextLoadId + 1 }) ?_ hidle hturn
    exact ⟨{ h.sound with }, h.books, h.mode⟩
  | wait call timeoutMs =>
    obtain ⟨-, hwait⟩ := ite_none_right_eq_some.mp hstep
    exact h.wait hturn hwait
  | register sent =>
    obtain ⟨-, rfl⟩ := ite_none_right_eq_some.mp hstep |>.imp_right some_inj.mp
    exact h.register sent hturn.1 hturn.2
  | unregister sent =>
    obtain ⟨hidle, rfl⟩ := ite_none_right_eq_some.mp hstep |>.imp_right some_inj.mp
    exact h.unregister hidle hturn
  | poll => exact h.poll hstep
  | answer call status bytes =>
    obtain ⟨q, hq, rfl⟩ := map_eq_some_iff.mp hstep
    exact h.answer (mem_of_find?_eq_some hq) status bytes
  | refuse call =>
    obtain rfl := some_inj.mp hstep
    exact h.refuse call

/-! ### Whole runs -/

end Host

end CacheFlow.Doca
