import CacheFlow.Lib.Steps
import CacheFlow.Shm.Chunk

/-!
# One writer and many readers over a ring of chunks

`MessageQueue` with its `ShmRingBuffer`. Each chunk has a flag that it is written, and a flag for
each reader that the reader has read it. The writer adds up the readers' flags of its next chunk
and looks at the written flag; it waits as long as the chunk is written and some reader has not read
it. Then it marks the chunk as not written, fills it, takes back the readers' flags and marks the
chunk as written; the buffers of an object that is too large follow over a socket. A reader waits
until its next chunk is written and its own flag is down, reads the chunk, raises its flag, and
takes an object that was too large from the socket.

The steps below are single accesses to the shared memory, so writer and readers interleave between
any two of them; the contents of a chunk are written byte by byte, in the order of the offsets.
`sent`, `marked` and `returned` are not part of the program: they say what has happened so far.

## Main definitions

* `Queue.step` — the protocol.
* `Queue.Move` — what a step can do.

## Main results

* `Queue.move_of_step` — the steps are the moves.
-/

namespace CacheFlow.Shm

open Function Option

/-! ### The protocol -/

/-- `ShmRingBuffer`: the numbers that do not change. There is no buffer of no bytes, so there is a
chunk. -/
structure RingConfig where
  nReader : ℕ
  maxChunks : ℕ
  maxChunkBytes : ℕ
  pos : 0 < maxChunks

/-- Where the writer is in `enqueue`. -/
inductive WriterPhase where
  /-- Not in `enqueue`. -/
  | idle
  /-- `acquire_write` adds up the flags: `i` of them, so far `count`. -/
  | counting (p : Pickled) (i count : ℕ)
  /-- The chunk is marked as not written, the caller writes to it. -/
  | writing (p : Pickled)
  /-- The chunk is filled, the flags below `i` are taken back. -/
  | resetting (p : Pickled) (i : ℕ)
  /-- The chunk is published; the object goes over the socket next. -/
  | sending (p : Pickled)

/-- Where a reader is in `dequeue`. -/
inductive ReaderPhase where
  /-- Not in `dequeue`, or at the start of a turn of the loop in `acquire_read`. -/
  | idle
  | loaded (readFlag : Bool)
  /-- The reader has found the chunk, and reads it. -/
  | reading
  /-- It has read the chunk: the object, or that the object overflows. -/
  | read (x : Option Obj)
  /-- Its flag is raised, the object is about to be returned. -/
  | returning (x : Obj)
  /-- Its flag is raised, the object is to come over the socket. -/
  | receiving

/-- A return of `dequeue`. -/
structure Returned where
  obj : Obj
  /-- What it contained when it was returned. -/
  contents : List Buffer

/-- The shared memory, the sockets, and where everyone is. -/
structure Queue where
  data : ℕ → Mem UInt8
  written : ℕ → Bool
  /-- The flags of the readers, chunk by chunk. -/
  flag : ℕ → ℕ → Bool
  /-- The messages that wait at the readers' sockets. -/
  socket : ℕ → List Pickled
  writer : WriterPhase
  /-- `current_idx` of the writer. -/
  writerIdx : ℕ
  reader : ℕ → ReaderPhase
  /-- `current_idx` of the readers. -/
  readerIdx : ℕ → ℕ
  sent : List Pickled
  /-- How many chunks a reader has marked as read. -/
  marked : ℕ → ℕ
  /-- What the calls of a reader have returned. -/
  returned : ℕ → List Returned

namespace Queue

/-- The beginning: nothing is written, nothing read. -/
def init (data : ℕ → Mem UInt8) : Queue where
  data := data
  written := fun _ => false
  flag := fun _ _ => false
  socket := fun _ => []
  writer := .idle
  writerIdx := 0
  reader := fun _ => .idle
  readerIdx := fun _ => 0
  sent := []
  marked := fun _ => 0
  returned := fun _ => []

/-- A step of the writer or of a reader. -/
inductive Event where
  /-- A call of `enqueue`. -/
  | enqueue (p : Pickled)
  /-- The writer adds one more flag. -/
  | countFlag
  /-- The writer loads the written flag, and waits or marks the chunk; if it waits, the time for it
  may be over. -/
  | testWritten (expired : Bool)
  /-- The writer has written the first bytes. -/
  | writePart (bytes : ℕ)
  /-- The writer has written all bytes, or raises. -/
  | write
  /-- The writer takes back one more flag. -/
  | resetFlag
  /-- The writer marks the chunk as written. -/
  | publish
  /-- The writer sends the object over the socket. -/
  | send
  /-- A reader loads its own flag. -/
  | loadFlag (r : ℕ)
  /-- A reader loads the written flag, and goes on or waits; it may then be cancelled or time out,
  which leaves no trace. -/
  | testFlags (r : ℕ)
  | readChunk (r : ℕ)
  | markRead (r : ℕ)
  /-- A reader returns the object of the chunk. -/
  | ret (r : ℕ)
  /-- A reader returns the next object of its socket. -/
  | receive (r : ℕ)
  /-- No message has arrived at the socket in time. -/
  | recvTimeout (r : ℕ)

/-! #### What a step changes -/

/-- The writer goes on. -/
def setWriter (q : Queue) (w : WriterPhase) : Queue := { q with writer := w }

/-- A reader goes on. -/
def setReader (q : Queue) (r : ℕ) (x : ReaderPhase) : Queue :=
  { q with reader := update q.reader r x }

/-- `metadata_buffer[0] = 0`, of the writer's chunk. -/
def unmark (q : Queue) : Queue := { q with written := update q.written q.writerIdx false }

/-- The writer's chunk gets new contents. -/
def fillChunk (q : Queue) (m : Mem UInt8) : Queue :=
  { q with data := update q.data q.writerIdx m }

/-- `metadata_buffer[i] = 0`, of the writer's chunk. -/
def lowerFlag (q : Queue) (i : ℕ) : Queue :=
  { q with
    flag := update q.flag q.writerIdx (update (q.flag q.writerIdx) i false) }

/-- `metadata_buffer[0] = 1`, and the next chunk is the writer's. -/
def publish (maxChunks : ℕ) (q : Queue) (p : Pickled) : Queue :=
  { q with
    written := update q.written q.writerIdx true
    writerIdx := (q.writerIdx + 1) % maxChunks
    sent := q.sent ++ [p] }

/-- `send_multipart`: all readers have subscribed to the socket. -/
def post (q : Queue) (p : Pickled) : Queue := { q with socket := fun r => q.socket r ++ [p] }

/-- `metadata_buffer[self.local_reader_rank + 1] = 1`, and the next chunk is the reader's. -/
def raiseFlag (maxChunks : ℕ) (q : Queue) (r : ℕ) : Queue :=
  { q with
    flag := update q.flag (q.readerIdx r) (update (q.flag (q.readerIdx r)) r true)
    readerIdx := update q.readerIdx r ((q.readerIdx r + 1) % maxChunks)
    marked := update q.marked r (q.marked r + 1) }

/-- `dequeue` returns an object. -/
def give (q : Queue) (r : ℕ) (x : Obj) : Queue :=
  { q with
    returned := update q.returned r (q.returned r ++ [⟨x, x.contents q.data⟩])
    reader := update q.reader r .idle }

/-- A message is taken from a socket. -/
def takeMessage (q : Queue) (r : ℕ) : Queue :=
  { q with socket := update q.socket r (q.socket r).tail }

/-! #### The steps -/

variable (c : RingConfig)

/-- A chunk to which the first bytes of an object have been written. -/
def filling (m : Mem UInt8) (p : Pickled) (bytes : ℕ) : Mem UInt8 := fun i =>
  if i < bytes then (writeChunk c.maxChunkBytes m p).1 i else m i

/-- The phase of a writer that has found the chunk unread. -/
def afterWait (p : Pickled) (expired : Bool) : WriterPhase :=
  if expired then .idle else .counting p 0 0

/-- The phase of a writer that has published an object. -/
def afterPublish (p : Pickled) : WriterPhase :=
  if p.overflows c.maxChunkBytes then .sending p else .idle

/-- The phase of a reader that has looked at a chunk. If unpickling raises, the chunk is not marked
as read. -/
def lookAt (q : Queue) (chunk : ℕ) : ReaderPhase :=
  if q.data chunk 0 = 1 then .read none
  else
    match loadInline q.data chunk with
    | none => .idle
    | some x => .read (some x)

/-- The phase of a reader that has raised its flag. -/
def afterChunk : Option Obj → ReaderPhase
  | none => .receiving
  | some x => .returning x

/-- The steps of the writer and the readers. -/
def step (q : Queue) : Event → Option Queue
  | .enqueue p =>
    match q.writer with
    -- without local readers the ring is not used
    | .idle => some (q.setWriter (if 0 < c.nReader then .counting p 0 0 else .idle))
    | _ => none
  | .countFlag =>
    match q.writer with
    | .counting p i count =>
      if i < c.nReader then
        some (q.setWriter (.counting p (i + 1) (count + (q.flag q.writerIdx i).toNat)))
      else none
    | _ => none
  | .testWritten expired =>
    match q.writer with
    | .counting p i count =>
      if i < c.nReader then none
      else if q.written q.writerIdx = true ∧ count ≠ c.nReader then
        some (q.setWriter (afterWait p expired))
      else some (q.unmark.setWriter (.writing p))
    | _ => none
  | .writePart bytes =>
    match q.writer with
    | .writing p => some (q.fillChunk (filling c (q.data q.writerIdx) p bytes))
    | _ => none
  | .write =>
    match q.writer with
    | .writing p =>
      let w := writeChunk c.maxChunkBytes (q.data q.writerIdx) p
      some ((q.fillChunk w.1).setWriter (if w.2 then .resetting p 0 else .idle))
    | _ => none
  | .resetFlag =>
    match q.writer with
    | .resetting p i =>
      if i < c.nReader then some ((q.lowerFlag i).setWriter (.resetting p (i + 1))) else none
    | _ => none
  | .publish =>
    match q.writer with
    | .resetting p i =>
      if i < c.nReader then none
      else some ((q.publish c.maxChunks p).setWriter (afterPublish c p))
    | _ => none
  | .send =>
    match q.writer with
    | .sending p => some ((q.post p).setWriter .idle)
    | _ => none
  | .loadFlag r =>
    match q.reader r with
    | .idle =>
      if r < c.nReader then some (q.setReader r (.loaded (q.flag (q.readerIdx r) r))) else none
    | _ => none
  | .testFlags r =>
    match q.reader r with
    | .loaded readFlag =>
      some (q.setReader r
        (if q.written (q.readerIdx r) = false ∨ readFlag = true then .idle else .reading))
    | _ => none
  | .readChunk r =>
    match q.reader r with
    | .reading => some (q.setReader r (q.lookAt (q.readerIdx r)))
    | _ => none
  | .markRead r =>
    match q.reader r with
    | .read x => some ((q.raiseFlag c.maxChunks r).setReader r (afterChunk x))
    | _ => none
  | .ret r =>
    match q.reader r with
    | .returning x => some (q.give r x)
    | _ => none
  | .receive r =>
    match q.reader r, q.socket r with
    | .receiving, p :: _ => some ((q.takeMessage r).give r (loadMessage p))
    | _, _ => none
  | .recvTimeout r =>
    -- a message that waits would be polled
    match q.reader r, q.socket r with
    | .receiving, [] => some (q.setReader r .idle)
    | _, _ => none

variable {c}

/-- What a step can do, and what it requires. -/
inductive Move (c : RingConfig) (q : Queue) : Event → Queue → Prop where
  | enqueue {p : Pickled} (hw : q.writer = .idle) :
    Move c q (.enqueue p) (q.setWriter (if 0 < c.nReader then .counting p 0 0 else .idle))
  | countFlag {p : Pickled} {i count : ℕ} (hw : q.writer = .counting p i count)
      (hi : i < c.nReader) :
    Move c q .countFlag
      (q.setWriter (.counting p (i + 1) (count + (q.flag q.writerIdx i).toNat)))
  | wait {p : Pickled} {i count : ℕ} {expired : Bool} (hw : q.writer = .counting p i count) :
    Move c q (.testWritten expired) (q.setWriter (afterWait p expired))
  | unmark {p : Pickled} {i count : ℕ} {expired : Bool} (hw : q.writer = .counting p i count)
      (hi : c.nReader ≤ i) (hfree : q.written q.writerIdx = true → count = c.nReader) :
    Move c q (.testWritten expired) (q.unmark.setWriter (.writing p))
  | writePart {p : Pickled} {bytes : ℕ} (hw : q.writer = .writing p) :
    Move c q (.writePart bytes) (q.fillChunk (filling c (q.data q.writerIdx) p bytes))
  | write {p : Pickled} {m : Mem UInt8} (hw : q.writer = .writing p)
      (hobj : HoldsObject c.maxChunkBytes m p) :
    Move c q .write ((q.fillChunk m).setWriter (.resetting p 0))
  | writeRaise {p : Pickled} {m : Mem UInt8} (hw : q.writer = .writing p) :
    Move c q .write ((q.fillChunk m).setWriter .idle)
  | resetFlag {p : Pickled} {i : ℕ} (hw : q.writer = .resetting p i) (hi : i < c.nReader) :
    Move c q .resetFlag ((q.lowerFlag i).setWriter (.resetting p (i + 1)))
  | publish {p : Pickled} {i : ℕ} (hw : q.writer = .resetting p i) (hi : c.nReader ≤ i) :
    Move c q .publish ((q.publish c.maxChunks p).setWriter (afterPublish c p))
  | send {p : Pickled} (hw : q.writer = .sending p) :
    Move c q .send ((q.post p).setWriter .idle)
  | loadFlag {r : ℕ} (hr : q.reader r = .idle) (hn : r < c.nReader) :
    Move c q (.loadFlag r) (q.setReader r (.loaded (q.flag (q.readerIdx r) r)))
  | testFlags {r : ℕ} {readFlag : Bool} (hr : q.reader r = .loaded readFlag) :
    Move c q (.testFlags r) (q.setReader r
      (if q.written (q.readerIdx r) = false ∨ readFlag = true then .idle else .reading))
  | readChunk {r : ℕ} (hr : q.reader r = .reading) :
    Move c q (.readChunk r) (q.setReader r (q.lookAt (q.readerIdx r)))
  | markRead {r : ℕ} {x : Option Obj} (hr : q.reader r = .read x) :
    Move c q (.markRead r) ((q.raiseFlag c.maxChunks r).setReader r (afterChunk x))
  | ret {r : ℕ} {x : Obj} (hr : q.reader r = .returning x) : Move c q (.ret r) (q.give r x)
  | receive {r : ℕ} {p : Pickled} {ps : List Pickled} (hr : q.reader r = .receiving)
      (hs : q.socket r = p :: ps) :
    Move c q (.receive r) ((q.takeMessage r).give r (loadMessage p))
  | recvTimeout {r : ℕ} (hr : q.reader r = .receiving) (hs : q.socket r = []) :
    Move c q (.recvTimeout r) (q.setReader r .idle)

/-- The steps are the moves. -/
theorem move_of_step {q q' : Queue} {e : Event} (h : step c q e = some q') : Move c q e q' := by
  -- in another phase of its thread an event is no step, which leaves one case for each event
  cases e with (simp only [step] at h; split at h <;> try cases h)
  | enqueue => exact .enqueue ‹_›
  | countFlag =>
    split_ifs at h with hi
    cases h
    exact .countFlag ‹_› hi
  | testWritten =>
    split_ifs at h with hi hwait
    · cases h
      exact .wait ‹_›
    · -- not both of what the writer waits for, so the chunk is free
      cases h
      exact .unmark ‹_› (Nat.not_lt.mp hi) fun hwritten =>
        not_not.mp fun hcount => hwait ⟨hwritten, hcount⟩
  | writePart => exact .writePart ‹_›
  | write =>
    split_ifs with hok
    · exact .write ‹_› (holdsObject_writeChunk hok)
    · exact .writeRaise ‹_›
  | resetFlag =>
    split_ifs at h with hi
    cases h
    exact .resetFlag ‹_› hi
  | publish =>
    split_ifs at h with hi
    cases h
    exact .publish ‹_› (Nat.not_lt.mp hi)
  | send => exact .send ‹_›
  | loadFlag =>
    split_ifs at h with hi
    cases h
    exact .loadFlag ‹_› hi
  | testFlags => exact .testFlags ‹_›
  | readChunk => exact .readChunk ‹_›
  | markRead => exact .markRead ‹_›
  | ret => exact .ret ‹_›
  | receive => exact .receive ‹_› ‹_›
  | recvTimeout => exact .recvTimeout ‹_› ‹_›

end Queue

end CacheFlow.Shm
