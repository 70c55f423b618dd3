import CacheFlow.Lib.Steps
import CacheFlow.Shm.Chunk
import CacheFlow.Shm.ObjectRing

/-!
# A store for objects in shared memory

`SingleWriterShmObjectStorage`, as the caches of the multi-modal processor use it. The writer puts
the items of requests into the ring buffer and sends their addresses to the readers; an item that is
there already is used again. Every chunk has a count in shared memory, which the readers raise, and
the writer keeps a flag for it: the chunk may be freed once the count is the flag times the number
of readers. For each request the writer touches all items, which raises the flags of those that are
there, and then raises the flag once more for each item it sends; a reader touches all addresses,
which raises the counts that are at least the number of readers, and then reads each object and
raises its count.

A reader raises a count under a lock, but the writer does not take the lock; so loading and storing
a count are two steps. A chunk is written in one step, since its address is not known to any reader
before the request is sent. `int2byte` raises for counts from `2 ^ 31` on; such a step does not
happen here.

The number of a put and the object in an address are not part of the program, and neither are
`puts`, `sent`, `skipped` and what the readers have got: they say what an address stands for and
what has happened.

## Main definitions

* `Store.step` — the protocol.
* `Store.Safe` — the chunks are in place, and what a reader still has to read is there.
-/

namespace CacheFlow.Shm

open Function

/-- The numbers that do not change. -/
structure StoreConfig where
  dataBufferSize : ℕ
  maxObjectSize : ℕ
  nReaders : ℕ
  /-- There is no shared memory of no bytes. -/
  pos : 0 < dataBufferSize

/-- A chunk in the writer's books: `metadata[id] = address`, `id_index[id] = key` and
`key_index[key] = (address, id)`, which always have the same chunks. -/
structure Entry (K : Type) where
  id : ℕ
  address : ℕ
  key : K
  uid : ℕ
  /-- The object that was put, serialized. -/
  obj : Buffer

/-- An address that is sent to the readers for an item of a request. -/
structure Listing where
  address : ℕ
  id : ℕ
  uid : ℕ
  obj : Buffer

/-- The address of a chunk. -/
def Entry.listing {K : Type} (e : Entry K) : Listing := ⟨e.address, e.id, e.uid, e.obj⟩

/-- What a reader does with an address: `touch`, and the two parts of `get`. -/
inductive Op where
  | touch (x : Listing)
  | read (x : Listing)
  /-- The count is raised. -/
  | count (x : Listing)

/-- The address. -/
def Op.listing : Op → Listing
  | .touch x | .read x | .count x => x

/-- `get_and_update_features`: all addresses of a request are touched, then each is read. -/
def requestOps (xs : List Listing) : List Op :=
  xs.map .touch ++ xs.flatMap fun x => [.read x, .count x]

/-- A reader. -/
structure StoreReader where
  todo : List Op
  /-- The count it has loaded, while it holds the lock. -/
  loaded : Option ℤ
  /-- What its reads have returned; nothing if they raised. -/
  got : List (Listing × Option Buffer)

/-- The reader gives the lock back. -/
def StoreReader.advance (x : StoreReader) (todo : List Op) : StoreReader :=
  { x with todo := todo, loaded := none }

/-- An item of a request. -/
structure Pending (K : Type) where
  key : K
  obj : Buffer

/-- Where the writer is. -/
inductive StoreWriter (K : Type) where
  | idle
  /-- The items of a request are touched, and addresses for them are sent. -/
  | working (todo : List (Pending K)) (done : List Listing)
  /-- `put` of an item did not find room, and `free_buf` has freed some bytes so far. -/
  | freeing (x : Pending K) (todo : List (Pending K)) (done : List Listing) (freedBytes : ℕ)

/-- The items that the writer has not come to yet. -/
def StoreWriter.pending {K : Type} : StoreWriter K → List (Pending K)
  | .idle => []
  | .working todo _ => todo
  | .freeing x todo _ _ => x :: todo

/-- The addresses of the request that is not sent yet. -/
def StoreWriter.listings {K : Type} : StoreWriter K → List Listing
  | .idle => []
  | .working _ done | .freeing _ _ done _ => done

/-- The shared memory, the writer's books, and where everyone is. -/
structure Store (K : Type) where
  mem : Mem UInt8
  /-- The numbers of the ring. -/
  ring : ObjectRing
  entries : List (Entry K)
  /-- `writer_flag`; nothing is zero. -/
  writerFlag : ℕ → ℕ
  writer : StoreWriter K
  lock : Option ℕ
  reader : ℕ → StoreReader
  puts : ℕ
  /-- The numbers of the puts whose addresses were sent to the readers. -/
  sent : List ℕ
  /-- The numbers of the puts that a reader touched without raising the count. -/
  skipped : List ℕ

namespace Store

variable {K : Type} [DecidableEq K]

/-- An empty store. -/
def init (m : Mem UInt8) : Store K where
  mem := m
  ring := .new
  entries := []
  writerFlag := fun _ => 0
  writer := .idle
  lock := none
  reader := fun _ => ⟨[], none, []⟩
  puts := 0
  sent := []
  skipped := []

/-- A step of the writer or of a reader. -/
inductive Event (K : Type) where
  /-- The writer touches the items of a request. -/
  | begin (items : List (Pending K))
  /-- The writer takes the next item. -/
  | item
  /-- The writer looks at the oldest chunk, in `free_buf`. -/
  | free
  /-- The request is sent to the readers. -/
  | dispatch
  /-- A reader takes the lock and loads a count. -/
  | load (r : ℕ)
  /-- A reader stores the count and gives the lock back. -/
  | store (r : ℕ)
  | read (r : ℕ)

/-! ### Chunks in the buffer -/

section

variable (D : ℕ) (m : Mem UInt8)

/-- The bytes of a chunk: id, size, count and object. -/
def putBytes (address id : ℕ) (obj : Buffer) : Mem UInt8 :=
  let offset := address % D
  let m := fill m offset 4 (int2byte id)
  let m := fill m (offset + 4) 4 (int2byte (obj.len + 12 : ℕ))
  let m := fill m (offset + 8) 4 (int2byte 0)
  fill m (offset + 12) obj.len obj.byte

/-- The id in a chunk. -/
def readId (address : ℕ) : ℤ := byte2int m (address % D)

/-- The size in a chunk. -/
def readSize (address : ℕ) : ℤ := byte2int m (address % D + 4)

/-- The count in a chunk. -/
def readCount (address : ℕ) : ℤ := byte2int m (address % D + 8)

/-- What `get` reads: nothing if the id is another one, as it then raises. -/
def readObject (x : Listing) : Option Buffer :=
  if readId D m x.address = x.id then
    some (Buffer.read m (x.address % D + 12) ((readSize D m x.address).toNat - 12))
  else none

/-- A count is stored. -/
def writeCount (address : ℕ) (count : ℤ) : Mem UInt8 :=
  fill m (address % D + 8) 4 (int2byte count)

end

/-! ### The writer -/

variable (c : StoreConfig)

/-- `touch` of the writer: the flag of an item that is there goes up. -/
def touch (entries : List (Entry K)) (flag : ℕ → ℕ) (key : K) : ℕ → ℕ :=
  match entries.find? fun e => e.key = key with
  | none => flag
  | some e => update flag e.id (flag e.id + 1)

section

variable (q : Store K)

/-- The item was there. -/
def isCached (key : K) : Bool := q.entries.any fun e => e.key = key

/-- `put`, where there is room. -/
def put (ring : ObjectRing) (x : Pending K) (todo : List (Pending K))
    (done : List Listing) : Store K :=
  let address := ring.bufferEndReset c.dataBufferSize (x.obj.len + 12)
  let e : Entry K := ⟨ring.monotonicIdEnd, address, x.key, q.puts, x.obj⟩
  { q with
    mem := putBytes c.dataBufferSize q.mem address e.id x.obj
    ring := ring.allocated c.dataBufferSize (x.obj.len + 12)
    entries := q.entries ++ [e]
    writerFlag := update q.writerFlag e.id (q.writerFlag e.id + 1)
    puts := q.puts + 1
    writer := .working todo (done ++ [e.listing]) }

/-- `default_is_free_check`. -/
def isFree (e : Entry K) : Bool :=
  (q.writerFlag e.id * c.nReaders : ℤ) ≤ readCount c.dataBufferSize q.mem e.address

/-- A chunk is freed. -/
def freeEntry (e : Entry K) (x : Pending K) (todo : List (Pending K))
    (done : List Listing) (freedBytes : ℕ) : Store K :=
  let entries := q.entries.filter fun e' => e'.id ≠ e.id
  let next := entries.find? fun e' => e'.id = (q.ring.monotonicIdStart + 1) % idMax
  { q with
    ring := q.ring.freed c.dataBufferSize (next.map Entry.address)
    entries := entries
    writerFlag := update q.writerFlag e.id 0
    writer := .freeing x todo done
      (freedBytes + (readSize c.dataBufferSize q.mem e.address).toNat) }

/-- The end of `free_buf`, and the second attempt of `put`. If there is still no room, the item is
sent as it is. -/
def putAgain (x : Pending K) (todo : List (Pending K)) (done : List Listing) :
    Store K :=
  let ring := q.ring.wrapped c.dataBufferSize
  if ring.hasRoom c.dataBufferSize (x.obj.len + 12) then q.put c ring x todo done
  else { q with ring := ring, writer := .working todo done }

/-- `get_and_update_item` of the writer. -/
def takeItem (x : Pending K) (todo : List (Pending K)) (done : List Listing) :
    Store K :=
  match q.entries.find? fun e => e.key = x.key with
  | some e =>
    -- `get_cached`
    { q with
      writerFlag := update q.writerFlag e.id (q.writerFlag e.id + 1)
      writer := .working todo (done ++ [e.listing]) }
  | none =>
    -- an object that is too large is sent as it is
    if c.maxObjectSize < x.obj.len + 4 then { q with writer := .working todo done }
    else if q.ring.hasRoom c.dataBufferSize (x.obj.len + 12) then q.put c q.ring x todo done
    else { q with writer := .freeing x todo done 0 }

end

/-! ### The steps -/

/-- A reader goes on. -/
def setReader (q : Store K) (r : ℕ) (x : StoreReader) : Store K :=
  { q with reader := update q.reader r x }

/-- The reader raises the count it has loaded: `touch` leaves the count of an item that is new. -/
def raises (op : Op) (count : ℤ) : Bool :=
  match op with
  | .touch _ => (c.nReaders : ℤ) ≤ count
  | _ => true

/-- The steps of the writer and the readers. -/
def step (q : Store K) : Event K → Option (Store K)
  | .begin items =>
    match q.writer with
    | .idle =>
      some { q with
        writerFlag := (items.map Pending.key).foldl (touch q.entries) q.writerFlag
        writer := .working items [] }
    | _ => none
  | .item =>
    match q.writer with
    | .working (x :: todo) done => some (q.takeItem c x todo done)
    | _ => none
  | .free =>
    match q.writer with
    | .freeing x todo done freedBytes =>
      match q.entries.find? fun e => e.id = q.ring.monotonicIdStart with
      | some e =>
        if freedBytes < 2 * c.maxObjectSize ∧ q.isFree c e = true then
          some (q.freeEntry c e x todo done freedBytes)
        else some (q.putAgain c x todo done)
      | none => some (q.putAgain c x todo done)
    | _ => none
  | .dispatch =>
    match q.writer with
    | .working [] done =>
      some { q with
        reader := fun r =>
          { q.reader r with todo := (q.reader r).todo ++ requestOps done }
        sent := q.sent ++ done.map Listing.uid
        writer := .idle }
    | _ => none
  | .load r =>
    match q.lock, (q.reader r).todo with
    | none, .touch x :: _ | none, .count x :: _ =>
      if r < c.nReaders then
        some { q.setReader r { q.reader r with
          loaded := some (readCount c.dataBufferSize q.mem x.address) } with lock := some r }
      else none
    | _, _ => none
  | .store r =>
    match (q.reader r).loaded, (q.reader r).todo with
    | some count, op :: todo =>
      if raises c op count then
        if count + 1 < 2 ^ 31 then
          some { q.setReader r ((q.reader r).advance todo) with
            mem := writeCount c.dataBufferSize q.mem op.listing.address (count + 1)
            lock := none }
        else none
      else
        some { q.setReader r ((q.reader r).advance todo) with
          lock := none
          skipped := q.skipped ++ [op.listing.uid] }
    | _, _ => none
  | .read r =>
    match (q.reader r).todo with
    | .read x :: todo =>
      if r < c.nReaders then
        match readObject c.dataBufferSize q.mem x with
        | some obj =>
          some (q.setReader r { q.reader r with
            todo := todo, got := (q.reader r).got ++ [(x, some obj)] })
        -- the request is given up
        | none =>
          some (q.setReader r { q.reader r with
            todo := [], got := (q.reader r).got ++ [(x, none)] })
      else none
    | _ => none

/-! ### What is to hold -/

/-- The chunks, as address and size. -/
def segments (D : ℕ) (q : Store K) : List (ℕ × ℕ) :=
  q.entries.map fun e => (e.address, (readSize D q.mem e.address).toNat)

/-- The chunks do not share a byte and are inside the buffer, and they are freed in the order in
which they were allocated: the books hold the ids from the first one on, without a gap. What a
reader still has to touch or read is in the books and in the buffer, and every read has returned the
object that was put. -/
structure Safe (q : Store K) : Prop where
  /-- No byte is shared. -/
  apart : (q.segments c.dataBufferSize).Pairwise (CellsApart c.dataBufferSize)
  /-- No chunk crosses the end of the buffer. -/
  inside : ∀ s ∈ q.segments c.dataBufferSize, s.1 % c.dataBufferSize + s.2 ≤ c.dataBufferSize
  /-- The oldest chunk is freed first. -/
  inOrder : q.entries.map Entry.id
    = (List.range q.entries.length).map fun i => (q.ring.monotonicIdStart + i) % idMax
  /-- What a reader owes is not freed. -/
  owed : ∀ r < c.nReaders, ∀ op ∈ (q.reader r).todo,
    ∃ e ∈ q.entries, e.address = op.listing.address ∧ e.id = op.listing.id
  /-- Nor overwritten. -/
  intact : ∀ r < c.nReaders, ∀ op ∈ (q.reader r).todo,
    readObject c.dataBufferSize q.mem op.listing = some op.listing.obj
  returns : ∀ r < c.nReaders, ∀ p ∈ (q.reader r).got, p.2 = some p.1.obj

/-- Nobody uses the chunk any more: no reader has to touch or read it, and it is not part of the
request the writer is at. -/
def Unused (q : Store K) (e : Entry K) : Prop :=
  (∀ r < c.nReaders, ∀ op ∈ (q.reader r).todo, op.listing.uid ≠ e.uid) ∧
  (∀ x ∈ q.writer.listings, x.uid ≠ e.uid) ∧ ∀ x ∈ q.writer.pending, x.key ≠ e.key

/-- A chunk that nobody uses any more can be freed. -/
def Reclaimable (q : Store K) : Prop := ∀ e ∈ q.entries, q.Unused c e → q.isFree c e = true

end Store

end CacheFlow.Shm
