import CacheFlow.Server.Allocator

/-!
# The prefix-cache store

`Store` of `server/store.py`: the index of READY entries with its LRU order, the
entries being written, the replaced entries that are still pinned, the leases,
and the allocator they all take their pages from.

An `Entry` is an object that the source mutates and compares by identity, and that
callers of `lookup` keep a reference to. At any time it sits in one container, so
the containers hold entries by value; `uid` is the object's identity. Two fields
of the model are history: `nextUid` numbers the objects, and `freed` lists the
objects that went through `_free_entry`. The counters of `self.stats` are only
read by `snapshot` and are left out, as are the creation times.

## Main definitions

* `Entry`, `Lease`, `Store` — the data.
* `StoreOp`, `Store.step`, `Store.run` — the operations, and runs of them.
-/

namespace CacheFlow

/-- Whether an entry is being written or can be read. -/
inductive EntryState where
  /-- Being written by its owner. -/
  | writing : EntryState
  /-- Committed. -/
  | ready : EntryState
  deriving DecidableEq, Repr

/-- A cached chunk of one rank. -/
structure Entry where
  /-- The identity of the object. -/
  uid : ℕ
  /-- Its key, `"<chunk-hash>:<rank>"`. -/
  key : String
  offset : ℤ
  size : ℤ
  state : EntryState
  owner : Option String
  /-- How many times leases hold it. -/
  pins : ℕ
  /-- Replaced by a newer version, to be freed once unpinned. -/
  retired : Bool
  deriving DecidableEq, Repr

/-- A lease: keys pinned until released or expired. -/
structure Lease where
  leaseId : ℤ
  /-- The keys it pinned, with multiplicity. -/
  keys : List String
  expires : ℚ
  owner : String
  deriving DecidableEq, Repr

/-- The store. -/
structure Store where
  alloc : ExtentAllocator
  /-- Bytes in the whole pages of the pool. -/
  poolBytes : ℤ
  capacityBytes : ℤ
  /-- READY entries. -/
  index : Dict String Entry
  /-- READY keys, oldest first. -/
  lru : Dict String Unit
  /-- Entries being written, by key and session. -/
  writing : Dict (String × String) Entry
  /-- Replaced entries that are still pinned. -/
  retired : List Entry
  leases : Dict ℤ Lease
  leaseIds : ℤ
  nextUid : ℕ
  /-- The entries passed to `freeEntry`, in order. -/
  freed : List ℕ

namespace Store

/-- The constructor. A capacity of `None` or zero means the whole pool. -/
def init (pool page : ℕ) (hpage : 0 < page) (capacity : Option ℤ) : Store where
  alloc := ExtentAllocator.init pool page hpage
  poolBytes := (pool / page * page : ℕ)
  capacityBytes :=
    match capacity with
    | none => (pool / page * page : ℕ)
    | some c => min (if c = 0 then (pool / page * page : ℕ) else c) (pool / page * page : ℕ)
  index := ∅
  lru := ∅
  writing := ∅
  retired := []
  leases := ∅
  leaseIds := 1
  nextUid := 0
  freed := []

end Store

/-- A method of the store: it may raise, and keeps what it has done by then. -/
abbrev StoreM := EStateM PyErr Store

namespace Store

/-! ### Space -/

/-- Run an allocator method. -/
def onAlloc {α : Type} (m : EStateM PyErr ExtentAllocator α) : StoreM α := fun s =>
  match m s.alloc with
  | .ok r a => .ok r { s with alloc := a }
  | .error e a => .error e { s with alloc := a }

/-- Give the pages of an entry back. -/
def freeEntry (e : Entry) : StoreM Unit := do
  modify fun s => { s with freed := s.freed ++ [e.uid] }
  onAlloc (ExtentAllocator.free e.offset e.size)

/-- A READY entry leaves the index and its pages are given back: the lines that
`_evict_one` and `flush` share. -/
def dropReady (key : String) (e : Entry) : StoreM Unit := do
  modify fun s => { s with lru := s.lru.erase key, index := s.index.erase key }
  freeEntry e

/-- The scan of `evictOne` over the keys in LRU order. -/
def evictScan : List String → StoreM Bool
  | [] => pure false
  | key :: rest => do
    let s ← get
    match s.index.get? key with
    | none => throw .keyError
    | some e =>
      if e.pins = 0 then
        dropReady key e
        pure true
      else
        evictScan rest

/-- Evict the oldest unpinned entry; whether there was one. -/
def evictOne : StoreM Bool := do
  let s ← get
  evictScan s.lru.keys

/-- Whether an allocation would stay within the capacity. -/
def fitsCapacity (s : Store) (nbytes : ℤ) : Bool :=
  s.alloc.usedBytes + s.alloc.pagesFor nbytes * s.alloc.page ≤ s.capacityBytes

/-- One attempt of `_allocate`, without evicting. -/
def tryAlloc (nbytes : ℤ) : StoreM (Option ℤ) := do
  let s ← get
  if s.fitsCapacity nbytes then onAlloc (ExtentAllocator.alloc nbytes) else pure none

/-- The loop of `_allocate`. Every round but the last evicts an entry, so a bound
of one more than the number of READY keys is never reached. -/
def allocateLoop (nbytes : ℤ) : ℕ → StoreM (Option ℤ)
  | 0 => pure none
  | fuel + 1 => do
    match ← tryAlloc nbytes with
    | some off => pure (some off)
    | none =>
      if ← evictOne then allocateLoop nbytes fuel else pure none

/-- Allocate, evicting unpinned LRU entries as needed. -/
def allocate (nbytes : ℤ) : StoreM (Option ℤ) := do
  let s ← get
  allocateLoop nbytes (s.lru.keys.length + 1)

/-- The loop of `set_capacity`, with the same bound. -/
def shrinkLoop : ℕ → StoreM Unit
  | 0 => pure ()
  | fuel + 1 => do
    let s ← get
    if s.capacityBytes < s.alloc.usedBytes then
      if ← evictOne then shrinkLoop fuel else pure ()
    else
      pure ()

/-- Change the capacity, evicting what no longer fits. -/
def setCapacity (capacityBytes : ℤ) : StoreM ℤ := do
  modify fun s => { s with capacityBytes := max 0 (min capacityBytes s.poolBytes) }
  let s ← get
  shrinkLoop (s.lru.keys.length + 1)
  let s ← get
  pure s.capacityBytes

/-- One round of `flush`: drop an entry that is not pinned. -/
def flushKey (dropped : ℕ) (key : String) : StoreM ℕ := do
  let s ← get
  match s.index.get? key with
  | none => throw .keyError
  | some e =>
    if e.pins = 0 then
      dropReady key e
      pure (dropped + 1)
    else
      pure dropped

/-- Drop every unpinned READY entry. -/
def flush : StoreM ℕ := do
  let s ← get
  s.lru.keys.foldlM flushKey 0

/-! ### Leases -/

/-- The key of a chunk on one rank. -/
def rankKey (chunk : String) (rank : ℤ) : String := s!"{chunk}:{rank}"

/-- `range(ranks)`. -/
def rankRange (ranks : ℤ) : List ℤ := (List.range ranks.toNat).map fun r => (r : ℤ)

/-- The entries of a chunk on every rank, if all are READY. -/
def hitRow (s : Store) (ranks : ℤ) (chunk : String) : Option (List Entry) :=
  (rankRange ranks).mapM fun r => s.index.get? (rankKey chunk r)

/-- The rows of the longest prefix of the chunks that is READY on every rank. -/
def hitRows (s : Store) (ranks : ℤ) : List String → List (List Entry)
  | [] => []
  | chunk :: rest =>
      match s.hitRow ranks chunk with
      | none => []
      | some row => row :: hitRows s ranks rest

/-- The hit entries of each rank, in the order of the chunks. -/
def foundRows (ranks : ℤ) (rows : List (List Entry)) : List (List Entry) :=
  (List.range ranks.toNat).map fun r => rows.filterMap fun row => row[r]?

/-- Move a READY key to the recent end of the LRU order. -/
def moveToEnd (key : String) : StoreM Unit := do
  let s ← get
  if s.lru.contains key then set { s with lru := (s.lru.erase key).set key () }
  else throw .keyError

/-- `e.pins += 1`, for an entry that sits in the index under its own key. -/
def pinEntry (key : String) : StoreM Unit :=
  modify fun s =>
    match s.index.get? key with
    | none => s
    | some e => { s with index := s.index.set key { e with pins := e.pins + 1 } }

/-- What a lookup returns: the number of hits, the lease if one was made, and the
entries of each rank. -/
structure LookupReply where
  hits : ℕ
  lease : Option Lease
  /-- The hit entries, by rank and chunk. -/
  found : List (List Entry)

/-- Longest prefix of `keys` present for every rank; with `pin`, the hit entries
are pinned under a new lease. `now` is the reading of the clock. -/
def lookup (keys : List String) (ranks : ℤ) (pin : Bool) (leaseMs : ℤ) (owner : String) (now : ℚ) :
    StoreM LookupReply := do
  let s ← get
  let rows := s.hitRows ranks keys
  let found := foundRows ranks rows
  forM (found.flatten.map Entry.key) moveToEnd
  if pin ∧ rows.length ≠ 0 then
    forM (found.flatten.map Entry.key) pinEntry
    let s ← get
    let lease : Lease := ⟨s.leaseIds, found.flatten.map Entry.key, now + leaseMs / 1000, owner⟩
    set { s with leaseIds := s.leaseIds + 1, leases := s.leases.set lease.leaseId lease }
    pure ⟨rows.length, some lease, found⟩
  else
    pure ⟨rows.length, none, found⟩

/-- The second half of `unpin`: the first retired version of the key that is still
pinned, freed when that was its last pin. -/
def unpinRetired (key : String) : StoreM Unit := do
  let s ← get
  match s.retired.findIdx? fun r => r.key = key ∧ 0 < r.pins with
  | none => pure ()
  | some i =>
    match s.retired[i]? with
    | none => throw .indexError
    | some r =>
      set { s with retired := s.retired.set i { r with pins := r.pins - 1 } }
      if r.pins - 1 = 0 then
        freeEntry { r with pins := r.pins - 1 }
        modify fun s => { s with retired := s.retired.eraseIdx i }
      else
        pure ()

/-- Take one pin off a key: off its READY version if that is pinned, else off a
retired one. -/
def unpin (key : String) : StoreM Unit := do
  let s ← get
  match s.index.get? key with
  | some e =>
    if 0 < e.pins then set { s with index := s.index.set key { e with pins := e.pins - 1 } }
    else unpinRetired key
  | none => unpinRetired key

/-- End a lease; whether it was active. -/
def release (leaseId : ℤ) : StoreM Bool := do
  let s ← get
  match s.leases.get? leaseId with
  | none => pure false
  | some lease =>
    set { s with leases := s.leases.erase leaseId }
    forM lease.keys unpin
    pure true

/-- The leases that have run out by `now`. -/
def deadLeases (s : Store) (now : ℚ) : List ℤ :=
  (s.leases.items.filter fun p => p.2.expires ≤ now).map Prod.fst

/-- End the leases that have run out; how many there were. -/
def expireLeases (now : ℚ) : StoreM ℕ := do
  let s ← get
  let dead := s.deadLeases now
  forM dead fun lid => do
    let _ ← release lid
  pure dead.length

/-! ### Writing -/

/-- The answer for one key of an allocation. -/
inductive AllocStatus where
  | new : AllocStatus
  | exists : AllocStatus
  | busy : AllocStatus
  | full : AllocStatus
  deriving DecidableEq, Repr

/-- One round of `allocateForWrite`. -/
def allocateKey (size : ℤ) (session : String) (skipExisting : Bool) (k : String) :
    StoreM (AllocStatus × Option Entry) := do
  let s ← get
  if skipExisting ∧ s.index.contains k then
    moveToEnd k
    pure (.exists, none)
  else if skipExisting ∧ s.writing.keys.any fun p => p.1 = k then
    pure (.busy, none)
  else if s.writing.contains (k, session) then
    pure (.busy, none)
  else
    match ← allocate size with
    | none => pure (.full, none)
    | some off =>
      let s ← get
      let e : Entry := ⟨s.nextUid, k, off, size, .writing, some session, 0, false⟩
      set { s with nextUid := s.nextUid + 1, writing := s.writing.set (k, session) e }
      pure (.new, some e)

/-- Allocate an entry per key for a session to write. -/
def allocateForWrite (keys : List String) (size : ℤ) (session : String) (skipExisting : Bool) :
    StoreM (List (AllocStatus × Option Entry)) :=
  keys.mapM (allocateKey size session skipExisting)

/-- The replaced version of a key leaves the index: retired if pinned, else freed. -/
def replaceOld (k : String) : StoreM Unit := do
  let s ← get
  match s.index.get? k with
  | none => pure ()
  | some old =>
    if s.lru.contains k then
      set { s with lru := s.lru.erase k }
      if old.pins ≠ 0 then
        modify fun s => { s with retired := s.retired ++ [{ old with retired := true }] }
      else
        freeEntry old
    else
      throw .keyError

/-- One round of `commit`. -/
def commitKey (session : String) (n : ℕ) (k : String) : StoreM ℕ := do
  let s ← get
  match s.writing.get? (k, session) with
  | none => pure n
  | some e =>
    set { s with writing := s.writing.erase (k, session) }
    replaceOld k
    modify fun s => { s with
      index := s.index.set k { e with state := .ready, owner := none }
      lru := s.lru.set k () }
    pure (n + 1)

/-- Publish the entries a session wrote under `keys`; how many there were. -/
def commit (keys : List String) (session : String) : StoreM ℕ :=
  keys.foldlM (commitKey session) 0

/-- One round of `abort`. -/
def abortKey (session : String) (n : ℕ) (k : String) : StoreM ℕ := do
  let s ← get
  match s.writing.get? (k, session) with
  | none => pure n
  | some e =>
    set { s with writing := s.writing.erase (k, session) }
    freeEntry e
    pure (n + 1)

/-- Drop the entries a session was writing under `keys`; how many there were. -/
def abort (keys : List String) (session : String) : StoreM ℕ :=
  keys.foldlM (abortKey session) 0

/-- The keys a session is writing. -/
def writtenBy (s : Store) (session : String) : List String :=
  (s.writing.keys.filter fun p => p.2 = session).map Prod.fst

/-- Abort everything a disconnected session was writing. -/
def dropSession (session : String) : StoreM ℕ := do
  let s ← get
  abort (s.writtenBy session) session

end Store

/-! ### Runs -/

/-- A call of one of the store's operations. -/
inductive StoreOp where
  | allocateForWrite (keys : List String) (size : ℤ) (session : String) (skipExisting : Bool) : StoreOp
  | commit (keys : List String) (session : String) : StoreOp
  | abort (keys : List String) (session : String) : StoreOp
  | dropSession (session : String) : StoreOp
  | lookup (keys : List String) (ranks : ℤ) (pin : Bool) (leaseMs : ℤ) (owner : String) (now : ℚ) : StoreOp
  | release (leaseId : ℤ) : StoreOp
  | expireLeases (now : ℚ) : StoreOp
  | setCapacity (capacityBytes : ℤ) : StoreOp
  | flush : StoreOp

/-- What an operation returns. -/
inductive StoreReply where
  | allocated (out : List (Store.AllocStatus × Option Entry)) : StoreReply
  | found (reply : Store.LookupReply) : StoreReply
  | released (ok : Bool) : StoreReply
  | count (n : ℕ) : StoreReply
  | capacity (bytes : ℤ) : StoreReply

namespace StoreOp

/-- Carry out an operation. -/
def exec : StoreOp → StoreM StoreReply
  | .allocateForWrite keys size session skip =>
      .allocated <$> Store.allocateForWrite keys size session skip
  | .commit keys session => .count <$> Store.commit keys session
  | .abort keys session => .count <$> Store.abort keys session
  | .dropSession session => .count <$> Store.dropSession session
  | .lookup keys ranks pin leaseMs owner now =>
      .found <$> Store.lookup keys ranks pin leaseMs owner now
  | .release leaseId => .released <$> Store.release leaseId
  | .expireLeases now => .count <$> Store.expireLeases now
  | .setCapacity capacityBytes => .capacity <$> Store.setCapacity capacityBytes
  | .flush => .count <$> Store.flush

/-- The entries an operation asks for have a positive size. -/
def PositiveSize : StoreOp → Prop
  | .allocateForWrite _ size _ _ => 0 < size
  | _ => True

end StoreOp

namespace Store

/-- The store after an operation. -/
def step (s : Store) (op : StoreOp) : Store := finalState op.exec s

/-- The store after a run of operations. -/
def run (s : Store) (ops : List StoreOp) : Store := ops.foldl step s

end Store

end CacheFlow
