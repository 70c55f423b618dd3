import CacheFlow.Lib.Returns
import CacheFlow.Server.Store

/-!
# Control-plane requests

A request is a JSON object. `_dispatch` of `server/server.py` reads its fields, with
the conversions of the language (`int(...)`, `bool(...)`, iteration, formatting), and
calls the store. All conversions of a request come before the store call, so a request
that cannot be converted changes nothing: `decode` is the conversions, `answer` the
call.

Formatting a JSON value and reading an integer off a string are the language's; both
are parameters (`Host`), as the model depends on nothing about them.
-/

namespace CacheFlow

/-- A JSON value, as the language's parser returns it. -/
inductive Json where
  | null : Json
  | bool (b : Bool) : Json
  | int (n : ℤ) : Json
  | real (x : ℚ) : Json
  /-- `NaN` and the infinities, which the parser accepts. -/
  | nonFinite : Json
  | str (s : String) : Json
  | arr (items : List Json) : Json
  | obj (items : List (String × Json)) : Json

/-- The items of a JSON object. -/
abbrev JsonObj := List (String × Json)

/-- Conversions of the language that the model takes as they come. -/
structure Host where
  /-- Formatting: `str(x)`. -/
  strOf : Json → String
  /-- `int(s)` of a string, if it reads as an integer. -/
  intOfStr : String → Option ℤ
  /-- The session tokens, in the order in which they are drawn. -/
  token : ℕ → String

namespace Json

/-- `int(x)`. -/
def toInt (h : Host) : Json → Except PyErr ℤ
  | .bool b => .ok (if b then 1 else 0)
  | .int n => .ok n
  | .real x => .ok (if 0 ≤ x then ⌊x⌋ else ⌈x⌉)
  | .nonFinite => .error .valueError
  | .str s =>
      match h.intOfStr s with
      | some n => .ok n
      | none => .error .valueError
  | .null => .error .typeError
  | .arr _ => .error .typeError
  | .obj _ => .error .typeError

/-- `bool(x)`. -/
def truthy : Json → Bool
  | .null => false
  | .bool b => b
  | .int n => n ≠ 0
  | .real x => x ≠ 0
  | .nonFinite => true
  | .str s => s ≠ ""
  | .arr items => !items.isEmpty
  | .obj items => !items.isEmpty

/-- The values a loop over `x` visits. -/
def iter : Json → Except PyErr (List Json)
  | .arr items => .ok items
  | .str s => .ok (s.toList.map fun c => .str c.toString)
  | .obj items => .ok (items.map fun p => .str p.1)
  | _ => .error .typeError

/-- `x == 1`, the protocol version: numbers and Booleans compare as numbers. -/
def isOne : Json → Bool
  | .bool b => b
  | .int n => n = 1
  | .real x => x = 1
  | _ => false

end Json

/-- `m[k]`. -/
def JsonObj.field (m : JsonObj) (k : String) : Except PyErr Json :=
  match m.lookup k with
  | some j => .ok j
  | none => .error .keyError

/-- `m.get(k, d)`. -/
def JsonObj.getD (m : JsonObj) (k : String) (d : Json) : Json := (m.lookup k).getD d

/-- What a session asks for, other than `hello`. -/
inductive Request where
  | ping : Request
  | store (op : StoreOp) : Request
  /-- A server-driven transfer: it touches neither the store nor the sessions. -/
  | push : Request
  | stats : Request
  | unknown : Request

section Decode

variable (h : Host) (defaultLeaseMs : ℤ) (token : String) (now : ℚ) (m : JsonObj)

/-- The rank-specific keys of an `alloc`, `commit` or `abort` request. -/
def decodeKeys : Except PyErr (List String) := do
  let ks ← (← m.field "keys").iter
  ks.mapM fun k => do
    let rank ← (m.getD "rank" (.int 0)).toInt h
    pure (Store.rankKey (h.strOf k) rank)

/-- The arguments of a lookup. -/
def decodeLookup : Except PyErr StoreOp := do
  let ranks ← (m.getD "ranks" (.int 1)).toInt h
  let keys ← m.field "keys"
  let leaseMs ← (m.getD "lease_ms" (.int defaultLeaseMs)).toInt h
  let keys ← keys.iter
  pure (.lookup (keys.map h.strOf) ranks (m.getD "pin" (.bool false)).truthy leaseMs token now)

/-- The arguments of an allocation. -/
def decodeAlloc : Except PyErr StoreOp := do
  let size ← (← m.field "size").toInt h
  let keys ← decodeKeys h m
  pure (.allocateForWrite keys size token (m.getD "skip_existing" (.bool true)).truthy)

/-- What a message of a session asks for: the branches of `_dispatch`. -/
def decode : Except PyErr Request :=
  match m.lookup "op" with
  | some (.str "ping") => .ok .ping
  | some (.str "lookup") => .store <$> decodeLookup h defaultLeaseMs token now m
  | some (.str "release") => do
      let lid ← (← m.field "lease").toInt h
      pure (.store (.release lid))
  | some (.str "alloc") => .store <$> decodeAlloc h token m
  | some (.str "commit") => do
      let keys ← decodeKeys h m
      pure (.store (.commit keys token))
  | some (.str "abort") => do
      let keys ← decodeKeys h m
      pure (.store (.abort keys token))
  | some (.str "push") => .ok .push
  | some (.str "flush") => .ok (.store .flush)
  | some (.str "set_capacity") => do
      let bytes ← (← m.field "bytes").toInt h
      pure (.store (.setCapacity bytes))
  | some (.str "stats") => .ok .stats
  | _ => .ok .unknown

end Decode

/-- An allocation is made for the session that asks for it. -/
theorem session_of_decode {h : Host} {defaultLeaseMs : ℤ} {token t : String} {now : ℚ} {m : JsonObj}
    {keys : List String} {size : ℤ} {skip : Bool}
    (hdec : decode h defaultLeaseMs token now m = .ok (.store (.allocateForWrite keys size t skip))) :
    t = token := by
  unfold decode at hdec
  split at hdec
  · cases hdec
  · obtain ⟨op, hop, hstore⟩ := map_eq_ok.mp hdec
    simp only [decodeLookup, bind_eq_ok] at hop
    obtain ⟨_, -, _, -, _, -, _, -, hop⟩ := hop
    cases hop
    cases hstore
  · obtain ⟨_, -, hop⟩ := bind_eq_ok.mp hdec
    obtain ⟨_, -, hop⟩ := bind_eq_ok.mp hop
    cases hop
  · obtain ⟨op, hop, hstore⟩ := map_eq_ok.mp hdec
    simp only [decodeAlloc, bind_eq_ok] at hop
    obtain ⟨_, -, _, -, _, -, hop⟩ := hop
    cases hop
    cases hstore
    rfl
  · obtain ⟨_, -, hop⟩ := bind_eq_ok.mp hdec
    cases hop
  · obtain ⟨_, -, hop⟩ := bind_eq_ok.mp hdec
    cases hop
  · cases hdec
  · cases hdec
  · obtain ⟨_, -, hop⟩ := bind_eq_ok.mp hdec
    obtain ⟨_, -, hop⟩ := bind_eq_ok.mp hop
    cases hop
  · cases hdec
  · cases hdec

/-- Why a request is refused. -/
inductive Refusal where
  /-- "send hello first". -/
  | helloFirst : Refusal
  /-- "protocol version mismatch". -/
  | version : Refusal
  /-- "unknown op". -/
  | unknownOp : Refusal
  | raised (e : PyErr) : Refusal

/-- The server's answers. -/
inductive Reply where
  /-- To `hello`: the session, and the size and capacity of the pool. -/
  | welcome (session : String) (poolBytes capacityBytes : ℤ) : Reply
  | pong : Reply
  /-- To `lookup`: the hits, the lease and the addresses of the entries. -/
  | found (hits : ℕ) (lease : Option ℤ) (entries : List (List ℤ)) : Reply
  | released (ok : Bool) : Reply
  /-- To `alloc`: a status and an address for each key; zero for no entry. -/
  | allocated (status : List Store.AllocStatus) (addrs : List ℤ) : Reply
  | count (n : ℕ) : Reply
  | capacity (bytes : ℤ) : Reply
  | pushed : Reply
  | stats : Reply
  | refused (why : Refusal) : Reply

/-- The reply that carries what a store operation returned; `base` is the address of
the pool. -/
def StoreReply.toReply (base : ℤ) : StoreReply → Reply
  | .allocated out =>
      .allocated (out.map Prod.fst) (out.map fun a => a.2.elim 0 fun e => base + e.offset)
  | .found r =>
      .found r.hits (r.lease.map Lease.leaseId) (r.found.map fun row => row.map fun e => base + e.offset)
  | .released ok => .released ok
  | .count n => .count n
  | .capacity bytes => .capacity bytes

/-- Carry out a request. -/
def answer (base : ℤ) : Request → StoreM Reply
  | .ping => pure .pong
  | .store op => StoreReply.toReply base <$> op.exec
  | .push => pure .pushed
  | .stats => pure .stats
  | .unknown => pure (.refused .unknownOp)

end CacheFlow
