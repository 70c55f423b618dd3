import CacheFlow.Server.Message
import CacheFlow.Server.StoreRun

/-!
# The control-plane server

`CacheFlowServer._handle` of `server/server.py`: one coroutine for each control
connection, with the session it opened in a local variable; the coroutines share the
store and the table of sessions. A coroutine gives way only where it waits for the
next frame or for its reply to be written, so a frame is handled in one step and the
clean-up after the last one in another; between them come frames of other connections
and the housekeeping task.

`created` is the history of a connection: the tokens of all sessions it opened, by
their number in the order of drawing.

## Main definitions

* `System.Clean` — nothing is left of what a connection started.

## Main results

* `System.clean_iff_of_run` — exactly for a connection that sent `hello` at most once.
-/

namespace CacheFlow

open List

/-- A session, as the table of sessions has it. -/
structure Session where
  token : String
  client : Json

/-- What the connections share. -/
structure Server where
  store : Store
  /-- The sessions, by token. -/
  sessions : Dict String Session
  /-- How many tokens have been drawn. -/
  drawn : ℕ

/-- A control connection. -/
structure Conn where
  /-- The session in its local variable, by the number of its token. -/
  sess : Option ℕ
  created : List ℕ
  isOpen : Bool
  deriving DecidableEq

/-- What stays the same while a server runs. -/
structure ServerEnv where
  /-- The conversions of the language, and the tokens. -/
  host : Host
  defaultLeaseMs : ℤ
  base : ℤ

namespace Conn

variable (env : ServerEnv)

/-- A connection that has just been accepted. -/
def new : Conn := ⟨none, [], true⟩

/-- `_hello`: the protocol versions are compared. -/
def welcome (token : String) (m : JsonObj) (s : Server) : Reply :=
  if (m.getD "version" .null).isOne then
    .welcome token s.store.poolBytes s.store.capacityBytes
  else
    .refused .version

/-- A `hello` frame: a new session is opened, whatever the answer is. -/
def hello (m : JsonObj) (c : Conn) (s : Server) : Reply × Conn × Server :=
  let token := env.host.token s.drawn
  let s' : Server := { s with
    sessions := s.sessions.set token ⟨token, m.getD "client" (.str "")⟩, drawn := s.drawn + 1 }
  (welcome token m s', { c with sess := some s.drawn, created := c.created ++ [s.drawn] }, s')

/-- `_dispatch`: convert the request and carry it out. -/
def dispatch (token : String) (now : ℚ) (m : JsonObj) : StoreM Reply :=
  match decode env.host env.defaultLeaseMs token now m with
  | .error e => throw e
  | .ok req => answer env.base req

/-- A request of an open session; an exception is reported and the session stays. -/
def request (n : ℕ) (now : ℚ) (m : JsonObj) (c : Conn) (s : Server) : Reply × Conn × Server :=
  match dispatch env (env.host.token n) now m s.store with
  | .ok r st => (r, c, { s with store := st })
  | .error e st => (.refused (.raised e), c, { s with store := st })

/-- One frame that holds a JSON object. -/
def handle (now : ℚ) (m : JsonObj) (c : Conn) (s : Server) : Reply × Conn × Server :=
  match m.lookup "op" with
  | some (.str "hello") => hello env m c s
  | _ =>
    match c.sess with
    | none => (.refused .helloFirst, c, s)
    | some n => request env n now m c s

/-- The clean-up when the loop has ended: the session of the local variable is
forgotten and what it was writing is aborted. -/
def finish (c : Conn) (s : Server) : Conn × Server :=
  match c.sess with
  | none => ({ c with isOpen := false }, s)
  | some n =>
    ({ c with isOpen := false },
      { s with
        sessions := s.sessions.erase (env.host.token n)
        store := finalState (Store.dropSession (env.host.token n)) s.store })

variable {env} {c : Conn} {s : Server}

theorem finish_of_none (h : c.sess = none) : c.finish env s = ({ c with isOpen := false }, s) := by
  simp only [finish, h]

theorem finish_of_some {n : ℕ} (h : c.sess = some n) : c.finish env s =
    ({ c with isOpen := false },
      { s with
        sessions := s.sessions.erase (env.host.token n)
        store := finalState (Store.dropSession (env.host.token n)) s.store }) := by
  simp only [finish, h]

end Conn

/-- The server and its connections, in the order in which they were accepted. -/
structure System where
  /-- What they share. -/
  server : Server
  conns : List Conn

/-- What can happen next. -/
inductive NetEvent where
  | connect : NetEvent
  /-- A whole frame arrives; `none` when it is too long or is not JSON. -/
  | frame (i : ℕ) (body : Option Json) (now : ℚ) : NetEvent
  /-- The connection breaks, or a reply cannot be written. -/
  | close (i : ℕ) : NetEvent
  | housekeeping (now : ℚ) : NetEvent

namespace System

variable (env : ServerEnv)

/-- A server that has just been started. -/
def init (pool page : ℕ) (hpage : 0 < page) (capacity : Option ℤ) : System :=
  ⟨⟨Store.init pool page hpage capacity, ∅, 0⟩, []⟩

/-- The connection at a position ends. -/
def closeAt (i : ℕ) (c : Conn) (sys : System) : System :=
  let (c', s') := c.finish env sys.server
  ⟨s', sys.conns.set i c'⟩

/-- One event. A frame that is not a JSON object ends the loop of its connection. -/
def step (sys : System) : NetEvent → System
  | .connect => { sys with conns := sys.conns ++ [.new] }
  | .frame i body now =>
      match sys.conns[i]? with
      | none => sys
      | some c =>
        if c.isOpen then
          match body with
          | some (.obj m) =>
              let (_, c', s') := c.handle env now m sys.server
              ⟨s', sys.conns.set i c'⟩
          | _ => closeAt env i c sys
        else
          sys
  | .close i =>
      match sys.conns[i]? with
      | none => sys
      | some c => if c.isOpen then closeAt env i c sys else sys
  | .housekeeping now =>
      { sys with server := { sys.server with
        store := finalState (Store.expireLeases now) sys.server.store } }

/-- A run. -/
def run (sys : System) (events : List NetEvent) : System := events.foldl (step env) sys

/-- Nothing is left of the sessions a connection opened: no entry in the table, and
nothing that they were writing. -/
def Clean (sys : System) (c : Conn) : Prop :=
  ∀ n ∈ c.created, env.host.token n ∉ sys.server.sessions.keys ∧
    ∀ k, sys.server.store.writing.get? (k, env.host.token n) = none

/-- A frame does not ask for entries of size zero or below. -/
def PositiveAlloc : NetEvent → Prop
  | .frame _ (some (.obj m)) _ => ∀ op token now,
      decode env.host env.defaultLeaseMs token now m = .ok (.store op) → op.PositiveSize
  | _ => True

/-! ### What the table of sessions holds -/

/-- The token is of a session of an open connection, or of one that its connection
has lost track of. -/
def Owned (conns : List Conn) (t : String) : Prop :=
  ∃ c ∈ conns, ∃ n ∈ c.created, t = env.host.token n ∧ (c.isOpen = true ∨ c.sess ≠ some n)

/-- The invariant of the server and its connections. -/
structure Inv (s : Server) (conns : List Conn) : Prop where
  store : s.store.Inv
  nodup : (conns.flatMap Conn.created).Nodup
  drawn : ∀ n ∈ conns.flatMap Conn.created, n < s.drawn
  last : ∀ c ∈ conns, c.sess = c.created.getLast?
  sessions : ∀ t, t ∈ s.sessions.keys ↔ Owned env conns t
  writing : ∀ p e, s.store.writing.get? p = some e → Owned env conns p.2

variable {env}

variable {conns : List Conn}

theorem Owned.perm {conns' : List Conn} (hp : conns.Perm conns') {t : String}
    (h : Owned env conns t) : Owned env conns' t := by
  obtain ⟨c, hc, hrest⟩ := h
  exact ⟨c, hp.mem_iff.mp hc, hrest⟩

variable {s : Server}

theorem Inv.perm {conns' : List Conn} (h : Inv env s conns)
    (hp : conns.Perm conns') : Inv env s conns' where
  store := h.store
  nodup := (hp.flatMap_right _).nodup_iff.mp h.nodup
  drawn := fun n hn => h.drawn n ((hp.flatMap_right _).mem_iff.mpr hn)
  last := fun c hc => h.last c (hp.mem_iff.mpr hc)
  sessions := fun t => (h.sessions t).trans ⟨.perm hp, .perm hp.symm⟩
  writing := fun p e he => (h.writing p e he).perm hp

variable {c : Conn}

/-- A connection at a position, and what there is once it has changed. -/
theorem exists_perm_of_getElem? {i : ℕ} (h : conns[i]? = some c) :
    ∃ rest, conns.Perm (c :: rest) ∧ ∀ c', (conns.set i c').Perm (c' :: rest) := by
  obtain ⟨hi, rfl⟩ := List.getElem?_eq_some_iff.mp h
  refine ⟨conns.take i ++ conns.drop (i + 1), ?_, fun c' => ?_⟩
  · refine List.Perm.trans (.of_eq ?_) perm_middle
    rw [← drop_eq_getElem_cons hi, take_append_drop]
  · rw [set_eq_take_append_cons_drop, if_pos hi]
    exact perm_middle

theorem inv_init (pool page : ℕ) (hpage : 0 < page) (capacity : Option ℤ) :
    Inv env (init pool page hpage capacity).server [] where
  store := Store.inv_init pool page hpage capacity
  nodup := nodup_nil
  drawn := fun n hn => by cases hn
  last := fun c hc => by cases hc
  sessions := fun t => by
    constructor
    · intro ht
      cases ht
    · rintro ⟨c, hc, -⟩
      cases hc
  writing := fun p e he => by cases he

variable {rest : List Conn}

theorem owned_cons {t : String} : Owned env (c :: rest) t ↔
    (∃ n ∈ c.created, t = env.host.token n ∧ (c.isOpen = true ∨ c.sess ≠ some n)) ∨
      Owned env rest t := by
  simp only [Owned, exists_mem_cons_iff]

theorem Inv.connect (h : Inv env s conns) : Inv env s (.new :: conns) := { h with
  last := fun c hc => by
    rcases mem_cons.mp hc with rfl | hc
    · rfl
    · exact h.last c hc
  sessions := fun t => by
    rw [owned_cons, h.sessions]
    simp [Conn.new]
  writing := fun p e he => owned_cons.mpr (Or.inr (h.writing p e he)) }

theorem Inv.hello (h : Inv env s (c :: rest)) (hopen : c.isOpen = true) (m : JsonObj) :
    Inv env (c.hello env m s).2.2 ((c.hello env m s).2.1 :: rest) := by
  have howned : ∀ t, Owned env ((c.hello env m s).2.1 :: rest) t ↔
      t = env.host.token s.drawn ∨ Owned env (c :: rest) t := by
    intro t
    rw [owned_cons, owned_cons, ← or_assoc]
    refine or_congr_left ?_
    simp only [Conn.hello, hopen, true_or, and_true, mem_append, mem_singleton]
    constructor
    · rintro ⟨n, hn | rfl, rfl⟩
      · exact Or.inr ⟨n, hn, rfl⟩
      · exact Or.inl rfl
    · rintro (rfl | ⟨n, hn, rfl⟩)
      · exact ⟨s.drawn, Or.inr rfl, rfl⟩
      · exact ⟨n, Or.inl hn, rfl⟩
  -- the new session is the only thing that is added
  have hperm : (((c.hello env m s).2.1 :: rest).flatMap Conn.created).Perm
      (s.drawn :: (c :: rest).flatMap Conn.created) := by
    simp only [Conn.hello, flatMap_cons, append_assoc, singleton_append]
    exact perm_middle
  refine ⟨h.store, ?_, fun n hn => ?_, fun c' hc' => ?_, fun t => ?_, fun p e he => ?_⟩
  · rw [hperm.nodup_iff, nodup_cons]
    exact ⟨fun hmem => absurd (h.drawn _ hmem) (lt_irrefl _), h.nodup⟩
  · rcases mem_cons.mp (hperm.mem_iff.mp hn) with rfl | hn
    · exact Nat.lt_succ_self _
    · exact Nat.lt_succ_of_lt (h.drawn n hn)
  · rcases mem_cons.mp hc' with rfl | hc'
    · simp [Conn.hello]
    · exact h.last c' (mem_cons_of_mem c hc')
  · rw [howned, ← h.sessions]
    exact Dict.mem_keys_set
  · exact (howned _).mpr (Or.inr (h.writing p e he))

/-- What a request does to the store, whether it is answered or raises. -/
theorem dispatch_spec {st : Store} (h : st.Inv) {token : String} {now : ℚ} {m : JsonObj}
    (hpos : ∀ op, decode env.host env.defaultLeaseMs token now m = .ok (.store op) →
      op.PositiveSize) :
    (finalState (Conn.dispatch env token now m) st).Inv ∧
    ∀ p e, (finalState (Conn.dispatch env token now m) st).writing.get? p = some e →
      st.writing.get? p = some e ∨ p.2 = token := by
  have hsame : st.Inv ∧ ∀ p e, st.writing.get? p = some e →
      st.writing.get? p = some e ∨ p.2 = token := ⟨h, fun p e he => Or.inl he⟩
  unfold Conn.dispatch
  cases hdec : decode env.host env.defaultLeaseMs token now m with
  | error e => exact hsame
  | ok req =>
    cases req with
    | ping => exact hsame
    | push => exact hsame
    | stats => exact hsame
    | unknown => exact hsame
    | store op =>
      have hsat : Sat (answer env.base (.store op)) st fun _ st' => st'.Inv ∧
          ∀ p e, st'.writing.get? p = some e → st.writing.get? p = some e ∨ p.2 = token := by
        refine sat_map.mpr ((h.sat_exec op (hpos op hdec)).mono fun r st' heff => ?_)
        refine ⟨heff.leaseEffect.inv h, fun p e he => ?_⟩
        rcases heff.written h he with he | ⟨keys, size, skip, rfl⟩
        · exact Or.inl he
        · exact Or.inr (session_of_decode hdec)
      exact hsat.of_finalState

/-- The invariant after a change of the store that adds only entries of a session of an
open connection to those being written. -/
theorem Inv.set_store (h : Inv env s conns) {st : Store}
    (hst : st.Inv) (hw : ∀ p e, st.writing.get? p = some e →
      s.store.writing.get? p = some e ∨ Owned env conns p.2) :
    Inv env { s with store := st } conns := by
  refine { h with store := hst, writing := fun p e he => ?_ }
  rcases hw p e he with he | howned
  · exact h.writing p e he
  · exact howned

section

variable (h : Inv env s (c :: rest))
include h

theorem Inv.request (hopen : c.isOpen = true) {n : ℕ} (hn : c.sess = some n) {now : ℚ} {m : JsonObj}
    (hpos : ∀ op, decode env.host env.defaultLeaseMs (env.host.token n) now m = .ok (.store op) →
      op.PositiveSize) :
    Inv env (c.request env n now m s).2.2 ((c.request env n now m s).2.1 :: rest) := by
  have hmem : n ∈ c.created := by
    have hlast := h.last c mem_cons_self
    rw [hn] at hlast
    exact mem_of_getLast? hlast.symm
  have howned : Owned env (c :: rest) (env.host.token n) :=
    ⟨c, mem_cons_self, n, hmem, rfl, Or.inl hopen⟩
  obtain ⟨hst, hw⟩ := dispatch_spec h.store hpos
  have hset := h.set_store hst fun p e he => (hw p e he).imp_right fun hp => by rw [hp]; exact howned
  unfold Conn.request
  unfold finalState at hset
  cases hres : Conn.dispatch env (env.host.token n) now m s.store with
  | ok r st =>
    rw [hres] at hset
    exact hset
  | error e st =>
    rw [hres] at hset
    exact hset

/-- **A frame keeps the invariant.** -/
theorem Inv.handle (hopen : c.isOpen = true) {now : ℚ} {m : JsonObj}
    (hpos : ∀ op token now, decode env.host env.defaultLeaseMs token now m = .ok (.store op) →
      op.PositiveSize) :
    Inv env (c.handle env now m s).2.2 ((c.handle env now m s).2.1 :: rest) := by
  unfold Conn.handle
  split
  · exact h.hello hopen m
  · cases hn : c.sess with
    | none => exact h
    | some n => exact h.request hopen hn fun op hop => hpos op _ _ hop

theorem Inv.not_mem_created
    {n : ℕ} (hn : n ∈ c.created) {c' : Conn} (hc' : c' ∈ rest) : n ∉ c'.created := by
  intro hn'
  have hnd := h.nodup
  exact (nodup_append.mp hnd).2.2 n hn n (mem_flatMap.mpr ⟨c', hc', hn'⟩) rfl

/-- When a connection ends, its last session is the one that is forgotten. -/
theorem Inv.owned_finish
    (hopen : c.isOpen = true) (hinj : Function.Injective env.host.token) {n : ℕ}
    (hn : c.sess = some n) (t : String) :
    Owned env ({ c with isOpen := false } :: rest) t ↔
      t ≠ env.host.token n ∧ Owned env (c :: rest) t := by
  have hmem : n ∈ c.created := by
    have hlast := h.last c mem_cons_self
    rw [hn] at hlast
    exact mem_of_getLast? hlast.symm
  rw [owned_cons, owned_cons]
  constructor
  · rintro (⟨m, hm, rfl, hm'⟩ | ⟨c', hc', m, hm, rfl, hm'⟩)
    · have hne : m ≠ n := by
        rintro rfl
        rcases hm' with hfalse | hne
        · cases hfalse
        · exact hne hn
      exact ⟨fun heq => hne (hinj heq), Or.inl ⟨m, hm, rfl, Or.inl hopen⟩⟩
    · refine ⟨fun heq => ?_, Or.inr ⟨c', hc', m, hm, rfl, hm'⟩⟩
      rw [hinj heq] at hm
      exact h.not_mem_created hmem hc' hm
  · rintro ⟨hne, ⟨m, hm, rfl, -⟩ | hrest⟩
    · refine Or.inl ⟨m, hm, rfl, Or.inr fun heq => hne ?_⟩
      rw [hn, Option.some.injEq] at heq
      rw [heq]
    · exact Or.inr hrest

/-- **The clean-up keeps the invariant.** -/
theorem Inv.finish (hopen : c.isOpen = true) (hinj : Function.Injective env.host.token) :
    Inv env (c.finish env s).2 ((c.finish env s).1 :: rest) := by
  have hlast := h.last c mem_cons_self
  cases hn : c.sess with
  | none =>
    rw [Conn.finish_of_none hn]
    -- no session was opened, so there is none to be forgotten
    have hnil : c.created = [] := List.getLast?_eq_none_iff.mp (hlast.symm.trans hn)
    have howned : ∀ t, Owned env ({ c with isOpen := false } :: rest) t ↔ Owned env (c :: rest) t := by
      intro t
      rw [owned_cons, owned_cons]
      simp [hnil]
    refine ⟨h.store, h.nodup, h.drawn, fun c' hc' => ?_, fun t => ?_, fun p e he => ?_⟩
    · rcases mem_cons.mp hc' with rfl | hc'
      · exact hlast
      · exact h.last c' (mem_cons_of_mem c hc')
    · exact (h.sessions t).trans (howned t).symm
    · exact (howned _).mpr (h.writing p e he)
  | some n =>
    rw [Conn.finish_of_some hn]
    have howned := h.owned_finish hopen hinj hn
    obtain ⟨hkept, hw⟩ := (h.store.sat_dropSession (env.host.token n)).of_finalState
    refine ⟨hkept.inv, h.nodup, h.drawn, fun c' hc' => ?_, fun t => ?_, fun p e he => ?_⟩
    · rcases mem_cons.mp hc' with rfl | hc'
      · exact hlast
      · exact h.last c' (mem_cons_of_mem c hc')
    · rw [howned, ← h.sessions, Dict.keys_erase, s.sessions.nodup_keys.mem_erase_iff]
    · rw [hw p] at he
      split_ifs at he with hp
      exact (howned _).mpr ⟨hp, h.writing p e he⟩

end

/-- **Every event keeps the invariant.** -/
theorem Inv.step {sys : System} (h : Inv env sys.server sys.conns)
    (hinj : Function.Injective env.host.token) {ev : NetEvent} (hpos : PositiveAlloc env ev) :
    Inv env (sys.step env ev).server (sys.step env ev).conns := by
  have hclose : ∀ i c, sys.conns[i]? = some c → c.isOpen = true →
      Inv env (closeAt env i c sys).server (closeAt env i c sys).conns := by
    intro i c hget hopen
    obtain ⟨rest, hperm, hset⟩ := exists_perm_of_getElem? hget
    exact ((h.perm hperm).finish hopen hinj).perm (hset _).symm
  cases ev with
  | connect => exact h.connect.perm (perm_append_singleton _ _).symm
  | frame i body now =>
    simp only [System.step]
    cases hget : sys.conns[i]? with
    | none => exact h
    | some c =>
      dsimp only
      split_ifs with hopen
      · cases body with
        | none => exact hclose i c hget hopen
        | some j =>
          cases j with
          | obj m =>
            obtain ⟨rest, hperm, hset⟩ := exists_perm_of_getElem? hget
            exact ((h.perm hperm).handle hopen hpos).perm (hset _).symm
          | _ =>
            -- `msg.get` raises for any other value, which ends the coroutine
            exact hclose i c hget hopen
      · exact h
  | close i =>
    simp only [System.step]
    cases hget : sys.conns[i]? with
    | none => exact h
    | some c =>
      dsimp only
      split_ifs with hopen
      · exact hclose i c hget hopen
      · exact h
  | housekeeping now =>
    have hsat := (h.store.sat_expireLeases now).mono fun _ st ⟨hend, _⟩ =>
      (⟨hend.inv h.store, hend.writing h.store⟩ : st.Inv ∧ st.writing = sys.server.store.writing)
    obtain ⟨hst, hw⟩ := hsat.of_finalState
    exact h.set_store hst fun p e he => Or.inl (hw ▸ he)

/-- **Disconnecting.** After every run of any number of connections in which no frame
asks for an entry of size zero or below, a connection that has ended has left nothing
behind if and only if it opened at most one session. -/
theorem clean_iff_of_run (hinj : Function.Injective env.host.token) (pool page : ℕ)
    (hpage : 0 < page) (capacity : Option ℤ) (events : List NetEvent)
    (hpos : ∀ ev ∈ events, PositiveAlloc env ev) :
    ∀ c ∈ ((init pool page hpage capacity).run env events).conns, c.isOpen = false →
      (Clean env ((init pool page hpage capacity).run env events) c ↔ c.created.length ≤ 1) := by
  have h : Inv env ((init pool page hpage capacity).run env events).server
      ((init pool page hpage capacity).run env events).conns := by
    refine foldl_invariant (I := fun sys : System => Inv env sys.server sys.conns) events _
      (fun ev hev sys hsys => hsys.step hinj (hpos ev hev)) ?_
    exact inv_init pool page hpage capacity
  set sys := (init pool page hpage capacity).run env events
  intro c hc hclosed
  have hlast := h.last c hc
  obtain ⟨rest, hperm⟩ : ∃ rest, sys.conns.Perm (c :: rest) := ⟨_, perm_cons_erase hc⟩
  have hcons := h.perm hperm
  have hnd : c.created.Nodup := (nodup_flatMap.mp h.nodup).1 c hc
  constructor
  · -- the first of several sessions is lost
    intro hclean
    by_contra hlen
    obtain ⟨a, b, l, hl⟩ : ∃ a b l, c.created = a :: b :: l := by
      match hcr : c.created with
      | [] => simp [hcr] at hlen
      | [a] => simp [hcr] at hlen
      | a :: b :: l => exact ⟨a, b, l, rfl⟩
    have ha : a ∈ c.created := by simp [hl]
    refine (hclean a ha).1 ((h.sessions _).mpr ⟨c, hc, a, ha, rfl, Or.inr fun heq => ?_⟩)
    rw [hlast, hl, List.getLast?_cons_cons] at heq
    rw [hl, nodup_cons] at hnd
    exact hnd.1 (mem_of_getLast? heq)
  · -- the only session is the last one
    intro hlen n hn
    have hsess : c.sess = some n := by
      match hcr : c.created with
      | [] => simp [hcr] at hn
      | [a] =>
        rw [hcr, mem_singleton] at hn
        rw [hlast, hcr, hn]
        rfl
      | a :: b :: l => simp [hcr] at hlen
    have hnot : ¬ Owned env sys.conns (env.host.token n) := by
      intro howned
      rcases owned_cons.mp (howned.perm hperm) with ⟨m, -, heq, hm⟩ | ⟨c', hc', m, hm, heq, -⟩
      · rcases hm with hopen | hne
        · rw [hclosed] at hopen
          cases hopen
        · exact hne (hinj heq ▸ hsess)
      · rw [← hinj heq] at hm
        exact hcons.not_mem_created hn hc' hm
    refine ⟨fun hmem => hnot ((h.sessions _).mp hmem), fun k => ?_⟩
    cases hget : sys.server.store.writing.get? (k, env.host.token n) with
    | none => rfl
    | some e => exact absurd (h.writing _ e hget) hnot

/-- An environment whose tokens are told apart by their length. -/
def sampleEnv : ServerEnv where
  host :=
    { strOf := fun j =>
        match j with
        | .str t => t
        | _ => ""
      intOfStr := String.toInt?
      token := fun n => String.ofList (List.replicate n 'f') }
  defaultLeaseMs := 60000
  base := 0

theorem sampleEnv_token_injective : Function.Injective sampleEnv.host.token := by
  intro a b hab
  have hlen := congrArg String.length hab
  simpa [sampleEnv] using hlen

/-- A `hello` frame of protocol version 1. -/
def helloFrame : Json := .obj [("op", .str "hello"), ("version", .int 1)]

/-- A frame that asks for one entry. -/
def allocFrame : Json := .obj [("op", .str "alloc"), ("size", .int 1), ("keys", .arr [.str "k"])]

/-- One session, closed while it was writing. -/
theorem clean_after_one_hello :
    let events : List NetEvent := [.connect, .frame 0 (some helloFrame) 0,
      .frame 0 (some allocFrame) 0, .close 0]
    ∀ c ∈ ((init 16 1 Nat.one_pos none).run sampleEnv events).conns, c.isOpen = false →
      (Clean sampleEnv ((init 16 1 Nat.one_pos none).run sampleEnv events) c ↔
        c.created.length ≤ 1) := by
  refine clean_iff_of_run sampleEnv_token_injective 16 1 Nat.one_pos none _ fun ev hev => ?_
  simp only [mem_cons, not_mem_nil, or_false] at hev
  rcases hev with rfl | rfl | rfl | rfl
  · trivial
  · intro op token now hdec
    cases hdec
  · intro op token now hdec
    cases hdec
    exact Int.one_pos
  · trivial

/-- The first of two sessions is never cleaned up: it stays in the table, and so does
the entry it was writing. -/
theorem not_clean_after_second_hello :
    let sys := (init 16 1 Nat.one_pos none).run sampleEnv [.connect, .frame 0 (some helloFrame) 0,
      .frame 0 (some allocFrame) 0, .frame 0 (some helloFrame) 0, .close 0]
    sys.conns = [⟨some 1, [0, 1], false⟩] ∧
    sampleEnv.host.token 0 ∈ sys.server.sessions.keys ∧
    sys.server.store.writing.contains ("k:0", sampleEnv.host.token 0) = true ∧
    ¬ Clean sampleEnv sys ⟨some 1, [0, 1], false⟩ := by
  intro sys
  have htable : sampleEnv.host.token 0 ∈ sys.server.sessions.keys := by decide +kernel
  refine ⟨by decide +kernel, htable, by decide +kernel, fun hclean => ?_⟩
  exact (hclean 0 (by decide)).1 htable

end System

end CacheFlow
