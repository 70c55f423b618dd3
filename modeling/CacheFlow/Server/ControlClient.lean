import CacheFlow.Lib.Steps

/-!
# Requests and replies on the control connection

`ControlClient` of `protocol.py`. Any number of threads call `request`: a call draws an id, enters a
slot for the reply under it, sends its frame and waits until the slot is set or its time is up. One
reader thread takes the replies off the connection and finds the slot by the id, which the server
echoes. When the reader ends, it fails all calls that have a slot. A call tests `_closed` before it
has one: if the reader ends between the two, nobody ever sets the slot.

Only the reader writes to slots, and a call looks at its slot once, when it stops waiting. So what
the reader does for one message, and what it does when it ends, are single steps.

## Main results

* `ControlClient.always_matched` — **a reply is the server's answer to the frame of the call.**
* `ControlClient.always_strands` — **which calls are left without one when the reader ends.**
-/

namespace CacheFlow

open List Steps

/-- What is put into a slot: a message of the server, or the error of a lost connection. -/
inductive SlotReply (M : Type) where
  | answer (m : M)
  | lost

/-- Where a call of `request` stands, or how it has ended. -/
inductive Phase (M : Type) where
  | registered
  | waiting
  /-- Without `ok`, the reply is raised as an error. -/
  | got (r : SlotReply M)
  | timedOut
  | sendFailed

/-- The slot is no longer in `_pending`. -/
def Phase.over {M : Type} : Phase M → Bool
  | .registered | .waiting => false
  | _ => true

/-- A call of `request` that has its id. -/
structure RequestCall (F M : Type) where
  frame : F
  phase : Phase M := .registered
  /-- `slot[1]`. The event `slot[0]` is set along with it. -/
  slot : Option (SlotReply M) := none

/-- The client and the connection. -/
structure ControlClient (F M : Type) where
  /-- `_closed`. -/
  closed : Bool := false
  /-- How many calls have passed the test of `_closed` and have no id. -/
  entered : ℕ := 0
  /-- The calls in the order of their ids, which are counted from zero here. -/
  calls : List (RequestCall F M) := []
  /-- The frames that the server has not read, each with the id of its call. -/
  requests : List (ℕ × F) := []
  /-- Those that it has answered, and what it has answered, in this order. -/
  served : List (ℕ × F × M) := []
  /-- How many answers the reader has read. -/
  received : ℕ := 0
  /-- The number of calls when the reader ended. -/
  ended : Option ℕ := none
  /-- `entered` when the reader ended. -/
  late : ℕ := 0

namespace ControlClient

variable {F M : Type}

/-- What the threads and the server do. -/
inductive Event (F M : Type) where
  /-- A call of `request` finds the connection open. -/
  | enter
  /-- It gets its id and its slot. -/
  | register (f : F)
  /-- `sendall`, which may raise. -/
  | send (id : ℕ) (ok : Bool)
  /-- The server answers the next frame. -/
  | serve (m : M)
  /-- The reader reads the next answer. -/
  | receive
  /-- The reader gets an exception, from the connection or from `on_event`. -/
  | readerEnds
  /-- `close`. -/
  | close
  /-- A call finds its slot set. -/
  | wake (id : ℕ)
  | timeOut (id : ℕ)

/-- What the reader does to a slot when it ends. -/
def fail (r : RequestCall F M) : RequestCall F M :=
  if r.phase.over ∨ r.slot.isSome then r else { r with slot := some .lost }

/-- The call `id` goes on as `r`. -/
def set (c : ControlClient F M) (id : ℕ) (r : RequestCall F M) : ControlClient F M :=
  { c with calls := c.calls.set id r }

/-- One step, if it can be taken. -/
def step (c : ControlClient F M) : Event F M → Option (ControlClient F M)
  | .enter => if c.closed then none else some { c with entered := c.entered + 1 }
  | .register f =>
    if c.entered = 0 then none
    else some { c with entered := c.entered - 1, calls := c.calls ++ [{ frame := f }] }
  | .send id ok =>
    match c.calls[id]? with
    | some ⟨f, .registered, slot⟩ =>
      if ok then some { c.set id ⟨f, .waiting, slot⟩ with requests := c.requests ++ [(id, f)] }
      else some (c.set id ⟨f, .sendFailed, slot⟩)
    | _ => none
  | .serve m =>
    match c.requests with
    | [] => none
    | (id, f) :: rest => some { c with requests := rest, served := c.served ++ [(id, f, m)] }
  | .receive =>
    match c.served[c.received]?, c.ended with
    | some (id, _, m), none =>
      let c' := { c with received := c.received + 1 }
      match c.calls[id]? with
      | none => some c'
      | some r => some (if r.phase.over then c' else c'.set id { r with slot := some (.answer m) })
    | _, _ => none
  | .readerEnds =>
    if c.ended.isSome then none
    else
      some { c with
        closed := true, ended := some c.calls.length, late := c.entered, calls := c.calls.map fail }
  | .close => some { c with closed := true }
  | .wake id =>
    match c.calls[id]? with
    | some ⟨f, .waiting, some r⟩ => some (c.set id ⟨f, .got r, some r⟩)
    | _ => none
  | .timeOut id =>
    match c.calls[id]? with
    | some ⟨f, .waiting, none⟩ => some (c.set id ⟨f, .timedOut, none⟩)
    | _ => none

/-- The frames that were sent. An answer does not change the list. -/
def frames (c : ControlClient F M) : List (ℕ × F) :=
  c.served.map (fun x => (x.1, x.2.1)) ++ c.requests

/-- A call gets what the server has answered to its frame, and no frame is answered twice. -/
structure Matched (c : ControlClient F M) : Prop where
  own : ∀ id r m, c.calls[id]? = some r → r.phase = .got (.answer m) →
    (id, r.frame, m) ∈ c.served
  once : (c.frames.map Prod.fst).Nodup

/-- Once the reader has ended, the calls that had their id by then have a reply or are over, and no
later one ever gets one. There are at most as many of these as had passed the test without an id. -/
def Strands (c : ControlClient F M) : Prop :=
  ∀ next ∈ c.ended, c.calls.length + c.entered ≤ next + c.late ∧
    ∀ id r, c.calls[id]? = some r →
      (id < next → r.slot = none → r.phase.over = true) ∧
      (next ≤ id → r.slot = none ∧ ∀ reply, r.phase ≠ .got reply)

/-! ### What the steps keep -/

/-- What a call knows of the server and the reader. -/
structure CallOk (served : List (ℕ × F × M)) (ended : Option ℕ) (id : ℕ) (r : RequestCall F M) :
    Prop where
  slot : ∀ m, r.slot = some (.answer m) → (id, r.frame, m) ∈ served
  got : ∀ reply, r.phase = .got reply → r.slot = some reply
  before : ∀ next ∈ ended, id < next → r.slot = none → r.phase.over = true
  after : ∀ next ∈ ended, next ≤ id → r.slot = none

structure Inv (c : ControlClient F M) : Prop where
  nodup : (c.frames.map Prod.fst).Nodup
  sent : ∀ x ∈ c.frames, ∃ r, c.calls[x.1]? = some r ∧ r.frame = x.2 ∧ r.phase ≠ .registered
  calls : ∀ id r, c.calls[id]? = some r → CallOk c.served c.ended id r
  ended : ∀ next ∈ c.ended,
    c.closed = true ∧ next ≤ c.calls.length ∧ c.calls.length + c.entered ≤ next + c.late

variable {c c' : ControlClient F M} {id : ℕ} {r r' : RequestCall F M}

theorem Inv.set (h : c.Inv) (hr : c.calls[id]? = some r) (hframe : r'.frame = r.frame)
    (hphase : r.phase ≠ .registered → r'.phase ≠ .registered)
    (hok : CallOk c.served c.ended id r') : (c.set id r').Inv := by
  have hself := getElem?_set_self (a := r') (List.getElem?_eq_some_iff.mp hr).1
  refine ⟨h.nodup, fun x hx => ?_, fun i q hq => ?_, ?_⟩
  · obtain ⟨q, hq, hsame, hsent⟩ := h.sent x hx
    by_cases hi : id = x.1
    · obtain rfl : q = r := Option.some_inj.mp (hq.symm.trans (hi ▸ hr))
      exact ⟨r', hi ▸ hself, hframe.trans hsame, hphase hsent⟩
    · exact ⟨q, (getElem?_set_ne hi).trans hq, hsame, hsent⟩
  · by_cases hi : id = i
    · subst hi
      obtain rfl : r' = q := Option.some_inj.mp (hself.symm.trans hq)
      exact hok
    · exact h.calls i q ((getElem?_set_ne hi).symm.trans hq)
  · rw [ControlClient.set, length_set]
    exact h.ended

theorem Inv.register (h : c.Inv) (f : F) (hpos : c.entered ≠ 0) :
    Inv { c with entered := c.entered - 1, calls := c.calls ++ [{ frame := f }] } where
  nodup := h.nodup
  sent := fun x hx => by
    obtain ⟨r, hr, hrest⟩ := h.sent x hx
    exact ⟨r, (getElem?_append_left (List.getElem?_eq_some_iff.mp hr).1).trans hr, hrest⟩
  calls := fun i r hr => by
    rw [getElem?_append] at hr
    split at hr <;> rename_i hi
    · exact h.calls i r hr
    · obtain rfl := mem_singleton.mp (List.mem_of_getElem? hr)
      refine ⟨nofun, nofun, fun _ he hlt => ?_, fun _ _ _ => rfl⟩
      exact absurd ((h.ended _ he).2.1.trans (not_lt.mp hi)) hlt.not_ge
  ended := fun next he => by
    obtain ⟨hclosed, hle, hcount⟩ := h.ended next he
    simp only [length_append, length_singleton]
    exact ⟨hclosed, by omega, by omega⟩

/-- A call that has not sent its frame has none on the connection. -/
theorem Inv.send (h : c.Inv) {f : F} {slot : Option (SlotReply M)}
    (hr : c.calls[id]? = some ⟨f, .registered, slot⟩) :
    Inv { c.set id ⟨f, .waiting, slot⟩ with requests := c.requests ++ [(id, f)] } := by
  have hok := h.calls id _ hr
  have hset : Inv (c.set id ⟨f, .waiting, slot⟩) :=
    h.set hr rfl (fun _ => nofun) ⟨hok.slot, nofun, hok.before, hok.after⟩
  refine ⟨?_, fun x hx => ?_, hset.calls, hset.ended⟩ <;> simp only [frames, ← append_assoc] at *
  · rw [map_append]
    refine (concat_eq_append (a := id)) ▸ h.nodup.concat fun hmem => ?_
    obtain ⟨x, hx, rfl⟩ := mem_map.mp hmem
    obtain ⟨q, hq, -, hsent⟩ := h.sent x hx
    obtain rfl := Option.some_inj.mp (hq.symm.trans hr)
    exact hsent rfl
  · rcases mem_append.mp hx with hx | hx
    · exact hset.sent x hx
    · obtain rfl := mem_singleton.mp hx
      exact ⟨_, getElem?_set_self (List.getElem?_eq_some_iff.mp hr).1, rfl, nofun⟩

theorem Inv.serve (h : c.Inv) {f : F} {rest : List (ℕ × F)} (hreq : c.requests = (id, f) :: rest)
    (m : M) : Inv { c with requests := rest, served := c.served ++ [(id, f, m)] } := by
  have hframes : frames { c with requests := rest, served := c.served ++ [(id, f, m)] }
      = c.frames := by
    simp [frames, hreq]
  refine ⟨hframes ▸ h.nodup, hframes ▸ h.sent, fun i r hr => ?_, h.ended⟩
  have hok := h.calls i r hr
  exact { hok with slot := fun m hm => mem_append_left _ (hok.slot m hm) }

theorem Inv.readerEnds (h : c.Inv) :
    Inv { c with
      closed := true, ended := some c.calls.length, late := c.entered, calls := c.calls.map fail } where
  nodup := h.nodup
  sent := fun x hx => by
    obtain ⟨r, hr, hrest⟩ := h.sent x hx
    refine ⟨fail r, by simp [hr], ?_⟩
    unfold fail
    split <;> exact hrest
  calls := fun i q hq => by
    obtain ⟨r, hr, rfl⟩ := Option.map_eq_some_iff.mp (getElem?_map ▸ hq)
    have hok := h.calls i r hr
    -- every call has its id by now
    have hafter : ∀ next ∈ some c.calls.length, next ≤ i → (fail r).slot = none := by
      rintro _ ⟨⟩ hle
      exact absurd hle (List.getElem?_eq_some_iff.mp hr).1.not_ge
    unfold fail at hafter ⊢
    split at hafter <;> rename_i hcase
    · rw [if_pos hcase]
      refine ⟨hok.slot, hok.got, fun _ _ _ hnone => hcase.resolve_right ?_, hafter⟩
      simp [hnone]
    · rw [if_neg hcase]
      refine ⟨nofun, fun _ hgot => absurd (.inl ?_) hcase, fun _ _ _ => nofun, hafter⟩
      rw [show r.phase = .got _ from hgot]
      rfl
  ended := by
    rintro _ ⟨⟩
    simp

theorem Inv.step (h : c.Inv) {e : Event F M} (hstep : c.step e = some c') : c'.Inv := by
  cases e <;>
    simp only [ControlClient.step, Option.ite_none_left_eq_some, Option.some.injEq] at hstep
  case enter =>
    obtain ⟨hopen, rfl⟩ := hstep
    exact { h with ended := fun _ he => absurd (h.ended _ he).1 hopen }
  case register f =>
    obtain ⟨hpos, rfl⟩ := hstep
    exact h.register f hpos
  case send id ok =>
    split at hstep <;> [skip; cases hstep]
    rename_i f slot hr
    cases ok <;> obtain rfl := Option.some_inj.mp hstep
    · have hok := h.calls id _ hr
      exact h.set hr rfl (fun _ => nofun) ⟨hok.slot, nofun, fun _ _ _ _ => rfl, hok.after⟩
    · exact h.send hr
  case serve m =>
    split at hstep <;> [cases hstep; skip]
    rename_i id f rest hreq
    obtain rfl := Option.some_inj.mp hstep
    exact h.serve hreq m
  case receive =>
    split at hstep <;> [skip; cases hstep]
    rename_i id f m hserved hopen
    have hread : Inv { c with received := c.received + 1 } := { h with }
    split at hstep <;> obtain rfl := Option.some_inj.mp hstep
    · exact hread
    rename_i r hr
    split <;> rename_i hover
    · exact hread
    refine hread.set hr rfl (fun hp => hp) ⟨?_, fun _ hgot => ?_, fun _ _ _ => nofun, ?_⟩
    · -- the frame that was answered under this id is that of the call
      rintro _ ⟨⟩
      have hmem := List.mem_of_getElem? hserved
      obtain ⟨q, hq, rfl, -⟩ := h.sent (id, f) (mem_append_left _ (mem_map_of_mem hmem))
      obtain rfl : q = r := Option.some_inj.mp (hq.symm.trans hr)
      exact hmem
    · exact absurd (congrArg Phase.over hgot) hover
    · exact fun _ he => nomatch hopen.symm.trans he
  case readerEnds =>
    obtain ⟨-, rfl⟩ := hstep
    exact h.readerEnds
  case close =>
    subst hstep
    exact { h with ended := fun next he => ⟨rfl, (h.ended next he).2⟩ }
  case wake id =>
    split at hstep <;> [skip; cases hstep]
    rename_i f reply hr
    obtain rfl := Option.some_inj.mp hstep
    have hok := h.calls id _ hr
    refine h.set hr rfl (fun _ => nofun) ⟨hok.slot, ?_, fun _ _ _ _ => rfl, hok.after⟩
    rintro _ ⟨⟩
    rfl
  case timeOut id =>
    split at hstep <;> [skip; cases hstep]
    rename_i f hr
    obtain rfl := Option.some_inj.mp hstep
    have hok := h.calls id _ hr
    exact h.set hr rfl (fun _ => nofun) ⟨nofun, nofun, fun _ _ _ _ => rfl, hok.after⟩

theorem always_inv (es : List (Event F M)) : Always step Inv {} es := by
  refine Each.always (P := fun _ _ => True) ?_ (fun c e c' hc _ hstep => hc.step hstep)
    fun _ _ _ _ _ _ => trivial
  exact ⟨nodup_nil, nofun, nofun, nofun⟩

/-- **A reply is the answer to the call's own frame.** This holds for any number of threads, with
time-outs, late replies and a reader that may end at any time. -/
theorem always_matched (es : List (Event F M)) : Always step Matched {} es := by
  intro es₁ es₂ c hes hrun
  have h := always_inv es es₁ es₂ c hes hrun
  refine ⟨fun id r m hr ho => ?_, h.nodup⟩
  exact (h.calls id r hr).slot m ((h.calls id r hr).got _ ho)

/-- **Only calls that get their id after the reader has ended are left without a reply.** -/
theorem always_strands (es : List (Event F M)) : Always step Strands {} es := by
  intro es₁ es₂ c hes hrun next he
  have h := always_inv es es₁ es₂ c hes hrun
  refine ⟨(h.ended next he).2.2, fun id r hr => ?_⟩
  have hok := h.calls id r hr
  refine ⟨hok.before next he, fun hle => ?_⟩
  have hslot := hok.after next he hle
  exact ⟨hslot, fun reply hgot => nomatch hslot.symm.trans (hok.got reply hgot)⟩

end ControlClient

end CacheFlow
