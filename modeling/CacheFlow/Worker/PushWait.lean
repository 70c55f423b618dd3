import CacheFlow.Lib.Steps

/-!
# Waiting for a push

`DpuSession` of `engine.py` in push mode. The server moves the data; its thread for a transfer sends
a notification for each group of operations that has completed, and for what it raises. The reader of
the control connection enters it in the `_PushWait` of the transfer, and when the connection is lost
it fails all of them. The request that starts the transfer may fail as well, before or after the
server has seen it.

## Main results

* `PushSession.always_heard` — **no wait returns too early, and none blocks once the connection is
  lost.**
-/

namespace CacheFlow

open List Steps

/-- Where a call of `push` stands: the wait is in `_push`, `request` has begun, it has returned. -/
inductive PushStage where
  | entered
  | requested
  | returned
  deriving DecidableEq

/-- `_PushWait`, with the call of `push` and the thread of the server. -/
structure PushWait where
  /-- Which events are set. -/
  events : List Bool
  error : Option String := none
  /-- It is in `_push`. -/
  kept : Bool := true
  stage : PushStage := .entered
  /-- How many groups the server has waited for. -/
  completed : ℕ := 0

namespace PushWait

def fail (w : PushWait) (err : String) : PushWait :=
  { w with error := some err, events := w.events.map fun _ => true }

/-- `wait`, if its time is up now. -/
def wait (w : PushWait) (group : ℕ) : Except String Unit :=
  match w.events[group]?, w.error with
  | none, _ => .error "list index out of range"
  | some false, _ => .error s!"push group {group} timed out"
  | some true, none | some true, some "" => .ok ()
  | some true, some err => .error s!"push transfer failed: {err}"

inductive Act where
  /-- `request` looks whether the connection is closed. -/
  | request
  /-- It returns or raises. -/
  | reply (err : Option String)
  /-- The server has waited for the next group. -/
  | complete
  /-- The notification for a group arrives. -/
  | notify (group : ℕ)
  /-- The thread of the server has raised, and the notification arrives. -/
  | notifyError (err : String)
  /-- `forget_push`. -/
  | forget

/-- One step of a transfer, if it can be taken. -/
def act (closed : Bool) (w : PushWait) : Act → Option PushWait
  | .request =>
    if w.stage ≠ .entered then none
    else if closed then some ({ w with stage := .returned }.fail "control connection is closed")
    else some { w with stage := .requested }
  | .reply err =>
    if w.stage ≠ .requested then none
    else
      let w' := { w with stage := .returned }
      some (err.elim w' w'.fail)
  | .complete =>
    if w.stage = .entered ∨ w.events.length ≤ w.completed then none
    else some { w with completed := w.completed + 1 }
  | .notify group =>
    if w.completed ≤ group then none
    else some (if w.kept then { w with events := w.events.set group true } else w)
  | .notifyError err => some (if w.kept then w.fail err else w)
  | .forget => some { w with kept := false }

end PushWait

/-- The waits of a session, in the order of the transfers. -/
structure PushSession where
  closed : Bool := false
  /-- The reader has told of the loss of the connection. -/
  lost : Bool := false
  waits : List PushWait := []

namespace PushSession

inductive Event where
  | push (groups : ℕ)
  | act (xfer : ℕ) (a : PushWait.Act)
  | close
  | disconnected

def step (s : PushSession) : Event → Option PushSession
  | .push groups => some { s with waits := s.waits ++ [{ events := replicate groups false }] }
  | .act xfer a => do
    let w ← (← s.waits[xfer]?).act s.closed a
    some { s with waits := s.waits.set xfer w }
  | .close => some { s with closed := true }
  | .disconnected =>
    -- the reader has set `_closed` before
    if s.closed then
      let tell := fun w : PushWait => if w.kept then w.fail "control connection lost" else w
      some { s with lost := true, waits := s.waits.map tell }
    else none

/-- If a wait returns, its group has completed, or an error without a text has been entered. Once the
connection is lost, no wait blocks whose `push` has returned. -/
def Heard (s : PushSession) : Prop :=
  ∀ w ∈ s.waits, (∀ g, w.wait g = .ok () → g < w.completed ∨ w.error = some "") ∧
    (s.lost → w.kept → w.stage = .returned → ∀ e ∈ w.events, e = true)

/-! ### What the steps keep -/

structure WaitOk (lost : Bool) (w : PushWait) : Prop where
  done : w.error = none → ∀ g, w.events[g]? = some true → g < w.completed
  told : lost → w.kept → w.stage ≠ .entered → ∀ e ∈ w.events, e = true

structure Inv (s : PushSession) : Prop where
  closed : s.lost → s.closed
  waits : ∀ w ∈ s.waits, WaitOk s.lost w

variable {w w' : PushWait} {lost closed : Bool}

theorem waitOk_fail (w : PushWait) (err : String) : WaitOk lost (w.fail err) :=
  ⟨nofun, fun _ _ _ => by simp [PushWait.fail]⟩

theorem WaitOk.act (h : WaitOk lost w) (hclosed : lost → closed) {a : PushWait.Act}
    (ha : w.act closed a = some w') : WaitOk lost w' := by
  cases a <;> simp only [PushWait.act, Option.ite_none_left_eq_some, Option.some.injEq] at ha
  case request =>
    -- who begins after the loss finds the connection closed
    obtain ⟨-, ha⟩ := ha
    split at ha <;> obtain rfl := Option.some_inj.mp ha
    · exact waitOk_fail ..
    · rename_i hopen
      exact ⟨h.done, fun hlost => absurd (hclosed hlost) hopen⟩
  case reply err =>
    obtain ⟨hstage, rfl⟩ := ha
    cases err with
    | none => exact ⟨h.done, fun hlost hkept _ => h.told hlost hkept (by simp_all)⟩
    | some err => exact waitOk_fail ..
  case complete =>
    obtain ⟨-, rfl⟩ := ha
    exact ⟨fun he g hg => Nat.lt_succ_of_lt (h.done he g hg), h.told⟩
  case notify group =>
    obtain ⟨hdone, rfl⟩ := ha
    split
    · refine ⟨fun he g hg => ?_, fun hlost hkept hstage e he => ?_⟩
      · by_cases hg' : group = g
        · exact hg' ▸ not_le.mp hdone
        · exact h.done he g ((getElem?_set_ne hg').symm.trans hg)
      · exact (mem_or_eq_of_mem_set he).elim (h.told hlost hkept hstage e) id
    · exact h
  case notifyError err =>
    subst ha
    split
    · exact waitOk_fail ..
    · exact h
  case forget =>
    subst ha
    exact ⟨h.done, nofun⟩

theorem Inv.step {s s' : PushSession} (h : s.Inv) {e : Event} (hstep : s.step e = some s') :
    s'.Inv := by
  cases e with
  | push groups =>
    obtain rfl := Option.some_inj.mp hstep
    refine ⟨h.closed, forall_mem_append.mpr ⟨h.waits, forall_mem_singleton.mpr ⟨?_, ?_⟩⟩⟩
    · intro _ g hg
      simp [getElem?_replicate] at hg
    · exact fun _ _ hne => absurd rfl hne
  | act xfer a =>
    obtain ⟨w, hw, hrest⟩ := Option.bind_eq_some_iff.mp hstep
    obtain ⟨w', hact, hset⟩ := Option.bind_eq_some_iff.mp hrest
    obtain rfl := Option.some_inj.mp hset
    refine ⟨h.closed, fun v hv => ?_⟩
    rcases mem_or_eq_of_mem_set hv with hv | rfl
    · exact h.waits v hv
    · exact (h.waits w (mem_of_getElem? hw)).act h.closed hact
  | close =>
    obtain rfl := Option.some_inj.mp hstep
    exact ⟨fun _ => rfl, h.waits⟩
  | disconnected =>
    obtain ⟨hclosed, rfl⟩ := by simpa [PushSession.step] using hstep
    refine ⟨fun _ => hclosed, forall_mem_map.mpr fun w hw => ?_⟩
    split
    · exact waitOk_fail ..
    · exact ⟨(h.waits w hw).done, fun _ hkept => by contradiction⟩

/-- **What a wait reports is true, and a lost connection ends them all.** Only an error without a
text is taken for none. -/
theorem always_heard (es : List Event) : Always step Heard {} es := by
  have hinv : Always step Inv {} es :=
    Each.always (P := fun _ _ => True) ⟨nofun, nofun⟩ (fun _ _ _ hs _ => hs.step)
      fun _ _ _ _ _ _ => trivial
  intro es₁ es₂ s hes hrun w hw
  have hok := (hinv es₁ es₂ s hes hrun).waits w hw
  refine ⟨fun g hg => ?_, fun hlost hkept hstage => hok.told hlost hkept (by simp [hstage])⟩
  unfold PushWait.wait at hg
  split at hg <;> simp_all [hok.done]

end PushSession

end CacheFlow
