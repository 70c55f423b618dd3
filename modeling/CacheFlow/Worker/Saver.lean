import CacheFlow.Lib.Mux
import CacheFlow.Server.Message
import CacheFlow.Worker.Layout

/-!
# The saver thread

The forward pass of a worker gathers the layers of its save jobs one by one and puts an
item for each on the saver thread's queue; at the end of the step a job some of whose
layers never came gets a final marker. The saver thread takes the items in the order of
the queue, which interleaves the jobs: it asks the server for space when it first sees a
job, posts the transfer of each layer (or of all of them at the last one), and when all
layers are in, or at the marker, it waits for everything it has posted and commits the
job's new chunks or aborts them.

Which calls fail is not fixed: a `SaverEnv` says for each of them.

## Main definitions

* `saveItem` — the body of the saver's loop.
* `SavedOnce` — what a job is promised.

## Main results

* `all_or_nothing_of_queue` — **each job is ended once, and commits only what has been
  transferred.**
-/

namespace CacheFlow

open List

/-! ### What the server answers -/

/-- The answer to `alloc` for `n` keys: one status and one address for each. -/
structure AllocReply (n : ℕ) where
  /-- What has become of each key. -/
  status : List Store.AllocStatus
  /-- The address of each key's entry, 0 if it has none. -/
  addrs : List ℤ
  length_status : status.length = n
  length_addrs : addrs.length = n

theorem length_of_mapM_eq_ok {ε σ α β : Type} {f : α → EStateM ε σ β} {l : List α} {s s' : σ}
    {bs : List β} (h : l.mapM f s = .ok bs s') : bs.length = l.length := by
  induction l generalizing s s' bs with
  | nil =>
    obtain ⟨rfl, -⟩ : [] = bs ∧ s = s' := by simpa [pure, EStateM.pure] using h
    rfl
  | cons a l ih =>
    rw [mapM_cons] at h
    simp only [bind, EStateM.bind] at h
    split at h
    · split at h
      · rename_i bs' _ hrest
        obtain ⟨rfl, -⟩ := by simpa [pure, EStateM.pure] using h
        simp [ih hrest]
      · cases h
    · cases h

/-- The answer of a server whose store is `s` and whose pool is at address `base`. -/
def Store.allocReply (base : ℤ) (s : Store) (keys : List String) (rank size : ℤ)
    (session : String) (skip : Bool) : Option (AllocReply keys.length) :=
  match h : allocateForWrite (keys.map fun k => rankKey k rank) size session skip s with
  | .ok out _ => some {
      status := out.map Prod.fst
      addrs := out.map fun a => a.2.elim 0 fun e => base + e.offset
      length_status := by rw [length_map, length_of_mapM_eq_ok h, length_map]
      length_addrs := by rw [length_map, length_of_mapM_eq_ok h, length_map] }
  | .error _ _ => none

/-- The chunks that the server has made room for. -/
def AllocReply.new {n : ℕ} (r : AllocReply n) : List ℕ :=
  (List.range n).filter fun i => r.status[i]? = some .new

/-! ### The saver's loop -/

/-- A save job. -/
structure SaveJob where
  keys : List String
  /-- The staging slice the chunks are gathered into. -/
  slice : ℕ

/-- The part of the configuration that the saver reads. -/
structure SaverConfig where
  numLayers : ℕ
  /-- Post each layer as soon as it is gathered. -/
  overlapDmaWithCopy : Bool
  transferMode : TransferMode

/-- The jobs, and the outcomes of the calls the saver makes for them. -/
structure SaverEnv where
  jobs : ℕ → SaveJob
  /-- The answer to `alloc`, `none` if the request raises. -/
  alloc : (j : ℕ) → Option (AllocReply (jobs j).keys.length)
  /-- Waiting for the gather of a layer returns. -/
  synced : ℕ → ℕ → Bool
  /-- Planning and posting the transfer of a range of layers returns. -/
  posts : ℕ → ℕ × ℕ → Bool
  /-- Waiting for the transfer of a range of layers returns. -/
  waits : ℕ → ℕ × ℕ → Bool
  /-- The request that ends the job is answered. -/
  answered : ℕ → Bool

/-- The saver's notes on a job it has begun. -/
structure SaveNotes where
  new : List ℕ
  addrs : List ℤ
  layers : ℕ
  failed : Bool
  /-- The transfers to wait for: tickets in pull mode, pushes in push mode. -/
  transfers : List (ℕ × ℕ)

/-- What the saver does for a job. -/
inductive SaverEvent where
  /-- Post a transfer of a range of layers of some chunks. -/
  | posted (chunks : List ℕ) (layers : ℕ × ℕ) : SaverEvent
  | waited (layers : ℕ × ℕ) (ok : Bool) : SaverEvent
  /-- Send `commit`. -/
  | commit (keys : List String) : SaverEvent
  /-- Send `abort`. -/
  | abort (keys : List String) : SaverEvent
  | released (slice : ℕ) : SaverEvent
  | finished (ok : Bool) : SaverEvent
  deriving DecidableEq, Repr

variable (cfg : SaverConfig) (env : SaverEnv)

/-- `_save_start`: ask for space; `none` if that raises. -/
def saveStart (j : ℕ) : Option SaveNotes :=
  (env.alloc j).map fun r =>
    { new := r.new, addrs := r.new.filterMap (r.addrs[·]?), layers := 0, failed := false,
      transfers := [] }

/-- The notes of a job for which there is no space. -/
def SaveNotes.failure : SaveNotes := ⟨[], [], 0, true, []⟩

/-- `_save_post`: post a transfer; `none` if that raises. A push never raises: when its
request fails, waiting for it will. -/
def savePost (j : ℕ) (st : SaveNotes) (layers : ℕ × ℕ) : Option (SaveNotes × List SaverEvent) :=
  if cfg.transferMode = .push ∨ env.posts j layers then
    some ({ st with transfers := st.transfers ++ [layers] }, [.posted st.new layers])
  else
    none

/-- The part of the loop that may raise: wait for the gather of the layer, and post what is
due. -/
def saveLayerDue (j : ℕ) (st : SaveNotes) (layer : ℕ) : Option (SaveNotes × List SaverEvent) :=
  if env.synced j layer then
    if st.new ≠ [] ∧ st.failed = false then
      if cfg.overlapDmaWithCopy then savePost cfg env j st (layer, layer + 1)
      else if st.layers + 1 = cfg.numLayers then savePost cfg env j st (0, cfg.numLayers)
      else some (st, [])
    else some (st, [])
  else none

/-- Waiting for a transfer of a job returns. A push whose request has failed never does. -/
def transferDone (j : ℕ) (layers : ℕ × ℕ) : Bool := env.posts j layers && env.waits j layers

/-- The keys of the chunks the server has made room for. -/
def newKeys (j : ℕ) (st : SaveNotes) : List String := st.new.filterMap ((env.jobs j).keys[·]?)

/-- Every transfer has arrived and nothing has gone wrong. -/
def saveOk (j : ℕ) (st : SaveNotes) : Bool := !st.failed && st.transfers.all (transferDone env j)

/-- The requests that end a job: none without new chunks; `commit` or `abort`; and `abort`
again when that one raises. -/
def endRequests (j : ℕ) (st : SaveNotes) : List SaverEvent :=
  if newKeys env j st = [] then []
  else
    (if saveOk env j st then .commit (newKeys env j st) else .abort (newKeys env j st)) ::
      if env.answered j then [] else [.abort (newKeys env j st)]

/-- `_save_finish`. -/
def saveFinish (j : ℕ) (st : SaveNotes) : List SaverEvent :=
  (st.transfers.map fun layers => .waited layers (transferDone env j layers)) ++
    endRequests env j st ++
    [.released (env.jobs j).slice,
      .finished (saveOk env j st && (newKeys env j st = [] || env.answered j))]

/-- The notes on a job when one of its items comes. -/
def saveNotes (j : ℕ) (st : Option SaveNotes) : SaveNotes :=
  st.getD ((saveStart env j).getD .failure)

/-- The body of `_save_loop`, for a layer or, without one, for the final marker. -/
def saveItem (j : ℕ) (st : Option SaveNotes) : Option ℕ → Option SaveNotes × List SaverEvent
  | none => (none, saveFinish env j { saveNotes env j st with failed := true })
  | some layer =>
    let st₀ := saveNotes env j st
    let r := (saveLayerDue cfg env j st₀ layer).getD ({ st₀ with failed := true }, [])
    let st₁ := { r.1 with layers := r.1.layers + 1 }
    if st₁.layers = cfg.numLayers then (none, r.2 ++ saveFinish env j st₁)
    else (some st₁, r.2)

/-- What the forward pass puts on the queue for a job: `save_layer` an item for each layer
it is called with, `end_save_step` the marker if there were too few. -/
def enqueues (layers : List ℕ) : List (Option ℕ) :=
  layers.map some ++ if layers.length < cfg.numLayers then [none] else []

/-- The saver after a queue of items, each with the job it belongs to. -/
def saverRun (q : List (ℕ × Option ℕ)) : Mux ℕ SaveNotes SaverEvent :=
  Mux.run (saveItem cfg env) q

/-! ### What the saver does for one job -/

/-- The chunks of a job that the server makes room for. -/
def newChunks (j : ℕ) : List ℕ := (env.alloc j).elim [] AllocReply.new

/-- The transfers of a job whose items so far were for the given layers. -/
def dueTransfers (layers : List ℕ) : List (ℕ × ℕ) :=
  if cfg.overlapDmaWithCopy then layers.map fun l => (l, l + 1)
  else if layers.length = cfg.numLayers then [(0, cfg.numLayers)]
  else []

/-- Nothing fails for a job before its end: space is allocated, the given layers are
gathered, and what is due is posted. -/
def SaveClean (j : ℕ) (layers : List ℕ) : Prop :=
  (env.alloc j).isSome = true ∧ (∀ l ∈ layers, env.synced j l = true) ∧
    (newChunks env j ≠ [] → ∀ r ∈ dueTransfers cfg layers,
      cfg.transferMode = .push ∨ env.posts j r = true)

/-- What the notes on a job say after items for the given layers, and what has been done
for it. -/
structure SaveNotes.Seen (j : ℕ) (layers : List ℕ) (st : SaveNotes) (done : List SaverEvent) :
    Prop where
  new : st.new = newChunks env j
  counted : st.layers = layers.length
  posted : done = st.transfers.map (.posted st.new)
  failed : st.failed = false ↔ SaveClean cfg env j layers
  /-- Without one, everything due has been posted. -/
  transfers : st.failed = false →
    st.transfers = if st.new = [] then [] else dueTransfers cfg layers

/-- The transfers that become due with an item for layer `l` after `n` others. -/
def dueAt (n l : ℕ) : List (ℕ × ℕ) :=
  if cfg.overlapDmaWithCopy then [(l, l + 1)]
  else if n + 1 = cfg.numLayers then [(0, cfg.numLayers)]
  else []

variable {cfg env}

theorem dueTransfers_nil (h : 0 < cfg.numLayers) : dueTransfers cfg [] = [] := by
  simp [dueTransfers, h.ne]

theorem dueTransfers_concat {layers : List ℕ} (h : layers.length < cfg.numLayers) (l : ℕ) :
    dueTransfers cfg (layers ++ [l]) = dueTransfers cfg layers ++ dueAt cfg layers.length l := by
  unfold dueTransfers dueAt
  cases cfg.overlapDmaWithCopy
  · simp [h.ne]
  · simp

theorem saveClean_concat {j : ℕ} {layers : List ℕ} (h : layers.length < cfg.numLayers) (l : ℕ) :
    SaveClean cfg env j (layers ++ [l]) ↔
      SaveClean cfg env j layers ∧ env.synced j l = true ∧
        (newChunks env j ≠ [] → ∀ r ∈ dueAt cfg layers.length l,
          cfg.transferMode = .push ∨ env.posts j r = true) := by
  simp only [SaveClean, dueTransfers_concat h, forall_mem_append, forall_mem_singleton,
    imp_and]
  tauto

/-- What an item for a layer does before it is counted: it posts what is due, unless there
is nothing to transfer or something has failed, now or before. -/
theorem saveLayerDue_eq {j : ℕ} {st : SaveNotes} {l : ℕ} :
    (saveLayerDue cfg env j st l).getD ({ st with failed := true }, []) =
      if env.synced j l = true ∧ (st.new ≠ [] → st.failed = false →
          ∀ r ∈ dueAt cfg st.layers l, cfg.transferMode = .push ∨ env.posts j r = true) then
        let due := if st.new ≠ [] ∧ st.failed = false then dueAt cfg st.layers l else []
        ({ st with transfers := st.transfers ++ due }, due.map (.posted st.new))
      else ({ st with failed := true }, []) := by
  unfold saveLayerDue dueAt
  by_cases hsync : env.synced j l = true
  · by_cases hnew : st.new ≠ [] ∧ st.failed = false
    · -- something is to be transferred: one range with overlap, and without one at the end only
      obtain ⟨new, addrs, n, failed, transfers⟩ := st
      obtain ⟨hne, rfl⟩ := hnew
      simp only [hsync, hne, if_true, true_and, ne_eq, not_false_eq_true, and_self, forall_const]
      unfold savePost
      split_ifs <;> simp_all
    · simp only [hsync, if_true, if_neg hnew]
      rw [if_pos ⟨trivial, fun h₁ h₂ => absurd ⟨h₁, h₂⟩ hnew⟩]
      simp
  · simp [hsync]

/-- **The step.** An item for one more layer keeps the notes right. -/
theorem SaveNotes.Seen.item {j : ℕ} {layers : List ℕ} {st : SaveNotes} {done : List SaverEvent}
    (h : st.Seen cfg env j layers done) (hlt : layers.length < cfg.numLayers) (l : ℕ)
    {r : SaveNotes × List SaverEvent}
    (hr : (saveLayerDue cfg env j st l).getD ({ st with failed := true }, []) = r) :
    { r.1 with layers := r.1.layers + 1 }.Seen cfg env j (layers ++ [l]) (done ++ r.2) := by
  rw [saveLayerDue_eq, h.counted] at hr
  have hclean := @saveClean_concat cfg env j layers hlt l
  rw [← h.failed, ← h.new] at hclean
  by_cases hgo : env.synced j l = true ∧ (st.new ≠ [] → st.failed = false →
      ∀ r ∈ dueAt cfg layers.length l, cfg.transferMode = .push ∨ env.posts j r = true)
  · rw [if_pos hgo] at hr
    subst hr
    refine ⟨h.new, by simp, ?_, ?_, fun hok => ?_⟩
    · rw [h.posted, ← map_append]
    · exact ⟨fun hok => hclean.mpr ⟨hok, hgo.1, fun hne => hgo.2 hne hok⟩,
        fun hc => (hclean.mp hc).1⟩
    · dsimp only at hok ⊢
      rw [h.transfers hok, dueTransfers_concat hlt]
      by_cases hne : st.new = [] <;> simp [hne, hok]
  · rw [if_neg hgo] at hr
    subst hr
    refine ⟨h.new, by simp, by simp [h.posted], ?_, nofun⟩
    -- what has failed now is a failure before the end
    refine ⟨nofun, fun hc => absurd ?_ hgo⟩
    exact ⟨(hclean.mp hc).2.1, fun hne _ => (hclean.mp hc).2.2 hne⟩

/-- An item for one more layer is the end of the job exactly when no layer is missing. -/
theorem SaveNotes.Seen.soloItem {j : ℕ} {layers : List ℕ} {v : Option SaveNotes × List SaverEvent}
    (h : (saveNotes env j v.1).Seen cfg env j layers v.2) (hlt : layers.length < cfg.numLayers)
    (l : ℕ) :
    ∃ st done, SaveNotes.Seen cfg env j (layers ++ [l]) st done ∧
      Mux.soloItem (saveItem cfg env) j v (some l) =
        if layers.length + 1 = cfg.numLayers then (none, done ++ saveFinish env j st)
        else (some st, done) := by
  have hstep := h.item hlt l rfl
  refine ⟨_, _, hstep, ?_⟩
  have hcounted := hstep.counted
  rw [length_append, length_singleton] at hcounted
  rw [← hcounted]
  dsimp only [Mux.soloItem, saveItem]
  split_ifs
  · rw [append_assoc]
  · rfl

theorem SaveNotes.seen_start (hpos : 0 < cfg.numLayers) (j : ℕ) :
    (saveNotes env j none).Seen cfg env j [] [] := by
  unfold saveNotes saveStart
  cases halloc : env.alloc j with
  | none =>
    refine ⟨by simp [newChunks, halloc, failure], rfl, rfl, ?_, nofun⟩
    simp [SaveClean, halloc, failure]
  | some r =>
    refine ⟨by simp [newChunks, halloc], rfl, rfl, ?_, fun _ => ?_⟩
    · simp [SaveClean, halloc, dueTransfers_nil hpos]
    · simp [dueTransfers_nil hpos]

/-- **The run, before the end.** While layers are missing, the notes are right. -/
theorem SaveNotes.seen_layers (j : ℕ) : ∀ layers : List ℕ, layers.length < cfg.numLayers →
    ∀ v, Mux.solo (saveItem cfg env) j (layers.map some) = v →
      (saveNotes env j v.1).Seen cfg env j layers v.2 := by
  intro layers
  -- the last layer is the last item
  induction layers using List.reverseRecOn with
  | nil =>
    intro hlt v hv
    subst hv
    exact seen_start hlt j
  | append_singleton layers l ih =>
    intro hlt v hv
    rw [length_append, length_singleton] at hlt
    rw [map_append, map_singleton, Mux.solo_concat] at hv
    obtain ⟨st, done, hseen, hitem⟩ := (ih (by omega) _ rfl).soloItem (by omega) l
    rw [if_neg hlt.ne, hv] at hitem
    subst hitem
    exact hseen

/-- The notes on a job at its end. -/
structure SaveNotes.Final (cfg : SaverConfig) (env : SaverEnv) (j : ℕ) (layers : List ℕ)
    (st : SaveNotes) : Prop where
  new : st.new = newChunks env j
  /-- A failure, or a missing layer, is noted. -/
  failed : st.failed = false ↔ layers.length = cfg.numLayers ∧ SaveClean cfg env j layers
  transfers : st.failed = false →
    st.transfers = if st.new = [] then [] else dueTransfers cfg layers

/-- **A job from its first item to its last.** Whatever the calls return, the saver posts
transfers, ends the job once, and forgets it. -/
theorem solo_enqueues (j : ℕ) {layers : List ℕ} (hle : layers.length ≤ cfg.numLayers)
    (hne : enqueues cfg layers ≠ []) :
    ∃ st, SaveNotes.Final cfg env j layers st ∧
      Mux.solo (saveItem cfg env) j (enqueues cfg layers) =
        (none, st.transfers.map (.posted st.new) ++ saveFinish env j st) := by
  unfold enqueues at hne ⊢
  by_cases hlt : layers.length < cfg.numLayers
  · -- a layer is missing, and the marker is the last item
    have hseen := @SaveNotes.seen_layers cfg env j layers hlt _ rfl
    rw [if_pos hlt, Mux.solo_concat]
    refine ⟨{ saveNotes env j (Mux.solo (saveItem cfg env) j (layers.map some)).1 with
      failed := true }, ⟨hseen.new, ?_, nofun⟩, ?_⟩
    · exact ⟨nofun, fun h => absurd h.1 hlt.ne⟩
    · rw [Mux.soloItem, hseen.posted]
      rfl
  · -- the item of the last layer is the last item
    have heq : layers.length = cfg.numLayers := by omega
    rw [if_neg hlt, append_nil] at hne ⊢
    obtain ⟨init, l, rfl⟩ := eq_nil_or_concat' layers |>.resolve_left (by simpa using hne)
    rw [length_append, length_singleton] at heq
    have hseen := @SaveNotes.seen_layers cfg env j init (by omega) _ rfl
    obtain ⟨st, done, hst, hitem⟩ := hseen.soloItem (by omega) l
    rw [map_append, map_singleton, Mux.solo_concat, hitem, if_pos heq]
    refine ⟨st, ⟨hst.new, ?_, hst.transfers⟩, by rw [hst.posted]⟩
    rw [hst.failed, length_append, length_singleton]
    exact ⟨fun h => ⟨heq, h⟩, fun h => h.2⟩

/-! ### When the saver commits -/

/-- Where `a` does not occur in the first part, everything of it comes before `a`. -/
theorem split_after_of_not_mem {α : Type} {l r pre post : List α} {a : α} (ha : a ∉ l)
    (h : l ++ r = pre ++ a :: post) : ∃ mid, pre = l ++ mid ∧ r = mid ++ a :: post := by
  rcases append_eq_append_iff.mp h with hmid | ⟨mid, hl, hr⟩
  · exact hmid
  · cases mid with
    | nil => exact ⟨[], by simpa using hl.symm, by simpa using hr.symm⟩
    | cons b mid =>
      obtain ⟨rfl, -⟩ := List.cons.inj hr
      exact absurd (hl ▸ mem_append_right pre mem_cons_self) ha

/-- The keys of the chunks of a job that the server makes room for. -/
def savedKeys (env : SaverEnv) (j : ℕ) : List String :=
  (newChunks env j).filterMap ((env.jobs j).keys[·]?)

theorem lt_of_mem_newChunks {j c : ℕ} (h : c ∈ newChunks env j) : c < (env.jobs j).keys.length := by
  unfold newChunks at h
  cases halloc : env.alloc j with
  | none => simp [halloc] at h
  | some r =>
    rw [halloc, Option.elim_some, AllocReply.new, mem_filter] at h
    exact mem_range.mp h.1

theorem savedKeys_eq_nil_iff {j : ℕ} : savedKeys env j = [] ↔ newChunks env j = [] := by
  unfold savedKeys
  rw [filterMap_eq_nil_iff]
  constructor
  · intro h
    refine eq_nil_iff_forall_not_mem.mpr fun c hc => ?_
    exact absurd (h c hc) (by simp [lt_of_mem_newChunks hc])
  · intro h
    simp [h]

theorem mem_endRequests {j : ℕ} {st : SaveNotes} {e : SaverEvent} (h : e ∈ endRequests env j st) :
    (e = .commit (newKeys env j st) ∧ saveOk env j st = true ∧ newKeys env j st ≠ []) ∨
      e = .abort (newKeys env j st) := by
  unfold endRequests at h
  split_ifs at h with hnil hok hans hans <;> simp_all

theorem commit_mem_endRequests {j : ℕ} {st : SaveNotes} (hok : saveOk env j st = true)
    (hne : newKeys env j st ≠ []) : .commit (newKeys env j st) ∈ endRequests env j st := by
  simp [endRequests, hok, hne]

theorem abort_mem_endRequests {j : ℕ} {st : SaveNotes} (hok : saveOk env j st = false)
    (hne : newKeys env j st ≠ []) : .abort (newKeys env j st) ∈ endRequests env j st := by
  simp [endRequests, hok, hne]

namespace SaveNotes.Final

variable {j : ℕ} {layers : List ℕ} {st : SaveNotes}

section

variable (h : SaveNotes.Final cfg env j layers st)
include h

theorem newKeys_eq : newKeys env j st = savedKeys env j := by
  rw [newKeys, savedKeys, h.new]

/-- Nothing has gone wrong for a job with new chunks. -/
theorem saveOk_iff (hne : newChunks env j ≠ []) :
    saveOk env j st = true ↔ layers.length = cfg.numLayers ∧ SaveClean cfg env j layers ∧
      ∀ r ∈ dueTransfers cfg layers, transferDone env j r = true := by
  unfold saveOk
  rw [Bool.and_eq_true, Bool.not_eq_true', all_eq_true]
  constructor
  · rintro ⟨hfailed, hdone⟩
    rw [h.transfers hfailed, h.new, if_neg hne] at hdone
    exact ⟨(h.failed.mp hfailed).1, (h.failed.mp hfailed).2, hdone⟩
  · rintro ⟨hlen, hclean, hdone⟩
    have hfailed := h.failed.mpr ⟨hlen, hclean⟩
    rw [h.transfers hfailed, h.new, if_neg hne]
    exact ⟨hfailed, hdone⟩

/-- A commit comes after everything the saver posts and waits for, and only when nothing has
gone wrong. -/
theorem of_commit {pre post : List SaverEvent}
    {keys : List String}
    (heq : st.transfers.map (.posted st.new) ++ saveFinish env j st = pre ++ .commit keys :: post) :
    keys = savedKeys env j ∧ newChunks env j ≠ [] ∧ saveOk env j st = true ∧
      ∀ r ∈ st.transfers, .posted st.new r ∈ pre ∧ .waited r (transferDone env j r) ∈ pre := by
  unfold saveFinish at heq
  rw [append_assoc, ← append_assoc] at heq
  -- no commit among the transfers, so `pre` begins with all of them
  obtain ⟨mid, hpre, hrest⟩ := split_after_of_not_mem (by simp) heq
  have hmem : SaverEvent.commit keys ∈ endRequests env j st := by
    have hmem := hrest ▸ mem_append_right mid mem_cons_self
    simpa using hmem
  rcases mem_endRequests hmem with ⟨hkeys, hok, hne⟩ | habort
  · rw [h.newKeys_eq] at hkeys hne
    refine ⟨SaverEvent.commit.inj hkeys, fun hnil => hne (savedKeys_eq_nil_iff.mpr hnil), hok,
      fun r hr => ?_⟩
    rw [hpre, append_assoc]
    refine ⟨mem_append_left _ (mem_map_of_mem hr), ?_⟩
    refine mem_append_right _ (mem_append_left _ ?_)
    exact mem_map.mpr ⟨r, hr, rfl⟩
  · cases habort

end

end SaveNotes.Final

theorem mem_of_length_eq {layers : List ℕ} (hnd : layers.Nodup)
    (hlt : ∀ l ∈ layers, l < cfg.numLayers) (hlen : layers.length = cfg.numLayers) {l : ℕ}
    (hl : l < cfg.numLayers) : l ∈ layers := by
  have hsub : layers.toFinset ⊆ Finset.range cfg.numLayers := by
    intro x hx
    exact Finset.mem_range.mpr (hlt x (mem_toFinset.mp hx))
  have hcard : (Finset.range cfg.numLayers).card ≤ layers.toFinset.card := by
    rw [Finset.card_range, toFinset_card_of_nodup hnd, hlen]
  have heq := Finset.eq_of_subset_of_card_le hsub hcard
  exact mem_toFinset.mp (heq ▸ Finset.mem_range.mpr hl)

theorem exists_dueTransfers {layers : List ℕ} (hnd : layers.Nodup)
    (hlt : ∀ l ∈ layers, l < cfg.numLayers) (hlen : layers.length = cfg.numLayers) {l : ℕ}
    (hl : l < cfg.numLayers) : ∃ r ∈ dueTransfers cfg layers, r.1 ≤ l ∧ l < r.2 := by
  unfold dueTransfers
  split_ifs
  · have hmem := mem_of_length_eq hnd hlt hlen hl
    exact ⟨(l, l + 1), mem_map.mpr ⟨l, hmem, rfl⟩, le_refl l, Nat.lt_succ_self l⟩
  · exact ⟨(0, cfg.numLayers), mem_singleton_self _, Nat.zero_le l, hl⟩

/-- The event is the release of a staging slice. -/
def SaverEvent.isReleased : SaverEvent → Bool
  | .released _ => true
  | _ => false

/-- The event is the end of a job. -/
def SaverEvent.isFinished : SaverEvent → Bool
  | .finished _ => true
  | _ => false

/-- What the saver posts, waits for and asks the server is counted neither as a release nor
as an end. -/
theorem countP_saveFinish {j : ℕ} {st : SaveNotes} (p : SaverEvent → Bool)
    (hposted : ∀ c r, p (.posted c r) = false) (hwaited : ∀ r ok, p (.waited r ok) = false)
    (hcommit : ∀ k, p (.commit k) = false) (habort : ∀ k, p (.abort k) = false) :
    (st.transfers.map (SaverEvent.posted st.new) ++ saveFinish env j st).countP p =
      [SaverEvent.released (env.jobs j).slice,
        .finished (saveOk env j st && (newKeys env j st = [] || env.answered j))].countP p := by
  have hmoves : (st.transfers.map (SaverEvent.posted st.new)).countP p = 0 := by
    rw [countP_eq_zero]
    intro e he
    obtain ⟨r, -, rfl⟩ := mem_map.mp he
    simp [hposted]
  have hwaits : (st.transfers.map fun r => SaverEvent.waited r (transferDone env j r)).countP p
      = 0 := by
    rw [countP_eq_zero]
    intro e he
    obtain ⟨r, -, rfl⟩ := mem_map.mp he
    simp [hwaited]
  have hrequests : (endRequests env j st).countP p = 0 := by
    rw [countP_eq_zero]
    intro e he
    rcases mem_endRequests he with ⟨rfl, -⟩ | rfl
    · simp [hcommit]
    · simp [habort]
  rw [saveFinish, countP_append, countP_append, countP_append, hmoves, hwaits,
    hrequests]
  simp

/-- What one job is promised, in terms of what the saver has done for it. -/
structure SavedOnce (cfg : SaverConfig) (env : SaverEnv) (j : ℕ) (done : List SaverEvent) :
    Prop where
  finished : done.countP SaverEvent.isFinished = 1
  releases : done.countP SaverEvent.isReleased = 1
  released : .released (env.jobs j).slice ∈ done
  keys : ∀ keys, .commit keys ∈ done → keys = savedKeys env j
  /-- Before a commit, every layer of every new chunk has been posted. -/
  posted : ∀ pre keys post, done = pre ++ .commit keys :: post →
    ∀ c ∈ newChunks env j, ∀ l < cfg.numLayers,
      ∃ chunks r, .posted chunks r ∈ pre ∧ env.posts j r = true ∧ c ∈ chunks ∧ r.1 ≤ l ∧ l < r.2
  /-- Before a commit, everything posted has been waited for successfully. -/
  waited : ∀ pre keys post, done = pre ++ .commit keys :: post →
    ∀ chunks r, .posted chunks r ∈ done → .waited r true ∈ pre ∧ .waited r false ∉ done
  /-- Without a commit, the new chunks are aborted. -/
  aborted : newChunks env j ≠ [] → (∀ keys, .commit keys ∉ done) → .abort (savedKeys env j) ∈ done

namespace SaveNotes.Final

variable {j : ℕ} {layers : List ℕ} {st : SaveNotes}

theorem mem_transfers_of_posted {chunks : List ℕ} {r : ℕ × ℕ}
    (h : .posted chunks r ∈ st.transfers.map (.posted st.new) ++ saveFinish env j st) :
    r ∈ st.transfers := by
  unfold saveFinish at h
  simp only [mem_append, mem_map, mem_cons, not_mem_nil, reduceCtorEq,
    and_false, exists_false, or_false, false_or] at h
  rcases h with ⟨r', hr', heq⟩ | h
  · cases heq
    exact hr'
  · rcases mem_endRequests h with ⟨habs, -⟩ | habs <;> cases habs

/-- A wait that has failed is for a transfer that has not arrived. -/
theorem not_transferDone_of_waited {r : ℕ × ℕ}
    (h : .waited r false ∈ st.transfers.map (.posted st.new) ++ saveFinish env j st) :
    r ∈ st.transfers ∧ transferDone env j r = false := by
  unfold saveFinish at h
  simp only [mem_append, mem_map, mem_cons, not_mem_nil, reduceCtorEq,
    and_false, exists_false, or_false, false_or] at h
  rcases h with ⟨r', hr', heq⟩ | h
  · obtain ⟨rfl, hdone⟩ := SaverEvent.waited.inj heq
    exact ⟨hr', hdone⟩
  · rcases mem_endRequests h with ⟨habs, -⟩ | habs <;> cases habs

/-- A job at its end keeps its promises. -/
theorem savedOnce (h : SaveNotes.Final cfg env j layers st) (hnd : layers.Nodup)
    (hlt : ∀ l ∈ layers, l < cfg.numLayers) :
    SavedOnce cfg env j (st.transfers.map (.posted st.new) ++ saveFinish env j st) where
  finished := by
    rw [countP_saveFinish _ (fun _ _ => rfl) (fun _ _ => rfl) (fun _ => rfl) fun _ => rfl]
    rfl
  releases := by
    rw [countP_saveFinish _ (fun _ _ => rfl) (fun _ _ => rfl) (fun _ => rfl) fun _ => rfl]
    rfl
  released := by simp [saveFinish]
  keys := by
    intro keys hmem
    obtain ⟨pre, post, heq⟩ := append_of_mem hmem
    exact (h.of_commit heq).1
  posted := by
    intro pre keys post heq c hc l hl
    obtain ⟨-, hne, hok, hpre⟩ := h.of_commit heq
    obtain ⟨hlen, hclean, hdone⟩ := (h.saveOk_iff hne).mp hok
    obtain ⟨r, hr, hl0, hl1⟩ := exists_dueTransfers hnd hlt hlen hl
    -- all transfers of the layer were due, and so posted
    have hmem : r ∈ st.transfers := by
      rw [h.transfers (h.failed.mpr ⟨hlen, hclean⟩), h.new, if_neg hne]
      exact hr
    have hposts : env.posts j r = true := (Bool.and_eq_true_iff.mp (hdone r hr)).1
    exact ⟨st.new, r, (hpre r hmem).1, hposts, h.new ▸ hc, hl0, hl1⟩
  waited := by
    intro pre keys post heq chunks r hposted
    obtain ⟨-, hne, hok, hpre⟩ := h.of_commit heq
    have hall := all_eq_true.mp (Bool.and_eq_true_iff.mp hok).2
    have hr := mem_transfers_of_posted hposted
    refine ⟨hall r hr ▸ (hpre r hr).2, fun hwaited => ?_⟩
    have hnot := (not_transferDone_of_waited hwaited).2
    exact absurd (hall r hr) (by simp [hnot])
  aborted := by
    intro hne hcommit
    have hkeys : newKeys env j st ≠ [] := by
      rw [h.newKeys_eq]
      exact fun hnil => hne (savedKeys_eq_nil_iff.mp hnil)
    have hend : ∀ e ∈ endRequests env j st,
        e ∈ st.transfers.map (.posted st.new) ++ saveFinish env j st := by
      intro e he
      simp [saveFinish, he]
    cases hok : saveOk env j st with
    | true => exact absurd (hend _ (commit_mem_endRequests hok hkeys)) (hcommit _)
    | false => exact h.newKeys_eq ▸ hend _ (abort_mem_endRequests hok hkeys)

end SaveNotes.Final

/-- **All or nothing.** However the queue interleaves the jobs and whichever calls fail, each job
that queues its layers, none twice, and the marker if one is missing, is ended and gives its staging
slice back exactly once. It is committed only after every layer of every new chunk was posted and
waited for with success; otherwise the chunks are aborted. -/
theorem all_or_nothing_of_queue (cfg : SaverConfig) (env : SaverEnv) (q : List (ℕ × Option ℕ))
    (hq : ∀ j, ofKey j q ≠ [] → ∃ layers : List ℕ, layers.Nodup ∧
      (∀ l ∈ layers, l < cfg.numLayers) ∧ ofKey j q = enqueues cfg layers)
    (j : ℕ) (hj : ofKey j q ≠ []) :
    (saverRun cfg env q).active.get? j = none ∧
      SavedOnce cfg env j (ofKey j (saverRun cfg env q).log) := by
  obtain ⟨layers, hnd, hlt, hitems⟩ := hq j hj
  have hle : layers.length ≤ cfg.numLayers := by
    have hsub : layers ⊆ List.range cfg.numLayers := fun l hl => mem_range.mpr (hlt l hl)
    simpa using (subperm_of_subset hnd hsub).length_le
  obtain ⟨st, hfinal, hsolo⟩ := @solo_enqueues cfg env j layers hle (hitems ▸ hj)
  unfold saverRun
  -- only the job's own items matter
  rw [Mux.active_run, Mux.ofKey_log_run, hitems, hsolo]
  exact ⟨rfl, hfinal.savedOnce hnd hlt⟩

/-- Two layers, posted one by one. -/
def sampleSaver : SaverConfig := ⟨2, true, .pull⟩

/-- Two jobs of one chunk, for which an empty server has room. -/
def sampleSaverEnv : SaverEnv where
  jobs j := if j = 0 then ⟨["a"], 7⟩ else ⟨["b"], 8⟩
  alloc _ := Store.allocReply 0 (Store.init 4 1 Nat.one_pos none) _ 0 1 "w" true
  synced _ _ := true
  posts _ _ := true
  waits _ _ := true
  answered _ := true

/-- The first job gathers both layers, the second only one of them. -/
def sampleQueue : List (ℕ × Option ℕ) := [(0, some 0), (1, some 1), (0, some 1), (1, none)]

theorem all_or_nothing_of_two_jobs :
    (.commit ["a"] ∈ ofKey 0 (saverRun sampleSaver sampleSaverEnv sampleQueue).log ∧
      SavedOnce sampleSaver sampleSaverEnv 0
        (ofKey 0 (saverRun sampleSaver sampleSaverEnv sampleQueue).log)) ∧
    .abort ["b"] ∈ ofKey 1 (saverRun sampleSaver sampleSaverEnv sampleQueue).log ∧
      SavedOnce sampleSaver sampleSaverEnv 1
        (ofKey 1 (saverRun sampleSaver sampleSaverEnv sampleQueue).log) := by
  have hq : ∀ j, ofKey j sampleQueue ≠ [] → ∃ layers : List ℕ, layers.Nodup ∧
      (∀ l ∈ layers, l < sampleSaver.numLayers) ∧
        ofKey j sampleQueue = enqueues sampleSaver layers := by
    intro j hj
    by_cases h0 : j = 0
    · subst h0
      exact ⟨[0, 1], by decide, by decide, rfl⟩
    · by_cases h1 : j = 1
      · subst h1
        exact ⟨[1], by decide, by decide, rfl⟩
      · exact absurd (by simp [ofKey, sampleQueue, Ne.symm h0, Ne.symm h1]) hj
  have hrun := all_or_nothing_of_queue sampleSaver sampleSaverEnv sampleQueue hq
  exact ⟨⟨by decide +kernel, (hrun 0 (by decide)).2⟩, by decide +kernel, (hrun 1 (by decide)).2⟩

end CacheFlow
