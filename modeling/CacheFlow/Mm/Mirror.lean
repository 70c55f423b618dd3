import CacheFlow.Lib.Dict
import CacheFlow.Lib.Exec
import CacheFlow.Lib.Steps

/-!
# The mirrored multimodal caches

The front process preprocesses the multimodal items of a request, and the engine process needs the
result. Both keep an LRU cache (`MultiModalProcessorSenderCache`, `MultiModalReceiverCache` of
`multimodal/cache.py`), and an item that the front process finds in its own cache is sent without
its data. This is sound only as long as the two caches hold the same hashes, and they do so only if
they see the same operations in the same order.

They do not always. A request that is rejected after it has been preprocessed, or that raises in
the middle, has changed the sender's cache and is never seen by the receiver. The sender goes
through the items modality by modality, the receiver in the order of their positions in the prompt.
And a request whose data passes the processor by is not looked up in the sender's cache at all, but
is stored in the receiver's.

The cache is the one of `utils/cache.py` over `cachetools`. Its `touch` gives a place in the order
to a key that has no entry, and the eviction loop never gets past such a key: the call does not
return, which is an outcome of its own here.

## Main definitions

* `MirroredCaches.Regular` — a request that is none of the three.

## Main results

* `MirroredCaches.each_served` — **in a run of regular requests every request is served.**
-/

namespace CacheFlow.Mm

open List Steps

/-! ### The cache -/

/-- How a call ends that does not return a value. -/
inductive CacheErr where
  /-- `ValueError`: the value is larger than the cache. -/
  | valueTooLarge
  /-- `RuntimeError`: there is nothing to evict. -/
  | allPinned
  /-- `ValueError`: the hash is not cached, and the data was not provided. -/
  | cacheMiss
  /-- `AssertionError`: the hash was expected to be cached. -/
  | expectedCached
  | processor
  /-- The request does not pass validation. -/
  | rejected
  | hangs
  deriving DecidableEq, Repr

/-- `LRUCache`. Sizes are whole numbers of bytes. -/
structure LruCache (K V : Type) where
  maxsize : ℕ
  data : Dict K (V × ℕ)
  currsize : ℕ
  /-- The keys, the one used last at the end. -/
  order : List K

variable {K V U : Type} [DecidableEq K]

namespace LruCache

/-- The empty cache. -/
def new (maxsize : ℕ) : LruCache K V := ⟨maxsize, ∅, 0, []⟩

/-- `touch`: the key goes to the end of the order, whether it has an entry or not. -/
def touch (c : LruCache K V) (k : K) : LruCache K V := { c with order := c.order.erase k ++ [k] }

/-- `get`. -/
def getItem (k : K) : EStateM CacheErr (LruCache K V) (Option V) := do
  let c ← get
  match c.data.get? k with
  | some (v, _) => do
    set (c.touch k)
    pure (some v)
  | none => pure none

/-- The loop of `__setitem__` that makes room, over the keys in their order. `popitem` takes the
first key; if it has no entry, nothing is removed and the next round takes the same key. -/
def makeRoom (size : ℕ) : List K → EStateM CacheErr (LruCache K V) Unit
  | [] => do
    let c ← get
    if c.currsize + size ≤ c.maxsize then pure () else throw .allPinned
  | k :: order => do
    let c ← get
    if c.currsize + size ≤ c.maxsize then pure () else
    match c.data.get? k with
    | none => throw .hangs
    | some (_, held) => do
      set { c with data := c.data.erase k, currsize := c.currsize - held, order := order }
      makeRoom size order

/-- The size of the entry of a key. -/
def heldSize (c : LruCache K V) (k : K) : Option ℕ := (c.data.get? k).map Prod.snd

/-- The entry is written and its key goes to the end of the order. -/
def addItem (k : K) (v : V) (size : ℕ) (c : LruCache K V) : LruCache K V :=
  touch { c with
    data := c.data.set k (v, size)
    currsize := c.currsize + size - (c.heldSize k).getD 0 } k

/-- `__setitem__`. -/
def setItem (k : K) (v : V) (size : ℕ) : EStateM CacheErr (LruCache K V) Unit := do
  let c ← get
  if c.maxsize < size then throw .valueTooLarge else
  if (c.heldSize k).all (· < size) then makeRoom size c.order
  modify (addItem k v size)

end LruCache

/-! ### A request in the front process -/

/-- One multimodal item of a request. -/
structure MmInput (K V U : Type) where
  hash : K
  provided : Bool
  /-- What the processor makes of the data. -/
  item : V
  /-- The prompt updates that belong to it. -/
  updates : U
  offset : ℕ

/-- A request, as far as its multimodal items go. -/
structure MmRequest (K V U : Type) where
  /-- The items of each modality. -/
  modalities : List (List (MmInput K V U))
  /-- Whether there is data that passes the processor by. -/
  passthrough : Bool
  processorFails : Bool
  /-- Whether the request fails a check after it has been preprocessed. -/
  rejected : Bool

/-- The items in the order in which they are looked up. -/
def MmRequest.inputs (r : MmRequest K V U) : List (MmInput K V U) := r.modalities.flatten

/-- `MultiModalFeatureSpec`: an item on its way to the engine process. -/
structure MmFeature (K V : Type) where
  hash : K
  /-- Its data, if it is sent. -/
  data : Option V
  offset : ℕ

variable (size : V → ℕ)

/-- `MultiModalProcessorSenderCache.get_and_update_item`. -/
def sendItem (item : Option (V × U)) (h : K) :
    EStateM CacheErr (LruCache K U) (Option V × U) := do
  match ← LruCache.getItem h with
  | some updates => pure (none, updates)
  | none =>
    match item with
    | none => throw .expectedCached
    | some (v, updates) => do
      LruCache.setItem h updates (size v)
      pure (some v, updates)

/-- `_merge_mm_kwargs`: all hashes are touched, and then each item is looked up. Which items were
cached was found out before. -/
def mergeMmKwargs (isCached : K → Bool) (inputs : List (MmInput K V U)) :
    EStateM CacheErr (LruCache K U) (List (Option V × U)) := do
  modify fun c => inputs.foldl (fun c i => c.touch i.hash) c
  inputs.mapM fun i =>
    sendItem size (if isCached i.hash then none else some (i.item, i.updates)) i.hash

/-- `_cached_apply_hf_processor`: the data of each item that has to be sent. -/
def cachedApplyHfProcessor (r : MmRequest K V U) :
    EStateM CacheErr (LruCache K U) (List (Option V)) := do
  let c ← get
  if r.passthrough then
    if r.processorFails then throw .processor else
    pure (r.inputs.map fun i => some i.item)
  else if r.inputs.any fun i => !c.data.contains i.hash && !i.provided then throw .cacheMiss
  else if r.processorFails then throw .processor
  else
    let sent ← mergeMmKwargs size c.data.contains r.inputs
    pure (sent.map Prod.fst)

/-- The features of the items. -/
def features (inputs : List (MmInput K V U)) (sent : List (Option V)) : List (MmFeature K V) :=
  (inputs.zip sent).map fun p => ⟨p.1.hash, p.2, p.1.offset⟩

/-- `process_inputs`: the request is preprocessed and then checked. Its features are sorted by
their positions (`argsort_mm_positions`). -/
def processInputs (r : MmRequest K V U) :
    EStateM CacheErr (LruCache K U) (List (MmFeature K V)) := do
  let sent ← cachedApplyHfProcessor size r
  if r.rejected then throw .rejected else
  pure ((features r.inputs sent).insertionSort fun f g => f.offset ≤ g.offset)

/-! ### A request in the engine process -/

/-- `MultiModalReceiverCache.get_and_update_item`. -/
def receiveItem (item : Option V) (h : K) : EStateM CacheErr (LruCache K V) V := do
  match ← LruCache.getItem h with
  | some v => pure v
  | none =>
    match item with
    | none => throw .expectedCached
    | some v => do
      LruCache.setItem h v (size v)
      pure v

/-- `get_and_update_features`: all hashes are touched, and then each feature is looked up. -/
def getAndUpdateFeatures (fs : List (MmFeature K V)) :
    EStateM CacheErr (LruCache K V) (List V) := do
  modify fun c => fs.foldl (fun c f => c.touch f.hash) c
  fs.mapM fun f => receiveItem size f.data f.hash

/-! ### Runs -/

/-- The two caches. -/
structure MirroredCaches (K V U : Type) where
  /-- The one of the front process. -/
  sender : LruCache K U
  /-- The one of the engine process. -/
  receiver : LruCache K V

namespace MirroredCaches

/-- Before the first request. -/
def start (capacity : ℕ) : MirroredCaches K V U := ⟨.new capacity, .new capacity⟩

section

variable (t : MirroredCaches K V U) (r : MmRequest K V U)

/-- One request. It is forwarded if the front process is done with it without an exception. An
exception in either process ends the request and leaves the cache as it is then; a process that
hangs takes no further requests. -/
def step : Option (MirroredCaches K V U) :=
  match processInputs size r t.sender with
  | .error .hangs _ => none
  | .error _ sender => some { t with sender := sender }
  | .ok fs sender =>
    match getAndUpdateFeatures size fs t.receiver with
    | .error .hangs _ => none
    | .error _ receiver => some ⟨sender, receiver⟩
    | .ok _ receiver => some ⟨sender, receiver⟩

/-- If the request is forwarded, the engine process misses no item that was sent without data. -/
def Served : Prop :=
  ∀ fs sender, processInputs size r t.sender = .ok fs sender →
    ∀ receiver, getAndUpdateFeatures size fs t.receiver ≠ .error .expectedCached receiver

/-- A request that the front process gives up before it comes to the cache, or that it forwards with
its items looked up in the cache, in the order of their positions. -/
inductive Regular : Prop
  | noItems (h : r.inputs = [])
  | processorFails (h : r.processorFails = true)
  | apart (hpass : r.passthrough = true) (hrejected : r.rejected = true)
  | missing (hpass : r.passthrough = false) {i : MmInput K V U} (hi : i ∈ r.inputs)
      (hnew : t.sender.data.contains i.hash = false) (hprovided : i.provided = false)
  /-- Items that are new to the cache fit into it, and stand in the request once. -/
  | forwarded (hpass : r.passthrough = false) (hrejected : r.rejected = false)
      (hsorted : r.inputs.Pairwise fun i j => i.offset ≤ j.offset)
      (hfits : ∀ i ∈ r.inputs, t.sender.data.contains i.hash = false →
        size i.item ≤ t.sender.maxsize)
      (honce : ((r.inputs.map MmInput.hash).filter fun k => !t.sender.data.contains k).Nodup)

end

end MirroredCaches

/-! ### Computations that do not raise -/

/-- The computation returns with `Q`, or not at all. -/
def Passes {σ α : Type} (m : EStateM CacheErr σ α) (s : σ) (Q : α → σ → Prop) : Prop :=
  match m s with
  | .ok a s' => Q a s'
  | .error e _ => e = .hangs

section

variable {σ α β : Type} {m : EStateM CacheErr σ α} {s : σ} {Q : α → σ → Prop}

theorem Passes.mono {R : α → σ → Prop} (h : Passes m s Q) (hQR : ∀ a s', Q a s' → R a s') :
    Passes m s R := by
  unfold Passes at h ⊢
  cases hm : m s with
  | ok a s' => rw [hm] at h; exact hQR a s' h
  | error e s' => rw [hm] at h; exact h

theorem passes_bind {f : α → EStateM CacheErr σ β} {Q : β → σ → Prop} :
    Passes (m >>= f) s Q ↔ Passes m s fun a s' => Passes (f a) s' Q := by
  simp only [Passes, bind, EStateM.bind]
  cases m s <;> rfl

end

namespace LruCache

variable {c : LruCache K V} {i a b : K}

/-- The keys that are popped to make room stand before the first one without an entry. -/
theorem passes_makeRoom {n : ℕ} (order : List K) : ∀ {c : LruCache K V}, c.order = order →
    i ∈ order → c.data.get? i = none →
    Passes (makeRoom n order) c fun _ c' => c'.maxsize = c.maxsize ∧ ∃ popped,
      i ∉ popped ∧ order = popped ++ c'.order ∧ ∀ k ∉ popped, c'.data.get? k = c.data.get? k := by
  induction order with
  | nil => exact fun _ hi => absurd hi not_mem_nil
  | cons k order ih =>
    intro c hc hi hnone
    unfold makeRoom
    rw [passes_bind]
    show Passes (ite _ _ _) c _
    split_ifs
    · exact ⟨rfl, [], not_mem_nil, hc.symm, fun _ _ => rfl⟩
    · cases hk : c.data.get? k with
      | none => rfl
      | some p =>
        have hne : i ≠ k := fun h => by simp [← h, hnone] at hk
        rw [passes_bind]
        refine (ih rfl (mem_of_ne_of_mem hne hi) ?_).mono ?_
        · rw [Dict.get?_erase, if_neg hne, hnone]
        · rintro _ c' ⟨hmax, popped, hpopped, horder, hkept⟩
          refine ⟨hmax, k :: popped, ?_, by rw [horder, cons_append], fun k' hk' => ?_⟩
          · exact not_mem_cons_of_ne_of_not_mem hne hpopped
          · obtain ⟨hne', hk'⟩ := not_or.mp (mem_cons.not.mp hk')
            rw [hkept k' hk', Dict.get?_erase, if_neg hne']

theorem nodup_touch (h : c.order.Nodup) (k : K) : (c.touch k).order.Nodup := by
  refine (h.erase k).append (nodup_singleton k) fun x hx hx' => ?_
  rw [mem_singleton.mp hx'] at hx
  exact h.not_mem_erase hx

theorem mem_order_touch {k : K} : a ∈ (c.touch k).order ↔ a = k ∨ a ∈ c.order := by
  by_cases h : a = k <;> simp [touch, mem_erase_of_ne, h]

/-- A key that is touched goes behind the others, which stay in their order. -/
theorem pair_sublist_touch {k : K} (hk : i ≠ k) (h : a = k ∧ i ∈ c.order ∨ [i, a] <+ c.order) :
    [i, a] <+ (c.touch k).order := by
  by_cases ha : a = k
  · have hi : i ∈ c.order := h.elim And.right fun h => h.subset mem_cons_self
    rw [ha]
    exact (singleton_sublist.mpr ((mem_erase_of_ne hk).mpr hi)).append (Sublist.refl [k])
  · have hpair := (h.resolve_left fun h => ha h.1).erase k
    rw [erase_of_not_mem (by simp [hk.symm, Ne.symm ha])] at hpair
    exact hpair.trans (sublist_append_left _ _)

/-- Keys that are touched one after the other. -/
theorem order_touchAll (hashes : List K) : ∀ {c : LruCache K V}, c.order.Nodup →
    (hashes.foldl touch c).order.Nodup ∧
      (∀ k, k ∈ hashes ∨ k ∈ c.order → k ∈ (hashes.foldl touch c).order) ∧
      ∀ k a, k ∉ hashes → a ∈ hashes ∧ k ∈ c.order ∨ [k, a] <+ c.order →
        [k, a] <+ (hashes.foldl touch c).order := by
  induction hashes with
  | nil => exact fun h => ⟨h, by simp, by simp⟩
  | cons k hashes ih =>
    intro c h
    obtain ⟨hnodup, hmem, hpair⟩ := ih (nodup_touch h k)
    refine ⟨hnodup, fun k' hk' => hmem k' ?_, fun k' a hk' ha => ?_⟩
    · rw [mem_order_touch]
      grind
    · obtain ⟨hne, hk'⟩ := not_or.mp (mem_cons.not.mp hk')
      refine hpair k' a hk' ?_
      rcases ha with ⟨ha, hmem'⟩ | hpair'
      · rcases mem_cons.mp ha with rfl | ha
        · exact Or.inr (pair_sublist_touch hne (Or.inl ⟨rfl, hmem'⟩))
        · exact Or.inl ⟨ha, mem_order_touch.mpr (Or.inr hmem')⟩
      · exact Or.inr (pair_sublist_touch hne (Or.inr hpair'))

theorem touchAll_eq (hashes : List K) (c : LruCache K V) :
    hashes.foldl touch c = { c with order := (hashes.foldl touch c).order } := by
  induction hashes generalizing c with
  | nil => rfl
  | cons k hashes ih => exact ih (c.touch k)

end LruCache

/-- The cache is ready for the items that are still to be looked up: those that were found before
have their entries, and each of the others stands in the order before all that follow it. -/
structure Ready (isCached : K → Bool) (c : LruCache K U) (todo : List K) : Prop where
  nodup : c.order.Nodup
  cached : ∀ k ∈ todo, isCached k = true → (c.data.get? k).isSome = true
  mem : ∀ k ∈ todo, isCached k = false → k ∈ c.order
  ahead : todo.Pairwise fun k a => isCached k = false → [k, a] <+ c.order

namespace Ready

variable {isCached : K → Bool} {c : LruCache K U} {k : K} {todo : List K}

theorem ne (h : Ready isCached c (k :: todo)) {a : K} (ha : a ∈ todo) (hnew : isCached a = false) :
    a ≠ k := by
  rintro rfl
  exact absurd (nodup_cons.mp (((pairwise_cons.mp h.ahead).1 a ha hnew).nodup h.nodup)).1 (by simp)

theorem touch (h : Ready isCached c (k :: todo)) : Ready isCached (c.touch k) todo where
  nodup := LruCache.nodup_touch h.nodup k
  cached := fun a ha => h.cached a (mem_cons_of_mem k ha)
  mem := fun a ha hnew =>
    LruCache.mem_order_touch.mpr (Or.inr (h.mem a (mem_cons_of_mem k ha) hnew))
  ahead := (pairwise_cons.mp h.ahead).2.imp_of_mem fun ha _ hpair hnew =>
    LruCache.pair_sublist_touch (h.ne ha hnew) (Or.inr (hpair hnew))

/-- What is popped to make room for a new item is not looked up again. -/
theorem popped {c' : LruCache K U} {popped : List K} (h : Ready isCached c (k :: todo))
    (hnew : isCached k = false) (hk : k ∉ popped) (horder : c.order = popped ++ c'.order)
    (hkept : ∀ a ∉ popped, c'.data.get? a = c.data.get? a) : Ready isCached c' (k :: todo) := by
  have hnodup := h.nodup
  rw [horder] at hnodup
  obtain ⟨-, hnodup', hdisjoint⟩ := nodup_append'.mp hnodup
  -- a sublist that starts behind what was popped is left
  have hrest : ∀ {a b}, a ∉ popped → [a, b] <+ c.order → [a, b] <+ c'.order := by
    intro a b ha hab
    rw [horder] at hab
    obtain ⟨l, l', hl, hpopped, hleft⟩ := sublist_append_iff.mp hab
    cases l with
    | nil => rwa [hl]
    | cons x l =>
      obtain rfl := (cons_eq_cons.mp hl).1
      exact absurd (hpopped.subset mem_cons_self) ha
  have hstays : ∀ a ∈ k :: todo, a ∉ popped := by
    intro a ha hpopped
    rcases mem_cons.mp ha with rfl | ha
    · exact hk hpopped
    · have hpair := hrest hk ((pairwise_cons.mp h.ahead).1 a ha hnew)
      exact hdisjoint hpopped (hpair.subset (by simp))
  refine ⟨hnodup', fun a ha hcached => ?_, fun a ha hnew' => ?_, ?_⟩
  · rw [hkept a (hstays a ha)]
    exact h.cached a ha hcached
  · have hmem := h.mem a ha hnew'
    rw [horder] at hmem
    exact (mem_append.mp hmem).resolve_left (hstays a ha)
  · exact h.ahead.imp_of_mem fun ha _ hpair hnew' => hrest (hstays _ ha) (hpair hnew')

theorem addItem (h : Ready isCached c (k :: todo)) (u : U) (n : ℕ) :
    Ready isCached (c.addItem k u n) todo := by
  refine touch ⟨h.nodup, fun a ha hcached => ?_, h.mem, h.ahead⟩
  rw [Dict.get?_set]
  split_ifs
  · rfl
  · exact h.cached a ha hcached

/-- **The next item is looked up or stored, unless the call does not return.** -/
theorem sendItem {size : V → ℕ} (h : Ready isCached c (k :: todo)) (v : V) (u : U)
    (hfits : isCached k = false → size v ≤ c.maxsize) :
    Passes (sendItem size (if isCached k then none else some (v, u)) k) c
      fun _ c' => Ready isCached c' todo ∧ c'.maxsize = c.maxsize := by
  unfold Mm.sendItem LruCache.getItem
  rw [passes_bind, passes_bind]
  show Passes (match c.data.get? k with | some (v, _) => _ | none => _) c _
  cases hk : c.data.get? k with
  | some p => exact ⟨h.touch, rfl⟩
  | none =>
    -- the item was not cached when the request came, so it brings its data
    have hnew : isCached k = false := by
      refine Bool.eq_false_iff.mpr fun hcached => ?_
      simpa [hk] using h.cached k mem_cons_self hcached
    have hset : Passes (LruCache.setItem k u (size v)) c
        fun _ c' => Ready isCached c' todo ∧ c'.maxsize = c.maxsize := by
      have hheld : (c.heldSize k).all (· < size v) = true := by simp [LruCache.heldSize, hk]
      unfold LruCache.setItem
      rw [passes_bind]
      show Passes (ite _ _ _) c _
      rw [if_neg (Nat.not_lt.mpr (hfits hnew))]
      dsimp only
      rw [if_pos hheld, passes_bind]
      refine (LruCache.passes_makeRoom c.order rfl (h.mem k mem_cons_self hnew) hk).mono ?_
      rintro _ c' ⟨hmax, popped, hpopped, horder, hkept⟩
      exact ⟨(h.popped hnew hpopped horder hkept).addItem u (size v), hmax⟩
    rw [if_neg (by simp [hnew])]
    show Passes (LruCache.setItem k u (size v) >>= _) c _
    rw [passes_bind]
    exact hset

theorem sendItems {size : V → ℕ} (inputs : List (MmInput K V U)) : ∀ {c : LruCache K U},
    Ready isCached c (inputs.map MmInput.hash) →
    (∀ i ∈ inputs, isCached i.hash = false → size i.item ≤ c.maxsize) →
    Passes (inputs.mapM fun i => Mm.sendItem size
      (if isCached i.hash then none else some (i.item, i.updates)) i.hash) c
        fun _ c' => c'.order.Nodup := by
  induction inputs with
  | nil => exact fun h _ => h.nodup
  | cons i inputs ih =>
    intro c h hfits
    rw [mapM_cons, passes_bind]
    refine (h.sendItem i.item i.updates (hfits i mem_cons_self)).mono ?_
    rintro _ c' ⟨h', hmax⟩
    rw [passes_bind]
    exact ih h' fun j hj => hmax ▸ hfits j (mem_cons_of_mem i hj)

/-- Touching the items makes the cache ready for them, if each new one stands in the request
once. -/
theorem touchAll (hashes : List K) (hnodup : c.order.Nodup)
    (honce : (hashes.filter fun k => !c.data.contains k).Nodup) :
    Ready c.data.contains (hashes.foldl LruCache.touch c) hashes := by
  obtain ⟨hnodup', hmem, -⟩ := LruCache.order_touchAll hashes hnodup
  refine ⟨hnodup', fun k _ hcached => ?_, fun k hk _ => hmem k (Or.inl hk), ?_⟩
  · rw [LruCache.touchAll_eq]
    exact hcached
  · generalize c.data.contains = isCached at honce
    clear hnodup' hmem
    induction hashes generalizing c with
    | nil => exact Pairwise.nil
    | cons k hashes ih =>
      rw [filter_cons] at honce
      refine pairwise_cons.mpr ⟨fun a ha hnew => ?_, ih (LruCache.nodup_touch hnodup k) ?_⟩
      · rw [if_pos (by simp [hnew]), nodup_cons, mem_filter] at honce
        refine (LruCache.order_touchAll hashes (LruCache.nodup_touch hnodup k)).2.2 k a
          (fun hk => honce.1 ⟨hk, by simp [hnew]⟩)
          (Or.inl ⟨ha, LruCache.mem_order_touch.mpr (Or.inl rfl)⟩)
      · split_ifs at honce
        · exact (nodup_cons.mp honce).2
        · exact honce

end Ready

/-! ### The caches are mirrors of each other -/

/-- The caches hold the same keys, with the same sizes and in the same order. -/
structure Mirror (s : LruCache K U) (r : LruCache K V) : Prop where
  maxsize : s.maxsize = r.maxsize
  held : s.heldSize = r.heldSize
  currsize : s.currsize = r.currsize
  order : s.order = r.order

namespace Mirror

variable {size : V → ℕ} {s : LruCache K U} {r : LruCache K V}

theorem touch (h : Mirror s r) (k : K) : Mirror (s.touch k) (r.touch k) :=
  { h with order := congrArg (fun l : List K => l.erase k ++ [k]) h.order }

theorem touchAll (hashes : List K) : ∀ {s : LruCache K U} {r : LruCache K V}, Mirror s r →
    Mirror (hashes.foldl LruCache.touch s) (hashes.foldl LruCache.touch r) := by
  induction hashes with
  | nil => exact id
  | cons k hashes ih => exact fun h => ih (h.touch k)

theorem get?_eq_none (h : Mirror s r) {k : K} (hs : s.data.get? k = none) :
    r.data.get? k = none := by
  have hheld := congrFun h.held k
  rw [LruCache.heldSize, hs, LruCache.heldSize] at hheld
  exact Option.map_eq_none_iff.mp hheld.symm

theorem get?_eq_some (h : Mirror s r) {k : K} {u : U} {n : ℕ} (hs : s.data.get? k = some (u, n)) :
    ∃ v, r.data.get? k = some (v, n) := by
  have hheld := congrFun h.held k
  rw [LruCache.heldSize, hs, LruCache.heldSize] at hheld
  obtain ⟨⟨v, n'⟩, hr, rfl⟩ := Option.map_eq_some_iff.mp hheld.symm
  exact ⟨v, hr⟩

theorem heldSize_erase (h : Mirror s r) (k k' : K) :
    ((s.data.erase k).get? k').map Prod.snd = ((r.data.erase k).get? k').map Prod.snd := by
  rw [Dict.get?_erase, Dict.get?_erase]
  split_ifs
  · rfl
  · exact congrFun h.held k'

theorem heldSize_set (h : Mirror s r) (k k' : K) (u : U) (v : V) (n : ℕ) :
    ((s.data.set k (u, n)).get? k').map Prod.snd
      = ((r.data.set k (v, n)).get? k').map Prod.snd := by
  rw [Dict.get?_set, Dict.get?_set]
  split_ifs
  · rfl
  · exact congrFun h.held k'

/-- If the sender's cache can make room, the receiver's makes the same. -/
theorem makeRoom {n : ℕ} (order : List K) : ∀ {s : LruCache K U} {r : LruCache K V}, Mirror s r →
    Ends (LruCache.makeRoom n order) s
      (fun _ s' => Sat (LruCache.makeRoom n order) r fun _ r' => Mirror s' r') fun _ => True := by
  induction order with
  | nil =>
    intro s r h
    unfold LruCache.makeRoom
    simp only [ends_bind, ends_get, sat_bind, sat_get, ← h.currsize, ← h.maxsize]
    split_ifs
    · rw [ends_pure, sat_pure]
      exact h
    · trivial
  | cons k order ih =>
    intro s r h
    unfold LruCache.makeRoom
    simp only [ends_bind, ends_get, sat_bind, sat_get, ← h.currsize, ← h.maxsize]
    split_ifs
    · rw [ends_pure, sat_pure]
      exact h
    · cases hs : s.data.get? k with
      | none => trivial
      | some p =>
        obtain ⟨v, hr⟩ := h.get?_eq_some hs
        simp only [hr, ends_bind, ends_set, sat_bind, sat_set]
        exact ih ⟨rfl, funext (h.heldSize_erase k), rfl, rfl⟩

theorem addItem (h : Mirror s r) (k : K) (u : U) (v : V) (n : ℕ) :
    Mirror (s.addItem k u n) (r.addItem k v n) := by
  have hentry : Mirror
      ({ s with
        data := s.data.set k (u, n)
        currsize := s.currsize + n - (s.heldSize k).getD 0 } : LruCache K U)
      ({ r with
        data := r.data.set k (v, n)
        currsize := r.currsize + n - (r.heldSize k).getD 0 } : LruCache K V) := by
    refine ⟨h.maxsize, funext fun k' => h.heldSize_set k k' u v n, ?_, h.order⟩
    simp only [h.currsize, h.held]
  exact hentry.touch k

/-- If the sender's cache takes an entry, so does the receiver's. -/
theorem setItem (h : Mirror s r) (k : K) (u : U) (v : V) (n : ℕ) :
    Ends (LruCache.setItem k u n) s
      (fun _ s' => Sat (LruCache.setItem k v n) r fun _ r' => Mirror s' r') fun _ => True := by
  unfold LruCache.setItem
  simp only [ends_bind, ends_get, sat_bind, sat_get, ← h.maxsize, ← h.held, ← h.order]
  split_ifs
  · trivial
  · simp only [ends_bind, ends_modify, sat_bind, sat_modify]
    refine (makeRoom s.order h).mono fun _ s' hsat => ?_
    exact hsat.mono fun _ r' h' => h'.addItem k u v n
  · rw [ends_modify, sat_modify]
    exact h.addItem k u v n

/-- **An item that is sent is received, and the caches stay mirrors.** -/
theorem sendItem (h : Mirror s r) (item : Option (V × U)) (k : K) :
    Ends (sendItem size item k) s
      (fun sent s' => Sat (receiveItem size sent.1 k) r fun _ r' => Mirror s' r')
      fun _ => True := by
  unfold Mm.sendItem receiveItem LruCache.getItem
  simp only [ends_bind, ends_get, sat_bind, sat_get]
  cases hs : s.data.get? k with
  | some p =>
    -- sent without its data, and found
    obtain ⟨v, hr⟩ := h.get?_eq_some hs
    simp only [hr, ends_bind, ends_set, ends_pure, sat_bind, sat_set, sat_pure]
    exact h.touch k
  | none =>
    simp only [h.get?_eq_none hs, ends_pure, sat_pure]
    cases item with
    | none => trivial
    | some item =>
      simp only [ends_bind, ends_pure, sat_bind, sat_pure]
      exact h.setItem k item.2 item.1 (size item.1)

theorem sendItems (f : MmInput K V U → Option (V × U)) (inputs : List (MmInput K V U)) :
    ∀ {s : LruCache K U} {r : LruCache K V}, Mirror s r →
      Ends (inputs.mapM fun i => Mm.sendItem size (f i) i.hash) s
        (fun sent s' => sent.length = inputs.length ∧
          Sat ((features inputs (sent.map Prod.fst)).mapM fun f => receiveItem size f.data f.hash) r
            fun _ r' => Mirror s' r')
        fun _ => True := by
  induction inputs with
  | nil =>
    intro s r h
    simp only [mapM_nil, ends_pure, features, zip_nil_left, map_nil, sat_pure]
    exact ⟨rfl, h⟩
  | cons i inputs ih =>
    intro s r h
    simp only [mapM_cons, ends_bind, ends_pure]
    refine (h.sendItem (f i) i.hash).mono fun sent s' hsat => ?_
    obtain ⟨v, r', hr, h'⟩ := hsat
    refine (ih h').mono ?_
    rintro rest s'' ⟨hlen, hrest⟩
    refine ⟨congrArg (· + 1) hlen, ?_⟩
    simp only [features, map_cons, zip_cons_cons, mapM_cons, sat_bind, sat_pure]
    exact ⟨v, r', hr, hrest⟩

end Mirror

/-! ### Every run -/

namespace MirroredCaches

variable {size : V → ℕ} {t t' : MirroredCaches K V U} {r : MmRequest K V U}

omit [DecidableEq K] in
/-- The features are in the order of the items, if that is the order of their positions. -/
theorem insertionSort_features {inputs : List (MmInput K V U)} {sent : List (Option V)}
    (hlen : sent.length = inputs.length)
    (hp : inputs.Pairwise fun i j => i.offset ≤ j.offset) :
    ((features inputs sent).insertionSort fun f g => f.offset ≤ g.offset)
      = features inputs sent := by
  refine List.Pairwise.insertionSort_eq ?_
  rw [← map_fst_zip hlen.ge, pairwise_map] at hp
  rw [features, pairwise_map]
  exact hp

omit [DecidableEq K] in
theorem map_hash_features {inputs : List (MmInput K V U)} {sent : List (Option V)}
    (hlen : sent.length = inputs.length) :
    (features inputs sent).map MmFeature.hash = inputs.map MmInput.hash := by
  have hfst := map_fst_zip hlen.ge
  conv_rhs => rw [← hfst, map_map]
  rw [features, map_map]
  rfl

/-- The caches are mirrors of each other, and no key stands in their order twice. -/
structure Mirrored (t : MirroredCaches K V U) : Prop where
  mirror : Mirror t.sender t.receiver
  nodup : t.sender.order.Nodup

theorem mirrored_start (capacity : ℕ) : (start capacity : MirroredCaches K V U).Mirrored :=
  ⟨⟨rfl, rfl, rfl, rfl⟩, nodup_nil⟩

/-- What is sent for a request that is looked up in the cache, or has no items, is received. -/
theorem Mirrored.sent (h : t.Mirrored) (hr : r.inputs = [] ∨ r.passthrough = false) :
    Ends (cachedApplyHfProcessor size r) t.sender
      (fun sent s' => sent.length = r.inputs.length ∧
        Sat (getAndUpdateFeatures size (features r.inputs sent)) t.receiver
          fun _ r' => Mirror s' r')
      fun _ => True := by
  unfold cachedApplyHfProcessor
  simp only [ends_bind, ends_get]
  split_ifs with hpass
  · trivial
  · -- there is nothing to send
    have hnil : r.inputs = [] := hr.resolve_right (by simp [hpass])
    rw [ends_pure, hnil]
    exact ⟨rfl, _, _, rfl, h.mirror⟩
  · trivial
  · trivial
  · have htouched := h.mirror.touchAll (r.inputs.map MmInput.hash)
    simp only [mergeMmKwargs, ends_bind, ends_modify, ends_pure]
    rw [foldl_map, foldl_map] at htouched
    refine (htouched.sendItems _ r.inputs).mono ?_
    rintro sent s' ⟨hlen, hsat⟩
    have hlen' : (sent.map Prod.fst).length = r.inputs.length := by rw [length_map, hlen]
    refine ⟨hlen', ?_⟩
    -- the receiver touches the same hashes in the same order
    have hhash := map_hash_features hlen'
    unfold getAndUpdateFeatures
    rw [sat_bind, sat_modify, ← foldl_map (f := MmFeature.hash) (g := LruCache.touch), hhash,
      foldl_map]
    exact hsat

/-- **A request that is forwarded is served, and the caches stay mirrors**, if its items are looked
up in the order of their positions. -/
theorem Mirrored.forwarded (h : t.Mirrored)
    (hr : r.inputs = [] ∨
      (r.passthrough = false ∧ r.inputs.Pairwise fun i j => i.offset ≤ j.offset)) :
    Ends (processInputs size r) t.sender
      (fun fs s' => Sat (getAndUpdateFeatures size fs) t.receiver fun _ r' => Mirror s' r')
      fun _ => True := by
  have hp : r.inputs.Pairwise fun i j => i.offset ≤ j.offset := by
    rcases hr with hnil | ⟨-, hp⟩
    · rw [hnil]
      exact List.Pairwise.nil
    · exact hp
  unfold processInputs
  rw [ends_bind]
  refine (h.sent (hr.imp_right And.left)).mono fun sent s' ⟨hlen, hsat⟩ => ?_
  split_ifs
  · trivial
  · rw [ends_pure, insertionSort_features hlen hp]
    exact hsat

/-- **A request that is looked up in the cache does not raise**, if its new items fit and stand in it
once. -/
theorem Mirrored.passes (h : t.Mirrored) (hpass : r.passthrough = false)
    (hrejected : r.rejected = false) (hprocessor : r.processorFails = false)
    (hprovided : (r.inputs.any fun i => !t.sender.data.contains i.hash && !i.provided) = false)
    (hfits : ∀ i ∈ r.inputs, t.sender.data.contains i.hash = false →
      size i.item ≤ t.sender.maxsize)
    (honce : ((r.inputs.map MmInput.hash).filter fun k => !t.sender.data.contains k).Nodup) :
    Passes (processInputs size r) t.sender fun _ s' => s'.order.Nodup := by
  unfold processInputs cachedApplyHfProcessor mergeMmKwargs
  simp only [hrejected, passes_bind]
  show Passes (ite _ _ _) t.sender _
  rw [if_neg (by simp [hpass]), if_neg (by simp [hprovided]), if_neg (by simp [hprocessor])]
  simp only [passes_bind]
  have hready := Ready.touchAll _ h.nodup honce
  have hmax := congrArg LruCache.maxsize
    (LruCache.touchAll_eq (r.inputs.map MmInput.hash) t.sender)
  rw [foldl_map] at hready hmax
  exact (hready.sendItems r.inputs fun i hi => hmax ▸ hfits i hi).mono fun _ _ hnodup => hnodup

/-- The sender's cache is as it was, or the receiver takes the request, or the call does not
return. -/
def Settled (size : V → ℕ) (t : MirroredCaches K V U) (r : MmRequest K V U) : Prop :=
  match processInputs size r t.sender with
  | .error e sender => e = .hangs ∨ sender = t.sender
  | .ok fs sender => ∃ items receiver,
      getAndUpdateFeatures size fs t.receiver = .ok items receiver ∧ Mirrored ⟨sender, receiver⟩

/-- A request without items, or one that is given up before it comes to the cache. -/
theorem Mirrored.settled_of_idle (h : t.Mirrored)
    (hr : r.inputs = [] ∨ r.processorFails = true ∨ r.passthrough = true ∧ r.rejected = true ∨
      r.passthrough = false ∧
        (r.inputs.any fun i => !t.sender.data.contains i.hash && !i.provided) = true) :
    t.Settled size r := by
  have hends : Ends (processInputs size r) t.sender (fun fs s' => fs = [] ∧ s' = t.sender)
      (· = t.sender) := by
    unfold processInputs cachedApplyHfProcessor mergeMmKwargs
    rcases hr with hnil | hr
    · rw [hnil]
      simp only [ends_bind, ends_get]
      split_ifs <;> first | rfl | exact ⟨rfl, rfl⟩
    · simp only [ends_bind, ends_get]
      split_ifs <;> simp_all
  unfold Ends at hends
  unfold Settled
  cases hres : processInputs size r t.sender with
  | error e sender =>
    rw [hres] at hends
    exact Or.inr hends
  | ok fs sender =>
    rw [hres] at hends
    obtain ⟨rfl, rfl⟩ := hends
    exact ⟨_, _, rfl, h⟩

theorem Mirrored.settled (h : t.Mirrored) (hr : t.Regular size r) : t.Settled size r := by
  cases hr with
  | noItems hnil => exact h.settled_of_idle (Or.inl hnil)
  | processorFails hfails => exact h.settled_of_idle (Or.inr (Or.inl hfails))
  | apart hpass hrejected =>
    exact h.settled_of_idle (Or.inr (Or.inr (Or.inl ⟨hpass, hrejected⟩)))
  | missing hpass hi hnew hprovided =>
    refine h.settled_of_idle (Or.inr (Or.inr (Or.inr ⟨hpass, any_eq_true.mpr ⟨_, hi, ?_⟩⟩)))
    simp [hnew, hprovided]
  | forwarded hpass hrejected hsorted hfits honce =>
    cases hfails : r.processorFails with
    | true => exact h.settled_of_idle (Or.inr (Or.inl hfails))
    | false =>
      cases hmissing : r.inputs.any fun i => !t.sender.data.contains i.hash && !i.provided with
      | true => exact h.settled_of_idle (Or.inr (Or.inr (Or.inr ⟨hpass, hmissing⟩)))
      | false =>
        -- the sender gets through, and its receiver does what it did
        have hpasses := h.passes hpass hrejected hfails hmissing hfits honce
        have hends : Ends (processInputs size r) t.sender _ _ :=
          h.forwarded (Or.inr ⟨hpass, hsorted⟩)
        unfold Passes at hpasses
        unfold Ends at hends
        unfold Settled
        cases hres : processInputs size r t.sender with
        | error e sender =>
          rw [hres] at hpasses
          exact Or.inl hpasses
        | ok fs sender =>
          rw [hres] at hpasses hends
          obtain ⟨items, receiver, hok, hmirror⟩ := hends
          exact ⟨items, receiver, hok, hmirror, hpasses⟩

theorem Mirrored.served (h : t.Mirrored) (hr : t.Regular size r) : t.Served size r := by
  intro fs sender hfs receiver hmiss
  have hout := h.settled hr
  rw [Settled, hfs] at hout
  obtain ⟨items, receiver', hok, -⟩ := hout
  rw [hok] at hmiss
  cases hmiss

theorem Mirrored.step (h : t.Mirrored) (hr : t.Regular size r) (hstep : t.step size r = some t') :
    t'.Mirrored := by
  unfold MirroredCaches.step at hstep
  have hout := h.settled hr
  unfold Settled at hout
  cases hres : processInputs size r t.sender with
  | error e sender =>
    rw [hres] at hstep hout
    cases e with
    | hangs => cases hstep
    | _ =>
      obtain rfl := Option.some.inj hstep
      rw [hout.resolve_left (by simp)]
      exact h
  | ok fs sender =>
    rw [hres] at hstep hout
    obtain ⟨items, receiver, hok, hmirrored⟩ := hout
    simp only [hok] at hstep
    obtain rfl := Option.some.inj hstep
    exact hmirrored

/-- **In a run of regular requests every request is served.** -/
theorem each_served (size : V → ℕ) (capacity : ℕ) (rs : List (MmRequest K V U))
    (hrs : Each (MirroredCaches.step size) (Regular size) (start capacity) rs) :
    Each (MirroredCaches.step size) (Served size) (start capacity) rs := by
  have hmirrored := hrs.always (mirrored_start capacity) fun t r t' h hr hstep => h.step hr hstep
  intro rs₁ r rs₂ t hsplit hrun
  exact (hmirrored rs₁ (r :: rs₂) t hsplit hrun).served (hrs rs₁ r rs₂ t hsplit hrun)

/-- A request, given for each item its hash, its size and its position. -/
def request (modalities : List (List (ℕ × ℕ × ℕ))) : MmRequest ℕ ℕ Unit where
  modalities := modalities.map fun l => l.map fun p => ⟨p.1, true, p.2.1, (), p.2.2⟩
  passthrough := false
  processorFails := false
  rejected := false

/-- Two images, and then the first of them again, which is sent without its data. -/
theorem each_served_again :
    Each (MirroredCaches.step id) (Regular id) (start 2)
      [request [[(1, 1, 0), (2, 1, 5)]], request [[(1, 1, 0)]]] ∧
    Each (MirroredCaches.step id) (Served id) (start 2)
      [request [[(1, 1, 0), (2, 1, 5)]], request [[(1, 1, 0)]]] := by
  have hregular : Each (MirroredCaches.step id) (Regular id) (start 2)
      [request [[(1, 1, 0), (2, 1, 5)]], request [[(1, 1, 0)]]] := by
    rw [each_cons]
    refine ⟨.forwarded rfl rfl (by decide) (by decide) (by decide), fun t ht => ?_⟩
    obtain rfl := Option.some.inj ht
    rw [each_cons]
    refine ⟨.forwarded rfl rfl (by decide) (by decide) (by decide), fun t ht => ?_⟩
    exact each_nil
  exact ⟨hregular, each_served id 2 _ hregular⟩

/-- Four runs that go wrong. An image is preprocessed in a request that is rejected, and sent
without its data in the next. A video that stands before an image in the prompt is evicted by the
receiver where the sender evicts the image. The second image of a request is too large, and the
first is not forwarded. And data that passes the processor by takes the place of an image in the
receiver's cache only. -/
theorem not_each_served :
    ¬ Each (MirroredCaches.step id) (Served id) (start 1)
      [{ request [[(1, 1, 0)]] with rejected := true }, request [[(1, 1, 0)]]] ∧
    ¬ Each (MirroredCaches.step id) (Served id) (start 2)
      [request [[(1, 1, 5)], [(2, 1, 0)]], request [[(3, 1, 0)]], request [[(2, 1, 0)]]] ∧
    ¬ Each (MirroredCaches.step id) (Served id) (start 2)
      [request [[(1, 1, 0), (2, 3, 5)]], request [[(1, 1, 0)]]] ∧
    ¬ Each (MirroredCaches.step id) (Served id) (start 1)
      [request [[(1, 1, 0)]], { request [[(2, 1, 0)]] with passthrough := true },
        request [[(1, 1, 0)]]] := by
  refine ⟨fun h => ?_, fun h => ?_, fun h => ?_, fun h => ?_⟩
  · exact h [_] _ [] _ rfl rfl _ _ rfl _ rfl
  · exact h [_, _] _ [] _ rfl rfl _ _ rfl _ rfl
  · exact h [_] _ [] _ rfl rfl _ _ rfl _ rfl
  · exact h [_, _] _ [] _ rfl rfl _ _ rfl _ rfl

end MirroredCaches

end CacheFlow.Mm
