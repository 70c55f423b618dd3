import CacheFlow.Doca.Chunks
import CacheFlow.Lib.Dict
import CacheFlow.Lib.Steps

/-!
# Registered buffers on both sides

The host keeps its buffers in an array, and gives a new buffer the length of the array as its id.
Unregistering takes a buffer out and moves the later ones down, so that the length becomes an id that
may still be in use. The DPU keeps a table by id; a registration under an id that it has replaces
the entry.

The host takes any acknowledgement as the answer to its registration, and does not wait for the one
of an unregistration. So the state counts the acknowledgements that nobody has taken yet.

## Main definitions

* `Registry.Safe` — ids are unambiguous, and will be after the next registration.
* `Registry.InOrder` — buffers are unregistered in the reverse order.

## Main results

* `Registry.always_safe_iff` — exactly the runs in order are safe throughout.
-/

namespace CacheFlow.Doca

open List Steps

/-- What the host exports of a buffer. -/
structure Mapping where
  hostAddr : UInt64
  size : UInt64
  /-- `export_desc`, with its length. -/
  exportDesc : List UInt8
  deriving DecidableEq, Repr

/-- `host_buffer_t`. -/
structure HostBuffer where
  bufferId : ℕ
  /-- The exported mapping. -/
  mapping : Mapping
  deriving DecidableEq, Repr

/-- The length of `export_desc` in a message. -/
def maxExportDesc : ℕ := 1024

/-- The buffers of the host and of the DPU. -/
structure Registry where
  /-- `provider->buffers`. -/
  live : List HostBuffer
  /-- `off->buffers`, with the mapping that was imported. -/
  table : Dict ℕ Mapping
  /-- The acknowledgements the host has not taken. -/
  acks : ℕ
  deriving DecidableEq

namespace Registry

/-- Nothing is registered. -/
def init : Registry := ⟨[], ∅, 0⟩

/-- The ids of the host's buffers. -/
def ids (s : Registry) : List ℕ := s.live.map (·.bufferId)

/-! ### The calls -/

/-- `handle_buffer_registration`: the table, and whether it is acknowledged. Whether the import and
the allocations succeed is not the program's to say. -/
def handleBufferRegistration (table : Dict ℕ Mapping) (id : ℕ) (m : Mapping) (imports : Bool) :
    Dict ℕ Mapping × Bool :=
  if maxBuffers ≤ id then (table, false)
  else if m.exportDesc.length = 0 ∨ maxExportDesc < m.exportDesc.length then (table, false)
  else
    let table := table.erase id
    if imports then (table.set id m, true) else (table, false)

/-- `handle_buffer_unregister`. -/
def handleBufferUnregister (table : Dict ℕ Mapping) (id : ℕ) : Dict ℕ Mapping × Bool :=
  if maxBuffers ≤ id then (table, false) else (table.erase id, true)

/-- `host_provider_register_buffer`; `none` if it returns an error. -/
def registerBuffer (s : Registry) (m : Mapping) (imports : Bool) : Option Registry :=
  if maxExportDesc < m.exportDesc.length then none
  else
    let id := s.live.length
    let (table, acknowledged) := handleBufferRegistration s.table id m imports
    let acks := s.acks + acknowledged.toNat
    if acks = 0 then none
    else some ⟨s.live ++ [⟨id, m⟩], table, acks - 1⟩

/-- `host_provider_unregister_buffer`; `none` if the buffer is not found. -/
def unregisterBuffer (s : Registry) (id : ℕ) : Option Registry :=
  if s.live.any (·.bufferId = id) then
    let (table, acknowledged) := handleBufferUnregister s.table id
    some ⟨s.live.eraseP (·.bufferId = id), table, s.acks + acknowledged.toNat⟩
  else none

/-- A call of the host. -/
inductive Op where
  /-- Register a buffer. -/
  | register (m : Mapping) (imports : Bool)
  /-- Unregister a buffer. -/
  | unregister (id : ℕ)
  deriving DecidableEq, Repr

/-- One successful call. -/
def step (s : Registry) : Op → Option Registry
  | .register m imports => s.registerBuffer m imports
  | .unregister id => s.unregisterBuffer id

/-! ### What ids are for -/

/-- An id names one buffer, the same on both sides, and the next registration takes an id that no
buffer has. -/
structure Safe (s : Registry) : Prop where
  distinct : s.ids.Nodup
  keys : ∀ id, id ∈ s.table.keys ↔ id ∈ s.ids
  mappings : ∀ b ∈ s.live, s.table.get? b.bufferId = some b.mapping
  fresh : s.live.length ∉ s.ids

/-- The DPU takes a registration. -/
def Accepts (id : ℕ) (m : Mapping) (imports : Bool) : Prop :=
  id < maxBuffers ∧ m.exportDesc ≠ [] ∧ imports = true

/-- Calls in order: only the last registered of the live buffers is unregistered, and if an
acknowledgement is left over, a buffer is registered only if the DPU takes it. -/
def InOrder (s : Registry) : Op → Prop
  | .register m imports => s.acks = 0 ∨ Accepts s.live.length m imports
  | .unregister id => id + 1 = s.live.length

/-! ### One call -/

/-- The buffers are numbered from zero on, and the DPU's table is the host's array. -/
structure Numbered (s : Registry) : Prop where
  ids : s.ids = List.range s.live.length
  table : ∀ id, s.table.get? id = s.live[id]?.map (·.mapping)
  bound : s.live.length ≤ maxBuffers

variable {s s' : Registry}

theorem Numbered.bufferId (h : s.Numbered) {i : ℕ} {b : HostBuffer} (hb : s.live[i]? = some b) :
    b.bufferId = i := by
  have hid : s.ids[i]? = some b.bufferId := by rw [Registry.ids, List.getElem?_map, hb]; rfl
  rw [h.ids] at hid
  obtain ⟨hlt, heq⟩ := List.getElem?_eq_some_iff.mp hid
  rw [← heq, getElem_range]

theorem numbered_init : init.Numbered where
  ids := rfl
  table _ := rfl
  bound := Nat.zero_le _

theorem Numbered.safe (h : s.Numbered) : s.Safe where
  distinct := by
    rw [h.ids]
    exact nodup_range
  keys id := by
    rw [Dict.mem_keys_iff, h.table, h.ids, mem_range, ← Option.isSome_iff_exists,
      Option.isSome_map]
    simp
  mappings b hb := by
    obtain ⟨i, hi⟩ := mem_iff_getElem?.mp hb
    rw [h.bufferId hi, h.table, hi]
    rfl
  fresh := by
    rw [h.ids, mem_range]
    exact Nat.lt_irrefl _

/-- The DPU's part of a registration under a free id. -/
theorem handleBufferRegistration_of_fresh {table : Dict ℕ Mapping} {id : ℕ} {m : Mapping}
    {imports : Bool} (hfree : table.get? id = none)
    (hdesc : m.exportDesc.length ≤ maxExportDesc) :
    (Accepts id m imports →
      handleBufferRegistration table id m imports = (table.set id m, true)) ∧
    (¬ Accepts id m imports → handleBufferRegistration table id m imports = (table, false)) := by
  have herase := Dict.erase_of_get?_eq_none hfree
  constructor
  · rintro ⟨hid, hne, himports⟩
    have hlen : ¬ (m.exportDesc.length = 0 ∨ maxExportDesc < m.exportDesc.length) := by
      rintro (hzero | hlong)
      · exact hne (eq_nil_of_length_eq_zero hzero)
      · omega
    rw [handleBufferRegistration, if_neg (by omega), if_neg hlen, himports, herase]
    rfl
  · intro hnot
    unfold handleBufferRegistration
    split
    · rfl
    · split
      · rfl
      · rename_i hid hlen
        have hrefuse : imports = false := by
          by_contra himports
          refine hnot ⟨by omega, fun hnil => hlen (Or.inl ?_), by simpa using himports⟩
          rw [hnil, length_nil]
        rw [hrefuse, herase]
        rfl

theorem Numbered.register (h : s.Numbered) {m : Mapping} {imports : Bool}
    (hstep : s.registerBuffer m imports = some s') :
    (s'.Safe → s.InOrder (.register m imports)) ∧
      (s.InOrder (.register m imports) → s'.Numbered) := by
  have hfree : s.table.get? s.live.length = none := by
    rw [h.table, List.getElem?_eq_none le_rfl]
    rfl
  unfold registerBuffer at hstep
  split at hstep
  · exact absurd hstep nofun
  · rename_i hdesc
    dsimp only at hstep
    obtain ⟨htake, hrefuse⟩ :=
      @handleBufferRegistration_of_fresh _ _ m imports hfree (not_lt.mp hdesc)
    by_cases haccepts : Accepts s.live.length m imports
    · refine ⟨fun _ => Or.inr haccepts, fun _ => ?_⟩
      rw [htake haccepts] at hstep
      obtain rfl : _ = s' := by simpa using hstep
      refine ⟨?_, fun id => ?_, ?_⟩
      · show (s.live ++ [_]).map _ = List.range (s.live ++ [_]).length
        rw [map_append, length_append, length_singleton, range_succ, ← h.ids]
        rfl
      · show (s.table.set s.live.length m).get? id = (s.live ++ [_])[id]?.map _
        rw [Dict.get?_set, h.table, List.getElem?_append]
        rcases Nat.lt_trichotomy id s.live.length with hlt | rfl | hgt
        · rw [if_neg (by omega), if_pos hlt]
        · simp
        · rw [if_neg (by omega), if_neg (by omega), List.getElem?_eq_none (by omega),
            List.getElem?_eq_none (by rw [length_singleton]; omega)]
      · show (s.live ++ [_]).length ≤ maxBuffers
        rw [length_append, length_singleton]
        exact haccepts.1
    · rw [hrefuse haccepts] at hstep
      have hacks : s.acks ≠ 0 := by
        rintro hzero
        simp [hzero] at hstep
      refine ⟨fun hsafe => ?_, fun horder => absurd haccepts (not_not.mpr (horder.resolve_left hacks))⟩
      -- the host has a buffer that the DPU does not have
      obtain rfl : _ = s' := by simpa [hacks] using hstep
      have hmapping := hsafe.mappings ⟨s.live.length, m⟩
        (mem_append_right _ (mem_singleton_self _))
      exact absurd (hfree.symm.trans hmapping) nofun

theorem Numbered.unregister (h : s.Numbered) {id : ℕ}
    (hstep : s.unregisterBuffer id = some s') :
    (s'.Safe → s.InOrder (.unregister id)) ∧ (s.InOrder (.unregister id) → s'.Numbered) := by
  unfold unregisterBuffer at hstep
  split at hstep
  · rename_i hany
    obtain ⟨b, hb, hid⟩ := any_eq_true.mp hany
    obtain ⟨i, hi⟩ := mem_iff_getElem?.mp hb
    obtain rfl : i = id := (h.bufferId hi).symm.trans (by simpa using hid)
    obtain ⟨hlt, -⟩ := List.getElem?_eq_some_iff.mp hi
    have hroom : ¬ maxBuffers ≤ i := by
      have := h.bound
      omega
    rw [handleBufferUnregister, if_neg hroom] at hstep
    obtain rfl : _ = s' := Option.some_inj.mp hstep
    have hp : (decide (b.bufferId = i)) = true := by simpa using hid
    constructor
    · -- an earlier buffer goes: the last one has the length as its id
      intro hsafe
      by_contra horder
      have hlast : s.live.length - 1 < s.live.length := by omega
      have hmem : s.live[s.live.length - 1] ∈ s.live.eraseP (·.bufferId = i) := by
        rw [mem_eraseP_of_neg]
        · exact getElem_mem hlast
        · rw [h.bufferId (List.getElem?_eq_getElem hlast)]
          have hne : s.live.length - 1 ≠ i := fun heq => horder (show i + 1 = s.live.length by omega)
          simpa using hne
      refine hsafe.fresh ?_
      show (s.live.eraseP _).length ∈ (s.live.eraseP _).map _
      rw [length_eraseP_of_mem hb hp]
      exact mem_map.mpr ⟨_, hmem, h.bufferId (List.getElem?_eq_getElem hlast)⟩
    · intro horder
      have hlen : i + 1 = s.live.length := horder
      -- the last buffer goes
      have hinit : s.live = s.live.dropLast ++ [b] := by
        rw [dropLast_eq_take, ← hlen, Nat.add_sub_cancel]
        have hget := (List.getElem?_eq_some_iff.mp hi).2
        rw [← hget, take_append_getElem, hlen, take_length]
      have herase : s.live.eraseP (·.bufferId = i) = s.live.dropLast := by
        nth_rewrite 1 [hinit]
        rw [eraseP_append_right]
        · simp [hp]
        · intro c hc
          obtain ⟨j, hj⟩ := mem_iff_getElem?.mp hc
          rw [List.getElem?_dropLast] at hj
          split at hj
          · rw [h.bufferId hj]
            have hne : j ≠ i := by omega
            simpa using hne
          · exact absurd hj nofun
      have hlen' : s.live.dropLast.length = i := by rw [length_dropLast]; omega
      refine ⟨?_, fun k => ?_, ?_⟩
      · show (s.live.eraseP _).map _ = List.range (s.live.eraseP _).length
        rw [herase, map_dropLast]
        show s.ids.dropLast = _
        rw [h.ids, hlen', ← hlen, range_succ, dropLast_concat]
      · show (s.table.erase i).get? k = (s.live.eraseP _)[k]?.map _
        rw [herase, Dict.get?_erase, h.table, List.getElem?_dropLast]
        rcases Nat.lt_trichotomy k i with hlt | rfl | hgt
        · rw [if_neg (by omega), if_pos (by omega)]
        · rw [if_pos rfl, if_neg (by omega)]
          rfl
        · rw [if_neg (by omega), if_neg (by omega), List.getElem?_eq_none (by omega)]
      · show (s.live.eraseP _).length ≤ maxBuffers
        rw [herase, hlen']
        exact le_of_not_ge hroom
  · exact absurd hstep nofun

/-- **One call.** From numbered buffers a call leads to safe ones just if it is in order, and then
to numbered ones. -/
theorem Numbered.step (h : s.Numbered) {op : Op} (hstep : s.step op = some s') :
    (s'.Safe → s.InOrder op) ∧ (s.InOrder op → s'.Numbered) := by
  cases op with
  | register m imports => exact h.register hstep
  | unregister id => exact h.unregister hstep

/-! ### Whole runs -/

/-- **Buffer identity.** A sequence of successful calls is safe in all its states if and only if its
calls are in order. -/
theorem always_safe_iff (ops : List Op) (s : Registry) (hrun : run step init ops = some s) :
    Always step Safe init ops ↔ Each step InOrder init ops :=
  (always_iff_each numbered_init (fun _ => Numbered.safe)
    (fun _ _ _ h hstep => h.step hstep) hrun).1

/-- The mapping of a page. -/
def pageMapping (address : UInt64) : Mapping := ⟨address, 4096, [1]⟩

/-- Two buffers come, the second one goes, and another comes. -/
def orderedOps : List Op :=
  [.register (pageMapping 0x10000) true, .register (pageMapping 0x20000) true, .unregister 1,
    .register (pageMapping 0x30000) true]

/-- What they leave; the acknowledgement of the unregistration is still in the queue. -/
def orderedRegistry : Registry :=
  ⟨[⟨0, pageMapping 0x10000⟩, ⟨1, pageMapping 0x30000⟩],
    ((∅ : Dict ℕ Mapping).set 0 (pageMapping 0x10000)).set 1 (pageMapping 0x30000), 1⟩

theorem always_safe_ordered : Always step Safe init orderedOps := by
  refine (always_safe_iff orderedOps orderedRegistry (by decide +kernel)).mpr ?_
  have h₁ : run step init [.register (pageMapping 0x10000) true]
      = some ⟨[⟨0, pageMapping 0x10000⟩], (∅ : Dict ℕ Mapping).set 0 (pageMapping 0x10000), 0⟩ := by
    decide +kernel
  have h₂ : run step init
        [.register (pageMapping 0x10000) true, .register (pageMapping 0x20000) true]
      = some ⟨[⟨0, pageMapping 0x10000⟩, ⟨1, pageMapping 0x20000⟩],
        ((∅ : Dict ℕ Mapping).set 0 (pageMapping 0x10000)).set 1 (pageMapping 0x20000), 0⟩ := by
    decide +kernel
  have h₃ : run step init [.register (pageMapping 0x10000) true,
        .register (pageMapping 0x20000) true, .unregister 1]
      = some ⟨[⟨0, pageMapping 0x10000⟩], (∅ : Dict ℕ Mapping).set 0 (pageMapping 0x10000), 1⟩ := by
    decide +kernel
  refine (each_concat h₃).mpr ⟨(each_concat h₂).mpr ⟨(each_concat h₁).mpr
    ⟨(each_concat run_nil).mpr ⟨each_nil, Or.inl rfl⟩, Or.inl rfl⟩, rfl⟩,
    Or.inr ⟨by decide, by decide, rfl⟩⟩

/-- The first of two buffers is unregistered, and a third one is registered: it gets the id of the
second one, and the DPU loses the mapping of that one. -/
theorem not_always_safe_shifted :
    ¬ ∀ ops s, run step init ops = some s → Always step Safe init ops := by
  intro h
  have hops : run step init [.register (pageMapping 0x10000) true,
        .register (pageMapping 0x20000) true, .unregister 0, .register (pageMapping 0x30000) true]
      = some ⟨[⟨1, pageMapping 0x20000⟩, ⟨1, pageMapping 0x30000⟩],
        (∅ : Dict ℕ Mapping).set 1 (pageMapping 0x30000), 1⟩ := by decide +kernel
  have hsafe := h _ _ hops _ [] _ (append_nil _).symm hops
  exact absurd hsafe.distinct (by decide)

end Registry

end CacheFlow.Doca
