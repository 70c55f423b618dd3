import CacheFlow.Lib.Exec
import CacheFlow.Lib.Memory

/-!
# Byte layouts and transfer plans

`layout.py`: a chunk is one contiguous entry on the server, layer after layer; the
chunks of a request sit in one staging region on the client, layer-major, so that one
layer of all chunks is contiguous. `planOps` lists the RDMA operations that move
chunks between the two.

Addresses are computed in `numpy.uint64`, so they wrap at `2 ^ 64`; `cf_post` accepts
an operation only if its length is positive and at most `2 ^ 31`.
-/

namespace CacheFlow

open List

/-- The sizes of a cached chunk. -/
structure ChunkGeometry where
  numLayers : ℕ
  /-- Bytes of one layer of one chunk. -/
  layerBytes : ℕ

namespace ChunkGeometry

/-- Bytes of an entry. -/
def entryBytes (g : ChunkGeometry) : ℕ := g.numLayers * g.layerBytes

/-- Where a layer of a chunk starts in a staging region for `nChunks` chunks. -/
def stagingOffset (g : ChunkGeometry) (nChunks layer chunk : ℕ) : ℕ :=
  (layer * nChunks + chunk) * g.layerBytes

end ChunkGeometry

/-- One RDMA operation: `OP_DTYPE`. -/
structure RdmaOp where
  /-- The address on the side that posts. -/
  laddr : ℕ
  /-- The address on the other side. -/
  raddr : ℕ
  /-- The memory key of the local side. -/
  lkey : ℕ
  /-- The memory key of the other side. -/
  rkey : ℕ
  /-- Bytes to move. -/
  len : ℕ
  deriving DecidableEq, Repr

/-- `numpy.uint64` arithmetic. -/
def wrap64 (x : ℕ) : ℕ := x % 2 ^ 64

theorem wrap64_of_lt {x : ℕ} (h : x < 2 ^ 64) : wrap64 x = x := Nat.mod_eq_of_lt h

/-- The operation for one layer of one chunk. -/
def layerOp (staging stagingKey entry entryKey len : ℕ) (stagingIsLocal : Bool) : RdmaOp :=
  if stagingIsLocal then ⟨staging, entry, stagingKey, entryKey, len⟩
  else ⟨entry, staging, entryKey, stagingKey, len⟩

/-- The operations moving chunks between a staging region and entries: one list for
each layer if `layerGroups`, else a single one; layer by layer either way.

`entries[i]` goes with position `stagingChunks[i]` of a staging region laid out for
`nStaging` chunks; `layers` restricts the plan to a range of layers. -/
def planOps (geom : ChunkGeometry) (stagingBase stagingKey : ℕ) (entries : List ℕ) (entryKey : ℕ)
    (layerGroups stagingIsLocal : Bool) (stagingChunks : Option (List ℕ)) (nStaging : Option ℕ)
    (layers : Option (ℕ × ℕ)) : Except PyErr (List (List RdmaOp)) :=
  let n := entries.length
  let pos := stagingChunks.getD (List.range n)
  let nStage := nStaging.getD n
  let S := geom.layerBytes
  let (l0, l1) := layers.getD (0, geom.numLayers)
  if stagingBase ≥ 2 ^ 64 ∨ S ≥ 2 ^ 32 ∨ nStage ≥ 2 ^ 64 ∨
      (entries.any fun e => e ≥ 2 ^ 64) ∨ (pos.any fun i => i ≥ 2 ^ 64) then
    .error .overflowError
  else if n ≠ 0 ∧ l1 < l0 then
    .error .valueError
  else if n * (l1 - l0) ≠ 0 ∧ pos.length < n then
    .error .indexError
  else
    let groups := (List.range' l0 (l1 - l0)).map fun lay =>
      (List.range n).map fun i =>
        layerOp (wrap64 (stagingBase + (lay * nStage + pos.getD i 0) * S)) stagingKey
          (wrap64 (entries.getD i 0 + lay * S)) entryKey S stagingIsLocal
    .ok (if layerGroups then groups else [groups.flatten])

/-- A transfer whose two sides lie in the address space. -/
structure PlanFits (geom : ChunkGeometry) (stagingBase nStage : ℕ) (entries pos : List ℕ) : Prop where
  layerBytes : 0 < geom.layerBytes ∧ geom.layerBytes ≤ 2 ^ 31
  numLayers : 0 < geom.numLayers
  staging : stagingBase + nStage * geom.entryBytes < 2 ^ 64
  entry : ∀ e ∈ entries, e + geom.entryBytes < 2 ^ 64
  length : pos.length = entries.length
  pos : ∀ i ∈ pos, i < nStage

/-- A layer of a chunk ends where the region of its layers does, or before. -/
theorem layer_end_le {n L S lay i : ℕ} (hlay : lay < L) (hi : i < n) :
    (lay * n + i) * S + S ≤ n * (L * S) := by
  have hrow : lay * n + i + 1 ≤ L * n := by
    have : (lay + 1) * n ≤ L * n := Nat.mul_le_mul_right n hlay
    rw [Nat.succ_mul] at this
    omega
  calc (lay * n + i) * S + S = (lay * n + i + 1) * S := by ring
    _ ≤ L * n * S := Nat.mul_le_mul_right S hrow
    _ = n * (L * S) := by ring

/-- The operations of a plan, with the addresses as they are. -/
def plannedOps (geom : ChunkGeometry) (stagingBase stagingKey : ℕ) (entries : List ℕ)
    (entryKey : ℕ) (stagingIsLocal : Bool) (pos : List ℕ) (nStage l0 l1 : ℕ) : List (List RdmaOp) :=
  (List.range' l0 (l1 - l0)).map fun lay => (List.range entries.length).map fun i =>
    layerOp (stagingBase + geom.stagingOffset nStage lay (pos.getD i 0)) stagingKey
      (entries.getD i 0 + lay * geom.layerBytes) entryKey geom.layerBytes stagingIsLocal

/-- **The plan of a transfer that fits**: no address wraps. -/
theorem planOps_eq {geom : ChunkGeometry} {stagingBase : ℕ} {entries : List ℕ}
    {stagingChunks : Option (List ℕ)} {nStaging : Option ℕ} {layers : Option (ℕ × ℕ)} {l0 l1 : ℕ}
    (hfits : PlanFits geom stagingBase (nStaging.getD entries.length) entries
      (stagingChunks.getD (List.range entries.length)))
    (hlayers : layers.getD (0, geom.numLayers) = (l0, l1)) (hle : l0 ≤ l1) (hl1 : l1 ≤ geom.numLayers)
    (stagingKey entryKey : ℕ) (layerGroups stagingIsLocal : Bool) :
    planOps geom stagingBase stagingKey entries entryKey layerGroups stagingIsLocal stagingChunks
      nStaging layers = .ok (
        let groups := plannedOps geom stagingBase stagingKey entries entryKey stagingIsLocal
          (stagingChunks.getD (List.range entries.length)) (nStaging.getD entries.length) l0 l1
        if layerGroups then groups else [groups.flatten]) := by
  obtain ⟨⟨hS, hS'⟩, hL, hstaging, hentry, hlength, hpos⟩ := hfits
  set pos := stagingChunks.getD (List.range entries.length) with hposdef
  set nStage := nStaging.getD entries.length with hndef
  have hLS : 0 < geom.numLayers * geom.layerBytes := Nat.mul_pos hL hS
  -- the region is at least as large as the number of its chunks
  have hn : nStage ≤ nStage * geom.entryBytes := Nat.le_mul_of_pos_right _ hLS
  have hsmall : ¬ (stagingBase ≥ 2 ^ 64 ∨ geom.layerBytes ≥ 2 ^ 32 ∨ nStage ≥ 2 ^ 64 ∨
      (entries.any fun e => decide (e ≥ 2 ^ 64)) = true ∨
      (pos.any fun i => decide (i ≥ 2 ^ 64)) = true) := by
    rintro (h | h | h | h | h)
    · omega
    · omega
    · omega
    · obtain ⟨e, he, hge⟩ := any_eq_true.mp h
      have := hentry e he
      simp only [decide_eq_true_eq] at hge
      omega
    · obtain ⟨i, hi, hge⟩ := any_eq_true.mp h
      have := hpos i hi
      simp only [decide_eq_true_eq] at hge
      omega
  have hgroups : ((List.range' l0 (l1 - l0)).map fun lay =>
      (List.range entries.length).map fun i =>
        layerOp (wrap64 (stagingBase + (lay * nStage + pos.getD i 0) * geom.layerBytes)) stagingKey
          (wrap64 (entries.getD i 0 + lay * geom.layerBytes)) entryKey geom.layerBytes
          stagingIsLocal) =
      plannedOps geom stagingBase stagingKey entries entryKey stagingIsLocal pos nStage l0 l1 := by
    refine map_congr_left fun lay hlay => map_congr_left fun i hi => ?_
    have hlay' : lay < geom.numLayers := by
      have := mem_range'_1.mp hlay
      omega
    have hi' : i < entries.length := mem_range.mp hi
    have hp : pos.getD i 0 < nStage := by
      rw [getD_eq_getElem _ _ (hlength ▸ hi')]
      exact hpos _ (getElem_mem _)
    have he := hentry (entries.getD i 0) (by
      rw [getD_eq_getElem _ _ hi']
      exact getElem_mem _)
    have hend : (lay * nStage + pos.getD i 0) * geom.layerBytes + geom.layerBytes ≤
        nStage * geom.entryBytes := layer_end_le hlay' hp
    have hlayer : lay * geom.layerBytes + geom.layerBytes ≤ geom.entryBytes := by
      rw [← Nat.succ_mul]
      exact Nat.mul_le_mul_right _ hlay'
    rw [wrap64_of_lt (by omega), wrap64_of_lt (by omega)]
    rfl
  unfold planOps
  simp only [← hposdef, ← hndef, hlayers]
  rw [if_neg hsmall, if_neg (by omega), if_neg (by omega), hgroups]

/-! ### Carrying operations out -/

/-- Which way an operation moves data. -/
inductive Opcode where
  /-- From the local to the remote side. -/
  | write : Opcode
  /-- From the remote to the local side. -/
  | read : Opcode
  deriving DecidableEq, Repr

/-- What an operation does to the local and the remote memory. -/
def RdmaOp.exec {β : Type} (op : RdmaOp) (opcode : Opcode) (loc rem : Mem β) : Mem β × Mem β :=
  match opcode with
  | .write => (loc, copyRange loc op.laddr rem op.raddr op.len)
  | .read => (copyRange rem op.raddr loc op.laddr op.len, rem)

/-- Who drives the transfers. -/
inductive TransferMode where
  /-- The client posts. -/
  | pull : TransferMode
  /-- The server posts. -/
  | push : TransferMode
  deriving DecidableEq, Repr

namespace TransferMode

/-- In a plan, the staging region is local if the client posts. -/
def stagingIsLocal : TransferMode → Bool
  | .pull => true
  | .push => false

/-- An operation of a save, on the memories of client and server. -/
def execSave {β : Type} (mode : TransferMode) (op : RdmaOp) (client server : Mem β) :
    Mem β × Mem β :=
  match mode with
  | .pull => op.exec .write client server
  | .push => (op.exec .read server client).swap

/-- An operation of a load, on the memories of client and server. -/
def execLoad {β : Type} (mode : TransferMode) (op : RdmaOp) (client server : Mem β) :
    Mem β × Mem β :=
  match mode with
  | .pull => op.exec .read client server
  | .push => (op.exec .write server client).swap

/-- Whoever posts it, an operation of a save copies from staging to the entry. -/
theorem execSave_layerOp {β : Type} (mode : TransferMode) (staging sk entry ek len : ℕ)
    (client server : Mem β) :
    mode.execSave (layerOp staging sk entry ek len mode.stagingIsLocal) client server =
      (client, copyRange client staging server entry len) := by
  cases mode with
  | pull => rfl
  | push => rfl

/-- Whoever posts it, an operation of a load copies from the entry to staging. -/
theorem execLoad_layerOp {β : Type} (mode : TransferMode) (staging sk entry ek len : ℕ)
    (client server : Mem β) :
    mode.execLoad (layerOp staging sk entry ek len mode.stagingIsLocal) client server =
      (copyRange server entry client staging len, server) := by
  cases mode with
  | pull => rfl
  | push => rfl

end TransferMode

end CacheFlow
