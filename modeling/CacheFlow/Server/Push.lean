import CacheFlow.Server.Message
import CacheFlow.Worker.Layout

/-!
# Server-driven transfers

In push mode the client sends a descriptor of a transfer and the server plans and posts
the operations: `_start_push` of `server/server.py`. All integers of the descriptor come
from the client. The server checks that each entry, of `num_layers * layer_bytes` bytes,
lies in its pool; the plan is made of the layers the descriptor names, which the check
does not look at.

Python integers that a fixed-width `numpy` type cannot hold raise an `OverflowError`.

## Main definitions

* `startPush` — the check and the plan.

## Main results

* `push_in_pool_iff` — when the operations of an accepted request stay in the pool.
-/

namespace CacheFlow

open List Except

/-- The memory that holds the entries. -/
structure Pool where
  /-- Where it starts. -/
  addr : ℕ
  /-- How many bytes it has. -/
  length : ℕ
  /-- It lies in the address space. -/
  fits : addr + length < 2 ^ 64

/-- `_in_pool`. -/
def Pool.inPool (pool : Pool) (addr size : ℤ) : Bool :=
  pool.addr ≤ addr ∧ addr + size ≤ pool.addr + pool.length

/-- The range of addresses lies in the pool. -/
def Pool.Contains (pool : Pool) (addr len : ℕ) : Prop :=
  pool.addr ≤ addr ∧ addr + len ≤ pool.addr + pool.length

/-- A `push` request. -/
structure PushRequest where
  /-- The direction: `"load"` writes to the client, anything else reads from it. -/
  dir : String
  numLayers : ℤ
  layerBytes : ℤ
  entries : List ℤ
  stagingBase : ℤ
  stagingRkey : ℤ
  /-- One group of operations for each layer. -/
  layerGroups : Bool
  /-- The positions in the staging region. -/
  stagingChunks : Option (List ℤ)
  /-- The number of chunks the staging region is laid out for. -/
  nStaging : Option ℤ
  layers : Option (List ℤ)

namespace PushRequest

/-- Bytes of an entry. -/
def entryBytes (m : PushRequest) : ℤ := m.numLayers * m.layerBytes

/-- The layers of the plan: `l0, l1 = layers if layers is not None else (0, num_layers)`,
where an empty list counts as none. -/
def range (m : PushRequest) : Except PyErr (ℤ × ℤ) :=
  match m.layers with
  | none => .ok (0, m.numLayers)
  | some [] => .ok (0, m.numLayers)
  | some [l0, l1] => .ok (l0, l1)
  | some _ => .error .valueError

end PushRequest

/-- A Python integer as an unsigned `numpy` integer of the given width. -/
def toUInt (bits : ℕ) (x : ℤ) : Except PyErr ℕ :=
  if 0 ≤ x ∧ x < 2 ^ bits then .ok x.toNat else .error .overflowError

/-- `np.arange(l0, l1, dtype=np.uint64)`, by its two ends. The first two values are converted
and the others follow from them, modulo `2 ^ 64`. -/
def arange (l0 l1 : ℤ) : Except PyErr (ℕ × ℕ) :=
  if l1 ≤ l0 then .ok (0, 0)
  else do
    let a ← toUInt 64 l0
    let _ ← toUInt 64 (min (l0 + 1) (l1 - 1))
    pure (a, l1.toNat)

/-- `np.zeros(n * (l1 - l0))`, which refuses a negative size. -/
def zeros (n : ℕ) (l0 l1 : ℤ) : Except PyErr Unit :=
  if n ≠ 0 ∧ l1 < l0 then .error .valueError else .ok ()

/-- The positions in the staging region, for `n` entries. -/
def PushRequest.positions (m : PushRequest) (n : ℕ) : Except PyErr (List ℕ) :=
  match m.stagingChunks with
  | none => .ok (List.range n)
  | some chunks => chunks.mapM (toUInt 64)

/-- `plan_ops` on the integers of a request, with the server's memory key. -/
def planPush (m : PushRequest) (lkey : ℕ) : Except PyErr (List (List RdmaOp)) := do
  let ent ← m.entries.mapM (toUInt 64)
  let pos ← m.positions ent.length
  let nStage ← toUInt 64 (m.nStaging.getD ent.length)
  let layers ← m.range
  let lay ← arange layers.1 layers.2
  let _ ← zeros ent.length layers.1 layers.2
  let base ← toUInt 64 m.stagingBase
  let rkey ← toUInt 32 m.stagingRkey
  let S ← toUInt 32 m.layerBytes
  planOps ⟨m.numLayers.toNat, S⟩ base rkey ent lkey m.layerGroups false (some pos) (some nStage)
    (some lay)

/-- The text of an integer in hexadecimal. -/
def hexInt (x : ℤ) : String :=
  (if x < 0 then "-" else "") ++ String.ofList (Nat.toDigits 16 x.natAbs)

/-- The answer to a `push` request. -/
inductive PushReply where
  | refused (error : String) : PushReply
  /-- The operations are posted, group by group. -/
  | started (opcode : Opcode) (groups : List (List RdmaOp)) : PushReply

/-- `_start_push`, up to the posting: `lkey` is the pool's memory key at the session's port,
if the session has an endpoint. -/
def startPush (pool : Pool) (lkey : Option ℕ) (m : PushRequest) : Except PyErr PushReply :=
  match lkey with
  | none => .ok (.refused "no RDMA endpoint for this session")
  | some lkey =>
    match m.entries.find? fun a => !pool.inPool a m.entryBytes with
    | some a => .ok (.refused ("entry 0x" ++ hexInt a ++ " outside the pool"))
    | none => do
      let groups ← planPush m lkey
      pure (.started (if m.dir = "load" then .write else .read) groups)

/-! ### What is planned -/

theorem toUInt_eq_ok {bits : ℕ} {x : ℤ} {n : ℕ} (h : toUInt bits x = .ok n) :
    (n : ℤ) = x ∧ n < 2 ^ bits := by
  unfold toUInt at h
  split_ifs at h with hx
  obtain rfl := ok.inj h
  have hcast : ((2 ^ bits : ℕ) : ℤ) = 2 ^ bits := by norm_num
  omega

/-- Every value of a list that converts is the natural number it is. -/
theorem mapM_toUInt_eq_ok {bits : ℕ} {xs : List ℤ} {ns : List ℕ}
    (h : xs.mapM (toUInt bits) = .ok ns) : ns.map (fun n : ℕ => (n : ℤ)) = xs := by
  induction xs generalizing ns with
  | nil =>
    obtain rfl := ok.inj h
    rfl
  | cons x xs ih =>
    rw [mapM_cons, bind_eq_ok] at h
    obtain ⟨n, hn, h⟩ := h
    obtain ⟨rest, hrest, h⟩ := bind_eq_ok.mp h
    obtain rfl := ok.inj h
    rw [map_cons, (toUInt_eq_ok hn).1, ih hrest]

theorem arange_eq_ok {l0 l1 : ℤ} {a b : ℕ} (h : arange l0 l1 = .ok (a, b)) :
    (l1 ≤ l0 ∧ a = 0 ∧ b = 0) ∨ (l0 < l1 ∧ (a : ℤ) = l0 ∧ (b : ℤ) = l1) := by
  unfold arange at h
  split_ifs at h with hle
  · obtain ⟨rfl, rfl⟩ := Prod.mk.inj (ok.inj h)
    exact Or.inl ⟨hle, rfl, rfl⟩
  · obtain ⟨n, hn, h⟩ := bind_eq_ok.mp h
    obtain ⟨_, _, h⟩ := bind_eq_ok.mp h
    obtain ⟨rfl, rfl⟩ := Prod.mk.inj (ok.inj h)
    have hcast := (toUInt_eq_ok hn).1
    exact Or.inr ⟨by omega, hcast, by omega⟩

/-- Grouping does not change which operations there are. -/
theorem forall_mem_grouped {α : Type} {byLayer : Bool} {groups : List (List α)} {P : α → Prop} :
    (∀ g ∈ if byLayer then groups else [groups.flatten], ∀ op ∈ g, P op) ↔
      ∀ g ∈ groups, ∀ op ∈ g, P op := by
  cases byLayer with
  | true => rfl
  | false =>
    simp only [Bool.false_eq_true, if_false, mem_singleton, forall_eq, mem_flatten,
      forall_exists_index, and_imp]
    exact ⟨fun h g hg op hop => h op g hg hop, fun h op g hg hop => h g hg op hop⟩

variable {groups : List (List RdmaOp)}

/-- The operations of a plan on the poster's side, by layer and entry. -/
theorem forall_planOps_iff {geom : ChunkGeometry} {base key : ℕ} {entries : List ℕ} {entryKey : ℕ}
    {layerGroups : Bool} {chunks : Option (List ℕ)} {nStaging : Option ℕ} {a b : ℕ}
    (h : planOps geom base key entries entryKey layerGroups false chunks nStaging (some (a, b)) =
      .ok groups) (P : ℕ → ℕ → Prop) :
    (∀ g ∈ groups, ∀ op ∈ g, P op.laddr op.len) ↔
      ∀ e ∈ entries, ∀ lay, a ≤ lay → lay < b → P (wrap64 (e + lay * geom.layerBytes))
        geom.layerBytes := by
  unfold planOps at h
  simp only [Option.getD_some] at h
  rw [ite_eq_iff] at h
  obtain ⟨_, h⟩ := h.resolve_left (by simp)
  rw [ite_eq_iff] at h
  obtain ⟨_, h⟩ := h.resolve_left (by simp)
  rw [ite_eq_iff] at h
  obtain ⟨_, h⟩ := h.resolve_left (by simp)
  -- the checks have passed, so there is a plan
  obtain rfl := ok.inj h
  rw [forall_mem_grouped]
  simp only [forall_mem_map, layerOp, Bool.false_eq_true, if_false]
  constructor
  · intro hall e he lay hlo hhi
    obtain ⟨i, hi, rfl⟩ := getElem_of_mem he
    have hop := hall lay (mem_range'_1.mpr ⟨hlo, by omega⟩) i (mem_range.mpr hi)
    rwa [getD_eq_getElem _ _ hi] at hop
  · intro hall lay hlay i hi
    have hi' := mem_range.mp hi
    obtain ⟨hlo, hhi⟩ := mem_range'_1.mp hlay
    rw [getD_eq_getElem _ _ hi']
    exact hall _ (getElem_mem hi') lay hlo (by omega)

/-- The operations of a request's plan on the server's side, by layer and entry. -/
theorem forall_planPush_iff {m : PushRequest} {lkey : ℕ} {l0 l1 : ℤ}
    (h : planPush m lkey = .ok groups) (hrange : m.range = .ok (l0, l1)) (P : ℕ → ℕ → Prop) :
    ∃ a b S : ℕ, (l0 < l1 → (a : ℤ) = l0 ∧ (b : ℤ) = l1) ∧ (S : ℤ) = m.layerBytes ∧
      ((∀ g ∈ groups, ∀ op ∈ g, P op.laddr op.len) ↔
        (l0 < l1 → ∀ e ∈ m.entries, ∀ lay, a ≤ lay → lay < b →
          P (wrap64 (e.toNat + lay * S)) S)) := by
  obtain ⟨ent, hent, h⟩ := bind_eq_ok.mp h
  obtain ⟨pos, -, h⟩ := bind_eq_ok.mp h
  obtain ⟨nStage, -, h⟩ := bind_eq_ok.mp h
  obtain ⟨layers, hlayers, h⟩ := bind_eq_ok.mp h
  obtain rfl : (l0, l1) = layers := ok.inj (hrange.symm.trans hlayers)
  obtain ⟨⟨a, b⟩, harange, h⟩ := bind_eq_ok.mp h
  obtain ⟨_, -, h⟩ := bind_eq_ok.mp h
  obtain ⟨base, -, h⟩ := bind_eq_ok.mp h
  obtain ⟨rkey, -, h⟩ := bind_eq_ok.mp h
  obtain ⟨S, hS, h⟩ := bind_eq_ok.mp h
  have hlist := mapM_toUInt_eq_ok hent
  rw [forall_planOps_iff h P, ← hlist]
  simp only [forall_mem_map, Int.toNat_natCast]
  refine ⟨a, b, S, ?_, (toUInt_eq_ok hS).1, ?_⟩
  · intro hlt
    rcases arange_eq_ok harange with ⟨hle, -⟩ | ⟨-, hends⟩
    · omega
    · exact hends
  · rcases arange_eq_ok harange with ⟨hle, rfl, rfl⟩ | ⟨hlt, -⟩
    · -- no layers, no operations
      exact ⟨fun _ hlt => absurd hlt (by omega),
        fun _ e _ lay _ hlay => absurd hlay (Nat.not_lt_zero lay)⟩
    · exact ⟨fun hall _ => hall, fun hall => hall hlt⟩

/-! ### Staying in the pool -/

/-- Pieces of `S` bytes, one after the other, each at its address modulo `2 ^ 64`, lie in the
pool exactly when the whole does from the address of the first. -/
theorem Pool.contains_pieces_iff (pool : Pool) {x S : ℕ} :
    ∀ {k : ℕ}, 0 < k → ((∀ i < k, pool.Contains (wrap64 (x + i * S)) S) ↔
      pool.Contains (wrap64 x) (k * S)) := by
  have hfits := pool.fits
  -- where the pieces so far end within the pool, no address has wrapped
  have hstep : ∀ i, wrap64 x + i * S ≤ pool.addr + pool.length →
      wrap64 (x + i * S) = wrap64 x + i * S := by
    intro i hi
    unfold wrap64 at hi ⊢
    rw [Nat.add_mod, Nat.mod_eq_of_lt (show i * S < 2 ^ 64 by omega)]
    exact Nat.mod_eq_of_lt (by omega)
  intro k hk
  constructor
  · intro hall
    have hfirst := hall 0 hk
    rw [Nat.zero_mul, Nat.add_zero] at hfirst
    refine ⟨hfirst.1, ?_⟩
    -- the end moves from piece to piece
    have hends : ∀ n ≤ k, wrap64 x + n * S ≤ pool.addr + pool.length := by
      intro n
      induction n with
      | zero =>
        intro _
        rw [Nat.zero_mul]
        exact le_trans (Nat.add_le_add_left (Nat.zero_le S) _) hfirst.2
      | succ n ih =>
        intro hn
        have hpiece := (hall n hn).2
        rw [hstep n (ih (Nat.le_of_succ_le hn))] at hpiece
        rw [Nat.succ_mul]
        omega
    exact hends k (le_refl k)
  · rintro ⟨hlo, hhi⟩ i hi
    have hle : (i + 1) * S ≤ k * S := Nat.mul_le_mul_right S hi
    rw [Nat.succ_mul] at hle
    rw [hstep i (by omega)]
    exact ⟨by omega, by omega⟩

/-- The layers of an entry at `e`, from `a` on and below `b`, are such pieces. -/
theorem Pool.contains_layers_iff (pool : Pool) {e a b S : ℕ} (hab : a < b) :
    (∀ lay, a ≤ lay → lay < b → pool.Contains (wrap64 (e + lay * S)) S) ↔
      pool.Contains (wrap64 (e + a * S)) ((b - a) * S) := by
  rw [← pool.contains_pieces_iff (by omega)]
  constructor
  · intro hall i hi
    have hpiece := hall (a + i) (by omega) (by omega)
    rwa [Nat.add_mul, ← Nat.add_assoc] at hpiece
  · intro hall lay hlo hhi
    have hpiece := hall (lay - a) (by omega)
    rwa [Nat.add_assoc, ← Nat.add_mul, Nat.add_sub_cancel' hlo] at hpiece

/-- What an accepted request has passed. -/
theorem startPush_eq_started {pool : Pool} {lkey : Option ℕ} {m : PushRequest} {opcode : Opcode}
    (h : startPush pool lkey m = .ok (.started opcode groups)) :
    ∃ key, planPush m key = .ok groups ∧
      ∀ e ∈ m.entries, pool.addr ≤ e ∧ e + m.entryBytes ≤ pool.addr + pool.length := by
  unfold startPush at h
  cases lkey with
  | none => cases h
  | some key =>
    cases hfind : m.entries.find? fun a => !pool.inPool a m.entryBytes with
    | some a =>
      rw [hfind] at h
      cases h
    | none =>
      rw [hfind] at h
      obtain ⟨groups', hplan, h⟩ := bind_eq_ok.mp h
      obtain ⟨-, rfl⟩ := PushReply.started.inj (ok.inj h)
      refine ⟨key, hplan, fun e he => ?_⟩
      have hin := List.find?_eq_none.mp hfind e he
      simpa [Pool.inPool] using hin

/-- The request's own layers of an entry are in the pool, as the server has checked: so are
those of any range of them. -/
theorem Pool.contains_of_le (pool : Pool) {e S l0 l1 L : ℤ} (hS : 0 ≤ S) (hl0 : 0 ≤ l0)
    (hlt : l0 < l1) (hl1 : l1 ≤ L) (hlo : pool.addr ≤ e)
    (hhi : e + L * S ≤ pool.addr + pool.length) :
    pool.addr ≤ (e + l0 * S) % 2 ^ 64 ∧
      (e + l0 * S) % 2 ^ 64 + (l1 - l0) * S ≤ pool.addr + pool.length := by
  have hfits := pool.fits
  have hstart : 0 ≤ l0 * S := Int.mul_nonneg hl0 hS
  have hmiddle : l0 * S ≤ l1 * S := Int.mul_le_mul_of_nonneg_right hlt.le hS
  have hend : l1 * S ≤ L * S := Int.mul_le_mul_of_nonneg_right hl1 hS
  rw [Int.emod_eq_of_lt (by omega) (by omega), Int.sub_mul]
  omega

/-- **When a server-driven transfer stays in the pool.** The operations of an accepted
request lie in the pool exactly when, for each entry, the range from the address of the
first layer the request names, modulo `2 ^ 64`, over all the layers it names, does. They do
when the layers it names are layers of the entries. -/
theorem push_in_pool_iff {pool : Pool} {lkey : Option ℕ} {m : PushRequest} {opcode : Opcode}
    {groups : List (List RdmaOp)} {l0 l1 : ℤ}
    (h : startPush pool lkey m = .ok (.started opcode groups)) (hrange : m.range = .ok (l0, l1)) :
    ((∀ g ∈ groups, ∀ op ∈ g, pool.Contains op.laddr op.len) ↔
      (l0 < l1 → ∀ e ∈ m.entries,
        pool.addr ≤ (e + l0 * m.layerBytes) % 2 ^ 64 ∧
          (e + l0 * m.layerBytes) % 2 ^ 64 + (l1 - l0) * m.layerBytes ≤
            pool.addr + pool.length)) ∧
    (0 ≤ l0 → l1 ≤ m.numLayers → ∀ g ∈ groups, ∀ op ∈ g, pool.Contains op.laddr op.len) := by
  obtain ⟨key, hplan, hchecked⟩ := startPush_eq_started h
  obtain ⟨a, b, S, hends, hS, hiff⟩ := forall_planPush_iff hplan hrange pool.Contains
  have hmain : (∀ g ∈ groups, ∀ op ∈ g, pool.Contains op.laddr op.len) ↔
      (l0 < l1 → ∀ e ∈ m.entries,
        pool.addr ≤ (e + l0 * m.layerBytes) % 2 ^ 64 ∧
          (e + l0 * m.layerBytes) % 2 ^ 64 + (l1 - l0) * m.layerBytes ≤
            pool.addr + pool.length) := by
    rw [hiff]
    refine forall_congr' fun hlt => forall₂_congr fun e he => ?_
    obtain ⟨rfl, rfl⟩ := hends hlt
    have hab : a < b := by omega
    rw [pool.contains_layers_iff hab]
    -- the same range, in the integers of the request
    have hfirst : (e + a * m.layerBytes) % 2 ^ 64 = (wrap64 (e.toNat + a * S) : ℕ) := by
      have hnonneg := (hchecked e he).1
      unfold wrap64
      push_cast
      rw [Int.toNat_of_nonneg (by omega), hS]
    have hsize : ((b : ℤ) - a) * m.layerBytes = ((b - a) * S : ℕ) := by
      rw [← hS]
      push_cast [hab.le]
      rfl
    rw [hfirst, hsize]
    norm_cast
  refine ⟨hmain, fun hl0 hl1 => hmain.mpr fun hlt e he => ?_⟩
  obtain ⟨hlo, hhi⟩ := hchecked e he
  exact pool.contains_of_le (hS ▸ Int.natCast_nonneg S) hl0 hlt hl1 hlo hhi

/-- A pool of 100 bytes. -/
def samplePool : Pool := ⟨1000, 100, by decide⟩

/-- A request for one entry of two layers, of the given range of layers. -/
def samplePush (layers : Option (List ℤ)) : PushRequest :=
  ⟨"load", 2, 10, [1000], 5000, 7, false, none, none, layers⟩

/-- The plan of the sample request for one layer at the given address. -/
def sampleGroups (laddr raddr : ℕ) : List (List RdmaOp) := [[⟨laddr, raddr, 3, 7, 10⟩]]

theorem push_in_pool_of_second_layer :
    startPush samplePool (some 3) (samplePush (some [1, 2])) =
      .ok (.started .write (sampleGroups 1010 5010)) ∧
    ∀ g ∈ sampleGroups 1010 5010, ∀ op ∈ g, samplePool.Contains op.laddr op.len :=
  ⟨rfl, (@push_in_pool_iff samplePool (some 3) (samplePush (some [1, 2])) .write
    (sampleGroups 1010 5010) 1 2 rfl rfl).2 (by decide) (by decide)⟩

/-- A request for a layer that the entry does not have is accepted, and reads beyond the
pool. -/
theorem push_outside_pool_of_twelfth_layer :
    startPush samplePool (some 3) (samplePush (some [11, 12])) =
      .ok (.started .write (sampleGroups 1110 5110)) ∧
    ¬ ∀ g ∈ sampleGroups 1110 5110, ∀ op ∈ g, samplePool.Contains op.laddr op.len := by
  refine ⟨rfl, fun hall => ?_⟩
  have hop := hall _ (mem_singleton_self _) _ (mem_singleton_self _)
  exact absurd hop.2 (by decide)

end CacheFlow
