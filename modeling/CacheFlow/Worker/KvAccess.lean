import CacheFlow.Lib.Exec
import CacheFlow.Lib.Index
import CacheFlow.Lib.Memory

/-!
# Gather and scatter

`kv_access.py`: the KV cache of a layer is a tensor in one of three layouts, and tokens
are addressed by a block and an offset in it. `gather` puts the elements of some chunks
into a staging region, `scatter` puts elements from a staging region into the cache.

A tensor is a function from coordinates to elements, and an element is its bytes. A
staging region for one layer is viewed as `(n, planes, C, F)`, row by row: chunk after
chunk, in it plane after plane, in it token after token.

## Main results

* `KVAccessor.slot?_index`, `KVAccessor.index_of_slot?` — coordinates and elements correspond.
* `KVAccessor.chunkBytes_pos`, `KVAccessor.scatter_index` — what `gather` and `scatter` write.
-/

namespace CacheFlow

open List

/-- The layouts of a layer of the KV cache. -/
inductive KVKind where
  /-- `(2, num_blocks, B, H, D)`. -/
  | kvFirst : KVKind
  /-- `(num_blocks, 2, B, H, D)`. -/
  | blocksFirst : KVKind
  /-- `(num_blocks, B, D)`. -/
  | mla : KVKind
  deriving DecidableEq, Repr

/-- How the elements of a token are found. -/
structure KVAccessor where
  kind : KVKind
  /-- Keys and values, or the one latent plane. -/
  planes : ℕ
  /-- The shape of a token in a plane. -/
  headShape : List ℕ
  elem : ℕ
  elem_pos : 0 < elem
  /-- The latent layout has one plane, the others have two. -/
  planes_eq : planes = if kind = .mla then 1 else 2

theorem KVKind.kvFirst_planes : 2 = if KVKind.kvFirst = .mla then 1 else 2 := rfl

/-- A layer of the KV cache: the bytes of the element at each coordinates. -/
abbrev KVTensor (β : Type) (elem : ℕ) := List ℕ → Fin elem → β

namespace KVAccessor

variable (a : KVAccessor)

/-- Elements of a token in a plane. -/
def feat : ℕ := a.headShape.prod

/-- Bytes of a token in a layer, all planes. -/
def tokenBytes : ℕ := a.planes * a.feat * a.elem

/-- The coordinates of feature `f` of plane `p` of the token at offset `o` of block `b`. -/
def index (p b o f : ℕ) : List ℕ :=
  match a.kind with
  | .kvFirst => p :: b :: o :: unravel a.headShape f
  | .blocksFirst => b :: p :: o :: unravel a.headShape f
  | .mla => b :: o :: unravel a.headShape f

/-- The plane, block, offset and feature that coordinates stand for. -/
def slot? (idx : List ℕ) : Option (ℕ × ℕ × ℕ × ℕ) :=
  match a.kind, idx with
  | .kvFirst, p :: b :: o :: is =>
      if p < a.planes then (ravel a.headShape is).map fun f => (p, b, o, f) else none
  | .blocksFirst, b :: p :: o :: is =>
      if p < a.planes then (ravel a.headShape is).map fun f => (p, b, o, f) else none
  | .mla, b :: o :: is => (ravel a.headShape is).map fun f => (0, b, o, f)
  | _, _ => none

variable {a}

theorem slot?_index {p f : ℕ} (hp : p < a.planes) (hf : f < a.feat) (b o : ℕ) :
    a.slot? (a.index p b o f) = some (p, b, o, f) := by
  have hravel : ravel a.headShape (unravel a.headShape f) = some f := ravel_unravel _ hf
  have hplanes := a.planes_eq
  unfold slot? index
  cases hkind : a.kind with
  | kvFirst => simp [hp, hravel]
  | blocksFirst => simp [hp, hravel]
  | mla =>
    rw [hkind, if_pos rfl] at hplanes
    have hzero : p = 0 := by omega
    simp [hravel, hzero]

theorem of_map_ravel {is : List ℕ} {q r : ℕ × ℕ × ℕ} {f : ℕ}
    (h : ((ravel a.headShape is).map fun f => (q.1, q.2.1, q.2.2, f)) = some (r.1, r.2.1, r.2.2, f)) :
    q = r ∧ unravel a.headShape f = is ∧ f < a.feat := by
  obtain ⟨g, hg, heq⟩ := Option.map_eq_some_iff.mp h
  simp only [Prod.mk.injEq] at heq
  obtain ⟨h₁, h₂, h₃, rfl⟩ := heq
  exact ⟨Prod.ext h₁ (Prod.ext h₂ h₃), unravel_of_ravel hg⟩

theorem index_of_slot? {idx : List ℕ} {p b o f : ℕ} (h : a.slot? idx = some (p, b, o, f)) :
    idx = a.index p b o f ∧ p < a.planes ∧ f < a.feat := by
  have hplanes := a.planes_eq
  unfold slot? at h
  unfold index
  cases hkind : a.kind with
  | kvFirst =>
    rw [hkind] at h
    match idx, h with
    | p' :: b' :: o' :: is, h =>
      dsimp only at h ⊢
      split_ifs at h with hp
      obtain ⟨hq, hun, hlt⟩ := of_map_ravel (q := (p', b', o')) (r := (p, b, o)) h
      cases hq
      exact ⟨by rw [hun], hp, hlt⟩
  | blocksFirst =>
    rw [hkind] at h
    match idx, h with
    | b' :: p' :: o' :: is, h =>
      dsimp only at h ⊢
      split_ifs at h with hp
      obtain ⟨hq, hun, hlt⟩ := of_map_ravel (q := (p', b', o')) (r := (p, b, o)) h
      cases hq
      exact ⟨by rw [hun], hp, hlt⟩
  | mla =>
    rw [hkind] at h
    match idx, h with
    | b' :: o' :: is, h =>
      obtain ⟨hq, hun, hlt⟩ := of_map_ravel (q := (0, b', o')) (r := (p, b, o)) h
      cases hq
      refine ⟨by rw [hun], ?_, hlt⟩
      -- there is one plane only
      rw [hkind, if_pos rfl] at hplanes
      omega

/-! ### Gather -/

section Gather

variable {β : Type} (a) (C : ℕ)

/-- The bytes of one chunk of a layer: plane after plane, token after token. `slot j`
is the block and offset of token `j` of the chunk. -/
def chunkBytes (kv : KVTensor β a.elem) (slot : ℕ → ℕ × ℕ) (r : ℕ) : β :=
  let e := r / a.elem
  let j := e / a.feat % C
  kv (a.index (e / a.feat / C) (slot j).1 (slot j).2 (e % a.feat)) ⟨r % a.elem, Nat.mod_lt r a.elem_pos⟩

/-- Where byte `b` of feature `f` of plane `p` of token `j` is in a chunk. -/
def chunkPos (p j f b : ℕ) : ℕ := pair (pair (pair p C j) a.feat f) a.elem b

/-- `gather` of one layer of `n` chunks into a staging region: `slot i j` is the block
and offset of token `j` of chunk `i`. -/
def gather (kv : KVTensor β a.elem) (slot : ℕ → ℕ → ℕ × ℕ) (n : ℕ) (m : Mem β) (base : ℕ) : Mem β :=
  let S := C * a.tokenBytes
  fill m base (n * S) fun r => a.chunkBytes C kv (slot (r / S)) (r % S)

variable {a C}

theorem chunkPos_lt {p j f b : ℕ} (hp : p < a.planes) (hj : j < C) (hf : f < a.feat)
    (hb : b < a.elem) : a.chunkPos C p j f b < C * a.tokenBytes := by
  have h := pair_lt (pair_lt (pair_lt hp hj) hf) hb
  calc pair (pair (pair p C j) a.feat f) a.elem b < a.planes * C * a.feat * a.elem := h
    _ = C * (a.planes * a.feat * a.elem) := by ring

/-- **Where an element is put.** -/
theorem chunkBytes_pos {p j f : ℕ} (hj : j < C) (hf : f < a.feat) (b : Fin a.elem)
    (kv : KVTensor β a.elem) (slot : ℕ → ℕ × ℕ) :
    a.chunkBytes C kv slot (a.chunkPos C p j f b) = kv (a.index p (slot j).1 (slot j).2 f) b := by
  have hb := b.isLt
  simp only [chunkBytes, chunkPos, pair_div hb, pair_mod hb, pair_div hf, pair_mod hf, pair_div hj,
    pair_mod hj]

/-- After `gather`, the piece of staging of each chunk holds its bytes. -/
theorem holdsAt_gather {i n : ℕ} (hi : i < n) (hpos : 0 < C * a.tokenBytes) (kv : KVTensor β a.elem)
    (slot : ℕ → ℕ → ℕ × ℕ) (m : Mem β) (base : ℕ) :
    HoldsAt (a.gather C kv slot n m base) (base + i * (C * a.tokenBytes)) (C * a.tokenBytes)
      (a.chunkBytes C kv (slot i)) := by
  have hle : (i + 1) * (C * a.tokenBytes) ≤ n * (C * a.tokenBytes) := Nat.mul_le_mul_right _ hi
  rw [Nat.succ_mul] at hle
  intro r hr
  have hsub := (holdsAt_fill m base (n * (C * a.tokenBytes)) fun r =>
    a.chunkBytes C kv (slot (r / (C * a.tokenBytes))) (r % (C * a.tokenBytes))).sub hle r hr
  rw [gather, hsub]
  dsimp only
  rw [Nat.mul_comm i, Nat.mul_add_div hpos, Nat.mul_add_mod, Nat.div_eq_of_lt hr,
    Nat.mod_eq_of_lt hr, Nat.add_zero]

theorem holdsAt_gather_of_disjoint {m : Mem β} {b len : ℕ} {c : ℕ → β} (h : HoldsAt m b len c)
    {n base : ℕ} (hdis : b + len ≤ base ∨ base + n * (C * a.tokenBytes) ≤ b)
    (kv : KVTensor β a.elem) (slot : ℕ → ℕ → ℕ × ℕ) :
    HoldsAt (a.gather C kv slot n m base) b len c := by
  rw [gather]
  exact h.fill_of_disjoint _ hdis

end Gather

/-! ### Scatter -/

section Scatter

variable {β : Type} (a)

/-- `scatter` of `T` tokens: token `x` goes to block and offset `slot x`, and
`src p x f` is its element. Where two tokens have one slot, the later one is kept. -/
def scatter (kv : KVTensor β a.elem) (T : ℕ) (slot : ℕ → ℕ × ℕ)
    (src : ℕ → ℕ → ℕ → Fin a.elem → β) : KVTensor β a.elem := fun idx =>
  match a.slot? idx with
  | none => kv idx
  | some (p, b, o, f) =>
    match (List.range T).reverse.find? fun x => slot x = (b, o) with
    | none => kv idx
    | some x => src p x f

variable {a} {kv : KVTensor β a.elem} {T : ℕ} {slot : ℕ → ℕ × ℕ}
  {src : ℕ → ℕ → ℕ → Fin a.elem → β}

/-- A token whose slot no other token has is written. -/
theorem scatter_index {x p f : ℕ} (hx : x < T) (hinj : ∀ y < T, slot y = slot x → y = x)
    (hp : p < a.planes) (hf : f < a.feat) :
    a.scatter kv T slot src (a.index p (slot x).1 (slot x).2 f) = src p x f := by
  have hfind : (List.range T).reverse.find? (fun y => slot y = slot x) = some x := by
    cases hres : (List.range T).reverse.find? fun y => slot y = slot x with
    | none =>
      have hno := List.find?_eq_none.mp hres x (mem_reverse.mpr (mem_range.mpr hx))
      simp at hno
    | some y =>
      have hy := mem_range.mp (mem_reverse.mp (mem_of_find?_eq_some hres))
      have hslot := List.find?_some hres
      rw [hinj y hy (by simpa using hslot)]
  simp only [scatter, slot?_index hp hf, Prod.mk.eta, hfind]

theorem scatter_congr {src' : ℕ → ℕ → ℕ → Fin a.elem → β}
    (h : ∀ p < a.planes, ∀ x < T, ∀ f < a.feat, src p x f = src' p x f) :
    a.scatter kv T slot src = a.scatter kv T slot src' := by
  funext idx
  unfold scatter
  cases hslot : a.slot? idx with
  | none => rfl
  | some q =>
    obtain ⟨p, b, o, f⟩ := q
    obtain ⟨-, hp, hf⟩ := index_of_slot? hslot
    dsimp only
    cases hres : (List.range T).reverse.find? fun x => slot x = (b, o) with
    | none => rfl
    | some x =>
      have hx := mem_range.mp (mem_reverse.mp (mem_of_find?_eq_some hres))
      exact h p hp x hx f hf

theorem scatter_of_ne {idx : List ℕ}
    (h : ∀ x < T, ∀ p < a.planes, ∀ f < a.feat, idx ≠ a.index p (slot x).1 (slot x).2 f) :
    a.scatter kv T slot src idx = kv idx := by
  unfold scatter
  cases hslot : a.slot? idx with
  | none => rfl
  | some q =>
    obtain ⟨p, b, o, f⟩ := q
    obtain ⟨hidx, hp, hf⟩ := index_of_slot? hslot
    dsimp only
    cases hres : (List.range T).reverse.find? fun x => slot x = (b, o) with
    | none => rfl
    | some x =>
      have hx := mem_range.mp (mem_reverse.mp (mem_of_find?_eq_some hres))
      have hslot' : slot x = (b, o) := by simpa using List.find?_some hres
      refine absurd ?_ (h x hx p hp f hf)
      rw [hslot']
      exact hidx

end Scatter

end KVAccessor

end CacheFlow
