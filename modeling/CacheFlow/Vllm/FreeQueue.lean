import CacheFlow.Lib.Linked
import CacheFlow.Lib.Returns

/-!
# The queue of free blocks

`FreeKVCacheBlockQueue` keeps the free blocks of the pool in a doubly linked list between
two sentinels, so that a block in the middle can be removed at once. The links are
attributes of the blocks, and a counter is kept beside them.

The queue holds a list of blocks when the links run through exactly this list and the
counter is its length.

## Main results

* `FreeKVCacheBlockQueue.popleft_returns`, `FreeKVCacheBlockQueue.remove_returns`, … — the methods.
* `FreeKVCacheBlockQueue.refines_list` — calls in sequence are operations on a list.
-/

namespace CacheFlow

/-- The exceptions of the block manager. -/
inductive VllmErr where
  | assertionError : VllmErr
  | indexError : VllmErr
  /-- A `ValueError`. -/
  | valueError : VllmErr
  /-- A `RuntimeError`. -/
  | runtimeError : VllmErr
  deriving DecidableEq, Repr

/-- The nodes of the queue: the blocks and the two sentinels. -/
inductive FreeNode where
  /-- `fake_free_list_head`. -/
  | head : FreeNode
  /-- `fake_free_list_tail`. -/
  | tail : FreeNode
  /-- The block with this id. -/
  | block : ℕ → FreeNode
  deriving DecidableEq, Repr

/-- `FreeKVCacheBlockQueue`. -/
structure FreeKVCacheBlockQueue where
  /-- `prev_free_block` and `next_free_block` of every node. -/
  links : Links FreeNode
  numFreeBlocks : ℤ

namespace FreeKVCacheBlockQueue

open FreeNode Links

/-- `__init__`: the blocks from `0` on, in this order. -/
def new (n : ℕ) : FreeKVCacheBlockQueue where
  links :=
    { next := fun
        | head => some (if 0 < n then block 0 else tail)
        | block i => if i + 1 < n then some (block (i + 1)) else if i + 1 = n then some tail else none
        | tail => none
      prev := fun
        | head => none
        | block i => if n ≤ i then none else if i = 0 then some head else some (block (i - 1))
        | tail => some (if 0 < n then block (n - 1) else head) }
  numFreeBlocks := n

/-- `popleft`. -/
def popleft (q : FreeKVCacheBlockQueue) : Except VllmErr (ℕ × FreeKVCacheBlockQueue) :=
  match q.links.next head with
  | some (block i) =>
    match q.links.next (block i) with
    | none => .error .runtimeError
    | some second => .ok (i, ⟨(q.links.join head second).clear (block i), q.numFreeBlocks - 1⟩)
  | _ => .error (if q.numFreeBlocks = 0 then .valueError else .assertionError)

/-- The loop of `popleft_n`: the popped blocks, the links and the node it stops at. Were it to
reach a sentinel, the source would hand that out as a block. -/
def popLoop : ℕ → Links FreeNode → Option FreeNode →
    Except VllmErr (List ℕ × Links FreeNode × Option FreeNode)
  | 0, links, curr => .ok ([], links, curr)
  | n + 1, links, curr =>
    match curr with
    | some (block i) => do
      let (ret, links, curr) ← popLoop n (links.clear (block i)) (links.next (block i))
      pure (i :: ret, links, curr)
    | some _ => .error .runtimeError
    | none => .error .assertionError

/-- `popleft_n`. -/
def popleftN (q : FreeKVCacheBlockQueue) (n : ℤ) : Except VllmErr (List ℕ × FreeKVCacheBlockQueue) :=
  if n = 0 then .ok ([], q)
  else if q.numFreeBlocks < n then .error .assertionError
  else do
    let (ret, links, curr) ← popLoop n.toNat q.links (q.links.next head)
    match curr with
    | some node => pure (ret, ⟨links.join head node, q.numFreeBlocks - n⟩)
    | none => pure (ret, ⟨links, q.numFreeBlocks - n⟩)

/-- `remove`. -/
def remove (q : FreeKVCacheBlockQueue) (i : ℕ) : Except VllmErr FreeKVCacheBlockQueue :=
  match q.links.prev (block i), q.links.next (block i) with
  | some a, some b => .ok ⟨(q.links.join a b).clear (block i), q.numFreeBlocks - 1⟩
  | _, _ => .error .runtimeError

/-- `append`. -/
def append (q : FreeKVCacheBlockQueue) (i : ℕ) : Except VllmErr FreeKVCacheBlockQueue :=
  match q.links.prev tail with
  | none => .error .runtimeError
  | some last => .ok ⟨(q.links.join last (block i)).join (block i) tail, q.numFreeBlocks + 1⟩

/-- The loop of `append_n`: link the blocks after `last`, one by one. -/
def appendLoop : Links FreeNode → FreeNode → List ℕ → Links FreeNode × FreeNode
  | links, last, [] => (links, last)
  | links, last, i :: is => appendLoop (links.join last (block i)) (block i) is

/-- `append_n`. -/
def appendN (q : FreeKVCacheBlockQueue) (is : List ℕ) : Except VllmErr FreeKVCacheBlockQueue :=
  if is = [] then .ok q
  else
    match q.links.prev tail with
    | none => .error .assertionError
    | some last =>
      let (links, last) := appendLoop q.links last is
      .ok ⟨links.join last tail, q.numFreeBlocks + is.length⟩

/-- The walk of `get_all_free_blocks`, of at most so many steps. -/
def walk (links : Links FreeNode) : ℕ → Option FreeNode → List ℕ
  | n + 1, some (block i) => i :: walk links n (links.next (block i))
  | _, _ => []

/-- `get_all_free_blocks`. -/
def getAllFreeBlocks (q : FreeKVCacheBlockQueue) : List ℕ :=
  walk q.links q.numFreeBlocks.toNat (q.links.next head)

/-! ### The list a queue holds -/

/-- The nodes from sentinel to sentinel. -/
def nodes (l : List ℕ) : List FreeNode := head :: (l.map block ++ [tail])

/-- The queue holds these blocks, in this order. -/
structure Holds (q : FreeKVCacheBlockQueue) (l : List ℕ) : Prop where
  linked : q.links.Linked (nodes l)
  nodup : l.Nodup
  num : q.numFreeBlocks = l.length

theorem block_injective : Function.Injective block := fun _ _ h => FreeNode.block.inj h

theorem nodup_nodes {l : List ℕ} (h : l.Nodup) : (nodes l).Nodup := by
  refine List.nodup_cons.mpr ⟨by simp, List.nodup_append.mpr ⟨h.map block_injective, by simp, ?_⟩⟩
  intro a ha b hb
  obtain ⟨i, -, rfl⟩ := List.mem_map.mp ha
  rw [List.mem_singleton.mp hb]
  exact FreeNode.noConfusion

variable {q : FreeKVCacheBlockQueue} {l is : List ℕ} {i : ℕ}

theorem Holds.next_head (h : q.Holds l) : q.links.next head = ((l.map block ++ [tail]).head?) := by
  have hlinked := h.linked
  cases l with
  | nil => exact (linked_cons_cons.mp hlinked).1.1
  | cons i l => exact (linked_cons_cons.mp hlinked).1.1

theorem walk_eq {links : Links FreeNode} {l : List ℕ} {node : FreeNode}
    (h : links.Linked (node :: (l.map block ++ [tail]))) :
    walk links l.length (links.next node) = l := by
  induction l generalizing node with
  | nil =>
    rw [List.length_nil, walk]
    simp
  | cons i l ih =>
    rw [List.map_cons, List.cons_append, linked_cons_cons] at h
    rw [List.length_cons, h.1.1, walk, ih h.2]

theorem Holds.getAllFreeBlocks_eq (h : q.Holds l) : q.getAllFreeBlocks = l := by
  rw [getAllFreeBlocks, h.num, Int.toNat_natCast]
  exact walk_eq h.linked

theorem holds_new (n : ℕ) : (new n).Holds (List.range n) := by
  refine ⟨?_, List.nodup_range, by simp [new]⟩
  -- the blocks from `k` on are linked up to the tail
  have hfrom : ∀ m k, k + m = n → 0 < m →
      (new n).links.Linked ((List.range' k m).map block ++ [tail]) := by
    intro m
    induction m with
    | zero => intro k _ hm; omega
    | succ m ih =>
      intro k hk _
      cases m with
      | zero =>
        refine linked_cons_cons.mpr ⟨⟨?_, ?_⟩, linked_singleton⟩
        · show (if k + 1 < n then _ else if k + 1 = n then some tail else none) = _
          rw [if_neg (by omega), if_pos (by omega)]
        · show some (if 0 < n then block (n - 1) else head) = _
          rw [if_pos (by omega)]
          congr 2
          omega
      | succ m =>
        have hrest := ih (k + 1) (by omega) (by omega)
        refine linked_cons_cons.mpr ⟨⟨?_, ?_⟩, hrest⟩
        · show (if k + 1 < n then _ else _) = _
          rw [if_pos (by omega)]
        · show (if n ≤ k + 1 then none else if k + 1 = 0 then some head else _) = _
          rw [if_neg (by omega), if_neg (by omega)]
          rfl
  cases n with
  | zero => exact linked_cons_cons.mpr ⟨⟨rfl, rfl⟩, linked_singleton⟩
  | succ n =>
    have hall := hfrom (n + 1) 0 (by omega) (by omega)
    rw [← List.range_eq_range'] at hall
    unfold nodes
    rw [List.range_succ_eq_map, List.map_cons, List.cons_append] at hall ⊢
    exact linked_cons_cons.mpr ⟨⟨rfl, rfl⟩, hall⟩

/-- **Removing** a block takes it out of the list. -/
theorem remove_returns (h : q.Holds l) (hi : i ∈ l) :
    Returns (q.remove i) fun q' => q'.Holds (l.erase i) ∧
      (q.links.Within (nodes l) → q'.links.Within (nodes (l.erase i))) := by
  obtain ⟨u, v, rfl⟩ := List.append_of_mem hi
  have hiu : i ∉ u := fun hmem =>
    (List.nodup_append.mp h.nodup).2.2 i hmem i List.mem_cons_self rfl
  -- the neighbours of the block, which may be the sentinels
  obtain ⟨u', a, hu⟩ : ∃ u' a, head :: u.map block = u' ++ [a] :=
    ⟨_, _, (List.dropLast_append_getLast (List.cons_ne_nil _ _)).symm⟩
  obtain ⟨b, v', hv⟩ : ∃ b v', v.map block ++ [tail] = b :: v' :=
    List.exists_cons_of_ne_nil (by simp)
  have hnodes : nodes (u ++ i :: v) = u' ++ a :: block i :: b :: v' := by
    rw [nodes, List.map_append, List.map_cons, List.append_assoc, List.cons_append, hv,
      ← List.cons_append, hu, List.append_assoc, List.singleton_append]
  have hnodes' : nodes (u ++ v) = u' ++ a :: b :: v' := by
    rw [nodes, List.map_append, List.append_assoc, hv, ← List.cons_append, hu, List.append_assoc,
      List.singleton_append]
  have hlinked := h.linked
  have hnd := nodup_nodes h.nodup
  rw [hnodes] at hlinked hnd
  have hsplit := hlinked
  rw [linked_append_cons, linked_cons_cons, linked_cons_cons] at hsplit
  obtain ⟨-, ⟨-, hprev⟩, ⟨hnext, -⟩, -⟩ := hsplit
  unfold remove
  rw [hprev, hnext, List.erase_append_right _ hiu, List.erase_cons_head]
  refine returns_ok.mpr ⟨⟨?_, h.nodup.sublist (List.sublist_cons_self i v |>.append_left u), ?_⟩, ?_⟩
  · rw [hnodes']
    exact hlinked.unlink hnd
  · show q.numFreeBlocks - 1 = _
    rw [h.num, List.length_append, List.length_append, List.length_cons]
    omega
  · rw [hnodes, hnodes']
    exact fun hw => (hw.join (by simp) (by simp)).clear (by grind)

theorem appendLoop_spec (is : List ℕ) (links : Links FreeNode) (u : List FreeNode)
    (last : FreeNode) (h : links.Linked (u ++ [last])) (hnd : (u ++ last :: is.map block).Nodup) :
    (appendLoop links last is).1.Linked (u ++ last :: is.map block) ∧
        (∃ u', u ++ last :: is.map block = u' ++ [(appendLoop links last is).2]) ∧
        ∀ w, links.Within w → last :: is.map block ⊆ w → (appendLoop links last is).1.Within w := by
  induction is generalizing links u last with
  | nil => exact ⟨h, ⟨u, rfl⟩, fun w hw _ => hw⟩
  | cons i is ih =>
    have hnd' : (u ++ last :: [block i]).Nodup := by
      refine hnd.sublist ?_
      exact (((List.nil_sublist _).cons_cons (block i)).cons_cons last).append_left u
    have hstep := ih (links.join last (block i)) (u ++ [last]) (block i)
      (by simpa using h.join_append linked_singleton hnd') (by simpa using hnd)
    refine ⟨by simpa [appendLoop] using hstep.1, by simpa [appendLoop] using hstep.2.1, ?_⟩
    intro w hw hsub
    rw [List.map_cons, List.cons_subset, List.cons_subset] at hsub
    exact hstep.2.2 w (hw.join hsub.1 hsub.2.1) (List.cons_subset.mpr hsub.2)

/-- **Appending** blocks puts them at the end. -/
theorem appendN_returns (h : q.Holds l) (hnd : (l ++ is).Nodup) :
    Returns (q.appendN is) fun q' => q'.Holds (l ++ is) ∧
      (q.links.Within (nodes l) → q'.links.Within (nodes (l ++ is))) := by
  unfold appendN
  split_ifs with his
  · rw [his, List.append_nil]
    exact returns_ok.mpr ⟨h, id⟩
  · -- the new blocks are linked behind the last node, a block or the head
    obtain ⟨u, last, hu⟩ : ∃ u last, head :: l.map block = u ++ [last] :=
      ⟨_, _, (List.dropLast_append_getLast (List.cons_ne_nil _ _)).symm⟩
    have hnodes : nodes (l ++ is) = u ++ last :: is.map block ++ [tail] := by
      rw [nodes, List.map_append, ← List.cons_append, ← List.cons_append, hu, List.append_assoc u,
        List.singleton_append]
    have hlinked := h.linked
    rw [nodes, ← List.cons_append, hu, List.append_assoc, List.singleton_append,
      linked_append_cons] at hlinked
    obtain ⟨hfront, hback⟩ := hlinked
    have hdistinct := nodup_nodes hnd
    rw [hnodes] at hdistinct
    rw [(linked_cons_cons.mp hback).1.2]
    have hnodes₀ : nodes l = u ++ last :: [tail] := by
      rw [nodes, ← List.cons_append, hu, List.append_assoc, List.singleton_append]
    obtain ⟨hloop, ⟨u', hend⟩, hin⟩ := appendLoop_spec is q.links u last hfront
      (hdistinct.sublist (List.sublist_append_left _ _))
    have hall := hin (nodes (l ++ is))
    rw [hend] at hloop hdistinct hnodes
    rw [List.append_assoc, List.singleton_append] at hdistinct hnodes
    refine returns_ok.mpr ⟨⟨?_, hnd, ?_⟩, fun hw => ?_⟩
    · rw [hnodes]
      exact hloop.join_append linked_singleton hdistinct
    · show q.numFreeBlocks + is.length = _
      rw [h.num, List.length_append]
      omega
    · refine (hall (fun x hx => hw x fun hmem => hx ?_) ?_).join ?_ ?_
      all_goals simp only [nodes] at *; grind

/-- `append` is `append_n` of one block. -/
theorem Holds.append_eq (h : q.Holds l) (hi : i ∉ l) : q.append i = q.appendN [i] := by
  obtain ⟨q', hok, -⟩ := appendN_returns h (h.nodup.append (List.nodup_singleton i) (by simpa))
  cases hlast : q.links.prev tail with
  | none => simp [appendN, hlast] at hok
  | some last => simp [append, appendN, hlast, appendLoop]

/-- The loop of `popleft_n` takes the blocks from the front and leaves the rest linked. -/
theorem popLoop_returns (is : List ℕ) (links : Links FreeNode) (c : FreeNode) (v : List FreeNode)
    (h : links.Linked (is.map block ++ c :: v)) (hnd : (is.map block ++ c :: v).Nodup) :
    Returns (popLoop is.length links (is.map block ++ c :: v).head?) fun x =>
        x.1 = is ∧ x.2.1.Linked (c :: v) ∧ x.2.2 = some c ∧
          ∀ w, links.Within (is.map block ++ w) → x.2.1.Within w := by
  induction is generalizing links c v with
  | nil => exact returns_ok.mpr ⟨rfl, h, rfl, fun w => id⟩
  | cons i is ih =>
    rw [List.map_cons, List.cons_append] at h hnd ⊢
    obtain ⟨hi, hrest⟩ := List.nodup_cons.mp hnd
    -- the node after the block is the first of the rest
    obtain ⟨b, w, hw⟩ : ∃ b w, is.map block ++ c :: v = b :: w :=
      List.exists_cons_of_ne_nil (by simp)
    have hnext : links.next (block i) = (is.map block ++ c :: v).head? := by
      rw [hw] at h ⊢
      exact (linked_cons_cons.mp h).1.1
    have hlinked : links.Linked (is.map block ++ c :: v) := by
      rw [hw] at h ⊢
      exact (linked_cons_cons.mp h).2
    show Returns (popLoop (is.length + 1) links (some (block i))) _
    rw [popLoop, returns_bind, hnext]
    refine (ih _ c v (hlinked.clear hi) hrest).mono fun x hx => returns_pure.mpr ?_
    exact ⟨congrArg (i :: ·) hx.1, hx.2.1, hx.2.2.1, fun w hw => hx.2.2.2 w (hw.clear (by simp))⟩

/-- **Popping** some blocks takes them from the front. -/
theorem popleftN_returns (h : q.Holds l) {n : ℕ} (hn : n ≤ l.length) :
    Returns (q.popleftN n) fun x => x.1 = l.take n ∧ x.2.Holds (l.drop n) ∧
      (q.links.Within (nodes l) → x.2.links.Within (nodes (l.drop n))) := by
  unfold popleftN
  split_ifs with h0 hlt
  · obtain rfl : n = 0 := by omega
    exact returns_ok.mpr ⟨rfl, h, id⟩
  · exact absurd hlt (by rw [h.num]; omega)
  · -- the node after the popped blocks becomes the first
    obtain ⟨c, v, hv⟩ : ∃ c v, (l.drop n).map block ++ [tail] = c :: v :=
      List.exists_cons_of_ne_nil (by simp)
    have hsplit : l.map block ++ [tail] = (l.take n).map block ++ c :: v := by
      rw [← hv, ← List.append_assoc, ← List.map_append, List.take_append_drop]
    have hlinked := h.linked
    have hnd := nodup_nodes h.nodup
    rw [nodes, hsplit] at hlinked hnd
    have htail : q.links.Linked ((l.take n).map block ++ c :: v) := by
      cases htake : (l.take n).map block with
      | nil => rw [htake] at hlinked; exact (linked_cons_cons.mp hlinked).2
      | cons a w => rw [htake] at hlinked; exact (linked_cons_cons.mp hlinked).2
    have hloop := popLoop_returns (l.take n) q.links c v htail (List.nodup_cons.mp hnd).2
    rw [List.length_take, Nat.min_eq_left hn, ← hsplit, ← h.next_head] at hloop
    rw [Int.toNat_natCast, returns_bind]
    refine hloop.mono ?_
    rintro ⟨ret, links, curr⟩ ⟨hret, hrest, rfl, hin⟩
    refine returns_pure.mpr ⟨hret, ⟨?_, h.nodup.sublist (List.drop_sublist n l), ?_⟩, fun hw => ?_⟩
    · rw [nodes, hv]
      refine Linked.join_append (u := []) linked_singleton hrest (hnd.sublist ?_)
      exact (List.sublist_append_right _ _).cons_cons head
    · show q.numFreeBlocks - n = _
      rw [h.num, List.length_drop]
      omega
    · rw [nodes, hv]
      rw [nodes, hsplit] at hw
      refine (hin _ fun x hx => hw x fun hmem => hx ?_).join (by simp) (by simp)
      grind

theorem popleft_returns (h : q.Holds (i :: l)) :
    Returns q.popleft fun x => x.1 = i ∧ x.2.Holds l ∧
      (q.links.Within (nodes (i :: l)) → x.2.links.Within (nodes l)) := by
  obtain ⟨b, v, hv⟩ : ∃ b v, l.map block ++ [tail] = b :: v := List.exists_cons_of_ne_nil (by simp)
  have hlinked := h.linked
  have hnd := nodup_nodes h.nodup
  rw [nodes, List.map_cons, List.cons_append, hv] at hlinked hnd
  have hsplit := hlinked
  rw [linked_cons_cons, linked_cons_cons] at hsplit
  obtain ⟨⟨hnext, -⟩, ⟨hnext', -⟩, -⟩ := hsplit
  unfold popleft
  rw [hnext]
  dsimp only
  rw [hnext']
  refine returns_ok.mpr ⟨rfl, ⟨?_, (List.nodup_cons.mp h.nodup).2, ?_⟩, ?_⟩
  · rw [nodes, hv]
    exact Linked.unlink (u := []) hlinked hnd
  · show q.numFreeBlocks - 1 = _
    rw [h.num, List.length_cons]
    omega
  · rw [nodes, nodes, List.map_cons, List.cons_append, hv]
    exact fun hw => (hw.join (by simp) (by simp)).clear (by grind)

end FreeKVCacheBlockQueue

/-! ### Sequences of calls -/

/-- A call of a method of the queue. -/
inductive FreeQueueOp where
  | popleft : FreeQueueOp
  | popleftN : ℕ → FreeQueueOp
  | remove : ℕ → FreeQueueOp
  | append : ℕ → FreeQueueOp
  | appendN : List ℕ → FreeQueueOp

/-- What the call stands for: the blocks handed out and those left, if its guard holds. -/
def FreeQueueOp.onList (l : List ℕ) : FreeQueueOp → Option (List ℕ × List ℕ)
  | popleft => if l = [] then none else some (l.take 1, l.drop 1)
  | popleftN n => if n ≤ l.length then some (l.take n, l.drop n) else none
  | remove i => if i ∈ l then some ([], l.erase i) else none
  | append i => if i ∉ l then some ([], l ++ [i]) else none
  | appendN is => if (l ++ is).Nodup then some ([], l ++ is) else none

/-- A sequence of calls on lists. -/
def FreeQueueOp.runList : List FreeQueueOp → List ℕ → Option (List (List ℕ) × List ℕ)
  | [], l => some ([], l)
  | op :: ops, l => do
    let (out, l) ← op.onList l
    let (outs, l) ← runList ops l
    pure (out :: outs, l)

namespace FreeKVCacheBlockQueue

open FreeNode

variable {q : FreeKVCacheBlockQueue} {l l' out : List ℕ} {op : FreeQueueOp} {ops : List FreeQueueOp}
  {outs : List (List ℕ)}

/-- A call of a method: the blocks it returns, and the queue. -/
def call (q : FreeKVCacheBlockQueue) : FreeQueueOp → Except VllmErr (List ℕ × FreeKVCacheBlockQueue)
  | .popleft => (fun x => ([x.1], x.2)) <$> q.popleft
  | .popleftN n => q.popleftN n
  | .remove i => ([], ·) <$> q.remove i
  | .append i => ([], ·) <$> q.append i
  | .appendN is => ([], ·) <$> q.appendN is

/-- A sequence of calls. -/
def run : List FreeQueueOp → FreeKVCacheBlockQueue →
    Except VllmErr (List (List ℕ) × FreeKVCacheBlockQueue)
  | [], q => .ok ([], q)
  | op :: ops, q => do
    let (out, q) ← q.call op
    let (outs, q) ← run ops q
    pure (out :: outs, q)

/-- The links spell the list in both directions, the counter is its length, and no other block has
links. -/
structure Spells (q : FreeKVCacheBlockQueue) (l : List ℕ) : Prop where
  /-- From the fake head on. -/
  forward : (nodes l).IsChain fun a b => q.links.next a = some b
  /-- From the fake tail back. -/
  backward : (nodes l).reverse.IsChain fun a b => q.links.prev a = some b
  num : q.numFreeBlocks = l.length
  cleared : q.links.Within (nodes l)

/-- **A call** that respects its guard is the list operation. -/
theorem call_returns (h : q.Holds l) (hw : q.links.Within (nodes l))
    (hop : op.onList l = some (out, l')) :
    Returns (q.call op) fun x => x.1 = out ∧ x.2.Holds l' ∧ x.2.links.Within (nodes l') := by
  cases op with
  | popleft =>
    cases l with
    | nil => simp [FreeQueueOp.onList] at hop
    | cons i l =>
      obtain ⟨rfl, rfl⟩ : [i] = out ∧ l = l' := by simpa [FreeQueueOp.onList] using hop
      exact returns_map.mpr ((popleft_returns h).mono fun x hx => ⟨by rw [hx.1], hx.2.1, hx.2.2 hw⟩)
  | popleftN n =>
    obtain ⟨hn, rfl, rfl⟩ := by simpa [FreeQueueOp.onList] using hop
    exact (popleftN_returns h hn).mono fun x hx => ⟨hx.1, hx.2.1, hx.2.2 hw⟩
  | remove i =>
    obtain ⟨hi, rfl, rfl⟩ := by simpa [FreeQueueOp.onList] using hop
    exact returns_map.mpr ((remove_returns h hi).mono fun q' hq => ⟨rfl, hq.1, hq.2 hw⟩)
  | append i =>
    obtain ⟨hi, rfl, rfl⟩ := by simpa [FreeQueueOp.onList] using hop
    rw [call, h.append_eq hi]
    exact returns_map.mpr ((appendN_returns h (h.nodup.append (List.nodup_singleton i) (by simpa))).mono
      fun q' hq => ⟨rfl, hq.1, hq.2 hw⟩)
  | appendN is =>
    obtain ⟨hnd, rfl, rfl⟩ := by simpa [FreeQueueOp.onList] using hop
    exact returns_map.mpr ((appendN_returns h hnd).mono fun q' hq => ⟨rfl, hq.1, hq.2 hw⟩)

theorem run_returns (h : q.Holds l) (hw : q.links.Within (nodes l))
    (hrun : FreeQueueOp.runList ops l = some (outs, l')) :
    Returns (run ops q) fun x => x.1 = outs ∧ x.2.Spells l' := by
  induction ops generalizing q l outs with
  | nil =>
    cases hrun
    exact returns_ok.mpr ⟨rfl, h.linked.imp fun _ _ => And.left,
      List.isChain_reverse.mpr (h.linked.imp fun _ _ => And.right), h.num, hw⟩
  | cons op ops ih =>
    obtain ⟨⟨out, l₁⟩, hop, hrun⟩ := Option.bind_eq_some_iff.mp hrun
    obtain ⟨⟨outs', l₂⟩, hrest, hpure⟩ := Option.bind_eq_some_iff.mp hrun
    cases hpure
    rw [run, returns_bind]
    refine (call_returns h hw hop).mono fun x hx => ?_
    rw [returns_bind]
    refine (ih hx.2.1 hx.2.2 hrest).mono fun y hy => returns_pure.mpr ⟨?_, hy.2⟩
    rw [hx.1, hy.1]

/-- **The queue refines a double-ended list**: calls that respect their guards return, hand out the
blocks that the list operations do, and leave links that spell the list. -/
theorem refines_list (n : ℕ) (hrun : FreeQueueOp.runList ops (List.range n) = some (outs, l)) :
    Returns (run ops (new n)) fun x => x.1 = outs ∧ x.2.Spells l := by
  refine run_returns (holds_new n) (fun x hx => ?_) hrun
  cases x with
  | head => simp [nodes] at hx
  | tail => simp [nodes] at hx
  | block j =>
    have hle : n ≤ j := by simpa [nodes] using hx
    simp [new, hle, show ¬ j + 1 < n by omega, show j + 1 ≠ n by omega]

/-- The whole queue is taken, and blocks come back one by one and together. -/
theorem refines_list_of_three : Returns
    (run [.popleftN 3, .append 1, .appendN [2, 0], .remove 2, .popleft] (new 3)) fun x =>
      x.1 = [[0, 1, 2], [], [], [], [1]] ∧ x.2.Spells [0] :=
  refines_list 3 (by decide)

end FreeKVCacheBlockQueue

end CacheFlow
