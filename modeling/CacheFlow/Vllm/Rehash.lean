import CacheFlow.Vllm.MmKeys
import CacheFlow.Vllm.Request

/-!
# Hashing the blocks of a request as it grows

The block hashes of a request are computed as its blocks fill up. A block takes the identifiers of
the multi-modal inputs in it as extra keys; the hasher finds them with a cursor that moves along the
inputs from block to block. A call that starts with the first block starts with the first input.
A later call starts with the last one: the inputs are all in the prompt, and what is hashed later is
taken to be generated tokens.

That is not so for the block that the prompt ends in. Of the inputs in it only the last is found,
and the last is found as well when it ends right before the block. Any call can miss inputs that
are not in order, since the cursor stays at the first that goes on behind the block.

## Main definitions

* `reached` — the inputs that a call comes to in a block.
* `Keyed` — a call hashes a block with the inputs in it.
* `CleanCalls` — the calls for a request that gets output in pieces do.

## Main results

* `keyed_iff` — what it takes that the inputs found are those in the block.
* `InOrder.keyed` — when inputs in order are found.
* `Request.exact_iff_clean` — hashing piece by piece is exact if and only if all calls, and one call
  for all blocks, hash the blocks with the inputs in them.
-/

namespace CacheFlow

open List VllmRequest

/-- The inputs that have a placeholder from `start` to `stop`. -/
def overlapping (fs : List MmFeature) (start stop : ℕ) : List MmFeature :=
  fs.filter fun f => f.offset < stop ∧ start < f.stop ∧ 0 < f.length

/-- The inputs that a call that starts with block `start` comes to in block `b`: of those left to
look at, all up to the first that does not end in the block. It comes to none when the last of all
ends before the block. -/
def reached (fs : List MmFeature) (B start b : ℕ) : List MmFeature :=
  if ∃ last ∈ fs.getLast?, b * B ≤ last.stop then
    (leftAt fs B start b).take
      (((leftAt fs B start b).takeWhile (MmFeature.endsBy (b * B + B))).length + 1)
  else []

/-- A call that starts with block `start` hashes block `b` with the inputs in it. -/
inductive Keyed (fs : List MmFeature) (B start b : ℕ) : Prop
  /-- It comes to all inputs in the block. Of those it comes to, none ends right before the block
  and none from there on is empty. -/
  | clean (hall : overlapping (reached fs B start b) (b * B) (b * B + B) =
        overlapping fs (b * B) (b * B + B))
      (honly : ∀ f ∈ reached fs B start b, f.offset < b * B + B → b * B ≤ f.stop →
        f.stop ≠ b * B ∧ f.length ≠ 0)
  /-- It does not come to all, and takes others for them that have, by chance, the same names. -/
  | chance (hmissed : overlapping (reached fs B start b) (b * B) (b * B + B) ≠
        overlapping fs (b * B) (b * B + B))
      (hothers : ∃ f ∈ reached fs B start b, f.offset < b * B + B ∧ b * B ≤ f.stop ∧
        (f.stop = b * B ∨ f.length = 0))
      (hnames : mmKeys (inputsAt fs B start b) = mmKeys (overlapping fs (b * B) (b * B + B)))

/-- The calls for a request of `n` tokens that gets more in pieces hash their blocks with the
inputs in them. -/
def CleanCalls (fs : List MmFeature) (B : ℕ) : ℕ → List (List ℤ) → Prop
  | _, [] => True
  | n, piece :: pieces =>
    (∀ b, n / B ≤ b → b < (n + piece.length) / B → Keyed fs B (n / B) b) ∧
    CleanCalls fs B (n + piece.length) pieces

/-! ### What a call finds -/

section Found

variable {fs : List MmFeature} {B start b : ℕ}

theorem inputsAt_eq : inputsAt fs B start b = (reached fs B start b).filter fun f =>
    f.offset < b * B + B ∧ b * B ≤ f.stop := by
  unfold inputsAt reached
  split_ifs <;> rfl

theorem lookedAt_sublist : (lookedAt fs start).Sublist fs := by
  unfold lookedAt
  split_ifs
  · exact Sublist.refl _
  · cases hlast : fs.getLast? with
    | none => exact nil_sublist _
    | some last => exact singleton_sublist.mpr (mem_of_getLast? hlast)

theorem reached_sublist : (reached fs B start b).Sublist fs := by
  unfold reached leftAt
  split_ifs
  · exact (take_sublist _ _).trans lookedAt_sublist
  · exact (take_sublist _ _).trans ((dropWhile_sublist _).trans lookedAt_sublist)
  · exact nil_sublist _

/-- Nothing else is found exactly if none of the inputs that the call comes to ends right before the
block or is empty. -/
theorem inputsAt_eq_overlapping_iff :
    overlapping (reached fs B start b) (b * B) (b * B + B) = inputsAt fs B start b ↔
      ∀ f ∈ reached fs B start b, f.offset < b * B + B → b * B ≤ f.stop →
        f.stop ≠ b * B ∧ f.length ≠ 0 := by
  rw [inputsAt_eq, overlapping]
  constructor
  · intro heq f hf hbefore hafter
    have hmem : f ∈ (reached fs B start b).filter fun f => f.offset < b * B + B ∧ b * B ≤ f.stop :=
      mem_filter.mpr ⟨hf, decide_eq_true ⟨hbefore, hafter⟩⟩
    rw [← heq, mem_filter, decide_eq_true_eq] at hmem
    omega
  · intro h
    refine filter_congr fun f hf => ?_
    have := h f hf
    rw [decide_eq_decide]
    omega

/-- **The inputs found are those in the block** exactly if the call comes to all of them and takes no
other, or takes others for those it misses. -/
theorem keyed_iff : Keyed fs B start b ↔
    mmKeys (inputsAt fs B start b) = mmKeys (overlapping fs (b * B) (b * B + B)) := by
  constructor
  · rintro (⟨hall, honly⟩ | ⟨-, -, hnames⟩)
    · rw [← inputsAt_eq_overlapping_iff.mpr honly, hall]
    · exact hnames
  · intro hnames
    have hlen : (inputsAt fs B start b).length =
        (overlapping fs (b * B) (b * B + B)).length := by
      simpa [mmKeys] using congrArg length hnames
    -- as many are found as are in the block: none is missed if no other is taken, and conversely
    by_cases hall : overlapping (reached fs B start b) (b * B) (b * B + B) =
        overlapping fs (b * B) (b * B + B)
    · refine .clean hall (inputsAt_eq_overlapping_iff.mp (Sublist.eq_of_length ?_ (hall ▸ hlen.symm)))
      rw [inputsAt_eq]
      refine monotone_filter_right _ fun f hf => ?_
      rw [decide_eq_true_eq] at hf ⊢
      omega
    · by_cases honly : ∀ f ∈ reached fs B start b, f.offset < b * B + B → b * B ≤ f.stop →
          f.stop ≠ b * B ∧ f.length ≠ 0
      · rw [← inputsAt_eq_overlapping_iff.mpr honly] at hlen
        exact absurd ((reached_sublist.filter _).eq_of_length hlen) hall
      · push Not at honly
        obtain ⟨f, hf, hbefore, hafter, hempty⟩ := honly
        exact .chance hall ⟨f, hf, hbefore, hafter, or_iff_not_imp_left.mpr hempty⟩ hnames

end Found

/-! ### Inputs in order -/

/-- Each input ends before the next one starts, and none is empty. -/
structure InOrder (fs : List MmFeature) : Prop where
  pairwise : fs.Pairwise fun f g => f.stop ≤ g.offset
  length_pos : ∀ f ∈ fs, 0 < f.length

namespace InOrder

variable {fs gs : List MmFeature} {f : MmFeature} {B start b s t : ℕ}

theorem sublist (h : InOrder fs) (hsub : gs.Sublist fs) : InOrder gs :=
  ⟨h.pairwise.sublist hsub, fun g hg => h.length_pos g (hsub.subset hg)⟩

theorem offset_lt_stop (h : InOrder fs) (hf : f ∈ fs) : f.offset < f.stop :=
  Nat.lt_add_of_pos_right (h.length_pos f hf)

theorem stop_le_last (h : InOrder fs) {last : MmFeature} (hlast : fs.getLast? = some last) :
    ∀ f ∈ fs, f.stop ≤ last.stop := by
  intro f hf
  obtain ⟨pre, rfl⟩ := List.getLast?_eq_some_iff.mp hlast
  rcases mem_append.mp hf with hf | hf
  · have hle := (pairwise_append.mp h.pairwise).2.2 f hf last (mem_singleton_self last)
    exact hle.trans (h.offset_lt_stop (mem_append_right pre (mem_singleton_self last))).le
  · rw [mem_singleton.mp hf]

theorem lt_stop_of_mem_dropWhile (h : InOrder fs) :
    ∀ f ∈ fs.dropWhile (MmFeature.endsBy s), s < f.stop := by
  induction fs with
  | nil => simp
  | cons g fs ih =>
    rw [dropWhile_cons]
    split_ifs with hg
    · exact ih (h.sublist (sublist_cons_self g fs))
    · intro f hf
      have hpos := h.offset_lt_stop hf
      have hpos' := h.offset_lt_stop mem_cons_self
      simp only [MmFeature.endsBy, decide_eq_true_eq] at hg
      rcases mem_cons.mp hf with rfl | hf
      · omega
      · have hle := (pairwise_cons.mp h.pairwise).1 f hf
        omega

theorem overlapping_eq_nil (h : ∀ f ∈ fs, t ≤ f.offset ∨ f.stop ≤ s) : overlapping fs s t = [] := by
  rw [overlapping, filter_eq_nil_iff]
  intro f hf
  have := h f hf
  rw [decide_eq_true_eq]
  omega

theorem overlapping_dropWhile : overlapping (fs.dropWhile (MmFeature.endsBy s)) s t =
    overlapping fs s t := by
  have hnone : overlapping (fs.takeWhile (MmFeature.endsBy s)) s t = [] :=
    overlapping_eq_nil fun f hf => by
      have hends := mem_takeWhile_imp hf
      simp only [MmFeature.endsBy, decide_eq_true_eq] at hends
      exact Or.inr hends.2
  conv_rhs => rw [← takeWhile_append_dropWhile (p := MmFeature.endsBy s) (l := fs), overlapping,
    filter_append]
  exact (congrArg (· ++ _) hnone).symm

/-- Of inputs that end behind `s`, those are found that have a token there. -/
theorem found_eq (hst : s < t) (h : InOrder fs) (hlate : ∀ f ∈ fs, s < f.stop) :
    found s t fs = overlapping fs s t := by
  induction fs with
  | nil => rfl
  | cons f fs ih =>
    have hf := hlate f mem_cons_self
    have hpos := h.length_pos f mem_cons_self
    have hcons : overlapping (f :: fs) s t =
        if f.offset < t then f :: overlapping fs s t else overlapping fs s t := by
      rw [overlapping, filter_cons]
      simp only [hf, hpos, and_true, decide_eq_true_eq]
      rfl
    by_cases hends : f.endsBy t = true
    · rw [found_cons_of_endsBy hends, if_pos hf.le, hcons, ih (h.sublist (sublist_cons_self f fs))
        fun g hg => hlate g (mem_cons_of_mem f hg), if_pos (of_decide_eq_true hends).1]
    · -- it does not end in the block, so that all others come later
      have hnone : overlapping fs s t = [] := overlapping_eq_nil fun g hg => Or.inl <| by
        have := (pairwise_cons.mp h.pairwise).1 g hg
        have := h.offset_lt_stop mem_cons_self
        simp only [MmFeature.endsBy, decide_eq_true_eq] at hends
        omega
      rw [found_cons_of_not_endsBy hst hends, hcons, hnone]

/-- **Inputs in order** are found by a call that starts with the first block. A later call finds
those of a block if no other than the last is in it, and the last does not end right before the
call. -/
theorem keyed (hB : 0 < B) (h : InOrder fs) (hlater : 0 < start → ∀ last ∈ fs.getLast?,
    last.stop ≠ start * B ∧ overlapping fs.dropLast (b * B) (b * B + B) = []) :
    Keyed fs B start b := by
  refine keyed_iff.mpr (congrArg mmKeys ?_)
  cases hlast : fs.getLast? with
  | none =>
    rw [List.getLast?_eq_none_iff.mp hlast]
    rfl
  | some last =>
    by_cases hbefore : last.stop < b * B
    · -- all inputs end before the block
      rw [inputsAt, if_neg (by simpa [hlast] using hbefore)]
      exact (overlapping_eq_nil fun f hf =>
        Or.inr ((h.stop_le_last hlast f hf).trans hbefore.le)).symm
    · have hle := Nat.not_lt.mp hbefore
      have hlooked : overlapping (lookedAt fs start) (b * B) (b * B + B) =
          overlapping fs (b * B) (b * B + B) := by
        obtain ⟨pre, rfl⟩ := List.getLast?_eq_some_iff.mp hlast
        unfold lookedAt
        split_ifs with hzero
        · rfl
        · have hnone := (hlater (Nat.pos_of_ne_zero hzero) last hlast).2
          rw [dropLast_concat] at hnone
          rw [hlast, Option.toList_some, overlapping, overlapping, filter_append]
          exact (congrArg (· ++ _) hnone).symm
      have horder : InOrder (lookedAt fs start) := h.sublist lookedAt_sublist
      rw [inputsAt, if_pos ⟨last, hlast, hle⟩, ← hlooked, leftAt]
      split_ifs with heq
      · refine horder.found_eq (Nat.lt_add_of_pos_right hB) fun f hf => ?_
        have hpos := horder.offset_lt_stop hf
        rcases Nat.eq_zero_or_pos start with hzero | hstart
        · rw [heq, hzero, Nat.zero_mul]
          exact Nat.zero_lt_of_lt hpos
        · -- a later call starts with the last input
          rw [lookedAt, if_neg hstart.ne', Option.mem_toList, hlast] at hf
          obtain rfl := Option.some.inj hf
          rw [heq] at hle ⊢
          exact hle.lt_of_ne' (hlater hstart _ hlast).1
      · rw [(horder.sublist (dropWhile_sublist _)).found_eq (Nat.lt_add_of_pos_right hB)
          horder.lt_stop_of_mem_dropWhile, overlapping_dropWhile]

end InOrder

theorem VllmRequest.extraKeysOf_inj {r : VllmRequest} {s t : ℕ} {mm mm' : List ExtraKey}
    (h : r.extraKeysOf s t mm = r.extraKeysOf s t mm') : mm = mm' := by
  unfold extraKeysOf at h
  dsimp only at h
  split_ifs at h with hmm hmm' <;> simp_all

namespace Vllm.Request

/-- `append_output_token_ids`, of a list. -/
def appendAll (blockSize : ℕ) (r : Request) (tokens : List ℤ) : Request :=
  extendBlockHashes (some blockSize)
    { r with
      outputTokenIds := r.outputTokenIds ++ tokens
      allTokenIds := r.allTokenIds ++ tokens }

/-- A request that is made and then given output piece by piece. -/
def grow (blockSize : ℕ) (a : Args) (pieces : List (List ℤ)) : Request :=
  pieces.foldl (appendAll blockSize) (create (some blockSize) a)

/-- The blocks of a request, hashed in one call. -/
def freshBlocks (blockSize : ℕ) (r : Request) : List HashedBlock :=
  getHashNewFullBlocks (some blockSize) { r with hashedBlocks := [] }

/-- Block `b` with the inputs that are in it. -/
def exactBlock (r : Request) (blockSize b : ℕ) : HashedBlock :=
  ((r.allTokenIds.drop (b * blockSize)).take blockSize,
    r.toVllm.extraKeysOf (b * blockSize) (b * blockSize + blockSize)
      (mmKeys (overlapping r.mmFeatures (b * blockSize) (b * blockSize + blockSize))))

/-- The full blocks of a request, each with the inputs in it. -/
def exactBlocks (r : Request) (blockSize : ℕ) : List HashedBlock :=
  (List.range (r.numTokens / blockSize)).map (r.exactBlock blockSize)

variable {r : Request} {B : ℕ}

/-- A call hashes each block with the inputs that it finds there. -/
theorem hasherLoop_eq (hB : 0 < B) {start : ℕ} : ∀ {n b : ℕ} {idx : ℤ}, start ≤ b →
    r.toVllm.CursorAt B start b idx → r.hasherLoop B n (b * B) idx = (List.range' b n).map fun k =>
      ((r.allTokenIds.drop (k * B)).take B,
        r.toVllm.extraKeysOf (k * B) (k * B + B) (mmKeys (inputsAt r.mmFeatures B start k))) := by
  intro n
  induction n with
  | zero => exact fun _ _ => rfl
  | succ n ih =>
    intro b idx hb hat
    obtain ⟨hkeys, hnext⟩ := generateBlockHashExtraKeys_eq hB hb hat
    rw [hasherLoop, List.range'_succ, map_cons, ← ih (by omega) hnext, hkeys, ← Nat.succ_mul]
    rfl

/-- **One call** hashes the blocks that have no hash yet with the inputs in them, exactly if it finds
them in each. -/
theorem getHashNewFullBlocks_iff (hB : 0 < B) {k : ℕ} (hk : r.hashedBlocks.length = k) :
    r.getHashNewFullBlocks (some B) =
        (List.range' k (r.numTokens / B - k)).map (r.exactBlock B) ↔
      ∀ b, k ≤ b → b < r.numTokens / B → Keyed r.mmFeatures B k b := by
  show r.hasherLoop B (r.numTokens / B - r.hashedBlocks.length) (r.hashedBlocks.length * B)
    (if r.hashedBlocks.length * B > 0 then -1 else 0) = _ ↔ _
  rw [hk, hasherLoop_eq hB le_rfl (cursorAt_start hB), map_inj_left]
  refine forall_congr' fun b => ?_
  rw [mem_range'_1, and_imp, keyed_iff]
  refine forall_congr' fun hb => imp_congr (by omega) ?_
  exact ⟨fun heq => extraKeysOf_inj (congrArg Prod.snd heq), fun heq => by rw [exactBlock, heq]⟩

theorem freshBlocks_getElem? (hB : 0 < B) {b : ℕ} (hb : b < r.numTokens / B) :
    (r.freshBlocks B)[b]? = some ((r.allTokenIds.drop (b * B)).take B,
      r.toVllm.extraKeysOf (b * B) (b * B + B) (mmKeys (inputsAt r.mmFeatures B 0 b))) := by
  show (({ r with hashedBlocks := [] } : Request).hasherLoop B (r.numTokens / B) (0 * B)
    (if 0 * B > 0 then -1 else 0))[b]? = _
  rw [hasherLoop_eq hB le_rfl (cursorAt_start hB), ← range_eq_range', List.getElem?_map,
    List.getElem?_range hb]
  rfl

theorem freshBlocks_eq_iff (hB : 0 < B) : r.freshBlocks B = r.exactBlocks B ↔
    ∀ b < r.numTokens / B, Keyed r.mmFeatures B 0 b := by
  have hcall := getHashNewFullBlocks_iff (r := { r with hashedBlocks := [] }) hB rfl
  rw [exactBlocks, range_eq_range']
  exact hcall.trans ⟨fun h b => h b (Nat.zero_le b), fun h b _ => h b⟩

/-! ### Runs -/

theorem exactBlock_append {piece out : List ℤ} {b : ℕ}
    (hb : b < r.numTokens / B) : ({ r with
      outputTokenIds := out
      allTokenIds := r.allTokenIds ++ piece } : Request).exactBlock B b = r.exactBlock B b := by
  have hfull : b * B + B ≤ r.allTokenIds.length := by
    rw [← Nat.succ_mul]
    exact (Nat.mul_le_mul_right B hb).trans (Nat.div_mul_le_self _ _)
  refine congrArg (·, _) ?_
  rw [drop_append_of_le_length (by omega), take_append_of_le_length]
  rw [length_drop]
  omega

/-- A call for a request whose full blocks have been hashed. -/
theorem appendAll_exact_iff (hB : 0 < B)
    (hlen : r.hashedBlocks.length = r.numTokens / B) (piece : List ℤ) :
    (r.appendAll B piece).hashedBlocks = (r.appendAll B piece).exactBlocks B ↔
      r.hashedBlocks = r.exactBlocks B ∧ CleanCalls r.mmFeatures B r.numTokens [piece] := by
  have hgrown : (r.allTokenIds ++ piece).length = r.numTokens + piece.length := length_append
  have hle : r.numTokens / B ≤ (r.numTokens + piece.length) / B :=
    Nat.div_le_div_right (Nat.le_add_right _ _)
  let r' : Request := { r with
    outputTokenIds := r.outputTokenIds ++ piece
    allTokenIds := r.allTokenIds ++ piece }
  have hnum : r'.numTokens = r.numTokens + piece.length := hgrown
  have hcall := getHashNewFullBlocks_iff (r := r') hB hlen
  rw [hnum] at hcall
  -- the blocks that were full before, and those this call hashes
  have hexact : (r.appendAll B piece).exactBlocks B = r.exactBlocks B ++
      (List.range' (r.numTokens / B) ((r.numTokens + piece.length) / B - r.numTokens / B)).map
        (r'.exactBlock B) := by
    show (List.range (r'.numTokens / B)).map (r'.exactBlock B) = _
    rw [hnum, exactBlocks, range_eq_range', range_eq_range']
    conv_lhs =>
      rw [← Nat.add_sub_cancel' hle, ← List.range'_append_1, map_append, Nat.zero_add]
    refine congrArg (· ++ _) (map_congr_left fun b hb => ?_)
    exact exactBlock_append (by simpa using hb)
  have hlength : r.hashedBlocks.length = (r.exactBlocks B).length := by simp [exactBlocks, hlen]
  rw [hexact]
  simp only [CleanCalls, and_true]
  refine Iff.trans ⟨fun heq => ?_, ?_⟩ (and_congr Iff.rfl hcall)
  · exact append_inj heq hlength
  · rintro ⟨hold, hnew⟩
    exact congrArg₂ (· ++ ·) hold hnew

theorem length_hashedBlocks_extend (hlen : r.hashedBlocks.length ≤ r.numTokens / B) :
    (r.extendBlockHashes (some B)).hashedBlocks.length = r.numTokens / B := by
  have hloop : ∀ (n start : ℕ) (idx : ℤ), (r.hasherLoop B n start idx).length = n := by
    intro n
    induction n with
    | zero => exact fun _ _ => rfl
    | succ n ih => exact fun start idx => congrArg (· + 1) (ih _ _)
  show (r.hashedBlocks ++ r.hasherLoop B _ _ _).length = _
  rw [length_append, hloop]
  omega

theorem foldl_exact_iff (hB : 0 < B) : ∀ {pieces : List (List ℤ)} {r : Request},
    r.hashedBlocks.length = r.numTokens / B →
      ((pieces.foldl (appendAll B) r).hashedBlocks = (pieces.foldl (appendAll B) r).exactBlocks B ↔
        r.hashedBlocks = r.exactBlocks B ∧ CleanCalls r.mmFeatures B r.numTokens pieces) ∧
      (pieces.foldl (appendAll B) r).mmFeatures = r.mmFeatures := by
  intro pieces
  induction pieces with
  | nil => exact fun _ => ⟨by simp [CleanCalls], rfl⟩
  | cons piece pieces ih =>
    intro r hlen
    have hnum : (r.appendAll B piece).numTokens = r.numTokens + piece.length := length_append
    have hlen' : (r.appendAll B piece).hashedBlocks.length =
        (r.appendAll B piece).numTokens / B := by
      apply length_hashedBlocks_extend
      show r.hashedBlocks.length ≤ (r.allTokenIds ++ piece).length / B
      rw [hlen, length_append]
      exact Nat.div_le_div_right (Nat.le_add_right _ _)
    obtain ⟨hiff, hmm⟩ := ih (r := r.appendAll B piece) hlen'
    refine ⟨?_, hmm⟩
    rw [foldl_cons, hiff, appendAll_exact_iff hB hlen, hnum]
    simp only [CleanCalls, and_true, and_assoc]
    rfl

/-- **Hashing piece by piece is exact if and only if all calls find the inputs in their blocks**,
whatever the places of the inputs. The hashed blocks are those of one call over the final tokens,
with the extra keys of the inputs in them, exactly if that call hashes all blocks with the inputs in
them, and so does each call, for the prompt and for the pieces. -/
theorem exact_iff_clean (hB : 0 < B) (a : Args) (pieces : List (List ℤ)) :
    ((grow B a pieces).hashedBlocks = (grow B a pieces).freshBlocks B ∧
      ∀ (b : ℕ) (block : HashedBlock), (grow B a pieces).hashedBlocks[b]? = some block →
        block.2 = (grow B a pieces).toVllm.extraKeysOf (b * B) (b * B + B)
          (mmKeys (overlapping a.mmFeatures (b * B) (b * B + B)))) ↔
    (∀ b < (grow B a pieces).numTokens / B, Keyed a.mmFeatures B 0 b) ∧
      CleanCalls a.mmFeatures B 0 (a.promptTokenIds :: pieces) := by
  have hlen : (create (some B) a).hashedBlocks.length = (create (some B) a).numTokens / B :=
    length_hashedBlocks_extend (Nat.zero_le _)
  obtain ⟨hiff, hmm⟩ := @foldl_exact_iff B hB pieces (create (some B) a) hlen
  change (grow B a pieces).mmFeatures = a.mmFeatures at hmm
  have hone := freshBlocks_eq_iff (r := grow B a pieces) hB
  rw [hmm] at hone
  -- the first call is one call for the blocks of the prompt
  have hprompt : (create (some B) a).hashedBlocks = (create (some B) a).exactBlocks B ↔
      ∀ b, 0 / B ≤ b → b < (0 + a.promptTokenIds.length) / B → Keyed a.mmFeatures B (0 / B) b := by
    refine (freshBlocks_eq_iff (r := create (some B) a) hB).trans ?_
    rw [Nat.zero_div, Nat.zero_add]
    exact ⟨fun h b _ => h b, fun h b => h b (Nat.zero_le b)⟩
  rw [hprompt, ← Nat.zero_add (create (some B) a).numTokens] at hiff
  constructor
  · rintro ⟨hsame, hkeys⟩
    have hfound : ∀ b < (grow B a pieces).numTokens / B, Keyed a.mmFeatures B 0 b := by
      intro b hb
      have hblock := freshBlocks_getElem? (r := grow B a pieces) hB hb
      rw [← hsame, hmm] at hblock
      exact keyed_iff.mpr (extraKeysOf_inj (hkeys b _ hblock))
    exact ⟨hfound, hiff.mp (hsame.trans (hone.mpr hfound))⟩
  · rintro ⟨hfound, hcalls⟩
    have hexact := hiff.mpr hcalls
    refine ⟨hexact.trans (hone.mpr hfound).symm, fun b block hb => ?_⟩
    rw [grow, hexact, exactBlocks, List.getElem?_map, Option.map_eq_some_iff] at hb
    obtain ⟨k, hk, rfl⟩ := hb
    obtain ⟨-, rfl⟩ := List.getElem?_eq_some_iff.mp hk
    rw [getElem_range, exactBlock]
    exact congrArg (fun fs => extraKeysOf _ _ _ (mmKeys (overlapping fs _ _))) hmm

/-- A prompt of six tokens that ends with two images of one token. -/
def twoImages (first : String) : Args where
  requestId := "r"
  promptTokenIds := [1, 2, 3, 4, 0, 0]
  params := .inl { maxTokens := 8 }
  mmFeatures := [⟨first, 4, 1⟩, ⟨"b", 5, 1⟩]

theorem exact_of_five_tokens : (grow 5 (twoImages "a") [[7], [8, 9, 10]]).hashedBlocks =
    (grow 5 (twoImages "a") [[7], [8, 9, 10]]).freshBlocks 5 := by
  have hone : ∀ b < 2, Keyed (twoImages "a").mmFeatures 5 0 b := fun b _ =>
    InOrder.keyed (by decide) ⟨by decide, by decide⟩ fun h => absurd h (Nat.lt_irrefl 0)
  have hcalls : CleanCalls (twoImages "a").mmFeatures 5 0
      [[1, 2, 3, 4, 0, 0], [7], [8, 9, 10]] := by
    refine ⟨fun b _ hb => hone b (hb.trans (by decide)), fun b hle hlt => ?_, fun b hle hlt => ?_,
      trivial⟩
    · exact absurd (hle.trans_lt hlt) (by decide)
    · obtain rfl : b = 1 := Nat.le_antisymm (Nat.le_of_lt_succ hlt) hle
      exact .clean (by decide) (by decide)
  exact ((exact_iff_clean (by decide) (twoImages "a") _).mpr ⟨hone, hcalls⟩).1

/-- Blocks of four tokens: the images are in the second, which is completed by output. Only the
last image is a key of it, and a prompt with another first image has the same hashes. -/
theorem first_image_lost :
    (grow 4 (twoImages "a") [[7, 8]]).hashedBlocks ≠
        (grow 4 (twoImages "a") [[7, 8]]).freshBlocks 4 ∧
      (grow 4 (twoImages "a") [[7, 8]]).hashedBlocks =
        (grow 4 (twoImages "c") [[7, 8]]).hashedBlocks := by
  decide +kernel

end Vllm.Request

end CacheFlow
