import CacheFlow.Vllm.MmKeys

/-!
# What a block hash of vLLM tells apart

Requests of different tenants share the blocks of the prefix cache whose hashes are equal.
Besides the tokens, the hash of a block takes in the extra keys of the block and, through
the hash before it, those of all blocks before. The extra keys are one sequence: the name
of the adapter, the identifiers of the multi-modal inputs in the block, in the first block
the cache salt, and the bytes of the prompt embeddings.

The hashes of a request are made when it arrives and again whenever tokens have been
appended to it: `Request.block_hashes`.

## Main definitions

* `BlockHasher.blockItems` — what the block hashes are the hashes of.
* `BlockHasher.Collides` — requests with the same names that are not the same.

## Main results

* `BlockHasher.isolated_iff` — when equal hashes imply that nothing differs.
-/

namespace CacheFlow

open List VllmRequest

namespace VllmRequest

/-- The request when it had the first `n` of its output tokens. -/
def grown (r : VllmRequest) (n : ℕ) : VllmRequest :=
  { r with outputTokenIds := r.outputTokenIds.take n }

/-- The identifiers of the multi-modal inputs at a token. -/
def mmAt (r : VllmRequest) (t : ℕ) : List String :=
  (r.mmFeatures.filter fun f => f.offset ≤ t ∧ t < f.offset + f.length).map MmFeature.identifier

/-- Two requests agree in everything but the tokens, as far as their first `n` tokens go. -/
structure SameUpTo (r r' : VllmRequest) (n : ℕ) : Prop where
  lora : r.loraName = r'.loraName
  salt : r.cacheSalt = r'.cacheSalt
  mm : ∀ t < n, r.mmAt t = r'.mmAt t

/-- The salt; an empty one counts as none. -/
def salt (r : VllmRequest) : Option String := r.cacheSalt.filter (· ≠ "")

/-- The bytes of the prompt embeddings of block `b`. -/
def embedsAt (r : VllmRequest) (B b : ℕ) : Option (List UInt8) :=
  r.promptEmbeds.map fun rows => ((rows.drop (b * B)).take B).flatten

end VllmRequest

namespace BlockHasher

variable (H : BlockHasher)

/-- `Request.block_hashes` of a request that was hashed when it was made and again when it
had `n` output tokens, for each `n` of `cuts`. -/
def blockHashes (r : VllmRequest) (cuts : List ℕ) : List (List UInt8) :=
  (0 :: cuts).foldl (fun hashes n => hashes ++ H.requestBlockHasher (r.grown n) hashes) []

/-- What the loop of `request_block_hasher` hashes: the tokens and the extra keys of the full
blocks. -/
def loopItems (r : VllmRequest) (start : ℕ) (idx : ℤ) : List (List ℤ × Option (List ExtraKey)) :=
  if _h : 0 < H.blockSize ∧ start + H.blockSize ≤ r.allTokenIds.length then
    ((r.allTokenIds.drop start).take H.blockSize,
      (r.generateBlockHashExtraKeys start (start + H.blockSize) idx).1) ::
      loopItems r (start + H.blockSize)
        (r.generateBlockHashExtraKeys start (start + H.blockSize) idx).2
  else []
termination_by r.allTokenIds.length - start
decreasing_by omega

/-- What a call of `request_block_hasher` hashes when `b` blocks have hashes. -/
def callItems (r : VllmRequest) (b : ℕ) : List (List ℤ × Option (List ExtraKey)) :=
  H.loopItems r (b * H.blockSize) (if b * H.blockSize > 0 then -1 else 0)

/-- What the block hashes of a request that has grown are the hashes of. -/
def blockItems (r : VllmRequest) (cuts : List ℕ) : List (List ℤ × Option (List ExtraKey)) :=
  (0 :: cuts).foldl (fun items n => items ++ H.callItems (r.grown n) items.length) []

/-- The hash of an item after a parent hash. -/
def itemHash (parent : List UInt8) (item : List ℤ × Option (List ExtraKey)) : List UInt8 :=
  H.hashFunction (parent, item.1, item.2)

variable {H} {r r' : VllmRequest}

theorem hasherLoop_eq_chain (hne : ∀ x, H.hashFunction x ≠ []) :
    ∀ (start : ℕ) (idx : ℤ) (prev : Option (List UInt8)), prev ≠ some [] →
      H.hasherLoop r start idx prev =
        chain H.itemHash (prev.getD H.noneHash) (H.loopItems r start idx) := by
  intro start
  -- the rest of the tokens gets shorter
  induction hrest : r.allTokenIds.length - start using Nat.strong_induction_on generalizing start with
  | _ rest ih =>
    intro idx prev hprev
    rw [hasherLoop, loopItems]
    split_ifs with hfull
    · have hhash : H.hashBlockTokens prev ((r.allTokenIds.drop start).take H.blockSize)
          (r.generateBlockHashExtraKeys start (start + H.blockSize) idx).1 =
          H.itemHash (prev.getD H.noneHash) ((r.allTokenIds.drop start).take H.blockSize,
            (r.generateBlockHashExtraKeys start (start + H.blockSize) idx).1) := by
        unfold hashBlockTokens itemHash
        cases prev with
        | none => rfl
        | some p =>
          have hp : p ≠ [] := fun h => hprev (h ▸ rfl)
          simp [hp]
      dsimp only
      rw [Nat.add_sub_cancel_left, hhash, chain]
      congr 1
      exact ih _ (by omega) (start + H.blockSize) rfl _ _ fun h => hne _ (Option.some.inj h)
    · rfl

/-- **The block hashes are a chain.** It does not matter in which calls they were made,
except for what the items are. -/
theorem blockHashes_eq_chain (hne : ∀ x, H.hashFunction x ≠ []) (cuts : List ℕ) :
    H.blockHashes r cuts = chain H.itemHash H.noneHash (H.blockItems r cuts) := by
  -- both are folds over the calls, and each call goes on with the chain
  have hfold : ∀ (calls : List ℕ) (items : List (List ℤ × Option (List ExtraKey))),
      calls.foldl (fun hashes n => hashes ++ H.requestBlockHasher (r.grown n) hashes)
          (chain H.itemHash H.noneHash items) =
        chain H.itemHash H.noneHash
          (calls.foldl (fun items n => items ++ H.callItems (r.grown n) items.length) items) := by
    intro calls
    induction calls with
    | nil => exact fun _ => rfl
    | cons n calls ih =>
      intro items
      rw [foldl_cons, foldl_cons, ← ih, chain_append]
      congr 2
      rw [requestBlockHasher, length_chain, callItems]
      refine hasherLoop_eq_chain hne _ _ _ fun hlast => ?_
      obtain ⟨k, item, hempty⟩ := exists_of_mem_chain (mem_of_getLast? hlast)
      exact hne _ hempty.symm
  exact hfold (0 :: cuts) []

/-! ### The items -/

theorem prefix_allTokenIds_grown (n : ℕ) : (r.grown n).allTokenIds <+: r.allTokenIds :=
  (prefix_append_right_inj _).mpr <| take_prefix n _

theorem tokensAt_grown {n b : ℕ} (hb : (b + 1) * H.blockSize ≤ (r.grown n).allTokenIds.length) :
    H.tokensAt (r.grown n) b = H.tokensAt r b := by
  obtain ⟨rest, hrest⟩ := @prefix_allTokenIds_grown r n
  rw [Nat.succ_mul] at hb
  rw [tokensAt, tokensAt, ← hrest, drop_append_of_le_length (by omega),
    take_append_of_le_length (by rw [length_drop]; omega)]

variable (H r) in
/-- The number of full blocks when the request had `n` output tokens. -/
def fullBlocks (n : ℕ) : ℕ := (r.grown n).allTokenIds.length / H.blockSize

variable (H r) in
/-- The number of blocks that had hashes when the call began that hashed block `b`, if `k` had some
before the calls: the most that were full in a call before block `b` was. -/
def callStart (calls : List ℕ) (k b : ℕ) : ℕ :=
  ((calls.map (H.fullBlocks r)).takeWhile (· ≤ b)).foldl max k

variable (H r) in
/-- What is hashed for block `b`, in a call that starts with block `start`. -/
def itemAt (start b : ℕ) : List ℤ × Option (List ExtraKey) :=
  (H.tokensAt r b, r.extraKeysOf (b * H.blockSize) (b * H.blockSize + H.blockSize)
    (mmKeys (inputsAt r.mmFeatures H.blockSize start b)))

theorem loopItems_eq (hpos : 0 < H.blockSize) {start : ℕ} : ∀ {n b : ℕ} {idx : ℤ}, start ≤ b →
    r.allTokenIds.length / H.blockSize - b = n → r.CursorAt H.blockSize start b idx →
      H.loopItems r (b * H.blockSize) idx = (List.range' b n).map (H.itemAt r start) := by
  intro n
  induction n with
  | zero =>
    intro b idx _ hn _
    rw [loopItems, dif_neg]
    · rfl
    · rintro ⟨-, hle⟩
      rw [← Nat.succ_mul, ← Nat.le_div_iff_mul_le hpos] at hle
      omega
  | succ n ih =>
    intro b idx hb hn hat
    obtain ⟨hkeys, hnext⟩ := generateBlockHashExtraKeys_eq hpos hb hat
    have hfull : b * H.blockSize + H.blockSize ≤ r.allTokenIds.length := by
      rw [← Nat.succ_mul, ← Nat.le_div_iff_mul_le hpos]
      omega
    rw [loopItems, dif_pos ⟨hpos, hfull⟩, List.range'_succ, map_cons, hkeys,
      ← ih (by omega) (by omega) hnext, Nat.succ_mul]
    rfl

/-- What a call hashes when `k` blocks have hashes. -/
theorem callItems_eq (hpos : 0 < H.blockSize) (n k : ℕ) :
    H.callItems (r.grown n) k =
      (List.range' k (H.fullBlocks r n - k)).map (H.itemAt r k) := by
  rw [callItems, loopItems_eq hpos le_rfl rfl (cursorAt_start hpos)]
  refine map_congr_left fun b hb => ?_
  have hfull : b + 1 ≤ H.fullBlocks r n := by
    rw [mem_range'_1] at hb
    unfold fullBlocks
    omega
  rw [fullBlocks, Nat.le_div_iff_mul_le hpos] at hfull
  rw [itemAt, tokensAt_grown hfull]
  rfl

/-- Later calls leave what has been hashed. -/
theorem prefix_foldl (calls : List ℕ) (items : List (List ℤ × Option (List ExtraKey))) :
    items <+: calls.foldl (fun items n => items ++ H.callItems (r.grown n) items.length) items := by
  induction calls generalizing items with
  | nil => exact prefix_rfl
  | cons n calls ih => exact (prefix_append _ _).trans (ih _)

theorem blockSize_pos {cuts : List ℕ} {i : ℕ} (hi : i < (H.blockItems r cuts).length) :
    0 < H.blockSize := by
  by_contra hzero
  have hnil : ∀ calls : List ℕ, calls.foldl
      (fun items n => items ++ H.callItems (r.grown n) items.length) [] = [] := by
    intro calls
    induction calls with
    | nil => rfl
    | cons n calls ih =>
      rw [foldl_cons, callItems, loopItems, dif_neg fun h => hzero h.1]
      exact ih
  rw [blockItems, hnil] at hi
  exact absurd hi (Nat.not_lt_zero i)

/-- **What a block hash is made of**: the tokens of the block, and the extra keys with the inputs
that the call found in which the block was hashed. -/
theorem blockItems_getElem? (hpos : 0 < H.blockSize) (cuts : List ℕ) {b : ℕ}
    (hb : b < (H.blockItems r cuts).length) :
    (H.blockItems r cuts)[b]? = some (H.itemAt r (H.callStart r (0 :: cuts) 0 b) b) := by
  have hfold : ∀ (calls : List ℕ) (items : List (List ℤ × Option (List ExtraKey))) (b : ℕ) item,
      items.length ≤ b →
        (calls.foldl (fun items n => items ++ H.callItems (r.grown n) items.length) items)[b]? =
          some item → item = H.itemAt r (H.callStart r calls items.length b) b := by
    intro calls
    induction calls with
    | nil =>
      intro items b item hlen hitem
      rw [foldl_nil, List.getElem?_eq_none hlen] at hitem
      cases hitem
    | cons n calls ih =>
      intro items b item hlen hitem
      have hlength : (items ++ H.callItems (r.grown n) items.length).length =
          max items.length (H.fullBlocks r n) := by
        rw [length_append, callItems_eq hpos, length_map, length_range']
        omega
      rw [callStart, map_cons]
      by_cases hfull : H.fullBlocks r n ≤ b
      · rw [takeWhile_cons_of_pos (by simpa using hfull), foldl_cons, ← hlength]
        exact ih _ b item (by omega) hitem
      · -- the block is hashed in this call, and later ones leave it
        obtain ⟨rest, hrest⟩ :=
          prefix_foldl (H := H) (r := r) calls (items ++ H.callItems (r.grown n) items.length)
        rw [foldl_cons, ← hrest, List.getElem?_append_left (by omega),
          List.getElem?_append_right hlen, callItems_eq hpos, List.getElem?_map,
          List.getElem?_range' (by omega), Nat.one_mul, Nat.add_sub_cancel' hlen] at hitem
        rw [takeWhile_cons_of_neg (by simpa using hfull), foldl_nil]
        exact (Option.some.inj hitem).symm
  have hitem := List.getElem?_eq_getElem hb
  rw [hitem, hfold (0 :: cuts) [] b _ (Nat.zero_le b) hitem]
  rfl

/-! ### What equal hashes say -/

/-- **Equal hashes, equal items**: the tokens and the extra keys of the blocks up to its own are all
that a block hash says. -/
theorem blockHashes_getElem?_eq_iff (hinj : Function.Injective H.hashFunction)
    (hne : ∀ x, H.hashFunction x ≠ []) (hpos : 0 < H.blockSize) {cuts cuts' : List ℕ} {i : ℕ}
    (hi : i < (H.blockHashes r cuts).length) (hi' : i < (H.blockHashes r' cuts').length) :
    (H.blockHashes r cuts)[i]? = (H.blockHashes r' cuts')[i]? ↔
      ∀ b ≤ i, H.itemAt r (H.callStart r (0 :: cuts) 0 b) b =
        H.itemAt r' (H.callStart r' (0 :: cuts') 0 b) b := by
  rw [blockHashes_eq_chain hne, length_chain] at hi hi'
  have hitem : ∀ {k k' : List UInt8} {a a' : List ℤ × Option (List ExtraKey)}, True → True →
      H.itemHash k a = H.itemHash k' a' → k = k' ∧ a = a' := by
    intro k k' a a' _ _ h
    have hparts := hinj h
    rw [Prod.mk.injEq] at hparts
    exact hparts
  rw [blockHashes_eq_chain hne, blockHashes_eq_chain hne,
    chain_getElem?_eq_iff hitem (fun _ _ => trivial) (fun _ _ => trivial) hi hi']
  constructor
  · rintro ⟨-, htake⟩ b hb
    have hget := congrArg (·[b]?) htake
    simp only [List.getElem?_take_of_lt (Nat.lt_succ_of_le hb),
      blockItems_getElem? hpos _ (hb.trans_lt hi), blockItems_getElem? hpos _ (hb.trans_lt hi')] at hget
    exact Option.some.inj hget
  · refine fun h => ⟨rfl, ext_getElem? fun b => ?_⟩
    rw [List.getElem?_take, List.getElem?_take]
    split_ifs with hb
    · have hb := Nat.le_of_lt_succ hb
      rw [blockItems_getElem? hpos _ (hb.trans_lt hi), blockItems_getElem? hpos _ (hb.trans_lt hi'),
        h b hb]
    · rfl

/-- Names before other keys are told apart from them. -/
theorem map_str_append_inj {l l' : List String} {e e' : List (List UInt8)} :
    l.map ExtraKey.str ++ e.map .bytes = l'.map .str ++ e'.map .bytes ↔ l = l' ∧ e = e' := by
  induction l generalizing l' with
  | nil =>
    cases l' with
    | nil => simp [map_inj_right (fun a b h => ExtraKey.bytes.inj h)]
    | cons a l' => cases e <;> simp
  | cons a l ih =>
    cases l' with
    | nil => cases e' <;> simp
    | cons a' l' => simp [ih, and_assoc]

/-- The names in the extra keys of a block are those of the adapter, the inputs and the salt, and
the rest are bytes. -/
theorem extraKeysOf_eq_iff {B b : ℕ} {fs fs' : List MmFeature} :
    r.extraKeysOf (b * B) (b * B + B) (mmKeys fs) = r'.extraKeysOf (b * B) (b * B + B) (mmKeys fs') ↔
      r.loraName.toList ++ fs.map MmFeature.identifier ++
          (if b * B = 0 then r.salt.toList else []) =
        r'.loraName.toList ++ fs'.map MmFeature.identifier ++
          (if b * B = 0 then r'.salt.toList else []) ∧
      r.embedsAt B b = r'.embedsAt B b := by
  -- all keys but the embeddings are strings, in one sequence
  have hkeys : ∀ (q : VllmRequest) (fs : List MmFeature),
      q.genLoraExtraHashKeys ++ mmKeys fs ++ q.cacheSaltKeys (b * B) ++
          q.genPromptEmbedsExtraHashKeys (b * B) (b * B + B) =
        (q.loraName.toList ++ fs.map MmFeature.identifier ++
          (if b * B = 0 then q.salt.toList else [])).map .str ++
          (q.embedsAt B b).toList.map .bytes := by
    intro q fs
    have hsalt : q.cacheSaltKeys (b * B) =
        (if b * B = 0 then q.salt.toList else []).map ExtraKey.str := by
      unfold cacheSaltKeys VllmRequest.salt
      cases q.cacheSalt with
      | none => split_ifs <;> rfl
      | some salt => by_cases hs : salt = "" <;> by_cases hb : b * B = 0 <;> simp [hs, hb, Option.filter]
    have hembeds : q.genPromptEmbedsExtraHashKeys (b * B) (b * B + B) =
        (q.embedsAt B b).toList.map .bytes := by
      unfold genPromptEmbedsExtraHashKeys VllmRequest.embedsAt
      cases q.promptEmbeds <;> simp
    rw [hsalt, hembeds, map_append, map_append, genLoraExtraHashKeys, mmKeys, map_map]
    rfl
  have hsome : ∀ {l l' : List ExtraKey},
      (if l = [] then none else some l) = (if l' = [] then none else some l') ↔ l = l' := by
    intro l l'
    split_ifs <;> simp_all [eq_comm]
  have hembeds : ∀ {o o' : Option (List UInt8)}, o.toList = o'.toList ↔ o = o' := by
    intro o o'
    cases o <;> cases o' <;> simp
  rw [extraKeysOf, extraKeysOf, hsome, hkeys, hkeys, map_str_append_inj, hembeds]

/-- Names with a salt behind them, if there is one, are the same: the salts are, or the one salt is
the last name on the other side. -/
def SaltFits (l l' : List String) (salt salt' : Option String) : Prop :=
  l = l' ∧ salt = salt' ∨ (∃ s, salt = some s ∧ salt' = none ∧ l' = l ++ [s]) ∨
    ∃ s, salt = none ∧ salt' = some s ∧ l = l' ++ [s]

theorem append_salt_eq_iff {l l' : List String} {salt salt' : Option String} :
    l ++ salt.toList = l' ++ salt'.toList ↔ SaltFits l l' salt salt' := by
  cases salt <;> cases salt' <;> simp [SaltFits, eq_comm]

/-- Two requests that differ up to the token `n` and have, given the identifiers of the inputs that
are found in each block, the same names in the blocks up to `i`. -/
inductive Collides (r r' : VllmRequest) (ids ids' : ℕ → List String) (i n : ℕ) : Prop
  /-- Only one request has an adapter. Its name is that of the other's first input in each block,
  or in the first block of the other's salt. -/
  | adapter {x : String} (hlora : r.loraName = some x) (hlora' : r'.loraName = none)
      (hfirst : SaltFits (x :: ids 0) (ids' 0) r.salt r'.salt)
      (hids : ∀ b, 0 < b → b ≤ i → x :: ids b = ids' b)
  /-- The salts differ. One of them is empty and the other none, or only one counts, and it is the
  name of the other's last input in the first block. -/
  | salt (hlora : r.loraName = r'.loraName) (hsalt : r.cacheSalt ≠ r'.cacheSalt)
      (hfirst : SaltFits (ids 0) (ids' 0) r.salt r'.salt)
      (hids : ∀ b, 0 < b → b ≤ i → ids b = ids' b)
  /-- The inputs are found in the same blocks, but are at other tokens. -/
  | place (hlora : r.loraName = r'.loraName) (hsalt : r.cacheSalt = r'.cacheSalt)
      (hids : ∀ b ≤ i, ids b = ids' b) {t : ℕ} (ht : t < n) (hmm : r.mmAt t ≠ r'.mmAt t)

/-- Requests with one adapter that differ and have the same names collide by their salts or by the
places of their inputs. -/
theorem collides_of_lora_eq {ids ids' : ℕ → List String} {i n : ℕ}
    (hlora : r.loraName = r'.loraName) (hfirst : SaltFits (ids 0) (ids' 0) r.salt r'.salt)
    (hids : ∀ b, 0 < b → b ≤ i → ids b = ids' b) (hdiffer : ¬r.SameUpTo r' n) :
    Collides r r' ids ids' i n := by
  by_cases hsalt : r.cacheSalt = r'.cacheSalt
  · have heq : r.salt = r'.salt := congrArg (Option.filter _) hsalt
    have hzero : ids 0 = ids' 0 := by
      rcases hfirst with ⟨h, -⟩ | ⟨s, h, h', -⟩ | ⟨s, h, h', -⟩
      · exact h
      · simp [heq, h'] at h
      · simp [← heq, h] at h'
    have hmm : ∃ t < n, r.mmAt t ≠ r'.mmAt t := by
      by_contra hsame
      push Not at hsame
      exact hdiffer ⟨hlora, hsalt, hsame⟩
    obtain ⟨t, ht, hmm⟩ := hmm
    refine .place hlora hsalt (fun b hb => ?_) ht hmm
    rcases Nat.eq_zero_or_pos b with rfl | hpos
    · exact hzero
    · exact hids b hpos hb
  · exact .salt hlora hsalt hfirst hids

/-- The names that an adapter, inputs and a salt give in the blocks up to `i` are the same. -/
def SameNames (r r' : VllmRequest) (ids ids' : ℕ → List String) (i : ℕ) : Prop :=
  ∀ b ≤ i, r.loraName.toList ++ ids b ++ (if b = 0 then r.salt.toList else []) =
    r'.loraName.toList ++ ids' b ++ (if b = 0 then r'.salt.toList else [])

theorem sameNames_iff {ids ids' : ℕ → List String} {i : ℕ} : SameNames r r' ids ids' i ↔
    SaltFits (r.loraName.toList ++ ids 0) (r'.loraName.toList ++ ids' 0) r.salt r'.salt ∧
      ∀ b, 0 < b → b ≤ i → r.loraName.toList ++ ids b = r'.loraName.toList ++ ids' b := by
  rw [← append_salt_eq_iff]
  constructor
  · exact fun h => ⟨h 0 (Nat.zero_le i), fun b hpos hb => by simpa [hpos.ne'] using h b hb⟩
  · rintro ⟨hfirst, hrest⟩ b hb
    rcases Nat.eq_zero_or_pos b with rfl | hpos
    · exact hfirst
    · simpa [hpos.ne'] using hrest b hpos hb

theorem Collides.sameNames {ids ids' : ℕ → List String} {i n : ℕ}
    (h : Collides r r' ids ids' i n) : SameNames r r' ids ids' i ∧ ¬r.SameUpTo r' n := by
  rw [sameNames_iff]
  cases h with
  | adapter hlora hlora' hfirst hids =>
    refine ⟨?_, fun hsame => by simpa [hlora, hlora'] using hsame.lora⟩
    rw [hlora, hlora']
    exact ⟨hfirst, hids⟩
  | salt hlora hsalt hfirst hids =>
    refine ⟨?_, fun hsame => hsalt hsame.salt⟩
    rw [← append_salt_eq_iff] at hfirst ⊢
    rw [hlora, append_assoc, append_assoc, hfirst]
    exact ⟨rfl, fun b hpos hb => by rw [hids b hpos hb]⟩
  | place hlora hsalt hids ht hmm =>
    have heq : r.salt = r'.salt := congrArg (Option.filter _) hsalt
    refine ⟨?_, fun hsame => hmm (hsame.mm _ ht)⟩
    rw [hlora, hids 0 (Nat.zero_le i)]
    exact ⟨Or.inl ⟨rfl, heq⟩, fun b _ hb => by rw [hids b hb]⟩

/-- **Requests that differ and have the same names in their blocks are those that collide.** -/
theorem collides_iff {ids ids' : ℕ → List String} {i n : ℕ} :
    SameNames r r' ids ids' i ∧ ¬r.SameUpTo r' n ↔
      Collides r r' ids ids' i n ∨ Collides r' r ids' ids i n := by
  constructor
  · rintro ⟨hnames, hdiffer⟩
    have hsym : ¬r'.SameUpTo r n := fun h =>
      hdiffer ⟨h.lora.symm, h.salt.symm, fun t ht => (h.mm t ht).symm⟩
    have hnames' : SameNames r' r ids' ids i := fun b hb => (hnames b hb).symm
    rw [sameNames_iff] at hnames hnames'
    -- an adapter on one side stands where the other has an input or its salt
    cases hlora : r.loraName with
    | none =>
      cases hlora' : r'.loraName with
      | none =>
        rw [hlora, hlora'] at hnames
        exact Or.inl (collides_of_lora_eq (hlora.trans hlora'.symm) hnames.1 hnames.2 hdiffer)
      | some x =>
        rw [hlora, hlora'] at hnames'
        exact Or.inr (.adapter hlora' hlora hnames'.1 hnames'.2)
    | some x =>
      cases hlora' : r'.loraName with
      | none =>
        rw [hlora, hlora'] at hnames
        exact Or.inl (.adapter hlora hlora' hnames.1 hnames.2)
      | some y =>
        rw [hlora, hlora', ← append_salt_eq_iff] at hnames
        obtain ⟨hfirst, hrest⟩ := hnames
        obtain ⟨rfl, hfirst'⟩ := List.cons.inj hfirst
        exact Or.inl (collides_of_lora_eq (hlora.trans hlora'.symm) (append_salt_eq_iff.mp hfirst')
          (fun b hpos hb => (List.cons.inj (hrest b hpos hb)).2) hdiffer)
  · rintro (h | h)
    · exact h.sameNames
    · obtain ⟨hnames, hdiffer⟩ := h.sameNames
      exact ⟨fun b hb => (hnames b hb).symm, fun hsame =>
        hdiffer ⟨hsame.lora.symm, hsame.salt.symm, fun t ht => (hsame.mm t ht).symm⟩⟩

variable (H r) in
/-- The identifiers of the inputs that were found when block `b` was hashed. -/
def idsAt (cuts : List ℕ) (b : ℕ) : List String :=
  (inputsAt r.mmFeatures H.blockSize (H.callStart r (0 :: cuts) 0 b) b).map MmFeature.identifier

/-- **Which requests are told apart by their block hashes.** For two requests that both have a hash
at index `i`: an equal hash there implies that the tokens up to there, the adapter, the salt and the
multi-modal inputs are equal if and only if the tokens or the prompt embeddings of some block up to
there differ, or the requests are none of those that collide. -/
theorem isolated_iff (hinj : Function.Injective H.hashFunction) (hne : ∀ x, H.hashFunction x ≠ [])
    {cuts cuts' : List ℕ} {i : ℕ} (hi : i < (H.blockHashes r cuts).length)
    (hi' : i < (H.blockHashes r' cuts').length) :
    ((H.blockHashes r cuts)[i]? = (H.blockHashes r' cuts')[i]? →
      r.allTokenIds.take ((i + 1) * H.blockSize) = r'.allTokenIds.take ((i + 1) * H.blockSize) ∧
        r.SameUpTo r' ((i + 1) * H.blockSize)) ↔
    r.allTokenIds.take ((i + 1) * H.blockSize) ≠ r'.allTokenIds.take ((i + 1) * H.blockSize) ∨
      (∃ b ≤ i, r.embedsAt H.blockSize b ≠ r'.embedsAt H.blockSize b) ∨
      ¬(Collides r r' (H.idsAt r cuts) (H.idsAt r' cuts') i ((i + 1) * H.blockSize) ∨
        Collides r' r (H.idsAt r' cuts') (H.idsAt r cuts) i ((i + 1) * H.blockSize)) := by
  have hpos : 0 < H.blockSize := by
    rw [blockHashes_eq_chain hne, length_chain] at hi
    exact blockSize_pos hi
  have hzero : ∀ b, b * H.blockSize = 0 ↔ b = 0 := fun b => by simp [hpos.ne']
  -- equal hashes mean equal tokens, names and embeddings in each block
  have hequal : (H.blockHashes r cuts)[i]? = (H.blockHashes r' cuts')[i]? ↔
      r.allTokenIds.take ((i + 1) * H.blockSize) = r'.allTokenIds.take ((i + 1) * H.blockSize) ∧
        SameNames r r' (H.idsAt r cuts) (H.idsAt r' cuts') i ∧
        ∀ b ≤ i, r.embedsAt H.blockSize b = r'.embedsAt H.blockSize b := by
    rw [blockHashes_getElem?_eq_iff hinj hne hpos hi hi', take_mul_eq_iff]
    simp only [itemAt, Prod.mk.injEq, extraKeysOf_eq_iff, hzero, Nat.lt_succ_iff, SameNames, idsAt,
      tokensAt, forall_and]
  rw [hequal, ← collides_iff]
  by_cases hembeds : ∀ b ≤ i, r.embedsAt H.blockSize b = r'.embedsAt H.blockSize b
  · have hnone : ¬∃ b ≤ i, r.embedsAt H.blockSize b ≠ r'.embedsAt H.blockSize b := by
      rintro ⟨b, hb, hne⟩
      exact hne (hembeds b hb)
    tauto
  · push Not at hembeds
    refine iff_of_true (fun h => ?_) (Or.inr (Or.inl hembeds))
    obtain ⟨b, hb, hne⟩ := hembeds
    exact absurd (h.2.2 b hb) hne

/-- There are injective hash functions for blocks that never return an empty digest. -/
theorem exists_nonempty_hash :
    ∃ f : List UInt8 × List ℤ × Option (List ExtraKey) → List UInt8,
      Function.Injective f ∧ ∀ x, f x ≠ [] := by
  obtain ⟨f, hf⟩ := exists_injective_hash
  exact ⟨fun x => 0 :: f x, fun x y h => hf (List.cons.inj h).2, fun x => cons_ne_nil _ _⟩

/-- A request of text with a salt. -/
def saltedRequest (salt : String) (ids : List ℤ) : VllmRequest :=
  ⟨some ids, none, [], [], none, some salt⟩

/-- A request with one image, at one token. -/
def imageRequest (offset : ℕ) (ids : List ℤ) : VllmRequest :=
  ⟨some ids, none, [], [⟨"image", offset, 1⟩], none, none⟩

theorem isolated_of_two_salts : ∃ H : BlockHasher, Function.Injective H.hashFunction ∧
    (∀ x, H.hashFunction x ≠ []) ∧ (H.blockHashes (saltedRequest "s" [1, 2]) []).length = 1 ∧
    (H.blockHashes (saltedRequest "s" [1, 2]) [])[0]? ≠
      (H.blockHashes (saltedRequest "t" [1, 2]) [])[0]? := by
  obtain ⟨f, hf, hne⟩ := exists_nonempty_hash
  have hlength : ∀ salt, (blockHashes ⟨f, [], 2⟩ (saltedRequest salt [1, 2]) []).length = 1 := by
    intro salt
    simp [blockHashes, requestBlockHasher, hasherLoop, allTokenIds, grown,
      saltedRequest]
  refine ⟨⟨f, [], 2⟩, hf, hne, hlength "s", fun heq => ?_⟩
  have hpos : ∀ salt, 0 < (blockHashes ⟨f, [], 2⟩ (saltedRequest salt [1, 2]) []).length :=
    fun salt => Nat.lt_of_lt_of_eq Nat.one_pos (hlength salt).symm
  have hnone : ∀ {s t : String}, s ≠ "" → t ≠ "" → s ≠ t →
      ¬Collides (saltedRequest s [1, 2]) (saltedRequest t [1, 2])
        (idsAt ⟨f, [], 2⟩ (saltedRequest s [1, 2]) [])
        (idsAt ⟨f, [], 2⟩ (saltedRequest t [1, 2]) []) 0 2 := by
    intro s t hs ht hst h
    cases h with
    | adapter hlora => cases hlora
    | salt _ _ hfirst =>
      simp [SaltFits, VllmRequest.salt, saltedRequest, Option.filter, hs, ht, hst] at hfirst
    | place _ hsalt => exact hst (Option.some.inj hsalt)
  have hsame := (isolated_iff (H := ⟨f, [], 2⟩) hf hne (hpos "s") (hpos "t")).mpr
    (Or.inr (Or.inr (not_or.mpr ⟨hnone (by decide) (by decide) (by decide),
      hnone (by decide) (by decide) (by decide)⟩))) heq
  exact absurd hsame.2.salt (by decide)

/-- An adapter and a salt of one name, and one image at two places: the hashes are equal. -/
theorem not_isolated_of_adapter_and_salt : ∃ H : BlockHasher, Function.Injective H.hashFunction ∧
    (∀ x, H.hashFunction x ≠ []) ∧
    ((H.blockHashes (adapterRequest (some "x") [1, 2]) []).length = 1 ∧
      (H.blockHashes (adapterRequest (some "x") [1, 2]) [])[0]? =
        (H.blockHashes (saltedRequest "x" [1, 2]) [])[0]? ∧
      (adapterRequest (some "x") [1, 2]).loraName ≠ (saltedRequest "x" [1, 2]).loraName ∧
      (adapterRequest (some "x") [1, 2]).cacheSalt ≠ (saltedRequest "x" [1, 2]).cacheSalt) ∧
    ((H.blockHashes (imageRequest 0 [7, 7]) []).length = 1 ∧
      (H.blockHashes (imageRequest 0 [7, 7]) [])[0]? =
        (H.blockHashes (imageRequest 1 [7, 7]) [])[0]? ∧
      (imageRequest 0 [7, 7]).mmAt 0 ≠ (imageRequest 1 [7, 7]).mmAt 0) := by
  obtain ⟨f, hf, hne⟩ := exists_nonempty_hash
  refine ⟨⟨f, [], 2⟩, hf, hne, ⟨?_, ?_, by decide, by decide⟩, ?_, ?_, by decide⟩ <;>
    simp [blockHashes, requestBlockHasher, hasherLoop, allTokenIds, grown,
      generateBlockHashExtraKeys, genMmExtraHashKeys,
      genLoraExtraHashKeys, cacheSaltKeys, mmLoop,
      genPromptEmbedsExtraHashKeys, saltedRequest, adapterRequest, imageRequest]

end BlockHasher

end CacheFlow
