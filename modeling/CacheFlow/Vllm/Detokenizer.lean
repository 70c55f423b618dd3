import Mathlib.Tactic

/-!
# Stop strings

`BaseIncrementalDetokenizer` of `detokenizer.py` decodes the tokens of a request as they come, cuts
the text at a stop string, and hands it out in deltas. Of several stop strings that are completed in
one call of `update`, `check_stop_strings` takes the first one of the list, not of the text. So how
the tokens are grouped into calls makes no difference, and the text is cut at the first stop string,
exactly if this one is also the first in the list of those that are completed in the text. How a token
is decoded may depend on the tokens before it, but not on their grouping, so a token is modelled by
the piece of text that `decode_next` makes of it.

## Main definitions

* `StopParams.run` — the calls for a request, up to its end.

## Main results

* `StopParams.run_grouping_iff` — **when the grouping makes no difference.**
-/

namespace CacheFlow

open List

variable {α : Type}

/-- `str.find(sub, start)`, where a negative `start` counts from the end. -/
def strFind [DecidableEq α] (text sub : List α) (start : ℤ) : Option ℕ :=
  (range (text.length + 1)).find? fun i =>
    sub <+: text.drop i ∧ (if start < 0 then start + text.length else start) ≤ (i : ℤ)

/-- `check_stop_strings`: the stop string and the length to cut the text to, or -1. -/
def checkStopStrings [DecidableEq α] (outputText : List α) (newCharCount : ℕ)
    (stop : List (List α)) (includeInOutput : Bool) : Option (List α × ℤ) :=
  if newCharCount = 0 ∨ stop.isEmpty then none
  else stop.findSome? fun stopStr =>
    (strFind outputText stopStr (1 - newCharCount - stopStr.length)).map fun stopIndex =>
      if includeInOutput then
        if outputText.length ≤ stopIndex + stopStr.length then (stopStr, -1)
        else (stopStr, stopIndex + stopStr.length)
      else (stopStr, stopIndex)

/-- The sampling parameters that matter here; empty stop strings are refused. -/
structure StopParams (α : Type) where
  stop : List (List α)
  minTokens : ℕ
  includeStopStrInOutput : Bool
  nonempty : ∀ s ∈ stop, s ≠ []

/-- `BaseIncrementalDetokenizer`. -/
structure Detokenizer (α : Type) where
  tokens : List (List α)
  outputText : List α
  lastOutputTextOffset : ℕ

/-- What comes of a request: the stop string, the text and the deltas. -/
structure Report (α : Type) where
  stop : Option (List α)
  text : List α
  deltas : List (List α)

namespace StopParams

variable (c : StopParams α)

/-- How many characters are held back while a stop string may still come. -/
def stopBufferLength : ℕ :=
  if c.stop.isEmpty || c.includeStopStrInOutput then 0 else (c.stop.map length).max?.getD 0 - 1

/-- The loop of `update`, with `stop_check_offset`. -/
def decodeLoop (ts : List (List α)) (text : List α) (offset : ℕ) :
    List (List α) → List (List α) × List α × ℕ
  | [] => (ts, text, offset)
  | t :: new =>
    decodeLoop (ts ++ [t]) (text ++ t)
      (if c.minTokens ≠ 0 ∧ (ts ++ [t]).length ≤ c.minTokens then (text ++ t).length else offset) new

/-- The tokens that are decoded: not the stop token, if stop strings are left out. -/
def decoded (newTokens : List (List α)) (stopTerminated : Bool) : List (List α) :=
  if stopTerminated && !c.includeStopStrInOutput then newTokens.dropLast else newTokens

/-- `update`, with the stop string it returns. -/
def update [DecidableEq α] (d : Detokenizer α) (newTokens : List (List α)) (stopTerminated : Bool) :
    Detokenizer α × Option (List α) :=
  if newTokens.isEmpty then (d, none)
  else
    let (ts, text, offset) := c.decodeLoop d.tokens d.outputText d.outputText.length
      (c.decoded newTokens stopTerminated)
    -- A stop token that was skipped counts for `min_tokens`.
    let ts := ts ++ newTokens.drop (c.decoded newTokens stopTerminated).length
    let stop := if !c.stop.isEmpty && c.minTokens < ts.length then
      checkStopStrings text (text.length - offset) c.stop c.includeStopStrInOutput else none
    ({ d with
        tokens := ts
        outputText := stop.elim text fun st => if st.2 ≠ -1 then text.take st.2.toNat else text },
      stop.map Prod.fst)

/-- `get_next_output_text`. -/
def getNextOutputText (d : Detokenizer α) (finished delta : Bool) : Detokenizer α × List α :=
  let length := d.outputText.length - if finished then 0 else c.stopBufferLength
  if !delta then (d, d.outputText.take length)
  else if d.lastOutputTextOffset < length then
    ({ d with lastOutputTextOffset := length },
      (d.outputText.take length).drop d.lastOutputTextOffset)
  else (d, [])

/-- The calls for a request: its tokens come in `groups`, and then in a last group, after which it
is finished, and which has the stop token, if there is one. A stop string finishes it, too. -/
def feed [DecidableEq α] (last : List (List α)) (stopToken : Option (List α)) :
    Detokenizer α → List (List (List α)) → Report α
  | d, [] =>
    let (d', stop) := c.update d (last ++ stopToken.toList) stopToken.isSome
    ⟨stop, d'.outputText, [(c.getNextOutputText d' true true).2]⟩
  | d, g :: groups =>
    let (d', stop) := c.update d g false
    let (d'', delta) := c.getNextOutputText d' stop.isSome true
    if stop.isSome then ⟨stop, d'.outputText, [delta]⟩
    else
      let r := feed last stopToken d'' groups
      { r with deltas := delta :: r.deltas }

/-- The calls from the first one on. -/
def run [DecidableEq α] (groups : List (List (List α))) (last : List (List α))
    (stopToken : Option (List α)) : Report α :=
  c.feed last stopToken ⟨[], [], 0⟩ groups

/-! ### The cut -/

/-- `sub` is in the text at `i`, and ends behind the offset. -/
def EndsBehind (offset : ℕ) (text sub : List α) (i : ℕ) : Prop :=
  sub <+: text.drop i ∧ offset < i + sub.length

theorem EndsBehind.le {offset i : ℕ} {text sub : List α} (h : EndsBehind offset text sub i)
    (hsub : sub ≠ []) : i + sub.length ≤ text.length := by
  have hle := h.1.length_le
  have hpos := length_pos_iff.mpr hsub
  rw [length_drop] at hle
  omega

/-- How long the text of the first `min_tokens` tokens is. -/
def minText (ts : List (List α)) : ℕ :=
  (ts.take c.minTokens).flatten.length

/-- The stop string `s` is in the text at `i`, and ends after the first `min_tokens` tokens. -/
def Completes (ts : List (List α)) (s : List α) (i : ℕ) : Prop :=
  s ∈ c.stop ∧ EndsBehind (c.minText ts) ts.flatten s i

/-- The text ends at the stop string that is completed first, or is whole without one. -/
inductive Cut (ts : List (List α)) : Option (List α) → List α → Prop
  | whole (hno : ∀ s i, ¬ c.Completes ts s i) : Cut ts none ts.flatten
  | stop {s : List α} {i : ℕ} (h : c.Completes ts s i)
      (hfirst : ∀ s' j, c.Completes ts s' j → i + s.length ≤ j + s'.length) :
      Cut ts (some s) (ts.flatten.take (if c.includeStopStrInOutput then i + s.length else i))

variable [DecidableEq α]

/-- A stop string that is completed first is the first in the list of those that are completed. -/
def StopsInOrder (ts : List (List α)) : Prop :=
  (∃ s i, c.Completes ts s i) → ∃ s i, c.Completes ts s i ∧ ∀ s' j, c.Completes ts s' j →
    c.stop.idxOf s ≤ c.stop.idxOf s' ∧ i + s.length ≤ j + s'.length

/-- What one call finds: the first place of the stop string that is the first in the list. -/
inductive Found (ts : List (List α)) : Option (List α) → List α → Prop
  | whole (hno : ∀ s i, ¬ c.Completes ts s i) : Found ts none ts.flatten
  | stop {s : List α} {i : ℕ} (h : c.Completes ts s i) (hplace : ∀ j, c.Completes ts s j → i ≤ j)
      (hlist : ∀ s' j, c.Completes ts s' j → c.stop.idxOf s ≤ c.stop.idxOf s') :
      Found ts (some s) (ts.flatten.take (if c.includeStopStrInOutput then i + s.length else i))

variable {c} {d : Detokenizer α} {ts more : List (List α)} {s text : List α} {i : ℕ}
  {o : Option (List α)}

omit [DecidableEq α]

theorem minText_le_append (ts more : List (List α)) : c.minText ts ≤ c.minText (ts ++ more) :=
  ((prefix_append ts more).take c.minTokens).flatten.length_le

theorem minText_of_le (h : ts.length ≤ c.minTokens) : c.minText ts = ts.flatten.length := by
  rw [minText, take_of_length_le h]

theorem minText_le : c.minText ts ≤ ts.flatten.length := by
  have h := take_prefix c.minTokens ts
  exact h.flatten.length_le

theorem minText_append (h : c.minTokens ≤ ts.length) : c.minText (ts ++ more) = c.minText ts := by
  rw [minText, take_append_of_le_length h, minText]

theorem Completes.le (h : c.Completes ts s i) : i + s.length ≤ ts.flatten.length :=
  h.2.le (c.nonempty s h.1)

/-- More tokens complete no stop string in the text before. -/
theorem completes_append_iff (hle : i + s.length ≤ ts.flatten.length) :
    c.Completes (ts ++ more) s i ↔ c.Completes ts s i := by
  refine and_congr_right fun _ => and_congr ?_ ?_
  · rw [flatten_append, drop_append_of_le_length (by omega), prefix_iff_eq_take, prefix_iff_eq_take,
      take_append_of_le_length (by rw [length_drop]; omega)]
  · rcases Nat.lt_or_ge ts.length c.minTokens with hlt | hge
    · -- The text is that of the first tokens, and nothing in it is after it.
      have heq := minText_of_le (c := c) hlt.le
      have hmono := minText_le_append (c := c) ts more
      omega
    · rw [minText_append hge]

theorem length_le_stopBufferLength (hs : s ∈ c.stop) (hincl : ¬ c.includeStopStrInOutput) :
    s.length ≤ c.stopBufferLength + 1 := by
  have hle := le_max?_getD_of_mem (k := 0) (mem_map_of_mem (f := length) hs)
  rw [stopBufferLength, if_neg (by simp [hincl, ne_nil_of_mem hs])]
  omega

theorem take_flatten_append (more : List (List α)) {k : ℕ} (h : k ≤ ts.flatten.length) :
    (ts ++ more).flatten.take k = ts.flatten.take k := by
  rw [flatten_append, take_append_of_le_length h]

section Order

variable [DecidableEq α]

/-- What is found is completed first, also in a longer text in which the stop strings are in
order. -/
theorem StopsInOrder.first (h : c.StopsInOrder (ts ++ more)) (hs : c.Completes ts s i)
    (hplace : ∀ j, c.Completes ts s j → i ≤ j)
    (hlist : ∀ s' j, c.Completes ts s' j → c.stop.idxOf s ≤ c.stop.idxOf s') :
    ∀ s' j, c.Completes (ts ++ more) s' j →
      c.stop.idxOf s ≤ c.stop.idxOf s' ∧ i + s.length ≤ j + s'.length := by
  have hs' : c.Completes (ts ++ more) s i := (completes_append_iff hs.le).mpr hs
  obtain ⟨t, k, ht, hall⟩ := h ⟨s, i, hs'⟩
  obtain ⟨hidx, hend⟩ := hall s i hs'
  have ht' := (completes_append_iff (hend.trans hs.le)).mp ht
  obtain rfl : t = s := (idxOf_inj ht.1).mp (hidx.antisymm (hlist t k ht'))
  obtain rfl : k = i := by
    have hle := hplace k ht'
    omega
  exact hall

namespace Found

/-- What is found stays whatever comes after it. -/
theorem append (h : c.Found ts (some s) text) (hord : c.StopsInOrder (ts ++ more)) :
    c.Found (ts ++ more) (some s) text := by
  cases h with
  | @stop _ i h hplace hlist =>
    have hfirst := hord.first h hplace hlist
    have hle := h.le
    rw [← take_flatten_append more (by split <;> omega)]
    refine .stop ((completes_append_iff hle).mpr h) (fun j hj => ?_) fun s' j hj =>
      (hfirst s' j hj).1
    have hend := (hfirst s j hj).2
    omega

theorem cut (h : c.Found ts o text) (hord : c.StopsInOrder ts) : c.Cut ts o text := by
  cases h with
  | whole hno => exact .whole hno
  | stop h hplace hlist =>
    rw [← append_nil ts] at hord
    have hfirst := hord.first h hplace hlist
    rw [append_nil] at hfirst
    exact .stop h fun s' j hj => (hfirst s' j hj).2

/-- If a call cuts the text where it should, the stop strings are in order. -/
theorem stopsInOrder (h : c.Found ts o text) (hcut : c.Cut ts o text) : c.StopsInOrder ts := by
  rintro ⟨s, i, hs⟩
  cases h with
  | whole hno => exact absurd hs (hno s i)
  | stop _ _ hlist =>
    generalize (ts.flatten.take _) = text at hcut
    cases hcut with
    | stop h hfirst => exact ⟨_, _, h, fun s' j hj => ⟨hlist s' j hj, hfirst s' j hj⟩⟩

theorem of_none (h : c.Found ts none text) :
    (∀ s i, ¬ c.Completes ts s i) ∧ text = ts.flatten := by
  cases h with
  | whole h => exact ⟨h, rfl⟩

/-- What is not held back of a text without stop strings stays. -/
theorem keeps {k : ℕ} (h : c.Found (ts ++ more) o text) (hno : ∀ s i, ¬ c.Completes ts s i)
    (hk : k ≤ ts.flatten.length - c.stopBufferLength) : ts.flatten.take k <+: text := by
  rw [← take_flatten_append more (by omega)]
  cases h with
  | whole _ => exact take_prefix k _
  | @stop s i h _ _ =>
    have hnew : ¬ i + s.length ≤ ts.flatten.length := fun hle =>
      hno s i ((completes_append_iff hle).mp h)
    refine take_prefix_take_left ?_
    split_ifs with hincl
    · omega
    · have hlen := length_le_stopBufferLength h.1 hincl
      omega

theorem unique {o' : Option (List α)} {text' : List α} (h : c.Found ts o text)
    (h' : c.Found ts o' text') : o = o' ∧ text = text' := by
  cases h with
  | whole hno =>
    cases h' with
    | whole _ => exact ⟨rfl, rfl⟩
    | stop h' _ _ => exact absurd h' (hno _ _)
  | stop h hplace hlist =>
    cases h' with
    | whole hno => exact absurd h (hno _ _)
    | stop h' hplace' hlist' =>
      obtain rfl := (idxOf_inj h.1).mp ((hlist _ _ h').antisymm (hlist' _ _ h))
      rw [(hplace _ h').antisymm (hplace' _ h)]
      exact ⟨rfl, rfl⟩

end Found

end Order

/-! ### The calls -/

theorem decodeLoop_eq (new ts : List (List α)) {offset : ℕ} (hmin : c.minText ts ≤ offset)
    (hle : offset ≤ ts.flatten.length) :
    c.decodeLoop ts ts.flatten offset new =
      (ts ++ new, (ts ++ new).flatten, max offset (c.minText (ts ++ new))) := by
  induction new generalizing ts offset with
  | nil => simp [decodeLoop, hmin]
  | cons t new ih =>
    have htext : ts.flatten ++ t = (ts ++ [t]).flatten := by simp
    have hle' : offset ≤ (ts ++ [t]).flatten.length := hle.trans (by simp)
    rw [decodeLoop, htext, append_cons ts t new]
    split_ifs with hfew
    · have heq := minText_of_le hfew.2
      have hmono := minText_le_append (c := c) (ts ++ [t]) new
      rw [ih _ heq.le le_rfl, max_eq_right (by omega), max_eq_right (by omega)]
    · have hmany : c.minTokens ≤ ts.length := by
        rw [length_append, length_singleton] at hfew
        omega
      exact ih _ (by rwa [minText_append hmany]) hle'

theorem decoded_append (xs ys : List (List α)) (stopToken : Option (List α)) :
    c.decoded (xs ++ ys ++ stopToken.toList) stopToken.isSome =
      xs ++ c.decoded (ys ++ stopToken.toList) stopToken.isSome := by
  rw [decoded, decoded]
  cases stopToken with
  | none => simp
  | some t => split_ifs <;> simp [← append_assoc]

@[simp] theorem getNextOutputText_finished (d : Detokenizer α) :
    (c.getNextOutputText d true true).2 = d.outputText.drop d.lastOutputTextOffset := by
  simp only [getNextOutputText, Bool.not_true, Bool.false_eq_true, if_false, if_true, Nat.sub_zero]
  split_ifs with hlt
  · rw [take_length]
  · rw [drop_of_length_le (not_lt.mp hlt)]

theorem getNextOutputText_running
    (h : d.lastOutputTextOffset ≤ d.outputText.length - c.stopBufferLength) :
    c.getNextOutputText d false true =
      ({ d with lastOutputTextOffset := d.outputText.length - c.stopBufferLength },
        (d.outputText.take (d.outputText.length - c.stopBufferLength)).drop
          d.lastOutputTextOffset) := by
  simp only [getNextOutputText, Bool.not_true, Bool.false_eq_true, if_false]
  split_ifs with hlt
  · rfl
  · rw [← le_antisymm h (not_lt.mp hlt), drop_of_length_le (length_take_le _ _)]

theorem drop_append_drop {text text' : List α} {k l : ℕ} (hkl : k ≤ l) (hl : l ≤ text.length)
    (h : text.take l <+: text') : (text.take l).drop k ++ text'.drop l = text'.drop k := by
  obtain ⟨rest, rfl⟩ := h
  simp [drop_append, hl, Nat.sub_eq_zero_of_le hkl]

variable [DecidableEq α]

theorem strFind_eq_some_iff {offset : ℕ} (hs : s ≠ []) (hlt : offset < text.length) :
    strFind text s (1 - (text.length - offset : ℕ) - s.length) = some i ↔
      EndsBehind offset text s i ∧ ∀ j < i, ¬ EndsBehind offset text s j := by
  have hpos := length_pos_iff.mpr hs
  have hbehind : ∀ j : ℕ, (s <+: text.drop j ∧
      (1 - (text.length - offset : ℕ) - s.length + text.length : ℤ) ≤ j) ↔
      EndsBehind offset text s j := fun j => and_congr_right fun _ => by omega
  rw [strFind, find?_range_eq_some]
  simp only [if_pos (show (1 - (text.length - offset : ℕ) - s.length : ℤ) < 0 by omega),
    decide_eq_true_eq, Bool.not_eq_true', decide_eq_false_iff_not, hbehind, mem_range]
  refine and_congr_right fun h => and_iff_right ?_
  have hle := h.le hs
  omega

/-- `check_stop_strings` finds the first place of a stop string that ends behind the offset, and the
first such string of the list. -/
theorem checkStopStrings_cases {offset : ℕ} {stop : List (List α)} (incl : Bool)
    (hstop : ∀ s ∈ stop, s ≠ []) (hle : offset ≤ text.length) :
    (checkStopStrings text (text.length - offset) stop incl = none ∧
      ∀ s ∈ stop, ∀ i, ¬ EndsBehind offset text s i) ∨
    ∃ s k i, checkStopStrings text (text.length - offset) stop incl = some (s, k) ∧ s ∈ stop ∧
      EndsBehind offset text s i ∧ (∀ j < i, ¬ EndsBehind offset text s j) ∧
      (∀ s' ∈ stop, ∀ j, EndsBehind offset text s' j → stop.idxOf s ≤ stop.idxOf s') ∧
      (if k ≠ -1 then text.take k.toNat else text) =
        text.take (if incl then i + s.length else i) := by
  rw [checkStopStrings]
  by_cases hskip : text.length - offset = 0 ∨ stop.isEmpty
  · refine Or.inl ⟨if_pos hskip, fun s hs i h => ?_⟩
    have hend := h.le (hstop s hs)
    have hlt := h.2
    rw [List.isEmpty_iff] at hskip
    exact hskip.elim (by omega) (ne_nil_of_mem hs)
  have hlt : offset < text.length := Nat.lt_of_sub_ne_zero fun h => hskip (Or.inl h)
  rw [if_neg hskip]
  -- A stop string that is not found does not end behind the offset.
  have hnone : ∀ s ∈ stop, strFind text s (1 - (text.length - offset : ℕ) - s.length) = none →
      ∀ i, ¬ EndsBehind offset text s i := by
    intro s hs hnone i
    induction i using Nat.strong_induction_on with
    | _ i ih =>
      intro h
      rw [(strFind_eq_some_iff (hstop s hs) hlt).mpr ⟨h, ih⟩] at hnone
      cases hnone
  rcases hfind : findSome? _ stop with - | ⟨s, k⟩
  · exact Or.inl ⟨rfl, fun s hs =>
      hnone s hs (Option.map_eq_none_iff.mp (findSome?_eq_none_iff.mp hfind s hs))⟩
  · obtain ⟨before, s', after, rfl, hsome, hbefore⟩ := findSome?_eq_some_iff.mp hfind
    obtain ⟨i, hi, heq⟩ := Option.map_eq_some_iff.mp hsome
    have hs : s' ∈ before ++ s' :: after := by simp
    obtain ⟨hends, hfirst⟩ := (strFind_eq_some_iff (hstop s' hs) hlt).mp hi
    have hlist : ∀ t ∈ before ++ s' :: after, ∀ j, EndsBehind offset text t j →
        (before ++ s' :: after).idxOf s' ≤ (before ++ s' :: after).idxOf t := by
      intro t ht j hj
      have hnot : ∀ t ∈ before ++ s' :: after, ∀ j, EndsBehind offset text t j → t ∉ before :=
        fun t ht j hj hmem => hnone t ht (Option.map_eq_none_iff.mp (hbefore t hmem)) j hj
      rw [idxOf_append_of_notMem (hnot s' hs i hends), idxOf_append_of_notMem (hnot t ht j hj),
        idxOf_cons_self]
      omega
    refine Or.inr ⟨s, k, i, rfl, ?_⟩
    split_ifs at heq with hincl hend
    all_goals
      obtain ⟨rfl, rfl⟩ := Prod.mk.inj heq
      refine ⟨hs, hends, hfirst, hlist, ?_⟩
    · simp [hincl, take_of_length_le hend]
    · rw [if_pos (by omega), if_pos hincl]
      norm_cast
    · rw [if_pos (by omega), if_neg hincl, Int.toNat_natCast]

/-- What `update` finds in a text that had no stop string. -/
theorem found_update (new : List (List α)) (term : Bool) (hd : d.outputText = d.tokens.flatten)
    (hno : ∀ s i, ¬ c.Completes d.tokens s i) :
    c.Found (d.tokens ++ c.decoded new term) (c.update d new term).2
      (c.update d new term).1.outputText := by
  rw [update]
  split_ifs with hnew
  · rw [List.isEmpty_iff.mp hnew, decoded, dropLast_nil, ite_self, append_nil, hd]
    exact .whole hno
  rw [hd, decodeLoop_eq _ _ minText_le le_rfl]
  generalize hts : d.tokens ++ c.decoded new term = ts
  have hle : max d.tokens.flatten.length (c.minText ts) ≤ ts.flatten.length :=
    max_le (by simp [← hts]) minText_le
  -- A stop string that is completed was not in the text before.
  have hnewer : ∀ s i, c.Completes ts s i →
      EndsBehind (max d.tokens.flatten.length (c.minText ts)) ts.flatten s i := by
    refine fun s i h => ⟨h.2.1, max_lt ?_ h.2.2⟩
    by_contra hle
    exact hno s i ((completes_append_iff (not_lt.mp hle)).mp (hts ▸ h))
  dsimp only
  split_ifs with hcheck
  · rcases checkStopStrings_cases c.includeStopStrInOutput c.nonempty hle with
      ⟨h, hnone⟩ | ⟨s, k, i, h, hs, hends, hfirst, hlist, htext⟩
    · rw [h]
      exact .whole fun s i hs => hnone s hs.1 i (hnewer s i hs)
    · have hcomp : c.Completes ts s i := ⟨hs, hends.1, (le_max_right _ _).trans_lt hends.2⟩
      rw [h]
      simp only [Option.elim_some, Option.map_some, htext]
      refine .stop hcomp (fun j hj => ?_) fun s' j hj => hlist s' hj.1 j (hnewer s' j hj)
      by_contra hlt
      exact hfirst j (by omega) (hnewer s j hj)
  · refine .whole fun s i h => hcheck ?_
    -- With `min_tokens` tokens or fewer nothing is completed.
    have hmany : c.minTokens < ts.length := by
      by_contra hfew
      exact absurd h.le (minText_of_le (not_lt.mp hfew) ▸ h.2.2.not_ge)
    simp [ne_nil_of_mem h.1]
    omega

theorem update_tokens (hd : d.outputText = d.tokens.flatten) (new : List (List α)) :
    (c.update d new false).1.tokens = d.tokens ++ new := by
  rw [update]
  split_ifs with hnew
  · simp [List.isEmpty_iff.mp hnew]
  · rw [hd, decodeLoop_eq _ _ minText_le le_rfl]
    simp [decoded]

@[simp] theorem update_lastOutputTextOffset (new : List (List α)) (term : Bool) :
    (c.update d new term).1.lastOutputTextOffset = d.lastOutputTextOffset := by
  rw [update]
  split_ifs <;> rfl

variable {last last' rest : List (List α)} {groups groups' : List (List (List α))}
  {stopToken : Option (List α)}

/-- The rest of a run: the text is cut where it should be, and the deltas complete what has been
handed out. -/
theorem feed_found
    (hrest : rest = groups.flatten ++ c.decoded (last ++ stopToken.toList) stopToken.isSome)
    (hd : d.outputText = d.tokens.flatten) (hno : ∀ s i, ¬ c.Completes d.tokens s i)
    (hlast : d.lastOutputTextOffset ≤ d.outputText.length - c.stopBufferLength)
    (hord : c.StopsInOrder (d.tokens ++ rest)) :
    let r := c.feed last stopToken d groups
    c.Found (d.tokens ++ rest) r.stop r.text ∧
      r.deltas.flatten = r.text.drop d.lastOutputTextOffset := by
  induction groups generalizing d rest with
  | nil =>
    subst hrest
    exact ⟨found_update _ _ hd hno, by simp [feed]⟩
  | cons g groups ih =>
    rw [flatten_cons, append_assoc] at hrest
    subst hrest
    rw [← append_assoc] at hord ⊢
    have hfound : c.Found (d.tokens ++ g) _ _ := found_update g false hd hno
    have hts := update_tokens (c := c) hd g
    have hoffset := update_lastOutputTextOffset (c := c) (d := d) g false
    rw [feed]
    generalize c.update d g false = u at hfound hts hoffset ⊢
    obtain ⟨d', stop⟩ := u
    cases stop with
    | some s => exact ⟨hfound.append hord, by simp [← hoffset]⟩
    | none =>
      obtain ⟨hno', htext⟩ := hfound.of_none
      dsimp only at hts htext hoffset
      have hlen : d'.lastOutputTextOffset ≤ d'.outputText.length - c.stopBufferLength := by
        rw [hoffset, htext, flatten_append, ← hd, length_append]
        omega
      rw [← hts] at hno' htext hord ⊢
      have hrun := getNextOutputText_running hlen
      obtain ⟨hwhole, hdeltas⟩ := ih rfl (d := (c.getNextOutputText d' false true).1)
        (by simpa [hrun] using htext) (by simpa [hrun] using hno') (by simp [hrun])
        (by simpa [hrun] using hord)
      -- what has been handed out stays the beginning of the text
      have hkeep : d'.outputText.take (d'.outputText.length - c.stopBufferLength) <+:
          (c.feed last stopToken (c.getNextOutputText d' false true).1 groups).text := by
        rw [htext]
        exact Found.keeps (by simpa [hrun] using hwhole) hno' le_rfl
      simp only [hrun] at hwhole hdeltas hkeep
      simp only [Option.isSome_none, hrun, Bool.false_eq_true, if_false, flatten_cons, hdeltas]
      exact ⟨hwhole, hoffset ▸ drop_append_drop hlen (Nat.sub_le _ _) hkeep⟩

/-- How the tokens are grouped makes no difference, the text ends at the first stop string, and the
deltas are the text, exactly if the stop string that is completed first is the first in the list of
those that are completed. -/
theorem run_grouping_iff (c : StopParams α) (tokens : List (List α)) (stopToken : Option (List α)) :
    (∀ groups last groups' last', groups.flatten ++ last = tokens →
      groups'.flatten ++ last' = tokens →
      let r := c.run groups last stopToken
      let r' := c.run groups' last' stopToken
      c.Cut (c.decoded (tokens ++ stopToken.toList) stopToken.isSome) r.stop r.text ∧
        r.deltas.flatten = r.text ∧ r.stop = r'.stop ∧ r.text = r'.text ∧
        r.deltas.flatten = r'.deltas.flatten) ↔
      c.StopsInOrder (c.decoded (tokens ++ stopToken.toList) stopToken.isSome) := by
  have hno : ∀ s i, ¬ c.Completes [] s i := fun s i h =>
    (h.le.trans_lt' h.2.2).not_ge (Nat.zero_le _)
  constructor
  · intro h
    -- all tokens in one call
    have hfound := found_update (c := c) (d := ⟨[], [], 0⟩) (tokens ++ stopToken.toList)
      stopToken.isSome rfl hno
    exact hfound.stopsInOrder (h [] tokens [] tokens rfl rfl).1
  · intro hord groups last groups' last' htokens htokens'
    have hfound : ∀ (groups : List (List (List α))) last, groups.flatten ++ last = tokens →
        c.Found _ _ _ ∧ _ := fun groups last heq =>
      feed_found (d := ⟨[], [], 0⟩) (decoded_append groups.flatten last stopToken) rfl hno
        (Nat.zero_le _) (heq ▸ hord)
    obtain ⟨hfound₁, hdeltas⟩ := hfound groups last htokens
    obtain ⟨hfound₂, hdeltas'⟩ := hfound groups' last' htokens'
    rw [htokens] at hfound₁
    rw [htokens'] at hfound₂
    obtain ⟨hstop, htext⟩ := hfound₁.unique hfound₂
    exact ⟨hfound₁.cut hord, hdeltas, hstop, htext, hdeltas.trans (htext ▸ hdeltas'.symm)⟩

/-- If both tokens come in one call, the stop string that is second in the text is found. -/
theorem run_depends_on_grouping : ∃ c : StopParams Char, c.stop = [['b'], ['a']] ∧
    (c.run [[['a']]] [['b']] none).stop = some ['a'] ∧ (c.run [[['a']]] [['b']] none).text = [] ∧
    (c.run [] [['a'], ['b']] none).stop = some ['b'] ∧
    (c.run [] [['a'], ['b']] none).text = ['a'] :=
  ⟨⟨[['b'], ['a']], 0, false, by simp⟩, rfl, by decide, by decide, by decide, by decide⟩

end StopParams

end CacheFlow
