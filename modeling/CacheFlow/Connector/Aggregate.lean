import CacheFlow.Lib.Dict
import Mathlib.Algebra.Order.BigOperators.Group.Finset

/-!
# Aggregating the outputs of the workers

`KVOutputAggregator` of `kv_connector/utils.py`: each worker reports the requests whose KV it has
sent or received, in any step, and a request counts as finished when all workers have reported it.

## Main results

* `KVOutputAggregator.mem_finished_iff` — a request is finished in the step of its last report.
-/

namespace CacheFlow

open List Finset

/-- What is finished about a request. -/
inductive Direction where
  | sending : Direction
  | recving : Direction

/-- `KVConnectorOutput`, as far as it is counted or united; its sets are lists. -/
structure KVConnectorOutput (R : Type) where
  /-- `finished_sending` and `finished_recving`. -/
  finished : Direction → List R
  invalidBlockIds : List ℕ
  expectedFinishedCount : ℤ

/-- `KVOutputAggregator`. -/
structure KVOutputAggregator (R : Type) where
  /-- `_send_remaining_count` and `_recv_remaining_count`. -/
  remainingCount : Direction → Dict R ℤ
  expectedFinishedCount : ℤ

/-- The `kv_connector_output` of every worker in a step. -/
abbrev Outputs (R : Type) := List (Option (KVConnectorOutput R))

variable {R : Type}

/-- What a worker reports in a step. -/
def reports (d : Direction) (output : Option (KVConnectorOutput R)) : List R :=
  output.elim [] (·.finished d)

/-- What a worker has reported. -/
def reportsOf (d : Direction) (w : ℕ) (steps : List (Outputs R)) : List R :=
  steps.flatMap fun outputs => reports d (outputs.getD w none)

/-- All workers return an output in every step, with no other count than theirs, and none of them
reports a request twice. -/
structure RegularSteps (n : ℕ) (steps : List (Outputs R)) : Prop where
  length : ∀ outputs ∈ steps, outputs.length = n
  expected : ∀ outputs ∈ steps, ∀ o, some o ∈ outputs →
    o.expectedFinishedCount ≤ 0 ∨ o.expectedFinishedCount = n
  once : ∀ d w, (reportsOf d w steps).Nodup

theorem RegularSteps.left {n : ℕ} {steps post : List (Outputs R)}
    (h : RegularSteps n (steps ++ post)) : RegularSteps n steps where
  length o ho := h.length o (mem_append_left _ ho)
  expected o ho := h.expected o (mem_append_left _ ho)
  once d w := by
    have hnd := h.once d w
    rw [reportsOf, flatMap_append] at hnd
    exact hnd.of_append_left

namespace KVOutputAggregator

/-- The aggregator for `n` workers. -/
def new (n : ℕ) : KVOutputAggregator R := ⟨fun _ => ∅, n⟩

variable [DecidableEq R]

/-- One round of `update_finished_set`. -/
def updateFinished (expected : ℤ) (s : Dict R ℤ × List R) (r : R) : Dict R ℤ × List R :=
  let remaining := (s.1.get? r).getD expected - 1
  if remaining = 0 then ((s.1.set r remaining).erase r, s.2 ++ [r])
  else (s.1.set r remaining, s.2)

/-- One round of the loop of `aggregate`. -/
def addOutput (x : KVOutputAggregator R × KVConnectorOutput R) :
    Option (KVConnectorOutput R) → KVOutputAggregator R × KVConnectorOutput R
  | none => x
  | some o =>
    let expected :=
      if 0 < o.expectedFinishedCount ∧ o.expectedFinishedCount ≠ x.1.expectedFinishedCount then
        o.expectedFinishedCount
      else x.1.expectedFinishedCount
    let counted := fun d =>
      (o.finished d).foldl (updateFinished expected) (x.1.remainingCount d, x.2.finished d)
    (⟨fun d => (counted d).1, expected⟩,
      ⟨fun d => (counted d).2, x.2.invalidBlockIds ++ o.invalidBlockIds, expected⟩)

/-- `aggregate`, of outputs that are all there. -/
def aggregate (a : KVOutputAggregator R) (outputs : Outputs R) :
    KVOutputAggregator R × KVConnectorOutput R :=
  outputs.foldl addOutput (a, ⟨fun _ => [], [], a.expectedFinishedCount⟩)

/-- The aggregator after some steps. -/
def after (a : KVOutputAggregator R) (steps : List (Outputs R)) :
    KVOutputAggregator R :=
  steps.foldl (fun a outputs => (a.aggregate outputs).1) a

/-! ### Counting down -/

/-- A counter is what is left of the `n` reports, once there is one. -/
def Counted (n : ℕ) (seen : List R) (c : Dict R ℤ) : Prop :=
  ∀ r, c.get? r =
    if 0 < seen.count r ∧ seen.count r < n then some ((n : ℤ) - seen.count r) else none

variable {n : ℕ} {seen : List R} {s : Dict R ℤ × List R} {r : R} {d : Direction}

theorem Counted.getD (h : Counted n seen s.1) (hlt : seen.count r < n) :
    (s.1.get? r).getD (n : ℤ) = n - seen.count r := by
  rw [h r]
  split_ifs
  · rfl
  · simp only [Option.getD_none]
    omega

/-- **A report** is counted, and the last one finishes the request. -/
theorem Counted.updateFinished (h : Counted n seen s.1) (hlt : seen.count r < n) :
    Counted n (seen ++ [r]) (updateFinished n s r).1 ∧
      ∀ r', r' ∈ (updateFinished n s r).2 ↔ r' ∈ s.2 ∨ r' = r ∧ seen.count r + 1 = n := by
  have hcount : ∀ r' ≠ r, (seen ++ [r]).count r' = seen.count r' := by
    intro r' hne
    simp [count_append, hne.symm]
  unfold KVOutputAggregator.updateFinished
  rw [h.getD hlt]
  by_cases hlast : seen.count r + 1 = n
  · rw [if_pos (by omega)]
    refine ⟨fun r' => ?_, by simp [hlast]⟩
    rcases eq_or_ne r' r with rfl | hne
    · simp [hlast]
    · rw [Dict.get?_erase_of_ne _ hne, Dict.get?_set_of_ne _ hne, h r', hcount r' hne]
  · rw [if_neg (by omega)]
    refine ⟨fun r' => ?_, by simp [hlast]⟩
    rcases eq_or_ne r' r with rfl | hne
    · rw [Dict.get?_set_self, count_append, count_singleton_self, if_pos (by omega)]
      push_cast
      rw [Int.sub_sub]
    · rw [Dict.get?_set_of_ne _ hne, h r', hcount r' hne]

/-- **A list of reports**: a request is finished when its last report is in the list. -/
theorem Counted.foldl (l : List R) (h : Counted n seen s.1) (hle : ∀ r, (seen ++ l).count r ≤ n) :
    Counted n (seen ++ l) (l.foldl (KVOutputAggregator.updateFinished n) s).1 ∧
      ∀ r, r ∈ (l.foldl (KVOutputAggregator.updateFinished n) s).2 ↔
        r ∈ s.2 ∨ seen.count r < n ∧ (seen ++ l).count r = n := by
  induction l generalizing seen s with
  | nil => exact ⟨by simpa using h, fun r => by simp; omega⟩
  | cons r l ih =>
    have hlt : seen.count r < n := by
      have hr := hle r
      simp only [count_append, count_cons_self] at hr
      omega
    obtain ⟨hcounted, hfinished⟩ := h.updateFinished hlt
    rw [append_cons] at hle ⊢
    obtain ⟨hcounted', hmem⟩ := ih hcounted hle
    refine ⟨hcounted', fun r' => ?_⟩
    have hr' := hle r'
    simp only [count_append, count_singleton, beq_iff_eq] at hr' ⊢
    grind

/-- **One step** is one list of reports for each direction. -/
theorem foldl_addOutput (outputs : Outputs R)
    (hexp : ∀ o, some o ∈ outputs → o.expectedFinishedCount ≤ 0 ∨ o.expectedFinishedCount = n)
    (c : Direction → Dict R ℤ) (f : Direction → List R) (bs : List ℕ) :
    outputs.foldl addOutput (⟨c, n⟩, ⟨f, bs, n⟩) =
      (⟨fun d => ((outputs.flatMap (reports d)).foldl (updateFinished n) (c d, f d)).1, n⟩,
        ⟨fun d => ((outputs.flatMap (reports d)).foldl (updateFinished n) (c d, f d)).2,
          bs ++ outputs.flatMap fun o => o.elim [] (·.invalidBlockIds), n⟩) := by
  induction outputs generalizing c f bs with
  | nil => simp
  | cons output outputs ih =>
    have hexp' := fun o ho => hexp o (mem_cons_of_mem output ho)
    cases output with
    | none => simpa [addOutput, reports] using ih hexp' c f bs
    | some o =>
      have ho := hexp o mem_cons_self
      rw [foldl_cons, addOutput, if_neg (by dsimp only; omega), ih hexp']
      simp [reports]

/-! ### The reports of all workers -/

/-- The reports in the order in which they are counted. -/
def stream (d : Direction) (steps : List (Outputs R)) : List R :=
  steps.flatMap fun outputs => outputs.flatMap (reports d)

theorem count_flatMap_reports (outputs : Outputs R) : (outputs.flatMap (reports d)).count r
      = ∑ w ∈ range outputs.length, (reports d (outputs.getD w none)).count r := by
  induction outputs with
  | nil => rfl
  | cons o outputs ih =>
    rw [flatMap_cons, count_append, ih, length_cons, Finset.sum_range_succ', Nat.add_comm]
    rfl

variable {steps post : List (Outputs R)} {outputs : Outputs R}

theorem count_stream (hlen : ∀ outputs ∈ steps, outputs.length = n) :
    (stream d steps).count r = ∑ w ∈ range n, (reportsOf d w steps).count r := by
  induction steps with
  | nil => simp [stream, reportsOf]
  | cons outputs steps ih =>
    have hrest := ih fun o ho => hlen o (mem_cons_of_mem _ ho)
    simp only [stream, reportsOf] at hrest
    simp only [stream, reportsOf, flatMap_cons, count_append, sum_add_distrib, hrest,
      count_flatMap_reports, hlen outputs mem_cons_self]

/-- All reports of a request are there just if every worker has reported it. -/
theorem count_stream_eq_iff (h : RegularSteps n steps) (d : Direction) (r : R) :
    (stream d steps).count r ≤ n ∧
      ((stream d steps).count r = n ↔ ∀ w < n, r ∈ reportsOf d w steps) := by
  have hone : ∀ w ∈ Finset.range n, (reportsOf d w steps).count r ≤ 1 := fun w _ =>
    nodup_iff_count_le_one.mp (h.once d w) r
  have hsum : ∑ w ∈ range n, 1 = n := by simp
  rw [count_stream h.length]
  refine ⟨(Finset.sum_le_sum hone).trans_eq hsum, ?_⟩
  nth_rewrite 2 [← hsum]
  rw [sum_eq_sum_iff_of_le hone]
  simp only [Finset.mem_range]
  refine forall₂_congr fun w hw => ?_
  have hw' := hone w (Finset.mem_range.mpr hw)
  rw [← count_pos_iff]
  omega

theorem counted_after (h : RegularSteps n steps) :
    ∃ c, (new n).after steps = ⟨c, n⟩ ∧ ∀ d, Counted n (stream d steps) (c d) := by
  induction steps using List.reverseRecOn with
  | nil => exact ⟨_, rfl, fun d r => by simp [stream]⟩
  | append_singleton steps outputs ih =>
    obtain ⟨c, hafter, hcounted⟩ := ih h.left
    have hnext : (new n).after (steps ++ [outputs])
        = (((new n).after steps).aggregate outputs).1 := by simp [after]
    rw [hnext, hafter, aggregate, foldl_addOutput outputs (h.expected outputs (by simp))]
    refine ⟨_, rfl, fun d => ?_⟩
    have hle := fun r => (count_stream_eq_iff h d r).1
    simp only [stream, flatMap_append, flatMap_singleton] at hle ⊢
    exact ((hcounted d).foldl (s := (c d, [])) _ hle).1

/-- **A request is finished** in the step of its last report, and has no counter from then on; the
invalid blocks are those that some worker has reported in the step. -/
theorem mem_finished_iff (h : RegularSteps n (steps ++ outputs :: post)) (d : Direction) (r : R) :
    (r ∈ (((new n).after steps).aggregate outputs).2.finished d ↔
      (∀ w < n, r ∈ reportsOf d w (steps ++ [outputs])) ∧ ¬ ∀ w < n, r ∈ reportsOf d w steps) ∧
    ((∀ w < n, r ∈ reportsOf d w (steps ++ [outputs])) →
      ((((new n).after steps).aggregate outputs).1.remainingCount d).get? r = none) ∧
    ∀ b, b ∈ (((new n).after steps).aggregate outputs).2.invalidBlockIds ↔
      ∃ o, some o ∈ outputs ∧ b ∈ o.invalidBlockIds := by
  have hstep : RegularSteps n (steps ++ [outputs]) := (by simpa using h : RegularSteps n
    (steps ++ [outputs] ++ post)).left
  obtain ⟨c, hafter, hcounted⟩ := counted_after hstep.left
  obtain ⟨hle, hall⟩ := count_stream_eq_iff hstep.left d r
  have hcount := fun r => count_stream_eq_iff hstep d r
  rw [hafter, aggregate, foldl_addOutput outputs (hstep.expected outputs (by simp))]
  simp only [stream, flatMap_append, flatMap_singleton] at hcount hle hall
  -- the counts of all reports so far, those of this step included
  obtain ⟨hnew, hmem⟩ := (hcounted d).foldl (s := (c d, [])) _ fun r => (hcount r).1
  refine ⟨?_, fun hrep => ?_, fun b => ?_⟩
  · rw [hmem, ← (hcount r).2, ← hall]
    simp only [not_mem_nil, false_or, stream]
    omega
  · rw [hnew r, if_neg]
    rw [stream, (hcount r).2.mpr hrep]
    omega
  · simp only [nil_append, mem_flatMap]
    constructor
    · rintro ⟨o, ho, hb⟩
      cases o with
      | none => simp at hb
      | some o => exact ⟨o, ho, hb⟩
    · rintro ⟨o, ho, hb⟩
      exact ⟨some o, ho, hb⟩

theorem mem_finished_two_workers :
    7 ∈ (((new 2).after [[some ⟨fun _ => [7], [], 0⟩, none]]).aggregate
      [none, some ⟨fun _ => [7], [3], 0⟩]).2.finished .sending := by
  have h : RegularSteps 2 ([[some ⟨fun _ => [7], [], 0⟩, none]] ++
      [none, some ⟨fun _ => [7], [3], 0⟩] :: []) := by
    refine ⟨by simp, by simp, fun d w => ?_⟩
    obtain _ | _ | w := w <;> simp [reportsOf, reports]
  refine (mem_finished_iff h .sending 7).1.mpr ⟨fun w hw => ?_, fun hall => ?_⟩
  · interval_cases w <;> simp [reportsOf, reports]
  · simpa [reportsOf, reports] using hall 1 (by omega)

end KVOutputAggregator

end CacheFlow
