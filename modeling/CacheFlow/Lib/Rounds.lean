import Mathlib

/-!
# Drawing from a queue in rounds

Each round first takes its reserved items out of the queue, wherever they are, and then draws
a number of items from the front. Rounds come one after the other, so an early round may draw
an item that a later one has reserved.

Whether this happens can be read off the queue at the start: the items the first rounds draw
are those at the front once their own reservations are out, and none of them may be reserved
by a later round. Exactly then the rounds take as many items as they ask for.

## Main results

* `spared_iff_draws` — what `Spared` says of the draws.
-/

namespace CacheFlow

open List

variable {α : Type} [DecidableEq α]

/-- The queue after rounds of reserved items and numbers of draws. -/
def drain : List α → List (List α × ℕ) → List α
  | l, [] => l
  | l, x :: rest => drain ((l.filter (· ∉ x.1)).drop x.2) rest

/-- What each round draws. -/
def draws : List α → List (List α × ℕ) → List (List α)
  | _, [] => []
  | l, x :: rest => (l.filter (· ∉ x.1)).take x.2 :: draws ((l.filter (· ∉ x.1)).drop x.2) rest

/-- How many items the rounds ask for. -/
def demand (l : List α) (rounds : List (List α × ℕ)) : ℕ :=
  (rounds.map fun x => x.1.countP (· ∈ l) + x.2).sum

/-- No round draws what a later one has reserved: the items at the front of the queue, once the
reservations up to a round are out, as many as the rounds up to it draw, are not reserved later. -/
def Spared (l : List α) (rounds : List (List α × ℕ)) : Prop :=
  ∀ before x after, rounds = before ++ x :: after →
    ∀ b ∈ (l.filter fun b => ∀ y ∈ before ++ [x], b ∉ y.1).take (((before ++ [x]).map Prod.snd).sum),
      ∀ y ∈ after, b ∉ y.1

variable {l : List α} {rounds : List (List α × ℕ)}

@[simp] theorem demand_nil (l : List α) : demand l [] = 0 := rfl

@[simp] theorem demand_cons (l : List α) (x : List α × ℕ) (rest : List (List α × ℕ)) :
    demand l (x :: rest) = x.1.countP (· ∈ l) + x.2 + demand l rest := sum_cons

theorem spared_of_nil (h : ∀ x ∈ rounds, x.1 = []) : Spared l rounds := by
  rintro before x after rfl b - y hy
  rw [h y (by simp [hy])]
  exact not_mem_nil

theorem drain_of_idle : ∀ {rounds : List (List α × ℕ)}, (∀ x ∈ rounds, x = ([], 0)) → ∀ l : List α,
    drain l rounds = l ∧ (draws l rounds).flatten = [] := by
  intro rounds
  induction rounds with
  | nil => exact fun _ l => ⟨rfl, rfl⟩
  | cons x rest ih =>
    intro h l
    obtain ⟨hdrain, hdraws⟩ := ih (fun y hy => h y (mem_cons_of_mem x hy)) l
    have hqueue : l.filter (· ∉ ([] : List α)) = l := by simp
    rw [h x mem_cons_self, drain, draws, hqueue]
    exact ⟨hdrain, hdraws⟩

/-- Reservations are spared when the first round spares them and the others do. -/
theorem spared_cons {x : List α × ℕ} {rest : List (List α × ℕ)} :
    Spared l (x :: rest) ↔
      (∀ b ∈ (l.filter (· ∉ x.1)).take x.2, ∀ y ∈ rest, b ∉ y.1) ∧
        Spared ((l.filter (· ∉ x.1)).drop x.2) rest := by
  set u := (l.filter (· ∉ x.1)).take x.2 with hu
  set v := (l.filter (· ∉ x.1)).drop x.2 with hv
  -- the queue of a later round starts with what the first one draws
  have hqueue : ∀ K : List (List α × ℕ), (∀ b ∈ u, ∀ y ∈ K, b ∉ y.1) →
      (l.filter fun b => ∀ y ∈ x :: K, b ∉ y.1) = u ++ v.filter fun b => ∀ y ∈ K, b ∉ y.1 := by
    intro K hK
    have hsplit : (l.filter fun b => ∀ y ∈ x :: K, b ∉ y.1)
        = (u ++ v).filter fun b => ∀ y ∈ K, b ∉ y.1 := by
      rw [hu, hv, take_append_drop, filter_filter]
      refine filter_congr fun b _ => ?_
      simp only [forall_mem_cons, Bool.decide_and, Bool.and_comm]
    rw [hsplit, filter_append, filter_eq_self.mpr fun b hb => by simpa using hK b hb]
  -- if it draws less than it asks for, nothing is left for the later ones
  have htake : ∀ (K : List (List α × ℕ)) (n : ℕ),
      (u ++ v.filter fun b => ∀ y ∈ K, b ∉ y.1).take (x.2 + n)
        = u ++ (v.filter fun b => ∀ y ∈ K, b ∉ y.1).take n := by
    intro K n
    have hlen : u.length = min x.2 (l.filter (· ∉ x.1)).length := length_take
    rw [take_append, take_of_length_le (by omega)]
    rcases Nat.lt_or_ge u.length x.2 with hlt | hge
    · have hnil : v = [] := drop_eq_nil_of_le (by omega)
      rw [hnil, filter_nil, take_nil, take_nil]
    · rw [show x.2 + n - u.length = n by omega]
  have hupTo : ∀ {before after : List (List α × ℕ)} {y},
      (∀ b ∈ u, ∀ w ∈ before ++ y :: after, b ∉ w.1) → ∀ b ∈ u, ∀ w ∈ before ++ [y], b ∉ w.1 := by
    intro before after y h b hb w hw
    rw [append_cons] at h
    exact h b hb w (mem_append_left after hw)
  constructor
  · intro h
    have hfirst : ∀ b ∈ u, ∀ y ∈ rest, b ∉ y.1 := by
      intro b hb y hy
      refine h [] x rest rfl b ?_ y hy
      simpa [hu] using hb
    refine ⟨hfirst, ?_⟩
    rintro before y after rfl b hb z hz
    refine h (x :: before) y after rfl b ?_ z hz
    rw [cons_append, hqueue _ (hupTo hfirst), map_cons, sum_cons, htake]
    exact mem_append_right _ hb
  · rintro ⟨hfirst, hrest⟩ before y after hsplit b hb z hz
    cases before with
    | nil =>
      obtain ⟨rfl, rfl⟩ := List.cons.inj hsplit
      exact hfirst b (by simpa [hu] using hb) z hz
    | cons w before =>
      rw [cons_append] at hsplit
      obtain ⟨rfl, rfl⟩ := List.cons.inj hsplit
      rw [cons_append, hqueue _ (hupTo hfirst), map_cons, sum_cons, htake] at hb
      rcases mem_append.mp hb with hb | hb
      · refine hfirst b hb z ?_
        exact mem_append_right before (mem_cons_of_mem y hz)
      · exact hrest before y after rfl b hb z hz

theorem mem_of_mem_draws {rounds : List (List α × ℕ)} {l : List α} {b : α}
    (hb : b ∈ (draws l rounds).flatten) : b ∈ l := by
  induction rounds generalizing l b with
  | nil => cases hb
  | cons x rest ih =>
    rcases mem_append.mp hb with hb | hb
    · exact mem_of_mem_filter (mem_of_mem_take hb)
    · exact mem_of_mem_filter (mem_of_mem_drop (ih hb))

/-- **Reservations are spared** exactly when nothing that is reserved is drawn: after its own round
a reserved item is out of the queue. -/
theorem spared_iff_draws {rounds : List (List α × ℕ)} {l : List α} :
    Spared l rounds ↔ ∀ x ∈ rounds, ∀ b ∈ x.1, b ∉ (draws l rounds).flatten := by
  induction rounds generalizing l with
  | nil =>
    exact iff_of_true (fun before x after h => by simp at h) fun x hx => absurd hx not_mem_nil
  | cons x rest ih =>
    rw [spared_cons, ih, draws, flatten_cons]
    constructor
    · rintro ⟨hfirst, hrest⟩ y hy b hby hb
      rcases mem_cons.mp hy with rfl | hy
      · -- its own round leaves nothing of it in the queue
        have hb' : b ∈ l.filter (· ∉ y.1) := by
          rcases mem_append.mp hb with hb | hb
          · exact mem_of_mem_take hb
          · exact mem_of_mem_drop (mem_of_mem_draws hb)
        simpa [hby] using (mem_filter.mp hb').2
      · rcases mem_append.mp hb with hb | hb
        · exact hfirst b hb y hy hby
        · exact hrest y hy b hby hb
    · intro h
      exact ⟨fun b hb y hy hby => h y (mem_cons_of_mem x hy) b hby (mem_append_left _ hb),
        fun y hy b hby hb => h y (mem_cons_of_mem x hy) b hby (mem_append_right _ hb)⟩

/-! ### How much the rounds take -/

/-- The reserved items of different rounds are different, as far as they are in the queue. -/
def Rounds.Apart (l : List α) (rounds : List (List α × ℕ)) : Prop :=
  (∀ x ∈ rounds, (x.1.filter (· ∈ l)).Nodup) ∧
    rounds.Pairwise fun x y => ∀ b ∈ l, b ∈ x.1 → b ∉ y.1

theorem Rounds.Apart.sublist {l' : List α} (h : Apart l rounds) (hsub : List.Sublist l' l) :
    Apart l' rounds := by
  refine ⟨fun x hx => (h.1 x hx).sublist (monotone_filter_right _ fun b hb => ?_),
    h.2.imp fun hxy b hb => hxy b (hsub.subset hb)⟩
  simp only [decide_eq_true_eq] at hb ⊢
  exact hsub.subset hb

theorem Rounds.Apart.rest {x : List α × ℕ} {rest : List (List α × ℕ)} (h : Apart l (x :: rest)) :
    Apart ((l.filter (· ∉ x.1)).drop x.2) rest := by
  have hrest : Apart l rest :=
    ⟨fun y hy => h.1 y (mem_cons_of_mem x hy), (pairwise_cons.mp h.2).2⟩
  exact hrest.sublist ((drop_sublist _ _).trans filter_sublist)

theorem length_filter_not_mem {k : List α} (hl : l.Nodup) (hk : (k.filter (· ∈ l)).Nodup) :
    (l.filter (· ∉ k)).length + k.countP (· ∈ l) = l.length := by
  have hperm : (l.filter (· ∈ k)).Perm (k.filter (· ∈ l)) := by
    refine (perm_ext_iff_of_nodup (hl.filter _) hk).mpr fun b => ?_
    simp only [mem_filter, decide_eq_true_eq]
    exact and_comm
  have hsplit := l.length_eq_length_filter_add (· ∈ k)
  rw [countP_eq_length_filter, ← hperm.length_eq, hsplit, Nat.add_comm]
  congr 2
  refine filter_congr fun b _ => ?_
  simp

theorem demand_le_of_subset {l' : List α} (hsub : ∀ b ∈ l', b ∈ l) :
    ∀ rounds : List (List α × ℕ), demand l' rounds ≤ demand l rounds := by
  intro rounds
  induction rounds with
  | nil => exact Nat.le_refl _
  | cons x rest ih =>
    rw [demand_cons, demand_cons]
    have hcount : x.1.countP (· ∈ l') ≤ x.1.countP (· ∈ l) :=
      countP_mono_left fun b _ hb => by simpa using hsub b (by simpa using hb)
    omega

/-- It holds as many exactly when no reserved item has left. -/
theorem demand_eq_iff {l' : List α} (hsub : ∀ b ∈ l', b ∈ l) : ∀ rounds : List (List α × ℕ),
    demand l' rounds = demand l rounds ↔ ∀ x ∈ rounds, ∀ b ∈ x.1, b ∈ l → b ∈ l' := by
  intro rounds
  induction rounds with
  | nil => simp
  | cons x rest ih =>
    have hle := demand_le_of_subset hsub rest
    have hcount : x.1.countP (· ∈ l') ≤ x.1.countP (· ∈ l) :=
      countP_mono_left fun b _ hb => by simpa using hsub b (by simpa using hb)
    have heq : x.1.countP (· ∈ l') = x.1.countP (· ∈ l) ↔ ∀ b ∈ x.1, b ∈ l → b ∈ l' := by
      constructor
      · intro h b hb hbl
        have hfilter : List.Sublist (x.1.filter (· ∈ l')) (x.1.filter (· ∈ l)) :=
          monotone_filter_right _ fun c hc => by simpa using hsub c (by simpa using hc)
        rw [countP_eq_length_filter, countP_eq_length_filter] at h
        have hmem : b ∈ x.1.filter (· ∈ l) := mem_filter.mpr ⟨hb, by simpa using hbl⟩
        rw [← hfilter.eq_of_length h] at hmem
        simpa using (mem_filter.mp hmem).2
      · intro h
        refine countP_congr fun b hb => ?_
        simp only [decide_eq_true_eq]
        exact ⟨hsub b, h b hb⟩
    rw [demand_cons, demand_cons, forall_mem_cons, ← heq, ← ih]
    omega

/-- One round on a queue that is long enough for all. -/
theorem demand_rest {x : List α × ℕ} {rest : List (List α × ℕ)} (hl : l.Nodup)
    (hapart : Rounds.Apart l (x :: rest)) (hle : demand l (x :: rest) ≤ l.length) :
    x.2 ≤ (l.filter (· ∉ x.1)).length ∧
      demand ((l.filter (· ∉ x.1)).drop x.2) rest ≤ ((l.filter (· ∉ x.1)).drop x.2).length ∧
      ((l.filter (· ∉ x.1)).drop x.2).length + (x.1.countP (· ∈ l) + x.2) = l.length := by
  have hlen := length_filter_not_mem hl (hapart.1 x mem_cons_self)
  have hrest : demand ((l.filter (· ∉ x.1)).drop x.2) rest ≤ demand l rest :=
    demand_le_of_subset (fun b hb => mem_of_mem_filter (mem_of_mem_drop hb)) rest
  rw [demand_cons] at hle
  rw [length_drop]
  omega

/-- **The rounds never take more than they ask for, and exactly that if reservations are
spared.** -/
theorem length_drain {rounds : List (List α × ℕ)} {l : List α} (hl : l.Nodup)
    (hapart : Rounds.Apart l rounds) (hle : demand l rounds ≤ l.length) :
    l.length ≤ (drain l rounds).length + demand l rounds ∧
      ((drain l rounds).length + demand l rounds = l.length ↔ Spared l rounds) := by
  induction rounds generalizing l with
  | nil =>
    refine ⟨Nat.le_refl _, iff_of_true rfl fun before x after h => by simp at h⟩
  | cons x rest ih =>
    obtain ⟨hx, hrest, hlen⟩ := demand_rest hl hapart hle
    have hsub : List.Sublist ((l.filter (· ∉ x.1)).drop x.2) l :=
      (drop_sublist _ _).trans filter_sublist
    obtain ⟨hge, hiff⟩ := ih (hl.sublist hsub) hapart.rest hrest
    have hsubset : ∀ b ∈ (l.filter (· ∉ x.1)).drop x.2, b ∈ l := fun b hb => hsub.subset hb
    have hmono := demand_le_of_subset hsubset rest
    rw [drain, demand_cons]
    refine ⟨by omega, ?_⟩
    rw [spared_cons, ← hiff]
    -- what is reserved later and has left the queue was drawn in this round
    have hdrawn : demand ((l.filter (· ∉ x.1)).drop x.2) rest = demand l rest ↔
        ∀ b ∈ (l.filter (· ∉ x.1)).take x.2, ∀ y ∈ rest, b ∉ y.1 := by
      rw [demand_eq_iff hsubset]
      constructor
      · intro h b hb y hy hby
        have hbl := mem_of_mem_filter (mem_of_mem_take hb)
        have hnd : ((l.filter (· ∉ x.1)).take x.2 ++ (l.filter (· ∉ x.1)).drop x.2).Nodup := by
          rw [take_append_drop]
          exact hl.filter _
        exact (nodup_append.mp hnd).2.2 b hb b (h y hy b hby hbl) rfl
      · intro h y hy b hby hbl
        have hbx : b ∉ x.1 := fun hbx => (pairwise_cons.mp hapart.2).1 y hy b hbl hbx hby
        have hmem : b ∈ (l.filter (· ∉ x.1)).take x.2 ++ (l.filter (· ∉ x.1)).drop x.2 := by
          rw [take_append_drop]
          exact mem_filter.mpr ⟨hbl, by simpa using hbx⟩
        exact (mem_append.mp hmem).resolve_left fun hb => h b hb y hy hby
    rw [← hdrawn]
    omega

end CacheFlow
