import Mathlib.Data.List.Induction
import Mathlib.Tactic

/-!
# Runs of a machine whose steps may be impossible

A machine is a function from a state and an event to the next state, or to nothing if the event
cannot happen there. A run is a list of events. Two things are said of a run: what holds of each
event in the state it happens in, and what holds in all states the run goes through. Both are read
off one event at a time, from the end of the run.

## Main results

* `Steps.each_concat`, `Steps.always_concat` — one more event.
* `Steps.Each.induction`, `Steps.Each.always` — the invariant rule.
* `Steps.always_iff_each` — an invariant that is kept exactly by the allowed events.
-/

namespace CacheFlow.Steps

open List Option

variable {S E : Type} {step : S → E → Option S} {s t t' : S} {es : List E} {e : E}

/-- The events one after the other. -/
def run (step : S → E → Option S) (s : S) (es : List E) : Option S := es.foldlM step s

@[simp] theorem run_nil : run step s [] = some s := rfl

theorem run_cons : run step s (e :: es) = (step s e).bind fun t => run step t es := rfl

theorem run_concat : run step s (es ++ [e]) = (run step s es).bind fun t => step t e := by
  simp only [run, foldlM_append, foldlM_cons, foldlM_nil, bind_pure]
  rfl

theorem run_concat_eq_some :
    run step s (es ++ [e]) = some t' ↔ ∃ t, run step s es = some t ∧ step t e = some t' := by
  rw [run_concat, bind_eq_some_iff]

/-- Every event of the run happens in a state that allows it. -/
def Each (step : S → E → Option S) (P : S → E → Prop) (s : S) (es : List E) : Prop :=
  ∀ es₁ e es₂ t, es = es₁ ++ e :: es₂ → run step s es₁ = some t → P t e

/-- All states of the run have a property. -/
def Always (step : S → E → Option S) (Q : S → Prop) (s : S) (es : List E) : Prop :=
  ∀ es₁ es₂ t, es = es₁ ++ es₂ → run step s es₁ = some t → Q t

variable {P : S → E → Prop} {Q : S → Prop}

theorem each_nil : Each step P s [] := fun es₁ e es₂ _ hes _ => absurd hes.symm (by simp)

theorem always_nil : Always step Q s [] ↔ Q s := by
  constructor
  · intro h
    exact h [] [] s rfl rfl
  · intro h es₁ es₂ t hes hrun
    obtain ⟨rfl, -⟩ := nil_eq_append_iff.mp hes
    obtain rfl : s = t := some_inj.mp hrun
    exact h

/-- The first event must be allowed, and the others in the run from the state after it. -/
theorem each_cons : Each step P s (e :: es) ↔ P s e ∧ ∀ t, step s e = some t → Each step P t es := by
  constructor
  · intro h
    refine ⟨h [] e es s rfl rfl, fun t ht es₁ e' es₂ t₁ hes hrun => ?_⟩
    exact h (e :: es₁) e' es₂ t₁ (by rw [hes, cons_append]) (by rw [run_cons, ht]; exact hrun)
  · rintro ⟨hfirst, h⟩ es₁ e' es₂ t₁ hes hrun
    cases es₁ with
    | nil =>
      obtain ⟨rfl, rfl⟩ := cons_eq_cons.mp hes
      obtain rfl : s = t₁ := some_inj.mp hrun
      exact hfirst
    | cons e₁ es₁ =>
      obtain ⟨rfl, rfl⟩ := cons_eq_cons.mp hes
      obtain ⟨t, ht, hrun⟩ := bind_eq_some_iff.mp (run_cons ▸ hrun)
      exact h t ht es₁ e' es₂ t₁ rfl hrun

/-- The events of a run are looked at one after the other. -/
def decidableEach [∀ s e, Decidable (P s e)] :
    ∀ (s : S) (es : List E), Decidable (Each step P s es)
  | _, [] => isTrue each_nil
  | s, e :: es =>
    match hs : step s e with
    | none => decidable_of_iff (P s e) (by rw [each_cons, hs]; simp)
    | some t =>
      have := decidableEach t es
      decidable_of_iff (P s e ∧ Each step P t es) (by rw [each_cons, hs]; simp)

instance [∀ s e, Decidable (P s e)] : Decidable (Each step P s es) := decidableEach s es

/-- One more event: it must be allowed in the state before it. -/
theorem each_concat (hrun : run step s es = some t) :
    Each step P s (es ++ [e]) ↔ Each step P s es ∧ P t e := by
  constructor
  · intro h
    exact ⟨fun es₁ e' es₂ t₁ hes hrun₁ => h es₁ e' (es₂ ++ [e]) t₁ (by simp [hes]) hrun₁,
      h es e [] t rfl hrun⟩
  · rintro ⟨h, hlast⟩ es₁ e' es₂ t₁ hes hrun₁
    rw [append_cons es₁] at hes
    rcases prefix_concat_iff.mp ⟨es₂, hes.symm⟩ with heq | ⟨es₃, rfl⟩
    · obtain ⟨rfl, rfl⟩ : es₁ = es ∧ e' = e := by simpa using heq
      obtain rfl : t = t₁ := some_inj.mp (hrun.symm.trans hrun₁)
      exact hlast
    · exact h es₁ e' es₃ t₁ (append_cons ..).symm hrun₁

/-- One more event: the state after it must have the property. -/
theorem always_concat (hrun : run step s (es ++ [e]) = some t') :
    Always step Q s (es ++ [e]) ↔ Always step Q s es ∧ Q t' := by
  constructor
  · intro h
    exact ⟨fun es₁ es₂ t₁ hes hrun₁ => h es₁ (es₂ ++ [e]) t₁ (by simp [hes]) hrun₁,
      h (es ++ [e]) [] t' (by simp) hrun⟩
  · rintro ⟨h, hlast⟩ es₁ es₂ t₁ hes hrun₁
    rcases prefix_concat_iff.mp ⟨es₂, hes.symm⟩ with rfl | ⟨es₃, rfl⟩
    · obtain rfl : t' = t₁ := some_inj.mp (hrun.symm.trans hrun₁)
      exact hlast
    · exact h es₁ es₃ t₁ rfl hrun₁

/-- **The invariant rule.** What holds at the start and is kept by the events that are allowed holds
after a run of such events. -/
theorem Each.induction {I : S → List E → Prop} (h₀ : I s [])
    (hstep : ∀ es t e t', run step s es = some t → I t es → P t e → step t e = some t' →
      I t' (es ++ [e])) :
    ∀ {es : List E} {t : S}, Each step P s es → run step s es = some t → I t es := by
  intro es
  induction es using List.reverseRecOn with
  | nil =>
    intro t _ hrun
    obtain rfl : s = t := some_inj.mp hrun
    exact h₀
  | append_singleton es e ih =>
    intro t' heach hrun
    obtain ⟨t, hrun, hnext⟩ := run_concat_eq_some.mp hrun
    rw [each_concat hrun] at heach
    exact hstep es t e t' hrun (ih heach.1 hrun) heach.2 hnext

theorem Each.of_append {es₁ es₂ : List E} (h : Each step P s (es₁ ++ es₂)) : Each step P s es₁ :=
  fun l₁ e l₂ t hes hrun => h l₁ e (l₂ ++ es₂) t (by rw [hes, append_assoc, cons_append])
    hrun

/-- **The invariant rule, for all states of a run.** -/
theorem Each.always {I : S → Prop} (h₀ : I s)
    (hstep : ∀ t e t', I t → P t e → step t e = some t' → I t') (h : Each step P s es) :
    Always step I s es := by
  rintro es₁ es₂ t rfl hrun
  refine Each.induction (I := fun t _ => I t) h₀ ?_ h.of_append hrun
  intro _ t e t' _ ht hp hnext
  exact hstep t e t' ht hp hnext

/-- **Exactly the allowed events keep the property.** If an invariant implies the property, and from
a state with the invariant an event leads to the property just if it is allowed, and then to the
invariant, a run has the property throughout just if all its events are allowed. -/
theorem always_iff_each {I : S → Prop} (h₀ : I s) (hQ : ∀ t, I t → Q t)
    (hstep : ∀ t e t', I t → step t e = some t' → (Q t' → P t e) ∧ (P t e → I t')) :
    ∀ {es : List E} {t : S}, run step s es = some t →
      ((Always step Q s es ↔ Each step P s es) ∧ (Each step P s es → I t)) := by
  intro es
  induction es using List.reverseRecOn with
  | nil =>
    intro t hrun
    obtain rfl : s = t := some_inj.mp hrun
    exact ⟨⟨fun _ => each_nil, fun _ => always_nil.mpr (hQ s h₀)⟩, fun _ => h₀⟩
  | append_singleton es e ih =>
    intro t' hrun'
    obtain ⟨t, hrun, hnext⟩ := run_concat_eq_some.mp hrun'
    obtain ⟨hiff, hinv⟩ := ih hrun
    rw [each_concat hrun, always_concat hrun', hiff]
    refine ⟨⟨?_, ?_⟩, ?_⟩
    · rintro ⟨heach, hq⟩
      exact ⟨heach, (hstep t e t' (hinv heach) hnext).1 hq⟩
    · rintro ⟨heach, hp⟩
      exact ⟨heach, hQ t' ((hstep t e t' (hinv heach) hnext).2 hp)⟩
    · rintro ⟨heach, hp⟩
      exact (hstep t e t' (hinv heach) hnext).2 hp

end CacheFlow.Steps
