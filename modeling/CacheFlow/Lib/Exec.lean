import Mathlib

/-!
# Stateful computations that may raise

Total correctness for `EStateM`: a computation that raises keeps the state it had
reached, exactly as an exception thrown in the middle of a method leaves the
object it was mutating. `Sat m s Q` says that from `s` the computation returns
normally, with a result and a final state satisfying `Q`; the rules below push
`Sat` through sequencing, state access and loops, so that a method's
specification is proved along its text.

## Main results

* `sat_bind`, `ends_bind` — sequencing.
* `sat_forM`, `sat_mapM`, `ends_forM`, `ends_mapM` — the loop rules: an invariant kept by
  the body is kept by the loop.
* `foldl_invariant` — an invariant kept by every step holds after every run.
-/

/-- The exceptions of the language that the modelled code can run into. -/
inductive PyErr where
  | keyError : PyErr
  | indexError : PyErr
  | typeError : PyErr
  | valueError : PyErr
  /-- An integer that does not fit its fixed-width field. -/
  | overflowError : PyErr
  /-- Any other failure, raised by the code itself or by a library. -/
  | runtimeError : PyErr
  deriving DecidableEq, Repr, Inhabited

variable {ε σ α β : Type}

/-- From `s`, the computation returns normally and establishes `Q`. -/
def Sat (m : EStateM ε σ α) (s : σ) (Q : α → σ → Prop) : Prop :=
  ∃ a s', m s = .ok a s' ∧ Q a s'

/-- The state a computation leaves behind, whether it returns or raises. -/
def finalState (m : EStateM ε σ α) (s : σ) : σ :=
  match m s with
  | .ok _ s' => s'
  | .error _ s' => s'

variable {Q : α → σ → Prop}

theorem Sat.mono {m : EStateM ε σ α} {s : σ} {R : α → σ → Prop} (h : Sat m s Q)
    (hQR : ∀ a s', Q a s' → R a s') : Sat m s R := by
  obtain ⟨a, s', hm, hq⟩ := h
  exact ⟨a, s', hm, hQR a s' hq⟩

theorem Sat.of_ok {m : EStateM ε σ α} {s s' : σ} {a : α} (h : Sat m s Q)
    (hm : m s = .ok a s') : Q a s' := by
  obtain ⟨a₁, s₁, hm₁, hq⟩ := h
  obtain ⟨rfl, rfl⟩ := EStateM.Result.ok.inj (hm₁.symm.trans hm)
  exact hq

theorem Sat.of_finalState {m : EStateM ε σ α} {s : σ} {P : σ → Prop}
    (h : Sat m s fun _ s' => P s') : P (finalState m s) := by
  obtain ⟨a, s', hm, hp⟩ := h
  simpa only [finalState, hm] using hp

variable {f : α → EStateM ε σ β}

theorem finalState_bind {m : EStateM ε σ α} {s : σ} : finalState (m >>= f) s = match m s with
      | .ok a s' => finalState (f a) s'
      | .error _ s' => s' := by
  simp only [finalState, bind, EStateM.bind]
  cases m s <;> rfl

theorem sat_iff_of_ok {m : EStateM ε σ α} {s s' : σ} {a : α} (h : m s = .ok a s') :
    Sat m s Q ↔ Q a s' := by
  constructor
  · intro hs
    exact hs.of_ok h
  · intro hq
    exact ⟨a, s', h, hq⟩

@[simp] theorem sat_pure {a : α} {s : σ} : Sat (pure a : EStateM ε σ α) s Q ↔ Q a s :=
  sat_iff_of_ok rfl

@[simp] theorem sat_bind {m : EStateM ε σ α} {s : σ}
    {Q : β → σ → Prop} : Sat (m >>= f) s Q ↔ Sat m s fun a s' => Sat (f a) s' Q := by
  constructor
  · rintro ⟨b, s'', h, hq⟩
    cases hm : m s with
    | ok a s' =>
      refine ⟨a, s', hm, b, s'', ?_, hq⟩
      simpa only [bind, EStateM.bind, hm] using h
    | error e s' =>
      simp only [bind, EStateM.bind, hm] at h
      cases h
  · rintro ⟨a, s', hm, b, s'', hf, hq⟩
    refine ⟨b, s'', ?_, hq⟩
    simpa only [bind, EStateM.bind, hm] using hf

@[simp] theorem sat_map {m : EStateM ε σ α} {f : α → β} {s : σ} {Q : β → σ → Prop} :
    Sat (f <$> m) s Q ↔ Sat m s fun a s' => Q (f a) s' := by
  rw [map_eq_pure_bind, sat_bind]
  simp only [sat_pure]

@[simp] theorem sat_get {s : σ} {Q : σ → σ → Prop} : Sat (get : EStateM ε σ σ) s Q ↔ Q s s :=
  sat_iff_of_ok rfl

@[simp] theorem sat_set {s t : σ} {Q : Unit → σ → Prop} :
    Sat (set t : EStateM ε σ Unit) s Q ↔ Q () t := sat_iff_of_ok rfl

@[simp] theorem sat_modify {s : σ} {f : σ → σ} {Q : Unit → σ → Prop} :
    Sat (modify f : EStateM ε σ Unit) s Q ↔ Q () (f s) := sat_iff_of_ok rfl

/-! ### Loops -/

variable {I : σ → Prop}

/-- An invariant kept by the body of a `for` loop is kept by the loop. -/
theorem sat_forM {f : α → EStateM ε σ Unit} (l : List α) (s : σ)
    (hf : (∀ a ∈ l, ∀ s, I s → Sat (f a) s fun _ s' => I s')) (hs : I s) :
    Sat (forM l f) s fun _ s' => I s' := by
  induction l generalizing s with
  | nil => simpa using hs
  | cons a l ih =>
    rw [List.forM_cons, sat_bind]
    refine (hf a (by simp) s hs).mono fun _ s' hs' => ?_
    exact ih s' (fun b hb => hf b (List.mem_cons_of_mem a hb)) hs'

/-- The same for a loop that collects one result per element: every result has the
property the body establishes of it, if later rounds do not undo it. -/
theorem sat_mapM {R : β → σ → Prop} (l : List α) (s : σ)
    (hf : (∀ a ∈ l, ∀ s, I s → Sat (f a) s fun b s' => R b s' ∧ I s' ∧ ∀ c, R c s → R c s'))
    (hs : I s) : Sat (l.mapM f) s fun bs s' => (∀ b ∈ bs, R b s') ∧ I s' ∧ ∀ c, R c s → R c s' := by
  induction l generalizing s with
  | nil => simpa using hs
  | cons a l ih =>
    rw [List.mapM_cons, sat_bind]
    refine (hf a (by simp) s hs).mono fun b s' ⟨hb, hs', hkeep⟩ => ?_
    rw [sat_bind]
    refine (ih s' (fun c hc => hf c (List.mem_cons_of_mem a hc)) hs').mono
      fun bs s'' ⟨hbs, hs'', hkeep'⟩ => ?_
    rw [sat_pure]
    refine ⟨fun c hc => ?_, hs'', fun c hc => hkeep' c (hkeep c hc)⟩
    rcases List.mem_cons.mp hc with rfl | hc
    · exact hkeep' _ hb
    · exact hbs c hc

/-! ### Returning or raising -/

/-- However the computation ends from `s`: `Q` of what it returns, `E` of the state it leaves if it
raises. -/
def Ends (m : EStateM ε σ α) (s : σ) (Q : α → σ → Prop) (E : σ → Prop) : Prop :=
  match m s with
  | .ok a s' => Q a s'
  | .error _ s' => E s'

section Ends

variable {m : EStateM ε σ α} {s : σ} {E : σ → Prop}

variable {Q : α → σ → Prop}

theorem Ends.mono {R : α → σ → Prop} (h : Ends m s Q E) (hQR : ∀ a s', Q a s' → R a s') :
    Ends m s R E := by
  unfold Ends at h ⊢
  cases hm : m s with
  | ok a s' => rw [hm] at h; exact hQR a s' h
  | error e s' => rw [hm] at h; exact h

theorem Ends.sat (h : Ends m s Q fun _ => False) : Sat m s Q := by
  unfold Ends at h
  cases hm : m s with
  | ok a s' => rw [hm] at h; exact ⟨a, s', hm, h⟩
  | error e s' => rw [hm] at h; exact h.elim

/-- What is true either way is true of the state left. -/
theorem ends_finalState (h : Ends m s (fun _ s' => E s') E) : E (finalState m s) := by
  unfold Ends at h
  unfold finalState
  cases hm : m s with
  | ok a s' => rw [hm] at h; exact h
  | error e s' => rw [hm] at h; exact h

@[simp] theorem ends_pure {a : α} : Ends (pure a : EStateM ε σ α) s Q E ↔ Q a s := Iff.rfl

@[simp] theorem ends_get {Q : σ → σ → Prop} : Ends (get : EStateM ε σ σ) s Q E ↔ Q s s := Iff.rfl

@[simp] theorem ends_set {t : σ} {Q : Unit → σ → Prop} :
    Ends (set t : EStateM ε σ Unit) s Q E ↔ Q () t := Iff.rfl

@[simp] theorem ends_modify {f : σ → σ} {Q : Unit → σ → Prop} :
    Ends (modify f : EStateM ε σ Unit) s Q E ↔ Q () (f s) := Iff.rfl

@[simp] theorem ends_throw {e : ε} : Ends (throw e : EStateM ε σ α) s Q E ↔ E s := Iff.rfl

@[simp] theorem ends_bind {Q : β → σ → Prop} :
    Ends (m >>= f) s Q E ↔ Ends m s (fun a s' => Ends (f a) s' Q E) E := by
  simp only [Ends, bind, EStateM.bind]
  cases m s <;> rfl

/-- A loop that may raise, with an invariant that speaks of the elements still to come. -/
theorem ends_forM {I : List α → σ → Prop} {f : α → EStateM ε σ Unit}
    (hf : ∀ a l s, I (a :: l) s → Ends (f a) s (fun _ s' => I l s') E) (l : List α) (s : σ)
    (hs : I l s) : Ends (forM l f) s (fun _ s' => I [] s') E := by
  induction l generalizing s with
  | nil => exact hs
  | cons a l ih =>
    rw [List.forM_cons, ends_bind]
    exact (hf a l s hs).mono fun _ s' hs' => ih s' hs'

theorem ends_mapM {I : List α → σ → Prop}
    (hf : ∀ a l s, I (a :: l) s → Ends (f a) s (fun _ s' => I l s') E) (l : List α) (s : σ)
    (hs : I l s) : Ends (l.mapM f) s (fun _ s' => I [] s') E := by
  induction l generalizing s with
  | nil => exact hs
  | cons a l ih =>
    rw [List.mapM_cons, ends_bind]
    refine (hf a l s hs).mono fun _ s' hs' => ?_
    rw [ends_bind]
    exact (ih s' hs').mono fun _ s'' hs'' => hs''

end Ends

/-! ### Relations between the states before and after -/

/-- However the computation ends, the state it leaves is related to the one it started from. -/
def Along (R : σ → σ → Prop) (m : EStateM ε σ α) : Prop := ∀ s, R s (finalState m s)

section Along

variable {R : σ → σ → Prop} [IsPreorder σ R] {s t : σ}

theorem Along.bind {m : EStateM ε σ α} (hm : Along R m)
    (hf : ∀ a, Along R (f a)) : Along R (m >>= f) := by
  intro s
  have h := hm s
  rw [finalState] at h
  rw [finalState_bind]
  cases hres : m s with
  | error e s' => rwa [hres] at h
  | ok a s' =>
    rw [hres] at h
    exact trans_of R h (hf a s')

theorem along_pure (a : α) : Along R (pure a : EStateM ε σ α) := refl_of R

theorem along_get : Along R (get : EStateM ε σ σ) := refl_of R

theorem along_throw (e : ε) : Along R (throw e : EStateM ε σ α) := refl_of R

omit [IsPreorder σ R] in
/-- A computation that goes on with the state it has read. -/
theorem along_get_bind {f : σ → EStateM ε σ α} (h : ∀ s, R s (finalState (f s) s)) :
    Along R (get >>= f) := h

omit [IsPreorder σ R] in
theorem along_modify {f : σ → σ} (h : ∀ s, R s (f s)) : Along R (modify f : EStateM ε σ PUnit) := h

theorem along_set_bind {f : PUnit → EStateM ε σ α} (h : R s t) (hf : Along R (f ⟨⟩)) :
    R s (finalState (set t >>= f) s) := trans_of R h (hf t)

theorem along_forM {f : α → EStateM ε σ Unit} (hf : ∀ a, Along R (f a)) (l : List α) :
    Along R (forM l f) := by
  induction l with
  | nil => exact along_pure ()
  | cons a l ih =>
    exact (hf a).bind fun _ => ih

theorem along_foldlM {f : β → α → EStateM ε σ β} (hf : ∀ b a, Along R (f b a)) (l : List α) :
    ∀ b, Along R (l.foldlM f b) := by
  induction l with
  | nil => exact along_pure
  | cons a l ih =>
    intro b
    exact (hf b a).bind ih

theorem along_mapM (hf : ∀ a, Along R (f a)) (l : List α) : Along R (l.mapM f) := by
  induction l with
  | nil => exact along_pure []
  | cons a l ih =>
    rw [List.mapM_cons]
    exact (hf a).bind fun _ => ih.bind fun _ => along_pure _

end Along

/-! ### Runs -/

/-- **The invariant rule.** What holds initially and is kept by every step of a
run holds after the run. -/
theorem foldl_invariant {step : σ → α → σ} (l : List α) (s : σ)
    (hstep : (∀ a ∈ l, ∀ s, I s → I (step s a))) (hs : I s) : I (l.foldl step s) := by
  induction l generalizing s with
  | nil => exact hs
  | cons a l ih =>
    exact ih (step s a) (fun b hb => hstep b (List.mem_cons_of_mem a hb))
      (hstep a (by simp) s hs)
