import Mathlib.Data.List.Forall2

/-!
# Calls that may raise

Total correctness for `Except`: `Returns x Q` says that the call returns normally, with a
result that satisfies `Q`. `Ensures x Q` says so only of calls that return. The rules push them
through sequencing and loops, so that the specification of a method is proved along its text.

## Main results

* `returns_bind`, `ensures_bind`, `bind_eq_ok` — sequencing.
* `returns_foldlM`, `ensures_foldlM`, `returns_thread` — the loop rules; the invariant sees what is
  done and what is left.
-/

namespace CacheFlow

open List

variable {ε α β σ : Type}

/-- The call returns normally, with a result that satisfies `Q`. -/
def Returns (x : Except ε α) (Q : α → Prop) : Prop := ∃ a, x = .ok a ∧ Q a

variable {Q : α → Prop} {x : Except ε α}

theorem Returns.mono {R : α → Prop} (h : Returns x Q) (hQR : ∀ a, Q a → R a) : Returns x R := by
  obtain ⟨a, hx, hq⟩ := h
  exact ⟨a, hx, hQR a hq⟩

variable {a : α}

theorem Returns.of_eq (h : Returns x Q) (hx : x = .ok a) : Q a := by
  obtain ⟨b, hx', hq⟩ := h
  cases hx.symm.trans hx'
  exact hq

/-- The result of a call that is known to return. -/
def result (x : Except ε α) (h : x.isOk = true) : α :=
  match x, h with
  | .ok a, _ => a

theorem eq_ok_result (x : Except ε α) (h : x.isOk = true) : x = .ok (result x h) := by
  cases x with
  | ok a => rfl
  | error e => cases h

@[simp] theorem returns_ok : Returns (.ok a : Except ε α) Q ↔ Q a := by
  constructor
  · exact fun h => h.of_eq rfl
  · exact fun hq => ⟨a, rfl, hq⟩

@[simp] theorem returns_pure : Returns (pure a : Except ε α) Q ↔ Q a := returns_ok

@[simp] theorem returns_error {e : ε} : ¬ Returns (.error e : Except ε α) Q := by
  rintro ⟨a, hx, -⟩
  cases hx

variable {f : α → Except ε β}

@[simp] theorem returns_bind {Q : β → Prop} :
    Returns (x >>= f) Q ↔ Returns x fun a => Returns (f a) Q := by
  cases x with
  | ok a =>
    show Returns (f a) Q ↔ _
    rw [returns_ok]
  | error e => exact iff_of_false returns_error returns_error

@[simp] theorem returns_map {f : α → β} {Q : β → Prop} :
    Returns (x.map f) Q ↔ Returns x fun a => Q (f a) := by
  cases x with
  | ok a =>
    show Returns (.ok (f a)) Q ↔ _
    rw [returns_ok, returns_ok]
  | error e => exact iff_of_false returns_error returns_error

/-! ### Calls that have returned -/

theorem bind_eq_ok {b : β} : x >>= f = .ok b ↔ ∃ a, x = .ok a ∧ f a = .ok b := by
  cases x with
  | error e => simp [bind, Except.bind]
  | ok a => simp [bind, Except.bind]

theorem map_eq_ok {f : α → β} {b : β} : f <$> x = .ok b ↔ ∃ a, x = .ok a ∧ f a = b := by
  cases x with
  | error e => simp [Functor.map, Except.map]
  | ok a => simp [Functor.map, Except.map]

/-! ### Partial correctness -/

/-- If the call returns normally, its result satisfies `Q`. -/
def Ensures (x : Except ε α) (Q : α → Prop) : Prop := ∀ a, x = .ok a → Q a

theorem Ensures.mono {R : α → Prop} (h : Ensures x Q) (hQR : ∀ a, Q a → R a) :
    Ensures x R := fun a hx => hQR a (h a hx)

theorem ensures_ok : Ensures (.ok a : Except ε α) Q ↔ Q a := by
  constructor
  · exact fun h => h a rfl
  · rintro hq b hb
    cases hb
    exact hq

theorem ensures_pure : Ensures (pure a : Except ε α) Q ↔ Q a := ensures_ok

theorem ensures_error {e : ε} : Ensures (.error e : Except ε α) Q := by
  intro a h
  cases h

theorem ensures_bind {Q : β → Prop} : Ensures (x >>= f) Q ↔ Ensures x fun a => Ensures (f a) Q := by
  cases x with
  | ok a =>
    show Ensures (f a) Q ↔ _
    rw [ensures_ok]
  | error e => exact iff_of_true ensures_error ensures_error

/-- The rule for a loop over a list that may raise. -/
theorem ensures_foldlM {f : σ → α → Except ε σ} {I : List α → σ → Prop} (l : List α) (s : σ)
    (hstep : ∀ done a todo s, l = done ++ a :: todo → I done s → Ensures (f s a) (I (done ++ [a])))
    (hs : I [] s) : Ensures (l.foldlM f s) (I l) := by
  -- generalised to a loop of which a part is done already
  have hgen : ∀ (todo done : List α) (s : σ), l = done ++ todo → I done s →
      Ensures (todo.foldlM f s) (I l) := by
    intro todo
    induction todo with
    | nil =>
      intro done s hl hs
      rw [append_nil] at hl
      exact ensures_pure.mpr (hl ▸ hs)
    | cons a todo ih =>
      intro done s hl hs
      rw [foldlM_cons, ensures_bind]
      refine (hstep done a todo s hl hs).mono fun s' hs' => ?_
      exact ih (done ++ [a]) s' (by rw [hl, append_cons]) hs'
  exact hgen l [] s rfl hs

/-! ### Loops -/

/-- The rule for a loop over a list: the invariant sees the part that is done. -/
theorem returns_foldlM {f : σ → α → Except ε σ} {I : List α → σ → Prop} (l : List α) (s : σ)
    (hstep : ∀ done a todo s, l = done ++ a :: todo → I done s → Returns (f s a) (I (done ++ [a])))
    (hs : I [] s) : Returns (l.foldlM f s) (I l) := by
  -- generalised to a loop of which a part is done already
  have hgen : ∀ (todo done : List α) (s : σ), l = done ++ todo → I done s →
      Returns (todo.foldlM f s) (I l) := by
    intro todo
    induction todo with
    | nil =>
      intro done s hl hs
      rw [append_nil] at hl
      exact returns_pure.mpr (hl ▸ hs)
    | cons a todo ih =>
      intro done s hl hs
      rw [foldlM_cons, returns_bind]
      refine (hstep done a todo s hl hs).mono fun s' hs' => ?_
      exact ih (done ++ [a]) s' (by rw [hl, append_cons]) hs'
  exact hgen l [] s rfl hs

/-- One round per object: each round replaces its object and passes the state on. -/
def thread (f : α → σ → Except ε (β × σ)) : List α → σ → Except ε (List β × σ)
  | [], s => .ok ([], s)
  | a :: as, s => do
    let (b, s) ← f a s
    let (bs, s) ← thread f as s
    pure (b :: bs, s)

/-- The rule for such a loop: the invariant sees the new objects and those that are left, and each
object is related to the one that replaces it. -/
theorem returns_thread {f : α → σ → Except ε (β × σ)} {I : List β → List α → σ → Prop}
    {R : α → β → Prop}
    (hf : ∀ done a todo s, I done (a :: todo) s →
      Returns (f a s) fun x => I (done ++ [x.1]) todo x.2 ∧ R a x.1) (todo : List α)
    (done : List β) (s : σ) (hs : I done todo s) :
    Returns (thread f todo s) fun x => I (done ++ x.1) [] x.2 ∧ List.Forall₂ R todo x.1 := by
  induction todo generalizing done s with
  | nil =>
    exact returns_ok.mpr ⟨by rwa [append_nil], .nil⟩
  | cons a todo ih =>
    rw [thread, returns_bind]
    refine (hf done a todo s hs).mono fun x hx => ?_
    rw [returns_bind]
    refine (ih (done ++ [x.1]) x.2 hx.1).mono fun y hy => ?_
    rw [← append_cons] at hy
    exact returns_pure.mpr ⟨hy.1, .cons hx.2 hy.2⟩

/-! ### Objects and what replaces them -/

section Related

variable {R : α → β → Prop} {as : List α} {bs : List β}

theorem exists_of_mem_right (h : List.Forall₂ R as bs) : ∀ b ∈ bs, ∃ a ∈ as, R a b := by
  induction h with
  | nil => exact fun b hb => absurd hb not_mem_nil
  | cons hR _ ih =>
    intro b hb
    rcases mem_cons.mp hb with rfl | hb
    · exact ⟨_, mem_cons_self, hR⟩
    · obtain ⟨a, ha, hab⟩ := ih b hb
      exact ⟨a, mem_cons_of_mem _ ha, hab⟩

theorem exists_of_mem_left (h : List.Forall₂ R as bs) : ∀ a ∈ as, ∃ b ∈ bs, R a b :=
  exists_of_mem_right h.flip

theorem forall_mem_iff_of_forall₂ {P : α → Prop} {Q : β → Prop} (h : List.Forall₂ R as bs)
    (hPQ : ∀ a b, R a b → (P a ↔ Q b)) : (∀ a ∈ as, P a) ↔ ∀ b ∈ bs, Q b := by
  induction h with
  | nil => simp
  | cons hR _ ih => rw [forall_mem_cons, forall_mem_cons, hPQ _ _ hR, ih]

theorem map_eq_map_of_forall₂ {γ : Type} {f : α → γ} {g : β → γ} (h : List.Forall₂ R as bs)
    (hfg : ∀ a b, R a b → f a = g b) : as.map f = bs.map g := by
  induction h with
  | nil => rfl
  | cons hR _ ih => rw [map_cons, map_cons, hfg _ _ hR, ih]

theorem forall₂_and {S : α → β → Prop} (h : List.Forall₂ R as bs) (h' : List.Forall₂ S as bs) :
    List.Forall₂ (fun a b => R a b ∧ S a b) as bs :=
  h.mp (fun _ _ hR hS => ⟨hR, hS⟩) h'

/-- Relations compose along the list. -/
theorem forall₂_comp {γ : Type} {S : β → γ → Prop} {T : α → γ → Prop} {cs : List γ}
    (hRS : ∀ a b c, R a b → S b c → T a c) (h : List.Forall₂ R as bs) (h' : List.Forall₂ S bs cs) :
    List.Forall₂ T as cs := by
  induction h generalizing cs with
  | nil =>
    cases h'
    exact .nil
  | cons hR _ ih =>
    cases h' with
    | cons hS hrest => exact .cons (hRS _ _ _ hR hS) (ih hrest)

end Related

end CacheFlow
