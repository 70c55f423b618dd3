import CacheFlow.Lib.Dict

/-!
# One thread that serves many keyed machines

A thread takes items off one queue. Every item carries a key; the thread keeps a
dictionary with the progress of every key it has begun, looks the key of the item up
in it, works on it, and stores the progress back or, when the key is done, deletes it.
What it does on the way is recorded in a log.

However the items of different keys are interleaved, each key sees its own items
only: what the thread does for a key is what it would do if the queue held nothing
else.

## Main results

* `Mux.active_run`, `Mux.ofKey_log_run` — an interleaving projects to each key's solo run.
-/

variable {K σ ι ε α : Type} [DecidableEq K]

/-- What a list of keyed things holds for the key `k`, in order. -/
def ofKey (k : K) (l : List (K × α)) : List α := (l.filter fun p => p.1 = k).map Prod.snd

theorem ofKey_append (k : K) (l l' : List (K × α)) :
    ofKey k (l ++ l') = ofKey k l ++ ofKey k l' := by
  simp [ofKey]

theorem ofKey_cons_self (k : K) (a : α) (l : List (K × α)) :
    ofKey k ((k, a) :: l) = a :: ofKey k l := by
  simp [ofKey]

theorem ofKey_cons_of_ne {k k' : K} (h : k' ≠ k) (a : α) (l : List (K × α)) :
    ofKey k ((k', a) :: l) = ofKey k l := by
  simp [ofKey, h]

theorem ofKey_map_self (k : K) (l : List α) : ofKey k (l.map fun a => (k, a)) = l := by
  induction l with
  | nil => rfl
  | cons a l ih => rw [List.map_cons, ofKey_cons_self, ih]

theorem ofKey_map_of_ne {k k' : K} (h : k' ≠ k) (l : List α) :
    ofKey k (l.map fun a => (k', a)) = [] := by
  induction l with
  | nil => rfl
  | cons a l ih => rw [List.map_cons, ofKey_cons_of_ne h, ih]

/-- The state of the thread. -/
structure Mux (K σ ε : Type) where
  /-- The progress of the keys that have begun and are not done. -/
  active : Dict K σ
  /-- What has been done, and for which key. -/
  log : List (K × ε)

namespace Mux

variable (body : K → Option σ → ι → Option σ × List ε)

/-- Work on one item: the body sees the progress of the item's key, if it has begun, and
returns its progress afterwards, if it is not done. -/
def item (m : Mux K σ ε) (p : K × ι) : Mux K σ ε :=
  let r := body p.1 (m.active.get? p.1) p.2
  { active :=
      match r.1 with
      | none => m.active.erase p.1
      | some st => m.active.set p.1 st
    log := m.log ++ r.2.map fun e => (p.1, e) }

/-- Work on a queue of items, from the state in which nothing has begun. -/
def run (q : List (K × ι)) : Mux K σ ε := q.foldl (item body) ⟨∅, []⟩

/-- One item of a single key: its progress, and what has been done for it so far. -/
def soloItem (k : K) (v : Option σ × List ε) (x : ι) : Option σ × List ε :=
  ((body k v.1 x).1, v.2 ++ (body k v.1 x).2)

/-- The items of a single key. -/
def solo (k : K) (xs : List ι) : Option σ × List ε := xs.foldl (soloItem body k) (none, [])

omit [DecidableEq K] in
theorem solo_concat (k : K) (xs : List ι) (x : ι) :
    solo body k (xs ++ [x]) = soloItem body k (solo body k xs) x := by
  simp [solo, List.foldl_append]

/-- What a key sees of the state: its progress, and what has been done for it. -/
def view (m : Mux K σ ε) (k : K) : Option σ × List ε := (m.active.get? k, ofKey k m.log)

theorem view_item_self (m : Mux K σ ε) (k : K) (x : ι) :
    (item body m (k, x)).view k = soloItem body k (m.view k) x := by
  unfold view soloItem item
  dsimp only
  rw [ofKey_append, ofKey_map_self]
  cases (body k (m.active.get? k) x).1 <;> simp

theorem view_item_of_ne (m : Mux K σ ε) {k k' : K} (h : k' ≠ k) (x : ι) :
    (item body m (k', x)).view k = m.view k := by
  unfold view item
  dsimp only
  rw [ofKey_append, ofKey_map_of_ne h, List.append_nil]
  cases (body k' (m.active.get? k') x).1 with
  | none => rw [Dict.get?_erase_of_ne _ h.symm]
  | some st => rw [Dict.get?_set_of_ne _ h.symm]

theorem view_foldl (k : K) (q : List (K × ι)) (m : Mux K σ ε) :
    (q.foldl (item body) m).view k = (ofKey k q).foldl (soloItem body k) (m.view k) := by
  induction q generalizing m with
  | nil => rfl
  | cons p q ih =>
    obtain ⟨k', x⟩ := p
    rw [List.foldl_cons, ih]
    by_cases h : k' = k
    · subst h
      rw [ofKey_cons_self, List.foldl_cons, view_item_self]
    · rw [ofKey_cons_of_ne h, view_item_of_ne _ _ h]

/-- **Each key sees its own items only.** -/
theorem view_run (q : List (K × ι)) (k : K) : (run body q).view k = solo body k (ofKey k q) :=
  view_foldl body k q _

theorem active_run (q : List (K × ι)) (k : K) :
    (run body q).active.get? k = (solo body k (ofKey k q)).1 :=
  congrArg Prod.fst (view_run body q k)

theorem ofKey_log_run (q : List (K × ι)) (k : K) :
    ofKey k (run body q).log = (solo body k (ofKey k q)).2 :=
  congrArg Prod.snd (view_run body q k)

end Mux
