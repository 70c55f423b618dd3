import Mathlib.Data.List.Induction
import Mathlib.Data.List.Nodup
import Mathlib.Tactic.Ring

/-!
# Chained digests

A chain digests a list item by item, each digest taking the one before it in. When the
digest of one step determines what went into it, a digest of the chain identifies the
whole list up to its item.

Digests are of bytes; the encoding of numbers as little-endian bytes is here as well.

## Main results

* `chain_getElem?_eq_iff` — equal digests, equal prefixes.
* `chain_getElem?_inj` — digests of two chains are equal at one place only.
* `bytesLE_injOn`, `hex_injective` — the encodings are injective.
-/

namespace CacheFlow

open List

/-! ### Chains -/

section Chain

variable {κ α : Type}

/-- The digests of a list: each takes the one before it in, and the first the seed. -/
def chain (h : κ → α → κ) : κ → List α → List κ
  | _, [] => []
  | k, a :: as => h k a :: chain h (h k a) as

@[simp] theorem length_chain (h : κ → α → κ) : ∀ (k : κ) (l : List α),
    (chain h k l).length = l.length := by
  intro k l
  induction l generalizing k with
  | nil => rfl
  | cons a l ih => rw [chain, length_cons, ih, length_cons]

variable {h : κ → α → κ}

theorem exists_of_mem_chain : ∀ {k d : κ} {l : List α}, d ∈ chain h k l → ∃ k' a, d = h k' a := by
  intro k d l
  induction l generalizing k with
  | nil => exact fun hd => absurd hd not_mem_nil
  | cons a l ih =>
    intro hd
    rcases mem_cons.mp hd with rfl | hd
    · exact ⟨k, a, rfl⟩
    · exact ih hd

theorem chain_append (h : κ → α → κ) : ∀ (k : κ) (l l' : List α),
    chain h k (l ++ l') = chain h k l ++ chain h ((chain h k l).getLast?.getD k) l' := by
  intro k l
  induction l generalizing k with
  | nil => exact fun _ => rfl
  | cons a l ih =>
    intro l'
    rw [cons_append, chain, chain, ih, cons_append]
    congr 3
    cases hlast : (chain h (h k a) l).getLast? with
    | none => rw [List.getLast?_eq_none_iff.mp hlast]; rfl
    | some d => rw [List.getLast?_cons, hlast]; rfl

/-- The digest at a place is that of the items up to it, digested one after the other. -/
theorem chain_getElem? (h : κ → α → κ) (i : ℕ) (k : κ) (l : List α) (hi : i < l.length) :
    (chain h k l)[i]? = some ((l.take (i + 1)).foldl h k) := by
  induction i generalizing k l with
  | zero =>
    match l, hi with
    | a :: l, _ => rfl
  | succ i ih =>
    match l, hi with
    | a :: l, hi => exact ih (h k a) l (Nat.lt_of_succ_lt_succ hi)

variable {p : α → Prop}

/-- Digesting item by item is injective, in the seed as well, when a step is and never comes back to
a seed. -/
theorem foldl_injOn
    (hinj : ∀ {k k' a a'}, p a → p a' → h k a = h k' a' → k = k' ∧ a = a') {k k' : κ}
    (hk : ∀ d a, h d a ≠ k) (hk' : ∀ d a, h d a ≠ k') {l l' : List α} (hl : (∀ a ∈ l, p a))
    (hl' : (∀ a ∈ l', p a)) (heq : l.foldl h k = l'.foldl h k') : k = k' ∧ l = l' := by
  induction l using List.reverseRecOn generalizing l' with
  | nil =>
    cases l' using List.reverseRecOn with
    | nil => exact ⟨heq, rfl⟩
    | append_singleton l' a' =>
      rw [foldl_nil, foldl_concat] at heq
      exact absurd heq.symm (hk _ _)
  | append_singleton l a ih =>
    cases l' using List.reverseRecOn with
    | nil =>
      rw [foldl_nil, foldl_concat] at heq
      exact absurd heq (hk' _ _)
    | append_singleton l' a' =>
      simp only [forall_mem_append, forall_mem_singleton] at hl hl'
      rw [foldl_concat, foldl_concat] at heq
      obtain ⟨hprev, rfl⟩ := hinj hl.2 hl'.2 heq
      obtain ⟨hseed, rfl⟩ := ih hl.1 hl'.1 hprev
      exact ⟨hseed, rfl⟩

/-- **A digest identifies the chain it is of and its place there**, when no digest is a seed. -/
theorem chain_getElem?_inj
    (hinj : ∀ {k k' a a'}, p a → p a' → h k a = h k' a' → k = k' ∧ a = a') {k k' d : κ}
    (hk : ∀ d a, h d a ≠ k) (hk' : ∀ d a, h d a ≠ k') {i j : ℕ} {l l' : List α} (hl : ∀ a ∈ l, p a)
    (hl' : ∀ a ∈ l', p a) (hi : (chain h k l)[i]? = some d) (hj : (chain h k' l')[j]? = some d) :
    i = j ∧ k = k' ∧ l.take (i + 1) = l'.take (i + 1) := by
  obtain ⟨hilt, -⟩ := List.getElem?_eq_some_iff.mp hi
  obtain ⟨hjlt, -⟩ := List.getElem?_eq_some_iff.mp hj
  rw [length_chain] at hilt hjlt
  have heq := hi.trans hj.symm
  rw [chain_getElem? h i k l hilt, chain_getElem? h j k' l' hjlt, Option.some.injEq] at heq
  obtain ⟨hseed, htake⟩ := foldl_injOn hinj hk hk' (fun a ha => hl a (mem_of_mem_take ha))
    (fun a ha => hl' a (mem_of_mem_take ha)) heq
  have hlength := congrArg List.length htake
  simp only [length_take] at hlength
  obtain rfl : i = j := by omega
  exact ⟨rfl, hseed, htake⟩

/-- **A digest identifies the prefix it ends.** `h` need only be injective on the items
of the two lists. -/
theorem chain_getElem?_eq_iff
    (hinj : ∀ {k k' a a'}, p a → p a' → h k a = h k' a' → k = k' ∧ a = a') {i : ℕ} {k k' : κ}
    {l l' : List α} (hl : (∀ a ∈ l, p a)) (hl' : (∀ a ∈ l', p a)) (hi : i < l.length)
    (hi' : i < l'.length) :
    ((chain h k l)[i]? = (chain h k' l')[i]? ↔ k = k' ∧ l.take (i + 1) = l'.take (i + 1)) := by
  induction i generalizing k k' l l' with
  | zero =>
    match l, l', hi, hi' with
    | a :: l, a' :: l', _, _ =>
      simp only [chain, List.getElem?_cons_zero, Option.some.injEq, take_succ_cons,
        take_zero, List.cons.injEq, and_true]
      constructor
      · exact hinj (hl a mem_cons_self) (hl' a' mem_cons_self)
      · rintro ⟨rfl, rfl⟩
        rfl
  | succ i ih =>
    match l, l', hi, hi' with
    | a :: l, a' :: l', hi, hi' =>
      rw [chain, chain, List.getElem?_cons_succ, List.getElem?_cons_succ,
        ih (fun b hb => hl b (mem_cons_of_mem _ hb))
          (fun b hb => hl' b (mem_cons_of_mem _ hb))
          (Nat.lt_of_succ_lt_succ hi) (Nat.lt_of_succ_lt_succ hi'),
        take_succ_cons, take_succ_cons, List.cons.injEq]
      constructor
      · rintro ⟨hstep, hrest⟩
        obtain ⟨hk, ha⟩ := hinj (hl a mem_cons_self) (hl' a' mem_cons_self) hstep
        exact ⟨hk, ha, hrest⟩
      · rintro ⟨rfl, rfl, hrest⟩
        exact ⟨rfl, hrest⟩

end Chain

/-! ### Pieces of equal length -/

section Pieces

variable {α β : Type}

/-- Two lists agree up to `(i + 1) * n` if their pieces of length `n` do. -/
theorem take_mul_eq_iff {l l' : List α} (n : ℕ) : ∀ i : ℕ,
    l.take (i * n) = l'.take (i * n) ↔
      ∀ m < i, (l.drop (m * n)).take n = (l'.drop (m * n)).take n := by
  intro i
  induction i with
  | zero => simp
  | succ i ih =>
    rw [Nat.succ_mul]
    constructor
    · intro h m hm
      -- a piece is cut out of the common start
      have hle : m * n + n ≤ i * n + n := by
        have := Nat.mul_le_mul_right n (Nat.le_of_lt_succ hm)
        omega
      have hcut : ∀ k : List α, (k.drop (m * n)).take n =
          (((k.take (i * n + n)).drop (m * n)).take n) := by
        intro k
        rw [drop_take, take_take, Nat.min_eq_left (by omega)]
      rw [hcut l, hcut l', h]
    · intro h
      rw [take_add, take_add, ih.mpr fun m hm => h m (Nat.lt_succ_of_lt hm),
        h i (Nat.lt_succ_self i)]

variable {f : α → List β} {w : ℕ}

theorem length_flatMap_const (hf : ∀ a, (f a).length = w) (l : List α) :
    (l.flatMap f).length = l.length * w := by
  induction l with
  | nil => simp
  | cons a l ih =>
    rw [flatMap_cons, length_append, ih, hf, length_cons, Nat.succ_mul, Nat.add_comm]

theorem take_flatMap (hf : ∀ a, (f a).length = w) : ∀ (n : ℕ) (l : List α),
    (l.flatMap f).take (n * w) = (l.take n).flatMap f := by
  intro n
  induction n with
  | zero => simp
  | succ n ih =>
    intro l
    cases l with
    | nil => simp
    | cons a l =>
      rw [flatMap_cons, Nat.succ_mul, Nat.add_comm, ← hf a, take_length_add_append, hf a,
        ih, take_succ_cons, flatMap_cons]

theorem drop_flatMap (hf : ∀ a, (f a).length = w) : ∀ (n : ℕ) (l : List α),
    (l.flatMap f).drop (n * w) = (l.drop n).flatMap f := by
  intro n
  induction n with
  | zero => simp
  | succ n ih =>
    intro l
    cases l with
    | nil => simp
    | cons a l =>
      rw [flatMap_cons, Nat.succ_mul, Nat.add_comm, ← hf a, drop_length_add_append, hf a,
        ih, drop_succ_cons]

/-- Encodings of equal, positive length can be told apart in a row. -/
theorem flatMap_injOn {p : α → Prop} (hf : ∀ a, (f a).length = w) (hw : 0 < w)
    (hinj : ∀ {a a'}, p a → p a' → f a = f a' → a = a') {l l' : List α} (hl : (∀ a ∈ l, p a))
    (hl' : (∀ a ∈ l', p a)) (h : l.flatMap f = l'.flatMap f) : l = l' := by
  induction l generalizing l' with
  | nil =>
    cases l' with
    | nil => rfl
    | cons a' l' =>
      have := congrArg List.length h
      simp only [flatMap_nil, length_nil, flatMap_cons, length_append, hf] at this
      omega
  | cons a l ih =>
    cases l' with
    | nil =>
      have := congrArg List.length h
      simp only [flatMap_nil, length_nil, flatMap_cons, length_append, hf] at this
      omega
    | cons a' l' =>
      obtain ⟨hhead, htail⟩ := append_inj h (by rw [hf, hf])
      rw [hinj (hl a mem_cons_self) (hl' a' mem_cons_self) hhead,
        ih (fun b hb => hl b (mem_cons_of_mem _ hb))
          (fun b hb => hl' b (mem_cons_of_mem _ hb)) htail]

end Pieces

/-! ### Encodings -/

/-- The `n` lowest bytes of a number, the lowest first. -/
def bytesLE : ℕ → ℕ → List UInt8
  | 0, _ => []
  | n + 1, x => UInt8.ofNat (x % 256) :: bytesLE n (x / 256)

@[simp] theorem length_bytesLE (n x : ℕ) : (bytesLE n x).length = n := by
  induction n generalizing x with
  | zero => exact rfl
  | succ n ih =>
    rw [bytesLE, length_cons, ih]

theorem bytesLE_injOn {n x y : ℕ} (hx : x < 256 ^ n) (hy : y < 256 ^ n)
    (h : bytesLE n x = bytesLE n y) : x = y := by
  induction n generalizing x y with
  | zero =>
    rw [Nat.pow_zero, Nat.lt_one_iff] at hx hy
    rw [hx, hy]
  | succ n ih =>
    obtain ⟨hlow, hhigh⟩ := List.cons.inj h
    have hlow' : x % 256 = y % 256 := by
      have := congrArg UInt8.toNat hlow
      simpa using this
    have hdiv : x / 256 = y / 256 := by
      apply ih _ _ hhigh
      · exact Nat.div_lt_of_lt_mul (by rwa [Nat.pow_succ, Nat.mul_comm] at hx)
      · exact Nat.div_lt_of_lt_mul (by rwa [Nat.pow_succ, Nat.mul_comm] at hy)
    omega

/-- A hexadecimal digit. -/
def hexDigit (n : ℕ) : Char := "0123456789abcdef".toList.getD n '0'

/-- Bytes in hexadecimal: `bytes.hex`. -/
def hex (bs : List UInt8) : String :=
  String.ofList (bs.flatMap fun b => [hexDigit (b.toNat / 16), hexDigit (b.toNat % 16)])

theorem hexDigit_inj {m n : ℕ} (hm : m < 16) (hn : n < 16) (h : hexDigit m = hexDigit n) : m = n := by
  have hall : ∀ m < 16, ∀ n < 16, hexDigit m = hexDigit n → m = n := by decide
  exact hall m hm n hn h

theorem hex_injective : Function.Injective hex := by
  intro bs cs h
  refine flatMap_injOn (p := fun _ => True) (w := 2) (fun _ => rfl) Nat.two_pos (fun {b c} _ _ heq => ?_)
    (fun _ _ => trivial) (fun _ _ => trivial) (String.ofList_injective h)
  simp only [List.cons.injEq, and_true] at heq
  have hb := b.toNat_lt
  have hc := c.toNat_lt
  have h₁ := hexDigit_inj (by omega) (by omega) heq.1
  have h₂ := hexDigit_inj (Nat.mod_lt _ (by decide)) (Nat.mod_lt _ (by decide)) heq.2
  exact UInt8.toNat_inj.mp (by omega)

end CacheFlow
