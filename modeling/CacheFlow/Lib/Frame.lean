import Mathlib

/-!
# Length-prefixed frames on a byte stream

A frame is a four-byte big-endian length and a body of that many bytes. A reader that can
read an exact number of bytes from a stream, or find that the stream ends before them,
reads frames one after the other.

How the bytes arrive does not matter: a reader is given by the bytes still unread and what
reading does to them (`ExactReader`), and everything else is about those.

## Main results

* `ExactReader.readLoop_frames` — from the first `k` bytes of some frames, exactly those
  that are complete are read.
-/

/-- The `n` lowest bytes of a number, the highest of them first. -/
def bytesBE : ℕ → ℕ → List UInt8
  | 0, _ => []
  | n + 1, x => bytesBE n (x / 256) ++ [UInt8.ofNat (x % 256)]

/-- The number of some bytes, the highest first. -/
def ofBytesBE (bs : List UInt8) : ℕ := bs.foldl (fun x b => x * 256 + b.toNat) 0

@[simp] theorem length_bytesBE (n x : ℕ) : (bytesBE n x).length = n := by
  induction n generalizing x with
  | zero => exact rfl
  | succ n ih =>
    rw [bytesBE, List.length_append, ih, List.length_singleton]

theorem ofBytesBE_bytesBE {n x : ℕ} (hx : x < 256 ^ n) : ofBytesBE (bytesBE n x) = x := by
  induction n generalizing x with
  | zero =>
    rw [Nat.pow_zero, Nat.lt_one_iff] at hx
    rw [hx]
    rfl
  | succ n ih =>
    have hdiv : x / 256 < 256 ^ n := by
      rw [Nat.div_lt_iff_lt_mul (by decide), ← Nat.pow_succ]
      exact hx
    have hrest := ih hdiv
    unfold ofBytesBE at hrest ⊢
    rw [bytesBE, List.foldl_append, hrest]
    simp only [List.foldl_cons, List.foldl_nil, UInt8.toNat_ofNat']
    omega

/-- A frame: the length of the body and the body. -/
def frame (body : List UInt8) : List UInt8 := bytesBE 4 body.length ++ body

@[simp] theorem length_frame (body : List UInt8) : (frame body).length = 4 + body.length := by
  simp [frame]

/-- Why a frame could not be read. -/
inductive FrameErr where
  | closed : FrameErr
  | tooLarge (n : ℕ) : FrameErr
  | badBody : FrameErr
  deriving DecidableEq, Repr

/-- A reader of exact numbers of bytes from a stream that will end. -/
structure ExactReader (σ : Type) where
  /-- The bytes that are still to be read. -/
  bytes : σ → List UInt8
  /-- Read a number of bytes, unless the stream ends before. -/
  read : ℕ → σ → Option (List UInt8 × σ)
  /-- The bytes are read in order. -/
  read_of_le : ∀ n s, n ≤ (bytes s).length →
    ∃ s', read n s = some ((bytes s).take n, s') ∧ bytes s' = (bytes s).drop n
  /-- Where there are too few, the end of the stream is found. -/
  read_of_lt : ∀ n s, (bytes s).length < n → read n s = none

namespace ExactReader

open List

variable {σ μ : Type} (R : ExactReader σ) (limit : ℕ) (decode : List UInt8 → Option μ)

/-- Read one frame, of at most `limit` bytes, and decode its body. -/
def readFrame (s : σ) : Except FrameErr (μ × σ) :=
  match R.read 4 s with
  | none => .error .closed
  | some (header, s) =>
    if limit < ofBytesBE header then .error (.tooLarge (ofBytesBE header))
    else
      match R.read (ofBytesBE header) s with
      | none => .error .closed
      | some (body, s) =>
        match decode body with
        | none => .error .badBody
        | some m => .ok (m, s)

/-- Read frames until one cannot be read, at most `fuel` of them: what was read, the state
before the frame that could not be, and why it could not. -/
def readLoop : ℕ → σ → List μ × σ × Option FrameErr
  | 0, s => ([], s, none)
  | fuel + 1, s =>
    match R.readFrame limit decode s with
    | .error e => ([], s, some e)
    | .ok (m, s') =>
      let r := readLoop fuel s'
      (m :: r.1, r.2)

variable {R limit decode}

/-- A frame at the front of the stream is read. -/
theorem readFrame_of_frame {s : σ} {body rest : List UInt8} {m : μ} (hlimit : limit < 256 ^ 4)
    (hbytes : R.bytes s = frame body ++ rest) (hle : body.length ≤ limit)
    (hdecode : decode body = some m) :
    ∃ s', R.readFrame limit decode s = .ok (m, s') ∧ R.bytes s' = rest := by
  rw [frame, append_assoc] at hbytes
  obtain ⟨s₁, hread₁, hbytes₁⟩ := R.read_of_le 4 s (by rw [hbytes]; simp)
  rw [hbytes, take_left' (length_bytesBE 4 _)] at hread₁
  rw [hbytes, drop_left' (length_bytesBE 4 _)] at hbytes₁
  obtain ⟨s₂, hread₂, hbytes₂⟩ := R.read_of_le body.length s₁ (by rw [hbytes₁]; simp)
  rw [hbytes₁, take_left] at hread₂
  rw [hbytes₁, drop_left] at hbytes₂
  have hheader := ofBytesBE_bytesBE (show body.length < 256 ^ 4 by omega)
  refine ⟨s₂, ?_, hbytes₂⟩
  unfold readFrame
  simp only [hread₁, hheader, if_neg (Nat.not_lt.mpr hle), hread₂, hdecode]

/-- A stream that ends inside its first frame gives no message. -/
theorem readFrame_of_truncated {s : σ} {body : List UInt8} {k : ℕ} (hlimit : limit < 256 ^ 4)
    (hbytes : R.bytes s = (frame body).take k) (hk : k < (frame body).length)
    (hle : body.length ≤ limit) : R.readFrame limit decode s = .error .closed := by
  have hlength : (R.bytes s).length = k := by
    rw [hbytes, length_take]
    omega
  unfold readFrame
  by_cases hheader : k < 4
  · -- it ends inside the length
    rw [R.read_of_lt 4 s (by omega)]
  · -- the length is there, the body is not
    obtain ⟨s₁, hread₁, hbytes₁⟩ := R.read_of_le 4 s (by omega)
    have htake : (R.bytes s).take 4 = bytesBE 4 body.length := by
      rw [hbytes, take_take, Nat.min_eq_left (by omega), frame,
        take_left' (length_bytesBE 4 _)]
    have hvalue := ofBytesBE_bytesBE (show body.length < 256 ^ 4 by omega)
    rw [length_frame] at hk
    have hnone : R.read body.length s₁ = none := by
      apply R.read_of_lt
      rw [hbytes₁, length_drop, hlength]
      omega
    rw [hread₁, htake]
    simp only [hvalue, if_neg (Nat.not_lt.mpr hle), hnone]

end ExactReader

/-- The frames of some messages, one after the other. -/
def framesOf {μ : Type} (encode : μ → List UInt8) (msgs : List μ) : List UInt8 :=
  msgs.flatMap fun m => frame (encode m)

/-- The first `k` bytes of the frames of `msgs` hold the frames of the first `j` messages
completely, and no more of them. -/
structure CompleteFrames {μ : Type} (encode : μ → List UInt8) (msgs : List μ) (k j : ℕ) : Prop where
  le : j ≤ msgs.length
  complete : (framesOf encode (msgs.take j)).length ≤ k
  /-- The frame of the next one is not. -/
  maximal : j < msgs.length → k < (framesOf encode (msgs.take (j + 1))).length

namespace ExactReader

variable {σ μ : Type} {R : ExactReader σ} {limit : ℕ} {decode : List UInt8 → Option μ}
  {encode : μ → List UInt8}

/-- **Reading frames.** From the first `k` bytes of the frames of some messages, exactly the
messages whose frames are complete are read; what is left is the beginning of the next
frame, and reading it finds the end of the stream. -/
theorem readLoop_frames (hlimit : limit < 256 ^ 4) (hdecode : ∀ m, decode (encode m) = some m) :
    ∀ (msgs : List μ), (∀ m ∈ msgs, (encode m).length ≤ limit) → ∀ (k fuel : ℕ) (s : σ),
      msgs.length < fuel → R.bytes s = (framesOf encode msgs).take k →
      ∃ j s', R.readLoop limit decode fuel s = (msgs.take j, s', some .closed) ∧
        CompleteFrames encode msgs k j ∧
        R.bytes s' = (framesOf encode (msgs.drop j)).take
          (k - (framesOf encode (msgs.take j)).length) := by
  intro msgs
  induction msgs with
  | nil =>
    intro _ k fuel s hfuel hbytes
    obtain ⟨fuel, rfl⟩ := Nat.exists_eq_succ_of_ne_zero (Nat.ne_of_gt hfuel)
    have hempty : R.bytes s = [] := by rw [hbytes]; exact List.take_nil
    have hclosed : R.readFrame limit decode s = .error .closed := by
      unfold readFrame
      rw [R.read_of_lt 4 s (by rw [hempty]; decide)]
    refine ⟨0, s, ?_, ⟨le_refl 0, Nat.zero_le k, nofun⟩, ?_⟩
    · rw [readLoop, hclosed]
      rfl
    · exact hempty.trans List.take_nil.symm
  | cons m msgs ih =>
    intro hsize k fuel s hfuel hbytes
    obtain ⟨fuel, rfl⟩ := Nat.exists_eq_succ_of_ne_zero (Nat.ne_of_gt (Nat.zero_lt_of_lt hfuel))
    have hcons : framesOf encode (m :: msgs) = frame (encode m) ++ framesOf encode msgs := rfl
    have hm := hsize m List.mem_cons_self
    rw [hcons] at hbytes
    by_cases hk : (frame (encode m)).length ≤ k
    · -- the first frame is complete, and the rest is as before
      rw [List.take_append, List.take_of_length_le hk] at hbytes
      obtain ⟨s₁, hread, hbytes₁⟩ := readFrame_of_frame hlimit hbytes hm (hdecode m)
      obtain ⟨j, s', hloop, hcomplete, hrest⟩ := ih
        (fun m' hm' => hsize m' (List.mem_cons_of_mem m hm')) _ fuel s₁
        (Nat.lt_of_succ_lt_succ hfuel) hbytes₁
      have hlength : ∀ i, (framesOf encode ((m :: msgs).take (i + 1))).length =
          (frame (encode m)).length + (framesOf encode (msgs.take i)).length := by
        intro i
        rw [List.take_succ_cons, framesOf, List.flatMap_cons, List.length_append]
        rfl
      refine ⟨j + 1, s', ?_, ⟨Nat.succ_le_succ hcomplete.le, ?_, fun hj => ?_⟩, ?_⟩
      · rw [readLoop, hread]
        simp only [hloop, List.take_succ_cons]
      · have := hcomplete.complete
        rw [hlength]
        omega
      · have := hcomplete.maximal (Nat.lt_of_succ_lt_succ hj)
        rw [hlength]
        omega
      · rw [hrest, hlength, List.drop_succ_cons, Nat.sub_add_eq]
    · -- the stream ends inside the first frame
      have hk' : k < (frame (encode m)).length := Nat.lt_of_not_le hk
      rw [List.take_append_of_le_length hk'.le] at hbytes
      have hclosed := @readFrame_of_truncated σ μ R limit decode s _ k hlimit hbytes hk' hm
      refine ⟨0, s, ?_, ⟨Nat.zero_le _, Nat.zero_le k, fun _ => ?_⟩, ?_⟩
      · rw [readLoop, hclosed]
        rfl
      · rw [List.take_succ_cons, framesOf, List.flatMap_cons, List.length_append]
        omega
      · rw [List.drop_zero, hcons, List.take_zero, framesOf, List.flatMap_nil, List.length_nil,
          Nat.sub_zero, List.take_append_of_le_length hk'.le, hbytes]

end ExactReader
