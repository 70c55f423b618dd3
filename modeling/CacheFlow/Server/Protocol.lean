import CacheFlow.Lib.Frame

/-!
# Control-plane framing

`protocol.py` and the read loop of `_handle` in `server/server.py`. A message is a frame:
four bytes of length, highest first, and the message in JSON. The client reads a blocking
socket, whose `recv` returns what has arrived, up to the number of bytes asked for; the
server reads an `asyncio` stream, which appends what arrives to a buffer.

The bytes of a stream arrive in segments, in whatever sizes the network makes of them.

## Main definitions

* `recvExact`, `StreamReader.readexactly` — the two ways to read a number of bytes.

## Main results

* `frames_read_back` — both loops read back exactly the complete messages of a stream.
-/

namespace CacheFlow

open List

/-- `MAX_FRAME`. -/
def maxFrame : ℕ := 64 * 2 ^ 20

/-- The encoding of messages as JSON. -/
structure JsonCodec (μ : Type) where
  /-- `json.dumps(msg).encode()`. -/
  dumps : μ → List UInt8
  /-- `json.loads`, `none` if it raises. -/
  loads : List UInt8 → Option μ
  loads_dumps : ∀ m, loads (dumps m) = some m

/-- `encode`. -/
def JsonCodec.encode {μ : Type} (J : JsonCodec μ) (m : μ) : List UInt8 := frame (J.dumps m)

/-! ### The client's socket -/

/-- `sock.recv(k)`: what has arrived, up to `k` bytes; nothing once the peer has closed. -/
def recv (k : ℕ) : List (List UInt8) → List UInt8 × List (List UInt8)
  | [] => ([], [])
  | seg :: segs => if seg.length ≤ k then (seg, segs) else (seg.take k, seg.drop k :: segs)

/-- The loop of `_recv_exact`, with what it has in `buf`, for at most `fuel` rounds. -/
def recvLoop (n : ℕ) : ℕ → List UInt8 → List (List UInt8) →
    Option (List UInt8 × List (List UInt8))
  | 0, buf, segs => if n ≤ buf.length then some (buf, segs) else none
  | fuel + 1, buf, segs =>
    if n ≤ buf.length then some (buf, segs)
    else
      let r := recv (n - buf.length) segs
      if r.1 = [] then none else recvLoop n fuel (buf ++ r.1) r.2

/-- `_recv_exact`: `none` if the connection is closed before. Every round but the last brings
at least one byte, so `n` rounds are enough. -/
def recvExact (n : ℕ) (segs : List (List UInt8)) : Option (List UInt8 × List (List UInt8)) :=
  recvLoop n n [] segs

/-- What `recv` returns and what it leaves are what there was. -/
theorem recv_append_flatten (k : ℕ) (segs : List (List UInt8)) :
    (recv k segs).1 ++ (recv k segs).2.flatten = segs.flatten := by
  cases segs with
  | nil => rfl
  | cons seg segs =>
    simp only [recv]
    split_ifs
    · rfl
    · rw [flatten_cons, flatten_cons, ← append_assoc, take_append_drop]

theorem length_recv_le (k : ℕ) (segs : List (List UInt8)) : (recv k segs).1.length ≤ k := by
  cases segs with
  | nil => exact Nat.zero_le k
  | cons seg segs =>
    simp only [recv]
    split_ifs with hle
    · exact hle
    · exact length_take_le k seg

/-- `recv` returns something unless the connection is closed, and leaves no empty segment. -/
theorem recv_nonempty {k : ℕ} (hk : 0 < k) {segs : List (List UInt8)}
    (hne : ∀ seg ∈ segs, seg ≠ []) :
    (segs ≠ [] → (recv k segs).1 ≠ []) ∧ ∀ seg ∈ (recv k segs).2, seg ≠ [] := by
  cases segs with
  | nil => exact ⟨fun h => absurd rfl h, hne⟩
  | cons seg segs =>
    have hseg := hne seg mem_cons_self
    have hsegs : ∀ s ∈ segs, s ≠ [] := fun s hs => hne s (mem_cons_of_mem seg hs)
    simp only [recv]
    split_ifs with hle
    · exact ⟨fun _ => hseg, hsegs⟩
    · refine ⟨fun _ htake => ?_, fun s hs => ?_⟩
      · rcases take_eq_nil_iff.mp htake with hzero | hnil
        · omega
        · exact hseg hnil
      · rcases mem_cons.mp hs with rfl | hs
        · rw [Ne, drop_eq_nil_iff]
          omega
        · exact hsegs s hs

/-- The loop returns exactly the bytes asked for, or finds the connection closed. -/
theorem recvLoop_spec (n : ℕ) (fuel : ℕ) (buf : List UInt8) (segs : List (List UInt8))
    (hfuel : n ≤ fuel + buf.length) (hbuf : buf.length ≤ n) (hne : (∀ seg ∈ segs, seg ≠ [])) :
    (n ≤ (buf ++ segs.flatten).length → ∃ rest, recvLoop n fuel buf segs =
        some ((buf ++ segs.flatten).take n, rest) ∧
      rest.flatten = (buf ++ segs.flatten).drop n ∧ ∀ seg ∈ rest, seg ≠ []) ∧
    ((buf ++ segs.flatten).length < n → recvLoop n fuel buf segs = none) := by
  induction fuel generalizing buf segs with
  | zero =>
    have hlen : buf.length = n := by omega
    refine ⟨fun _ => ⟨segs, ?_, ?_, hne⟩, fun hlt => ?_⟩
    · rw [recvLoop, if_pos hlen.ge, ← hlen, take_left]
    · rw [← hlen, drop_left]
    · rw [length_append] at hlt
      omega
  | succ fuel ih =>
    by_cases hdone : n ≤ buf.length
    · have hlen : buf.length = n := by omega
      refine ⟨fun _ => ⟨segs, ?_, ?_, hne⟩, fun hlt => ?_⟩
      · rw [recvLoop, if_pos hdone, ← hlen, take_left]
      · rw [← hlen, drop_left]
      · rw [length_append] at hlt
        omega
    · have hpos : 0 < n - buf.length := by omega
      obtain ⟨hsome, hrest⟩ := recv_nonempty hpos hne
      by_cases hsegs : segs = []
      · -- the peer has closed
        subst hsegs
        have hnone : recvLoop n (fuel + 1) buf [] = none := by
          rw [recvLoop, if_neg hdone]
          rfl
        rw [flatten_nil, append_nil]
        exact ⟨fun hle => absurd hle hdone, fun _ => hnone⟩
      · -- one more round
        have hchunk := hsome hsegs
        have hchunkpos := length_pos_iff.mpr hchunk
        have hle := length_recv_le (n - buf.length) segs
        have hnext := ih (buf ++ (recv (n - buf.length) segs).1) (recv (n - buf.length) segs).2
          (by rw [length_append]; omega) (by rw [length_append]; omega) hrest
        rw [append_assoc, recv_append_flatten] at hnext
        rw [recvLoop, if_neg hdone]
        simp only [if_neg hchunk]
        exact hnext

/-- A socket, by the segments that are still to arrive before the peer closes; `recv` never
returns an empty one before. -/
structure Socket where
  segs : List (List UInt8)
  nonempty : ∀ seg ∈ segs, seg ≠ []

theorem nonempty_of_recvExact {n : ℕ} {s : Socket} {out : List UInt8} {rest : List (List UInt8)}
    (h : recvExact n s.segs = some (out, rest)) : ∀ seg ∈ rest, seg ≠ [] := by
  obtain ⟨hsome, hnone⟩ := recvLoop_spec n n [] s.segs (by simp) (Nat.zero_le n) s.nonempty
  by_cases hle : n ≤ ([] ++ s.segs.flatten).length
  · obtain ⟨rest', hrest', -, hne⟩ := hsome hle
    obtain ⟨-, rfl⟩ := Prod.mk.inj (Option.some.inj (h.symm.trans hrest'))
    exact hne
  · rw [recvExact, hnone (Nat.lt_of_not_le hle)] at h
    cases h

/-- The client's socket as a reader. -/
def socketReader : ExactReader Socket where
  bytes s := s.segs.flatten
  read n s :=
    match h : recvExact n s.segs with
    | none => none
    | some (out, rest) => some (out, ⟨rest, nonempty_of_recvExact h⟩)
  read_of_le := by
    intro n s hle
    obtain ⟨rest, hread, hrest, hne⟩ :=
      (recvLoop_spec n n [] s.segs (by simp) (Nat.zero_le n) s.nonempty).1 (by simpa using hle)
    rw [nil_append] at hread hrest
    refine ⟨⟨rest, hne⟩, ?_, hrest⟩
    split
    · rename_i hnone
      rw [recvExact, hread] at hnone
      cases hnone
    · rename_i out rest' hsome
      obtain ⟨rfl, rfl⟩ := Prod.mk.inj (Option.some.inj (hsome.symm.trans hread))
      rfl
  read_of_lt := by
    intro n s hlt
    have hnone := (recvLoop_spec n n [] s.segs (by simp) (Nat.zero_le n) s.nonempty).2
      (by simpa using hlt)
    split
    · rfl
    · rename_i hsome
      rw [recvExact, hnone] at hsome
      cases hsome

/-! ### The server's stream -/

/-- An `asyncio.StreamReader`. -/
structure StreamReader where
  /-- What has arrived and has not been read. -/
  buffer : List UInt8
  /-- The segments that are still to arrive before the end. -/
  pending : List (List UInt8)

namespace StreamReader

/-- Wait until `n` bytes are in the buffer, or the end has come. -/
def waitForData (n : ℕ) : List UInt8 → List (List UInt8) → StreamReader
  | buffer, [] => ⟨buffer, []⟩
  | buffer, seg :: pending =>
    if n ≤ buffer.length then ⟨buffer, seg :: pending⟩ else waitForData n (buffer ++ seg) pending

/-- `reader.readexactly(n)`: `none` stands for an `IncompleteReadError`. -/
def readexactly (n : ℕ) (s : StreamReader) : Option (List UInt8 × StreamReader) :=
  let s := waitForData n s.buffer s.pending
  if s.buffer.length < n then none
  else some (s.buffer.take n, ⟨s.buffer.drop n, s.pending⟩)

/-- The bytes that are still to be read. -/
def bytes (s : StreamReader) : List UInt8 := s.buffer ++ s.pending.flatten

/-- Waiting changes nothing but where the bytes are, and ends with enough of them in the
buffer or with all. -/
theorem waitForData_spec (n : ℕ) (pending : List (List UInt8)) (buffer : List UInt8) :
    (waitForData n buffer pending).bytes = buffer ++ pending.flatten ∧
      (n ≤ (waitForData n buffer pending).buffer.length ∨
        (waitForData n buffer pending).pending = []) := by
  induction pending generalizing buffer with
  | nil => exact ⟨rfl, Or.inr rfl⟩
  | cons seg pending ih =>
    rw [waitForData]
    split_ifs with hle
    · exact ⟨rfl, Or.inl hle⟩
    · obtain ⟨hbytes, hend⟩ := ih (buffer ++ seg)
      refine ⟨?_, hend⟩
      rw [hbytes, flatten_cons, append_assoc]

end StreamReader

/-- The server's stream as a reader. -/
def streamReader : ExactReader StreamReader where
  bytes := StreamReader.bytes
  read := StreamReader.readexactly
  read_of_le := by
    intro n s hle
    obtain ⟨hbytes, hend⟩ := StreamReader.waitForData_spec n s.pending s.buffer
    set w := StreamReader.waitForData n s.buffer s.pending with hw
    have hsame : w.bytes = s.bytes := hbytes
    have henough : n ≤ w.buffer.length := by
      rcases hend with henough | hall
      · exact henough
      · rw [← hsame, StreamReader.bytes, hall, flatten_nil, append_nil] at hle
        exact hle
    refine ⟨⟨w.buffer.drop n, w.pending⟩, ?_, ?_⟩
    · rw [StreamReader.readexactly, ← hw, ← hsame, StreamReader.bytes,
        take_append_of_le_length henough]
      exact if_neg (Nat.not_lt.mpr henough)
    · rw [← hsame, StreamReader.bytes, StreamReader.bytes, drop_append_of_le_length henough]
  read_of_lt := by
    intro n s hlt
    obtain ⟨hbytes, -⟩ := StreamReader.waitForData_spec n s.pending s.buffer
    have hlength := congrArg List.length hbytes
    rw [StreamReader.bytes, length_append] at hlength
    rw [StreamReader.bytes] at hlt
    exact if_pos (by omega)

/-! ### Messages -/

section Messages

variable {μ : Type} (J : JsonCodec μ)

/-- The client's loop: `recv_msg` again and again, until it raises. -/
def clientLoop (fuel : ℕ) (sock : Socket) : List μ × Socket × Option FrameErr :=
  socketReader.readLoop maxFrame J.loads fuel sock

/-- The reads of `_handle`, again and again, until one raises. -/
def handleLoop (fuel : ℕ) (reader : StreamReader) : List μ × StreamReader × Option FrameErr :=
  streamReader.readLoop maxFrame J.loads fuel reader

/-- What a loop has read is right for a stream that is the first `k` bytes of the frames of
`msgs`: exactly the messages whose frames are complete, and then the end of the connection;
of a whole stream nothing is left. -/
def ReadBack (msgs : List μ) (k : ℕ) (got : List μ) (left : List UInt8) (err : Option FrameErr) :
    Prop :=
  ∃ j, CompleteFrames J.dumps msgs k j ∧ got = msgs.take j ∧ err = some .closed ∧
    left = (msgs.drop j |>.flatMap J.encode).take (k - (msgs.take j |>.flatMap J.encode).length) ∧
    ((msgs.flatMap J.encode).length ≤ k → got = msgs ∧ left = [])

variable {J}

theorem CompleteFrames.eq_length {msgs : List μ} {k j : ℕ} (h : CompleteFrames J.dumps msgs k j)
    (hk : (msgs.flatMap J.encode).length ≤ k) : j = msgs.length := by
  by_contra hne
  have hlt : j < msgs.length := Nat.lt_of_le_of_ne h.le hne
  have hmore := h.maximal hlt
  have hsplit : (framesOf J.dumps (msgs.take (j + 1))).length ≤ (msgs.flatMap J.encode).length := by
    conv_rhs => rw [← take_append_drop (j + 1) msgs, flatMap_append, length_append]
    exact Nat.le_add_right _ _
  omega

/-- A reader whose unread bytes are the first `k` bytes of some frames reads them back. -/
theorem readBack_of_bytes {σ : Type} (R : ExactReader σ) {msgs : List μ}
    (hsize : ∀ m ∈ msgs, (J.dumps m).length ≤ maxFrame) {k fuel : ℕ} (hfuel : msgs.length < fuel)
    {s : σ} (hbytes : R.bytes s = (msgs.flatMap J.encode).take k) :
    ReadBack J msgs k (R.readLoop maxFrame J.loads fuel s).1
      (R.bytes (R.readLoop maxFrame J.loads fuel s).2.1)
      (R.readLoop maxFrame J.loads fuel s).2.2 := by
  obtain ⟨j, s', hloop, hcomplete, hleft⟩ :=
    R.readLoop_frames (by decide) J.loads_dumps msgs hsize k fuel s hfuel hbytes
  rw [hloop]
  refine ⟨j, hcomplete, rfl, rfl, hleft, fun hall => ?_⟩
  obtain rfl := CompleteFrames.eq_length hcomplete hall
  refine ⟨take_length, ?_⟩
  rw [hleft, drop_length]
  exact take_nil

end Messages

/-- **Framing.** However a stream of messages, each at most `MAX_FRAME` bytes long, is cut
into segments, and wherever it ends, the client's loop and the server's loop read exactly the
messages that are complete, in order, and then find the connection closed; of a stream that
is not cut short nothing is left over. -/
theorem frames_read_back {μ : Type} (J : JsonCodec μ) (msgs : List μ)
    (hsize : ∀ m ∈ msgs, (J.dumps m).length ≤ maxFrame) (k fuel : ℕ) (hfuel : msgs.length < fuel)
    (sock : Socket) (hsock : sock.segs.flatten = (msgs.flatMap J.encode).take k)
    (reader : StreamReader) (hreader : reader.bytes = (msgs.flatMap J.encode).take k) :
    ReadBack J msgs k (clientLoop J fuel sock).1 (clientLoop J fuel sock).2.1.segs.flatten
        (clientLoop J fuel sock).2.2 ∧
      ReadBack J msgs k (handleLoop J fuel reader).1 (handleLoop J fuel reader).2.1.bytes
        (handleLoop J fuel reader).2.2 :=
  ⟨readBack_of_bytes socketReader hsize hfuel hsock,
    readBack_of_bytes streamReader hsize hfuel hreader⟩

/-- Messages that are their own encoding. -/
def sampleCodec : JsonCodec (List UInt8) := ⟨id, some, fun _ => rfl⟩

/-- The frames of `[7]` and `[8, 9]` without the last byte, in three segments. -/
def sampleSocket : Socket := ⟨[[0, 0], [0, 1, 7, 0, 0, 0], [2, 8]], by decide⟩

theorem frames_read_back_of_truncated :
    (clientLoop sampleCodec 3 sampleSocket).1 = [[7]] ∧
    ReadBack sampleCodec [[7], [8, 9]] 10 (clientLoop sampleCodec 3 sampleSocket).1
        (clientLoop sampleCodec 3 sampleSocket).2.1.segs.flatten
        (clientLoop sampleCodec 3 sampleSocket).2.2 ∧
      ReadBack sampleCodec [[7], [8, 9]] 10
        (handleLoop sampleCodec 3 ⟨[], sampleSocket.segs⟩).1
        (handleLoop sampleCodec 3 ⟨[], sampleSocket.segs⟩).2.1.bytes
        (handleLoop sampleCodec 3 ⟨[], sampleSocket.segs⟩).2.2 :=
  ⟨rfl, frames_read_back sampleCodec [[7], [8, 9]] (by decide) 10 3 (by decide) sampleSocket rfl
    ⟨[], sampleSocket.segs⟩ rfl⟩

end CacheFlow
