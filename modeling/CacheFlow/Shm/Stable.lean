import CacheFlow.Shm.RingInv

/-!
# When a returned object keeps its contents

`dequeue` unpickles an object out of the chunk it is in. The main buffer is copied, but the buffers
that are out of band are handed to the object as views of the chunk, and the reader raises its flag
right after: the next object that is written to the chunk shows through the object that was returned
before. Objects without such buffers own all they refer to, and so do the objects that come over
the socket, whose buffers are the frames of the message.

## Main results

* `Queue.always_stable` — **if no object has such buffers in a chunk, returned objects keep their
  contents.**
-/

namespace CacheFlow.Shm

open List Function ReaderPhase

/-- The object does not leave views of a chunk: it has no buffers out of band, or it goes over the
socket. -/
def Pickled.Apart (maxChunkBytes : ℕ) (p : Pickled) : Prop :=
  p.oob = [] ∨ p.overflows maxChunkBytes = true

/-- The object that the writer is about to send. -/
def WriterPhase.object : WriterPhase → Option Pickled
  | .idle => none
  | .counting p _ _ | .writing p | .resetting p _ | .sending p => some p

/-- The object that a reader has in its hands. -/
def ReaderPhase.object : ReaderPhase → Option Obj
  | .read (some x) | .returning x => some x
  | _ => none

/-- The object owns all it refers to. -/
def Obj.Owned (x : Obj) : Prop := ∀ part ∈ x.oob, ∃ b, part = .own b

/-- What an object owns does not depend on the chunks. -/
theorem Obj.Owned.contents_eq {x : Obj} (hx : x.Owned) (data data' : ℕ → Mem UInt8) :
    x.contents data = x.contents data' := by
  have hparts : x.oob.map (Part.contents data) = x.oob.map (Part.contents data') := by
    refine map_congr_left fun part hpart => ?_
    obtain ⟨b, rfl⟩ := hx part hpart
    rfl
  rw [Obj.contents, Obj.contents, hparts]

theorem owned_loadMessage (p : Pickled) : (loadMessage p).Owned := by
  intro part hpart
  obtain ⟨b, -, rfl⟩ := mem_map.mp hpart
  exact ⟨b, rfl⟩

/-- What is read off a chunk owns all it refers to, if the object in the chunk is apart. -/
theorem Pickled.Apart.owned {maxChunkBytes : ℕ} {data : ℕ → Mem UInt8} {chunk : ℕ} {p : Pickled}
    (hp : p.Apart maxChunkBytes) (hobj : HoldsObject maxChunkBytes (data chunk) p)
    (hfirst : data chunk 0 ≠ 1) {x : Obj} (hx : loadInline data chunk = some x) : x.Owned := by
  have hoob : p.oob = [] := by
    rcases hp with hoob | hover
    · exact hoob
    · exact absurd (hobj.first_eq_one_iff.mpr hover) hfirst
  -- the contents are the main buffer alone
  have hcontents := hobj.contents hfirst hx
  rw [Obj.contents, Pickled.buffers, hoob, cons_eq_cons, map_eq_nil_iff] at hcontents
  intro part hpart
  rw [hcontents.2] at hpart
  simp at hpart

namespace Queue

variable {c : RingConfig}

/-- The objects that were returned contain what they contained when they were returned. -/
def Stable (c : RingConfig) (q : Queue) : Prop :=
  ∀ r < c.nReader, ∀ x ∈ q.returned r, x.obj.contents q.data = x.contents

/-- The step does not enqueue an object that would leave views of a chunk. -/
def EnqueuesApart (c : RingConfig) : Event → Prop
  | .enqueue p => p.Apart c.maxChunkBytes
  | _ => True

/-- Nothing that a reader holds depends on the chunks. -/
structure Detached (c : RingConfig) (q : Queue) : Prop where
  sent : ∀ p ∈ q.sent, p.Apart c.maxChunkBytes
  writer : ∀ p, q.writer.object = some p → p.Apart c.maxChunkBytes
  reader : ∀ r x, (q.reader r).object = some x → x.Owned
  /-- The objects that were returned have the same contents, whatever is in the chunks. -/
  returned : ∀ r, ∀ x ∈ q.returned r, ∀ data, x.obj.contents data = x.contents

theorem Detached.init (data : ℕ → Mem UInt8) : (init data).Detached c where
  sent := fun p hp => by simp [Queue.init] at hp
  writer := fun p hp => by simp [Queue.init, WriterPhase.object] at hp
  reader := fun r x hx => by simp [Queue.init, object] at hx
  returned := fun r x hx => by simp [Queue.init] at hx

variable {q q' : Queue}

theorem Detached.setWriter (h : q.Detached c) {w : WriterPhase}
    (hw : ∀ p, w.object = some p → p.Apart c.maxChunkBytes) : (q.setWriter w).Detached c :=
  { h with writer := hw }

theorem Detached.setReader (h : q.Detached c) (r : ℕ) {x : ReaderPhase}
    (hx : ∀ y, x.object = some y → y.Owned) : (q.setReader r x).Detached c := { h with
  reader := by
    intro r' y hy
    change (update q.reader r x r').object = some y at hy
    rcases eq_or_ne r' r with rfl | hne
    · rw [update_self] at hy
      exact hx y hy
    · rw [update_of_ne hne] at hy
      exact h.reader r' y hy }

/-- A reader returns an object that owns all it refers to. -/
theorem Detached.give (h : q.Detached c) (r : ℕ) {x : Obj} (hx : x.Owned) :
    (q.give r x).Detached c := { h with
  reader := (h.setReader r (x := .idle) fun y hy => by simp [object] at hy).reader
  returned := by
    intro r' y hy data
    change y ∈ update q.returned r _ r' at hy
    rcases eq_or_ne r' r with rfl | hne
    · rw [update_self] at hy
      rcases mem_append.mp hy with hy | hy
      · exact h.returned r' y hy data
      · obtain rfl := mem_singleton.mp hy
        exact hx.contents_eq data q.data
    · rw [update_of_ne hne] at hy
      exact h.returned r' y hy data }

theorem Detached.lookAt (h : q.Detached c) (hinv : q.Inv c) {r : ℕ} (hr : r < c.nReader)
    (hlt : q.marked r < q.sent.length) :
    ∀ y, (q.lookAt (q.readerIdx r)).object = some y → y.Owned := by
  intro y hy
  have hp := List.getElem?_eq_getElem hlt
  unfold Queue.lookAt at hy
  split_ifs at hy with hfirst
  · simp [object] at hy
  · cases hload : loadInline q.data (q.readerIdx r) with
    | none => simp [hload, object] at hy
    | some x =>
      obtain rfl : x = y := by simpa [hload, object] using hy
      exact (h.sent _ (getElem_mem hlt)).owned (hinv.holdsObject hr hlt hp) hfirst hload

/-- **A step that enqueues an object that is apart, or none, keeps the readers detached.** -/
theorem Detached.step {e : Event} (hinv : q.Inv c) (h : q.Detached c) (he : EnqueuesApart c e)
    (hstep : step c q e = some q') : q'.Detached c := by
  cases move_of_step hstep with
  | enqueue hw =>
    refine h.setWriter fun p' hp' => ?_
    split_ifs at hp'
    · obtain rfl := Option.some_inj.mp hp'
      exact he
    · simp [WriterPhase.object] at hp'
  | countFlag hw hi => exact h.setWriter fun p' hp' => h.writer p' (by rw [hw]; exact hp')
  | wait hw =>
    refine h.setWriter fun p' hp' => h.writer p' ?_
    unfold afterWait at hp'
    split_ifs at hp'
    · simp [WriterPhase.object] at hp'
    · rw [hw]
      exact hp'
  | unmark hw hi hfree =>
    exact { h with writer := fun p' hp' => h.writer p' (by rw [hw]; exact hp') }
  | writePart hw => exact { h with }
  | write hw hobj => exact { h with writer := fun p' hp' => h.writer p' (by rw [hw]; exact hp') }
  | writeRaise hw => exact { h with writer := fun p' hp' => by simp [Queue.setWriter,
      WriterPhase.object] at hp' }
  | resetFlag hw hi =>
    exact { h with writer := fun p' hp' => h.writer p' (by rw [hw]; exact hp') }
  | @publish p i hw hi =>
    have hp : p.Apart c.maxChunkBytes := h.writer p (by rw [hw]; rfl)
    refine ⟨fun p' hp' => ?_, fun p' hp' => ?_, h.reader, h.returned⟩
    · rcases mem_append.mp hp' with hp' | hp'
      · exact h.sent p' hp'
      · rw [mem_singleton.mp hp']
        exact hp
    · change (afterPublish c p).object = some p' at hp'
      unfold afterPublish at hp'
      split_ifs at hp'
      · obtain rfl := Option.some_inj.mp hp'
        exact hp
      · simp [WriterPhase.object] at hp'
  | send hw => exact { h with writer := fun p' hp' => by simp [Queue.setWriter,
      WriterPhase.object] at hp' }
  | loadFlag hr hn => exact h.setReader _ fun y hy => by simp [object] at hy
  | testFlags hr =>
    refine h.setReader _ fun y hy => ?_
    split_ifs at hy <;> simp [object] at hy
  -- what is read out of a chunk is an object that was sent
  | readChunk hr =>
    obtain ⟨hn, hlt⟩ := hinv.readerOk hr nofun
    exact h.setReader _ (h.lookAt hinv hn hlt)
  | @markRead r x hr =>
    have hraised : (q.raiseFlag c.maxChunks r).Detached c := { h with }
    refine hraised.setReader r fun y hy => h.reader r y ?_
    rw [hr]
    cases x with
    | none => simp [afterChunk, object] at hy
    | some x => exact hy
  | ret hr => exact h.give _ (h.reader _ _ (by rw [hr]; rfl))
  | @receive r p ps hr hs =>
    have htaken : (q.takeMessage r).Detached c := { h with }
    exact htaken.give r (owned_loadMessage p)
  | recvTimeout hr hs => exact h.setReader _ fun y hy => by simp [object] at hy

/-- **If all objects that are enqueued are apart, the objects that are returned keep their
contents**, whatever writer and readers do later. -/
theorem always_stable (c : RingConfig) (data : ℕ → Mem UInt8) {es : List Event}
    (h : ∀ e ∈ es, EnqueuesApart c e) : Steps.Always (step c) (Stable c) (init data) es := by
  have heach : Steps.Each (step c) (fun _ e => EnqueuesApart c e) (init data) es := by
    rintro es₁ e es₂ t rfl -
    exact h e (by simp)
  have hinv : Steps.Always (step c) (fun q => q.Inv c ∧ q.Detached c) (init data) es := by
    refine heach.always ⟨Inv.init data, Detached.init data⟩ ?_
    rintro q e q' ⟨hinv, hdetached⟩ he hstep
    exact ⟨hinv.step hstep, hdetached.step hinv he hstep⟩
  intro es₁ es₂ t hes hrun r _ x hx
  exact (hinv es₁ es₂ t hes hrun).2.returned r x hx t.data

/-! ### An object that changes -/

/-- A ring of one chunk for one reader, large enough for a buffer out of band. -/
def wideChunk : RingConfig := ⟨1, 1, 1024 * 1024 + 11, Nat.one_pos⟩

/-- An object with nothing but a buffer out of band, full of one byte. -/
def block (byte : UInt8) : Pickled where
  main := ⟨0, fun _ => 0, fun _ _ => rfl⟩
  oob := [⟨1024 * 1024, fun i => if i < 1024 * 1024 then byte else 0,
    fun _ hi => if_neg (Nat.not_lt.mpr hi)⟩]
  large := fun b hb => by
    rw [mem_singleton.mp hb]

/-- Sending an object to one reader, up to the contents of the chunk. -/
def fillSteps (p : Pickled) : List Event := [.enqueue p, .countFlag, .testWritten false, .write]

/-- What follows in `enqueue`, and the reader's `dequeue` up to the flag. -/
def takeSteps : List Event :=
  [.resetFlag, .publish, .loadFlag 0, .testFlags 0, .readChunk 0, .markRead 0]

/-- An object is sent and returned, and the next one is written. -/
def reuseRun (p p' : Pickled) : List Event := fillSteps p ++ takeSteps ++ [.ret 0] ++ fillSteps p'

/-- An object of two bytes. -/
def small : Pickled where
  main := ⟨2, fun i => if i < 2 then 7 else 0, fun _ hi => if_neg (Nat.not_lt.mpr hi)⟩
  oob := []
  large := Pickled.large_nil

/-- An object with two buffers out of band, too large for the chunk. -/
def twoBlocks : Pickled where
  main := small.main
  oob := (block 0).oob ++ (block 1).oob
  large := fun b hb => (mem_append.mp hb).elim ((block 0).large b) ((block 1).large b)

/-- A small object is returned and a large one is received, and each time the chunk is written
again. -/
def mixedRun : List Event :=
  reuseRun small twoBlocks ++ takeSteps ++ [.send, .receive 0] ++ fillSteps small

theorem always_stable_mixedRun :
    ((Steps.run (step wideChunk) (init fun _ _ => 0) mixedRun).map fun t =>
        (t.returned 0).map fun x => x.contents.map fun b => (b.len, b.byte 1))
      = some [[(2, 7)], [(2, 7), (1024 * 1024, 0), (1024 * 1024, 1)]] ∧
    Steps.Always (step wideChunk) (Stable wideChunk) (init fun _ _ => 0) mixedRun := by
  refine ⟨by decide +kernel, always_stable wideChunk (fun _ _ => 0) ?_⟩
  have hlarge : twoBlocks.overflows wideChunk.maxChunkBytes = true := by decide +kernel
  simp [mixedRun, reuseRun, takeSteps, fillSteps, EnqueuesApart, Pickled.Apart, hlarge, small]

/-- **An object that changes after it was returned**: its buffer out of band shows the next object
in the chunk. -/
theorem not_stable_reuseRun : ∃ t,
    Steps.run (step wideChunk) (init fun _ _ => 0) (reuseRun (block 0) (block 1)) = some t ∧
      ¬ t.Stable wideChunk ∧
      ((t.returned 0).map fun x => x.contents.map fun b => b.byte 0) = [[0, 0]] ∧
      ((t.returned 0).map fun x => (x.obj.contents t.data).map fun b => b.byte 0) = [[0, 1]] := by
  have hbytes : (Steps.run (step wideChunk) (init fun _ _ => 0) (reuseRun (block 0) (block 1))).map
      (fun t => ((t.returned 0).map fun x => x.contents.map fun b => b.byte 0,
        (t.returned 0).map fun x => (x.obj.contents t.data).map fun b => b.byte 0))
      = some ([[0, 0]], [[0, 1]]) := by
    decide +kernel
  obtain ⟨t, hrun, hbytes⟩ := Option.map_eq_some_iff.mp hbytes
  obtain ⟨hthen, hnow⟩ := Prod.mk.injEq _ _ _ _ ▸ hbytes
  refine ⟨t, hrun, fun hstable => ?_, hthen, hnow⟩
  have hsame : ((t.returned 0).map fun x => (x.obj.contents t.data).map fun b => b.byte 0)
      = (t.returned 0).map fun x => x.contents.map fun b => b.byte 0 :=
    map_congr_left fun x hx => by rw [hstable 0 Nat.one_pos x hx]
  rw [hthen, hnow] at hsame
  exact absurd hsame (by decide)

end Queue

end CacheFlow.Shm
