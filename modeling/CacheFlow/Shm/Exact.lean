import CacheFlow.Shm.RingInv

/-!
# When the broadcast is exact

A reader is to get the objects in the order in which they were published, each once and with its
contents, whether they come out of the ring or over the socket. The ring sees to that for the
objects in the chunks. An object on the socket is taken in two parts: the reader first marks the
chunk that announces it, then waits for the message. If the wait is too long, the call raises, but
the chunk stays marked: the next call reads the next chunk, and the object that was announced is
left on the socket, to be taken for the next large object.

There is one more way to get the wrong contents. The parts of an object that are out of band are
views of the chunk, and the chunk is handed back to the writer before the call returns.

## Main definitions

* `Queue.Exact` — readers have got the objects as they were sent.
* `Queue.Undisturbed` — a step that gives neither cause of error.

## Main results

* `Queue.always_exact` — **runs of such steps are exact.**
-/

namespace CacheFlow.Shm

open List Function Option Steps

/-- The reader has got the objects of all chunks it has marked. -/
def ReaderPhase.quiet : ReaderPhase → Bool
  | .returning _ | .receiving => false
  | _ => true

/-- The buffer is a view of the chunk. -/
def Part.isViewOf (chunk : ℕ) : Part → Bool
  | .view chunk' _ _ => chunk' == chunk
  | .own _ => false

/-- The reader has marked its chunk and is about to return an object with a view of a chunk. -/
def ReaderPhase.looksAt (chunk : ℕ) : ReaderPhase → Bool
  | .returning x => x.oob.any (Part.isViewOf chunk)
  | _ => false

/-- What is written to a chunk does not change an object without a view of it. -/
theorem Obj.contents_update {x : Obj} {chunk : ℕ} (hx : x.oob.any (Part.isViewOf chunk) = false)
    (data : ℕ → Mem UInt8) (m : Mem UInt8) :
    x.contents (update data chunk m) = x.contents data := by
  rw [Obj.contents, Obj.contents, cons_eq_cons, map_inj_left]
  refine ⟨rfl, fun part hpart => ?_⟩
  have hview := any_eq_false.mp hx part hpart
  cases part with
  | own b => rfl
  | view chunk' offset len =>
    have hne : chunk' ≠ chunk := by simpa [Part.isViewOf] using hview
    simp only [Part.contents, update_of_ne hne]

namespace Queue

variable {c : RingConfig}

/-! ### What the readers get -/

/-- How many objects a reader has taken. A reader that waits at the socket has marked one chunk
more. -/
def taken (q : Queue) (r : ℕ) : ℕ :=
  match q.reader r with
  | .receiving => q.marked r - 1
  | _ => q.marked r

/-- The object that a call is about to return. -/
def pending (q : Queue) (r : ℕ) : List (List Buffer) :=
  match q.reader r with
  | .returning x => [x.contents q.data]
  | _ => []

/-- What the calls of a reader have returned, the call that is about to return included. -/
def delivered (q : Queue) (r : ℕ) : List (List Buffer) :=
  (q.returned r).map Returned.contents ++ q.pending r

/-- The writer is at work on its chunk. -/
def overwriting (q : Queue) : Bool :=
  match q.writer with
  | .writing _ | .resetting _ _ => true
  | _ => false

/-- The broadcast is exact: every reader has got the objects it has taken, in order and with their
contents, and the writer is not at work on a chunk that some reader has not read. -/
def Exact (c : RingConfig) (q : Queue) : Prop :=
  (∀ r < c.nReader, q.delivered r = (q.sent.take (q.taken r)).map Pickled.buffers) ∧
  (q.overwriting = true → q.Passed c)

/-- The step is not the end of a wait at the socket, and the writer does not write to its chunk while
some reader is about to return an object with a view of that chunk. -/
def Undisturbed (c : RingConfig) (q : Queue) : Event → Prop
  | .recvTimeout _ => False
  | .writePart _ | .write => ∀ r < c.nReader, (q.reader r).looksAt q.writerIdx = false
  | _ => True

instance (q : Queue) (e : Event) : Decidable (q.Undisturbed c e) := by
  cases e <;> unfold Undisturbed <;> infer_instance

/-! ### Ring and socket in step -/

/-- The objects that have reached the sockets, if they had to. -/
def posted (q : Queue) : List Pickled :=
  match q.writer with
  | .sending _ => q.sent.dropLast
  | _ => q.sent

/-- The ring and the socket are in step for a reader. -/
structure Synced (c : RingConfig) (q : Queue) (r : ℕ) : Prop where
  delivered : q.delivered r = (q.sent.take (q.taken r)).map Pickled.buffers
  /-- What waits at its socket are the large objects among those it has not taken. -/
  socket : q.socket r = (q.posted.drop (q.taken r)).filter fun p => p.overflows c.maxChunkBytes
  le : q.taken r ≤ q.posted.length
  /-- If it waits at the socket, it waits for the object of the chunk it has marked last. -/
  receiving : q.reader r = .receiving → 0 < q.marked r ∧
    ∀ p, q.sent[q.marked r - 1]? = some p → p.overflows c.maxChunkBytes = true

theorem Synced.init (data : ℕ → Mem UInt8) (r : ℕ) : (init data).Synced c r where
  delivered := rfl
  socket := rfl
  le := le_refl 0
  receiving := fun hr => by simp [Queue.init] at hr

variable {q q' : Queue} {r : ℕ}

theorem posted_of_not_sending (hw : ∀ p, q.writer ≠ .sending p) : q.posted = q.sent := by
  unfold posted
  split
  · exact absurd ‹_› (hw _)
  · rfl

theorem posted_congr (hsent : q'.sent = q.sent) (hw : ∀ p, q.writer ≠ .sending p)
    (hw' : ∀ p, q'.writer ≠ .sending p) : q'.posted = q.posted := by
  rw [posted_of_not_sending hw, posted_of_not_sending hw', hsent]

theorem posted_isPrefix (q : Queue) : q.posted <+: q.sent := by
  unfold posted
  split
  · exact dropLast_prefix _
  · exact prefix_rfl

theorem taken_of_quiet (h : (q.reader r).quiet = true) : q.taken r = q.marked r := by
  unfold taken
  cases hr : q.reader r <;> simp_all [ReaderPhase.quiet]

theorem pending_of_quiet (h : (q.reader r).quiet = true) : q.pending r = [] := by
  unfold pending
  cases hr : q.reader r <;> simp_all [ReaderPhase.quiet]

theorem pending_congr (hreader : q'.reader r = q.reader r)
    (hx : ∀ x, q.reader r = .returning x → x.contents q'.data = x.contents q.data) :
    q'.pending r = q.pending r := by
  unfold pending
  rw [hreader]
  split
  · rw [hx _ ‹_›]
  · rfl

/-- The writer leaves what a reader is about to return, if it has no view of the writer's chunk. -/
theorem pending_fillChunk (hr : (q.reader r).looksAt q.writerIdx = false) (m : Mem UInt8) :
    (q.fillChunk m).pending r = q.pending r := by
  refine pending_congr rfl fun x hx => ?_
  rw [hx] at hr
  exact Obj.contents_update hr q.data m

theorem Synced.congr (h : q.Synced c r) (hdelivered : q'.delivered r = q.delivered r)
    (htaken : q'.taken r = q.taken r) (hsent : q'.sent = q.sent) (hposted : q'.posted = q.posted)
    (hsocket : q'.socket r = q.socket r)
    (hreceiving : q'.reader r = .receiving → q.reader r = .receiving ∧ q'.marked r = q.marked r) :
    q'.Synced c r where
  delivered := by rw [hdelivered, hsent, htaken, h.delivered]
  socket := by rw [hsocket, hposted, htaken, h.socket]
  le := by
    rw [htaken, hposted]
    exact h.le
  receiving := by
    intro hr
    obtain ⟨hr, hmarked⟩ := hreceiving hr
    rw [hmarked, hsent]
    exact h.receiving hr

/-- A step that leaves the reader alone. -/
theorem Synced.of_agree (h : q.Synced c r) (hreader : q'.reader r = q.reader r)
    (hmarked : q'.marked r = q.marked r) (hreturned : q'.returned r = q.returned r)
    (hpending : q'.pending r = q.pending r) (hsocket : q'.socket r = q.socket r)
    (hsent : q'.sent = q.sent) (hposted : q'.posted = q.posted) : q'.Synced c r := by
  refine h.congr ?_ ?_ hsent hposted hsocket fun hr => ⟨hreader ▸ hr, hmarked⟩
  · rw [Queue.delivered, Queue.delivered, hreturned, hpending]
  · rw [taken, taken, hreader, hmarked]

/-! #### Steps of the writer -/

/-- A new object is published; if it is large, it has not reached the sockets. -/
theorem Synced.publish (h : q.Synced c r) (hposted : q.posted = q.sent)
    (hmarked : q.marked r ≤ q.sent.length) (p : Pickled) :
    ((q.publish c.maxChunks p).setWriter (afterPublish c p)).Synced c r := by
  have hle : q.taken r ≤ q.sent.length := hposted ▸ h.le
  -- an object too large for the chunk is still to be posted
  have hnew : ((q.publish c.maxChunks p).setWriter (afterPublish c p)).posted
      = q.sent ++ (if p.overflows c.maxChunkBytes then [] else [p]) := by
    show (match afterPublish c p with
      | .sending _ => (q.sent ++ [p]).dropLast
      | _ => q.sent ++ [p]) = _
    unfold afterPublish
    split_ifs
    · rw [append_nil, dropLast_concat]
    · rfl
  refine ⟨?_, ?_, ?_, ?_⟩
  · show q.delivered r = ((q.sent ++ [p]).take (q.taken r)).map _
    rw [take_append_of_le_length hle]
    exact h.delivered
  · show q.socket r = List.filter _ (List.drop (q.taken r) _)
    rw [hnew, drop_append_of_le_length hle, filter_append, h.socket, hposted]
    split_ifs with hover
    · simp
    · simp [hover]
  · show q.taken r ≤ _
    rw [hnew, length_append]
    omega
  · intro hr
    obtain ⟨hpos, hover⟩ := h.receiving hr
    refine ⟨hpos, fun p' hp' => hover p' ?_⟩
    change (q.sent ++ [p])[q.marked r - 1]? = some p' at hp'
    rwa [List.getElem?_append_left (by omega)] at hp'

/-- The object that was published last reaches the sockets. -/
theorem Synced.post (h : q.Synced c r) {p : Pickled} (hw : q.writer = .sending p)
    (hover : p.overflows c.maxChunkBytes = true) (hlast : q.sent.getLast? = some p) :
    ((q.post p).setWriter .idle).Synced c r := by
  have hposted : q.posted = q.sent.dropLast := by rw [posted, hw]
  have hsent : q.sent = q.posted ++ [p] := by
    rw [hposted]
    exact (dropLast_append_getLast? p hlast).symm
  refine ⟨h.delivered, ?_, ?_, h.receiving⟩
  · show q.socket r ++ [p] = List.filter _ (List.drop (q.taken r) q.sent)
    rw [hsent, drop_append_of_le_length h.le, filter_append, h.socket]
    simp [hover]
  · show q.taken r ≤ q.sent.length
    exact h.le.trans (posted_isPrefix q).length_le

/-! #### Steps of a reader -/

section

variable (h : q.Synced c r)
include h

/-- A reader goes on, without marking a chunk. -/
theorem Synced.setReader {r' : ℕ} {x : ReaderPhase}
    (hold : (q.reader r').quiet = true) (hx : x.quiet = true) : (q.setReader r' x).Synced c r := by
  rcases eq_or_ne r r' with rfl | hne
  · have hnew : ((q.setReader r x).reader r).quiet = true := by
      show (update q.reader r x r).quiet = true
      rw [update_self]
      exact hx
    refine h.congr ?_ ?_ rfl rfl rfl fun hr => ?_
    · rw [Queue.delivered, Queue.delivered, pending_of_quiet hnew, pending_of_quiet hold]
      rfl
    · rw [taken_of_quiet hnew, taken_of_quiet hold]
      rfl
    · rw [hr] at hnew
      simp [ReaderPhase.quiet] at hnew
  · have hreader : (q.setReader r' x).reader r = q.reader r := update_of_ne hne _ _
    exact h.of_agree hreader rfl rfl (pending_congr hreader fun _ _ => rfl) rfl rfl rfl

/-- A reader marks the chunk of an object that fits into it. -/
theorem Synced.mark (hinv : q.Inv c) {x : Obj} {p : Pickled}
    (hr : q.reader r = .read (some x)) (hp : q.sent[q.marked r]? = some p)
    (hover : p.overflows c.maxChunkBytes = false) (hx : x.contents q.data = p.buffers) :
    ((q.raiseFlag c.maxChunks r).setReader r (.returning x)).Synced c r := by
  have hquiet : (q.reader r).quiet = true := by rw [hr]; rfl
  have htaken := taken_of_quiet hquiet
  have hpending := pending_of_quiet hquiet
  have hreader : ((q.raiseFlag c.maxChunks r).setReader r (.returning x)).reader r
      = .returning x := update_self _ _ _
  have hmarked : ((q.raiseFlag c.maxChunks r).setReader r (.returning x)).marked r
      = q.marked r + 1 := update_self _ _ _
  have htaken' : ((q.raiseFlag c.maxChunks r).setReader r (.returning x)).taken r
      = q.marked r + 1 := by rw [taken, hreader, hmarked]
  have hpending' : ((q.raiseFlag c.maxChunks r).setReader r (.returning x)).pending r
      = [p.buffers] := by
    rw [pending, hreader, ← hx]
    rfl
  -- what the writer is still to send is large, so it is not this object
  have hposted : q.posted[q.marked r]? = some p := by
    unfold posted
    split
    · rename_i p' hw
      have hok := hinv.writer
      rw [hw] at hok
      have hne : q.marked r ≠ q.sent.length - 1 := by
        intro heq
        rw [heq, ← List.getLast?_eq_getElem?, hok.2] at hp
        obtain rfl := some_inj.mp hp
        rw [hok.1] at hover
        simp at hover
      have hlt : q.marked r < q.sent.length := (List.getElem?_eq_some_iff.mp hp).1
      rw [List.getElem?_dropLast, if_pos (by omega)]
      exact hp
    · exact hp
  obtain ⟨hlt, hget⟩ := List.getElem?_eq_some_iff.mp hposted
  refine ⟨?_, ?_, ?_, ?_⟩
  · rw [Queue.delivered, hpending', htaken']
    show (q.returned r).map _ ++ _ = (q.sent.take (q.marked r + 1)).map _
    have hold := h.delivered
    rw [Queue.delivered, hpending, append_nil, htaken] at hold
    rw [hold, take_add_one, hp, toList_some, map_append]
    rfl
  · rw [htaken']
    show q.socket r = List.filter _ (List.drop _ q.posted)
    rw [h.socket, htaken, drop_eq_getElem_cons hlt, hget,
      filter_cons_of_neg (by simp [hover])]
  · rw [htaken']
    exact hlt
  · intro hr'
    rw [hreader] at hr'
    simp at hr'

/-- A reader marks the chunk of a large object, and waits at the socket. -/
theorem Synced.markLarge (hr : q.reader r = .read none)
    (hover : ∀ p, q.sent[q.marked r]? = some p → p.overflows c.maxChunkBytes = true) :
    ((q.raiseFlag c.maxChunks r).setReader r .receiving).Synced c r := by
  have hquiet : (q.reader r).quiet = true := by rw [hr]; rfl
  have hreader : ((q.raiseFlag c.maxChunks r).setReader r .receiving).reader r = .receiving :=
    update_self _ _ _
  have hmarked : ((q.raiseFlag c.maxChunks r).setReader r .receiving).marked r
      = q.marked r + 1 := update_self _ _ _
  have htaken : ((q.raiseFlag c.maxChunks r).setReader r .receiving).taken r = q.taken r := by
    rw [taken_of_quiet hquiet, taken, hreader, hmarked, Nat.add_sub_cancel]
  have hdelivered : ((q.raiseFlag c.maxChunks r).setReader r .receiving).delivered r
      = q.delivered r := by
    rw [Queue.delivered, Queue.delivered, pending_of_quiet hquiet, pending, hreader]
    rfl
  refine ⟨?_, ?_, ?_, fun _ => ?_⟩
  · rw [hdelivered, htaken]
    exact h.delivered
  · rw [htaken]
    exact h.socket
  · rw [htaken]
    exact h.le
  · rw [hmarked, Nat.add_sub_cancel]
    exact ⟨Nat.succ_pos _, hover⟩

/-- A reader returns the object of its chunk. -/
theorem Synced.ret {x : Obj} (hr : q.reader r = .returning x) : (q.give r x).Synced c r := by
  have hreader : (q.give r x).reader r = .idle := update_self _ _ _
  refine h.congr ?_ ?_ rfl rfl rfl fun hr' => ?_
  · rw [Queue.delivered, Queue.delivered, pending, hreader, pending, hr]
    show (update q.returned r _ r).map _ ++ [] = _
    rw [update_self, append_nil, map_append]
    rfl
  · rw [taken, hreader, taken, hr]
    rfl
  · rw [hreader] at hr'
    simp at hr'

/-- A reader returns the first object of its socket: it is the one it waits for. -/
theorem Synced.receive {p : Pickled} {ps : List Pickled}
    (hr : q.reader r = .receiving) (hs : q.socket r = p :: ps) :
    ((q.takeMessage r).give r (loadMessage p)).Synced c r := by
  obtain ⟨hpos, hover⟩ := h.receiving hr
  have htaken : q.taken r = q.marked r - 1 := by rw [taken, hr]
  have hpending : q.pending r = [] := by rw [pending, hr]
  have hsocket := h.socket
  rw [hs, htaken] at hsocket
  -- the object has been posted, and as it is large it comes first
  have hlt : q.marked r - 1 < q.posted.length := by
    by_contra hge
    rw [drop_eq_nil_of_le (Nat.not_lt.mp hge)] at hsocket
    simp at hsocket
  have hsent : q.sent[q.marked r - 1]? = some q.posted[q.marked r - 1] := by
    obtain ⟨rest, hrest⟩ := posted_isPrefix q
    rw [← hrest, List.getElem?_append_left hlt, List.getElem?_eq_getElem hlt]
  rw [drop_eq_getElem_cons hlt, filter_cons_of_pos (by exact hover _ hsent),
    cons_eq_cons] at hsocket
  obtain ⟨hp, hps⟩ := hsocket
  rw [← hp] at hsent
  set q' := (q.takeMessage r).give r (loadMessage p) with hq'
  have hreader : q'.reader r = .idle := update_self _ _ _
  have htaken' : q'.taken r = q.marked r := by
    rw [taken, hreader]
    rfl
  have hsucc : q.marked r = q.marked r - 1 + 1 := by omega
  refine ⟨?_, ?_, ?_, fun hr' => ?_⟩
  · rw [Queue.delivered, htaken', pending, hreader]
    show (update q.returned r _ r).map _ ++ [] = (q.sent.take (q.marked r)).map _
    have hold := h.delivered
    rw [Queue.delivered, hpending, append_nil, htaken] at hold
    rw [update_self, append_nil, map_append, hsucc, take_add_one, hsent,
      toList_some, map_append]
    show (q.returned r).map _ ++ [(loadMessage p).contents _] = _
    rw [hold, contents_loadMessage]
    rfl
  · rw [htaken']
    show update q.socket r _ r = List.filter _ (List.drop _ q.posted)
    rw [update_self, hs, hsucc]
    exact hps
  · rw [htaken', hsucc]
    exact hlt
  · rw [hreader] at hr'
    simp at hr'

theorem Synced.markOther {r' : ℕ} (hne : r ≠ r') (x : ReaderPhase) :
    ((q.raiseFlag c.maxChunks r').setReader r' x).Synced c r := by
  have hreader : ((q.raiseFlag c.maxChunks r').setReader r' x).reader r = q.reader r :=
    update_of_ne hne _ _
  exact h.of_agree hreader (update_of_ne hne _ _) rfl
    (pending_congr hreader fun _ _ => rfl) rfl rfl rfl

theorem Synced.giveOther {r' : ℕ} (hne : r ≠ r') (x : Obj) : (q.give r' x).Synced c r := by
  have hreader : (q.give r' x).reader r = q.reader r := update_of_ne hne _ _
  exact h.of_agree hreader rfl (update_of_ne hne _ _)
    (pending_congr hreader fun _ _ => rfl) rfl rfl rfl

theorem Synced.takeOther {r' : ℕ} (hne : r ≠ r') : (q.takeMessage r').Synced c r :=
  h.of_agree rfl rfl rfl rfl (update_of_ne hne _ _) rfl rfl

end

/-! ### Runs -/

/-- **An undisturbed step keeps ring and socket in step.** -/
theorem Synced.step {e : Event} (hinv : q.Inv c) (h : ∀ r < c.nReader, q.Synced c r)
    (hundisturbed : q.Undisturbed c e) (hstep : step c q e = some q') :
    ∀ r < c.nReader, q'.Synced c r := by
  intro r hr
  cases move_of_step hstep with
  | enqueue hw =>
    refine (h r hr).of_agree rfl rfl rfl rfl rfl rfl (posted_congr rfl (by simp [hw]) fun p => ?_)
    show (if _ then _ else _) ≠ _
    split_ifs <;> simp
  | countFlag hw hi =>
    exact (h r hr).of_agree rfl rfl rfl rfl rfl rfl (posted_congr rfl (by simp [hw]) nofun)
  | wait hw =>
    refine (h r hr).of_agree rfl rfl rfl rfl rfl rfl (posted_congr rfl (by simp [hw]) fun p => ?_)
    show afterWait _ _ ≠ _
    unfold afterWait
    split_ifs <;> simp
  | unmark hw hi hfree =>
    exact (h r hr).of_agree rfl rfl rfl rfl rfl rfl (posted_congr rfl (by simp [hw]) nofun)
  | writePart hw =>
    -- what a reader is about to return is not in the writer's chunk
    exact (h r hr).of_agree rfl rfl rfl (pending_fillChunk (hundisturbed r hr) _) rfl rfl rfl
  | write hw hobj =>
    exact (h r hr).of_agree rfl rfl rfl (pending_fillChunk (hundisturbed r hr) _) rfl rfl
      (posted_congr rfl (by simp [hw]) nofun)
  | writeRaise hw =>
    exact (h r hr).of_agree rfl rfl rfl (pending_fillChunk (hundisturbed r hr) _) rfl rfl
      (posted_congr rfl (by simp [hw]) nofun)
  | resetFlag hw hi =>
    exact (h r hr).of_agree rfl rfl rfl rfl rfl rfl (posted_congr rfl (by simp [hw]) nofun)
  | publish hw hi =>
    exact (h r hr).publish (posted_of_not_sending (by simp [hw])) (hinv.le r hr) _
  | send hw =>
    obtain ⟨hover, hlast⟩ := hinv.writerOk hw
    exact (h r hr).post hw hover hlast
  | loadFlag hr' hn => exact (h r hr).setReader (by rw [hr']; rfl) rfl
  | testFlags hr' =>
    refine (h r hr).setReader (by rw [hr']; rfl) ?_
    split_ifs <;> rfl
  | readChunk hr' =>
    refine (h r hr).setReader (by rw [hr']; rfl) ?_
    unfold lookAt
    split_ifs
    · rfl
    · split <;> rfl
  | @markRead r' x hr' =>
    rcases eq_or_ne r r' with rfl | hne
    · -- the chunk holds the object that is next for the reader
      have hok := (hinv.readerOk hr' nofun).2
      cases x with
      | none =>
        refine (h r hr).markLarge hr' fun p hp => ?_
        exact (hinv.holdsObject hr hok.1 hp).first_eq_one_iff.mp hok.2
      | some x =>
        have hp := List.getElem?_eq_getElem hok.1
        have hobj := hinv.holdsObject hr hok.1 hp
        refine (h r hr).mark hinv hr' hp ?_ (hobj.contents hok.2.1 hok.2.2)
        exact Bool.eq_false_iff.mpr fun hover => hok.2.1 (hobj.first_eq_one_iff.mpr hover)
    · exact (h r hr).markOther hne _
  | @ret r' x hr' =>
    rcases eq_or_ne r r' with rfl | hne
    · exact (h r hr).ret hr'
    · exact (h r hr).giveOther hne x
  | @receive r' p ps hr' hs =>
    rcases eq_or_ne r r' with rfl | hne
    · exact (h r hr).receive hr' hs
    · exact ((h r hr).takeOther hne).giveOther hne _
  | recvTimeout hr' hs => exact hundisturbed.elim

theorem exact_of_synced (hinv : q.Inv c) (h : ∀ r < c.nReader, q.Synced c r) : q.Exact c := by
  refine ⟨fun r hr => (h r hr).delivered, fun hover => ?_⟩
  unfold overwriting at hover
  cases hw : q.writer with
  | writing p => exact (hinv.writerOk hw).2
  | resetting p i => exact (hinv.writerOk hw).1.2
  | _ => simp [hw] at hover

/-- **A run is exact if no reader gives up at the socket and no chunk is written of which a reader is
about to return views**, however writer and readers interleave. -/
theorem always_exact (c : RingConfig) (data : ℕ → Mem UInt8) {es : List Event}
    (hes : Each (step c) (Undisturbed c) (init data) es) :
    Always (step c) (Exact c) (init data) es := by
  have hsynced : Always (step c) (fun q => q.Inv c ∧ ∀ r < c.nReader, q.Synced c r) (init data) es :=
    hes.always ⟨Inv.init data, fun r _ => Synced.init data r⟩ fun q e q' hq he hstep =>
      ⟨hq.1.step hstep, Synced.step hq.1 hq.2 he hstep⟩
  intro es₁ es₂ t hsplit hrun
  obtain ⟨hinv, h⟩ := hsynced es₁ es₂ t hsplit hrun
  exact exact_of_synced hinv h

/-! ### An object that is lost -/

/-- A ring of one chunk of eight bytes, for one reader. -/
def oneChunk : RingConfig := ⟨1, 1, 8, Nat.one_pos⟩

/-- An object whose pickle is a number of zeros. -/
def zeros (n : ℕ) : Pickled := ⟨⟨n, fun _ => 0, fun _ _ => rfl⟩, [], Pickled.large_nil⟩

/-- `enqueue`, without waiting, for one reader. -/
def enqueueSteps (p : Pickled) : List Event :=
  [.enqueue p, .countFlag, .testWritten false, .write, .resetFlag, .publish]

/-- `dequeue` of the reader, up to the flag. -/
def dequeueSteps : List Event := [.loadFlag 0, .testFlags 0, .readChunk 0, .markRead 0]

/-- A large object and two small ones are sent. The reader waits for the large one, and has not
returned the first of the small ones when the second one is written to the chunk. -/
def patientRun : List Event :=
  enqueueSteps (zeros 2) ++ dequeueSteps ++ [.send, .receive 0] ++ enqueueSteps (zeros 1) ++
    dequeueSteps ++ enqueueSteps (zeros 1) ++ [.ret 0]

/-- The reader gets to the socket before the large object does, and gives up; then it calls
again. -/
def lossyRun : List Event :=
  enqueueSteps (zeros 2) ++ dequeueSteps ++ [.recvTimeout 0, .send] ++ enqueueSteps (zeros 1) ++
    dequeueSteps ++ [.ret 0]

theorem always_exact_patientRun :
    ((run (step oneChunk) (init fun _ _ => 0) patientRun).map fun t =>
      (t.returned 0).map fun x => x.contents.map Buffer.len) = some [[2], [1]] ∧
    Always (step oneChunk) (Exact oneChunk) (init fun _ _ => 0) patientRun :=
  ⟨by decide +kernel, always_exact oneChunk _ (by decide +kernel)⟩

/-- **An object that the reader does not get.** Both objects are published and both chunks are
marked as read; the reader's calls have returned the second object only. -/
theorem not_exact_lossyRun : ∃ t,
    run (step oneChunk) (init fun _ _ => 0) lossyRun = some t ∧ ¬ t.Exact oneChunk ∧
      (t.sent.map fun p => p.buffers.map Buffer.len) = [[2], [1]] ∧ t.marked 0 = 2 ∧
      ((t.returned 0).map fun x => x.contents.map Buffer.len) = [[1]] := by
  have hlens : (run (step oneChunk) (init fun _ _ => 0) lossyRun).map (fun t =>
      (t.sent.map fun p => p.buffers.map Buffer.len, t.marked 0,
        (t.returned 0).map fun x => x.contents.map Buffer.len, t.taken 0, (t.pending 0).length))
      = some ([[2], [1]], 2, [[1]], 2, 0) := by
    decide +kernel
  obtain ⟨t, hrun, hlens⟩ := map_eq_some_iff.mp hlens
  simp only [Prod.mk.injEq] at hlens
  obtain ⟨hsent, hmarked, hreturned, htaken, hpending⟩ := hlens
  refine ⟨t, hrun, fun hexact => ?_, hsent, hmarked, hreturned⟩
  -- two objects are taken, and one is delivered
  have hlen := congrArg List.length (hexact.1 0 Nat.one_pos)
  rw [delivered, length_append, hpending, length_map, length_map, length_take,
    htaken] at hlen
  have hsentLen := congrArg List.length hsent
  have hreturnedLen := congrArg List.length hreturned
  rw [length_map] at hsentLen hreturnedLen
  simp only [length_cons, length_nil] at hsentLen hreturnedLen
  omega

end Queue

end CacheFlow.Shm
