import DpiLibrary.Dpi.LatencyRing

/-!
# Sizes of the messages on a latency ring

A message travels with its size in the header of its segment. The header that
`close` writes carries the segment size instead, over the size of the last message.
Which of the two the iterator returns is decided by what it reads first: the size,
or the closing header.
-/

namespace DpiLibrary

variable {k : ℕ}

namespace BufferIterator

variable {type : Buffertype} {m m' : Mem} {it it' : BufferIterator k} {action : IteratorAction}
  {events : List (RingEvent k)}

theorem loopStep_quiet (m : Mem) (it : BufferIterator k) :
    (∀ size, (it.loopStep m).1.pc ≠ .advance size) ∧
      ∀ r offset data, .nextReturned r offset data ∉ (it.loopStep m).2 := by
  simp only [loopStep]
  generalize (if it.segmentIterators.atEnd then .start it.segmentIterators.toList
    else it.segmentIterators : Cursor (IterHelper k)) = c
  cases c.get? with
  | none => simp
  | some h => cases hend : (h.prevHeader m).isEndSegment <;> simp [hend]

theorem markStep_quiet (type : Buffertype) (m : Mem) (it : BufferIterator k) (h : IterHelper k)
    (inNext : Bool) (statement : MarkStep) (size : ℕ) :
    (it.markStep type m h inNext statement).2.pc ≠ .advance size := by
  cases statement <;> cases inNext <;> cases type <;>
    simp [markStep, put, afterMark] <;> split_ifs <;> simp

/-- The two statements of `next` that concern the size, and all others: those return nothing
and read no size. -/
theorem step_cases (h : it.step type m action = some (m', it', events)) :
    (∃ bs y as, it = ⟨⟨bs, y :: as⟩, .getRawData⟩ ∧ action = .run ∧ m' = m ∧
      it' = ⟨⟨bs, y :: as⟩, .advance (readHeader m y.iter).counter⟩ ∧ events = []) ∨
    (∃ bs y as size, it = ⟨⟨bs, y :: as⟩, .advance size⟩ ∧ m' = m ∧ it'.pc = .idle ∧
      events = [.nextReturned y.ring y.iter
        (readBytes m (y.iter + segmentHeaderSize) size)]) ∨
    (∀ size, it'.pc ≠ .advance size) ∧
      ∀ r offset data, .nextReturned r offset data ∉ events := by
  obtain ⟨⟨bs, as⟩, pc⟩ := it
  cases action with
  | hasNext =>
    simp only [step] at h
    split_ifs at h
    cases h
    exact Or.inr (Or.inr ⟨by simp, by simp⟩)
  | next =>
    cases as with
    | nil => cases pc <;> simp [step] at h
    | cons y as =>
      cases pc with
      | ready =>
        simp only [step, Cursor.get?_cons, Option.some.injEq, Prod.mk.injEq] at h
        obtain ⟨rfl, rfl, rfl⟩ := h
        exact Or.inr (Or.inr ⟨by simp, by simp⟩)
      | _ => simp [step] at h
  | run =>
    cases as with
    | nil =>
      cases pc with
      | loop =>
        simp only [step, Option.some.injEq, Prod.mk.injEq] at h
        obtain ⟨rfl, rfl, rfl⟩ := h
        exact Or.inr (Or.inr (loopStep_quiet _ _))
      | _ => simp [step] at h
    | cons y as =>
      cases pc with
      | idle => simp [step] at h
      | ready => simp [step] at h
      | loop =>
        simp only [step, Option.some.injEq, Prod.mk.injEq] at h
        obtain ⟨rfl, rfl, rfl⟩ := h
        exact Or.inr (Or.inr (loopStep_quiet _ _))
      | testConsumable =>
        simp only [step, Cursor.get?_cons] at h
        split_ifs at h <;> cases h <;> exact Or.inr (Or.inr ⟨by simp, by simp⟩)
      | mark statement inNext =>
        simp only [step, Cursor.get?_cons, Option.some.injEq, Prod.mk.injEq] at h
        obtain ⟨rfl, rfl, rfl⟩ := h
        exact Or.inr (Or.inr ⟨fun size => markStep_quiet type m _ y inNext statement size, by simp⟩)
      | erase =>
        simp only [step, Cursor.get?_cons, Option.some.injEq, Prod.mk.injEq] at h
        obtain ⟨rfl, rfl, rfl⟩ := h
        exact Or.inr (Or.inr ⟨by simp, by simp⟩)
      | getRawData =>
        simp only [step, Cursor.get?_cons, Option.some.injEq, Prod.mk.injEq] at h
        obtain ⟨rfl, rfl, rfl⟩ := h
        exact Or.inl ⟨bs, y, as, rfl, rfl, rfl, rfl, rfl⟩
      | advance size =>
        simp only [step, Cursor.get?_cons, Option.some.injEq, Prod.mk.injEq] at h
        obtain ⟨rfl, rfl, rfl⟩ := h
        exact Or.inr (Or.inl ⟨bs, y, as, size, rfl, rfl, rfl, rfl⟩)

end BufferIterator

open BufferWriterLat RingSystem

variable {b : BufferRings k} {messages : Fin k → List Message}
  {s s' : RingSystem BufferWriterLat k} {a : BufferState b} {label : RingLabel k}

/-- When `next` reads the size of a segment that carries the end mark, the last message of the
ring fills its segment. -/
def SizeReadInTime (b : BufferRings k) (messages : Fin k → List Message)
    (s : RingSystem BufferWriterLat k) (label : RingLabel k) : Prop :=
  label = .iterator .run → s.iterator.pc = .getRawData →
    ∀ h ∈ s.iterator.segmentIterators.get?, (readHeader s.mem h.iter).isEndSegment = true →
      ∀ last ∈ (messages h.ring).getLast?, last.data.length = (b.ring h.ring).segmentSize

instance (b : BufferRings k) (messages : Fin k → List Message)
    (s : RingSystem BufferWriterLat k) (label : RingLabel k) :
    Decidable (SizeReadInTime b messages s label) :=
  inferInstanceAs (Decidable (_ → _ → _))

/-- The messages returned are a beginning of those appended, and a size that has been read is
that of the next one. -/
structure SizesKept (messages : Fin k → List Message) (s : RingSystem BufferWriterLat k) :
    Prop where
  blocks : ∀ r, returnedBlocks s.log r <+: (messages r).map Message.data
  size : ∀ size, s.iterator.pc = .advance size → ∀ h ∈ s.iterator.segmentIterators.get?,
    size = (((messages h.ring).map Message.data).getD
      (returnedBlocks s.log h.ring).length []).length

/-- What has been sent stands in the messages at the same place. -/
theorem getD_of_prefix {l l' : List (List UInt8)} (h : l <+: l') {j : ℕ} (hj : j < l.length) :
    l'.getD j [] = l[j] := by
  obtain ⟨rest, rfl⟩ := h
  rw [List.getD_eq_getElem?_getD, List.getElem?_append_left hj, List.getElem?_eq_getElem hj,
    Option.getD_some]

/-- The size in the header of the next segment is that of its message, or the closing header
has arrived and the message is the last one. -/
theorem size_of_next {bs as : List (IterHelper k)} {y : IterHelper k} {pc : IteratorPc}
    (htype : b.type = .lat) (ha : LatencyRefines (b := b) messages s a)
    (hit : s.iterator = ⟨⟨bs, y :: as⟩, pc⟩)
    (hrel : (a.ring y.ring).released = (a.ring y.ring).returned)
    (hsent : (a.ring y.ring).returned < (a.ring y.ring).sent.length) :
    (readHeader s.mem y.iter).counter =
        (((messages y.ring).map Message.data).getD (a.ring y.ring).returned []).length ∨
      (readHeader s.mem y.iter).isEndSegment = true ∧
        (readHeader s.mem y.iter).counter = (b.ring y.ring).segmentSize ∧
        (a.ring y.ring).returned + 1 = ((messages y.ring).map Message.data).length := by
  have hinv := ha.1
  rw [hit] at hinv
  obtain ⟨hhelper, -, hshows, -⟩ := hinv.current
  have hwriter := hinv.writer y.ring
  have hle := (a.ring y.ring).sent_le
  have hheader := hshows.header (a.ring y.ring).returned hrel.le (by omega)
  rw [← hhelper.iter, RingGeometry.expectedHeader, if_pos hsent, if_neg (Nat.lt_irrefl _)]
    at hheader
  unfold RingGeometry.sentHeader at hheader
  simp only [htype] at hheader
  split_ifs at hheader with hlast
  · have hprogram := (hwriter.finished hlast.1).2.2
    refine Or.inr ⟨?_, ?_, ?_⟩
    · rw [hheader]
      simp [SegmentHeader.isEndSegment]
    · rw [hheader]
    · rw [hlast.2, hprogram]
  · apply Or.inl
    rw [hheader, getD_of_prefix hwriter.sent_program hsent, List.getD_eq_getElem?_getD,
      List.getElem?_eq_getElem hsent, Option.getD_some]

/-- A step of a writer or of its queue pair returns nothing. -/
theorem SizesKept.quiet (h : SizesKept messages s) (hiterator : s'.iterator = s.iterator)
    (hlog : ∀ r, returnedBlocks s'.log r = returnedBlocks s.log r) : SizesKept messages s' := by
  constructor
  · intro r
    rw [hlog]
    exact h.blocks r
  · intro size hpc y hy
    rw [hiterator] at hpc hy
    rw [hlog]
    exact h.size size hpc y hy

/-- A step of the iterator keeps the sizes if a size it reads is that of the next message, and
if a block it returns is the next message. -/
theorem SizesKept.iterator_step (h : SizesKept messages s) {action : IteratorAction} {m : Mem}
    {it : BufferIterator k} {events : List (RingEvent k)}
    (hstep : s.iterator.step .lat s.mem action = some (m, it, events))
    (hread : ∀ bs y as, action = .run → s.iterator = ⟨⟨bs, y :: as⟩, .getRawData⟩ →
      (readHeader s.mem y.iter).counter = (((messages y.ring).map Message.data).getD
        (returnedBlocks s.log y.ring).length []).length)
    (hreturned : ∀ bs y as size, s.iterator = ⟨⟨bs, y :: as⟩, .advance size⟩ →
      ((messages y.ring).map Message.data)[(returnedBlocks s.log y.ring).length]? =
        some (readBytes s.mem (y.iter + segmentHeaderSize) size)) :
    SizesKept messages ⟨m, s.writers, it, s.log ++ events⟩ := by
  rcases BufferIterator.step_cases hstep with
    ⟨bs, y, as, hbefore, rfl, rfl, rfl, rfl⟩ | ⟨bs, y, as, size, hbefore, rfl, hpc, rfl⟩ |
      ⟨hpc, hevents⟩
  · rw [List.append_nil]
    refine ⟨h.blocks, fun size hpc z hz => ?_⟩
    cases hz
    rw [← IteratorPc.advance.inj hpc]
    exact hread bs y as rfl hbefore
  · refine ⟨fun r => ?_, fun size' hpc' => ?_⟩
    · rw [returnedBlocks_concat]
      simp only
      split_ifs with hr
      · subst hr
        obtain ⟨hlt, hblock⟩ := List.getElem?_eq_some_iff.mp (hreturned bs y as size hbefore)
        rw [← hblock]
        exact List.concat_get_prefix (h.blocks y.ring) hlt
      · exact h.blocks r
    · rw [hpc] at hpc'
      cases hpc'
  · refine ⟨fun r => ?_, fun size hsize => absurd hsize (hpc size)⟩
    rw [returnedBlocks_append]
    have hnone : returnedBlocks events r = [] := by
      apply List.filterMap_eq_nil_iff.mpr
      intro e he
      cases e with
      | nextReturned ring offset data => exact absurd he (hevents ring offset data)
      | _ => rfl
    rw [hnone, List.append_nil]
    exact h.blocks r

/-- A size read in time is that of the next message. -/
theorem SizeReadInTime.counter (hread : SizeReadInTime b messages s (.iterator .run))
    (htype : b.type = .lat) (ha : LatencyRefines (b := b) messages s a)
    {bs as : List (IterHelper k)} {y : IterHelper k}
    (hit : s.iterator = ⟨⟨bs, y :: as⟩, .getRawData⟩) :
    (readHeader s.mem y.iter).counter = (((messages y.ring).map Message.data).getD
      (returnedBlocks s.log y.ring).length []).length := by
  have hinv := ha.1
  rw [hit] at hinv
  obtain ⟨-, ⟨hrel, hsent⟩, -, -⟩ := hinv.current
  rw [ha.2.count]
  rcases size_of_next htype ha hit hrel hsent with hsize | ⟨hend, hsize, hlast⟩
  · exact hsize
  · have hpos : messages y.ring ≠ [] := by
      intro hnil
      rw [hnil] at hlast
      simp at hlast
    have hfull := hread rfl (by rw [hit]) y (by rw [hit]; rfl) hend
      ((messages y.ring).getLast hpos) (List.getLast?_eq_some_getLast hpos)
    rw [List.length_map] at hlast
    have hindex : (a.ring y.ring).returned = (messages y.ring).length - 1 := by omega
    rw [hsize, ← hfull, hindex, List.getLast_eq_getElem, List.getD_eq_getElem?_getD,
      List.getElem?_map, List.getElem?_eq_getElem, Option.map_some, Option.getD_some]

/-- With the size of the next message `next` returns that message. -/
theorem SizesKept.returned {bs as : List (IterHelper k)} {y : IterHelper k} {size : ℕ}
    (h : SizesKept messages s) (ha : LatencyRefines (b := b) messages s a)
    (hit : s.iterator = ⟨⟨bs, y :: as⟩, .advance size⟩) :
    ((messages y.ring).map Message.data)[(returnedBlocks s.log y.ring).length]? =
      some (readBytes s.mem (y.iter + segmentHeaderSize) size) := by
  have hinv := ha.1
  rw [hit] at hinv
  obtain ⟨hhelper, ⟨hrel, hsent, -⟩, hshows, -⟩ := hinv.current
  have hprogram := (hinv.writer y.ring).sent_program
  have hsize := h.size size (by rw [hit]) y (by rw [hit]; rfl)
  rw [ha.2.count] at hsize ⊢
  have hnext := getD_of_prefix hprogram hsent
  rw [hnext] at hsize
  rw [hsize, hhelper.iter,
    show readBytes s.mem ((b.ring y.ring).slot (a.ring y.ring).returned + segmentHeaderSize)
      (a.ring y.ring).sent[(a.ring y.ring).returned].length = _ from
        hshows.data _ _ hrel.le (List.getElem?_eq_getElem hsent),
    List.getElem?_eq_getElem (hsent.trans_le hprogram.length_le), hprogram.getElem hsent]

/-- The sizes are kept by every step that reads the size in time. -/
theorem SizesKept.step (h : SizesKept messages s) (htype : b.type = .lat)
    (ha : LatencyRefines (b := b) messages s a) (hread : SizeReadInTime b messages s label)
    (hstep : s.step .lat machine label = some s') : SizesKept messages s' := by
  cases label with
  | writer r =>
    obtain ⟨w, -, rfl⟩ := Option.map_eq_some_iff.mp hstep
    exact h.quiet rfl fun _ => rfl
  | nic r =>
    obtain ⟨⟨m', w, made⟩, -, rfl⟩ := Option.map_eq_some_iff.mp hstep
    refine h.quiet rfl fun r' => ?_
    rw [returnedBlocks_append]
    cases made <;> simp [returnedBlocks]
  | iterator action =>
    obtain ⟨⟨m', it', events⟩, hit, rfl⟩ := Option.map_eq_some_iff.mp hstep
    refine h.iterator_step hit (fun bs y as haction hbefore => ?_) fun bs y as size hbefore => ?_
    · subst haction
      exact hread.counter htype ha hbefore
    · exact h.returned ha hbefore

/-- Messages of any size up to that of a segment come back with their own size and bytes, as
long as `next` does not read the size of a shorter last message from the closing header. -/
theorem latency_sizes (b : BufferRings k) (htype : b.type = .lat)
    (hsegments : ∀ r, 2 ≤ (b.ring r).segments) (internalBufferSize : Fin k → ℕ)
    (messages : Fin k → List Message) (hmessages : ∀ r, messages r ≠ [])
    (hsizes : ∀ r, ∀ message ∈ messages r, message.data.length ≤ (b.ring r).segmentSize)
    (m : Mem) (schedule : List (RingLabel k))
    (hguarded : Schedule.EachStep (step .lat machine) (Guarded CarriesPosted)
      (init b m (b.latencyWriters internalBufferSize messages fun _ => [.close])) schedule)
    (hread : Schedule.EachStep (step .lat machine) (SizeReadInTime b messages)
      (init b m (b.latencyWriters internalBufferSize messages fun _ => [.close])) schedule) :
    Schedule.Throughout (step .lat machine)
      (fun s => (∀ r, returnedBlocks s.log r <+: (messages r).map Message.data) ∧
        (.hasNextReturned false ∈ s.log → ∀ r,
          returnedBlocks s.log r = (messages r).map Message.data))
      (init b m (b.latencyWriters internalBufferSize messages fun _ => [.close])) schedule := by
  have hrefines := latency_refines htype hsegments (fun r => Or.inr ⟨rfl, hmessages r⟩) hsizes
    hguarded
  have hkept : Schedule.Throughout (step .lat machine)
      (fun s => (∃ a, LatencyRefines (b := b) messages s a) ∧ SizesKept messages s)
      (init b m (b.latencyWriters internalBufferSize messages fun _ => [.close])) schedule := by
    refine (hguarded.and hread).throughout ?_ schedule _ ⟨hrefines [] _ List.nil_prefix rfl, ?_⟩
    · rintro s label s' ⟨⟨a, ha⟩, hsizesKept⟩ ⟨hguard, hintime⟩ hstep
      have hstep' : s.step b.type machine label = some s' := htype ▸ hstep
      have sim := latencySim htype (fun r => (messages r).map Message.data)
        fun r => Or.inl (hsegments r)
      obtain ⟨a', -, -, -, ha'⟩ := ha.step sim hguard hstep'
      exact ⟨⟨a', ha'⟩, hsizesKept.step htype ha hintime hstep⟩
    · exact ⟨fun r => List.nil_prefix, fun size hpc => by cases hpc⟩
  intro pre s hpre hs
  obtain ⟨⟨a, ha⟩, hsizesKept⟩ := hkept pre s hpre hs
  refine ⟨hsizesKept.blocks, fun hmem r => ?_⟩
  obtain ⟨hfin, hreturned⟩ := ha.2.exhausted hmem r
  refine (hsizesKept.blocks r).eq_of_length ?_
  rw [ha.2.count r, hreturned, ((ha.1.writer r).finished hfin).2.2]

/-- One ring with segments of four bytes, behind its counter. -/
def fourByteSegments : BufferRings 1 :=
  .single .lat ⟨8, 2, 4, Nat.two_pos, by decide⟩ (Nat.le_refl 8)

/-- Construct the writer and append one message. -/
def oneMessageRun : List (RingLabel 1) :=
  [.writer 0, .nic 0, .writer 0, .nic 0, .writer 0] ++ appendSteps

/-- `close` with its header written. -/
def closeSteps : List (RingLabel 1) := [.writer 0, .nic 0, .writer 0]

/-- The closing header arrives between the read of the size and the return. -/
theorem latency_sizes_one_byte :
    ((Schedule.exec (step .lat machine) (init fourByteSegments (fun _ => 0)
      (fourByteSegments.latencyWriters (fun _ => 100) (fun _ => [⟨[7], [], false⟩])
        fun _ => [.close])) (oneMessageRun ++ RingLabel.call .hasNext 2 ++
          RingLabel.call .next 3 ++ closeSteps ++ .iterator .run ::
          RingLabel.call .hasNext 4)).map fun s => (s.log.getLast?, returnedBlocks s.log 0)) =
      some (some (.hasNextReturned false), [[7]]) ∧
    Schedule.Throughout (step .lat machine)
      (fun s => (∀ r : Fin 1, returnedBlocks s.log r <+: [[7]]) ∧
        (.hasNextReturned false ∈ s.log → ∀ r : Fin 1, returnedBlocks s.log r = [[7]]))
      (init fourByteSegments (fun _ => 0)
        (fourByteSegments.latencyWriters (fun _ => 100) (fun _ => [⟨[7], [], false⟩])
          fun _ => [.close])) (oneMessageRun ++ RingLabel.call .hasNext 2 ++
            RingLabel.call .next 3 ++ closeSteps ++ .iterator .run ::
            RingLabel.call .hasNext 4) :=
  ⟨by decide +kernel, latency_sizes fourByteSegments rfl (fun _ => le_rfl) (fun _ => 100)
    (fun _ => [⟨[7], [], false⟩]) (by simp) (by simp [fourByteSegments, BufferRings.single])
    (fun _ => 0) _ (by decide +kernel) (by decide +kernel)⟩

/-- Append and `close` before the iterator looks: the one byte appended comes back with three
bytes behind it. -/
theorem closed_before_read :
    Schedule.EachStep (step .lat machine) (Guarded CarriesPosted)
      (init fourByteSegments (fun _ => 0) (fourByteSegments.latencyWriters (fun _ => 100)
        (fun _ => [⟨[7], [], false⟩]) fun _ => [.close]))
      (oneMessageRun ++ closeSteps ++ RingLabel.call .hasNext 2 ++ RingLabel.call .next 4) ∧
    ¬ Schedule.Throughout (step .lat machine)
      (fun s => (∀ r : Fin 1, returnedBlocks s.log r <+: [[7]]) ∧
        (.hasNextReturned false ∈ s.log → ∀ r : Fin 1, returnedBlocks s.log r = [[7]]))
      (init fourByteSegments (fun _ => 0) (fourByteSegments.latencyWriters (fun _ => 100)
        (fun _ => [⟨[7], [], false⟩]) fun _ => [.close]))
      (oneMessageRun ++ closeSteps ++ RingLabel.call .hasNext 2 ++ RingLabel.call .next 4) := by
  refine ⟨by decide +kernel, fun h => ?_⟩
  have hrun : ((Schedule.exec (step .lat machine) (init fourByteSegments (fun _ => 0)
      (fourByteSegments.latencyWriters (fun _ => 100) (fun _ => [⟨[7], [], false⟩])
        fun _ => [.close])) (oneMessageRun ++ closeSteps ++ RingLabel.call .hasNext 2 ++
          RingLabel.call .next 4)).map fun s => returnedBlocks s.log 0) = some [[7, 0, 0, 0]] := by
    decide +kernel
  obtain ⟨s, hs, hblocks⟩ := Option.map_eq_some_iff.mp hrun
  have hprefix := (h _ s (List.prefix_refl _) hs).1 0
  rw [hblocks] at hprefix
  revert hprefix
  decide

end DpiLibrary
