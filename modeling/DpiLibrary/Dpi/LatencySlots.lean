import DpiLibrary.Dpi.LatencyRuns

/-!
# Where a latency writer writes

The writer computes slot addresses from its own index, and the length of a write is
the caller's. As long as no write fails, offsets and index move together along the
ring. A failed write moves the index alone, and from then on the offsets can run
past the last segment.
-/

namespace DpiLibrary

/-- A multiple of the segment size behind the entry segment, in the ring or past it. -/
def RingGeometry.OnGrid (g : RingGeometry) (offset : ℕ) : Prop :=
  ∃ j, offset = g.entry + j * g.fullSize

/-- End of the last segment. -/
def RingGeometry.ringEnd (g : RingGeometry) : ℕ := g.entry + g.segments * g.fullSize

theorem RingGeometry.OnGrid.exists_slot_iff {g : RingGeometry} {offset : ℕ}
    (h : g.OnGrid offset) : (∃ i < g.segments, offset = g.slot i) ↔ offset < g.ringEnd := by
  have hsize : 0 < g.fullSize := by
    unfold fullSize segmentHeaderSize
    omega
  obtain ⟨j, rfl⟩ := h
  unfold ringEnd
  constructor
  · rintro ⟨i, hi, heq⟩
    have hend := g.slot_add_fullSize_le i
    omega
  · intro hlt
    have hj : j < g.segments := Nat.lt_of_mul_lt_mul_right (show j * g.fullSize < _ by omega)
    exact ⟨j, hj, by rw [slot, Nat.mod_eq_of_lt hj]⟩

namespace BufferWriterLat

open Schedule

variable {g : RingGeometry} {w w' : BufferWriterLat} {a : LatMove}

/-- The offsets lie on the grid of the ring. None is recorded before the first append returns. -/
structure Placed (g : RingGeometry) (w : BufferWriterLat) : Prop where
  entry : w.entrySegmentOffset = g.entry
  segments : w.segmentsPerWriter = g.segments
  size : w.segmentSizes = g.segmentSize
  current : g.OnGrid w.currentSegmentOffset
  next : g.OnGrid w.nextSegmentOffset
  last : w.written ≠ 0 → g.OnGrid w.lastSegmentOffset
  unset : w.written = 0 → w.lastSegmentOffset = 0

theorem placed_init (g : RingGeometry) (internalBufferSize : ℕ) (calls : List LatCall) :
    Placed g (init g.entry g.segments g.segmentSize internalBufferSize calls) where
  entry := rfl
  segments := rfl
  size := rfl
  current := ⟨0, by simp [init]⟩
  next := ⟨1, by simp [init, RingGeometry.fullSize, Nat.add_assoc]⟩
  last h := absurd rfl h
  unset _ := rfl

theorem Placed.nextSegment (h : Placed g w) : g.OnGrid w.nextSegment.2 := by
  unfold BufferWriterLat.nextSegment
  split_ifs
  · exact ⟨0, by simp [h.entry]⟩
  · obtain ⟨j, hj⟩ := h.current
    refine ⟨j + 1, ?_⟩
    simp only [hj, h.size, RingGeometry.fullSize]
    ring

theorem Placed.move (h : Placed g w) (hmove : w.move a = some w') : Placed g w' := by
  rcases move_cases hmove with ⟨message, -, ⟨-, rfl⟩ | ⟨-, rfl⟩⟩ | ⟨signaled, -, -, rfl⟩ |
    ⟨hstays, -⟩
  · exact ⟨h.entry, h.segments, h.size, h.current, h.nextSegment, h.last, h.unset⟩
  · exact ⟨h.entry, h.segments, h.size, h.current, h.nextSegment, h.last, h.unset⟩
  · exact ⟨h.entry, h.segments, h.size, h.next, h.next, fun _ => h.current, by simp [advance]⟩
  · constructor
    · rw [hstays.entrySegmentOffset, h.entry]
    · rw [hstays.segmentsPerWriter, h.segments]
    · rw [hstays.segmentSizes, h.size]
    · rw [hstays.currentSegmentOffset]
      exact h.current
    · rw [hstays.nextSegmentOffset]
      exact h.next
    · rw [hstays.written, hstays.lastSegmentOffset]
      exact h.last
    · rw [hstays.written, hstays.lastSegmentOffset]
      exact h.unset

/-- Offsets and index as long as no operation has failed: segments are taken in turn. -/
structure InTurn (g : RingGeometry) (w : BufferWriterLat) : Prop where
  placed : Placed g w
  current : w.currentSegmentOffset = g.slot w.written
  next : w.pc.isWritten = true → w.nextSegmentOffset = g.slot (w.written + 1)
  index : w.segmentIndex = (w.written + if w.pc.isWritten then 1 else 0) % g.segments
  last : w.written ≠ 0 → w.lastSegmentOffset = g.slot (w.written - 1)
  count : w.appended.length = w.written + w.pc.running

theorem inTurn_init (g : RingGeometry) (internalBufferSize : ℕ) (calls : List LatCall) :
    InTurn g (init g.entry g.segments g.segmentSize internalBufferSize calls) where
  placed := placed_init g internalBufferSize calls
  current := g.slot_zero.symm
  next h := by cases h
  index := by simp [init, LatPc.isWritten]
  last h := absurd rfl h
  count := rfl

theorem InTurn.nextSegment (h : InTurn g w) (hpc : w.pc.isWritten = false) :
    w.nextSegment = ((w.written + 1) % g.segments, g.slot (w.written + 1)) := by
  have hindex := h.index
  simp only [hpc, Bool.false_eq_true, if_false, Nat.add_zero] at hindex
  unfold BufferWriterLat.nextSegment
  rw [g.succ_mod, g.slot_succ, hindex, h.current, h.placed.segments, h.placed.entry,
    h.placed.size]
  split_ifs
  · rfl
  · rw [RingGeometry.fullSize, Nat.add_assoc]

theorem InTurn.move (h : InTurn g w) (hsucceeds : a ≠ .fail) (hmove : w.move a = some w') :
    InTurn g w' := by
  have hplaced := h.placed.move hmove
  rcases move_cases hmove with ⟨message, hpc, ⟨-, rfl⟩ | ⟨hfail, -⟩⟩ | ⟨signaled, hpc, -, rfl⟩ |
    ⟨hstays, -⟩
  · have hnext := h.nextSegment (by simp [hpc, LatPc.isWritten])
    have hcount := h.count
    rw [hpc] at hcount
    exact ⟨hplaced, h.current, fun _ => by simp [writeMessage, hnext],
      by simp [writeMessage, hnext, LatPc.isWritten], h.last, hcount⟩
  · exact absurd hfail hsucceeds
  · have hindex := h.index
    have hcount := h.count
    simp only [hpc, LatPc.isWritten, if_true, LatPc.running] at hindex hcount
    refine ⟨hplaced, h.next (by simp [hpc, LatPc.isWritten]), by simp [advance, LatPc.isWritten],
      by simpa [advance, LatPc.isWritten] using hindex, fun _ => ?_, ?_⟩
    · simpa [advance] using h.current
    · simpa [advance, LatPc.running] using hcount
  · have hphase := hstays.phase hsucceeds
    have hrunning := hstays.count hsucceeds
    have hcount := h.count
    refine ⟨hplaced, ?_, ?_, ?_, ?_, ?_⟩
    · rw [hstays.currentSegmentOffset, hstays.written, h.current]
    · rw [hphase, hstays.nextSegmentOffset, hstays.written]
      exact h.next
    · rw [hphase, hstays.segmentIndex, hstays.written, h.index]
    · rw [hstays.written, hstays.lastSegmentOffset]
      exact h.last
    · rw [hstays.written]
      omega

/-- A message that a move posts lies within the header and the data of the segment at the
current offset, and that is a segment of the ring. -/
def WritesInSegment (g : RingGeometry) (w : BufferWriterLat) (a : LatMove) : Prop :=
  ∀ w', w.move a = some w' → ∀ remote src bytes, .write remote src bytes ∈ w.posted w' →
    remote = w.currentSegmentOffset ∧ (∃ i < g.segments, remote = g.slot i) ∧
      bytes.length ≤ g.fullSize

/-- The append that posts has a message for one segment, and stands at a segment of the ring. -/
def FitsSegment (g : RingGeometry) (w : BufferWriterLat) (a : LatMove) : Prop :=
  ∀ message, w.pc = .write message → a = .step →
    message.data.length ≤ g.segmentSize ∧ w.currentSegmentOffset < g.ringEnd

theorem writesInSegment_iff (h : Placed g w) (hmove : w.move a = some w') :
    WritesInSegment g w a ↔ FitsSegment g w a := by
  have honly : WritesInSegment g w a ↔ ∀ remote src bytes,
      .write remote src bytes ∈ w.posted w' → remote = w.currentSegmentOffset ∧
        (∃ i < g.segments, remote = g.slot i) ∧ bytes.length ≤ g.fullSize := by
    constructor
    · intro hwrites
      exact hwrites w' hmove
    · rintro hwrites w'' hmove'
      cases hmove.symm.trans hmove'
      exact hwrites
  rw [honly]
  rcases move_cases hmove with ⟨message, hpc, ⟨rfl, rfl⟩ | ⟨rfl, rfl⟩⟩ | ⟨signaled, hpc, rfl, rfl⟩ |
    ⟨hstays, hnot⟩
  · obtain ⟨src, bytes, hposted, hlength⟩ := w.posted_writeMessage message
    have hfits : FitsSegment g w .step ↔
        message.data.length ≤ g.segmentSize ∧ w.currentSegmentOffset < g.ringEnd := by
      constructor
      · intro hfits
        exact hfits message hpc rfl
      · intro hfits message' hpc' _
        cases hpc.symm.trans hpc'
        exact hfits
    rw [hfits, hposted, ← h.current.exists_slot_iff]
    simp only [List.mem_singleton, LatOp.write.injEq]
    constructor
    · intro hwrites
      obtain ⟨-, hslot, hle⟩ := hwrites _ _ _ ⟨rfl, rfl, rfl⟩
      rw [hlength, RingGeometry.fullSize] at hle
      exact ⟨by omega, hslot⟩
    · rintro ⟨hle, hslot⟩ remote src' bytes' ⟨rfl, -, rfl⟩
      refine ⟨rfl, hslot, ?_⟩
      rw [hlength, RingGeometry.fullSize]
      omega
  · rw [posted_refuse]
    exact iff_of_true (by simp) (by simp [FitsSegment])
  · rw [posted_advance]
    exact iff_of_true (by simp) (by simp [FitsSegment, hpc])
  · refine iff_of_true (fun remote src bytes hmem => ?_) ?_
    · exact absurd (hstays.noMessage _ hmem) (by simp [LatOp.isWrite])
    · intro message hpc hstep
      exact absurd hstep (hnot message hpc).1

/-- Each append stays in its segment exactly when its message is no longer than one and no
failed write has let the offsets run past the ring. -/
theorem append_in_segment_iff (g : RingGeometry) (internalBufferSize : ℕ) (calls : List LatCall)
    (moves : List LatMove) :
    EachStep move (WritesInSegment g)
        (init g.entry g.segments g.segmentSize internalBufferSize calls) moves ↔
      EachStep move (FitsSegment g)
        (init g.entry g.segments g.segmentSize internalBufferSize calls) moves :=
  eachStep_congr (I := Placed g) (fun _ _ _ h _ hmove => h.move hmove)
    (fun _ _ _ h hmove => writesInSegment_iff h hmove) moves _
    (placed_init g internalBufferSize calls)

/-- Two segments of one byte. -/
def shortRing : RingGeometry := ⟨8, 2, 1, Nat.two_pos, by decide⟩

/-- A message of two bytes for segments of one. -/
theorem long_message_spills :
    ¬ EachStep move (WritesInSegment shortRing) (init 8 2 1 64 [.append ⟨[1, 2], [], false⟩])
      (constructMoves 2 ++ [.step, .step, .step]) := by
  intro h
  have hstep := h (constructMoves 2 ++ [.step, .step]) .step _ _ (List.prefix_refl _) rfl rfl
  obtain ⟨-, -, hle⟩ := hstep _ rfl 8 0 _ (List.mem_singleton_self _)
  exact absurd hle (by decide)

/-- Without failed operations the offset is always that of a segment of the ring. -/
theorem InTurn.current_lt (h : InTurn g w) : w.currentSegmentOffset < g.ringEnd := by
  have hend := g.slot_add_fullSize_le w.written
  rw [h.current]
  unfold RingGeometry.ringEnd
  unfold RingGeometry.fullSize segmentHeaderSize at hend ⊢
  omega

/-- Without failed operations the lengths of the messages alone decide. -/
theorem append_in_segment_of_no_failure (g : RingGeometry) (internalBufferSize : ℕ)
    (calls : List LatCall) (moves : List LatMove) (hmoves : ∀ a ∈ moves, a ≠ .fail) :
    EachStep move (WritesInSegment g)
        (init g.entry g.segments g.segmentSize internalBufferSize calls) moves ↔
      EachStep move (fun w a => ∀ message, w.pc = .write message → a = .step →
          message.data.length ≤ g.segmentSize)
        (init g.entry g.segments g.segmentSize internalBufferSize calls) moves := by
  refine eachStep_congr_of_forall (I := InTurn g) (L := fun a => a ≠ .fail)
    (fun _ _ _ h ha _ hmove => h.move ha hmove) (fun w a w' h _ hmove => ?_) moves _ hmoves
    (inTurn_init g internalBufferSize calls)
  rw [writesInSegment_iff h.placed hmove]
  constructor
  · intro hfits message hpc hstep
    exact (hfits message hpc hstep).1
  · intro hshort message hpc hstep
    exact ⟨hshort message hpc hstep, h.current_lt⟩

/-- The header that `close` posts goes to the header of a segment of the ring, and no byte
outside the ring changes with it. -/
def ClosesInRing (g : RingGeometry) (w : BufferWriterLat) (a : LatMove) : Prop :=
  ∀ w', w.move a = some w' → ∀ remote, .writeHeader remote ∈ w.posted w' →
    (∃ i < g.segments, remote = g.slot i) ∧
      ∀ m header x, x < g.entry ∨ g.ringEnd ≤ x → writeHeader m remote header x = m x

/-- Some append has returned true before `close`, and the last one of these has not written
past the ring. -/
def AppendedInRing (g : RingGeometry) (w : BufferWriterLat) (a : LatMove) : Prop :=
  w.Closes a → w.written ≠ 0 ∧ w.lastSegmentOffset < g.ringEnd

instance (g : RingGeometry) (w : BufferWriterLat) (a : LatMove) :
    Decidable (AppendedInRing g w a) :=
  inferInstanceAs (Decidable (w.Closes a → _))

/-- A header in a segment of the ring touches nothing outside. -/
theorem writeHeader_slot_outside (g : RingGeometry) (i : ℕ) (m : Mem) (header : SegmentHeader)
    {x : ℕ} (hx : x < g.entry ∨ g.ringEnd ≤ x) : writeHeader m (g.slot i) header x = m x := by
  have hstart := g.le_slot i
  have hend := g.slot_add_fullSize_le i
  unfold RingGeometry.ringEnd at hx
  have hagree : AgreeOn (writeHeader m (g.slot i) header) m x 1 := by
    apply agreeOn_writeHeader
    unfold RingGeometry.fullSize at hend hx
    omega
  exact hagree x le_rfl (Nat.lt_succ_self x)

theorem closesInRing_iff (hentry : 8 ≤ g.entry) (h : Placed g w) (hmove : w.move a = some w') :
    ClosesInRing g w a ↔ AppendedInRing g w a := by
  constructor
  · intro hring hcloses
    have hposted := (hcloses.posted hmove).1
    obtain ⟨hslot, -⟩ := hring w' hmove w.lastSegmentOffset (by simp [hposted])
    have hwritten : w.written ≠ 0 := by
      intro hzero
      obtain ⟨i, -, hi⟩ := hslot
      have hle := g.le_slot i
      have hunset := h.unset hzero
      omega
    exact ⟨hwritten, (h.last hwritten).exists_slot_iff.mp hslot⟩
  · intro happended w'' hmove' remote hmem
    obtain ⟨rfl, hcloses⟩ := closes_of_posted hmove' hmem
    obtain ⟨hwritten, hlt⟩ := happended hcloses
    obtain ⟨i, hi, hslot⟩ := (h.last hwritten).exists_slot_iff.mpr hlt
    refine ⟨⟨i, hi, hslot⟩, fun m header x hx => ?_⟩
    rw [hslot]
    exact writeHeader_slot_outside g i m header hx

/-- The header that `close` posts goes to the segment appended to last, or to the entry
segment, and no byte outside the ring changes with it. -/
def ClosesLastSegment (g : RingGeometry) (w : BufferWriterLat) (a : LatMove) : Prop :=
  ∀ w', w.move a = some w' → ∀ remote, .writeHeader remote ∈ w.posted w' →
    remote = g.slot (w.appended.length - 1) ∧
      ∀ m header x, x < g.entry ∨ g.ringEnd ≤ x → writeHeader m remote header x = m x

/-- Something has been appended before `close`. -/
def AppendedBefore (w : BufferWriterLat) (a : LatMove) : Prop := w.Closes a → w.appended ≠ []

instance (w : BufferWriterLat) (a : LatMove) : Decidable (AppendedBefore w a) :=
  inferInstanceAs (Decidable (w.Closes a → _))

theorem closesLastSegment_iff (hentry : 8 ≤ g.entry) (h : InTurn g w)
    (hmove : w.move a = some w') : ClosesLastSegment g w a ↔ AppendedBefore w a := by
  have hcount := h.count
  constructor
  · intro hlast hcloses hnil
    obtain ⟨hposted, hrunning⟩ := hcloses.posted hmove
    obtain ⟨hslot, -⟩ := hlast w' hmove w.lastSegmentOffset (by simp [hposted])
    have hle := g.le_slot (w.appended.length - 1)
    have hzero : w.written = 0 := by
      rw [hnil, hrunning] at hcount
      simpa using hcount.symm
    have hunset := h.placed.unset hzero
    omega
  · intro happended w'' hmove' remote hmem
    obtain ⟨rfl, hcloses⟩ := closes_of_posted hmove' hmem
    have hwritten : w.appended.length = w.written := by
      rw [hcount, (hcloses.posted hmove).2, Nat.add_zero]
    have hne : w.written ≠ 0 := by
      rw [← hwritten]
      exact List.length_eq_zero_iff.not.mpr (happended hcloses)
    rw [hwritten, h.last hne]
    exact ⟨rfl, fun m header x hx => writeHeader_slot_outside g _ m header hx⟩

/-- A `close` stays in the ring exactly when an append has returned true before it and the last
of these has not written past the ring. Without failed operations it reaches the segment
appended to last exactly when there is one. -/
theorem close_in_ring_iff (g : RingGeometry) (hentry : 8 ≤ g.entry) (internalBufferSize : ℕ)
    (calls : List LatCall) (moves : List LatMove) :
    (EachStep move (ClosesInRing g)
        (init g.entry g.segments g.segmentSize internalBufferSize calls) moves ↔
      EachStep move (AppendedInRing g)
        (init g.entry g.segments g.segmentSize internalBufferSize calls) moves) ∧
    ((∀ a ∈ moves, a ≠ .fail) →
      (EachStep move (ClosesLastSegment g)
          (init g.entry g.segments g.segmentSize internalBufferSize calls) moves ↔
        EachStep move AppendedBefore
          (init g.entry g.segments g.segmentSize internalBufferSize calls) moves)) := by
  constructor
  · exact eachStep_congr (I := Placed g) (fun _ _ _ h _ hmove => h.move hmove)
      (fun _ _ _ h hmove => closesInRing_iff hentry h hmove) moves _
      (placed_init g internalBufferSize calls)
  · intro hmoves
    exact eachStep_congr_of_forall (I := InTurn g) (L := fun a => a ≠ .fail)
      (fun _ _ _ h ha _ hmove => h.move ha hmove)
      (fun _ _ _ h _ hmove => closesLastSegment_iff hentry h hmove) moves _ hmoves
      (inTurn_init g internalBufferSize calls)

theorem close_in_ring_after_append :
    EachStep move (ClosesInRing shortRing) (init 8 2 1 64 [.append ⟨[7], [], false⟩, .close])
        (constructMoves 2 ++ [.step, .step, .step, .step, .step]) ∧
      EachStep move (ClosesLastSegment shortRing)
        (init 8 2 1 64 [.append ⟨[7], [], false⟩, .close])
        (constructMoves 2 ++ [.step, .step, .step, .step, .step]) := by
  obtain ⟨hring, hlast⟩ := close_in_ring_iff shortRing (by decide) 64
    [.append ⟨[7], [], false⟩, .close] (constructMoves 2 ++ [.step, .step, .step, .step, .step])
  refine ⟨hring.mpr ?_, (hlast ?_).mpr ?_⟩
  · decide
  · simp [constructMoves]
  · decide

/-- The header of a writer that has appended nothing goes to offset 0, in front of the ring. -/
theorem close_without_append :
    ¬ EachStep move (ClosesInRing shortRing) (init 8 2 1 64 [.close])
      (constructMoves 2 ++ [.step]) := by
  intro h
  have hstep := h (constructMoves 2) .step _ _ (List.prefix_refl _) rfl rfl
  obtain ⟨⟨i, hi, hslot⟩, -⟩ := hstep _ rfl 0 (List.mem_singleton_self _)
  have hle := shortRing.le_slot i
  rw [← hslot] at hle
  exact absurd hle (by decide)

end BufferWriterLat
end DpiLibrary
