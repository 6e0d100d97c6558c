import DpiLibrary.Dpi.TornSimulation

/-!
# The iterator among torn writes

What the iterator reads of a segment is there in both systems, but for two things: the
flags of a message are visible before its payload, and a size may be read that the
closing header is just replacing. As long as the flags are not tested too early, the
iterator takes the same steps.
-/

namespace DpiLibrary

variable {k : ℕ}

open BufferWriterLat RingSystem

/-- The next segment is not tested while its flags are visible and its payload is not. -/
def TornSystem.PayloadArrived (t : TornSystem k) (label : RingLabel k) : Prop :=
  label = .iterator .run → t.iterator.pc = .testConsumable →
    ∀ h ∈ t.iterator.segmentIterators.get?, ∀ write ∈ (t.writers h.ring).underWay,
      write.1 = h.iter → t.visible h.ring ≤ 16 ∨ write.2.length ≤ segmentHeaderSize

instance (t : TornSystem k) (label : RingLabel k) : Decidable (t.PayloadArrived label) :=
  inferInstanceAs (Decidable (_ → _ → _))

section

variable {b : BufferRings k} {messages : Fin k → List Message} {t : TornSystem k}
  {s : RingSystem BufferWriterLat k} {a : BufferState b} {r : Fin k} {j start len : ℕ}

/-- A write without effect is in the slot behind the blocks sent, or it is the closing header
and in the slot of the last one. -/
theorem Sim.pending_slot (hsim : Sim b t s) (ha : LatencyRefines messages s a) {x : ℕ}
    (hx : Writes (t.pending r) x) :
    ∃ j bytes, (a.ring r).released ≤ j ∧ j < (a.ring r).released + (b.ring r).segments ∧
      (t.writers r).underWay = some ((b.ring r).slot j, bytes) ∧ t.visible r < landing bytes ∧
      (b.ring r).slot j ≤ x ∧ x < (b.ring r).slot j + t.visible r ∧
      x < (b.ring r).slot j + (b.ring r).fullSize ∧
      (j = (a.ring r).sent.length ∨ j + 1 = (a.ring r).sent.length ∧
        (t.writers r).queue.head? = some (.writeHeader ((b.ring r).slot j)) ∧
        bytes =
          SegmentHeader.encode ⟨(b.ring r).segmentSize, (b.ring r).slot (j + 1), 0b0110⟩) := by
  obtain ⟨remote, bytes, hunder, hlt, hlo, hhi⟩ := writes_pending hx
  have harriving := hsim.arriving ha hunder hlt
  obtain ⟨hlen, hfull, -, -⟩ := harriving.bounds
  have hlanding := landing_le hlen
  cases harriving with
  | message data hroom hsize =>
    have hle := (a.ring r).released_le.trans (a.ring r).returned_le_sent
    exact ⟨_, _, hle, hroom, hunder, hlt, hlo, hhi, by omega, Or.inl rfl⟩
  | closing hsent hhead =>
    have hpos := List.length_pos_of_ne_nil hsent
    have hlast : (a.ring r).sent.length - 1 + 1 = (a.ring r).sent.length := Nat.sub_add_cancel hpos
    have hreleased := (a.ring r).released_lt_sent hsent
    have hbound := (a.ring r).sent_le
    refine ⟨_, _, by omega, by omega, hunder, hlt, hlo, hhi, by omega, Or.inr ⟨hlast, hhead, ?_⟩⟩
    rw [hlast]

/-- The memories agree on a segment that has been sent, but for the size and the offset of the
next segment in the last one. -/
theorem Sim.agree_slot (hsim : Sim b t s) (ha : LatencyRefines messages s a)
    (htype : b.type = .lat) (hlo : (a.ring r).released ≤ j) (hsent : j < (a.ring r).sent.length)
    (hstart : (b.ring r).slot j ≤ start)
    (hend : start + len ≤ (b.ring r).slot j + (b.ring r).fullSize)
    (hflags : j + 1 < (a.ring r).sent.length ∨ (b.ring r).slot j + 16 ≤ start) :
    AgreeOn t.mem s.mem start len := by
  have hle := (b.ring r).le_slot j
  have hslot := (b.ring r).slot_add_fullSize_le j
  have hbound := (a.ring r).sent_le
  apply hsim.agree (r := r) ha htype (by omega) (by omega)
  intro x hx
  obtain ⟨j', bytes, hlo', hhi', -, hlt, hx', hxv, hxf, hcase⟩ := hsim.pending_slot ha hx
  by_cases hj : j' = j
  · subst hj
    rcases hcase with hnext | ⟨hlast, -, rfl⟩
    · omega
    · rw [landing_encode] at hlt
      omega
  · have hapart := (b.ring r).slots_apart (a.ring r).released ⟨hlo', hhi'⟩ ⟨hlo, by omega⟩ hj
    omega

/-- The flags of the next segment, if its message does not stand between flags and payload. -/
theorem Sim.agree_next (hsim : Sim b t s) (ha : LatencyRefines messages s a)
    (htype : b.type = .lat)
    (hwindow : (a.ring r).returned < (a.ring r).released + (b.ring r).segments)
    (hwhole : ∀ write ∈ (t.writers r).underWay,
      write.1 = (b.ring r).slot (a.ring r).returned →
        t.visible r ≤ 16 ∨ write.2.length ≤ segmentHeaderSize) :
    AgreeOn t.mem s.mem ((b.ring r).slot (a.ring r).returned + 16) 8 := by
  have hle := (b.ring r).le_slot (a.ring r).returned
  have hslot := (b.ring r).slot_add_fullSize_le (a.ring r).returned
  have hfull : (b.ring r).fullSize = (b.ring r).segmentSize + 24 := rfl
  apply hsim.agree (r := r) ha htype (by omega) (by omega)
  intro x hx
  obtain ⟨j', bytes, hlo', hhi', hunder, hlt, hx', hxv, hxf, -⟩ := hsim.pending_slot ha hx
  by_cases hj : j' = (a.ring r).returned
  · subst hj
    have hvisible : t.visible r ≤ 16 := by
      rcases hwhole (_, bytes) hunder rfl with hearly | hempty
      · exact hearly
      · unfold landing at hlt
        rw [if_pos hempty] at hlt
        omega
    omega
  · have hapart := (b.ring r).slots_apart (a.ring r).released ⟨hlo', hhi'⟩
      ⟨(a.ring r).released_le, hwindow⟩ hj
    omega

/-- A write to a segment that is not the last one sent. -/
theorem Sim.write_slot (hsim : Sim b t s) (ha : LatencyRefines messages s a)
    (htype : b.type = .lat) (hlo : (a.ring r).released ≤ j)
    (hsent : j + 1 < (a.ring r).sent.length) (w : ℕ × List UInt8)
    (hstart : (b.ring r).slot j ≤ w.1)
    (hend : w.1 + w.2.length ≤ (b.ring r).slot j + (b.ring r).fullSize) :
    PartlyWritten t.pending (writeBytes t.mem w.1 w.2) (writeBytes s.mem w.1 w.2) := by
  have hle := (b.ring r).le_slot j
  have hslot := (b.ring r).slot_add_fullSize_le j
  have hbound := (a.ring r).sent_le
  apply hsim.mem.write w
  intro r' x hx hin
  obtain ⟨hxlo, hxhi⟩ := hin
  by_cases hr : r' = r
  · subst hr
    obtain ⟨j', bytes, hlo', hhi', -, -, hx', -, hxf, hcase⟩ := hsim.pending_slot ha hx
    have hapart := (b.ring r').slots_apart (a.ring r').released ⟨hlo', hhi'⟩ ⟨hlo, by omega⟩
      (by omega)
    omega
  · exact hsim.not_writes ha htype (by omega) (by omega) r' hr hx

/-- A byte of the size or of the next offset is as before, or it comes from the closing header. -/
theorem Sim.header_byte (hsim : Sim b t s) (ha : LatencyRefines messages s a)
    (htype : b.type = .lat) (hlo : (a.ring r).released ≤ j) (hsent : j < (a.ring r).sent.length)
    {i : ℕ} (hi : i < 16) :
    t.mem ((b.ring r).slot j + i) = s.mem ((b.ring r).slot j + i) ∨
      i < t.visible r ∧ j + 1 = ((messages r).map Message.data).length ∧
        (t.writers r).queue.head? = some (.writeHeader ((b.ring r).slot j)) ∧
        (SegmentHeader.encode ⟨(b.ring r).segmentSize, (b.ring r).slot (j + 1), 0b0110⟩)[i]? =
          some (t.mem ((b.ring r).slot j + i)) := by
  by_cases hx : Writes (t.pending r) ((b.ring r).slot j + i)
  · obtain ⟨j', bytes, hlo', hhi', hunder, hlt, hx', hxv, hxf, hcase⟩ := hsim.pending_slot ha hx
    have hbound := (a.ring r).sent_le
    have hfull : (b.ring r).fullSize = (b.ring r).segmentSize + 24 := rfl
    by_cases hj : j' = j
    · subst hj
      rcases hcase with hnext | ⟨hlast, hhead, rfl⟩
      · omega
      · have hinv := ha.1.writer r
        rw [hsim.writers r, settled_of_lt hunder hlt] at hinv
        obtain ⟨queue, hqueue⟩ := List.head?_eq_some_iff.mp hhead
        refine Or.inr ⟨by omega, by rw [hlast, (hinv.closing hqueue).2], hhead, ?_⟩
        have harrived := hsim.mem.arrived r _ hx
        rw [TornSystem.pending, pending_of_lt hunder hlt, Nat.add_sub_cancel_left,
          List.getElem?_take_of_lt (by omega)] at harrived
        exact harrived
    · have hapart := (b.ring r).slots_apart (a.ring r).released ⟨hlo', hhi'⟩ ⟨hlo, by omega⟩ hj
      omega
  · have hle := (b.ring r).le_slot j
    have hslot := (b.ring r).slot_add_fullSize_le j
    have hfull : (b.ring r).fullSize = (b.ring r).segmentSize + 24 := rfl
    refine Or.inl (hsim.mem.rest _ fun r' hx' => ?_)
    by_cases hr : r' = r
    · subst hr
      exact hx hx'
    · exact hsim.not_writes ha htype (by omega) (by omega) r' hr hx'

/-- The closing header has the same next segment as the header it replaces. -/
theorem Sim.next_word (hsim : Sim b t s) (ha : LatencyRefines messages s a)
    (htype : b.type = .lat) (hlo : (a.ring r).released ≤ j) (hsent : j < (a.ring r).sent.length)
    (hword : readWord s.mem ((b.ring r).slot j + 8) = (b.ring r).slot (j + 1)) :
    readWord t.mem ((b.ring r).slot j + 8) = readWord s.mem ((b.ring r).slot j + 8) := by
  rw [hword]
  apply readWord_of_getElem? ((b.ring r).slot_lt (j + 1))
  intro i hi
  rw [Nat.add_assoc]
  rcases hsim.header_byte ha htype hlo hsent (show 8 + i < 16 by omega) with
    hsame | ⟨-, -, -, hbyte⟩
  · have hold := getElem?_encodeLE_readWord s.mem ((b.ring r).slot j + 8) hi
    rw [hword, Nat.add_assoc] at hold
    rw [hsame]
    exact hold
  · have hencode := SegmentHeader.getElem?_encode_next
      ⟨(b.ring r).segmentSize, (b.ring r).slot (j + 1), 0b0110⟩ [] hi
    rw [List.append_nil] at hencode
    rw [← hbyte]
    exact hencode.symm

/-- The flags of the segment left last. -/
theorem Sim.prevFlags (hsim : Sim b t s) (ha : LatencyRefines messages s a) (htype : b.type = .lat)
    {y : IterHelper k} (hhelper : HelperInv b.type (a.ring y.ring) y)
    (hrel : (a.ring y.ring).released = (a.ring y.ring).returned - 1) :
    (y.prevHeader t.mem).segmentFlags = (y.prevHeader s.mem).segmentFlags := by
  cases hprev : y.prev with
  | none => simp only [IterHelper.prevHeader, hprev]
  | some off =>
    obtain ⟨hheld, rfl⟩ := hhelper.prev_held hrel hprev
    have hle := (a.ring y.ring).returned_le_sent
    have hfull : (b.ring y.ring).fullSize = (b.ring y.ring).segmentSize + 24 := rfl
    have hagree : AgreeOn t.mem s.mem ((b.ring y.ring).slot (a.ring y.ring).released + 16) 8 :=
      hsim.agree_slot ha htype le_rfl (by omega) (by omega) (by omega) (Or.inr le_rfl)
    simp only [IterHelper.prevHeader, hprev, readHeader, hagree.readWord]

theorem Sim.prev_isEndSegment (hsim : Sim b t s) (ha : LatencyRefines messages s a)
    (htype : b.type = .lat) {y : IterHelper k} (hhelper : HelperInv b.type (a.ring y.ring) y)
    (hrel : (a.ring y.ring).released = (a.ring y.ring).returned - 1) :
    (y.prevHeader t.mem).isEndSegment = (y.prevHeader s.mem).isEndSegment := by
  unfold SegmentHeader.isEndSegment
  rw [hsim.prevFlags ha htype hhelper hrel]

/-- A write to the segment held, while there is another one to take. -/
theorem Sim.prev_write (hsim : Sim b t s) (ha : LatencyRefines messages s a)
    (htype : b.type = .lat) {y : IterHelper k} (hhelper : HelperInv b.type (a.ring y.ring) y)
    (hrel : (a.ring y.ring).released = (a.ring y.ring).returned - 1)
    (hsent : (a.ring y.ring).returned < (a.ring y.ring).sent.length) {off : ℕ}
    (hprev : y.prev = some off) :
    readHeader t.mem off = readHeader s.mem off ∧ ∀ start x, off ≤ start →
      start + 8 ≤ off + segmentHeaderSize →
        PartlyWritten t.pending (writeWord t.mem start x) (writeWord s.mem start x) := by
  obtain ⟨hheld, rfl⟩ := hhelper.prev_held hrel hprev
  have hfull : (b.ring y.ring).fullSize = (b.ring y.ring).segmentSize + segmentHeaderSize := rfl
  have hagree : AgreeOn t.mem s.mem ((b.ring y.ring).slot (a.ring y.ring).released)
      segmentHeaderSize :=
    hsim.agree_slot ha htype le_rfl (by omega) le_rfl (by omega) (Or.inl (by omega))
  refine ⟨hagree.readHeader, fun start x hlo hhi => ?_⟩
  refine hsim.write_slot ha htype le_rfl (by omega) (start, encodeLE 8 x) hlo ?_
  rw [length_encodeLE]
  omega

theorem Sim.setPrevCounter (hsim : Sim b t s) (ha : LatencyRefines messages s a)
    (htype : b.type = .lat) {y : IterHelper k} (hhelper : HelperInv b.type (a.ring y.ring) y)
    (hrel : (a.ring y.ring).released = (a.ring y.ring).returned - 1)
    (hsent : (a.ring y.ring).returned < (a.ring y.ring).sent.length) (counter : ℕ) :
    PartlyWritten t.pending (y.setPrevCounter t.mem counter).1 (y.setPrevCounter s.mem counter).1 ∧
      (y.setPrevCounter t.mem counter).2 = (y.setPrevCounter s.mem counter).2 := by
  cases hprev : y.prev with
  | none =>
    simp only [IterHelper.setPrevCounter, hprev]
    exact ⟨hsim.mem, trivial⟩
  | some off =>
    obtain ⟨-, hwrite⟩ := hsim.prev_write ha htype hhelper hrel hsent hprev
    simp only [IterHelper.setPrevCounter, hprev]
    exact ⟨hwrite off counter le_rfl (by unfold segmentHeaderSize; omega), trivial⟩

theorem Sim.modifyPrevFlags (hsim : Sim b t s) (ha : LatencyRefines messages s a)
    (htype : b.type = .lat) {y : IterHelper k} (hhelper : HelperInv b.type (a.ring y.ring) y)
    (hrel : (a.ring y.ring).released = (a.ring y.ring).returned - 1)
    (hsent : (a.ring y.ring).returned < (a.ring y.ring).sent.length)
    (f : SegmentHeader → SegmentHeader) :
    PartlyWritten t.pending (y.modifyPrevFlags t.mem f).1 (y.modifyPrevFlags s.mem f).1 ∧
      (y.modifyPrevFlags t.mem f).2 = (y.modifyPrevFlags s.mem f).2 := by
  cases hprev : y.prev with
  | none =>
    simp only [IterHelper.modifyPrevFlags, hprev]
    exact ⟨hsim.mem, trivial⟩
  | some off =>
    obtain ⟨hread, hwrite⟩ := hsim.prev_write ha htype hhelper hrel hsent hprev
    simp only [IterHelper.modifyPrevFlags, hprev, modifyFlagsAt, hread]
    exact ⟨hwrite (off + 16) _ (by omega) le_rfl, trivial⟩

/-- The counter of a ring is in front of its segments. -/
theorem Sim.counter (hsim : Sim b t s) (ha : LatencyRefines messages s a) (htype : b.type = .lat)
    (r : Fin k) :
    readWord t.mem ((b.ring r).entry - 8) = readWord s.mem ((b.ring r).entry - 8) ∧
      ∀ x, PartlyWritten t.pending (writeWord t.mem ((b.ring r).entry - 8) x)
        (writeWord s.mem ((b.ring r).entry - 8) x) := by
  have h8 := b.counter_le r htype
  have hout : ∀ r' x, Writes (t.pending r') x →
      x < (b.ring r).entry - 8 ∨ (b.ring r).entry ≤ x := by
    intro r' x hx
    by_cases hr : r' = r
    · subst hr
      exact Or.inr (hsim.pending_inside ha hx).1
    · by_contra hin
      exact hsim.not_writes ha htype (by omega) (by omega) r' hr hx
  refine ⟨(hsim.mem.agreeOn fun r' x hx => ?_).readWord,
    fun x => hsim.mem.write (_, encodeLE 8 x) fun r' y hy hin => ?_⟩
  · have := hout r' x hx
    omega
  · obtain ⟨hlo, hhi⟩ := hin
    have := hout r' y hy
    simp only [length_encodeLE] at hlo hhi
    omega

/-- `mark_prev_segment` does the same in both memories. -/
theorem Sim.markStep (hsim : Sim b t s) (ha : LatencyRefines messages s a) (htype : b.type = .lat)
    {bs as : List (IterHelper k)} {y : IterHelper k} {statement : MarkStep} {inNext : Bool}
    (hit : s.iterator = ⟨⟨bs, y :: as⟩, .mark statement inNext⟩) :
    PartlyWritten t.pending (s.iterator.markStep .lat t.mem y inNext statement).1
        (s.iterator.markStep .lat s.mem y inNext statement).1 ∧
      (s.iterator.markStep .lat t.mem y inNext statement).2 =
        (s.iterator.markStep .lat s.mem y inNext statement).2 := by
  have hinv := ha.1
  rw [hit] at hinv
  obtain ⟨hhelper, hphase, -, -⟩ := hinv.current
  have hrel : (a.ring y.ring).released = (a.ring y.ring).returned - 1 := by
    cases inNext <;> exact hphase.1
  have hflags := hsim.prevFlags ha htype hhelper hrel
  have hnext : statement ≠ .checkEnd →
      (a.ring y.ring).returned < (a.ring y.ring).sent.length := by
    intro hstatement
    cases inNext with
    | true => exact hphase.2.1
    | false => exact absurd hphase.2.1 hstatement
  cases statement with
  | checkEnd =>
    simp only [BufferIterator.markStep, hsim.prev_isEndSegment ha htype hhelper hrel]
    split <;> exact ⟨hsim.mem, rfl⟩
  | checkWriteable =>
    have hwriteable : (y.prevHeader t.mem).isWriteable = (y.prevHeader s.mem).isWriteable := by
      unfold SegmentHeader.isWriteable
      rw [hflags]
    simp only [BufferIterator.markStep, hwriteable]
    split <;> exact ⟨hsim.mem, rfl⟩
  | counter =>
    obtain ⟨hmem, hsame⟩ := hsim.setPrevCounter ha htype hhelper hrel (hnext (by simp)) 0
    simp only [BufferIterator.markStep, hsame]
    exact ⟨hmem, trivial⟩
  | consumable =>
    obtain ⟨hmem, hsame⟩ := hsim.modifyPrevFlags ha htype hhelper hrel (hnext (by simp))
      (SegmentHeader.setConsumable · false)
    simp only [BufferIterator.markStep, hsame]
    exact ⟨hmem, trivial⟩
  | writeable =>
    obtain ⟨hmem, hsame⟩ := hsim.modifyPrevFlags ha htype hhelper hrel (hnext (by simp))
      (SegmentHeader.setWriteable · true)
    simp only [BufferIterator.markStep, hsame]
    exact ⟨hmem, trivial⟩
  | credit =>
    obtain ⟨hread, hwrite⟩ := hsim.counter ha htype y.ring
    simp only [BufferIterator.markStep, hhelper.counterOffset htype, hread]
    exact ⟨hwrite _, trivial⟩

/-- The head of the loop of `has_next` looks at flags only. -/
theorem Sim.loopStep (hsim : Sim b t s) (ha : LatencyRefines messages s a) (htype : b.type = .lat)
    (hpc : s.iterator.pc = .loop) : s.iterator.loopStep t.mem = s.iterator.loopStep s.mem := by
  obtain ⟨c, hc, hlist⟩ : ∃ c, c = (if s.iterator.segmentIterators.atEnd then
      .start s.iterator.segmentIterators.toList else s.iterator.segmentIterators) ∧
      c.toList = s.iterator.segmentIterators.toList := by
    refine ⟨_, rfl, ?_⟩
    split_ifs <;> simp
  simp only [BufferIterator.loopStep, ← hc]
  cases hget : c.get? with
  | none => rfl
  | some y =>
    have hmem : y ∈ s.iterator.segmentIterators.toList := hlist ▸ Cursor.mem_toList_of_get? hget
    have hphase := ha.1.iterator.phase y hmem
    have hrel : (a.ring y.ring).released = (a.ring y.ring).returned - 1 := by
      unfold BufferIterator.pcAt at hphase
      rw [hpc] at hphase
      split at hphase
      · split_ifs at hphase <;> exact hphase
      · exact hphase
    simp only [hsim.prev_isEndSegment ha htype (ha.1.iterator.helper y hmem) hrel]

/-- Two outcomes of a step of the iterator that differ in the size read at most. -/
structure SameStep (p : Fin k → ℕ × List UInt8)
    (x x' : Mem × BufferIterator k × List (RingEvent k)) : Prop where
  mem : PartlyWritten p x.1 x'.1
  cursor : x.2.1.segmentIterators = x'.2.1.segmentIterators
  pc : SamePlace x.2.1.pc x'.2.1.pc
  count : ∀ r, (returnedBlocks x.2.2 r).length = (returnedBlocks x'.2.2 r).length

/-- The test of the next segment has the same result. -/
theorem Sim.testConsumable (hsim : Sim b t s) (ha : LatencyRefines messages s a)
    (htype : b.type = .lat) {bs as : List (IterHelper k)} {y : IterHelper k}
    (hit : s.iterator = ⟨⟨bs, y :: as⟩, .testConsumable⟩)
    (hwhole : ∀ write ∈ (t.writers y.ring).underWay, write.1 = y.iter →
      t.visible y.ring ≤ 16 ∨ write.2.length ≤ segmentHeaderSize) :
    (readHeader t.mem y.iter).isConsumable = (readHeader s.mem y.iter).isConsumable := by
  have hinv := ha.1
  rw [hit] at hinv
  obtain ⟨hhelper, ⟨-, hwindow⟩, -, -⟩ := hinv.current
  rw [hhelper.iter] at hwhole ⊢
  have hagree := hsim.agree_next ha htype hwindow hwhole
  unfold SegmentHeader.isConsumable readHeader
  rw [hagree.readWord]

/-- So does the step to the next segment. -/
theorem Sim.nextSegment (hsim : Sim b t s) (ha : LatencyRefines messages s a)
    (htype : b.type = .lat) {bs as : List (IterHelper k)} {y : IterHelper k} {size : ℕ}
    (hit : s.iterator = ⟨⟨bs, y :: as⟩, .advance size⟩) :
    (readHeader t.mem y.iter).nextSegmentOffset = (readHeader s.mem y.iter).nextSegmentOffset := by
  have hinv := ha.1
  rw [hit] at hinv
  obtain ⟨hhelper, ⟨hrel, hsent, -⟩, hshows, -⟩ := hinv.current
  have hbound := (a.ring y.ring).sent_le
  have hheader := hshows.header (a.ring y.ring).returned hrel.le (by omega)
  rw [RingGeometry.expectedHeader, if_pos hsent, if_neg (Nat.lt_irrefl _)] at hheader
  have hword := congrArg SegmentHeader.nextSegmentOffset hheader
  rw [RingGeometry.sentHeader_nextSegmentOffset] at hword
  rw [hhelper.iter]
  exact hsim.next_word ha htype hrel.le hsent hword

/-- Both iterators take the step, with the same outcome but for the size read. -/
theorem Sim.sameStep (hsim : Sim b t s) (ha : LatencyRefines messages s a) (htype : b.type = .lat)
    {action : IteratorAction} (hwhole : t.PayloadArrived (.iterator action))
    {x : Mem × BufferIterator k × List (RingEvent k)}
    (hstep : t.iterator.step .lat t.mem action = some x) :
    ∃ x', s.iterator.step .lat s.mem action = some x' ∧ SameStep t.pending x x' := by
  have hloop := hsim.loopStep ha htype
  obtain ⟨⟨⟨bs, as⟩, pc⟩, hit⟩ : ∃ it, t.iterator = it := ⟨_, rfl⟩
  obtain ⟨pc', hit', hplace⟩ := hsim.iterator_eq hit
  rw [hit'] at hloop ⊢
  rw [hit] at hstep
  cases action with
  | hasNext =>
    simp only [BufferIterator.step] at hstep ⊢
    split_ifs at hstep with hpc
    cases hstep
    cases hplace with
    | advance size size' => simp at hpc
    | refl =>
      rw [if_pos hpc]
      exact ⟨_, rfl, hsim.mem, rfl, .refl _, fun _ => rfl⟩
  | next =>
    cases hplace with
    | advance size size' => simp [BufferIterator.step] at hstep
    | refl =>
      cases as with
      | nil => cases pc <;> simp [BufferIterator.step] at hstep
      | cons y as =>
        cases pc with
        | ready =>
          cases hstep
          exact ⟨_, rfl, hsim.mem, rfl, .refl _, fun _ => rfl⟩
        | _ => simp [BufferIterator.step] at hstep
  | run =>
    cases hplace with
    | advance size size' =>
      cases as with
      | nil => simp [BufferIterator.step] at hstep
      | cons y as =>
        cases hstep
        refine ⟨_, rfl, hsim.mem, ?_, .refl _, fun r => ?_⟩
        · simp only [hsim.nextSegment ha htype hit']
        · simp only [returnedBlocks, List.filterMap_cons, List.filterMap_nil]
          split_ifs <;> rfl
    | refl =>
      cases pc with
      | loop =>
        simp only [BufferIterator.step, Option.some.injEq, hloop rfl] at hstep ⊢
        subst hstep
        exact ⟨_, rfl, hsim.mem, rfl, .refl _, fun _ => rfl⟩
      | idle => cases as <;> simp [BufferIterator.step] at hstep
      | ready => cases as <;> simp [BufferIterator.step] at hstep
      | testConsumable =>
        cases as with
        | nil => simp [BufferIterator.step] at hstep
        | cons y as =>
          have htest := hsim.testConsumable ha htype hit'
            (hwhole rfl (by rw [hit]) y (by rw [hit]; rfl))
          simp only [BufferIterator.step, Cursor.get?_cons, htest] at hstep ⊢
          split_ifs at hstep ⊢ <;> cases hstep <;>
            exact ⟨_, rfl, hsim.mem, rfl, .refl _, fun _ => rfl⟩
      | mark statement inNext =>
        cases as with
        | nil => simp [BufferIterator.step] at hstep
        | cons y as =>
          have hmark := hsim.markStep ha htype hit'
          rw [hit'] at hmark
          obtain ⟨hmem, hsame⟩ := hmark
          simp only [BufferIterator.step, Cursor.get?_cons, Option.some.injEq, hsame] at hstep ⊢
          subst hstep
          exact ⟨_, rfl, hmem, rfl, .refl _, fun _ => rfl⟩
      | erase =>
        cases as with
        | nil => simp [BufferIterator.step] at hstep
        | cons y as =>
          cases hstep
          exact ⟨_, rfl, hsim.mem, rfl, .refl _, fun _ => rfl⟩
      | getRawData =>
        cases as with
        | nil => simp [BufferIterator.step] at hstep
        | cons y as =>
          cases hstep
          exact ⟨_, rfl, hsim.mem, rfl, .advance _ _, fun _ => rfl⟩
      | advance size =>
        cases as with
        | nil => simp [BufferIterator.step] at hstep
        | cons y as =>
          cases hstep
          refine ⟨_, rfl, hsim.mem, ?_, .refl _, fun r => ?_⟩
          · simp only [hsim.nextSegment ha htype hit']
          · simp only [returnedBlocks, List.filterMap_cons, List.filterMap_nil]
            split_ifs <;> rfl

/-- The iterator takes the same steps. -/
theorem Sim.iterator_step (hsim : Sim b t s) (ha : LatencyRefines messages s a)
    (htype : b.type = .lat) {action : IteratorAction} {t' : TornSystem k}
    (hwhole : t.PayloadArrived (.iterator action)) (hstep : t.step (.iterator action) = some t') :
    ∃ s', s.step .lat machine (.iterator action) = some s' ∧ Sim b t' s' := by
  simp only [TornSystem.step, RingSystem.step, Option.map_map] at hstep
  obtain ⟨x, hx, rfl⟩ := Option.map_eq_some_iff.mp hstep
  obtain ⟨⟨m', it', events'⟩, hx', hsame⟩ := hsim.sameStep ha htype hwhole hx
  refine ⟨⟨m', s.writers, it', s.log ++ events'⟩, by simp only [RingSystem.step, hx']; rfl, ?_⟩
  refine ⟨hsim.writers, hsim.resting, hsim.late, hsame.mem, hsame.cursor, hsame.pc, fun r => ?_⟩
  show (returnedBlocks (t.log ++ x.2.2) r).length = (returnedBlocks (s.log ++ events') r).length
  rw [returnedBlocks_append, returnedBlocks_append, List.length_append, List.length_append,
    hsim.count r, hsame.count r]

/-- The credit counter of the segment marked is as far from its end in both memories. -/
theorem Sim.guarded (hsim : Sim b t s) (ha : LatencyRefines messages s a) (htype : b.type = .lat)
    {action : IteratorAction} (hguard : t.toRingSystem.Guarded CarriesPosted (.iterator action)) :
    s.Guarded CarriesPosted (.iterator action) := by
  intro hpc y hy
  have hpc' : t.iterator.pc = .mark .credit true := by
    have hplace := hsim.pc
    rw [hpc] at hplace
    generalize t.iterator.pc = pc at hplace ⊢
    cases hplace
    rfl
  have hmem := Cursor.mem_toList_of_get? (Option.mem_def.mp hy)
  rw [← hsim.cursor] at hy
  have hcredit := hguard hpc' y hy
  rw [(ha.1.iterator.helper y hmem).counterOffset htype] at hcredit ⊢
  rwa [← (hsim.counter ha htype y.ring).1]

/-- One step: whole writes follow the torn ones, and sizes read in time are kept. -/
theorem Sim.step (hsim : Sim b t s) (ha : LatencyRefines messages s a) (htype : b.type = .lat)
    (hsegments : ∀ r, 2 ≤ (b.ring r).segments) {label : RingLabel k} {t' : TornSystem k}
    (hguard : t.toRingSystem.Guarded CarriesPosted label) (hwhole : t.PayloadArrived label)
    (hstep : t.step label = some t') :
    ∃ s' a', Sim b t' s' ∧ LatencyRefines (b := b) messages s' a' := by
  have hrefines : ∀ label {s'}, s.Guarded CarriesPosted label →
      s.step .lat machine label = some s' → ∃ a', LatencyRefines (b := b) messages s' a' := by
    intro label s' hguarded hs
    rw [← htype] at hs
    have sim := latencySim htype (fun r => (messages r).map Message.data)
      fun r => Or.inl (hsegments r)
    obtain ⟨a', -, -, -, ha'⟩ := ha.step sim hguarded hs
    exact ⟨a', ha'⟩
  cases label with
  | writer r =>
    obtain ⟨s', hs, hsim'⟩ := hsim.writer_step ha hstep
    obtain ⟨a', ha'⟩ := hrefines (.writer r) trivial hs
    exact ⟨s', a', hsim', ha'⟩
  | nic r =>
    rcases hsim.nic_step ha htype hguard hstep with hsim' | ⟨s', hs, hguarded, hsim'⟩
    · exact ⟨s, a, hsim', ha⟩
    · obtain ⟨a', ha'⟩ := hrefines (.nic r) hguarded hs
      exact ⟨s', a', hsim', ha'⟩
  | iterator action =>
    obtain ⟨s', hs, hsim'⟩ := hsim.iterator_step ha htype hwhole hstep
    obtain ⟨a', ha'⟩ := hrefines (.iterator action) (hsim.guarded ha htype hguard) hs
    exact ⟨s', a', hsim', ha'⟩

end
end DpiLibrary
