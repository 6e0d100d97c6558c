import DpiLibrary.Dpi.AppendCloseRead
import DpiLibrary.Dpi.BandwidthChain

/-!
# What the reader's loop rests on

The loop over the segments of a ring ends at a segment with the end flag and nowhere
else. Without a consumer that flag is in the memory of a ring when its writer has closed
and not before, and no counter is larger than a segment. So `read` returns, with
what fits the buffer it has allocated, when all rings are closed, and runs round the first ring
that is not closed for ever.
-/

namespace DpiLibrary

/-- The control locations of `close` and behind it. -/
def WriterPc.Closes (pc : WriterPc) : Prop := pc = .closing ∨ pc = .closed

/-- The control locations at which the writer works on a segment that it has acquired. -/
def WriterPc.Works : WriterPc → Prop
  | .idle | .append _ | .superAppend _ _ | .flush _ _ | .getNextSegment _ _ => True
  | _ => False

theorem AfterWrite.works (after : AfterWrite) : after.pc.Works := by
  rcases after with ⟨data, rest⟩ | ⟨_ | data⟩ <;> trivial

theorem WriterPc.Works.not_closes {pc : WriterPc} (h : pc.Works) : ¬ pc.Closes := by
  rintro (rfl | rfl) <;> exact h

namespace BufferWriterBW

variable {g : RingGeometry} {p : ℕ} {m m' : Mem} {w w' : BufferWriterBW} {made : Option ℕ}

theorem isEndSegment_consumableHeader (w : BufferWriterBW) :
    w.consumableHeader.isEndSegment = w.header.isEndSegment := by
  simp [consumableHeader, SegmentHeader.isEndSegment, SegmentHeader.setWriteable,
    SegmentHeader.setConsumable, Nat.and_or_distrib_right, Nat.and_assoc]

theorem isEndSegment_closedHeader (w : BufferWriterBW) : w.closedHeader.isEndSegment = true := by
  simp [closedHeader]

theorem flags_consumableHeader_lt (w : BufferWriterBW) :
    w.consumableHeader.segmentFlags < sizeTBound := by
  apply lt_of_le_of_lt Nat.and_le_right
  decide

theorem flags_closedHeader_lt (w : BufferWriterBW) : w.closedHeader.segmentFlags < sizeTBound :=
  SegmentHeader.segmentFlags_closing_lt _

/-- What a step does to the control location, to the segment and to the header at hand. -/
inductive SegmentStep (w w' : BufferWriterBW) : Prop
  | constructs (hpc : w.pc = .constructing) (hpc' : w'.pc = .constructed) (hqueue' : w'.queue ≠ [])
      (hoffset : w'.segmentOffset = w.segmentOffset) (hheader : w'.header = w.header)
      (hcalls : w'.calls = w.calls)
  | works (hpc : w.pc.Works ∨ w.pc = .constructed ∧ w.queue = []) (hpc' : w'.pc.Works)
      (hoffset : w'.segmentOffset = w.segmentOffset) (hheader : w'.header = w.header)
      (hcalls : w'.calls = w.calls ∨ ∃ data, w.calls = .append data :: w'.calls)
  | handsOver (next : ℕ) (data : List UInt8) (rest : Option (List UInt8)) (hpc : w.pc.Works)
      (hpc' : w'.pc = .handOver next data rest) (hoffset : w'.segmentOffset = w.segmentOffset)
      (hheader : w'.header = w.consumableHeader) (hcalls : w'.calls = w.calls)
  | polls (next : ℕ) (data : List UInt8) (rest : Option (List UInt8))
      (hpc : ¬ w.pc.Closes) (hpc' : w'.pc = .poll next data rest) (hqueue' : w'.queue ≠ [])
      (hheader : w'.header = w.header) (hcalls : w'.calls = w.calls)
  | acquires (next : ℕ) (data : List UInt8) (rest : Option (List UInt8))
      (hpc : w.pc = .poll next data rest) (hqueue : w.queue = [])
      (hwriteable : w.header.isWriteable = true) (hpc' : w'.pc.Works)
      (hoffset : w'.segmentOffset = next) (hheader : w'.header = w.header)
      (hcalls : w'.calls = w.calls)
  | closes (calls : List WriterCall) (hpc : w.pc = .idle ∨ w.pc = .closed)
      (hcalls : w.calls = .close :: calls)
      (hw : w' = post { w with calls, header := w.closedHeader } (.writeHeader w.segmentOffset)
        .closing)
  | resumes (hpc : w.pc = .closed) (data : List UInt8) (hcalls : w.calls = .append data :: w'.calls)
  | closed (hpc : w.pc = .closing) (hqueue : w.queue = []) (hw : w' = { w with pc := .closed })

theorem writeToSegment_works (hpc : w.pc.Works) (data : List UInt8) (after : AfterWrite) :
    SegmentStep w (w.writeToSegment data after) := by
  rcases w.writeToSegment_cases data after with ⟨-, heq⟩ | heq <;> rw [heq]
  · exact .works (Or.inl hpc) after.works rfl rfl (Or.inl rfl)
  · exact .works (Or.inl hpc) trivial rfl rfl (Or.inl rfl)

theorem segmentStep (hstep : w.step = some w') : SegmentStep w w' := by
  unfold step at hstep
  cases hpc : w.pc with
  | constructing =>
    simp only [hpc, Option.some.injEq] at hstep
    subst hstep
    exact .constructs hpc rfl (by simp [post]) rfl rfl rfl
  | constructed =>
    simp only [hpc] at hstep
    split_ifs at hstep with hqueue
    cases hstep
    exact .works (Or.inr ⟨hpc, hqueue⟩) trivial rfl rfl (Or.inl rfl)
  | idle =>
    simp only [hpc, nextCall] at hstep
    rcases hcalls : w.calls with _ | ⟨data | _, calls⟩ <;> rw [hcalls] at hstep <;> cases hstep
    · exact .works (Or.inl (by rw [hpc]; trivial)) trivial rfl rfl (Or.inr ⟨data, hcalls⟩)
    · exact .closes calls (Or.inl hpc) hcalls rfl
  | append data =>
    simp only [hpc] at hstep
    split_ifs at hstep <;> cases hstep <;>
      exact .works (Or.inl (by rw [hpc]; trivial)) trivial rfl rfl (Or.inl rfl)
  | superAppend data rest =>
    have hworks : w.pc.Works := by rw [hpc]; trivial
    simp only [hpc, Option.some.injEq] at hstep
    subst hstep
    unfold superAppend
    split_ifs
    · dsimp only
      split_ifs
      · exact writeToSegment_works hworks _ _
      · exact .works (Or.inl hworks) trivial rfl rfl (Or.inl rfl)
    · exact writeToSegment_works hworks _ _
  | flush data after =>
    simp only [hpc] at hstep
    split_ifs at hstep
    cases hstep
    exact .works (Or.inl (by rw [hpc]; trivial)) after.works rfl rfl (Or.inl rfl)
  | getNextSegment data rest =>
    simp only [hpc, Option.some.injEq] at hstep
    subst hstep
    exact .handsOver _ data rest (by rw [hpc]; trivial) rfl rfl rfl rfl
  | handOver next data rest =>
    simp only [hpc] at hstep
    split_ifs at hstep
    cases hstep
    exact .polls next data rest (by simp [hpc, WriterPc.Closes]) rfl (by simp [post]) rfl rfl
  | poll next data rest =>
    simp only [hpc] at hstep
    split_ifs at hstep with hqueue hwriteable <;> cases hstep
    · exact .acquires next data rest hpc hqueue hwriteable trivial rfl rfl rfl
    · exact .polls next data rest (by simp [hpc, WriterPc.Closes]) rfl (by simp [post]) rfl rfl
  | closing =>
    simp only [hpc] at hstep
    split_ifs at hstep with hqueue
    cases hstep
    exact .closed hpc hqueue rfl
  | closed =>
    simp only [hpc, nextCall] at hstep
    rcases hcalls : w.calls with _ | ⟨data | _, calls⟩ <;> rw [hcalls] at hstep <;> cases hstep
    · exact .resumes hpc data hcalls
    · exact .closes calls (Or.inr hpc) hcalls rfl

/-- What a step does to the header at hand and to the calls. -/
inductive HeaderStep (w w' : BufferWriterBW) : Prop
  | kept (hopen : ¬ WriterPc.Closes w.pc) (hopen' : ¬ WriterPc.Closes w'.pc)
      (hheader : w'.header = w.header ∨ w'.header = w.consumableHeader)
      (hcalls : w'.calls = w.calls ∨ ∃ data, w.calls = .append data :: w'.calls)
  | closes (hopen : ¬ WriterPc.Closes w.pc) (hpc : w'.pc = .closing) (hqueue : w'.queue ≠ [])
      (hheader : w'.header = w.closedHeader) (hcalls : w.calls = .close :: w'.calls)
  | closed (hpc : w.pc = .closing) (hqueue : w.queue = []) (hw : w' = { w with pc := .closed })

theorem headerStep (hclosed : w.pc = .closed → w.calls = []) (hstep : w.step = some w') :
    HeaderStep w w' := by
  cases segmentStep hstep with
  | constructs hpc hpc' hqueue' hoffset hheader hcalls =>
    exact .kept (by simp [hpc, WriterPc.Closes]) (by simp [hpc', WriterPc.Closes]) (Or.inl hheader)
      (Or.inl hcalls)
  | works hpc hpc' hoffset hheader hcalls =>
    apply HeaderStep.kept _ hpc'.not_closes (Or.inl hheader) hcalls
    rcases hpc with hpc | ⟨hpc, -⟩
    · exact hpc.not_closes
    · simp [hpc, WriterPc.Closes]
  | handsOver next data rest hpc hpc' hoffset hheader hcalls =>
    exact .kept hpc.not_closes (by simp [hpc', WriterPc.Closes]) (Or.inr hheader) (Or.inl hcalls)
  | polls next data rest hpc hpc' hqueue' hheader hcalls =>
    exact .kept hpc (by simp [hpc', WriterPc.Closes]) (Or.inl hheader) (Or.inl hcalls)
  | acquires next data rest hpc hqueue hwriteable hpc' hoffset hheader hcalls =>
    exact .kept (by simp [hpc, WriterPc.Closes]) hpc'.not_closes (Or.inl hheader) (Or.inl hcalls)
  | closes calls hpc hcalls hw' =>
    subst hw'
    have hidle : w.pc = .idle := by
      apply hpc.resolve_right
      intro hpc
      rw [hclosed hpc] at hcalls
      cases hcalls
    exact .closes (by simp [hidle, WriterPc.Closes]) rfl (by simp [post]) rfl hcalls
  | resumes hpc data hcalls =>
    rw [hclosed hpc] at hcalls
    cases hcalls
  | closed hpc hqueue hw' => exact .closed hpc hqueue hw'

/-- Where the end flag is, in memory and in the header at hand: in the last segment of a writer that
has closed. No counter exceeds a segment. -/
structure EndMarked (g : RingGeometry) (m : Mem) (w : BufferWriterBW) : Prop where
  place : ∃ p, AtSegment g p w
  chain : Chain g m
  counters : ∀ j, (readHeader m (g.slot j)).counter ≤ g.segmentSize
  fits : w.header.counter ≤ g.segmentSize ∧ w.header.segmentFlags < sizeTBound
  header : w.header.isEndSegment = true ↔ w.pc.Closes
  calls : (w.pc.Closes → w.calls = []) ∧ (¬ w.pc.Closes → w.CallsOpen)
  ends : ∀ j, (readHeader m (g.slot j)).isEndSegment = true ↔
    g.slot j = w.segmentOffset ∧ w.Closed

theorem not_closed_of_open (hopen : ¬ w.pc.Closes) : ¬ w.Closed := fun hclosed => hopen hclosed.1

theorem EndMarked.step (h : EndMarked g m w) (hstep : w.step = some w') : EndMarked g m w' := by
  obtain ⟨p, hw⟩ := h.place
  have hplace := hw.step hstep
  have hused := hw.used
  cases headerStep (fun hpc => h.calls.1 (Or.inr hpc)) hstep with
  | kept hopen hopen' hheader hcalls =>
    have hfits : w'.header.counter ≤ g.segmentSize ∧ w'.header.segmentFlags < sizeTBound := by
      rcases hheader with heq | heq <;> rw [heq]
      · exact h.fits
      · exact ⟨hused, flags_consumableHeader_lt w⟩
    have hend : w'.header.isEndSegment = w.header.isEndSegment := by
      rcases hheader with heq | heq <;> rw [heq]
      exact isEndSegment_consumableHeader w
    refine ⟨hplace, h.chain, h.counters, hfits, ?_, ⟨fun hcloses => absurd hcloses hopen',
      fun _ => ?_⟩, fun j => ?_⟩
    · rw [hend, h.header]
      exact iff_of_false hopen hopen'
    · obtain ⟨appends, happends⟩ := h.calls.2 hopen
      rcases hcalls with heq | ⟨data, heq⟩
      · exact ⟨appends, heq.trans happends⟩
      · cases appends with
        | nil => simp [heq] at happends
        | cons data' appends =>
          rw [heq, List.map_cons, List.cons_append, List.cons.injEq] at happends
          exact ⟨appends, happends.2⟩
    · rw [h.ends]
      exact iff_of_false (fun hc => not_closed_of_open hopen hc.2)
        fun hc => not_closed_of_open hopen' hc.2
  | closes hopen hpc hqueue hheader hcalls =>
    have hcloses : w'.pc.Closes := Or.inl hpc
    refine ⟨hplace, h.chain, h.counters, ?_, ?_, ⟨fun _ => ?_, fun hnot => absurd hcloses hnot⟩,
      fun j => ?_⟩
    · rw [hheader]
      exact ⟨hused, flags_closedHeader_lt w⟩
    · rw [hheader, isEndSegment_closedHeader]
      exact iff_of_true rfl hcloses
    · obtain ⟨appends, happends⟩ := h.calls.2 hopen
      cases appends with
      | nil => simpa [hcalls] using happends
      | cons data appends => simp [hcalls] at happends
    · rw [h.ends]
      exact iff_of_false (fun hc => not_closed_of_open hopen hc.2) fun hc => hqueue hc.2.2.1
  | closed hpc hqueue hw' =>
    subst hw'
    have hcloses : w.pc.Closes := Or.inl hpc
    have hcalls := h.calls.1 hcloses
    refine ⟨hplace, h.chain, h.counters, h.fits, ?_, ⟨fun _ => hcalls, fun hnot => ?_⟩, fun j => ?_⟩
    · rw [h.header]
      exact iff_of_true hcloses (Or.inr rfl)
    · exact absurd (Or.inr rfl) hnot
    · rw [h.ends]
      exact and_congr_right fun _ => iff_of_true ⟨hcloses, hqueue, hcalls⟩
        ⟨Or.inr rfl, hqueue, hcalls⟩

/-- What happens to the headers when a header is written, data is written or nothing. -/
theorem readHeader_writeHeader_slot (g : RingGeometry) (m : Mem) {p : ℕ} {header : SegmentHeader}
    (hfits : header.Fits) (j : ℕ) :
    readHeader (writeHeader m (g.slot p) header) (g.slot j) =
      if g.slot j = g.slot p then header else readHeader m (g.slot j) := by
  have hlength : (header.encode ++ []).length ≤ g.fullSize := by
    rw [List.append_nil, SegmentHeader.length_encode]
    exact Nat.le_add_left _ _
  have hsent := g.readHeader_sendHeader (m := m) (p := p) hfits [] hlength j
  rwa [List.append_nil] at hsent

theorem readHeader_writeBytes_data (g : RingGeometry) (m : Mem) {p remote : ℕ} (bytes : List UInt8)
    (hlo : g.dataOffset p ≤ remote) (hhi : remote + bytes.length ≤ g.dataOffset p + g.segmentSize)
    (j : ℕ) : readHeader (writeBytes m remote bytes) (g.slot j) = readHeader m (g.slot j) := by
  have hapart := g.slot_eq_or_apart p j
  apply AgreeOn.readHeader
  apply agreeOn_writeBytes
  unfold RingGeometry.dataOffset at hlo hhi
  unfold RingGeometry.fullSize at hapart
  omega

theorem EndMarked.nic (h : EndMarked g m w) (hnic : w.nic m = some (m', w', made)) :
    EndMarked g m' w' := by
  obtain ⟨p, hw⟩ := h.place
  obtain ⟨op, queue, header, hqueue, heq⟩ := nic_eq hnic
  have hbusy : ¬ w.Closed := fun hclosed => by simp [hclosed.2.1] at hqueue
  have hhead := hw.head hqueue
  have hplace : ∃ p, AtSegment g p w' := ⟨p, hw.nic h.chain hnic⟩
  have hchain := hhead.keeps_chain h.chain hqueue hnic
  have hends : ∀ j, (readHeader m (g.slot j)).isEndSegment ≠ true := by
    intro j hend
    exact hbusy ((h.ends j).mp hend).2
  cases hhead with
  | @data remote src len _ howned hlo hhi hclosing =>
    simp only [BufferWriterBW.nic, hqueue, Option.some.injEq, Prod.mk.injEq] at hnic
    obtain ⟨rfl, rfl, -⟩ := hnic
    have hsame := readHeader_writeBytes_data g m (readBytes w.internalBuffer src len) hlo
      (by rw [length_readBytes]; exact hhi)
    have hnot : ¬ Closed { w with queue } := by
      rintro ⟨hpc | hpc, hnil, -⟩
      · exact hclosing hpc hnil
      · simp only at hpc
        simp [ownedSegment, hpc] at howned
    refine ⟨hplace, hchain, fun j => ?_, h.fits, h.header, h.calls, fun j => ?_⟩
    · rw [hsame]
      exact h.counters j
    · rw [hsame]
      exact iff_of_false (hends j) fun hc => hnot hc.2
  | header howned hnext =>
    simp only [BufferWriterBW.nic, hqueue, Option.some.injEq, Prod.mk.injEq] at hnic
    obtain ⟨rfl, rfl, -⟩ := hnic
    have hfits : w.header.Fits := by
      refine ⟨lt_of_le_of_lt h.fits.1 g.segmentSize_lt, ?_, h.fits.2⟩
      rw [hnext]
      exact g.slot_lt _
    have hpc : w.pc ≠ .closed := by
      intro hpc
      simp [ownedSegment, hpc] at howned
    refine ⟨hplace, hchain, fun j => ?_, h.fits, h.header, h.calls, fun j => ?_⟩
    · rw [readHeader_writeHeader_slot g m hfits]
      split_ifs
      · exact h.fits.1
      · exact h.counters j
    · rw [readHeader_writeHeader_slot g m hfits, hw.offset]
      split_ifs with hslot
      · rw [h.header]
        constructor
        · exact fun hcloses => ⟨hslot, hcloses, rfl, h.calls.1 hcloses⟩
        · exact fun hc => hc.2.1
      · exact iff_of_false (hends j) fun hc => hslot hc.1
  | read q hopen =>
    simp only [BufferWriterBW.nic, hqueue, Option.some.injEq, Prod.mk.injEq] at hnic
    obtain ⟨rfl, rfl, -⟩ := hnic
    have hopen' : ¬ w.pc.Closes := fun hcloses => hcloses.elim hopen.1 hopen.2
    have hcounter := h.counters q
    have hflags := (fits_readHeader m (g.slot q)).2.2
    have hend := hends q
    -- of the header read, nothing else matters
    generalize readHeader m (g.slot q) = found at hplace hcounter hflags hend ⊢
    exact ⟨hplace, hchain, h.counters, ⟨hcounter, hflags⟩, iff_of_false hend hopen', h.calls,
      fun j => iff_of_false (hends j) fun hc => hopen' hc.2.1⟩

/-- Only the headers of the ring matter. -/
theorem EndMarked.frame (h : EndMarked g m w)
    (hsame : ∀ j, readHeader m' (g.slot j) = readHeader m (g.slot j)) : EndMarked g m' w := by
  refine ⟨h.place, fun j => ?_, fun j => ?_, h.fits, h.header, h.calls, fun j => ?_⟩
  · rw [nextSegmentAt, hsame]
    exact h.chain j
  · rw [hsame]
    exact h.counters j
  · rw [hsame]
    exact h.ends j

theorem endMarked_init {m : Mem} (hfree : ∀ j, readHeader m (g.slot j) = g.freeHeader j)
    (internalBufferSize : ℕ) (appends : List (List UInt8)) :
    EndMarked g m (init g.entry g.segmentSize internalBufferSize
      (appends.map WriterCall.append ++ [WriterCall.close])) := by
  have hopen : ¬ WriterPc.Closes .constructing := by simp [WriterPc.Closes]
  refine ⟨⟨0, rfl, g.slot_zero.symm, Nat.zero_le _, rfl⟩, fun j => ?_, fun j => ?_,
    ⟨Nat.zero_le _, Nat.two_pow_pos 64⟩, ?_,
    ⟨fun hcloses => absurd hcloses hopen, fun _ => ⟨appends, rfl⟩⟩,
    fun j => ?_⟩
  · rw [nextSegmentAt, hfree]
    rfl
  · rw [hfree]
    exact Nat.zero_le _
  · exact iff_of_false (by simp [init, SegmentHeader.isEndSegment]) hopen
  · rw [hfree]
    exact iff_of_false (by simp [RingGeometry.freeHeader, SegmentHeader.isEndSegment])
      fun hc => hopen hc.2.1

end BufferWriterBW

namespace BufferReader

open BufferWriterBW

/-- Bytes that the loop copies for a segment of `size` data bytes. -/
def storedSize (withHeader : Bool) (size : ℕ) : ℕ :=
  size + if withHeader then segmentHeaderSize else 0

/-- The call returns, and what it has stored, which is what it returns, fits the buffer that it
has allocated. -/
def ReturnsWithin (m : Mem) (handle : BufferHandle) (sizeRead : ℕ) (withHeader : Bool) : Prop :=
  ∃ fuel data size, read fuel m handle sizeRead withHeader = some (data, size) ∧
    (data.getD []).length ≤ dataSize handle withHeader

/-- Bytes that the loop over a ring has stored after so many passes. -/
def storedBytes (m : Mem) (withHeader : Bool) : ℕ → ℕ → ℕ
  | 0, _ => 0
  | passes + 1, offset =>
    (segmentBytes m withHeader offset).length +
      storedBytes m withHeader passes (nextSegmentAt m offset)

theorem length_segmentBytes (m : Mem) (withHeader : Bool) (offset : ℕ) :
    (segmentBytes m withHeader offset).length =
      storedSize withHeader (readHeader m offset).counter := by
  cases withHeader <;> simp [segmentBytes, storedSize]

/-- With headers every pass stores a header at least. -/
theorem le_storedBytes (m : Mem) (passes offset : ℕ) :
    passes * segmentHeaderSize ≤ storedBytes m true passes offset := by
  induction passes generalizing offset with
  | zero => simp [storedBytes]
  | succ passes ih =>
    have htail := ih (nextSegmentAt m offset)
    rw [storedBytes, length_segmentBytes, storedSize, if_pos rfl, Nat.succ_mul]
    omega

variable {g : RingGeometry} {m : Mem} {withHeader : Bool}

/-- Without an end flag the loop goes round the ring. -/
theorem readRing_eq_none (hchain : Chain g m)
    (hend : ∀ j, (readHeader m (g.slot j)).isEndSegment = false) :
    ∀ (fuel j : ℕ) (data : List UInt8), readRing m withHeader fuel (g.slot j) data = none := by
  intro fuel
  induction fuel with
  | zero => exact fun j data => rfl
  | succ fuel ih =>
    intro j data
    have hnext : (readHeader m (g.slot j)).nextSegmentOffset = g.slot (j + 1) := hchain j
    simp only [readRing, hend, Bool.false_eq_true, if_false, hnext]
    exact ih (j + 1) _

/-- The loop ends at the first end flag, with no more than a full segment for each pass. -/
theorem readRing_ends (hchain : Chain g m)
    (hcounters : ∀ j, (readHeader m (g.slot j)).counter ≤ g.segmentSize) {e : ℕ}
    (hfirst : ∀ j < e, (readHeader m (g.slot j)).isEndSegment = false)
    (hend : (readHeader m (g.slot e)).isEndSegment = true) :
    ∀ (fuel j : ℕ) (data : List UInt8), j ≤ e → e < j + fuel →
      ∃ data', readRing m withHeader fuel (g.slot j) data = some data' ∧
        data'.length ≤ data.length + (e + 1 - j) * storedSize withHeader g.segmentSize := by
  intro fuel
  induction fuel with
  | zero => intro j data hj hfuel; omega
  | succ fuel ih =>
    intro j data hj hfuel
    have hnext : (readHeader m (g.slot j)).nextSegmentOffset = g.slot (j + 1) := hchain j
    have hlength : (data ++ segmentBytes m withHeader (g.slot j)).length ≤
        data.length + storedSize withHeader g.segmentSize := by
      rw [List.length_append, length_segmentBytes]
      exact Nat.add_le_add_left (Nat.add_le_add_right (hcounters j) _) _
    by_cases hlast : j = e
    · subst hlast
      refine ⟨data ++ segmentBytes m withHeader (g.slot j), ?_, ?_⟩
      · simp only [readRing, hend, if_true]
      · rw [Nat.add_sub_cancel_left, Nat.one_mul]
        exact hlength
    · obtain ⟨data', hread, hdata'⟩ := ih (j + 1) (data ++ segmentBytes m withHeader (g.slot j))
        (by omega) (by omega)
      refine ⟨data', ?_, ?_⟩
      · simp only [readRing, hfirst j (by omega), Bool.false_eq_true, if_false, hnext]
        exact hread
      · have hcount : e + 1 - j = e + 1 - (j + 1) + 1 := by omega
        rw [hcount, Nat.succ_mul]
        omega

variable {w : BufferWriterBW}

theorem readRing_open (h : EndMarked g m w) (hopen : ¬ w.Closed) (fuel : ℕ) (data : List UInt8) :
    readRing m withHeader fuel g.entry data = none := by
  rw [← g.slot_zero]
  apply readRing_eq_none h.chain
  intro j
  rw [Bool.eq_false_iff]
  exact fun hend => hopen ((h.ends j).mp hend).2

/-- A ring with an end flag, and with no more bytes in a segment than there is room for. -/
structure RingEnds (g : RingGeometry) (m : Mem) : Prop where
  chain : Chain g m
  counters : ∀ j, (readHeader m (g.slot j)).counter ≤ g.segmentSize
  ends : ∃ j, (readHeader m (g.slot j)).isEndSegment = true

theorem ringEnds_of_closed (h : EndMarked g m w) (hclosed : w.Closed) : RingEnds g m := by
  obtain ⟨p, hw⟩ := h.place
  exact ⟨h.chain, h.counters, p, (h.ends p).mpr ⟨hw.offset.symm, hclosed⟩⟩

theorem RingEnds.readRing (h : RingEnds g m) {fuel : ℕ} (hfuel : g.segments ≤ fuel)
    (data : List UInt8) :
    ∃ data', readRing m withHeader fuel g.entry data = some data' ∧
      data'.length ≤ data.length + g.segments * storedSize withHeader g.segmentSize := by
  have hfirst : ∀ j < Nat.find h.ends, (readHeader m (g.slot j)).isEndSegment = false := by
    intro j hj
    rw [Bool.eq_false_iff]
    exact Nat.find_min h.ends hj
  -- the first end flag is met before the loop is back at the entry segment
  have hlt : Nat.find h.ends < g.segments := by
    obtain ⟨j, hj⟩ := h.ends
    rw [← g.slot_mod] at hj
    exact lt_of_le_of_lt (Nat.find_min' h.ends hj) (Nat.mod_lt j g.segments_pos)
  obtain ⟨data', hread, hdata'⟩ := readRing_ends h.chain h.counters hfirst (Nat.find_spec h.ends)
    fuel 0 data (Nat.zero_le _) (by omega)
  rw [g.slot_zero] at hread
  refine ⟨data', hread, hdata'.trans ?_⟩
  exact Nat.add_le_add_left (Nat.mul_le_mul_right _ hlt) _

end BufferReader

open BufferWriterBW BufferReader

variable {k : ℕ} {b : BufferRings k}

/-- Steps of the writers and their queue pairs keep the rings apart. -/
theorem EndMarked.step_system (htype : b.type = .bw) {s s' : RingSystem BufferWriterBW k}
    {label : RingLabel k} (hlabel : label.OfWriter)
    (h : ∀ r, EndMarked (b.ring r) s.mem (s.writers r))
    (hstep : RingSystem.step .bw machine s label = some s') :
    ∀ r, EndMarked (b.ring r) s'.mem (s'.writers r) := by
  intro r'
  cases label with
  | writer r =>
    obtain ⟨w, hw, rfl⟩ := Option.map_eq_some_iff.mp hstep
    by_cases hr : r' = r
    · subst hr
      simp only [Function.update_self]
      exact (h r').step hw
    · simp only [Function.update_of_ne hr]
      exact h r'
  | nic r =>
    obtain ⟨⟨m', w, made⟩, hnic, rfl⟩ := Option.map_eq_some_iff.mp hstep
    by_cases hr : r' = r
    · subst hr
      simp only [Function.update_self]
      exact (h r').nic hnic
    · simp only [Function.update_of_ne hr]
      refine (h r').frame fun j => ?_
      obtain ⟨p, hw⟩ := (h r).place
      obtain ⟨op, queue, header, hqueue, -⟩ := nic_eq hnic
      apply AgreeOn.readHeader
      apply (hw.head hqueue).outside hqueue hnic
      -- segments of different rings have no byte in common
      have hapart := b.apart r' r hr
      have hlo := (b.ring r').le_slot j
      have hhi := (b.ring r').slot_add_fullSize_le j
      have hlo' := (b.ring r).le_slot p
      have hhi' := (b.ring r).slot_add_fullSize_le p
      rw [htype] at hapart
      simp only [Span.Apart, RingGeometry.block, NodeServer.counterSize] at hapart
      unfold RingGeometry.fullSize at *
      omega
  | iterator action => exact hlabel.elim

theorem EndMarked.exec (htype : b.type = .bw) :
    ∀ (schedule : List (RingLabel k)) (s s' : RingSystem BufferWriterBW k),
      (∀ label ∈ schedule, label.OfWriter) → (∀ r, EndMarked (b.ring r) s.mem (s.writers r)) →
      Schedule.exec (RingSystem.step .bw machine) s schedule = some s' →
        ∀ r, EndMarked (b.ring r) s'.mem (s'.writers r) := by
  intro schedule
  induction schedule with
  | nil =>
    intro s s' _ h hrun
    cases hrun
    exact h
  | cons label schedule ih =>
    intro s s' hlabels h hrun
    obtain ⟨hlabel, hrest⟩ := List.forall_mem_cons.mp hlabels
    obtain ⟨t, ht, hrun⟩ := Option.bind_eq_some_iff.mp hrun
    exact ih t s' hrest (EndMarked.step_system htype hlabel h ht) hrun

/-- One ring that never ends keeps the reader from returning. -/
theorem foldlM_eq_none {m : Mem} {withHeader : Bool} {fuel : ℕ} {rings : List (Fin k)} {r : Fin k}
    (hr : r ∈ rings) (hopen : ∀ data, readRing m withHeader fuel (b.ring r).entry data = none)
    (data : List UInt8) :
    (rings.map fun r => BufferSegment.mk (b.ring r).entry (b.ring r).segmentSize).foldlM
      (fun data segment => readRing m withHeader fuel segment.offset data) data = none := by
  induction rings generalizing data with
  | nil => cases hr
  | cons r' rings ih =>
    rw [List.map_cons, List.foldlM_cons]
    cases hhead : readRing m withHeader fuel (b.ring r').entry data with
    | none => rfl
    | some data' =>
      apply ih
      rcases List.mem_cons.mp hr with rfl | hmem
      · rw [hopen] at hhead
        cases hhead
      · exact hmem

theorem foldlM_bounded {m : Mem} {withHeader : Bool} {fuel : ℕ} {bound : ℕ}
    (hring : ∀ r data, ∃ data', readRing m withHeader fuel (b.ring r).entry data = some data' ∧
      data'.length ≤ data.length + bound) (rings : List (Fin k)) (data : List UInt8) :
    ∃ data', (rings.map fun r => BufferSegment.mk (b.ring r).entry (b.ring r).segmentSize).foldlM
        (fun data segment => readRing m withHeader fuel segment.offset data) data = some data' ∧
      data'.length ≤ data.length + rings.length * bound := by
  induction rings generalizing data with
  | nil => exact ⟨data, rfl, Nat.le_add_right _ _⟩
  | cons r rings ih =>
    obtain ⟨data₁, hhead, hlength₁⟩ := hring r data
    obtain ⟨data₂, htail, hlength₂⟩ := ih data₁
    refine ⟨data₂, ?_, ?_⟩
    · rw [List.map_cons, List.foldlM_cons, hhead]
      exact htail
    · rw [List.length_cons, Nat.succ_mul]
      omega

theorem dataSize_handle {segments segmentSize : ℕ}
    (hsegmentSize : ∀ r, (b.ring r).segmentSize = segmentSize) (name : String) (nodeId : ℕ)
    (withHeader : Bool) :
    dataSize (b.handle name nodeId segments segmentSize) withHeader =
      k * (segments * storedSize withHeader segmentSize) := by
  simp [dataSize, BufferRings.handle, hsegmentSize, Function.comp_def, storedSize,
    Nat.mul_comm segments]

/-- The reader does not return from a buffer with a ring that is not closed. -/
theorem not_returnsWithin_of_open {s : RingSystem BufferWriterBW k} {r : Fin k}
    (hmarked : EndMarked (b.ring r) s.mem (s.writers r)) (hopen : ¬ (s.writers r).Closed)
    (name : String) (nodeId segments segmentSize sizeRead : ℕ) (withHeader : Bool) :
    ¬ ReturnsWithin s.mem (b.handle name nodeId segments segmentSize) sizeRead withHeader := by
  rintro ⟨fuel, data, size, hread, -⟩
  have hentries : (b.handle name nodeId segments segmentSize).entrySegments ≠ [] := by
    have hmem := List.mem_finRange r
    intro hnil
    rw [List.map_eq_nil_iff.mp hnil] at hmem
    cases hmem
  rw [BufferReader.read, if_neg hentries, BufferRings.handle,
    foldlM_eq_none (List.mem_finRange r) (readRing_open hmarked hopen fuel)] at hread
  cases hread

theorem read_ringEnds {segments segmentSize : ℕ} (hsegments : ∀ r, (b.ring r).segments = segments)
    (hsegmentSize : ∀ r, (b.ring r).segmentSize = segmentSize) {m : Mem}
    (hends : ∀ r, RingEnds (b.ring r) m) (name : String) (nodeId sizeRead : ℕ) (withHeader : Bool)
    {fuel : ℕ} (hfuel : segments ≤ fuel) :
    ∃ data size, BufferReader.read fuel m (b.handle name nodeId segments segmentSize) sizeRead
        withHeader = some (data, size) ∧
      (data.getD []).length ≤
        dataSize (b.handle name nodeId segments segmentSize) withHeader := by
  have hring : ∀ r data, ∃ data', readRing m withHeader fuel (b.ring r).entry data =
      some data' ∧ data'.length ≤ data.length + segments * storedSize withHeader segmentSize := by
    intro r data
    rw [← hsegmentSize r, ← hsegments r]
    exact (hends r).readRing ((hsegments r).trans_le hfuel) data
  obtain ⟨data, hread, hlength⟩ := foldlM_bounded hring (List.finRange k) []
  rw [List.length_finRange, List.length_nil, Nat.zero_add] at hlength
  by_cases hentries : (b.handle name nodeId segments segmentSize).entrySegments = []
  · exact ⟨none, sizeRead, if_pos hentries, Nat.zero_le _⟩
  · refine ⟨some data, data.length, ?_, ?_⟩
    · rw [BufferReader.read, if_neg hentries, BufferRings.handle, hread, Option.map_some]
    · rw [dataSize_handle hsegmentSize]
      exact hlength

theorem endMarked_of_run (htype : b.type = .bw) {internalBufferSize : Fin k → ℕ}
    {appends : Fin k → List (List UInt8)} {m : Mem} {schedule : List (RingLabel k)}
    (hlabels : ∀ label ∈ schedule, label.OfWriter) {s : RingSystem BufferWriterBW k}
    (hrun : Schedule.exec (RingSystem.step .bw machine)
      (RingSystem.init b m (b.bandwidthWriters internalBufferSize appends)) schedule = some s)
    (r : Fin k) : EndMarked (b.ring r) s.mem (s.writers r) :=
  EndMarked.exec htype schedule _ s hlabels
    (fun r => endMarked_init (b.readHeader_initMem m r) (internalBufferSize r) (appends r)) hrun r

/-- Whatever the writers have done so far, and with headers or without: `read` returns within its
allocation when every ring has been closed, and otherwise it does not return. -/
theorem read_returnsWithin_iff (b : BufferRings k) (htype : b.type = .bw)
    (segments segmentSize : ℕ) (hsegments : ∀ r, (b.ring r).segments = segments)
    (hsegmentSize : ∀ r, (b.ring r).segmentSize = segmentSize) (internalBufferSize : Fin k → ℕ)
    (appends : Fin k → List (List UInt8)) (m : Mem) (schedule : List (RingLabel k))
    (hlabels : ∀ label ∈ schedule, label.OfWriter) (s : RingSystem BufferWriterBW k)
    (hrun : Schedule.exec (RingSystem.step .bw machine)
      (RingSystem.init b m (b.bandwidthWriters internalBufferSize appends)) schedule = some s)
    (name : String) (nodeId sizeRead : ℕ) (withHeader : Bool) :
    ReturnsWithin s.mem (b.handle name nodeId segments segmentSize) sizeRead withHeader ↔
      ∀ r, (s.writers r).Closed := by
  have hmarked := endMarked_of_run htype hlabels hrun
  constructor
  · intro hreturns r
    by_contra hopen
    exact not_returnsWithin_of_open (hmarked r) hopen _ _ _ _ _ _ hreturns
  · intro hclosed
    obtain ⟨data, size, hread, hlength⟩ := read_ringEnds hsegments hsegmentSize
      (fun r => ringEnds_of_closed (hmarked r) (hclosed r)) name nodeId sizeRead withHeader le_rfl
    exact ⟨segments, data, size, hread, hlength⟩

/-- The writer appends one byte, which arrives. -/
def openRun : List (RingLabel 1) :=
  [.writer 0, .nic 0] ++ List.replicate 4 (.writer 0) ++ [.nic 0]

/-- The writer then closes. -/
def closedRun : List (RingLabel 1) := openRun ++ [.writer 0, .nic 0]

theorem read_returnsWithin_closed_ring :
    ∃ s, Schedule.exec (RingSystem.step .bw machine)
        (RingSystem.init (byteSegments 2 (by decide) (by decide)) (fun _ => 0)
          ((byteSegments 2 (by decide) (by decide)).bandwidthWriters (fun _ => 4)
            fun _ => [[7]])) closedRun = some s ∧
      ReturnsWithin s.mem ((byteSegments 2 (by decide) (by decide)).handle "buffer" 1 2 1) 0
        true := by
  have hrun : ((Schedule.exec (RingSystem.step .bw machine)
      (RingSystem.init (byteSegments 2 (by decide) (by decide)) (fun _ => 0)
        ((byteSegments 2 (by decide) (by decide)).bandwidthWriters (fun _ => 4)
          fun _ => [[7]])) closedRun).map fun s =>
        ((s.writers 0).pc, (s.writers 0).queue, (s.writers 0).calls)) =
      some (.closing, [], []) := by decide +kernel
  obtain ⟨s, hs, heq⟩ := Option.map_eq_some_iff.mp hrun
  simp only [Prod.mk.injEq] at heq
  refine ⟨s, hs, (read_returnsWithin_iff (byteSegments 2 (by decide) (by decide)) rfl 2 1
    (fun _ => rfl) (fun _ => rfl) (fun _ => 4) (fun _ => [[7]]) (fun _ => 0) closedRun
    (by simp [closedRun, openRun, RingLabel.OfWriter]) s hs "buffer" 1 0 true).mpr fun r => ?_⟩
  rw [Subsingleton.elim r 0]
  exact ⟨Or.inl heq.1, heq.2.1, heq.2.2⟩

theorem read_runs_on_open_ring :
    ∃ s, Schedule.exec (RingSystem.step .bw machine)
        (RingSystem.init (byteSegments 2 (by decide) (by decide)) (fun _ => 0)
          ((byteSegments 2 (by decide) (by decide)).bandwidthWriters (fun _ => 4)
            fun _ => [[7]])) openRun = some s ∧
      (∀ withHeader, ¬ ReturnsWithin s.mem
        ((byteSegments 2 (by decide) (by decide)).handle "buffer" 1 2 1) 0 withHeader) ∧
      dataSize ((byteSegments 2 (by decide) (by decide)).handle "buffer" 1 2 1) true <
        storedBytes s.mem true 3 0 := by
  have hrun : ((Schedule.exec (RingSystem.step .bw machine)
      (RingSystem.init (byteSegments 2 (by decide) (by decide)) (fun _ => 0)
        ((byteSegments 2 (by decide) (by decide)).bandwidthWriters (fun _ => 4)
          fun _ => [[7]])) openRun).map fun s => (s.writers 0).pc) = some .idle := by
    decide +kernel
  obtain ⟨s, hs, hpc⟩ := Option.map_eq_some_iff.mp hrun
  have hmarked := endMarked_of_run (b := byteSegments 2 (by decide) (by decide)) rfl
    (by simp [openRun, RingLabel.OfWriter]) hs 0
  refine ⟨s, hs, not_returnsWithin_of_open hmarked ?_ _ _ _ _ _, ?_⟩
  · rintro ⟨hclosing | hclosed, -⟩
    · rw [hpc] at hclosing
      cases hclosing
    · rw [hpc] at hclosed
      cases hclosed
  · exact lt_of_lt_of_le (by decide) (le_storedBytes s.mem 3 0)

end DpiLibrary
