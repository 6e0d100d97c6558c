import DpiLibrary.Foundation.LaggedRing
import DpiLibrary.Dpi.Ring
import DpiLibrary.Dpi.BufferIterator

/-!
# What the memory of a ring holds

The abstract state of a ring determines the headers of a window of `n` segments,
starting at the oldest one not released: segments sent are consumable, the others
free. The one held by the consumer may be partly reset. Each lemma says what one
kind of write does to this picture.
-/

namespace DpiLibrary

/-- Abstract state of a ring: the blocks sent and how far the consumer is. -/
abbrev RingState (g : RingGeometry) := LaggedRing (List UInt8) g.segments

/-- What the statements of `mark_prev_segment` before this one have done to the header. -/
def MarkStep.applied : MarkStep → SegmentHeader → SegmentHeader
  | .checkEnd, h => h
  | .checkWriteable, h => h
  | .counter, h => h
  | .consumable, h => { h with counter := 0 }
  | .writeable, h => { h with counter := 0 }.setConsumable false
  | .credit, h => ({ h with counter := 0 }.setConsumable false).setWriteable true

namespace RingGeometry

variable (g : RingGeometry)

/-- Flags of a segment that has been sent and is not the final one. -/
def sentFlags : Buffertype → ℕ
  | .bw => 0b0010
  | .lat => 0b0011

/-- The final segment carries the end flag; closing a latency ring also sets its counter
to the segment size. -/
def sentHeader (type : Buffertype) (a : RingState g) (j : ℕ) : SegmentHeader :=
  if a.fin = true ∧ j + 1 = a.sent.length then
    ⟨match type with
      | .bw => (a.sent.getD j []).length
      | .lat => g.segmentSize, g.slot (j + 1), 0b0110⟩
  else ⟨(a.sent.getD j []).length, g.slot (j + 1), sentFlags type⟩

def expectedHeader (type : Buffertype) (a : RingState g) (stage : MarkStep) (j : ℕ) :
    SegmentHeader :=
  if j < a.sent.length then
    if j < a.returned then stage.applied (g.sentHeader type a j) else g.sentHeader type a j
  else g.freeHeader j

/-- The memory of the ring shows the abstract state. -/
structure Shows (type : Buffertype) (a : RingState g) (stage : MarkStep) (m : Mem) : Prop where
  header : ∀ j, a.released ≤ j → j < a.released + g.segments →
    readHeader m (g.slot j) = g.expectedHeader type a stage j
  data : ∀ j b, a.released ≤ j → a.sent[j]? = some b → readBytes m (g.dataOffset j) b.length = b
  lengths : ∀ b ∈ a.sent, b.length ≤ g.segmentSize
  counter : type = .lat →
    readWord m (g.entry - 8) = (g.segments + a.released) % sizeTBound

variable {g} {type : Buffertype} {a : RingState g} {stage : MarkStep} {m m' : Mem}

theorem segmentSize_lt (g : RingGeometry) : g.segmentSize < sizeTBound := by
  have h := g.slot_add_fullSize_le 0
  have hfits := g.fits
  unfold fullSize segmentHeaderSize at h
  unfold segmentHeaderSize at hfits
  omega

/-- Bytes outside the ring do not matter. -/
theorem Shows.frame (h : g.Shows type a stage m) (hcounter : type = .lat → 8 ≤ g.entry)
    (hagree : AgreeOn m' m (g.block type).start (g.block type).length) :
    g.Shows type a stage m' := by
  have hblock : ∀ j start len, g.slot j ≤ start → start + len ≤ g.slot j + g.fullSize →
      AgreeOn m' m start len := by
    intro j start len hlo hhi
    have hle := g.le_slot j
    have hend := g.slot_add_fullSize_le j
    refine hagree.mono ?_ ?_
    · simp only [block]
      omega
    · cases type with
      | bw => simp only [block, NodeServer.counterSize]; omega
      | lat =>
        have := hcounter rfl
        simp only [block, NodeServer.counterSize]
        omega
  refine ⟨fun j hlo hhi => ?_, fun j b hlo hb => ?_, h.lengths, fun htype => ?_⟩
  · rw [(hblock j _ _ le_rfl (by unfold fullSize; omega)).readHeader]
    exact h.header j hlo hhi
  · have hlen := h.lengths b (List.mem_of_getElem? hb)
    rw [(hblock j (g.dataOffset j) b.length (Nat.le_add_right _ _)
      (by unfold dataOffset fullSize; omega)).readBytes]
    exact h.data j b hlo hb
  · subst htype
    have h8 := hcounter rfl
    have hagree8 : AgreeOn m' m (g.entry - 8) 8 := by
      refine hagree.mono le_rfl ?_
      simp only [block, NodeServer.counterSize]
      omega
    rw [hagree8.readWord]
    exact h.counter rfl

/-- A write that stays inside the slot of segment `p`, and shows its header afterwards. -/
theorem Shows.change (h : g.Shows type a stage m) {p : ℕ} {a' : RingState g} {stage' : MarkStep}
    (hlo : a.released ≤ p) (hhi : p < a.released + g.segments)
    (hout : ∀ start len, start + len ≤ g.slot p ∨ g.slot p + g.fullSize ≤ start →
      AgreeOn m' m start len)
    (hrel : a'.released = a.released)
    (hheader : readHeader m' (g.slot p) = g.expectedHeader type a' stage' p)
    (hothers : ∀ j, a.released ≤ j → j < a.released + g.segments → j ≠ p →
      g.expectedHeader type a' stage' j = g.expectedHeader type a stage j)
    (hsent : ∀ j b, j ≠ p → a'.sent[j]? = some b → a.sent[j]? = some b)
    (hdata : ∀ b, a'.sent[p]? = some b → readBytes m' (g.dataOffset p) b.length = b)
    (hlengths : ∀ b ∈ a'.sent, b.length ≤ g.segmentSize)
    (hcounter : type = .lat → 8 ≤ g.entry) : g.Shows type a' stage' m' := by
  refine ⟨fun j hj hj' => ?_, fun j b hj hb => ?_, hlengths, fun htype => ?_⟩
  · rw [hrel] at hj hj'
    by_cases hjp : j = p
    · rw [hjp]
      exact hheader
    · have hapart := g.slots_apart a.released ⟨hj, hj'⟩ ⟨hlo, hhi⟩ hjp
      rw [hothers j hj hj' hjp, ← h.header j hj hj', (hout _ _ ?_).readHeader]
      unfold fullSize at hapart ⊢
      omega
  · by_cases hjp : j = p
    · subst hjp
      exact hdata b hb
    · have hold := hsent j b hjp hb
      have hlen := h.lengths b (List.mem_of_getElem? hold)
      have hlt : j < a.sent.length := (List.getElem?_eq_some_iff.mp hold).1
      have hsl := a.sent_le
      rw [hrel] at hj
      have hapart := g.slots_apart a.released ⟨hj, by omega⟩ ⟨hlo, hhi⟩ hjp
      rw [(hout (g.dataOffset j) b.length ?_).readBytes]
      · exact h.data j b hj hold
      · unfold dataOffset
        unfold fullSize at hapart ⊢
        omega
  · rw [hrel, ← h.counter htype, (hout (g.entry - 8) 8 (Or.inl ?_)).readWord]
    have := hcounter htype
    have := g.le_slot p
    omega

/-- The next slot is filled: its data is in place and its header becomes consumable. -/
theorem Shows.land (h : g.Shows type a stage m) {b : List UInt8} {last : Bool}
    (hroom : a.sent.length < a.released + g.segments) (hfin : a.fin = false)
    (hout : ∀ start len, start + len ≤ g.slot a.sent.length ∨
      g.slot a.sent.length + g.fullSize ≤ start → AgreeOn m' m start len)
    (hheader : readHeader m' (g.slot a.sent.length) =
      g.sentHeader type (a.land b last hroom) a.sent.length)
    (hdata : readBytes m' (g.dataOffset a.sent.length) b.length = b)
    (hlen : b.length ≤ g.segmentSize) (hcounter : type = .lat → 8 ≤ g.entry) :
    g.Shows type (a.land b last hroom) stage m' := by
  have hret := a.returned_le_sent
  refine h.change (a.released_le.trans hret) hroom hout rfl ?_ ?_ ?_ ?_ ?_ hcounter
  · rw [hheader]
    simp only [expectedHeader, LaggedRing.land_sent, LaggedRing.land_returned, List.length_append,
      List.length_singleton, Nat.lt_succ_self, if_true]
    rw [if_neg (by omega)]
  · intro j hj hj' hne
    simp only [expectedHeader, sentHeader, LaggedRing.land_sent, LaggedRing.land_returned,
      LaggedRing.land_fin, List.length_append, List.length_singleton, hfin]
    by_cases hlt : j < a.sent.length
    · have hget : (a.sent ++ [b]).getD j [] = a.sent.getD j [] := by
        rw [List.getD_eq_getElem?_getD, List.getElem?_append_left hlt,
          List.getD_eq_getElem?_getD]
      have hlast : ¬ (last = true ∧ j + 1 = a.sent.length + 1) := by omega
      have hnofin : ¬ (false = true ∧ j + 1 = a.sent.length) := by simp
      rw [if_pos hlt, if_pos (by omega), if_neg hlast, if_neg hnofin, hget]
    · rw [if_neg hlt, if_neg (by omega)]
  · intro j c hne hc
    rw [LaggedRing.land_sent] at hc
    by_cases hlt : j < a.sent.length
    · rwa [List.getElem?_append_left hlt] at hc
    · rw [List.getElem?_eq_none (by simp only [List.length_append, List.length_singleton]; omega)]
        at hc
      cases hc
  · intro c hc
    rw [LaggedRing.land_sent, List.getElem?_concat_length] at hc
    cases hc
    exact hdata
  · intro c hc
    rw [LaggedRing.land_sent] at hc
    rcases List.mem_append.mp hc with hc | hc
    · exact h.lengths c hc
    · rw [List.mem_singleton.mp hc]
      exact hlen

/-- Closing a latency ring rewrites the header of the segment sent last. It may have been
returned already, but then the consumer is not resetting it. -/
theorem Shows.finish (h : g.Shows .lat a stage m) (hsent : a.sent ≠ []) (hfin : a.fin = false)
    (hstage : (∀ y, stage.applied y = y) ∨ a.returned < a.sent.length)
    (hcounter : 8 ≤ g.entry) :
    g.Shows .lat a.finish stage (writeHeader m (g.slot (a.sent.length - 1))
      ⟨g.segmentSize, g.slot a.sent.length, 0b0110⟩) := by
  have hpos := List.length_pos_of_ne_nil hsent
  have hlast : a.sent.length - 1 + 1 = a.sent.length := Nat.sub_add_cancel hpos
  have hreleased := a.released_lt_sent hsent
  have hle := a.sent_le
  have hfits : (SegmentHeader.mk g.segmentSize (g.slot a.sent.length) 0b0110).Fits :=
    ⟨g.segmentSize_lt, g.slot_lt _, by unfold sizeTBound; simp only; omega⟩
  have hout : ∀ start len, start + len ≤ g.slot (a.sent.length - 1) ∨
      g.slot (a.sent.length - 1) + segmentHeaderSize ≤ start →
      AgreeOn (writeHeader m (g.slot (a.sent.length - 1))
        ⟨g.segmentSize, g.slot a.sent.length, 0b0110⟩) m start len :=
    fun start len hout => agreeOn_writeHeader hout
  refine h.change (p := a.sent.length - 1) (by omega) (by omega) ?_ rfl ?_ ?_
    (fun _ _ _ hb => hb) ?_ h.lengths fun _ => hcounter
  · intro start len hs
    apply hout
    unfold fullSize at hs
    omega
  · have hheader : g.sentHeader .lat a.finish (a.sent.length - 1) =
        ⟨g.segmentSize, g.slot a.sent.length, 0b0110⟩ := by
      unfold sentHeader
      rw [if_pos ⟨rfl, hlast⟩, hlast]
    have hlt : a.sent.length - 1 < a.finish.sent.length := by
      simp only [LaggedRing.finish_sent]
      omega
    rw [readHeader_writeHeader m _ hfits, expectedHeader, if_pos hlt, hheader]
    split_ifs with hreturned
    · rw [hstage.resolve_right (by simp only [LaggedRing.finish_returned] at hreturned; omega)]
    · rfl
  · intro j _ _ hne
    have hsame : g.sentHeader .lat a.finish j = g.sentHeader .lat a j := by
      unfold sentHeader
      rw [if_neg (by simp only [LaggedRing.finish_sent]; omega), if_neg (by simp [hfin]),
        LaggedRing.finish_sent]
    simp only [expectedHeader, hsame, LaggedRing.finish_sent, LaggedRing.finish_returned]
  · intro b hb
    rw [(hout (g.dataOffset (a.sent.length - 1)) b.length
      (Or.inr (by unfold dataOffset; omega))).readBytes]
    exact h.data _ b (by omega) hb

/-- Data written into the slot the writer holds is not visible yet. -/
theorem Shows.fill (h : g.Shows type a stage m) (hroom : a.sent.length < a.released + g.segments)
    (hout : ∀ start len, start + len ≤ g.dataOffset a.sent.length ∨
      g.dataOffset a.sent.length + g.segmentSize ≤ start → AgreeOn m' m start len)
    (hcounter : type = .lat → 8 ≤ g.entry) : g.Shows type a stage m' := by
  have hlo : a.released ≤ a.sent.length := a.released_le.trans a.returned_le_sent
  refine h.change hlo hroom ?_ rfl ?_ (fun _ _ _ _ => rfl) (fun _ _ _ hb => hb) ?_ h.lengths
    hcounter
  · intro start len hs
    apply hout
    unfold dataOffset
    unfold fullSize at hs
    omega
  · rw [(hout _ _ (Or.inl (by unfold dataOffset; omega))).readHeader]
    exact h.header _ hlo hroom
  · intro b hb
    simp at hb

/-- A statement of `mark_prev_segment` on the segment the consumer holds. -/
theorem Shows.mark (h : g.Shows type a stage m) (hheld : a.returned = a.released + 1)
    {stage' : MarkStep}
    (hout : ∀ start len, start + len ≤ g.slot a.released ∨ g.dataOffset a.released ≤ start →
      AgreeOn m' m start len)
    (hheader : readHeader m' (g.slot a.released) =
      stage'.applied (g.sentHeader type a a.released))
    (hcounter : type = .lat → 8 ≤ g.entry) : g.Shows type a stage' m' := by
  have hsent := a.returned_le_sent
  refine h.change le_rfl (Nat.lt_add_of_pos_right g.segments_pos) ?_ rfl ?_ ?_
    (fun _ _ _ hb => hb) ?_ h.lengths hcounter
  · intro start len hs
    apply hout
    unfold dataOffset
    unfold fullSize at hs
    omega
  · rw [hheader, expectedHeader, if_pos (by omega), if_pos (by omega)]
  · intro j hj _ hne
    simp only [expectedHeader]
    rw [if_neg (show ¬ j < a.returned by omega), if_neg (show ¬ j < a.returned by omega)]
  · intro b hb
    rw [(hout (g.dataOffset a.released) b.length (Or.inr le_rfl)).readBytes]
    exact h.data _ b le_rfl hb

theorem sentHeader_congr {a' : RingState g} (hsent : a'.sent = a.sent) (hfin : a'.fin = a.fin)
    (j : ℕ) : g.sentHeader type a' j = g.sentHeader type a j := by
  unfold sentHeader
  rw [hsent, hfin]

/-- The segment sent last shows its header: the consumer does not reset it. -/
theorem Shows.readHeader_last (h : g.Shows type a stage m) (hsent : a.sent ≠ [])
    (hstage : (∀ y, stage.applied y = y) ∨ a.returned < a.sent.length) :
    readHeader m (g.slot (a.sent.length - 1)) = g.sentHeader type a (a.sent.length - 1) := by
  have hreleased := a.released_lt_sent hsent
  have hle := a.sent_le
  rw [h.header _ (by omega) (by omega), expectedHeader, if_pos (by omega)]
  split_ifs with hreturned
  · exact hstage.resolve_right (by omega) _
  · rfl

theorem applied_sentHeader {j : ℕ} (hlast : j + 1 < a.sent.length) :
    MarkStep.credit.applied (g.sentHeader type a j) = g.freeHeader j := by
  have hnot : ¬ (a.fin = true ∧ j + 1 = a.sent.length) := by omega
  unfold sentHeader
  rw [if_neg hnot]
  cases type <;> simp [MarkStep.applied, SegmentHeader.setConsumable, SegmentHeader.setWriteable,
    sentFlags, freeHeader]

/-- After the last statement the held segment is free: the window moves by one. -/
theorem Shows.release (h : g.Shows type a .credit m) (hheld : a.returned = a.released + 1)
    (hsent : a.returned < a.sent.length)
    (hagree : ∀ start len, g.entry ≤ start → AgreeOn m' m start len)
    (hcounter : type = .lat →
      readWord m' (g.entry - 8) = (g.segments + a.returned) % sizeTBound) :
    g.Shows type (a.release hsent) .checkEnd m' := by
  refine ⟨fun j hj hj' => ?_, fun j b hj hb => ?_, h.lengths, hcounter⟩
  · rw [LaggedRing.release_released] at hj hj'
    rw [(hagree _ _ (g.le_slot j)).readHeader]
    by_cases hin : j < a.released + g.segments
    · rw [h.header j (by omega) hin]
      simp only [expectedHeader, LaggedRing.release_sent, LaggedRing.release_returned]
      rw [if_neg (show ¬ j < a.returned by omega), if_neg (show ¬ j < a.returned by omega)]
      rfl
    · -- the segment that enters the window lies in the slot given back
      have hj : j = a.released + g.segments := by omega
      have hsl := a.sent_le
      have hslot : g.slot j = g.slot a.released := by rw [hj, g.slot_add_segments]
      have hheld' := h.header a.released le_rfl (Nat.lt_add_of_pos_right g.segments_pos)
      rw [hslot, hheld', expectedHeader, if_pos (by omega), if_pos (by omega),
        applied_sentHeader (by omega), expectedHeader, if_neg (by simp; omega), hj,
        g.freeHeader_add_segments]
  · rw [LaggedRing.release_released] at hj
    have hle : g.entry ≤ g.dataOffset j := (g.le_slot j).trans (Nat.le_add_right _ _)
    rw [(hagree _ _ hle).readBytes]
    exact h.data j b (by omega) hb

theorem Shows.take (h : g.Shows type a .checkEnd m) (hrel : a.released = a.returned)
    (hsent : a.returned < a.sent.length) : g.Shows type (a.take hrel hsent) .checkEnd m := by
  refine ⟨fun j hj hj' => ?_, h.data, h.lengths, h.counter⟩
  rw [h.header j hj hj']
  simp only [expectedHeader, MarkStep.applied, LaggedRing.take_sent, ite_self]
  rfl

/-- Only segments that have been sent are consumable. -/
theorem Shows.isConsumable_iff (h : g.Shows type a stage m)
    (hwindow : a.returned < a.released + g.segments) :
    (readHeader m (g.slot a.returned)).isConsumable = true ↔ a.returned < a.sent.length := by
  rw [h.header _ a.released_le hwindow, expectedHeader]
  by_cases hsent : a.returned < a.sent.length
  · rw [if_pos hsent, if_neg (Nat.lt_irrefl _)]
    refine iff_of_true ?_ hsent
    unfold sentHeader
    split_ifs
    · simp [SegmentHeader.isConsumable]
    · cases type <;> simp [SegmentHeader.isConsumable, sentFlags]
  · rw [if_neg hsent]
    exact iff_of_false (by simp [SegmentHeader.isConsumable, freeHeader]) hsent

theorem Shows.readHeader_held (h : g.Shows type a stage m) (hheld : a.returned = a.released + 1) :
    readHeader m (g.slot a.released) = stage.applied (g.sentHeader type a a.released) := by
  have hsent := a.returned_le_sent
  rw [h.header _ le_rfl (Nat.lt_add_of_pos_right g.segments_pos), expectedHeader,
    if_pos (by omega), if_pos (by omega)]

/-- Headers have no bits but the three flags. -/
theorem segmentFlags_expectedHeader_lt (j : ℕ) :
    (g.expectedHeader type a stage j).segmentFlags < 8 := by
  have hsent : (g.sentHeader type a j).segmentFlags = 2 ∨
      (g.sentHeader type a j).segmentFlags = 3 ∨ (g.sentHeader type a j).segmentFlags = 6 := by
    unfold sentHeader
    split_ifs
    · simp
    · cases type <;> simp [sentFlags]
  unfold expectedHeader
  split_ifs
  · rcases hsent with h | h | h <;> cases stage <;>
      simp [MarkStep.applied, SegmentHeader.setConsumable, SegmentHeader.setWriteable, h]
  · rcases hsent with h | h | h <;> rw [h] <;> decide
  · simp [freeHeader]

theorem Shows.segmentFlags_lt (h : g.Shows type a stage m) (j : ℕ) :
    (readHeader m (g.slot j)).segmentFlags < 8 := by
  obtain ⟨j', hlo, hhi, hslot⟩ := g.exists_window a.released j
  rw [← hslot, h.header j' hlo hhi]
  exact segmentFlags_expectedHeader_lt j'

/-- The segment held carries the end flag exactly when nothing follows it. -/
theorem isEndSegment_sentHeader (j : ℕ) :
    (g.sentHeader type a j).isEndSegment = true ↔ a.fin = true ∧ j + 1 = a.sent.length := by
  unfold sentHeader
  split_ifs with hlast
  · exact iff_of_true (by simp [SegmentHeader.isEndSegment]) hlast
  · refine iff_of_false ?_ hlast
    cases type <;> simp [SegmentHeader.isEndSegment, sentFlags]

theorem isWriteable_sentHeader {j : ℕ} (hlast : j + 1 < a.sent.length) :
    (g.sentHeader .lat a j).isWriteable = true := by
  unfold sentHeader
  rw [if_neg (by omega)]
  simp [SegmentHeader.isWriteable, sentFlags]

/-- Stages that have not touched the header yet show the same memory. -/
theorem Shows.stage_congr (h : g.Shows type a stage m) {stage' : MarkStep}
    (happlied : a.returned = a.released ∨ ∀ y, stage'.applied y = stage.applied y) :
    g.Shows type a stage' m := by
  refine ⟨fun j hj hj' => ?_, h.data, h.lengths, h.counter⟩
  rw [h.header j hj hj', expectedHeader, expectedHeader]
  rcases happlied with heq | happlied
  · rw [if_neg (show ¬ j < a.returned by omega), if_neg (show ¬ j < a.returned by omega)]
  · rw [happlied]

theorem sentHeader_nextSegmentOffset (j : ℕ) :
    (g.sentHeader type a j).nextSegmentOffset = g.slot (j + 1) := by
  unfold sentHeader
  split_ifs <;> rfl

theorem flatten_drop {α : Type*} {l : List (List α)} {j : ℕ} (hj : j < l.length) :
    (l.drop j).flatten = l[j] ++ (l.drop (j + 1)).flatten := by
  rw [List.drop_eq_getElem_cons hj, List.flatten_cons]

/-- A segment of a ring that nothing has been released of, as a reader finds it. -/
theorem Shows.readSegment (h : g.Shows .bw a .checkEnd m) (hreleased : a.released = 0) {j : ℕ}
    (hj : j < a.sent.length) :
    (readHeader m (g.slot j)).nextSegmentOffset = g.slot (j + 1) ∧
      ((readHeader m (g.slot j)).isEndSegment = true ↔ a.fin = true ∧ j + 1 = a.sent.length) ∧
      (readHeader m (g.slot j)).counter = a.sent[j].length ∧
      readBytes m (g.slot j + segmentHeaderSize) a.sent[j].length = a.sent[j] := by
  have hle := a.sent_le
  have hheader : readHeader m (g.slot j) = g.sentHeader .bw a j := by
    rw [h.header j (by omega) (by omega), expectedHeader, if_pos hj]
    exact ite_self _
  have hcounter : (g.sentHeader .bw a j).counter = a.sent[j].length := by
    unfold sentHeader
    split_ifs <;> simp [List.getD_eq_getElem?_getD, hj]
  rw [hheader]
  exact ⟨sentHeader_nextSegmentOffset j, isEndSegment_sentHeader j, hcounter,
    h.data j _ (by omega) (List.getElem?_eq_getElem hj)⟩

/-- What the node writes for a ring stays inside its block. -/
theorem agreeOn_initRing (g : RingGeometry) (hcounter : NodeServer.counterSize type ≤ g.entry)
    {start len : ℕ} (hout : start + len ≤ (g.block type).start ∨
      (g.block type).start + (g.block type).length ≤ start) :
    AgreeOn (NodeServer.initRing m type (g.block type).start g.segments g.fullSize).1 m start
      len := by
  cases type with
  | bw =>
    simp only [block, NodeServer.counterSize] at hout
    exact g.agreeOn_initHeaders m (by omega)
  | lat =>
    simp only [block, NodeServer.counterSize] at hout hcounter
    have hentry : (g.entry - 8 + 8) % sizeTBound = g.entry := by
      rw [Nat.sub_add_cancel hcounter]
      exact Nat.mod_eq_of_lt (by have := g.fits; omega)
    simp only [NodeServer.initRing, block, NodeServer.counterSize, hentry]
    exact (g.agreeOn_initHeaders _ (by omega)).trans (agreeOn_writeWord (by omega))

theorem readHeader_initRing (g : RingGeometry) (hcounter : NodeServer.counterSize type ≤ g.entry)
    (j : ℕ) : readHeader (NodeServer.initRing m type (g.block type).start g.segments g.fullSize).1
      (g.slot j) = g.freeHeader j := by
  cases type with
  | bw => exact g.readHeader_initHeaders m j
  | lat =>
    simp only [NodeServer.counterSize] at hcounter
    have hentry : (g.entry - 8 + 8) % sizeTBound = g.entry := by
      rw [Nat.sub_add_cancel hcounter]
      exact Nat.mod_eq_of_lt (by have := g.fits; omega)
    simp only [NodeServer.initRing, block, NodeServer.counterSize, hentry]
    exact g.readHeader_initHeaders _ j

/-- A ring just built is empty. -/
theorem shows_initRing (g : RingGeometry) (hcounter : NodeServer.counterSize type ≤ g.entry) :
    g.Shows type (.empty (List UInt8) g.segments) .checkEnd
      (NodeServer.initRing m type (g.block type).start g.segments g.fullSize).1 := by
  refine ⟨fun j hj hj' => ?_, fun j b hj hb => ?_, by simp, fun htype => ?_⟩
  · simp only [expectedHeader, LaggedRing.empty_sent, List.length_nil, Nat.not_lt_zero, if_false]
    exact g.readHeader_initRing hcounter j
  · simp at hb
  · subst htype
    simp only [NodeServer.counterSize] at hcounter
    have hentry : (g.entry - 8 + 8) % sizeTBound = g.entry := by
      rw [Nat.sub_add_cancel hcounter]
      exact Nat.mod_eq_of_lt (by have := g.fits; omega)
    have hlt : g.segments < sizeTBound := by
      have hfits := g.fits
      have hmul := Nat.mul_le_mul_left g.segments
        (show 1 ≤ g.segmentSize + segmentHeaderSize by unfold segmentHeaderSize; omega)
      omega
    simp only [NodeServer.initRing, block, NodeServer.counterSize, hentry]
    rw [(g.agreeOn_initHeaders _ (Or.inl (by omega))).readWord, readWord_writeWord _ _ _ hlt,
      LaggedRing.empty_released, Nat.add_zero, Nat.mod_eq_of_lt hlt]

end RingGeometry
end DpiLibrary
