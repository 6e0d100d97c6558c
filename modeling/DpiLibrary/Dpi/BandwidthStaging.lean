import DpiLibrary.Foundation.Schedule
import DpiLibrary.Foundation.Packing
import DpiLibrary.Dpi.BufferWriterBW

/-!
# The staging buffer of the bandwidth writer

Data is copied behind the data copied last. Where a piece does not fit, the header
is written first, and that write is signaled: when it returns, everything posted
before is complete and the buffer starts again empty. A signal that the client
forces completes what was posted even earlier, so leaving it out makes the posted
writes that may not be overwritten only more.
-/

namespace DpiLibrary

/-- The writer moves, or the queue pair executes the operation at its head on some memory. -/
inductive BandwidthMove where
  | step
  | nic (m : Mem)

/-- The bytes of the internal buffer that an operation sends. -/
def RemoteOp.source : RemoteOp → List Span
  | .writeData _ src len => [⟨src, len⟩]
  | _ => []

/-- Data of the running call that a control location still has to copy. -/
def WriterPc.pieces : WriterPc → List (List UInt8)
  | .superAppend data _ => [data]
  | .flush data (.split later _) => [data, later]
  | .flush data (.done _) => [data]
  | .getNextSegment data _ => [data]
  | .handOver _ data _ => [data]
  | .poll _ data _ => [data]
  | _ => []

/-- A step from here is the return of a signaled operation. -/
def WriterPc.waits : WriterPc → Bool
  | .constructed => true
  | .flush _ _ => true
  | .handOver _ _ _ => true
  | .poll _ _ _ => true
  | .closing => true
  | _ => false

namespace BufferWriterBW

variable {w w' : BufferWriterBW}

/-- The places in the internal buffer that a step copies to: those of the data it posts. -/
def copies (w w' : BufferWriterBW) : List Span :=
  (w'.queue.drop w.queue.length).flatMap RemoteOp.source

/-- Pieces still to be copied fit the internal buffer, and so does what has been copied. -/
structure PiecesFit (w : BufferWriterBW) : Prop where
  pieces : ∀ data ∈ w.pc.pieces, data.length ≤ w.internalBufferSize
  offset : w.internalOffset ≤ w.internalBufferSize

/-- A step copies nothing, or one piece behind the others, or one piece at the beginning when a
signaled operation has returned. -/
inductive CopyStep (w w' : BufferWriterBW) : Prop
  | none (h : w.copies w' = []) (hoffset : w'.internalOffset = w.internalOffset)
  | behind (len : ℕ) (h : w.copies w' = [⟨w.internalOffset, len⟩])
      (hoffset : w'.internalOffset = w.internalOffset + len)
      (hfits : w.internalOffset + len ≤ w.internalBufferSize)
  | first (len : ℕ) (hwaits : w.pc.waits = true) (h : w.copies w' = [⟨0, len⟩])
      (hoffset : w'.internalOffset = len) (hfits : len ≤ w.internalBufferSize)

theorem copies_post (w : BufferWriterBW) {op : RemoteOp} (hop : op.source = []) (pc : WriterPc) :
    w.copies (w.post op pc) = [] := by
  have hposted : (w.post op pc).queue.drop w.queue.length = [op] := List.drop_left
  simp [copies, hposted, hop]

theorem copies_of_queue (h : w'.queue = w.queue) : w.copies w' = [] := by
  simp [copies, h]

theorem copies_postData (w : BufferWriterBW) (offset : ℕ) (data : List UInt8)
    (after : AfterWrite) : w.copies (w.postData offset data after) = [⟨offset, data.length⟩] := by
  have hposted : (w.postData offset data after).queue.drop w.queue.length =
      [.writeData (w.segmentOffset + w.sizeUsed + segmentHeaderSize) offset data.length] :=
    List.drop_left
  simp [copies, hposted, RemoteOp.source]

/-- The internal buffer changes where a step copies to and nowhere else. -/
theorem postData_outside (w : BufferWriterBW) (offset : ℕ) (data : List UInt8)
    (after : AfterWrite) {x : ℕ}
    (hx : ∀ c ∈ w.copies (w.postData offset data after), ¬ c.Contains x) :
    (w.postData offset data after).internalBuffer x = w.internalBuffer x := by
  rw [copies_postData] at hx
  have hnot : ¬ Writes (offset, data) x := hx _ (List.mem_singleton_self _)
  exact writeBytes_of_not_writes hnot

/-- `writeToSegment` copies a piece that fits, or asks for the buffer to be emptied first. -/
theorem writeToSegment_cases (w : BufferWriterBW) (data : List UInt8) (after : AfterWrite) :
    (data.length + w.internalOffset ≤ w.internalBufferSize ∧
      w.writeToSegment data after = w.postData w.internalOffset data after) ∨
    w.writeToSegment data after = w.post (.writeHeader w.segmentOffset) (.flush data after) := by
  unfold writeToSegment
  split_ifs with hfits
  · exact Or.inl ⟨hfits, rfl⟩
  · exact Or.inr rfl

/-- What `writeToSegment` leads to, when the piece and what follows it fit. -/
theorem writeToSegment_fits (h : w.PiecesFit) (data : List UInt8) (after : AfterWrite)
    (hdata : data.length ≤ w.internalBufferSize)
    (hafter : ∀ later ∈ after.pc.pieces, later.length ≤ w.internalBufferSize) :
    CopyStep w (w.writeToSegment data after) ∧ (w.writeToSegment data after).PiecesFit ∧
      (w.writeToSegment data after).internalBufferSize = w.internalBufferSize := by
  rcases w.writeToSegment_cases data after with ⟨hfits, heq⟩ | heq <;> rw [heq]
  · refine ⟨.behind data.length (w.copies_postData _ _ _) rfl (by omega), ⟨hafter, ?_⟩, rfl⟩
    simp only [postData]
    omega
  · refine ⟨.none (w.copies_post rfl _) rfl, ⟨?_, h.offset⟩, rfl⟩
    cases after with
    | split later rest =>
      have hlater := hafter later (List.mem_singleton_self _)
      simpa [post, WriterPc.pieces] using ⟨hdata, hlater⟩
    | done rest => simpa [post, WriterPc.pieces] using hdata

theorem superAppend_fits (h : w.PiecesFit) {data : List UInt8} {rest : Option (List UInt8)}
    (hdata : data.length ≤ w.internalBufferSize) :
    CopyStep w (w.superAppend data rest) ∧ (w.superAppend data rest).PiecesFit ∧
      (w.superAppend data rest).internalBufferSize = w.internalBufferSize := by
  by_cases hsplit : w.segmentSize < w.sizeUsed + data.length
  · by_cases hfirst : 0 < w.segmentSize - w.sizeUsed
    · have hfits := writeToSegment_fits h (data.take (w.segmentSize - w.sizeUsed))
        (.split (data.drop (w.segmentSize - w.sizeUsed)) rest)
        (by rw [List.length_take]; omega)
        (by
          intro later hlater
          rw [List.mem_singleton.mp hlater, List.length_drop]
          omega)
      simpa [superAppend, hsplit, hfirst] using hfits
    · have hnext : w.superAppend data rest = { w with pc := .getNextSegment data rest } := by
        simp [superAppend, hsplit, hfirst]
      rw [hnext]
      exact ⟨.none (copies_of_queue rfl) rfl,
        ⟨by simpa [WriterPc.pieces] using hdata, h.offset⟩, rfl⟩
  · have hwrite : w.superAppend data rest = w.writeToSegment data (.done rest) := by
      simp [superAppend, hsplit]
    rw [hwrite]
    exact writeToSegment_fits h data _ hdata
      (by cases rest <;> simp [AfterWrite.pc, WriterPc.pieces])

theorem nextCall_fits (h : w.PiecesFit) (hcall : w.nextCall = some w') :
    CopyStep w w' ∧ w'.PiecesFit ∧ w'.internalBufferSize = w.internalBufferSize := by
  unfold nextCall at hcall
  rcases hcalls : w.calls with _ | ⟨data | _, calls⟩ <;> rw [hcalls] at hcall <;> cases hcall
  · exact ⟨.none (copies_of_queue rfl) rfl, ⟨by simp [WriterPc.pieces], h.offset⟩, rfl⟩
  · exact ⟨.none (copies_post { w with calls, header := w.closedHeader } rfl _) rfl,
      ⟨by simp [post, WriterPc.pieces], h.offset⟩, rfl⟩

theorem step_fits (h : w.PiecesFit) (hstep : w.step = some w') :
    CopyStep w w' ∧ w'.PiecesFit ∧ w'.internalBufferSize = w.internalBufferSize := by
  have hpieces := h.pieces
  unfold step at hstep
  cases hpc : w.pc with
  | constructing =>
    simp only [hpc, Option.some.injEq] at hstep
    subst hstep
    exact ⟨.none (w.copies_post rfl _) rfl, ⟨by simp [post, WriterPc.pieces], h.offset⟩, rfl⟩
  | constructed =>
    simp only [hpc] at hstep
    split_ifs at hstep
    cases hstep
    exact ⟨.none (copies_of_queue rfl) rfl, ⟨by simp [WriterPc.pieces], h.offset⟩, rfl⟩
  | idle =>
    simp only [hpc] at hstep
    exact nextCall_fits h hstep
  | append data =>
    simp only [hpc] at hstep
    split_ifs at hstep with hlong <;> cases hstep
    · exact ⟨.none (copies_of_queue rfl) rfl, ⟨by simp [WriterPc.pieces], h.offset⟩, rfl⟩
    · exact ⟨.none (copies_of_queue rfl) rfl, ⟨by simpa [WriterPc.pieces] using hlong, h.offset⟩,
        rfl⟩
  | superAppend data rest =>
    simp only [hpc, Option.some.injEq] at hstep
    subst hstep
    exact superAppend_fits h (hpieces data (by simp [hpc, WriterPc.pieces]))
  | flush data after =>
    simp only [hpc] at hstep
    split_ifs at hstep
    cases hstep
    have hdata : data.length ≤ w.internalBufferSize := by
      cases after <;> exact hpieces data (by simp [hpc, WriterPc.pieces])
    refine ⟨.first data.length (by rw [hpc]; rfl) (w.copies_postData _ _ _)
      (by simp [postData]) hdata, ⟨?_, by simpa [postData] using hdata⟩, rfl⟩
    cases after with
    | split later rest =>
      simpa [postData, AfterWrite.pc, WriterPc.pieces] using
        hpieces later (by simp [hpc, WriterPc.pieces])
    | done rest => cases rest <;> simp [postData, AfterWrite.pc, WriterPc.pieces]
  | getNextSegment data rest =>
    simp only [hpc, Option.some.injEq] at hstep
    subst hstep
    exact ⟨.none (copies_post { w with header := w.consumableHeader } rfl _) rfl,
      ⟨by simpa [post, WriterPc.pieces] using hpieces data (by simp [hpc, WriterPc.pieces]),
        h.offset⟩, rfl⟩
  | handOver next data rest =>
    simp only [hpc] at hstep
    split_ifs at hstep
    cases hstep
    exact ⟨.none (w.copies_post rfl _) rfl,
      ⟨by simpa [post, WriterPc.pieces] using hpieces data (by simp [hpc, WriterPc.pieces]),
        h.offset⟩, rfl⟩
  | poll next data rest =>
    have hdata := hpieces data (by simp [hpc, WriterPc.pieces])
    simp only [hpc] at hstep
    split_ifs at hstep <;> cases hstep
    · exact ⟨.none (copies_of_queue rfl) rfl,
        ⟨by simpa [WriterPc.pieces] using hdata, h.offset⟩, rfl⟩
    · exact ⟨.none (w.copies_post rfl _) rfl,
        ⟨by simpa [post, WriterPc.pieces] using hdata, h.offset⟩, rfl⟩
  | closing =>
    simp only [hpc] at hstep
    split_ifs at hstep
    cases hstep
    exact ⟨.none (copies_of_queue rfl) rfl, ⟨by simp [WriterPc.pieces], h.offset⟩, rfl⟩
  | closed =>
    simp only [hpc] at hstep
    exact nextCall_fits h hstep

theorem nic_fits {m m' : Mem} {shown : Option ℕ} (h : w.PiecesFit)
    (hnic : w.nic m = some (m', w', shown)) :
    w'.PiecesFit ∧ w'.internalOffset = w.internalOffset ∧
      w'.internalBufferSize = w.internalBufferSize := by
  unfold nic at hnic
  rcases hqueue : w.queue with _ | ⟨op, queue⟩
  · simp [hqueue] at hnic
  · cases op <;> simp only [hqueue, Option.some.injEq, Prod.mk.injEq] at hnic <;>
      obtain ⟨-, rfl, -⟩ := hnic <;> exact ⟨⟨h.pieces, h.offset⟩, rfl, rfl⟩

end BufferWriterBW

/-- A bandwidth writer with the places in its internal buffer of the data that is posted and
not known complete. -/
structure StagedBandwidth where
  writer : BufferWriterBW
  unknown : List Span

namespace StagedBandwidth

open Schedule BufferWriterBW

variable {s t : StagedBandwidth} {a : BandwidthMove}

def init (writer : BufferWriterBW) : StagedBandwidth := ⟨writer, []⟩

/-- What is posted and not known complete when a step copies: nothing, if the step is the
return of a signaled operation. -/
def pending (s : StagedBandwidth) : List Span := if s.writer.pc.waits then [] else s.unknown

def move (s : StagedBandwidth) : BandwidthMove → Option StagedBandwidth
  | .step => s.writer.step.map fun writer => ⟨writer, s.pending ++ s.writer.copies writer⟩
  | .nic m => (s.writer.nic m).map fun r => { s with writer := r.2.1 }

/-- The copies of a step lie inside the internal buffer and touch no data that is posted and
not known complete. -/
def StagesSafely (s : StagedBandwidth) (a : BandwidthMove) : Prop :=
  a = .step → ∀ writer, s.writer.step = some writer → ∀ c ∈ s.writer.copies writer,
    c.Inside s.writer.internalBufferSize ∧ ∀ u ∈ s.pending, c.Apart u

/-- The pieces fit, and the data not known complete lies below the staging offset. -/
structure Inv (s : StagedBandwidth) : Prop where
  fits : s.writer.PiecesFit
  below : ∀ u ∈ s.unknown, u.start + u.length ≤ s.writer.internalOffset

theorem inv_init (entry segmentSize internalBufferSize : ℕ) (calls : List WriterCall) :
    Inv (init (.init entry segmentSize internalBufferSize calls)) where
  fits := ⟨by simp [init, BufferWriterBW.init, WriterPc.pieces], Nat.zero_le _⟩
  below := by simp [init]

theorem Inv.pending (hs : Inv s) :
    ∀ u ∈ s.pending, u.start + u.length ≤ s.writer.internalOffset := by
  unfold StagedBandwidth.pending
  split_ifs
  · simp
  · exact hs.below

theorem Inv.move (hs : Inv s) (h : s.move a = some t) : Inv t := by
  have hpending := hs.pending
  cases a with
  | step =>
    obtain ⟨w', hstep, rfl⟩ := Option.map_eq_some_iff.mp h
    obtain ⟨hcopy, hfits, -⟩ := step_fits hs.fits hstep
    refine ⟨hfits, fun u hu => ?_⟩
    simp only at hu ⊢
    cases hcopy with
    | none hnone hoffset =>
      rw [hnone, List.append_nil] at hu
      rw [hoffset]
      exact hpending u hu
    | behind len hbehind hoffset _ =>
      rw [hbehind, List.mem_append, List.mem_singleton] at hu
      rw [hoffset]
      rcases hu with hu | rfl
      · exact (hpending u hu).trans (Nat.le_add_right _ _)
      · exact le_rfl
    | first len hwaits hfirst hoffset _ =>
      simp only [StagedBandwidth.pending, hwaits, if_true, hfirst, List.nil_append,
        List.mem_singleton] at hu
      rw [hu, hoffset]
      exact (Nat.zero_add len).le
  | nic m =>
    obtain ⟨⟨m', w', shown⟩, hnic, rfl⟩ := Option.map_eq_some_iff.mp h
    obtain ⟨hfits, hoffset, -⟩ := nic_fits hs.fits hnic
    refine ⟨hfits, fun u hu => ?_⟩
    rw [hoffset]
    exact hs.below u hu

theorem Inv.stagesSafely (hs : Inv s) (a : BandwidthMove) : StagesSafely s a := by
  rintro - w' hstep c hc
  have hoffset := hs.fits.offset
  obtain ⟨hcopy, -, -⟩ := step_fits hs.fits hstep
  cases hcopy with
  | none hnone _ =>
    rw [hnone] at hc
    cases hc
  | behind len hbehind _ hfits =>
    rw [hbehind, List.mem_singleton] at hc
    subst hc
    exact ⟨hfits, fun u hu => Or.inr (hs.pending u hu)⟩
  | first len hwaits hfirst _ hfits =>
    rw [hfirst, List.mem_singleton] at hc
    subst hc
    refine ⟨by simpa [Span.Inside] using hfits, fun u hu => ?_⟩
    simp [StagedBandwidth.pending, hwaits] at hu

/-- Whatever is appended and whatever the remote side shows, each copy lies inside the internal
buffer and overwrites nothing that is posted and not known complete. -/
theorem stages_safely (entry segmentSize internalBufferSize : ℕ) (calls : List WriterCall)
    (moves : List BandwidthMove) :
    EachStep move StagesSafely (init (.init entry segmentSize internalBufferSize calls)) moves := by
  have hinv : ∀ pre s, exec move (init (.init entry segmentSize internalBufferSize calls)) pre =
      some s → Inv s := fun pre s hs =>
    invariant_exec (fun _ _ _ hs h => Inv.move hs h) pre _ s
      (inv_init entry segmentSize internalBufferSize calls) hs
  intro pre a s t _ hpre _
  exact (hinv pre s hpre).stagesSafely a

end StagedBandwidth
end DpiLibrary
