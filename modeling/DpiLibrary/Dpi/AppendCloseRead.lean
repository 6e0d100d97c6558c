import DpiLibrary.Dpi.BandwidthRing
import DpiLibrary.Dpi.BufferReader

/-!
# Append, close, read

Without a consumer the writers of a bandwidth buffer finish, if what each of them
appends fits into its ring: every wait ends, and the work left decreases with every
step. The reader then finds everything that was appended.
-/

namespace DpiLibrary

variable {k : ℕ}

/-- Steps a call may take per chunk of the internal buffer and per byte. -/
def restWork (rest : Option (List UInt8)) : ℕ := rest.elim 0 fun data => 8 * data.length + 3

def AfterWrite.work (size full : ℕ) : AfterWrite → ℕ
  | .split data rest => 5 * data.length + 6 + restWork rest
  | .done rest => 5 * size + 1 + restWork rest + full

/-- Bound on the steps left in the running call. A full segment costs a hand-over more. -/
def WriterPc.work (full : ℕ) : WriterPc → ℕ
  | .constructing => 2 + full
  | .constructed => 1 + full
  | .idle => full
  | .append data => 8 * data.length + 3 + full
  | .superAppend data rest => 5 * data.length + 2 + restWork rest + full
  | .flush data after => after.work data.length full
  | .getNextSegment data rest => 5 * data.length + 5 + restWork rest
  | .handOver _ data rest => 5 * data.length + 4 + restWork rest
  | .poll _ data rest => 5 * data.length + 3 + restWork rest
  | .closing => 1
  | .closed => 0

def WriterCall.work : WriterCall → ℕ
  | .append data => 8 * data.length + 4
  | .close => 2

namespace BufferWriterBW

/-- What a full segment costs. -/
def fullWork (w : BufferWriterBW) : ℕ := if w.sizeUsed = w.segmentSize then 4 else 0

/-- Bound on the steps of the writer itself. -/
def steps (w : BufferWriterBW) : ℕ :=
  w.pc.work w.fullWork + (w.calls.map WriterCall.work).sum

/-- Bound on the steps the writer and its queue pair have left: a step posts at most one
operation. -/
def work (w : BufferWriterBW) : ℕ := 2 * w.steps + w.queue.length

theorem work_lt {w w' : BufferWriterBW} (hsteps : w'.steps < w.steps)
    (hqueue : w'.queue.length ≤ w.queue.length + 1) : w'.work < w.work := by
  unfold work
  omega

theorem fullWork_le (w : BufferWriterBW) : w.fullWork ≤ 4 := by
  unfold fullWork
  split_ifs <;> omega

/-- A data write takes a step or its bytes off. -/
theorem steps_postData_lt (w : BufferWriterBW) (offset : ℕ) (data : List UInt8)
    (after : AfterWrite) :
    (w.postData offset data after).steps <
      after.work data.length w.fullWork + (w.calls.map WriterCall.work).sum := by
  have hle := (w.postData offset data after).fullWork_le
  show after.pc.work (w.postData offset data after).fullWork +
    (w.calls.map WriterCall.work).sum < _
  cases after with
  | split data' rest =>
    simp only [AfterWrite.pc, WriterPc.work, AfterWrite.work]
    omega
  | done rest =>
    have hpc : (AfterWrite.done rest).pc.work (w.postData offset data (.done rest)).fullWork =
        restWork rest + (w.postData offset data (.done rest)).fullWork := by
      cases rest <;> simp [AfterWrite.pc, WriterPc.work, restWork]
    rw [hpc]
    simp only [AfterWrite.work]
    cases data with
    | nil =>
      have hsame : (w.postData offset [] (.done rest)).fullWork = w.fullWork := by
        simp [fullWork, postData]
      rw [hsame]
      omega
    | cons byte data =>
      simp only [List.length_cons]
      omega

theorem steps_writeToSegment_le (w : BufferWriterBW) (data : List UInt8) (after : AfterWrite) :
    (w.writeToSegment data after).steps ≤
      after.work data.length w.fullWork + (w.calls.map WriterCall.work).sum := by
  unfold BufferWriterBW.writeToSegment
  split_ifs
  · exact (w.steps_postData_lt _ _ _).le
  · exact le_rfl

theorem length_queue_writeToSegment (w : BufferWriterBW) (data : List UInt8)
    (after : AfterWrite) :
    (w.writeToSegment data after).queue.length = w.queue.length + 1 := by
  unfold BufferWriterBW.writeToSegment
  split_ifs <;> simp [postData, post]

theorem work_superAppend_lt (w : BufferWriterBW) {data : List UInt8} {rest : Option (List UInt8)}
    (hpc : w.pc = .superAppend data rest) (hused : w.sizeUsed ≤ w.segmentSize) :
    (w.superAppend data rest).work < w.work := by
  have hsteps : w.steps = 5 * data.length + 2 + restWork rest + w.fullWork +
      (w.calls.map WriterCall.work).sum := by
    simp only [steps, hpc, WriterPc.work]
  by_cases hsplit : w.segmentSize < w.sizeUsed + data.length
  · by_cases hpart : 0 < w.segmentSize - w.sizeUsed
    · have heq : w.superAppend data rest =
          w.writeToSegment (data.take (w.segmentSize - w.sizeUsed))
            (.split (data.drop (w.segmentSize - w.sizeUsed)) rest) := by
        simp [BufferWriterBW.superAppend, hsplit, hpart]
      have hle := w.steps_writeToSegment_le (data.take (w.segmentSize - w.sizeUsed))
        (.split (data.drop (w.segmentSize - w.sizeUsed)) rest)
      simp only [AfterWrite.work, List.length_drop] at hle
      rw [heq]
      exact work_lt (by omega) (length_queue_writeToSegment _ _ _).le
    · -- the segment is full
      have heq : w.superAppend data rest = { w with pc := .getNextSegment data rest } := by
        simp [BufferWriterBW.superAppend, hsplit, hpart]
      have hfull : w.fullWork = 4 := if_pos (by omega)
      rw [heq]
      refine work_lt ?_ (Nat.le_succ _)
      show WriterPc.work w.fullWork (.getNextSegment data rest) +
        (w.calls.map WriterCall.work).sum < _
      simp only [hsteps, WriterPc.work]
      omega
  · have heq : w.superAppend data rest = w.writeToSegment data (.done rest) := by
      simp [BufferWriterBW.superAppend, hsplit]
    have hle := w.steps_writeToSegment_le data (.done rest)
    simp only [AfterWrite.work] at hle
    rw [heq]
    exact work_lt (by omega) (length_queue_writeToSegment _ _ _).le

theorem work_nextCall_lt {w w' : BufferWriterBW} (hpc : w.pc = .idle)
    (hstep : w.nextCall = some w') : w'.work < w.work := by
  cases hcalls : w.calls with
  | nil => simp [nextCall, hcalls] at hstep
  | cons call calls =>
    have hsteps : w.steps = w.fullWork + (call.work + (calls.map WriterCall.work).sum) := by
      simp only [steps, hpc, hcalls, WriterPc.work, List.map_cons, List.sum_cons]
    cases call with
    | append data =>
      simp only [nextCall, hcalls, Option.some.injEq] at hstep
      subst hstep
      refine work_lt ?_ (Nat.le_succ _)
      show WriterPc.work w.fullWork (.append data) + (calls.map WriterCall.work).sum < _
      simp only [hsteps, WriterPc.work, WriterCall.work]
      omega
    | close =>
      simp only [nextCall, hcalls, Option.some.injEq] at hstep
      subst hstep
      refine work_lt ?_ (by simp [post])
      show 1 + (calls.map WriterCall.work).sum < _
      simp only [hsteps, WriterCall.work]
      omega

/-- Every step takes work off, unless it is a poll that finds the segment taken. -/
theorem Inv.work_step_lt {g : RingGeometry} {x : RingState g} {m : Mem} {program : List UInt8}
    {w w' : BufferWriterBW} (h : Inv g program x m w) (hsize : 0 < g.segmentSize)
    (hbuffer : 0 < w.internalBufferSize)
    (hpoll : ∀ next data rest, w.pc = .poll next data rest → w.queue = [] →
      w.header.isWriteable = true) (hstep : w.step = some w') : w'.work < w.work := by
  obtain ⟨cur, -, hstate⟩ := h.state
  have hseg := h.segmentSize
  have hsteps : w.steps = w.pc.work w.fullWork + (w.calls.map WriterCall.work).sum := rfl
  unfold State at hstate
  cases hpc : w.pc with
  | constructing =>
    simp only [BufferWriterBW.step, hpc, Option.some.injEq] at hstep
    subst hstep
    refine work_lt ?_ (by simp [post])
    show WriterPc.work w.fullWork .constructed + (w.calls.map WriterCall.work).sum < _
    simp only [hsteps, hpc, WriterPc.work]
    omega
  | constructed =>
    simp only [BufferWriterBW.step, hpc] at hstep
    split_ifs at hstep
    cases hstep
    refine work_lt ?_ (Nat.le_succ _)
    show WriterPc.work w.fullWork .idle + (w.calls.map WriterCall.work).sum < _
    simp only [hsteps, hpc, WriterPc.work]
    omega
  | idle =>
    simp only [BufferWriterBW.step, hpc] at hstep
    exact work_nextCall_lt hpc hstep
  | append data =>
    simp only [BufferWriterBW.step, hpc] at hstep
    split_ifs at hstep with hlarge
    · cases hstep
      refine work_lt ?_ (Nat.le_succ _)
      show WriterPc.work w.fullWork (.superAppend (data.take w.internalBufferSize)
        (some (data.drop w.internalBufferSize))) + (w.calls.map WriterCall.work).sum < _
      simp only [hsteps, hpc, WriterPc.work, restWork, Option.elim_some, List.length_take,
        List.length_drop]
      omega
    · cases hstep
      refine work_lt ?_ (Nat.le_succ _)
      show WriterPc.work w.fullWork (.superAppend data none) +
        (w.calls.map WriterCall.work).sum < _
      simp only [hsteps, hpc, WriterPc.work, restWork, Option.elim_none]
      omega
  | superAppend data rest =>
    simp only [BufferWriterBW.step, hpc, Option.some.injEq] at hstep
    subst hstep
    simp only [hpc] at hstate
    refine w.work_superAppend_lt hpc ?_
    rw [hstate.size, hseg]
    exact hstate.fits
  | flush data after =>
    simp only [BufferWriterBW.step, hpc] at hstep
    split_ifs at hstep
    cases hstep
    refine work_lt ?_ (by simp [postData])
    rw [hsteps, hpc]
    exact w.steps_postData_lt 0 data after
  | getNextSegment data rest =>
    simp only [BufferWriterBW.step, hpc, Option.some.injEq] at hstep
    subst hstep
    refine work_lt ?_ (by simp [post])
    show WriterPc.work w.fullWork (.handOver w.header.nextSegmentOffset data rest) +
      (w.calls.map WriterCall.work).sum < _
    simp only [hsteps, hpc, WriterPc.work]
    omega
  | handOver next data rest =>
    simp only [BufferWriterBW.step, hpc] at hstep
    split_ifs at hstep
    cases hstep
    refine work_lt ?_ (by simp [post])
    show WriterPc.work w.fullWork (.poll next data rest) + (w.calls.map WriterCall.work).sum < _
    simp only [hsteps, hpc, WriterPc.work]
    omega
  | poll next data rest =>
    simp only [BufferWriterBW.step, hpc] at hstep
    split_ifs at hstep with hqueue hwriteable
    · cases hstep
      refine work_lt ?_ (Nat.le_succ _)
      -- the new segment is empty
      show WriterPc.work (if 0 = w.segmentSize then 4 else 0) (.superAppend data rest) +
        (w.calls.map WriterCall.work).sum < _
      rw [if_neg (by omega)]
      simp only [hsteps, hpc, WriterPc.work]
      omega
    · exact absurd (hpoll next data rest hpc hqueue) hwriteable
  | closing =>
    simp only [BufferWriterBW.step, hpc] at hstep
    split_ifs at hstep
    cases hstep
    refine work_lt ?_ (Nat.le_succ _)
    show WriterPc.work w.fullWork .closed + (w.calls.map WriterCall.work).sum < _
    simp only [hsteps, hpc, WriterPc.work]
    omega
  | closed =>
    simp only [hpc] at hstate
    simp [BufferWriterBW.step, BufferWriterBW.nextCall, hpc, hstate.calls] at hstep

theorem work_nic_lt {m m' : Mem} {w w' : BufferWriterBW} {made : Option ℕ}
    (hstep : w.nic m = some (m', w', made)) : w'.work < w.work := by
  obtain ⟨op, queue, header, hqueue, rfl⟩ := nic_eq hstep
  simp only [work, steps, fullWork, hqueue, List.length_cons]
  omega

theorem internalBufferSize_step {w w' : BufferWriterBW} (hstep : w.step = some w') :
    w'.internalBufferSize = w.internalBufferSize := by
  have hwrite : ∀ data after, (w.writeToSegment data after).internalBufferSize =
      w.internalBufferSize := by
    intro data after
    unfold writeToSegment
    split_ifs <;> rfl
  have hcall : w.nextCall = some w' → w'.internalBufferSize = w.internalBufferSize := by
    intro hnext
    unfold nextCall at hnext
    split at hnext <;> cases hnext <;> rfl
  unfold step at hstep
  split at hstep
  case h_3 => exact hcall hstep
  case h_11 => exact hcall hstep
  case h_5 =>
    cases hstep
    unfold superAppend
    dsimp only
    split_ifs
    · exact hwrite _ _
    · rfl
    · exact hwrite _ _
  all_goals
    try split_ifs at hstep
    all_goals
      cases hstep
      rfl

theorem internalBufferSize_nic {m m' : Mem} {w w' : BufferWriterBW} {made : Option ℕ}
    (hstep : w.nic m = some (m', w', made)) : w'.internalBufferSize = w.internalBufferSize := by
  obtain ⟨op, queue, header, -, rfl⟩ := nic_eq hstep
  rfl

theorem length_flatten_of_blocks {size : ℕ} {blocks : List (List UInt8)}
    (h : ∀ block ∈ blocks, block.length = size) :
    blocks.flatten.length = blocks.length * size := by
  rw [List.length_flatten, List.map_congr_left h, List.map_const', List.sum_replicate, smul_eq_mul]

variable {g : RingGeometry} {x : RingState g} {m : Mem} {program : List UInt8} {w : BufferWriterBW}

/-- If everything appended fits into the ring, a writer that waits has a segment left. -/
theorem Inv.room_of_waiting (h : Inv g program x m w)
    (hfits : program.length ≤ g.segments * g.segmentSize)
    {next : ℕ} {data : List UInt8} {rest : Option (List UInt8)}
    (hpc : w.pc = .poll next data rest) : x.sent.length < g.segments := by
  obtain ⟨cur, happ, hstate⟩ := h.state
  unfold State at hstate
  simp only [hpc] at hstate
  obtain ⟨hdata, hwaiting, -⟩ := hstate
  have hbytes : 0 < data.length := List.length_pos_of_ne_nil hdata
  have hlen := congrArg List.length h.program_eq
  rw [happ, hpc] at hlen
  simp only [List.length_append, WriterPc.pending,
    length_flatten_of_blocks (h.blocks hwaiting.unfinished)] at hlen
  by_contra hfull
  have hmul := Nat.mul_le_mul_right g.segmentSize (Nat.le_of_not_lt hfull)
  omega

/-- A poll does not find the segment taken. -/
theorem Inv.writeable_of_polled (h : Inv g program x m w)
    (hfits : program.length ≤ g.segments * g.segmentSize) :
    ∀ next data rest, w.pc = .poll next data rest → w.queue = [] →
      w.header.isWriteable = true := by
  intro next data rest hpc hqueue
  have hroom := h.room_of_waiting hfits hpc
  obtain ⟨cur, -, hstate⟩ := h.state
  unfold State at hstate
  simp only [hpc, hqueue, List.ne_cons_self, false_or] at hstate
  obtain ⟨-, -, -, -, htaken⟩ := hstate
  by_contra hnot
  exact absurd hroom (Nat.not_lt.mpr (htaken (Bool.eq_false_iff.mpr hnot)))

theorem Inv.nonempty (h : Inv g program x m w) (hfin : x.fin = true) : x.sent ≠ [] := by
  obtain ⟨cur, -, hstate⟩ := h.state
  rcases hstate.owner with ⟨tail, hhold, -⟩ | ⟨next, hwaiting, -⟩ | ⟨hfinished, -⟩
  · rw [hhold.unfinished] at hfin
    cases hfin
  · rw [hwaiting.unfinished] at hfin
    cases hfin
  · exact hfinished.nonempty

theorem Inv.fin_of_closed (h : Inv g program x m w) (hclosed : w.Closed) : x.fin = true := by
  obtain ⟨hpc, hqueue, -⟩ := hclosed
  obtain ⟨cur, -, hstate⟩ := h.state
  unfold State at hstate
  rcases hpc with hpc | hpc
  · simp only [hpc] at hstate
    rcases hstate with ⟨hhold, -⟩ | hfinished
    · exact absurd hqueue hhold.queue_ne_nil
    · exact hfinished.fin
  · simp only [hpc] at hstate
    exact hstate.fin

/-- A writer without a step to take, with its queue empty, has closed. -/
theorem Inv.closed_of_stopped (h : Inv g program x m w) (hqueue : w.queue = [])
    (hstep : w.step = none) : w.Closed := by
  obtain ⟨cur, -, hstate⟩ := h.state
  unfold State at hstate
  cases hpc : w.pc with
  | idle =>
    simp only [hpc] at hstate
    obtain ⟨appends, hcalls⟩ := hstate.calls
    cases appends <;> simp [BufferWriterBW.step, BufferWriterBW.nextCall, hpc, hcalls] at hstep
  | append data =>
    simp only [BufferWriterBW.step, hpc] at hstep
    split_ifs at hstep
  | poll next data rest =>
    simp only [BufferWriterBW.step, hpc, hqueue, if_true] at hstep
    split_ifs at hstep
  | closed =>
    simp only [hpc] at hstate
    exact ⟨Or.inr hpc, hstate.queue, hstate.calls⟩
  | _ => simp [BufferWriterBW.step, hpc, hqueue] at hstep

end BufferWriterBW

open BufferWriterBW

/-- The label is not one of the consumer. -/
def RingLabel.OfWriter : RingLabel k → Prop
  | .iterator _ => False
  | _ => True

/-- The handle of a buffer as the registry gives it to the reader. -/
def BufferRings.handle (b : BufferRings k) (name : String)
    (nodeId segmentsPerWriter segmentSizes : ℕ) : BufferHandle where
  name
  nodeId
  entrySegments := (List.finRange k).map fun r => ⟨(b.ring r).entry, (b.ring r).segmentSize⟩
  segmentsPerWriter
  numberOfWriters := k
  segmentSizes
  buffertype := b.type

variable {b : BufferRings k} {appends : Fin k → List (List UInt8)}

/-- States of a run without a consumer: nothing has been released. -/
structure Unconsumed (b : BufferRings k) (appends : Fin k → List (List UInt8))
    (a : BufferState b) (s : RingSystem BufferWriterBW k) : Prop where
  sys : SysInv (fun r => Inv (b.ring r) (appends r).flatten) a s.mem s.writers s.iterator
  idle : s.iterator.pc = .idle
  released : ∀ r, (a.ring r).released = 0
  buffer : ∀ r, 0 < (s.writers r).internalBufferSize

theorem Unconsumed.shows {a : BufferState b} {s : RingSystem BufferWriterBW k}
    (h : Unconsumed b appends a s) (htype : b.type = .bw) (r : Fin k) :
    (b.ring r).Shows .bw (a.ring r) .checkEnd s.mem := by
  have hstage : (s.iterator.pcAt r).stage = .checkEnd := by
    unfold BufferIterator.pcAt
    rw [h.idle]
    split
    · split_ifs <;> rfl
    · rfl
  rw [← htype, ← hstage]
  exact h.sys.shows r

theorem Unconsumed.buffer_update {a : BufferState b} {s : RingSystem BufferWriterBW k}
    (h : Unconsumed b appends a s) {r : Fin k} {w : BufferWriterBW}
    (hw : w.internalBufferSize = (s.writers r).internalBufferSize) (r' : Fin k) :
    0 < (Function.update s.writers r w r').internalBufferSize := by
  by_cases hr : r' = r
  · subst hr
    rw [Function.update_self, hw]
    exact h.buffer r'
  · rw [Function.update_of_ne hr]
    exact h.buffer r'

/-- Work left of all writers. -/
def RingSystem.work (s : RingSystem BufferWriterBW k) : ℕ := ∑ r, (s.writers r).work

theorem RingSystem.work_update_lt {s s' : RingSystem BufferWriterBW k} {r : Fin k}
    {w : BufferWriterBW} (hwriters : s'.writers = Function.update s.writers r w)
    (hlt : w.work < (s.writers r).work) : s'.work < s.work := by
  unfold RingSystem.work
  rw [hwriters]
  refine Finset.sum_lt_sum (fun r' _ => ?_) ⟨r, Finset.mem_univ r, ?_⟩
  · by_cases hr : r' = r
    · subst hr
      rw [Function.update_self]
      exact hlt.le
    · rw [Function.update_of_ne hr]
  · rwa [Function.update_self]

theorem Unconsumed.writer_step {a : BufferState b} {s : RingSystem BufferWriterBW k}
    (h : Unconsumed b appends a s) (htype : b.type = .bw) {r : Fin k} {w : BufferWriterBW}
    (hw : (s.writers r).step = some w) :
    Unconsumed b appends a { s with writers := Function.update s.writers r w } where
  sys := h.sys.writer_step (bandwidthSim htype fun r => (appends r).flatten) hw
  idle := h.idle
  released := h.released
  buffer := h.buffer_update (internalBufferSize_step hw)

theorem Unconsumed.nic_step {a : BufferState b} {s : RingSystem BufferWriterBW k}
    (h : Unconsumed b appends a s) (htype : b.type = .bw) {r : Fin k} {m' : Mem}
    {w : BufferWriterBW} {made : Option ℕ} (hnic : (s.writers r).nic s.mem = some (m', w, made))
    (log : List (RingEvent k)) :
    ∃ x, NicMove (a.ring r) made x ∧ Unconsumed b appends (a.set r x)
      { s with mem := m', writers := Function.update s.writers r w, log } := by
  obtain ⟨x, hmove, hsys⟩ :=
    h.sys.nic_step (bandwidthSim htype fun r => (appends r).flatten) trivial hnic
  refine ⟨x, hmove, hsys, h.idle, fun r' => ?_, h.buffer_update (internalBufferSize_nic hnic)⟩
  by_cases hr : r' = r
  · subst hr
    rw [BufferState.set_ring_self, hmove.released]
    exact h.released r'
  · rw [BufferState.set_ring_of_ne _ hr]
    exact h.released r'

theorem Unconsumed.step (htype : b.type = .bw) (hsize : ∀ r, 0 < (b.ring r).segmentSize)
    (hfits : ∀ r, (appends r).flatten.length ≤ (b.ring r).segments * (b.ring r).segmentSize)
    {s s' : RingSystem BufferWriterBW k} {label : RingLabel k} (hlabel : label.OfWriter)
    (h : ∃ a, Unconsumed b appends a s)
    (hstep : RingSystem.step .bw machine s label = some s') :
    (∃ a, Unconsumed b appends a s') ∧ s'.work < s.work := by
  obtain ⟨a, h⟩ := h
  cases label with
  | writer r =>
    obtain ⟨w, hw, rfl⟩ := Option.map_eq_some_iff.mp hstep
    refine ⟨⟨a, h.writer_step htype hw⟩, RingSystem.work_update_lt rfl ?_⟩
    exact (h.sys.writer r).work_step_lt (hsize r) (h.buffer r)
      ((h.sys.writer r).writeable_of_polled (hfits r)) hw
  | nic r =>
    obtain ⟨⟨m', w, made⟩, hnic, rfl⟩ := Option.map_eq_some_iff.mp hstep
    obtain ⟨x, -, hsys⟩ := h.nic_step htype hnic _
    exact ⟨⟨a.set r x, hsys⟩, RingSystem.work_update_lt rfl (work_nic_lt hnic)⟩
  | iterator action => exact hlabel.elim

/-- When no writer and no queue pair can move, every writer has closed. -/
theorem Unconsumed.closed_of_stopped {a : BufferState b} {s : RingSystem BufferWriterBW k}
    (h : Unconsumed b appends a s)
    (hstopped : ∀ label, label.OfWriter → RingSystem.step .bw machine s label = none) (r : Fin k) :
    (s.writers r).Closed := by
  have hqueue : (s.writers r).queue = [] := by
    by_contra hne
    obtain ⟨op, queue, hcons⟩ := List.exists_cons_of_ne_nil hne
    have hnic := Option.map_eq_none_iff.mp (hstopped (.nic r) trivial)
    cases op <;> simp [machine, nic, hcons] at hnic
  have hstep := Option.map_eq_none_iff.mp (hstopped (.writer r) trivial)
  exact (h.sys.writer r).closed_of_stopped hqueue hstep

/-- The reader copies ring after ring. -/
theorem read_handle {bytes : Fin k → List UInt8} {m : Mem} {fuel : ℕ}
    (hring : ∀ r data, BufferReader.readRing m false fuel (b.ring r).entry data =
      some (data ++ bytes r)) (name : String) (nodeId segmentsPerWriter segmentSizes sizeRead : ℕ) :
    BufferReader.read fuel m (b.handle name nodeId segmentsPerWriter segmentSizes) sizeRead false =
      some (if k = 0 then (none, sizeRead)
        else (some ((List.finRange k).flatMap bytes),
          ((List.finRange k).flatMap bytes).length)) := by
  have hfold : ∀ (rings : List (Fin k)) (data : List UInt8),
      (rings.map fun r => BufferSegment.mk (b.ring r).entry (b.ring r).segmentSize).foldlM
        (fun data segment => BufferReader.readRing m false fuel segment.offset data) data =
      some (data ++ rings.flatMap bytes) := by
    intro rings
    induction rings with
    | nil => intro data; simp
    | cons r rings ih =>
      intro data
      simp only [List.map_cons, List.foldlM_cons, hring, Option.bind_eq_bind, Option.bind_some, ih,
        List.flatMap_cons, List.append_assoc]
  unfold BufferReader.read
  by_cases hk : k = 0
  · subst hk
    simp [BufferRings.handle]
  · have hentries : (b.handle name nodeId segmentsPerWriter segmentSizes).entrySegments ≠ [] := by
      simpa [BufferRings.handle, List.finRange_eq_nil_iff] using hk
    rw [if_neg hentries, if_neg hk]
    simp only [BufferRings.handle, hfold, List.nil_append, Option.map_some]

theorem Unconsumed.read {a : BufferState b} {s : RingSystem BufferWriterBW k}
    (h : Unconsumed b appends a s) (htype : b.type = .bw) (hfin : ∀ r, (a.ring r).fin = true)
    (fuel : ℕ) (hfuel : ∀ r, (b.ring r).segments ≤ fuel) (name : String)
    (nodeId segmentsPerWriter segmentSizes sizeRead : ℕ) :
    BufferReader.read fuel s.mem (b.handle name nodeId segmentsPerWriter segmentSizes) sizeRead
        false =
      some (if k = 0 then (none, sizeRead)
        else (some ((List.finRange k).flatMap fun r => (appends r).flatten),
          ((List.finRange k).flatMap fun r => (appends r).flatten).length)) := by
  apply read_handle
  intro r data
  have hsent := (a.ring r).sent_le
  have hne : (a.ring r).sent ≠ [] := (h.sys.writer r).nonempty (hfin r)
  have hread := BufferReader.readRing_shows (h.shows htype r) (h.released r) (hfin r) fuel 0 data
    (List.length_pos_of_ne_nil hne) (by have := hfuel r; have := h.released r; omega)
  rw [RingGeometry.slot_zero, List.drop_zero, ((h.sys.writer r).finished (hfin r)).2.2] at hread
  exact hread

/-- What is read fits into the local buffer. -/
theorem length_le_dataSize {segments segmentSize : ℕ}
    (hsegmentSize : ∀ r, (b.ring r).segmentSize = segmentSize)
    (hfits : ∀ r, (appends r).flatten.length ≤ segments * segmentSize) (name : String)
    (nodeId : ℕ) :
    ((List.finRange k).flatMap fun r => (appends r).flatten).length ≤
      BufferReader.dataSize (b.handle name nodeId segments segmentSize) false := by
  have hsum : BufferReader.dataSize (b.handle name nodeId segments segmentSize) false =
      ((List.finRange k).map fun _ => segmentSize * segments).sum := by
    simp [BufferReader.dataSize, BufferRings.handle, hsegmentSize, Function.comp_def]
  rw [hsum, List.length_flatMap]
  refine List.sum_le_sum fun r _ => ?_
  rw [Nat.mul_comm]
  exact hfits r

/-- A ring of one segment is never left. -/
theorem spare_of_fits
    (hfits : ∀ r, (appends r).flatten.length ≤ (b.ring r).segments * (b.ring r).segmentSize)
    (r : Fin k) :
    2 ≤ (b.ring r).segments ∨ (appends r).flatten.length ≤ (b.ring r).segmentSize := by
  by_cases hmulti : 2 ≤ (b.ring r).segments
  · exact Or.inl hmulti
  · have hone : (b.ring r).segments = 1 := by
      have := (b.ring r).segments_pos
      omega
    have hle := hfits r
    rw [hone, Nat.one_mul] at hle
    exact Or.inr hle

/-- Append, close, read: without a consumer every run of the writers is finite, it ends with
all of them closed, and `read` returns the bytes appended, ring after ring. -/
theorem append_close_read (b : BufferRings k) (htype : b.type = .bw) (segments segmentSize : ℕ)
    (hsegments : ∀ r, (b.ring r).segments = segments)
    (hsegmentSize : ∀ r, (b.ring r).segmentSize = segmentSize) (hsize : 1 ≤ segmentSize)
    (internalBufferSize : Fin k → ℕ) (hbuffer : ∀ r, 1 ≤ internalBufferSize r)
    (appends : Fin k → List (List UInt8))
    (hfits : ∀ r, (appends r).flatten.length ≤ segments * segmentSize) (m : Mem)
    (schedule : List (RingLabel k)) (hlabels : ∀ label ∈ schedule, label.OfWriter)
    (s : RingSystem BufferWriterBW k)
    (hrun : Schedule.exec (RingSystem.step .bw machine)
      (RingSystem.init b m (b.bandwidthWriters internalBufferSize appends)) schedule = some s) :
    schedule.length ≤ (RingSystem.init b m (b.bandwidthWriters internalBufferSize appends)).work ∧
    ((∀ label, label.OfWriter → RingSystem.step .bw machine s label = none) →
      ∀ r, (s.writers r).Closed) ∧
    ((∀ r, (s.writers r).Closed) → ∀ fuel name nodeId sizeRead, segments ≤ fuel →
      BufferReader.read fuel s.mem (b.handle name nodeId segments segmentSize) sizeRead false =
        some (if k = 0 then (none, sizeRead)
          else (some ((List.finRange k).flatMap fun r => (appends r).flatten),
            ((List.finRange k).flatMap fun r => (appends r).flatten).length)) ∧
      ((List.finRange k).flatMap fun r => (appends r).flatten).length ≤
        BufferReader.dataSize (b.handle name nodeId segments segmentSize) false) := by
  have hfits' : ∀ r, (appends r).flatten.length ≤ (b.ring r).segments * (b.ring r).segmentSize := by
    intro r
    rw [hsegments, hsegmentSize]
    exact hfits r
  have hspare := spare_of_fits hfits'
  have hstart : Unconsumed b appends (.start b)
      (RingSystem.init b m (b.bandwidthWriters internalBufferSize appends)) :=
    ⟨(RingSystem.refines_init m _ fun r => inv_init _ _ _ _ (hspare r)).1, rfl, fun _ => rfl,
      hbuffer⟩
  obtain ⟨⟨a, ha⟩, hlength⟩ := Schedule.length_add_measure_le RingSystem.work
    (fun s label s' hs hlabel hstep => Unconsumed.step htype
      (fun r => by rw [hsegmentSize]; exact hsize) hfits' hlabel hs hstep)
    schedule _ s hlabels ⟨_, hstart⟩ hrun
  refine ⟨by omega, ha.closed_of_stopped, fun hclosed fuel name nodeId sizeRead hfuel => ⟨?_, ?_⟩⟩
  · exact ha.read htype (fun r => (ha.sys.writer r).fin_of_closed (hclosed r)) fuel
      (fun r => (hsegments r).trans_le hfuel) name nodeId segments segmentSize sizeRead
  · exact length_le_dataSize hsegmentSize hfits name nodeId

/-- The writer fills its only segment, appends nothing once more and closes. -/
def fillRun : List (RingLabel 1) :=
  [.writer 0, .nic 0] ++ List.replicate 4 (.writer 0) ++ [.nic 0] ++ List.replicate 3 (.writer 0) ++
    [.nic 0, .writer 0, .nic 0, .writer 0]

theorem append_close_read_single_segment :
    ∃ s, Schedule.exec (RingSystem.step .bw machine)
      (RingSystem.init (byteSegments 1 (by decide) (by decide)) (fun _ => 0)
        ((byteSegments 1 (by decide) (by decide)).bandwidthWriters (fun _ => 1)
          fun _ => [[7], []])) fillRun = some s ∧
    BufferReader.read 1 s.mem ((byteSegments 1 (by decide) (by decide)).handle "buffer" 1 1 1) 0
      false = some (some [7], 1) := by
  have hclosed : ((Schedule.exec (RingSystem.step .bw machine)
      (RingSystem.init (byteSegments 1 (by decide) (by decide)) (fun _ => 0)
        ((byteSegments 1 (by decide) (by decide)).bandwidthWriters (fun _ => 1)
          fun _ => [[7], []])) fillRun).map fun s =>
        ((s.writers 0).pc, (s.writers 0).queue, (s.writers 0).calls)) =
      some (.closed, [], []) := by decide +kernel
  obtain ⟨s, hs, heq⟩ := Option.map_eq_some_iff.mp hclosed
  simp only [Prod.mk.injEq] at heq
  refine ⟨s, hs, ?_⟩
  obtain ⟨-, -, hread⟩ := append_close_read (byteSegments 1 (by decide) (by decide)) rfl 1 1
    (fun _ => rfl) (fun _ => rfl) le_rfl (fun _ => 1) (fun _ => le_rfl) (fun _ => [[7], []])
    (fun _ => by decide) (fun _ => 0) fillRun (by simp [fillRun, RingLabel.OfWriter]) s hs
  refine (hread (fun r => ?_) 1 "buffer" 1 0 le_rfl).1
  rw [Subsingleton.elim r 0]
  exact ⟨Or.inr heq.1, heq.2.1, heq.2.2⟩

end DpiLibrary
