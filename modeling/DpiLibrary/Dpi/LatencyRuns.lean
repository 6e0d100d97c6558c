import DpiLibrary.Dpi.LatencyWriter

/-!
# Runs of a latency writer

Where a latency writer stages and writes depends on the remote memory through its
credits only, and the credits decide when it moves, not where. Its runs are
therefore looked at with the memory left open: the queue pair may find any memory,
it may give up an operation, and an operation may fail.
-/

namespace DpiLibrary

/-- The writer moves, its running operation returns `false`, the queue pair executes the
operation at its head on some memory, or gives it up. -/
inductive LatMove where
  | step
  | fail
  | nic (m : Mem)
  | lost

/-- An append has posted its write and has not returned yet. -/
def LatPc.isWritten : LatPc → Bool
  | .written _ => true
  | _ => false

/-- Messages passed to an append that has not returned. -/
def LatPc.running : LatPc → ℕ
  | .append _ => 1
  | .refresh _ _ => 1
  | .write _ => 1
  | .written _ => 1
  | _ => 0

namespace BufferWriterLat

/-- A message whose write is refused has been staged all the same. -/
def refuse (w : BufferWriterLat) (message : Message) : BufferWriterLat :=
  { w.writeMessage message with queue := w.queue, pc := .idle }

/-- The running operation returns `false`. The results of the reads are not looked at. -/
def fail (w : BufferWriterLat) : Option BufferWriterLat :=
  match w.pc with
  | .write message => some (w.refuse message)
  | .written _ => some { w with pc := .idle }
  | .closing => some { w with pc := .closed }
  | _ => none

def move (w : BufferWriterLat) : LatMove → Option BufferWriterLat
  | .step => w.step
  | .fail => w.fail
  | .nic m => (w.nic m).map fun r => r.2.1
  | .lost =>
    match w.queue with
    | [] => none
    | _ :: queue => some { w with queue }

/-- Operations that a move has put into the queue. -/
def posted (w w' : BufferWriterLat) : List LatOp := w'.queue.drop w.queue.length

/-- The append returns: the next segment becomes the current one. -/
def advance (w : BufferWriterLat) : BufferWriterLat :=
  { w with
    writeableFreeSegments := (w.writeableFreeSegments + (sizeTBound - 1)) % sizeTBound
    lastSegmentOffset := w.currentSegmentOffset
    currentSegmentOffset := w.nextSegmentOffset
    written := w.written + 1
    pc := .idle }

/-- The move is a call of `close`. -/
def Closes (w : BufferWriterLat) (a : LatMove) : Prop :=
  a = .step ∧ (w.pc = .idle ∨ w.pc = .closed) ∧ ∃ calls, w.calls = .close :: calls

instance (w : BufferWriterLat) (a : LatMove) : Decidable (w.Closes a) :=
  haveI : Decidable (a = .step) :=
    match a with
    | .step => .isTrue rfl
    | .fail => .isFalse nofun
    | .nic _ => .isFalse nofun
    | .lost => .isFalse nofun
  haveI : Decidable (∃ calls, w.calls = .close :: calls) :=
    match w.calls with
    | .close :: calls => .isTrue ⟨calls, rfl⟩
    | .append _ :: _ => .isFalse nofun
    | [] => .isFalse nofun
  inferInstanceAs (Decidable (_ ∧ _ ∧ _))

/-- A move that leaves the place in the ring and the staging buffer alone. What it posts is no
message, and a header goes to the last segment. -/
structure Stays (a : LatMove) (w w' : BufferWriterLat) : Prop where
  segmentSizes : w'.segmentSizes = w.segmentSizes
  segmentsPerWriter : w'.segmentsPerWriter = w.segmentsPerWriter
  entrySegmentOffset : w'.entrySegmentOffset = w.entrySegmentOffset
  internalBufferSize : w'.internalBufferSize = w.internalBufferSize
  internalOffset : w'.internalOffset = w.internalOffset
  lastSegmentOffset : w'.lastSegmentOffset = w.lastSegmentOffset
  currentSegmentOffset : w'.currentSegmentOffset = w.currentSegmentOffset
  nextSegmentOffset : w'.nextSegmentOffset = w.nextSegmentOffset
  segmentIndex : w'.segmentIndex = w.segmentIndex
  written : w'.written = w.written
  noMessage : ∀ op ∈ w.posted w', op.isWrite = false
  header : ∀ remote, .writeHeader remote ∈ w.posted w' →
    remote = w.lastSegmentOffset ∧ w.Closes a
  phase : a ≠ .fail → w'.pc.isWritten = w.pc.isWritten
  count : a ≠ .fail → w'.appended.length + w.pc.running = w.appended.length + w'.pc.running
  pending : a ≠ .fail → w'.appended = w.appended ∧ w'.pc.pending = w.pc.pending ∨
    ∃ data, w'.appended = w.appended ++ [data] ∧ w'.pc.pending = [data] ∧ w.pc.pending = []

variable {w w' : BufferWriterLat}

theorem posted_eq_nil (h : w'.queue.length ≤ w.queue.length) : w.posted w' = [] :=
  List.drop_eq_nil_of_le h

theorem posted_writeMessage (w : BufferWriterLat) (message : Message) :
    ∃ src bytes, w.posted (w.writeMessage message) = [.write w.currentSegmentOffset src bytes] ∧
      bytes.length = segmentHeaderSize + message.data.length := by
  refine ⟨_, _, List.drop_left, ?_⟩
  simp

theorem posted_refuse (w : BufferWriterLat) (message : Message) :
    w.posted (w.refuse message) = [] := posted_eq_nil le_rfl

theorem posted_advance (w : BufferWriterLat) : w.posted w.advance = [] := posted_eq_nil le_rfl

theorem stays_of_queue_le {a : LatMove} {queue : List LatOp} (h : queue.length ≤ w.queue.length)
    (header : SegmentHeader) (consumedCnt : ℕ) :
    Stays a w { w with queue, header, consumedCnt } := by
  have hposted : w.posted { w with queue, header, consumedCnt } = [] := posted_eq_nil h
  constructor
  case noMessage => simp [hposted]
  case header => simp [hposted]
  all_goals simp

theorem stays_of_post {op : LatOp} {pc : LatPc} (hop : op.isWrite = false)
    (hheader : ∀ remote, op ≠ .writeHeader remote) (hpc : w.pc.isWritten = pc.isWritten)
    (hrunning : w.pc.running = pc.running) (hpending : w.pc.pending = pc.pending) :
    Stays .step w (w.post op pc) := by
  have hposted : w.posted (w.post op pc) = [op] := List.drop_left
  constructor
  case noMessage => simpa [hposted] using hop
  case header =>
    intro remote h
    rw [hposted, List.mem_singleton] at h
    exact absurd h.symm (hheader remote)
  all_goals simp [post, hpc, hrunning, hpending]

theorem stays_of_pc {a : LatMove} {pc : LatPc} {writeableFreeSegments : ℕ}
    (hpc : a ≠ .fail → w.pc.isWritten = pc.isWritten)
    (hrunning : a ≠ .fail → w.pc.running = pc.running)
    (hpending : a ≠ .fail → w.pc.pending = pc.pending) :
    Stays a w { w with writeableFreeSegments, pc } := by
  have hposted : w.posted { w with writeableFreeSegments, pc } = [] :=
    posted_eq_nil le_rfl
  constructor
  case noMessage => simp [hposted]
  case header => simp [hposted]
  case phase => exact fun h => (hpc h).symm
  case count => exact fun h => by simp [hrunning h]
  case pending => exact fun h => Or.inl ⟨rfl, (hpending h).symm⟩
  all_goals rfl

theorem stays_nextCall (hidle : w.pc = .idle ∨ w.pc = .closed) (h : w.nextCall = some w') :
    Stays .step w w' := by
  have hpc : w.pc.isWritten = false := by rcases hidle with hidle | hidle <;> rw [hidle] <;> rfl
  have hrunning : w.pc.running = 0 := by rcases hidle with hidle | hidle <;> rw [hidle] <;> rfl
  have hpending : w.pc.pending = [] := by rcases hidle with hidle | hidle <;> rw [hidle] <;> rfl
  unfold nextCall at h
  rcases hcalls : w.calls with _ | ⟨message | _, calls⟩ <;> rw [hcalls] at h
  · cases h
  · cases h
    have hposted : w.posted { w with
        calls, appended := w.appended ++ [message.data], pc := .append message } = [] :=
      posted_eq_nil le_rfl
    constructor
    case noMessage => simp [hposted]
    case header => simp [hposted]
    case phase => exact fun _ => hpc.symm
    case count =>
      intro _
      rw [hrunning]
      simp [LatPc.running]
    case pending => exact fun _ => Or.inr ⟨message.data, rfl, rfl, hpending⟩
    all_goals rfl
  · cases h
    have hposted : w.posted (post { w with calls, header := w.closedHeader }
        (.writeHeader w.lastSegmentOffset) .closing) = [.writeHeader w.lastSegmentOffset] :=
      List.drop_left
    constructor
    case noMessage => simp [hposted, LatOp.isWrite]
    case header =>
      intro remote hmem
      rw [hposted, List.mem_singleton, LatOp.writeHeader.injEq] at hmem
      exact ⟨hmem, rfl, hidle, calls, hcalls⟩
    case phase => exact fun _ => hpc.symm
    case count =>
      intro _
      rw [hrunning]
      rfl
    case pending => exact fun _ => Or.inl ⟨rfl, hpending.symm⟩
    all_goals rfl

/-- What a move can do: stage a message and post it or not, return from an append, or stay. -/
theorem move_cases {a : LatMove} (h : w.move a = some w') :
    (∃ message, w.pc = .write message ∧
      (a = .step ∧ w' = w.writeMessage message ∨
        a = .fail ∧ w' = w.refuse message)) ∨
    (∃ signaled, w.pc = .written signaled ∧ a = .step ∧ w' = w.advance) ∨
    Stays a w w' ∧ ∀ message, w.pc = .write message → a ≠ .step ∧ a ≠ .fail := by
  cases a with
  | step =>
    simp only [move, step] at h
    cases hpc : w.pc with
    | constructing =>
      simp only [hpc, Option.some.injEq] at h
      subst h
      refine Or.inr (Or.inr ⟨stays_of_post rfl ?_ ?_ ?_ ?_, by simp⟩) <;>
        simp [hpc, LatPc.isWritten, LatPc.running, LatPc.pending]
    | readingHeader =>
      simp only [hpc] at h
      split_ifs at h
      cases h
      refine Or.inr (Or.inr ⟨stays_of_post rfl ?_ ?_ ?_ ?_, by simp⟩) <;>
        simp [hpc, LatPc.isWritten, LatPc.running, LatPc.pending]
    | readingCounter =>
      simp only [hpc] at h
      split_ifs at h
      cases h
      refine Or.inr (Or.inr ⟨stays_of_pc ?_ ?_ ?_, by simp⟩) <;>
        simp [hpc, LatPc.isWritten, LatPc.running, LatPc.pending]
    | idle =>
      simp only [hpc] at h
      exact Or.inr (Or.inr ⟨stays_nextCall (Or.inl hpc) h, by simp⟩)
    | append message =>
      simp only [hpc] at h
      split_ifs at h
      · cases h
        refine Or.inr (Or.inr ⟨stays_of_post rfl ?_ ?_ ?_ ?_, by simp⟩) <;>
          simp [hpc, LatPc.isWritten, LatPc.running, LatPc.pending]
      · cases h
        refine Or.inr (Or.inr ⟨stays_of_pc ?_ ?_ ?_, by simp⟩) <;>
          simp [hpc, LatPc.isWritten, LatPc.running, LatPc.pending]
    | refresh old message =>
      simp only [hpc] at h
      split_ifs at h
      · cases h
        refine Or.inr (Or.inr ⟨stays_of_post rfl ?_ ?_ ?_ ?_, by simp⟩) <;>
          simp [hpc, LatPc.isWritten, LatPc.running, LatPc.pending]
      · cases h
        refine Or.inr (Or.inr ⟨stays_of_pc ?_ ?_ ?_, by simp⟩) <;>
          simp [hpc, LatPc.isWritten, LatPc.running, LatPc.pending]
    | write message =>
      simp only [hpc, Option.some.injEq] at h
      exact Or.inl ⟨message, rfl, Or.inl ⟨rfl, h.symm⟩⟩
    | written signaled =>
      simp only [hpc] at h
      split_ifs at h
      cases h
      exact Or.inr (Or.inl ⟨signaled, rfl, rfl, rfl⟩)
    | closing =>
      simp only [hpc] at h
      split_ifs at h
      cases h
      refine Or.inr (Or.inr ⟨stays_of_pc ?_ ?_ ?_, by simp⟩) <;>
        simp [hpc, LatPc.isWritten, LatPc.running, LatPc.pending]
    | closed =>
      simp only [hpc] at h
      exact Or.inr (Or.inr ⟨stays_nextCall (Or.inr hpc) h, by simp⟩)
  | fail =>
    simp only [move, fail] at h
    cases hpc : w.pc with
    | write message =>
      simp only [hpc, Option.some.injEq] at h
      exact Or.inl ⟨message, rfl, Or.inr ⟨rfl, h.symm⟩⟩
    | written signaled =>
      simp only [hpc, Option.some.injEq] at h
      subst h
      exact Or.inr (Or.inr ⟨stays_of_pc (by simp) (by simp) (by simp), by simp⟩)
    | closing =>
      simp only [hpc, Option.some.injEq] at h
      subst h
      exact Or.inr (Or.inr ⟨stays_of_pc (by simp) (by simp) (by simp), by simp⟩)
    | constructing => simp [hpc] at h
    | readingHeader => simp [hpc] at h
    | readingCounter => simp [hpc] at h
    | idle => simp [hpc] at h
    | append message => simp [hpc] at h
    | refresh old message => simp [hpc] at h
    | closed => simp [hpc] at h
  | nic m =>
    refine Or.inr (Or.inr ⟨?_, by simp⟩)
    rcases hqueue : w.queue with _ | ⟨op, queue⟩
    · simp [move, nic, hqueue] at h
    · cases op <;> simp only [move, nic, hqueue, Option.map_some, Option.some.injEq] at h <;>
        subst h <;> exact stays_of_queue_le (by simp [hqueue]) _ _
  | lost =>
    refine Or.inr (Or.inr ⟨?_, by simp⟩)
    rcases hqueue : w.queue with _ | ⟨op, queue⟩
    · simp [move, hqueue] at h
    · simp only [move, hqueue, Option.some.injEq] at h
      subst h
      exact stays_of_queue_le (by simp [hqueue]) _ _

/-- A call of `close` posts its header to the last segment. -/
theorem Closes.posted {a : LatMove} (h : w.Closes a) (hmove : w.move a = some w') :
    w.posted w' = [.writeHeader w.lastSegmentOffset] ∧ w.pc.running = 0 := by
  obtain ⟨rfl, hidle, calls, hcalls⟩ := h
  have hnext : w.step = w.nextCall := by
    unfold step
    rcases hidle with hidle | hidle <;> rw [hidle]
  simp only [move, hnext, nextCall, hcalls, Option.some.injEq] at hmove
  subst hmove
  exact ⟨List.drop_left, by rcases hidle with hidle | hidle <;> rw [hidle] <;> rfl⟩

/-- Headers are posted by `close` only. -/
theorem closes_of_posted {a : LatMove} (h : w.move a = some w') {remote : ℕ}
    (hmem : .writeHeader remote ∈ w.posted w') : remote = w.lastSegmentOffset ∧ w.Closes a := by
  rcases move_cases h with ⟨message, -, ⟨-, rfl⟩ | ⟨-, rfl⟩⟩ | ⟨signaled, -, -, rfl⟩ | ⟨hstays, -⟩
  · obtain ⟨src, bytes, hposted, -⟩ := w.posted_writeMessage message
    rw [hposted] at hmem
    simp at hmem
  · rw [posted_refuse] at hmem
    cases hmem
  · rw [posted_advance] at hmem
    cases hmem
  · exact hstays.header remote hmem

/-- The constructor with its two reads, when the counter in front of the ring says that so many
segments are free. -/
def constructMoves (free : UInt8) : List LatMove :=
  let m : Mem := fun x => if x = 0 then free else 0
  [.step, .nic m, .step, .nic m, .step]

end BufferWriterLat
end DpiLibrary
