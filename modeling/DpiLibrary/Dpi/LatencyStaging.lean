import DpiLibrary.Dpi.LatencyRuns
import DpiLibrary.Rdma.SendQueue

/-!
# The staging buffer of the latency writer

Records of header and data are staged one behind the other, and staging starts at
the beginning again when the next record does not fit. The second copy is as long
as the whole record, so it reads and writes a header's size too much. Nothing waits
for the records staged before the restart.
-/

namespace DpiLibrary
namespace BufferWriterLat

open Schedule

variable {w w' : BufferWriterLat} {a : LatMove}

/-- Bytes of a message with its header. -/
def recordSize (message : Message) : ℕ := message.data.length + segmentHeaderSize

/-- The record does not fit behind the one staged last. -/
def Restarts (w : BufferWriterLat) (message : Message) : Prop :=
  w.internalBufferSize < recordSize message + w.internalOffset

instance (w : BufferWriterLat) (message : Message) : Decidable (w.Restarts message) :=
  inferInstanceAs (Decidable (_ < _))

def stagingOffset (w : BufferWriterLat) (message : Message) : ℕ :=
  if w.Restarts message then 0 else w.internalOffset

/-- The places in the internal buffer that the copies of `writeToSegment` write. -/
def copies (w : BufferWriterLat) (message : Message) : List Span :=
  (w.memcpys message (w.stagingOffset message)).map fun c => ⟨c.1, c.2.length⟩

/-- Bytes that the second copy reads from the caller's data on. -/
def dataRead (message : Message) : ℕ := message.copied.length

/-- The move stages a message, whether its write is then posted or refused. -/
def Stages (w : BufferWriterLat) (a : LatMove) (message : Message) : Prop :=
  w.pc = .write message ∧ (a = .step ∨ a = .fail)

theorem length_copied (message : Message) : message.copied.length = recordSize message := by
  simp only [Message.copied, recordSize, List.length_take, List.length_append,
    List.length_replicate]
  omega

/-- The header, and as many bytes behind it as the record has. -/
theorem copies_eq (w : BufferWriterLat) (message : Message) :
    w.copies message = [⟨w.stagingOffset message, segmentHeaderSize⟩,
      ⟨w.stagingOffset message + segmentHeaderSize, recordSize message⟩] := by
  simp only [copies, memcpys, List.map_cons, List.map_nil, SegmentHeader.length_encode,
    length_copied]

/-- The internal buffer changes under the copies only. -/
theorem writeMessage_outside (w : BufferWriterLat) (message : Message) {x : ℕ}
    (hx : ∀ c ∈ w.copies message, ¬ c.Contains x) :
    (w.writeMessage message).internalBuffer x = w.internalBuffer x :=
  writeAll_of_not_writes (fun _ hc => hx _ (List.mem_map_of_mem hc)) _

/-- A move that stages nothing leaves the staging offset alone. -/
theorem internalOffset_of_not_stages (h : w.move a = some w')
    (hnot : ∀ message, ¬ w.Stages a message) :
    w'.internalOffset = w.internalOffset ∧ w'.internalBufferSize = w.internalBufferSize := by
  rcases move_cases h with ⟨message, hpc, ⟨ha, -⟩ | ⟨ha, -⟩⟩ | ⟨signaled, -, -, rfl⟩ | ⟨hstays, -⟩
  · exact absurd ⟨hpc, Or.inl ha⟩ (hnot message)
  · exact absurd ⟨hpc, Or.inr ha⟩ (hnot message)
  · exact ⟨rfl, rfl⟩
  · exact ⟨hstays.internalOffset, hstays.internalBufferSize⟩

/-- A move that stages a message. -/
theorem move_of_stages {message : Message} (h : w.move a = some w')
    (hstages : w.Stages a message) :
    a = .step ∧ w' = w.writeMessage message ∨ a = .fail ∧ w' = w.refuse message := by
  obtain ⟨hpc, ha⟩ := hstages
  rcases move_cases h with ⟨message', hpc', hmove⟩ | ⟨signaled, hpc', -, -⟩ | ⟨-, hnot⟩
  · cases hpc.symm.trans hpc'
    exact hmove
  · rw [hpc] at hpc'
    cases hpc'
  · obtain ⟨hstep, hfail⟩ := hnot message hpc
    exact absurd ha (not_or.mpr ⟨hstep, hfail⟩)

/-- Both copies of an append write inside the internal buffer. -/
def CopiesInside (w : BufferWriterLat) (a : LatMove) : Prop :=
  ∀ message, w.Stages a message → ∀ c ∈ w.copies message, c.Inside w.internalBufferSize

/-- Both copies of an append write inside the internal buffer, and the second one reads the
caller's data and nothing behind it. -/
def StagesSafely (w : BufferWriterLat) (a : LatMove) : Prop :=
  w.CopiesInside a ∧ ∀ message, w.Stages a message → dataRead message = message.data.length

/-- Sizes of the messages that a run stages, in order. -/
def stagedSizes : BufferWriterLat → List LatMove → List ℕ
  | _, [] => []
  | w, a :: moves =>
    match w.move a with
    | none => []
    | some w' =>
      match w.pc, a with
      | .write message, .step => message.data.length :: stagedSizes w' moves
      | .write message, .fail => message.data.length :: stagedSizes w' moves
      | _, _ => stagedSizes w' moves

/-- Messages of these sizes, staged one after the other from an offset on, leave room for the
header's size that is copied too much. -/
def RecordsFit (internalBufferSize : ℕ) : ℕ → List ℕ → Prop
  | _, [] => True
  | offset, size :: sizes =>
    let place := if internalBufferSize < size + segmentHeaderSize + offset then 0 else offset
    place + size + 2 * segmentHeaderSize ≤ internalBufferSize ∧
      RecordsFit internalBufferSize (place + (size + segmentHeaderSize)) sizes

theorem stagedSizes_of_stages {message : Message} {moves : List LatMove}
    (h : w.move a = some w') (hstages : w.Stages a message) :
    w.stagedSizes (a :: moves) = message.data.length :: w'.stagedSizes moves := by
  obtain ⟨hpc, rfl | rfl⟩ := hstages <;> simp [stagedSizes, h, hpc]

theorem stagedSizes_of_not_stages {moves : List LatMove} (h : w.move a = some w')
    (hnot : ∀ message, ¬ w.Stages a message) :
    w.stagedSizes (a :: moves) = w'.stagedSizes moves := by
  simp only [stagedSizes, h]
  split
  · rename_i message hpc
    exact absurd ⟨hpc, Or.inl rfl⟩ (hnot message)
  · rename_i message hpc
    exact absurd ⟨hpc, Or.inr rfl⟩ (hnot message)
  · rfl

/-- A run keeps the copies inside exactly when the sizes it stages leave room: credits and
failures have no part in it. -/
theorem copiesInside_iff (moves : List LatMove) : ∀ w : BufferWriterLat,
    EachStep move CopiesInside w moves ↔
      RecordsFit w.internalBufferSize w.internalOffset (w.stagedSizes moves) := by
  induction moves with
  | nil => intro w; exact iff_of_true eachStep_nil trivial
  | cons a moves ih =>
    intro w
    rw [eachStep_cons]
    cases hmove : w.move a with
    | none => simp [stagedSizes, hmove, RecordsFit]
    | some w' =>
      have hstep : (∀ t, some w' = some t → w.CopiesInside a ∧ EachStep move CopiesInside t moves) ↔
          w.CopiesInside a ∧ EachStep move CopiesInside w' moves := by
        simp
      rw [hstep, ih w']
      by_cases hstages : ∃ message, w.Stages a message
      · obtain ⟨message, hstages⟩ := hstages
        have hafter : w'.internalBufferSize = w.internalBufferSize ∧
            w'.internalOffset = w.stagingOffset message + recordSize message := by
          rcases move_of_stages hmove hstages with ⟨-, rfl⟩ | ⟨-, rfl⟩ <;> exact ⟨rfl, rfl⟩
        have hinside : w.CopiesInside a ↔
            w.stagingOffset message + message.data.length + 2 * segmentHeaderSize ≤
              w.internalBufferSize := by
          constructor
          · intro hcopies
            have hsecond := hcopies message hstages
              ⟨w.stagingOffset message + segmentHeaderSize, recordSize message⟩
              (by simp [copies_eq])
            simp only [Span.Inside, recordSize] at hsecond
            omega
          · intro hle message' hstages'
            cases hstages.1.symm.trans hstages'.1
            simp only [copies_eq, List.forall_mem_cons, Span.Inside, recordSize]
            refine ⟨by omega, by omega, by simp⟩
        rw [hinside, hafter.1, hafter.2, stagedSizes_of_stages hmove hstages]
        rfl
      · have hnot : ∀ message, ¬ w.Stages a message := not_exists.mp hstages
        obtain ⟨hoffset, hsize⟩ := internalOffset_of_not_stages hmove hnot
        rw [stagedSizes_of_not_stages hmove hnot, hoffset, hsize]
        exact and_iff_right fun message hstages' => absurd hstages' (hnot message)

/-- The second copy reads a header's size too much, so a run is safe exactly when it stages
nothing. Writing inside the buffer alone is decided by the sizes. -/
theorem staging_safe_iff (entry segments segmentSizes internalBufferSize : ℕ)
    (calls : List LatCall) (moves : List LatMove) :
    (EachStep move StagesSafely (init entry segments segmentSizes internalBufferSize calls) moves ↔
      EachStep move (fun w a => ∀ message, ¬ w.Stages a message)
        (init entry segments segmentSizes internalBufferSize calls) moves) ∧
    (EachStep move CopiesInside (init entry segments segmentSizes internalBufferSize calls) moves ↔
      RecordsFit internalBufferSize 0
        (stagedSizes (init entry segments segmentSizes internalBufferSize calls) moves)) := by
  constructor
  · refine eachStep_congr (I := fun _ => True) (fun _ _ _ _ _ _ => trivial)
      (fun w a w' _ _ => ?_) moves _ trivial
    constructor
    · intro hsafe message hstages
      have hread := hsafe.2 message hstages
      simp [dataRead, length_copied, recordSize, segmentHeaderSize] at hread
    · intro hnot
      exact ⟨fun message hstages => absurd hstages (hnot message),
        fun message hstages => absurd hstages (hnot message)⟩
  · exact copiesInside_iff moves _

/-- A message of a whole segment in an internal buffer that is larger than the segment, its
header included: the second copy ends sixteen bytes behind the buffer. -/
theorem copy_past_internal_buffer :
    ¬ EachStep move StagesSafely
      (init 8 4 8 40 [.append ⟨List.replicate 8 7, List.replicate 24 9, false⟩])
      (constructMoves 4 ++ [.step, .step, .step]) := by
  intro h
  have hstep := h (constructMoves 4 ++ [.step, .step]) .step _ _ (List.prefix_refl _) rfl rfl
  have hinside := hstep.1 _ ⟨rfl, Or.inl rfl⟩ ⟨24, 32⟩ (by decide)
  exact absurd hinside (by decide)

/-- A move with which a signaled operation returns. -/
def returnsSignaled (w : BufferWriterLat) : LatMove → Bool
  | .step =>
    match w.pc with
    | .readingHeader => true
    | .readingCounter => true
    | .refresh _ _ => true
    | .written signaled => signaled
    | .closing => true
    | _ => false
  | .fail =>
    match w.pc with
    | .written signaled => signaled
    | .closing => true
    | _ => false
  | _ => false

end BufferWriterLat

/-- A writer with the client that counts its work requests, and the places in the internal
buffer of the posted messages not known complete: `stale` are those staged before the buffer
was last started again, `recent` the others. -/
structure StagedWriter where
  writer : BufferWriterLat
  client : RDMAClient
  stale : List Span
  recent : List Span

namespace StagedWriter

open Schedule BufferWriterLat

variable {s t : StagedWriter} {a : LatMove}

def init (writer : BufferWriterLat) (client : RDMAClient) : StagedWriter := ⟨writer, client, [], []⟩

/-- Staging a message that does not fit behind the last one makes all posted ones stale. -/
def restart (s : StagedWriter) (message : Message) : StagedWriter :=
  if s.writer.Restarts message then { s with stale := s.stale ++ s.recent, recent := [] } else s

/-- A move that stages nothing. What it posts, a read or a header, is signaled, and what was
posted before is known complete when a signaled operation returns. -/
def proceed (s : StagedWriter) (a : LatMove) (writer : BufferWriterLat) : StagedWriter where
  writer
  client := if s.writer.posted writer = [] then s.client else (s.client.checkSignaled true).1
  stale := if s.writer.returnsSignaled a then [] else s.stale
  recent := if s.writer.returnsSignaled a then [] else s.recent

/-- A move of the writer. A message is signaled for itself, for the last free segment, or by
the count of work requests. -/
def move (s : StagedWriter) (a : LatMove) : Option StagedWriter :=
  (s.writer.move a).map fun writer =>
    match s.writer.pc, a with
    | .write message, .step =>
      let (client, signaled) :=
        s.client.checkSignaled (s.writer.writeableFreeSegments == 1 || message.signaled)
      let place : Span := ⟨s.writer.stagingOffset message, recordSize message⟩
      { s.restart message with
        writer := { writer with pc := .written signaled }
        client
        recent := (s.restart message).recent ++ [place] }
    | .write message, .fail =>
      { s.restart message with writer, client := (s.client.checkSignaled message.signaled).1 }
    | _, _ => s.proceed a writer

/-- No copy of an append touches a posted message that is not known complete. -/
def OverwritesNone (s : StagedWriter) (a : LatMove) : Prop :=
  ∀ message, s.writer.Stages a message → ∀ c ∈ s.writer.copies message,
    ∀ u ∈ s.stale ++ s.recent, c.Apart u

/-- The copies of an append end where the first stale message starts, or before. -/
def EndsBeforeStale (s : StagedWriter) (a : LatMove) : Prop :=
  ∀ message, s.writer.Stages a message → ∀ u ∈ (s.restart message).stale,
    s.writer.stagingOffset message + recordSize message + segmentHeaderSize ≤ u.start

/-- Recent messages end below the staging offset, stale ones start above it. -/
structure Inv (s : StagedWriter) : Prop where
  recent : ∀ u ∈ s.recent, 0 < u.length ∧ u.start + u.length ≤ s.writer.internalOffset
  stale : ∀ u ∈ s.stale, 0 < u.length ∧ s.writer.internalOffset ≤ u.start

theorem inv_init (writer : BufferWriterLat) (client : RDMAClient) : Inv (init writer client) where
  recent := by simp [init]
  stale := by simp [init]

theorem proceed_cases {writer : BufferWriterLat} :
    (s.proceed a writer).stale = [] ∧ (s.proceed a writer).recent = [] ∨
      (s.proceed a writer).stale = s.stale ∧ (s.proceed a writer).recent = s.recent := by
  cases h : s.writer.returnsSignaled a
  · exact Or.inr (by simp [proceed, h])
  · exact Or.inl (by simp [proceed, h])

/-- What a move does to the staged messages. -/
theorem move_cases (h : s.move a = some t) :
    (∃ message, s.writer.Stages a message ∧
      t.writer.internalOffset = s.writer.stagingOffset message + recordSize message ∧
      t.stale = (s.restart message).stale ∧
      (t.recent = (s.restart message).recent ++
          [⟨s.writer.stagingOffset message, recordSize message⟩] ∨
        t.recent = (s.restart message).recent)) ∨
    (∀ message, ¬ s.writer.Stages a message) ∧
      t.writer.internalOffset = s.writer.internalOffset ∧
      (t.stale = [] ∧ t.recent = [] ∨ t.stale = s.stale ∧ t.recent = s.recent) := by
  obtain ⟨w', hmove, ht⟩ := Option.map_eq_some_iff.mp h
  by_cases hstages : ∃ message, s.writer.Stages a message
  · obtain ⟨message, hstages⟩ := hstages
    refine Or.inl ⟨message, hstages, ?_⟩
    have hpc := hstages.1
    rcases move_of_stages hmove hstages with ⟨rfl, rfl⟩ | ⟨rfl, rfl⟩
    · simp only [hpc] at ht
      subst ht
      exact ⟨rfl, rfl, Or.inl rfl⟩
    · simp only [hpc] at ht
      subst ht
      exact ⟨rfl, rfl, Or.inr rfl⟩
  · have hnot : ∀ message, ¬ s.writer.Stages a message := not_exists.mp hstages
    have hoffset := (internalOffset_of_not_stages hmove hnot).1
    refine Or.inr ⟨hnot, ?_⟩
    split at ht
    · rename_i message hpc
      exact absurd ⟨hpc, Or.inl rfl⟩ (hnot message)
    · rename_i message hpc
      exact absurd ⟨hpc, Or.inr rfl⟩ (hnot message)
    · subst ht
      exact ⟨hoffset, proceed_cases⟩

/-- Where a message is staged, relative to those that are then stale and recent. -/
theorem restart_cases (hs : Inv s) (message : Message) :
    s.writer.stagingOffset message = 0 ∧ (s.restart message).stale = s.stale ++ s.recent ∧
        (s.restart message).recent = [] ∧ (∀ u ∈ s.stale ++ s.recent, 0 < u.length) ∨
      s.writer.stagingOffset message = s.writer.internalOffset ∧ s.restart message = s := by
  by_cases hrestarts : s.writer.Restarts message
  · refine Or.inl ⟨if_pos hrestarts, by simp [restart, hrestarts], by simp [restart, hrestarts], ?_⟩
    intro u hu
    rcases List.mem_append.mp hu with hu | hu
    · exact (hs.stale u hu).1
    · exact (hs.recent u hu).1
  · exact Or.inr ⟨if_neg hrestarts, by simp [restart, hrestarts]⟩

theorem overwritesNone_iff (hs : Inv s) : OverwritesNone s a ↔ EndsBeforeStale s a := by
  refine forall_congr' fun message => forall_congr' fun _ => ?_
  have hcopies : (∀ c ∈ s.writer.copies message, ∀ u ∈ s.stale ++ s.recent, c.Apart u) ↔
      ∀ u ∈ s.stale ++ s.recent,
        (⟨s.writer.stagingOffset message, segmentHeaderSize⟩ : Span).Apart u ∧
          (⟨s.writer.stagingOffset message + segmentHeaderSize, recordSize message⟩ :
            Span).Apart u := by
    simp only [copies_eq, List.forall_mem_cons]
    constructor
    · rintro ⟨hfirst, hsecond, -⟩ u hu
      exact ⟨hfirst u hu, hsecond u hu⟩
    · intro hboth
      exact ⟨fun u hu => (hboth u hu).1, fun u hu => (hboth u hu).2, by simp⟩
  rw [hcopies]
  rcases restart_cases hs message with ⟨hoffset, hstale, -, hpos⟩ | ⟨hoffset, hsame⟩
  · -- the buffer is started again: below the first stale message there is only room
    rw [hoffset, hstale]
    refine forall_congr' fun u => forall_congr' fun hu => ?_
    have hu := hpos u hu
    simp only [Span.Apart, segmentHeaderSize]
    omega
  · rw [hoffset, hsame]
    constructor
    · intro happart u hu
      have hstale := hs.stale u hu
      have hu := happart u (List.mem_append_left _ hu)
      simp only [Span.Apart, segmentHeaderSize] at hu
      simp only [segmentHeaderSize]
      omega
    · intro hends u hu
      simp only [Span.Apart]
      rcases List.mem_append.mp hu with hu | hu
      · have hend := hends u hu
        omega
      · have hrecent := (hs.recent u hu).2
        omega

theorem Inv.move (hs : Inv s) (hnone : OverwritesNone s a) (h : s.move a = some t) : Inv t := by
  have hends := (overwritesNone_iff hs).mp hnone
  rcases move_cases h with ⟨message, hstages, hoffset, hstale, hrecent⟩ |
    ⟨-, hoffset, ⟨hstale, hrecent⟩ | ⟨hstale, hrecent⟩⟩
  · have hbelow := hends message hstages
    have hplaced : ∀ u ∈ (s.restart message).recent, 0 < u.length ∧
        u.start + u.length ≤ s.writer.stagingOffset message := by
      rcases restart_cases hs message with ⟨-, -, hnil, -⟩ | ⟨hplace, hsame⟩
      · simp [hnil]
      · rw [hplace, hsame]
        exact hs.recent
    have hpos : ∀ u ∈ (s.restart message).stale, 0 < u.length := by
      rcases restart_cases hs message with ⟨-, happended, -, hpos⟩ | ⟨-, hsame⟩
      · rwa [happended]
      · rw [hsame]
        exact fun u hu => (hs.stale u hu).1
    constructor
    · rw [hoffset]
      rcases hrecent with hrecent | hrecent <;> rw [hrecent]
      · intro u hu
        rcases List.mem_append.mp hu with hu | hu
        · have hend := hplaced u hu
          exact ⟨hend.1, by omega⟩
        · rw [List.mem_singleton.mp hu]
          exact ⟨by simp [recordSize, segmentHeaderSize], le_rfl⟩
      · intro u hu
        have hend := hplaced u hu
        exact ⟨hend.1, by omega⟩
    · rw [hoffset, hstale]
      intro u hu
      have hend := hbelow u hu
      exact ⟨hpos u hu, by omega⟩
  · exact ⟨by simp [hrecent], by simp [hstale]⟩
  · constructor
    · rw [hrecent, hoffset]
      exact hs.recent
    · rw [hstale, hoffset]
      exact hs.stale

/-- No append touches a posted message that is not known complete, exactly when the copies of
each end before the first stale one. -/
theorem overwrites_none_iff (entry segments segmentSizes internalBufferSize : ℕ)
    (calls : List LatCall) (client : RDMAClient) (moves : List LatMove) :
    EachStep move OverwritesNone
        (init (.init entry segments segmentSizes internalBufferSize calls) client) moves ↔
      EachStep move EndsBeforeStale
        (init (.init entry segments segmentSizes internalBufferSize calls) client) moves :=
  eachStep_congr (I := Inv) (fun _ _ _ hs hnone h => hs.move hnone h)
    (fun _ _ _ hs _ => overwritesNone_iff hs) moves _ (inv_init _ client)

/-- Two records of 32 bytes in an internal buffer of 40: the second one takes the place of the
first, whose write is posted and not signaled. -/
theorem posted_message_overwritten :
    ¬ EachStep move OverwritesNone
      (init (.init 8 4 8 40 [.append ⟨List.replicate 8 1, [], false⟩,
        .append ⟨List.replicate 8 2, [], false⟩]) (.init fun _ => 0))
      (constructMoves 4 ++ [.step, .step, .step, .step, .step, .step, .step]) := by
  intro h
  have hstep := h (constructMoves 4 ++ [.step, .step, .step, .step, .step, .step]) .step _ _
    (List.prefix_refl _) rfl rfl
  have happart := hstep _ ⟨rfl, Or.inl rfl⟩ ⟨0, 24⟩ (by decide) ⟨0, 32⟩ (by decide)
  rcases happart with hbefore | hbehind
  · exact absurd hbefore (by decide)
  · exact absurd hbehind (by decide)

end StagedWriter
end DpiLibrary
