import DpiLibrary.Dpi.BandwidthRing
import DpiLibrary.Dpi.LatencyWriter

/-!
# Latency rings

Guarantees of a buffer with one `BufferWriterLat` for each ring and one
`BufferIteratorLat`, under every interleaving in which the writes carry the bytes
they were posted with and the counters do not wrap.
-/

namespace DpiLibrary

variable {k : ℕ}

namespace BufferWriterLat

/-- `close` has been called and its header has arrived. -/
def Closed (w : BufferWriterLat) : Prop :=
  (w.pc = .closing ∨ w.pc = .closed) ∧ w.queue = [] ∧ w.calls = []

variable {g : RingGeometry} {x x' : RingState g} {m m' : Mem} {w w' : BufferWriterLat}
  {program : List (List UInt8)} {stage : MarkStep} {made : Option ℕ}

/-- Only a writer that has closed has finished its ring. -/
theorem Inv.finished (h : Inv g program x m w) (hfin : x.fin = true) :
    w.Closed ∧ w.appended = program ∧ x.sent = program := by
  obtain ⟨posted, happ, ⟨tail, hfly, -⟩ | hfinished⟩ := h.state
  · rw [hfly.unfinished] at hfin
    cases hfin
  · have hprogram := h.program_eq
    rw [hfinished.calls, List.flatMap_nil, List.append_nil] at hprogram
    have hpending : w.pc.pending = [] := by
      rcases hfinished.pc with hpc | hpc <;> rw [hpc] <;> rfl
    rw [hpending, List.append_nil] at happ
    exact ⟨⟨hfinished.pc, hfinished.queue, hfinished.calls⟩, hprogram,
      hfinished.sent.trans (happ.symm.trans hprogram)⟩

/-- What has been sent has been appended before. -/
theorem Inv.sent_isPrefix (h : Inv g program x m w) : x.sent <+: w.appended := by
  obtain ⟨posted, happ, ⟨tail, hfly, -⟩ | hfinished⟩ := h.state
  · obtain ⟨ops, rest, hposted, -, -⟩ := hfly.queue
    rw [happ, hposted, List.append_assoc]
    exact List.prefix_append _ _
  · rw [happ, hfinished.sent]
    exact List.prefix_append _ _

theorem Inv.sent_program (h : Inv g program x m w) : x.sent <+: program := by
  refine h.sent_isPrefix.trans ?_
  rw [← h.program_eq]
  exact List.prefix_append _ _

/-- The value of the counter that the credits are counted from, once one has been read. While
`append` reads it again, this is the previous value. -/
def creditsRead (w : BufferWriterLat) : Option ℕ :=
  match w.pc with
  | .constructing => none
  | .readingHeader => none
  | .readingCounter => none
  | .refresh consumedCntOld _ => some consumedCntOld
  | _ => some w.consumedCnt

/-- Segments whose write has been posted. -/
def postedCount (w : BufferWriterLat) : ℕ :=
  match w.pc with
  | .written _ => w.written + 1
  | _ => w.written

/-- Segments whose write has been executed. -/
def landed (w : BufferWriterLat) : ℕ := w.postedCount - (w.queue.filter LatOp.isWrite).length

/-- The writer waits for credit, has no write under way, and would find the counter
unchanged. -/
def Blocked (m : Mem) (w : BufferWriterLat) : Prop :=
  ∃ old message, w.pc = .refresh old message ∧
    (w.queue = [] ∨ w.queue = [.readCounter w.counterOffset]) ∧ w.consumedCnt = old ∧
    readWord m w.counterOffset = old

/-- The operations behind the writes are no writes, and all messages posted are counted. -/
theorem Detail.postedCount {released : ℕ} {posted : List (List UInt8)} {tail : List LatOp}
    (h : Detail g released w posted tail) :
    w.postedCount = posted.length ∧ tail.filter LatOp.isWrite = [] := by
  unfold Detail at h
  unfold BufferWriterLat.postedCount
  cases hpc : w.pc with
  | constructing =>
    simp only [hpc] at h ⊢
    exact ⟨by rw [h.1.none_written, h.1.none_posted]; rfl, by rw [h.2]; rfl⟩
  | readingHeader =>
    simp only [hpc] at h ⊢
    refine ⟨by rw [h.1.none_written, h.1.none_posted]; rfl, ?_⟩
    rcases h.2 with htail | ⟨htail, -⟩ <;> rw [htail] <;> rfl
  | readingCounter =>
    simp only [hpc] at h ⊢
    refine ⟨by rw [h.1.none_written, h.1.none_posted]; rfl, ?_⟩
    rcases h.2.2 with htail | ⟨htail, -⟩ <;> rw [htail] <;> rfl
  | idle =>
    simp only [hpc] at h ⊢
    exact ⟨h.1.count, by rw [h.2.2]; rfl⟩
  | append message =>
    simp only [hpc] at h ⊢
    exact ⟨h.1.count, by rw [h.2.2]; rfl⟩
  | refresh old message =>
    simp only [hpc] at h ⊢
    refine ⟨h.1.count, ?_⟩
    rcases h.2.2.2.2.2 with htail | htail <;> rw [htail] <;> rfl
  | write message =>
    simp only [hpc] at h ⊢
    exact ⟨h.1.count, by rw [h.2.2.2]; rfl⟩
  | written signaled =>
    simp only [hpc] at h ⊢
    exact ⟨h.1.count, by rw [h.2.2.2]; rfl⟩
  | closing =>
    simp only [hpc] at h ⊢
    obtain ⟨htail, -, -, -, hcount, -, -⟩ := h
    exact ⟨hcount, by rw [htail]; rfl⟩
  | closed => simp only [hpc] at h

theorem Inv.landed (h : Inv g program x m w) : w.landed = x.sent.length := by
  unfold BufferWriterLat.landed
  obtain ⟨posted, -, ⟨tail, hfly, hdetail⟩ | hfinished⟩ := h.state
  · obtain ⟨ops, rest, hposted, hqueue, hinflight⟩ := hfly.queue
    obtain ⟨hcount, htail⟩ := hdetail.postedCount
    rw [hcount, hqueue, List.filter_append, htail, List.append_nil, hinflight.filter_isWrite,
      hinflight.length, hposted, List.length_append, Nat.add_sub_cancel]
  · have hcount : w.postedCount = posted.length := by
      unfold BufferWriterLat.postedCount
      rcases hfinished.pc with hpc | hpc <;> rw [hpc] <;> exact hfinished.count
    rw [hcount, hfinished.queue, hfinished.sent]
    rfl

/-- The next write goes to the slot after the blocks sent, and there is room for it. -/
theorem Inv.nextWrite (h : Inv g program x m w) {remote src : ℕ} {bytes : List UInt8}
    {queue : List LatOp} (hqueue : w.queue = .write remote src bytes :: queue) :
    remote = g.slot x.sent.length ∧ x.sent.length < x.released + g.segments ∧
      bytes.length ≤ g.fullSize := by
  obtain ⟨posted, happ, ⟨tail, hfly, hdetail⟩ | hfinished⟩ := h.state
  · obtain ⟨ops, rest, hposted, hops, hinflight⟩ := hfly.queue
    cases ops with
    | nil =>
      have htail := hdetail.postedCount.2
      rw [List.nil_append] at hops
      rw [← hops, hqueue, List.filter_cons_of_pos rfl] at htail
      cases htail
    | cons op ops =>
      rw [hqueue, List.cons_append] at hops
      obtain ⟨rfl, -⟩ := List.cons.inj hops
      obtain ⟨data, rest', rfl, rfl, rfl, -⟩ := hinflight
      have hroom := hfly.room
      rw [hposted, List.length_append, List.length_cons] at hroom
      have hsize : data.length ≤ g.segmentSize := by
        refine h.sizes data ?_
        rw [← h.program_eq, happ, hposted]
        simp
      refine ⟨rfl, by omega, ?_⟩
      rw [List.length_append, SegmentHeader.length_encode]
      unfold RingGeometry.fullSize
      omega
  · rw [hfinished.queue] at hqueue
    cases hqueue

/-- Credits and segments written make up the value last read. -/
theorem Inv.credits (h : Inv g program x m w) {seen : ℕ} (hread : w.creditsRead = some seen) :
    w.writeableFreeSegments + w.written = seen := by
  unfold creditsRead at hread
  obtain ⟨posted, happ, ⟨tail, hfly, hdetail⟩ | hfinished⟩ := h.state
  · unfold Detail at hdetail
    cases hpc : w.pc with
    | constructing => simp [hpc] at hread
    | readingHeader => simp [hpc] at hread
    | readingCounter => simp [hpc] at hread
    | closing =>
      simp only [hpc, Option.some.injEq] at hread hdetail
      obtain ⟨-, -, -, -, -, -, hcredit⟩ := hdetail
      exact hread ▸ hcredit.balance
    | closed => simp only [hpc] at hdetail
    | _ =>
      simp only [hpc, Option.some.injEq] at hread hdetail
      exact hread ▸ hdetail.2.1.balance
  · rcases hfinished.pc with hpc | hpc <;>
    · simp only [hpc, Option.some.injEq] at hread
      exact hread ▸ hfinished.credit.balance

/-- The credit used up by a write was there. -/
theorem Inv.credit_pos (h : Inv g program x m w) {signaled : Bool}
    (hpc : w.pc = .written signaled) : 0 < w.writeableFreeSegments := by
  obtain ⟨posted, -, ⟨tail, -, hdetail⟩ | hfinished⟩ := h.state
  · unfold Detail at hdetail
    simp only [hpc] at hdetail
    exact hdetail.2.2.1
  · rcases hfinished.pc with hpc' | hpc' <;> rw [hpc] at hpc' <;> cases hpc'

/-- A writer waits for credit on a full ring only. -/
theorem Inv.full_of_blocked (h : Inv g program x m w) (hblocked : w.Blocked m) :
    x.fin = false ∧ x.sent.length = x.released + g.segments := by
  obtain ⟨old, message, hpc, hqueue, -, hword⟩ := hblocked
  obtain ⟨posted, -, ⟨tail, hfly, hdetail⟩ | hfinished⟩ := h.state
  · unfold Detail at hdetail
    simp only [hpc] at hdetail
    obtain ⟨hready, hcredit, hnone, -⟩ := hdetail
    have hlanded := h.landed
    have hnowrite : w.queue.filter LatOp.isWrite = [] := by
      rcases hqueue with hqueue | hqueue <;> rw [hqueue] <;> rfl
    unfold BufferWriterLat.landed BufferWriterLat.postedCount at hlanded
    simp only [hpc, hnowrite, List.length_nil, Nat.sub_zero] at hlanded
    have hcounter := h.counter
    have hbalance := hcredit.balance
    unfold counterOffset at hword
    rw [h.entry] at hword
    exact ⟨hfly.unfinished, by omega⟩
  · rcases hfinished.pc with hpc' | hpc' <;> rw [hpc] at hpc' <;> cases hpc'

end BufferWriterLat

open BufferWriterLat RingSystem

variable {b : BufferRings k}

/-- The latency writer is one the protocol allows. -/
theorem latencySim (htype : b.type = .lat) (program : Fin k → List (List UInt8))
    (hspare : ∀ r, 2 ≤ (b.ring r).segments ∨ program r = []) :
    WriterSim b machine CarriesPosted fun r => Inv (b.ring r) (program r) where
  window r x _ _ h := by
    refine Or.inl ((hspare r).elim x.returned_lt_window fun hnone => ?_)
    have hnil := h.sent_program
    rw [hnone, List.prefix_nil] at hnil
    have hreturned := x.returned_le_sent
    have hpos := (b.ring r).segments_pos
    rw [hnil, List.length_nil] at hreturned
    omega
  frame r x m m' w h hagree := by
    refine h.stable rfl rfl le_rfl ?_ h.counter_lt
    have hword : AgreeOn m' m ((b.ring r).entry - 8) 8 := by
      refine hagree.mono ?_ ?_ <;>
      · simp only [RingGeometry.block, htype, NodeServer.counterSize]
        omega
    rw [hword.readWord]
    exact h.counter
  mark r x m m' w h _ _ hagree := by
    refine h.stable rfl rfl le_rfl ?_ h.counter_lt
    have hle := b.counter_le r htype
    have hslot := (b.ring r).le_slot x.released
    rw [(hagree _ 8 (Or.inl (by omega))).readWord]
    exact h.counter
  release r x m m' w hsent h hheld _ hcount := by
    obtain ⟨hlt, hword⟩ := hcount htype
    have hcounter := h.counter
    have hreleased : (x.release hsent).released = x.released + 1 := hheld
    refine h.stable rfl rfl x.released_le ?_ ?_
    · rw [hword, hcounter, hreleased, Nat.add_assoc]
    · rw [hreleased]
      omega
  take r x m w hrel hsent h := h.stable rfl rfl le_rfl h.counter h.counter_lt
  step r x m w w' h hstep := h.step hstep
  nic r x stage m w m' w' made h hguard hshows hstage _ hstep := by
    rw [htype] at hshows ⊢
    obtain ⟨x', hexecuted⟩ := h.nic hguard hshows hstage (b.counter_le r htype) hstep
    exact ⟨x', hexecuted.move, hexecuted.shows, hexecuted.inv, hexecuted.frame⟩

/-- Writers of the rings of a buffer. Their clients append messages; `closing` is what
they call then. -/
def BufferRings.latencyWriters (b : BufferRings k) (internalBufferSize : Fin k → ℕ)
    (messages : Fin k → List Message) (closing : Fin k → List LatCall) (r : Fin k) :
    BufferWriterLat :=
  .init (b.ring r).entry (b.ring r).segments (b.ring r).segmentSize (internalBufferSize r)
    ((messages r).map LatCall.append ++ closing r)

/-- A state of the system with the protocol state it is in. -/
abbrev LatencyRefines (messages : Fin k → List Message) (s : RingSystem BufferWriterLat k)
    (a : BufferState b) : Prop :=
  s.Refines (fun r => Inv (b.ring r) ((messages r).map Message.data)) a

theorem latency_refines (htype : b.type = .lat) (hsegments : ∀ r, 2 ≤ (b.ring r).segments)
    {internalBufferSize : Fin k → ℕ} {messages : Fin k → List Message}
    {closing : Fin k → List LatCall}
    (hclosing : ∀ r, closing r = [] ∨ closing r = [.close] ∧ messages r ≠ [])
    (hsizes : ∀ r, ∀ message ∈ messages r, message.data.length ≤ (b.ring r).segmentSize)
    {m : Mem} {schedule : List (RingLabel k)}
    (hguarded : Schedule.EachStep (step .lat machine) (Guarded CarriesPosted)
      (init b m (b.latencyWriters internalBufferSize messages closing)) schedule) :
    Schedule.Throughout (step .lat machine) (fun s => ∃ a, LatencyRefines (b := b) messages s a)
      (init b m (b.latencyWriters internalBufferSize messages closing)) schedule := by
  rw [← htype] at hguarded ⊢
  have sim := latencySim htype (fun r => (messages r).map Message.data)
    fun r => Or.inl (hsegments r)
  refine refines_throughout sim m _ (fun r => ?_) schedule hguarded
  refine inv_init _ _ _ (hclosing r) (hsizes r) ?_
  rw [← htype]
  exact b.shows_initMem m r

/-- First in, first out, and exactly once: the messages returned for a ring are a prefix of
the messages appended on it, and all of them when `has_next` returns false, which it does
only after every writer has closed. -/
theorem latency_fifo (b : BufferRings k) (htype : b.type = .lat)
    (hsegments : ∀ r, 2 ≤ (b.ring r).segments) (internalBufferSize : Fin k → ℕ)
    (messages : Fin k → List Message) (hmessages : ∀ r, messages r ≠ [])
    (hsizes : ∀ r, ∀ message ∈ messages r, message.data.length = (b.ring r).segmentSize)
    (m : Mem) (schedule : List (RingLabel k))
    (hguarded : Schedule.EachStep (step .lat machine) (Guarded CarriesPosted)
      (init b m (b.latencyWriters internalBufferSize messages fun _ => [.close])) schedule) :
    Schedule.Throughout (step .lat machine)
      (fun s => (∀ r, returnedBlocks s.log r <+: (s.writers r).appended ∧
          (s.writers r).appended <+: (messages r).map Message.data) ∧
        (.hasNextReturned false ∈ s.log → ∀ r, (s.writers r).Closed ∧
          returnedBlocks s.log r = (messages r).map Message.data))
      (init b m (b.latencyWriters internalBufferSize messages fun _ => [.close])) schedule := by
  intro pre s hpre hs
  obtain ⟨a, ha⟩ := latency_refines htype hsegments (fun r => Or.inr ⟨rfl, hmessages r⟩)
    (fun r message hmem => (hsizes r message hmem).le) hguarded pre s hpre hs
  have hexact : ∀ r, a.Exact r := by
    intro r
    refine Or.inr fun data hdata => ?_
    obtain ⟨message, hmem, rfl⟩ := List.mem_map.mp ((ha.1.writer r).sent_program.subset hdata)
    exact hsizes r message hmem
  refine ⟨fun r => ⟨?_, ?_⟩, fun hmem r => ?_⟩
  · rw [ha.2.blocks r (hexact r)]
    exact (a.ring r).delivered_isPrefix.trans (ha.1.writer r).sent_isPrefix
  · rw [← (ha.1.writer r).program_eq]
    exact List.prefix_append _ _
  · obtain ⟨hfin, hreturned⟩ := ha.2.exhausted hmem r
    obtain ⟨hclosed, -, hsent⟩ := (ha.1.writer r).finished hfin
    rw [ha.2.blocks r (hexact r), LaggedRing.delivered_eq _ hreturned]
    exact ⟨hclosed, hsent⟩

/-- One ring with segments of one byte, behind its counter. -/
def creditSegments (segments : ℕ) (hpos : 0 < segments) (hfits : 8 + segments * 25 < sizeTBound) :
    BufferRings 1 :=
  .single .lat ⟨8, segments, 1, hpos, hfits⟩ le_rfl

/-- The steps of an `append` that has credit. -/
def appendSteps : List (RingLabel 1) := [.writer 0, .writer 0, .writer 0, .nic 0, .writer 0]

/-- The writer fills two segments and runs out of credit; the iterator returns both and
releases the first. -/
def creditRun : List (RingLabel 1) :=
  [.writer 0, .nic 0, .writer 0, .nic 0, .writer 0] ++ appendSteps ++ appendSteps ++
    [.writer 0, .writer 0, .nic 0] ++ RingLabel.call .hasNext 2 ++ RingLabel.call .next 4 ++
    RingLabel.call .hasNext 2 ++ RingLabel.call .next 8

/-- A third message goes to the segment released, the writer closes and the iterator reads
to the end. -/
def creditCloseRun : List (RingLabel 1) :=
  creditRun ++ [.writer 0, .nic 0, .writer 0, .writer 0, .nic 0, .writer 0, .writer 0, .nic 0,
    .writer 0] ++ RingLabel.call .hasNext 2 ++ RingLabel.call .next 8 ++ RingLabel.call .hasNext 4

theorem latency_fifo_two_segments :
    ((Schedule.exec (step .lat machine) (init (creditSegments 2 (by decide) (by decide))
      (fun _ => 0) ((creditSegments 2 (by decide) (by decide)).latencyWriters (fun _ => 100)
        (fun _ => [⟨[7], [], false⟩, ⟨[8], [], false⟩, ⟨[9], [], false⟩]) fun _ => [.close]))
      creditCloseRun).map fun s => s.log.getLast?) = some (some (.hasNextReturned false)) ∧
    Schedule.Throughout (step .lat machine)
      (fun s => (∀ r, returnedBlocks s.log r <+: (s.writers r).appended ∧
          (s.writers r).appended <+: [[7], [8], [9]]) ∧
        (.hasNextReturned false ∈ s.log → ∀ r, (s.writers r).Closed ∧
          returnedBlocks s.log r = [[7], [8], [9]]))
      (init (creditSegments 2 (by decide) (by decide)) (fun _ => 0)
        ((creditSegments 2 (by decide) (by decide)).latencyWriters (fun _ => 100)
          (fun _ => [⟨[7], [], false⟩, ⟨[8], [], false⟩, ⟨[9], [], false⟩]) fun _ => [.close]))
      creditCloseRun :=
  ⟨by decide +kernel, latency_fifo (creditSegments 2 (by decide) (by decide)) rfl
    (fun _ => le_rfl) (fun _ => 100)
    (fun _ => [⟨[7], [], false⟩, ⟨[8], [], false⟩, ⟨[9], [], false⟩]) (by simp)
    (by simp [creditSegments, BufferRings.single]) (fun _ => 0) creditCloseRun
    (by decide +kernel)⟩

/-- Segments the iterator has released: all it has returned but the last one, and that
one too when `next` has passed the mark. -/
def RingSystem.releasedSegments {ω : Type} (s : RingSystem ω k) (r : Fin k) : ℕ :=
  match s.iterator.pcAt r with
  | .getRawData => (returnedBlocks s.log r).length
  | .advance _ => (returnedBlocks s.log r).length
  | _ => (returnedBlocks s.log r).length - 1

theorem RingSystem.Refines.releasedSegments {ω : Type}
    {W : ∀ r, RingState (b.ring r) → Mem → ω → Prop} {s : RingSystem ω k} {a : BufferState b}
    (h : s.Refines W a) (r : Fin k) : s.releasedSegments r = (a.ring r).released := by
  unfold RingSystem.releasedSegments
  rw [h.2.count r]
  have hdrained : a.Drained r → (a.ring r).returned - 1 = (a.ring r).released := by
    rintro ⟨-, hreturned⟩
    have hle := (a.ring r).released_le
    have hle' := (a.ring r).returned_le
    by_cases hnil : (a.ring r).sent = []
    · rw [hnil, List.length_nil] at hreturned
      omega
    · have hlt := (a.ring r).released_lt_sent hnil
      omega
  by_cases hmem : r ∈ s.iterator.segmentIterators.toList.map IterHelper.ring
  · obtain ⟨y, hy, rfl⟩ := List.mem_map.mp hmem
    have hphase := h.1.iterator.phase y hy
    cases hpc : s.iterator.pcAt y.ring with
    | getRawData =>
      rw [hpc] at hphase
      exact hphase.1.symm
    | advance size =>
      rw [hpc] at hphase
      exact hphase.1.symm
    | erase =>
      rw [hpc] at hphase
      exact hdrained hphase
    | mark step inNext =>
      rw [hpc] at hphase
      cases inNext <;> exact hphase.1.symm
    | idle =>
      rw [hpc] at hphase
      exact Eq.symm hphase
    | loop =>
      rw [hpc] at hphase
      exact Eq.symm hphase
    | testConsumable =>
      rw [hpc] at hphase
      exact hphase.1.symm
    | ready =>
      rw [hpc] at hphase
      exact hphase.1.symm
  · have hidle : s.iterator.pcAt r = .idle := by
      unfold BufferIterator.pcAt
      cases hget : s.iterator.segmentIterators.get? with
      | none => rfl
      | some y =>
        refine if_neg fun hring => hmem ?_
        rw [← hring]
        exact List.mem_map_of_mem (Cursor.mem_toList_of_get? hget)
    rw [hidle]
    exact hdrained (h.1.iterator.erased r hmem)

/-- Flow control by credits: the counter counts the segments released, the writers' credits
follow from the value last read and never run below zero, and the next write leaves every
segment alone that is written and not released, the one lent to the client included. -/
structure CreditSafe (b : BufferRings k) (s : RingSystem BufferWriterLat k) : Prop where
  counter : ∀ r, readWord s.mem ((b.ring r).entry - 8) =
    (b.ring r).segments + s.releasedSegments r
  credits : ∀ r seen, (s.writers r).creditsRead = some seen →
    (s.writers r).writeableFreeSegments + (s.writers r).written = seen
  credit_pos : ∀ r signaled, (s.writers r).pc = .written signaled →
    0 < (s.writers r).writeableFreeSegments
  intact : ∀ r remote src posted queue m' w made,
    (s.writers r).queue = .write remote src posted :: queue →
    nic s.mem (s.writers r) = some (m', w, made) →
    (∀ r' j, s.releasedSegments r' ≤ j → j < (s.writers r').landed →
      AgreeOn m' s.mem ((b.ring r').slot j) (b.ring r').fullSize) ∧
    ∀ r' offset, lentSegment s.log r' = some offset →
      AgreeOn m' s.mem offset (b.ring r').fullSize

theorem LatencyRefines.creditSafe {messages : Fin k → List Message}
    {s : RingSystem BufferWriterLat k} {a : BufferState b} (h : LatencyRefines messages s a) :
    CreditSafe b s := by
  refine ⟨fun r => ?_, fun r seen => (h.1.writer r).credits,
    fun r signaled => (h.1.writer r).credit_pos, ?_⟩
  · rw [h.releasedSegments r]
    exact (h.1.writer r).counter
  · intro r remote src posted queue m' w made hqueue hnic
    obtain ⟨rfl, hroom, hlen⟩ := (h.1.writer r).nextWrite hqueue
    have hout : ∀ start len, start + len ≤ (b.ring r).slot (a.ring r).sent.length ∨
        (b.ring r).slot (a.ring r).sent.length + (b.ring r).fullSize ≤ start →
        AgreeOn m' s.mem start len := by
      intro start len hout
      simp only [BufferWriterLat.nic, hqueue, Option.some.injEq, Prod.mk.injEq] at hnic
      rw [← hnic.1]
      refine agreeOn_writeBytes ?_
      rw [length_readBytes]
      omega
    have hunreleased : ∀ r' j, (a.ring r').released ≤ j → j < (a.ring r').sent.length →
        AgreeOn m' s.mem ((b.ring r').slot j) (b.ring r').fullSize := by
      intro r' j hlo hhi
      refine hout _ _ ?_
      by_cases hr : r' = r
      · subst hr
        exact (b.ring r').slots_apart (a.ring r').released ⟨hlo, by omega⟩ ⟨by omega, hroom⟩
          (by omega)
      · exact b.slots_apart hr j _
    refine ⟨fun r' j hlo hhi => ?_, fun r' offset hlent => ?_⟩
    · rw [h.releasedSegments r'] at hlo
      rw [(h.1.writer r').landed] at hhi
      exact hunreleased r' j hlo hhi
    · obtain ⟨-, hheld, rfl⟩ := h.2.lent r' offset hlent
      have hsent := (a.ring r').returned_le_sent
      exact hunreleased r' _ le_rfl (by omega)

/-- Credit safety of writers whose messages fit into a segment. -/
theorem latency_credit_safe (b : BufferRings k) (htype : b.type = .lat)
    (hsegments : ∀ r, 2 ≤ (b.ring r).segments) (internalBufferSize : Fin k → ℕ)
    (messages : Fin k → List Message) (closing : Fin k → List LatCall)
    (hclosing : ∀ r, closing r = [] ∨ closing r = [.close] ∧ messages r ≠ [])
    (hsizes : ∀ r, ∀ message ∈ messages r, message.data.length ≤ (b.ring r).segmentSize)
    (m : Mem) (schedule : List (RingLabel k))
    (hguarded : Schedule.EachStep (step .lat machine) (Guarded CarriesPosted)
      (init b m (b.latencyWriters internalBufferSize messages closing)) schedule) :
    Schedule.Throughout (step .lat machine) (CreditSafe b)
      (init b m (b.latencyWriters internalBufferSize messages closing)) schedule := by
  intro pre s hpre hs
  obtain ⟨a, ha⟩ := latency_refines htype hsegments hclosing hsizes hguarded pre s hpre hs
  exact LatencyRefines.creditSafe ha

theorem latency_credit_safe_two_segments :
    ((Schedule.exec (step .lat machine) (init (creditSegments 2 (by decide) (by decide))
      (fun _ => 0) ((creditSegments 2 (by decide) (by decide)).latencyWriters (fun _ => 100)
        (fun _ => [⟨[7], [], false⟩, ⟨[8], [], false⟩, ⟨[9], [], false⟩]) fun _ => [.close]))
      creditCloseRun).map fun s => s.releasedSegments 0) = some 2 ∧
    Schedule.Throughout (step .lat machine) (CreditSafe (creditSegments 2 (by decide) (by decide)))
      (init (creditSegments 2 (by decide) (by decide)) (fun _ => 0)
        ((creditSegments 2 (by decide) (by decide)).latencyWriters (fun _ => 100)
          (fun _ => [⟨[7], [], false⟩, ⟨[8], [], false⟩, ⟨[9], [], false⟩]) fun _ => [.close]))
      creditCloseRun :=
  ⟨by decide +kernel, latency_credit_safe (creditSegments 2 (by decide) (by decide)) rfl
    (fun _ => le_rfl) (fun _ => 100)
    (fun _ => [⟨[7], [], false⟩, ⟨[8], [], false⟩, ⟨[9], [], false⟩]) (fun _ => [.close])
    (by simp) (by simp [creditSegments, BufferRings.single]) (fun _ => 0) creditCloseRun
    (by decide +kernel)⟩

/-- A message of two bytes does not fit into a segment of one byte: its write changes the
header of the segment lent to the client. -/
theorem lent_overwritten_by_long_message :
    ¬ Schedule.Throughout (step .lat machine)
      (CreditSafe (creditSegments 2 (by decide) (by decide)))
      (init (creditSegments 2 (by decide) (by decide)) (fun _ => 0)
        ((creditSegments 2 (by decide) (by decide)).latencyWriters (fun _ => 100)
          (fun _ => [⟨[7], [], false⟩, ⟨[8], [], false⟩, ⟨[9, 9], [], false⟩]) fun _ => []))
      (creditRun ++ [.writer 0, .nic 0, .writer 0, .writer 0]) := by
  intro h
  have hrun : ((Schedule.exec (step .lat machine) (init (creditSegments 2 (by decide) (by decide))
      (fun _ => 0) ((creditSegments 2 (by decide) (by decide)).latencyWriters (fun _ => 100)
        (fun _ => [⟨[7], [], false⟩, ⟨[8], [], false⟩, ⟨[9, 9], [], false⟩]) fun _ => []))
      (creditRun ++ [.writer 0, .nic 0, .writer 0, .writer 0])).map fun s =>
        (lentSegment s.log 0, (s.writers 0).queue.head?, s.mem 33,
          (nic s.mem (s.writers 0)).map fun executed => executed.1 33)) =
      some (some 33, some (.write 8 50 (SegmentHeader.encode ⟨2, 33, 3⟩ ++ [9, 9])), 1,
        some 9) := by
    decide +kernel
  obtain ⟨s, hs, heq⟩ := Option.map_eq_some_iff.mp hrun
  simp only [Prod.mk.injEq] at heq
  obtain ⟨hlent, hhead, hbefore, hnic⟩ := heq
  obtain ⟨⟨m', w, made⟩, hexecuted, hafter⟩ := Option.map_eq_some_iff.mp hnic
  obtain ⟨queue, hqueue⟩ := List.head?_eq_some_iff.mp hhead
  have hagree := ((h _ s (List.prefix_refl _) hs).intact 0 _ _ _ _ _ _ _ hqueue hexecuted).2 0 33
    hlent 33 le_rfl (by decide)
  have hchanged : m' 33 = 9 := hafter
  rw [hagree, hbefore] at hchanged
  revert hchanged
  decide

end DpiLibrary
