import DpiLibrary.Dpi.BufferWriterLat
import DpiLibrary.Dpi.RingRefinement

/-!
# The latency writer's invariant

Messages posted are the blocks sent, followed by the writes still in the queue. The
writer never posts more segments than the ring has, plus those released: the value
of the counter it has read bounds them.
-/

namespace DpiLibrary

/-- Messages a call passes to the writer. -/
def LatCall.messages : LatCall → List (List UInt8)
  | .append message => [message.data]
  | .close => []

/-- The message of the running call, as long as its write is not posted. -/
def LatPc.pending : LatPc → List (List UInt8)
  | .append message => [message.data]
  | .refresh _ message => [message.data]
  | .write message => [message.data]
  | _ => []

/-- Writes of the messages `rest`, to the segments from `j` on. -/
def InFlight (g : RingGeometry) : ℕ → List LatOp → List (List UInt8) → Prop
  | _, [], rest => rest = []
  | j, .write remote _ posted :: ops, rest =>
    ∃ data rest', rest = data :: rest' ∧ remote = g.slot j ∧
      posted = SegmentHeader.encode ⟨data.length, g.slot (j + 1), 0b0011⟩ ++ data ∧
      InFlight g (j + 1) ops rest'
  | _, .writeHeader _ :: _, _ => False
  | _, .readHeader _ :: _, _ => False
  | _, .readCounter _ :: _, _ => False

theorem InFlight.concat {g : RingGeometry} {data : List UInt8} {src : ℕ} :
    ∀ {ops : List LatOp} {j : ℕ} {rest : List (List UInt8)}, InFlight g j ops rest →
      InFlight g j (ops ++ [.write (g.slot (j + rest.length)) src
        (SegmentHeader.encode ⟨data.length, g.slot (j + rest.length + 1), 0b0011⟩ ++ data)])
        (rest ++ [data]) := by
  intro ops
  induction ops with
  | nil =>
    rintro j rest rfl
    exact ⟨data, [], rfl, rfl, rfl, rfl⟩
  | cons op ops ih =>
    intro j rest h
    cases op with
    | write remote src' posted =>
      obtain ⟨data', rest', rfl, hremote, hposted, htail⟩ := h
      have hconcat := ih htail
      refine ⟨data', rest' ++ [data], rfl, hremote, hposted, ?_⟩
      rw [List.length_cons, ← Nat.add_assoc, Nat.add_right_comm]
      exact hconcat
    | writeHeader remote => exact h.elim
    | readHeader remote => exact h.elim
    | readCounter remote => exact h.elim

theorem InFlight.length {g : RingGeometry} :
    ∀ {ops : List LatOp} {j : ℕ} {rest : List (List UInt8)}, InFlight g j ops rest →
      ops.length = rest.length := by
  intro ops
  induction ops with
  | nil => rintro j rest rfl; rfl
  | cons op ops ih =>
    intro j rest h
    cases op with
    | write remote src posted =>
      obtain ⟨data, rest', rfl, -, -, htail⟩ := h
      rw [List.length_cons, List.length_cons, ih htail]
    | writeHeader remote => exact h.elim
    | readHeader remote => exact h.elim
    | readCounter remote => exact h.elim

/-- Writes of messages. -/
def LatOp.isWrite : LatOp → Bool
  | .write _ _ _ => true
  | _ => false

theorem InFlight.filter_isWrite {g : RingGeometry} :
    ∀ {ops : List LatOp} {j : ℕ} {rest : List (List UInt8)}, InFlight g j ops rest →
      ops.filter LatOp.isWrite = ops := by
  intro ops
  induction ops with
  | nil => intro j rest _; rfl
  | cons op ops ih =>
    intro j rest h
    cases op with
    | write remote src posted =>
      obtain ⟨data, rest', rfl, -, -, htail⟩ := h
      rw [List.filter_cons_of_pos rfl, ih htail]
    | writeHeader remote => exact h.elim
    | readHeader remote => exact h.elim
    | readCounter remote => exact h.elim

namespace BufferWriterLat

/-- The client closes the writer at the end, if at all, and not without a message. -/
def CallsOpen (w : BufferWriterLat) : Prop :=
  ∃ (messages : List Message) (closing : List LatCall),
    w.calls = messages.map LatCall.append ++ closing ∧
      (closing = [] ∨ closing = [.close] ∧ (messages ≠ [] ∨ w.appended ≠ []))

variable {g : RingGeometry} {x x' : RingState g} {m m' : Mem} {w w' : BufferWriterLat}
  {posted : List (List UInt8)} {tail : List LatOp}

/-- The messages posted have been sent or are in the queue, which ends with `tail`. There
is room for all of them. -/
structure Flying (x : RingState g) (w : BufferWriterLat) (posted : List (List UInt8))
    (tail : List LatOp) : Prop where
  unfinished : x.fin = false
  room : posted.length ≤ x.released + g.segments
  queue : ∃ ops rest, posted = x.sent ++ rest ∧ w.queue = ops ++ tail ∧
    InFlight g x.sent.length ops rest

/-- The writer has been constructed up to the reads of the header and the counter. -/
structure Fresh (g : RingGeometry) (w : BufferWriterLat) (posted : List (List UInt8)) : Prop where
  none_posted : posted = []
  none_written : w.written = 0
  current : w.currentSegmentOffset = g.slot 0
  index : w.segmentIndex = 0
  calls : w.CallsOpen

/-- All messages posted are counted, and the writer stands at the next segment. -/
structure Ready (g : RingGeometry) (w : BufferWriterLat) (posted : List (List UInt8)) : Prop where
  count : w.written = posted.length
  current : w.currentSegmentOffset = g.slot posted.length
  index : w.segmentIndex = posted.length % g.segments
  last : posted ≠ [] → w.lastSegmentOffset = g.slot (posted.length - 1)
  flags : w.header.segmentFlags = 0b0001 ∨ w.header.segmentFlags = 0b0011
  next : posted ≠ [] → w.header.nextSegmentOffset = g.slot posted.length
  calls : w.CallsOpen

/-- The last message posted is not counted yet. -/
structure Posting (g : RingGeometry) (w : BufferWriterLat) (posted : List (List UInt8)) :
    Prop where
  count : w.written + 1 = posted.length
  current : w.currentSegmentOffset = g.slot (posted.length - 1)
  next : w.nextSegmentOffset = g.slot posted.length
  index : w.segmentIndex = posted.length % g.segments
  header : w.header.segmentFlags = 0b0011 ∧ w.header.nextSegmentOffset = g.slot posted.length
  calls : w.CallsOpen

/-- Credits and segments written make up a value the counter has had. -/
structure Credit (g : RingGeometry) (released : ℕ) (w : BufferWriterLat) (seen : ℕ) : Prop where
  balance : w.writeableFreeSegments + w.written = seen
  seen_le : seen ≤ g.segments + released

/-- What the program counter says of a writer that has not closed; `tail` are the
operations behind the writes in the queue. -/
def Detail (g : RingGeometry) (released : ℕ) (w : BufferWriterLat) (posted : List (List UInt8))
    (tail : List LatOp) : Prop :=
  match w.pc with
  | .constructing => Fresh g w posted ∧ tail = []
  | .readingHeader => Fresh g w posted ∧
    (tail = [.readHeader (g.slot 0)] ∨ tail = [] ∧ w.header.segmentFlags = 0b0001)
  | .readingCounter => Fresh g w posted ∧ w.header.segmentFlags = 0b0001 ∧
    (tail = [.readCounter (g.entry - 8)] ∨ tail = [] ∧ w.consumedCnt ≤ g.segments + released)
  | .idle => Ready g w posted ∧ Credit g released w w.consumedCnt ∧ tail = []
  | .append _ => Ready g w posted ∧ Credit g released w w.consumedCnt ∧ tail = []
  | .refresh old _ => Ready g w posted ∧ Credit g released w old ∧ w.writeableFreeSegments = 0 ∧
    old ≤ w.consumedCnt ∧ w.consumedCnt ≤ g.segments + released ∧
    (tail = [.readCounter (g.entry - 8)] ∨ tail = [])
  | .write _ => Ready g w posted ∧ Credit g released w w.consumedCnt ∧
    0 < w.writeableFreeSegments ∧ tail = []
  | .written _ => Posting g w posted ∧ Credit g released w w.consumedCnt ∧
    0 < w.writeableFreeSegments ∧ tail = []
  | .closing => tail = [.writeHeader (g.slot (posted.length - 1))] ∧ posted ≠ [] ∧
    w.header = ⟨g.segmentSize, g.slot posted.length, 0b0110⟩ ∧ w.calls = [] ∧
    w.written = posted.length ∧ w.lastSegmentOffset = g.slot (posted.length - 1) ∧
    Credit g released w w.consumedCnt
  | .closed => False

/-- The writer has closed and its last header has arrived. It still holds that header. -/
structure Finished (x : RingState g) (w : BufferWriterLat) (posted : List (List UInt8)) :
    Prop where
  pc : w.pc = .closing ∨ w.pc = .closed
  fin : x.fin = true
  sent : x.sent = posted
  nonempty : posted ≠ []
  queue : w.queue = []
  calls : w.calls = []
  header : w.header = ⟨g.segmentSize, g.slot posted.length, 0b0110⟩
  last : w.lastSegmentOffset = g.slot (posted.length - 1)
  count : w.written = posted.length
  credit : Credit g x.released w w.consumedCnt

/-- The writer's invariant on a ring, for a client that passes `program` in all. -/
structure Inv (g : RingGeometry) (program : List (List UInt8)) (x : RingState g) (m : Mem)
    (w : BufferWriterLat) : Prop where
  segmentSizes : w.segmentSizes = g.segmentSize
  segmentsPerWriter : w.segmentsPerWriter = g.segments
  entry : w.entrySegmentOffset = g.entry
  counter : readWord m (g.entry - 8) = g.segments + x.released
  counter_lt : g.segments + x.released < sizeTBound
  program_eq : w.appended ++ w.calls.flatMap LatCall.messages = program
  sizes : ∀ data ∈ program, data.length ≤ g.segmentSize
  state : ∃ posted, w.appended = posted ++ w.pc.pending ∧
    ((∃ tail, Flying x w posted tail ∧ Detail g x.released w posted tail) ∨ Finished x w posted)

theorem CallsOpen.congr (h : w.CallsOpen) (hcalls : w'.calls = w.calls)
    (happended : w'.appended = w.appended) : w'.CallsOpen := by
  unfold CallsOpen
  rwa [hcalls, happended]

theorem Fresh.congr (h : Fresh g w posted) (hwritten : w'.written = w.written)
    (hcurrent : w'.currentSegmentOffset = w.currentSegmentOffset)
    (hindex : w'.segmentIndex = w.segmentIndex) (hcalls : w'.calls = w.calls)
    (happended : w'.appended = w.appended) : Fresh g w' posted where
  none_posted := h.none_posted
  none_written := hwritten.trans h.none_written
  current := hcurrent.trans h.current
  index := hindex.trans h.index
  calls := h.calls.congr hcalls happended

theorem Ready.congr (h : Ready g w posted) (hwritten : w'.written = w.written)
    (hcurrent : w'.currentSegmentOffset = w.currentSegmentOffset)
    (hindex : w'.segmentIndex = w.segmentIndex)
    (hlast : w'.lastSegmentOffset = w.lastSegmentOffset) (hheader : w'.header = w.header)
    (hcalls : w'.calls = w.calls) (happended : w'.appended = w.appended) :
    Ready g w' posted where
  count := hwritten.trans h.count
  current := hcurrent.trans h.current
  index := hindex.trans h.index
  last := fun hne => hlast.trans (h.last hne)
  flags := by
    rw [hheader]
    exact h.flags
  next := fun hne => (congrArg _ hheader).trans (h.next hne)
  calls := h.calls.congr hcalls happended

theorem Credit.congr {released seen : ℕ} (h : Credit g released w seen)
    (hfree : w'.writeableFreeSegments = w.writeableFreeSegments)
    (hwritten : w'.written = w.written) : Credit g released w' seen where
  balance := by
    rw [hfree, hwritten]
    exact h.balance
  seen_le := h.seen_le

theorem Credit.mono {released released' seen : ℕ} (h : Credit g released w seen)
    (hle : released ≤ released') : Credit g released' w seen :=
  ⟨h.balance, h.seen_le.trans (Nat.add_le_add_left hle _)⟩

/-- The counter only grows, so what the writer knows of it stays true, and what the program
counter says does not depend on the writes in the queue. -/
theorem Detail.stable {released released' : ℕ} (h : Detail g released w posted tail)
    {queue : List LatOp} (hw : w' = { w with queue }) (hle : released ≤ released') :
    Detail g released' w' posted tail := by
  have hpc' : w'.pc = w.pc := by rw [hw]
  have hcnt' : w'.consumedCnt = w.consumedCnt := by rw [hw]
  have hfree' : w'.writeableFreeSegments = w.writeableFreeSegments := by rw [hw]
  have hseen : ∀ {seen}, seen ≤ g.segments + released → seen ≤ g.segments + released' := by
    intro seen hseen
    exact hseen.trans (Nat.add_le_add_left hle _)
  have hfresh : Fresh g w posted → Fresh g w' posted := by
    intro hfresh
    rw [hw]
    exact hfresh.congr rfl rfl rfl rfl rfl
  have hready : Ready g w posted → Ready g w' posted := by
    intro hready
    rw [hw]
    exact hready.congr rfl rfl rfl rfl rfl rfl rfl
  have hposting : Posting g w posted → Posting g w' posted := by
    intro hposting
    rw [hw]
    exact ⟨hposting.count, hposting.current, hposting.next, hposting.index, hposting.header,
      hposting.calls⟩
  have hcredit : ∀ {seen}, Credit g released w seen → Credit g released' w' seen := by
    intro seen hcredit
    rw [hw]
    exact (hcredit.mono hle).congr rfl rfl
  unfold Detail at h ⊢
  cases hpc : w.pc with
  | constructing =>
    simp only [hpc', hpc] at h ⊢
    exact ⟨hfresh h.1, h.2⟩
  | readingHeader =>
    simp only [hpc', hpc] at h ⊢
    exact ⟨hfresh h.1, by rw [hw]; exact h.2⟩
  | readingCounter =>
    simp only [hpc', hpc] at h ⊢
    obtain ⟨hfresh', hflags, hread⟩ := h
    refine ⟨hfresh hfresh', by rw [hw]; exact hflags, ?_⟩
    rw [hcnt']
    exact hread.imp id fun hread => ⟨hread.1, hseen hread.2⟩
  | idle =>
    simp only [hpc', hpc, hcnt'] at h ⊢
    exact ⟨hready h.1, hcredit h.2.1, h.2.2⟩
  | append message =>
    simp only [hpc', hpc, hcnt'] at h ⊢
    exact ⟨hready h.1, hcredit h.2.1, h.2.2⟩
  | refresh old message =>
    simp only [hpc', hpc, hcnt', hfree'] at h ⊢
    obtain ⟨hready', hcredit', hnone, hold, hcnt, htail⟩ := h
    exact ⟨hready hready', hcredit hcredit', hnone, hold, hseen hcnt, htail⟩
  | write message =>
    simp only [hpc', hpc, hcnt', hfree'] at h ⊢
    exact ⟨hready h.1, hcredit h.2.1, h.2.2⟩
  | written signaled =>
    simp only [hpc', hpc, hcnt', hfree'] at h ⊢
    exact ⟨hposting h.1, hcredit h.2.1, h.2.2⟩
  | closing =>
    simp only [hpc', hpc, hcnt'] at h ⊢
    obtain ⟨htail, hne, hheader, hcalls, hcount, hlast, hcredit'⟩ := h
    exact ⟨htail, hne, by rw [hw]; exact hheader, by rw [hw]; exact hcalls,
      by rw [hw]; exact hcount, by rw [hw]; exact hlast, hcredit hcredit'⟩
  | closed => simp only [hpc] at h

/-- The invariant depends on memory through the counter only. -/
theorem Inv.stable {program : List (List UInt8)} (h : Inv g program x m w)
    (hsent : x'.sent = x.sent) (hfin : x'.fin = x.fin) (hrel : x.released ≤ x'.released)
    (hcounter : readWord m' (g.entry - 8) = g.segments + x'.released)
    (hlt : g.segments + x'.released < sizeTBound) : Inv g program x' m' w := by
  refine ⟨h.segmentSizes, h.segmentsPerWriter, h.entry, hcounter, hlt, h.program_eq, h.sizes, ?_⟩
  obtain ⟨posted, happ, hstate⟩ := h.state
  refine ⟨posted, happ, hstate.imp ?_ fun hh => ?_⟩
  · rintro ⟨tail, hfly, hdetail⟩
    have hroom := hfly.room
    exact ⟨tail, ⟨by rw [hfin, hfly.unfinished], by omega, by rw [hsent]; exact hfly.queue⟩,
      hdetail.stable rfl hrel⟩
  · exact ⟨hh.pc, by rw [hfin, hh.fin], by rw [hsent, hh.sent], hh.nonempty, hh.queue, hh.calls,
      hh.header, hh.last, hh.count, hh.credit.mono hrel⟩

theorem Inv.update {program : List (List UInt8)} (h : Inv g program x m w)
    (hsegmentSizes : w'.segmentSizes = w.segmentSizes)
    (hsegments : w'.segmentsPerWriter = w.segmentsPerWriter)
    (hentry : w'.entrySegmentOffset = w.entrySegmentOffset)
    (hprogram : w'.appended ++ w'.calls.flatMap LatCall.messages =
      w.appended ++ w.calls.flatMap LatCall.messages)
    (hstate : ∃ posted, w'.appended = posted ++ w'.pc.pending ∧
      ((∃ tail, Flying x w' posted tail ∧ Detail g x.released w' posted tail) ∨
        Finished x w' posted)) : Inv g program x m w' :=
  ⟨hsegmentSizes.trans h.segmentSizes, hsegments.trans h.segmentsPerWriter, hentry.trans h.entry,
    h.counter, h.counter_lt, hprogram.trans h.program_eq, h.sizes, hstate⟩

theorem Flying.post (h : Flying x w posted []) {op : LatOp}
    (hqueue : w'.queue = w.queue ++ [op]) : Flying x w' posted [op] := by
  obtain ⟨ops, rest, hposted, hq, hinflight⟩ := h.queue
  refine ⟨h.unfinished, h.room, ops, rest, hposted, ?_, hinflight⟩
  rw [hqueue, hq, List.append_nil]

theorem Flying.congr (h : Flying x w posted tail) (hqueue : w'.queue = w.queue) :
    Flying x w' posted tail :=
  ⟨h.unfinished, h.room, by rw [hqueue]; exact h.queue⟩

theorem Flying.tail_nil (h : Flying x w posted tail) (hqueue : w.queue = []) : tail = [] := by
  obtain ⟨ops, rest, -, hq, -⟩ := h.queue
  rw [hqueue] at hq
  exact (List.append_eq_nil_iff.mp hq.symm).2

/-- The slot arithmetic of `append`. -/
theorem nextSegment_eq {program : List (List UInt8)} (h : Inv g program x m w)
    (hready : Ready g w posted) :
    w.nextSegment = ((posted.length + 1) % g.segments, g.slot (posted.length + 1)) := by
  unfold nextSegment
  rw [hready.index, h.segmentsPerWriter, h.entry, hready.current, h.segmentSizes, g.succ_mod,
    g.slot_succ]
  split_ifs
  · rfl
  · rw [Nat.add_assoc]
    rfl

theorem messageHeader_eq {program : List (List UInt8)} (h : Inv g program x m w)
    (hready : Ready g w posted) (size : ℕ) :
    w.messageHeader size = ⟨size, g.slot (posted.length + 1), 0b0011⟩ := by
  unfold messageHeader
  rw [nextSegment_eq h hready]
  rcases hready.flags with hflags | hflags <;>
    simp [SegmentHeader.setConsumable, hflags]

/-- `append` posts the write of a message. -/
theorem Inv.writeMessage {program : List (List UInt8)} (h : Inv g program x m w)
    {message : Message} (happ : w.appended = posted ++ [message.data])
    (hfly : Flying x w posted []) (hready : Ready g w posted)
    (hcredit : Credit g x.released w w.consumedCnt) (hfree : 0 < w.writeableFreeSegments) :
    Inv g program x m (w.writeMessage message) := by
  have hnext := nextSegment_eq h hready
  have hheader := messageHeader_eq h hready message.data.length
  have hcount := hready.count
  have hbalance := hcredit.balance
  have hseen := hcredit.seen_le
  have hroom := hfly.room
  refine h.update rfl rfl rfl rfl ⟨posted ++ [message.data], ?_, Or.inl
    ⟨[], ⟨hfly.unfinished, ?_, ?_⟩, ⟨?_, ?_, ?_, ?_, ?_, ?_⟩,
      hcredit.congr rfl rfl, hfree, rfl⟩⟩
  · simp [BufferWriterLat.writeMessage, LatPc.pending, happ]
  · rw [List.length_append, List.length_singleton]
    omega
  · obtain ⟨ops, rest, hposted, hq, hinflight⟩ := hfly.queue
    have hlen := congrArg List.length hposted
    rw [List.length_append] at hlen
    obtain ⟨src, hqueue⟩ : ∃ src, (w.writeMessage message).queue = w.queue ++
        [.write w.currentSegmentOffset src
          ((w.messageHeader message.data.length).encode ++ message.data)] := ⟨_, rfl⟩
    have hconcat : InFlight g x.sent.length (ops ++ [.write (g.slot (x.sent.length + rest.length))
        src (SegmentHeader.encode ⟨message.data.length, g.slot (x.sent.length + rest.length + 1),
          0b0011⟩ ++ message.data)]) (rest ++ [message.data]) := hinflight.concat
    refine ⟨_, rest ++ [message.data], by rw [hposted, List.append_assoc], ?_, hconcat⟩
    rw [hqueue, hq, hheader, hready.current, hlen, List.append_nil, List.append_nil]
  · rw [List.length_append, List.length_singleton]
    exact congrArg (· + 1) hcount
  · rw [List.length_append, List.length_singleton, Nat.add_sub_cancel]
    exact hready.current
  · rw [List.length_append, List.length_singleton]
    exact congrArg Prod.snd hnext
  · rw [List.length_append, List.length_singleton]
    exact congrArg Prod.fst hnext
  · rw [List.length_append, List.length_singleton]
    simp [BufferWriterLat.writeMessage, hheader]
  · exact hready.calls.congr rfl rfl

/-- A call begins. The header that closes the ring is posted for the last message. -/
theorem Inv.nextCall {program : List (List UInt8)} (h : Inv g program x m w)
    (happ : w.appended = posted) (hfly : Flying x w posted []) (hready : Ready g w posted)
    (hcredit : Credit g x.released w w.consumedCnt) (hstep : w.nextCall = some w') :
    Inv g program x m w' := by
  obtain ⟨messages, closing, hcalls, hclosing⟩ := hready.calls
  cases messages with
  | cons message messages =>
    rw [List.map_cons, List.cons_append] at hcalls
    simp only [BufferWriterLat.nextCall, hcalls, Option.some.injEq] at hstep
    subst hstep
    refine h.update rfl rfl rfl ?_ ⟨posted, ?_, Or.inl ⟨[], hfly.congr rfl,
      ⟨hready.count, hready.current, hready.index, hready.last, hready.flags, hready.next, ?_⟩,
      hcredit.congr rfl rfl, rfl⟩⟩
    · simp [hcalls, LatCall.messages]
    · simp [happ, LatPc.pending]
    · exact ⟨messages, closing, rfl, hclosing.imp id fun hclose => ⟨hclose.1, Or.inr (by simp)⟩⟩
  | nil =>
    rw [List.map_nil, List.nil_append] at hcalls
    rcases hclosing with hclosing | ⟨hclosing, hmessage⟩
    · simp [BufferWriterLat.nextCall, hcalls, hclosing] at hstep
    · have hne : posted ≠ [] := happ ▸ hmessage.resolve_left (by simp)
      rw [hclosing] at hcalls
      simp only [BufferWriterLat.nextCall, hcalls, Option.some.injEq] at hstep
      subst hstep
      refine h.update rfl rfl rfl ?_ ⟨posted, ?_, Or.inl ⟨[.writeHeader w.lastSegmentOffset],
        hfly.post rfl, ?_, hne, ?_, rfl, hready.count, hready.last hne,
        hcredit.congr rfl rfl⟩⟩
      · simp [BufferWriterLat.post, hcalls, LatCall.messages]
      · simp [BufferWriterLat.post, LatPc.pending, happ]
      · rw [hready.last hne]
      · rcases hready.flags with hflags | hflags <;>
          simp [BufferWriterLat.post, closedHeader, hflags, hready.next hne, h.segmentSizes,
            SegmentHeader.setWriteable, SegmentHeader.setConsumable, SegmentHeader.markEndSegment]

/-- The counter has changed, so there are credits again. -/
theorem Inv.refresh {program : List (List UInt8)} (h : Inv g program x m w) {old : ℕ}
    {message : Message} (happ : w.appended = posted ++ [message.data])
    (hfly : Flying x w posted []) (hready : Ready g w posted) (hcredit : Credit g x.released w old)
    (hnone : w.writeableFreeSegments = 0) (hold : old ≤ w.consumedCnt)
    (hcnt : w.consumedCnt ≤ g.segments + x.released) (hne : old ≠ w.consumedCnt) :
    Inv g program x m
      { w with writeableFreeSegments := w.refreshed old, pc := .write message } := by
  have hbalance := hcredit.balance
  have hlt := h.counter_lt
  have hcredits : w.refreshed old = w.consumedCnt - old := by
    unfold refreshed
    rw [if_neg (by omega), hnone, Nat.zero_add, Nat.mod_eq_of_lt (by omega)]
  refine h.update rfl rfl rfl rfl ⟨posted, happ, Or.inl ⟨[], hfly.congr rfl,
    hready.congr rfl rfl rfl rfl rfl rfl rfl, ⟨?_, hcnt⟩, ?_, rfl⟩⟩
  · simp only [hcredits]
    omega
  · simp only [hcredits]
    omega

/-- `append` counts the segment written and moves on. -/
theorem Inv.written {program : List (List UInt8)} (h : Inv g program x m w)
    (happ : w.appended = posted) (hfly : Flying x w posted []) (hposting : Posting g w posted)
    (hcredit : Credit g x.released w w.consumedCnt) (hfree : 0 < w.writeableFreeSegments) :
    Inv g program x m { w with
      writeableFreeSegments := (w.writeableFreeSegments + (sizeTBound - 1)) % sizeTBound
      lastSegmentOffset := w.currentSegmentOffset
      currentSegmentOffset := w.nextSegmentOffset
      written := w.written + 1
      pc := .idle } := by
  have hbalance := hcredit.balance
  have hseen := hcredit.seen_le
  have hlt := h.counter_lt
  have hdecrement : (w.writeableFreeSegments + (sizeTBound - 1)) % sizeTBound =
      w.writeableFreeSegments - 1 := by
    rw [show w.writeableFreeSegments + (sizeTBound - 1) =
      (w.writeableFreeSegments - 1) + sizeTBound by omega, Nat.add_mod_right]
    exact Nat.mod_eq_of_lt (by omega)
  refine h.update rfl rfl rfl rfl ⟨posted, by simp [LatPc.pending, happ], Or.inl ⟨[],
    hfly.congr rfl, ⟨hposting.count, hposting.next, hposting.index, fun _ => hposting.current,
      Or.inr hposting.header.1, fun _ => hposting.header.2, hposting.calls.congr rfl rfl⟩,
    ⟨?_, hseen⟩, rfl⟩⟩
  simp only [hdecrement]
  omega

theorem Inv.step {program : List (List UInt8)} (h : Inv g program x m w)
    (hstep : w.step = some w') : Inv g program x m w' := by
  obtain ⟨posted, happ, ⟨tail, hfly, hdetail⟩ | hfinished⟩ := h.state
  · unfold Detail at hdetail
    cases hpc : w.pc with
    | constructing =>
      simp only [hpc] at hdetail
      rw [hpc] at happ
      simp only [BufferWriterLat.step, hpc, Option.some.injEq] at hstep
      subst hstep
      obtain ⟨hfresh, rfl⟩ := hdetail
      refine h.update rfl rfl rfl rfl ⟨posted, happ, Or.inl ⟨_, hfly.post rfl,
        hfresh.congr rfl rfl rfl rfl rfl, Or.inl ?_⟩⟩
      rw [hfresh.current]
    | readingHeader =>
      simp only [hpc] at hdetail
      rw [hpc] at happ
      simp only [BufferWriterLat.step, hpc] at hstep
      split_ifs at hstep with hqueue
      cases hstep
      obtain ⟨hfresh, htail⟩ := hdetail
      have hnil := hfly.tail_nil hqueue
      subst hnil
      refine h.update rfl rfl rfl rfl ⟨posted, happ, Or.inl ⟨_, hfly.post rfl,
        hfresh.congr rfl rfl rfl rfl rfl, (htail.resolve_left (by simp)).2, Or.inl ?_⟩⟩
      unfold counterOffset
      rw [h.entry]
    | readingCounter =>
      simp only [hpc] at hdetail
      rw [hpc] at happ
      simp only [BufferWriterLat.step, hpc] at hstep
      split_ifs at hstep with hqueue
      cases hstep
      obtain ⟨hfresh, hflags, htail⟩ := hdetail
      have hnil := hfly.tail_nil hqueue
      subst hnil
      have hposted := hfresh.none_posted
      subst hposted
      refine h.update rfl rfl rfl rfl ⟨[], happ, Or.inl ⟨[], hfly.congr rfl,
        ⟨hfresh.none_written, hfresh.current, ?_, fun hne => absurd rfl hne, Or.inl hflags,
          fun hne => absurd rfl hne, hfresh.calls.congr rfl rfl⟩,
        ⟨?_, (htail.resolve_left (by simp)).2⟩, rfl⟩⟩
      · rw [List.length_nil, Nat.zero_mod]
        exact hfresh.index
      · exact congrArg (w.consumedCnt + ·) hfresh.none_written
    | idle =>
      simp only [hpc] at hdetail
      obtain ⟨hready, hcredit, rfl⟩ := hdetail
      rw [hpc] at happ
      simp only [BufferWriterLat.step, hpc] at hstep
      exact h.nextCall (by simpa [LatPc.pending] using happ) hfly hready hcredit hstep
    | append message =>
      simp only [hpc] at hdetail
      obtain ⟨hready, hcredit, rfl⟩ := hdetail
      rw [hpc] at happ
      simp only [BufferWriterLat.step, hpc] at hstep
      split_ifs at hstep with hnone
      · cases hstep
        refine h.update rfl rfl rfl rfl ⟨posted, happ, Or.inl ⟨_, hfly.post rfl,
          hready.congr rfl rfl rfl rfl rfl rfl rfl, hcredit.congr rfl rfl, hnone, le_rfl,
          hcredit.seen_le, Or.inl ?_⟩⟩
        unfold counterOffset
        rw [h.entry]
      · cases hstep
        exact h.update rfl rfl rfl rfl ⟨posted, happ, Or.inl ⟨[], hfly.congr rfl,
          hready.congr rfl rfl rfl rfl rfl rfl rfl, hcredit.congr rfl rfl,
          Nat.pos_of_ne_zero hnone, rfl⟩⟩
    | refresh old message =>
      simp only [hpc] at hdetail
      obtain ⟨hready, hcredit, hnone, hold, hcnt, htail⟩ := hdetail
      rw [hpc] at happ
      simp only [BufferWriterLat.step, hpc] at hstep
      split_ifs at hstep with hqueue hsame
      · cases hstep
        have hnil := hfly.tail_nil hqueue
        subst hnil
        refine h.update rfl rfl rfl rfl ⟨posted, happ, Or.inl ⟨_, hfly.post rfl,
          hready.congr rfl rfl rfl rfl rfl rfl rfl, hcredit.congr rfl rfl, hnone, hold, hcnt,
          Or.inl ?_⟩⟩
        unfold counterOffset
        rw [h.entry]
      · cases hstep
        have hnil := hfly.tail_nil hqueue
        subst hnil
        exact h.refresh happ hfly hready hcredit hnone hold hcnt hsame
    | write message =>
      simp only [hpc] at hdetail
      obtain ⟨hready, hcredit, hfree, rfl⟩ := hdetail
      rw [hpc] at happ
      simp only [BufferWriterLat.step, hpc, Option.some.injEq] at hstep
      subst hstep
      exact h.writeMessage happ hfly hready hcredit hfree
    | written signaled =>
      simp only [hpc] at hdetail
      obtain ⟨hposting, hcredit, hfree, rfl⟩ := hdetail
      rw [hpc] at happ
      simp only [BufferWriterLat.step, hpc] at hstep
      split_ifs at hstep
      cases hstep
      exact h.written (by simpa [LatPc.pending] using happ) hfly hposting hcredit hfree
    | closing =>
      simp only [hpc] at hdetail
      simp only [BufferWriterLat.step, hpc] at hstep
      split_ifs at hstep with hqueue
      have hnil := hfly.tail_nil hqueue
      rw [hdetail.1] at hnil
      cases hnil
    | closed => simp only [hpc] at hdetail
  · have hcalls := hfinished.calls
    rcases hfinished.pc with hpc | hpc
    · rw [hpc] at happ
      simp only [BufferWriterLat.step, hpc] at hstep
      split_ifs at hstep
      cases hstep
      exact h.update rfl rfl rfl rfl ⟨posted, happ, Or.inr ⟨Or.inr rfl, hfinished.fin,
        hfinished.sent, hfinished.nonempty, hfinished.queue, hcalls, hfinished.header,
        hfinished.last, hfinished.count, hfinished.credit.congr rfl rfl⟩⟩
    · simp [BufferWriterLat.step, BufferWriterLat.nextCall, hpc, hcalls] at hstep

section

variable {stage : MarkStep} {made : Option ℕ}

/-- The write of a message arrives: it sends the next block. -/
theorem shows_writeMessage (hshows : g.Shows .lat x stage m) (hfin : x.fin = false)
    (hroom : x.sent.length < x.released + g.segments) {data : List UInt8}
    (hsize : data.length ≤ g.segmentSize) (hcounter : 8 ≤ g.entry) :
    g.Shows .lat (x.land data false hroom) stage (writeBytes m (g.slot x.sent.length)
        (SegmentHeader.encode ⟨data.length, g.slot (x.sent.length + 1), 0b0011⟩ ++ data)) ∧
      (readHeader (writeBytes m (g.slot x.sent.length)
        (SegmentHeader.encode ⟨data.length, g.slot (x.sent.length + 1), 0b0011⟩ ++ data))
        (g.slot x.sent.length)).isConsumable = true ∧
      ∀ start len, start + len ≤ g.slot x.sent.length ∨
        g.slot x.sent.length + g.fullSize ≤ start →
        AgreeOn (writeBytes m (g.slot x.sent.length)
          (SegmentHeader.encode ⟨data.length, g.slot (x.sent.length + 1), 0b0011⟩ ++ data)) m
          start len := by
  have hlen : (SegmentHeader.encode ⟨data.length, g.slot (x.sent.length + 1), 0b0011⟩ ++
      data).length = segmentHeaderSize + data.length := by
    rw [List.length_append, SegmentHeader.length_encode]
  have hfits : (SegmentHeader.mk data.length (g.slot (x.sent.length + 1)) 0b0011).Fits :=
    ⟨hsize.trans_lt g.segmentSize_lt, g.slot_lt _, by unfold sizeTBound; simp only; omega⟩
  have hheader := readHeader_writeBytes m (g.slot x.sent.length) data hfits
  have hout : ∀ start len, start + len ≤ g.slot x.sent.length ∨
      g.slot x.sent.length + g.fullSize ≤ start →
      AgreeOn (writeBytes m (g.slot x.sent.length)
        (SegmentHeader.encode ⟨data.length, g.slot (x.sent.length + 1), 0b0011⟩ ++ data)) m
        start len := by
    intro start len hout
    refine agreeOn_writeBytes ?_
    unfold RingGeometry.fullSize at hout
    omega
  refine ⟨hshows.land hroom hfin hout ?_ ?_ hsize fun _ => hcounter, ?_, hout⟩
  · rw [hheader]
    simp [RingGeometry.sentHeader, RingGeometry.sentFlags, List.getD_eq_getElem?_getD]
  · unfold RingGeometry.dataOffset
    rw [readBytes_writeBytes_within _ _ _ _ _ hlen.ge]
    simp [SegmentHeader.length_encode]
  · rw [hheader]
    simp [SegmentHeader.isConsumable]

/-- The queue pair writes the next message, or turns to the tail. -/
theorem Flying.nic (h : Flying x w posted tail)
    (hsizes : ∀ data ∈ posted, data.length ≤ g.segmentSize) (hguard : w.CarriesPosted)
    (hshows : g.Shows .lat x stage m) (hcounter : 8 ≤ g.entry)
    (hstep : w.nic m = some (m', w', made)) :
    (∃ queue x', w' = { w with queue } ∧ NicMove x made x' ∧ x'.released = x.released ∧
      Flying x' w' posted tail ∧ g.Shows .lat x' stage m' ∧
      x.sent.length < x.released + g.segments ∧
      ∀ start len, start + len ≤ g.slot x.sent.length ∨
        g.slot x.sent.length + g.fullSize ≤ start → AgreeOn m' m start len) ∨
      ∃ op queue, w.queue = op :: queue ∧ tail = op :: queue ∧ x.sent = posted := by
  obtain ⟨ops, rest, hposted, hqueue, hinflight⟩ := h.queue
  cases ops with
  | nil =>
    cases tail with
    | nil =>
      simp only [List.nil_append] at hqueue
      simp [BufferWriterLat.nic, hqueue] at hstep
    | cons op queue =>
      refine Or.inr ⟨op, queue, hqueue, rfl, ?_⟩
      rw [hposted, show rest = [] from hinflight, List.append_nil]
  | cons op ops =>
    cases op with
    | writeHeader remote => exact hinflight.elim
    | readHeader remote => exact hinflight.elim
    | readCounter remote => exact hinflight.elim
    | write remote src bytes =>
      obtain ⟨data, rest', rfl, rfl, rfl, hinflight'⟩ := hinflight
      rw [List.cons_append] at hqueue
      have hcarried := hguard _ _ _ _ hqueue
      have hlen := congrArg List.length hposted
      rw [List.length_append, List.length_cons] at hlen
      have hroom : x.sent.length < x.released + g.segments := by
        have := h.room
        omega
      have hsize : data.length ≤ g.segmentSize := hsizes data (by rw [hposted]; simp)
      obtain ⟨hland, hmade, hout⟩ := shows_writeMessage hshows h.unfinished hroom hsize hcounter
      simp only [BufferWriterLat.nic, hqueue, hcarried, hmade, if_true, Option.some.injEq,
        Prod.mk.injEq] at hstep
      obtain ⟨rfl, rfl, rfl⟩ := hstep
      refine Or.inl ⟨_, x.land data false hroom, rfl, .land data false hroom h.unfinished, rfl,
        ⟨rfl, h.room, ops, rest', ?_, rfl, ?_⟩, hland, hroom, hout⟩
      · rw [hposted, LaggedRing.land_sent, List.append_assoc, List.singleton_append]
      · rwa [LaggedRing.land_sent, List.length_append, List.length_singleton]

/-- An executed operation is a move of the protocol and leaves the counter alone. A write of
`append` goes to the slot after the blocks sent, and only while there is room. -/
structure Executed (g : RingGeometry) (program : List (List UInt8)) (x : RingState g)
    (stage : MarkStep) (m m' : Mem) (w w' : BufferWriterLat) (made : Option ℕ)
    (x' : RingState g) : Prop where
  move : NicMove x made x'
  shows : g.Shows .lat x' stage m'
  inv : Inv g program x' m' w'
  frame : ∀ start len, start + len ≤ g.entry ∨
    g.entry + g.segments * g.fullSize ≤ start → AgreeOn m' m start len
  write : ∀ remote src bytes queue, w.queue = .write remote src bytes :: queue →
    x.sent.length < x.released + g.segments ∧ ∀ start len, start + len ≤ g.slot x.sent.length ∨
      g.slot x.sent.length + g.fullSize ≤ start → AgreeOn m' m start len

variable {program : List (List UInt8)}

/-- A read moves nothing. -/
theorem Executed.read {op : LatOp} {queue : List LatOp} (hinv : Inv g program x m w')
    (hshows : g.Shows .lat x stage m) (hqueue : w.queue = op :: queue)
    (hop : ∀ remote src bytes, op ≠ .write remote src bytes) :
    Executed g program x stage m m w w' none x := by
  refine ⟨.stutter, hshows, hinv, fun _ _ _ => AgreeOn.refl _ _ _, ?_⟩
  intro remote src bytes queue' hq
  exact absurd (List.cons.inj (hqueue.symm.trans hq)).1 (hop remote src bytes)

/-- The constructor has read the header of the entry segment. -/
theorem Inv.headerRead (h : Inv g program x m w) (hshows : g.Shows .lat x stage m)
    (happ : w.appended = posted ++ w.pc.pending) (hfly : Flying x w posted tail)
    (hfresh : Fresh g w posted) (hpc : w.pc = .readingHeader) (hsent : x.sent = posted)
    (hw : w' = { w with queue := [], header := readHeader m (g.slot 0) }) :
    Inv g program x m w' := by
  have hpc' : w'.pc = .readingHeader := by rw [hw]; exact hpc
  have hqueue' : w'.queue = [] := by rw [hw]
  have hfresh' : Fresh g w' posted := by
    rw [hw]
    exact hfresh.congr rfl rfl rfl rfl rfl
  have hlen : x.sent.length = 0 := by rw [hsent, hfresh.none_posted]; rfl
  have hreleased : x.released = 0 := by
    have := x.released_le
    have := x.returned_le_sent
    omega
  have hheader : w'.header = g.freeHeader 0 := by
    rw [hw]
    show readHeader m (g.slot 0) = _
    rw [hshows.header 0 (by omega) (by have := g.segments_pos; omega),
      RingGeometry.expectedHeader, if_neg (by omega)]
  refine h.update (by rw [hw]) (by rw [hw]) (by rw [hw]) (by rw [hw])
    ⟨posted, ?_, Or.inl ⟨[], ?_, ?_⟩⟩
  · rw [hpc', ← hpc, hw, happ]
  · exact ⟨hfly.unfinished, hfly.room, [], [], by rw [hsent, List.append_nil], hqueue', rfl⟩
  · unfold Detail
    simp only [hpc']
    exact ⟨hfresh', Or.inr ⟨trivial, by rw [hheader]; rfl⟩⟩

/-- The constructor has read the counter. -/
theorem Inv.counterRead (h : Inv g program x m w) (happ : w.appended = posted ++ w.pc.pending)
    (hfly : Flying x w posted tail) (hfresh : Fresh g w posted)
    (hflags : w.header.segmentFlags = 0b0001) (hpc : w.pc = .readingCounter)
    (hsent : x.sent = posted)
    (hw : w' = { w with queue := [], consumedCnt := readWord m (g.entry - 8) }) :
    Inv g program x m w' := by
  have hpc' : w'.pc = .readingCounter := by rw [hw]; exact hpc
  have hqueue' : w'.queue = [] := by rw [hw]
  have hcnt' : w'.consumedCnt = g.segments + x.released := by rw [hw]; exact h.counter
  have hfresh' : Fresh g w' posted := by
    rw [hw]
    exact hfresh.congr rfl rfl rfl rfl rfl
  refine h.update (by rw [hw]) (by rw [hw]) (by rw [hw]) (by rw [hw])
    ⟨posted, ?_, Or.inl ⟨[], ?_, ?_⟩⟩
  · rw [hpc', ← hpc, hw, happ]
  · exact ⟨hfly.unfinished, hfly.room, [], [], by rw [hsent, List.append_nil], hqueue', rfl⟩
  · unfold Detail
    simp only [hpc']
    exact ⟨hfresh', by rw [hw]; exact hflags, Or.inr ⟨trivial, hcnt'.le⟩⟩

/-- `append` has read the counter again. -/
theorem Inv.refreshRead {old : ℕ} {message : Message} (h : Inv g program x m w)
    (happ : w.appended = posted ++ w.pc.pending) (hfly : Flying x w posted tail)
    (hready : Ready g w posted) (hcredit : Credit g x.released w old)
    (hnone : w.writeableFreeSegments = 0) (hpc : w.pc = .refresh old message)
    (hsent : x.sent = posted)
    (hw : w' = { w with queue := [], consumedCnt := readWord m (g.entry - 8) }) :
    Inv g program x m w' := by
  have hpc' : w'.pc = .refresh old message := by rw [hw]; exact hpc
  have hqueue' : w'.queue = [] := by rw [hw]
  have hcnt' : w'.consumedCnt = g.segments + x.released := by rw [hw]; exact h.counter
  have hready' : Ready g w' posted := by
    rw [hw]
    exact hready.congr rfl rfl rfl rfl rfl rfl rfl
  have hcredit' : Credit g x.released w' old := by
    rw [hw]
    exact hcredit.congr rfl rfl
  refine h.update (by rw [hw]) (by rw [hw]) (by rw [hw]) (by rw [hw])
    ⟨posted, ?_, Or.inl ⟨[], ?_, ?_⟩⟩
  · rw [hpc', ← hpc, hw, happ]
  · exact ⟨hfly.unfinished, hfly.room, [], [], by rw [hsent, List.append_nil], hqueue', rfl⟩
  · unfold Detail
    simp only [hpc']
    exact ⟨hready', hcredit', by rw [hw]; exact hnone, hcredit.seen_le.trans hcnt'.ge, hcnt'.le,
      Or.inr trivial⟩

/-- The header written by `close` arrives. -/
theorem Inv.closeWritten (h : Inv g program x m w) (hshows : g.Shows .lat x stage m)
    (hstage : (∀ y, stage.applied y = y) ∨ x.returned < x.sent.length) (hcounter : 8 ≤ g.entry)
    (happ : w.appended = posted ++ w.pc.pending) (hunfinished : x.fin = false)
    (hne : posted ≠ []) (hheader : w.header = ⟨g.segmentSize, g.slot posted.length, 0b0110⟩)
    (hcalls : w.calls = []) (hcount : w.written = posted.length)
    (hlast : w.lastSegmentOffset = g.slot (posted.length - 1))
    (hcredit : Credit g x.released w w.consumedCnt) (hpc : w.pc = .closing)
    (hsent : x.sent = posted) {remote : ℕ} (hqueue : w.queue = [.writeHeader remote])
    (hm : m' = writeHeader m (g.slot (x.sent.length - 1))
      ⟨g.segmentSize, g.slot x.sent.length, 0b0110⟩)
    (hw : w' = { w with queue := [] }) :
    Executed g program x stage m m' w w' (some (g.slot (x.sent.length - 1))) x.finish := by
  have hpc' : w'.pc = .closing := by rw [hw]; exact hpc
  have hcredit' : Credit g x.released w' w'.consumedCnt := by
    rw [hw]
    exact hcredit.congr rfl rfl
  have hkeep : ∀ start len, start + len ≤ g.slot (x.sent.length - 1) ∨
      g.slot (x.sent.length - 1) + segmentHeaderSize ≤ start → AgreeOn m' m start len :=
    fun start len hout => hm ▸ agreeOn_writeHeader hout
  have hlo := g.le_slot (x.sent.length - 1)
  have hhi := g.slot_add_fullSize_le (x.sent.length - 1)
  have hword := (hkeep (g.entry - 8) 8 (Or.inl (by omega))).readWord
  refine ⟨.finish hunfinished (by rw [hsent]; exact hne), ?_, ?_, ?_, ?_⟩
  · rw [hm]
    exact hshows.finish (by rw [hsent]; exact hne) hunfinished hstage hcounter
  · refine ⟨by rw [hw]; exact h.segmentSizes, by rw [hw]; exact h.segmentsPerWriter,
      by rw [hw]; exact h.entry, hword.trans h.counter, h.counter_lt,
      by rw [hw]; exact h.program_eq, h.sizes, posted, ?_, Or.inr ⟨Or.inl hpc', rfl, hsent, hne,
      by rw [hw], by rw [hw]; exact hcalls, by rw [hw]; exact hheader, by rw [hw]; exact hlast,
      by rw [hw]; exact hcount, hcredit'⟩⟩
    rw [hpc', ← hpc, hw, happ]
  · intro start len hout
    refine hkeep start len ?_
    unfold RingGeometry.fullSize at hhi hout
    omega
  · intro remote' src bytes queue' hq
    rw [hqueue] at hq
    cases hq

/-- The operations behind the writes, by program counter. -/
theorem Inv.nic_tail (h : Inv g program x m w) (hshows : g.Shows .lat x stage m)
    (hstage : (∀ y, stage.applied y = y) ∨ x.returned < x.sent.length) (hcounter : 8 ≤ g.entry)
    (happ : w.appended = posted ++ w.pc.pending) (hfly : Flying x w posted tail)
    (hdetail : Detail g x.released w posted tail) (hstep : w.nic m = some (m', w', made))
    (htail : w.queue = tail) (hne : tail ≠ []) (hsent : x.sent = posted) :
    ∃ x', Executed g program x stage m m' w w' made x' := by
  unfold BufferWriterLat.nic at hstep
  unfold Detail at hdetail
  cases hpc : w.pc with
  | readingHeader =>
    simp only [hpc] at hdetail
    obtain ⟨hfresh, rfl | ⟨rfl, -⟩⟩ := hdetail
    · simp only [htail, Option.some.injEq, Prod.mk.injEq] at hstep
      obtain ⟨rfl, hw, rfl⟩ := hstep
      exact ⟨x, .read (h.headerRead hshows happ hfly hfresh hpc hsent hw.symm) hshows htail
        (by simp)⟩
    · exact absurd rfl hne
  | readingCounter =>
    simp only [hpc] at hdetail
    obtain ⟨hfresh, hflags, rfl | ⟨rfl, -⟩⟩ := hdetail
    · simp only [htail, Option.some.injEq, Prod.mk.injEq] at hstep
      obtain ⟨rfl, hw, rfl⟩ := hstep
      exact ⟨x, .read (h.counterRead happ hfly hfresh hflags hpc hsent hw.symm) hshows htail
        (by simp)⟩
    · exact absurd rfl hne
  | refresh old message =>
    simp only [hpc] at hdetail
    obtain ⟨hready, hcredit, hnone, -, -, rfl | rfl⟩ := hdetail
    · simp only [htail, Option.some.injEq, Prod.mk.injEq] at hstep
      obtain ⟨rfl, hw, rfl⟩ := hstep
      exact ⟨x, .read (h.refreshRead happ hfly hready hcredit hnone hpc hsent hw.symm) hshows htail
        (by simp)⟩
    · exact absurd rfl hne
  | closing =>
    simp only [hpc] at hdetail
    obtain ⟨rfl, hposted, hheader, hcalls, hcount, hlast, hcredit⟩ := hdetail
    have hmade : w.header.isConsumable = true := by
      rw [hheader]
      simp [SegmentHeader.isConsumable]
    simp only [htail, hmade, if_true, Option.some.injEq, Prod.mk.injEq] at hstep
    obtain ⟨hm, hw, rfl⟩ := hstep
    rw [← hsent]
    refine ⟨_, h.closeWritten hshows hstage hcounter happ hfly.unfinished hposted hheader hcalls
      hcount hlast hcredit hpc hsent htail ?_ hw.symm⟩
    rw [← hm, hheader, hsent]
  | closed => simp only [hpc] at hdetail
  | constructing =>
    simp only [hpc] at hdetail
    exact absurd hdetail.2 hne
  | idle =>
    simp only [hpc] at hdetail
    exact absurd hdetail.2.2 hne
  | append message =>
    simp only [hpc] at hdetail
    exact absurd hdetail.2.2 hne
  | write message =>
    simp only [hpc] at hdetail
    exact absurd hdetail.2.2.2 hne
  | written signaled =>
    simp only [hpc] at hdetail
    exact absurd hdetail.2.2.2 hne

theorem Inv.nic (h : Inv g program x m w) (hguard : w.CarriesPosted)
    (hshows : g.Shows .lat x stage m)
    (hstage : (∀ y, stage.applied y = y) ∨ x.returned < x.sent.length) (hcounter : 8 ≤ g.entry)
    (hstep : w.nic m = some (m', w', made)) :
    ∃ x', Executed g program x stage m m' w w' made x' := by
  obtain ⟨posted, happ, ⟨tail, hfly, hdetail⟩ | hfinished⟩ := h.state
  · have hsizes : ∀ data ∈ posted, data.length ≤ g.segmentSize := by
      intro data hdata
      refine h.sizes data ?_
      rw [← h.program_eq, happ]
      simp [hdata]
    rcases hfly.nic hsizes hguard hshows hcounter hstep with
        ⟨queue, x', rfl, hmove, hrel, hfly', hshows', hroom, hout⟩ |
        ⟨op, queue, hqueue, htail, hsent⟩
    · have hlo := g.le_slot x.sent.length
      have hhi := g.slot_add_fullSize_le x.sent.length
      refine ⟨x', hmove, hshows', ⟨h.segmentSizes, h.segmentsPerWriter, h.entry, ?_, ?_,
        h.program_eq, h.sizes, posted, happ, Or.inl ⟨tail, hfly', ?_⟩⟩, fun start len hframe => ?_,
        fun _ _ _ _ _ => ⟨hroom, hout⟩⟩
      · rw [(hout (g.entry - 8) 8 (Or.inl (by omega))).readWord, hrel]
        exact h.counter
      · rw [hrel]
        exact h.counter_lt
      · rw [hrel]
        exact hdetail.stable rfl le_rfl
      · refine hout start len ?_
        omega
    · exact h.nic_tail hshows hstage hcounter happ hfly hdetail hstep (hqueue.trans htail.symm)
        (by rw [htail]; simp) hsent
  · simp [BufferWriterLat.nic, hfinished.queue] at hstep

/-- A writer just constructed on a ring just built. -/
theorem inv_init (g : RingGeometry) {m : Mem} (internalBufferSize : ℕ) (messages : List Message)
    {closing : List LatCall} (hclosing : closing = [] ∨ closing = [.close] ∧ messages ≠ [])
    (hsizes : ∀ message ∈ messages, message.data.length ≤ g.segmentSize)
    (hshows : g.Shows .lat (.empty _ _) .checkEnd m) :
    Inv g (messages.map Message.data) (.empty _ _) m
      (init g.entry g.segments g.segmentSize internalBufferSize
        (messages.map LatCall.append ++ closing)) := by
  have hlt : g.segments < sizeTBound := by
    have hfits := g.fits
    have hmul := Nat.mul_le_mul_left g.segments
      (show 1 ≤ g.segmentSize + segmentHeaderSize by unfold segmentHeaderSize; omega)
    omega
  have hclose : closing.flatMap LatCall.messages = [] := by
    rcases hclosing with rfl | ⟨rfl, -⟩ <;> rfl
  refine ⟨rfl, rfl, rfl, ?_, hlt, ?_, ?_, [], rfl, Or.inl
    ⟨[], ⟨rfl, Nat.zero_le _, [], [], rfl, rfl, rfl⟩,
      ⟨rfl, rfl, g.slot_zero.symm, rfl, messages, closing, rfl, ?_⟩, rfl⟩⟩
  · rw [hshows.counter rfl, LaggedRing.empty_released, Nat.add_zero, Nat.mod_eq_of_lt hlt]
  · have hmap : ∀ l : List Message, (l.map LatCall.append).flatMap LatCall.messages =
        l.map Message.data := by
      intro l
      induction l with
      | nil => rfl
      | cons message l ih => simp [LatCall.messages, ih]
    show [] ++ (messages.map LatCall.append ++ closing).flatMap LatCall.messages = _
    rw [List.flatMap_append, hclose, hmap, List.append_nil, List.nil_append]
  · intro data hdata
    obtain ⟨message, hmem, rfl⟩ := List.mem_map.mp hdata
    exact hsizes message hmem
  · exact hclosing.imp id fun hh => ⟨hh.1, Or.inl hh.2⟩

end

end BufferWriterLat
end DpiLibrary
