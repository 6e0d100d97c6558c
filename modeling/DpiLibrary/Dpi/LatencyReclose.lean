import DpiLibrary.Dpi.LatencyRing
import DpiLibrary.Dpi.LatencySlots
import DpiLibrary.Dpi.RingWalk

/-!
# A latency writer that is closed twice

The latency writer never looks at the flags of its ring: the header of `close` goes to the
last segment whether the iterator is resetting that segment or not. Where it is not, the
header stays as it is, and a second `close` writes it once more.
-/

namespace DpiLibrary

/-- The control locations of `close` and behind it. -/
def LatPc.Closes (pc : LatPc) : Prop := pc = .closing ∨ pc = .closed

namespace BufferWriterLat

variable {g : RingGeometry} {m m' : Mem} {w w' : BufferWriterLat} {made : Option ℕ}

/-- What a step does to the header at hand, to the queue and to the messages still to come. -/
inductive CallStep (w w' : BufferWriterLat) : Prop
  | waits (hopen : ¬ w.pc.Closes) (hopen' : ¬ w'.pc.Closes)
      (hwritten : w.pc.isWritten = false ∧ w'.pc.isWritten = false)
      (hread : w.pc = .readingHeader → w.queue = [])
      (hqueue : w'.queue = w.queue ∨
        w.pc = .constructing ∧ w'.queue = w.queue ++ [.readHeader w.currentSegmentOffset] ∧
          w'.pc = .readingHeader ∨
        w'.pc ≠ .readingHeader ∧ ∃ off, w'.queue = w.queue ++ [.readCounter off])
      (hpc' : w'.pc ≠ .constructing ∧ (w'.pc = .readingHeader → w.pc = .constructing))
      (hheader : w'.header = w.header) (hcount : w'.written = w.written)
      (hcalls : w'.calls = w.calls ∧ w'.appended = w.appended ∧ w'.pc.pending = w.pc.pending ∨
        ∃ message, w.calls = .append message :: w'.calls ∧
          w'.appended = w.appended ++ [message.data] ∧ w'.pc.pending = [message.data])
  | writes (message : Message) (hpc : w.pc = .write message) (hw : w' = w.writeMessage message)
  | advances (signaled : Bool) (hpc : w.pc = .written signaled) (hw : w' = w.advance)
  | closes (calls : List LatCall) (hpc : w.pc = .idle ∨ w.pc = .closed)
      (hcalls : w.calls = .close :: calls)
      (hw : w' = post { w with calls, header := w.closedHeader } (.writeHeader w.lastSegmentOffset)
        .closing)
  | resumes (hpc : w.pc = .closed) (message : Message)
      (hcalls : w.calls = .append message :: w'.calls)
  | closed (hpc : w.pc = .closing) (hqueue : w.queue = []) (hw : w' = { w with pc := .closed })

theorem callStep (hstep : w.step = some w') : CallStep w w' := by
  unfold step at hstep
  cases hpc : w.pc with
  | constructing =>
    simp only [hpc, Option.some.injEq] at hstep
    subst hstep
    apply CallStep.waits
    case hqueue => exact Or.inr (Or.inl ⟨hpc, rfl, rfl⟩)
    case hcalls => exact Or.inl ⟨rfl, rfl, by rw [hpc]; rfl⟩
    all_goals simp [post, hpc, LatPc.Closes, LatPc.isWritten]
  | readingHeader =>
    simp only [hpc] at hstep
    split_ifs at hstep with hqueue
    cases hstep
    apply CallStep.waits
    case hqueue => exact Or.inr (Or.inr ⟨by simp [post], _, rfl⟩)
    case hcalls => exact Or.inl ⟨rfl, rfl, by rw [hpc]; rfl⟩
    all_goals simp [post, hpc, hqueue, LatPc.Closes, LatPc.isWritten]
  | readingCounter =>
    simp only [hpc] at hstep
    split_ifs at hstep with hqueue
    cases hstep
    apply CallStep.waits
    case hqueue => exact Or.inl rfl
    case hcalls => exact Or.inl ⟨rfl, rfl, by rw [hpc]; rfl⟩
    all_goals simp [hpc, LatPc.Closes, LatPc.isWritten]
  | idle =>
    simp only [hpc, nextCall] at hstep
    rcases hcalls : w.calls with _ | ⟨message | _, calls⟩ <;> rw [hcalls] at hstep <;> cases hstep
    · apply CallStep.waits
      case hqueue => exact Or.inl rfl
      case hcalls => exact Or.inr ⟨message, hcalls, rfl, rfl⟩
      all_goals simp [hpc, LatPc.Closes, LatPc.isWritten]
    · exact .closes calls (Or.inl hpc) hcalls rfl
  | append message =>
    simp only [hpc] at hstep
    split_ifs at hstep <;> cases hstep
    · apply CallStep.waits
      case hqueue => exact Or.inr (Or.inr ⟨by simp [post], _, rfl⟩)
      case hcalls => exact Or.inl ⟨rfl, rfl, by rw [hpc]; rfl⟩
      all_goals simp [post, hpc, LatPc.Closes, LatPc.isWritten]
    · apply CallStep.waits
      case hqueue => exact Or.inl rfl
      case hcalls => exact Or.inl ⟨rfl, rfl, by rw [hpc]; rfl⟩
      all_goals simp [hpc, LatPc.Closes, LatPc.isWritten]
  | refresh old message =>
    simp only [hpc] at hstep
    split_ifs at hstep <;> cases hstep
    · apply CallStep.waits
      case hqueue => exact Or.inr (Or.inr ⟨by simp [post], _, rfl⟩)
      case hcalls => exact Or.inl ⟨rfl, rfl, by rw [hpc]; rfl⟩
      all_goals simp [post, hpc, LatPc.Closes, LatPc.isWritten]
    · apply CallStep.waits
      case hqueue => exact Or.inl rfl
      case hcalls => exact Or.inl ⟨rfl, rfl, by rw [hpc]; rfl⟩
      all_goals simp [hpc, LatPc.Closes, LatPc.isWritten]
  | write message =>
    simp only [hpc, Option.some.injEq] at hstep
    exact .writes message hpc hstep.symm
  | written signaled =>
    simp only [hpc] at hstep
    split_ifs at hstep
    cases hstep
    exact .advances signaled hpc rfl
  | closing =>
    simp only [hpc] at hstep
    split_ifs at hstep with hqueue
    cases hstep
    exact .closed hpc hqueue rfl
  | closed =>
    simp only [hpc, nextCall] at hstep
    rcases hcalls : w.calls with _ | ⟨message | _, calls⟩ <;> rw [hcalls] at hstep <;> cases hstep
    · exact .resumes hpc message hcalls
    · exact .closes calls (Or.inr hpc) hcalls rfl

theorem flags_closedHeader_lt (w : BufferWriterLat) : w.closedHeader.segmentFlags < sizeTBound :=
  SegmentHeader.segmentFlags_closing_lt _

theorem isEndSegment_closedHeader (w : BufferWriterLat) : w.closedHeader.isEndSegment = true := by
  simp [closedHeader]

theorem isWriteable_closedHeader (w : BufferWriterLat) : w.closedHeader.isWriteable = false := by
  simp [closedHeader]

/-- Closing makes the same header of the header that it has made. -/
theorem closedHeader_again (hsize : w'.segmentSizes = w.segmentSizes)
    (hheader : w'.header = w.closedHeader) : w'.closedHeader = w.closedHeader := by
  rw [closedHeader, hheader, hsize]
  exact SegmentHeader.closing_again w.header w.segmentSizes

/-- The header of the first `close` has arrived. -/
def Sealed (w : BufferWriterLat) : Prop := w.pc.Closes ∧ (w.queue = [] ∨ w.calls = [])

/-- Where the operations of the queue go, and what the messages carry. -/
def Queued (g : RingGeometry) (w : BufferWriterLat) : LatOp → Prop
  | .write remote _ posted => ∃ p header data, remote = g.slot p ∧
    posted = SegmentHeader.encode header ++ data ∧ posted.length ≤ g.fullSize ∧ header.Fits ∧
      header.nextSegmentOffset = g.slot (p + 1) ∧ header.isEndSegment = false
  | .writeHeader remote => w.pc = .closing ∧ remote = w.lastSegmentOffset
  | .readHeader remote => w.pc = .readingHeader ∧ ∃ q, remote = g.slot q
  | .readCounter _ => True

/-- Number of the segment behind the message staged last. -/
def staged (w : BufferWriterLat) : ℕ := w.written + if w.pc.isWritten then 1 else 0

/-- What is queued when `close` has been called first. -/
def ClosePosted (w : BufferWriterLat) : Prop :=
  w.queue = [] ∨ ∃ ops, w.queue = ops ++ [.writeHeader w.lastSegmentOffset] ∧
    ∀ remote, .writeHeader remote ∉ ops

/-- A writer with two calls of `close` at its end, and the headers of its ring. -/
structure Reclosing (g : RingGeometry) (m : Mem) (w : BufferWriterLat) : Prop where
  turn : InTurn g w
  chain : ∀ j, nextSegmentAt m (g.slot j) = g.slot (j + 1)
  queue : ∀ op ∈ w.queue, Queued g w op
  fresh : w.pc = .constructing ∨ w.pc = .readingHeader → w.written = 0
  fits : w.header.Fits
  next : w.staged ≠ 0 → w.header.nextSegmentOffset = g.slot w.staged
  short : ∀ data ∈ w.pc.pending ++ w.calls.flatMap LatCall.messages, data.length ≤ g.segmentSize
  free : ∀ j, (readHeader m (g.slot j)).isWriteable = true →
    (readHeader m (g.slot j)).isEndSegment = false
  opened : ¬ w.pc.Closes → w.header.isEndSegment = false ∧ ∃ messages : List Message,
    w.calls = messages.map LatCall.append ++ [.close, .close] ∧ (messages ≠ [] ∨ w.appended ≠ [])
  unended : ¬ w.Sealed → ∀ j, (readHeader m (g.slot j)).isEndSegment = false
  closes : w.pc.Closes → w.written ≠ 0 ∧ w.header = w.closedHeader ∧
    (w.calls = [.close] ∧ w.ClosePosted ∨
      w.calls = [] ∧ (w.queue = [] ∨ w.queue = [.writeHeader w.lastSegmentOffset]))
  shown : w.Sealed → readHeader m w.lastSegmentOffset = w.header

theorem not_sealed (h : ¬ w.pc.Closes) : ¬ w.Sealed := fun hsealed => h hsealed.1

/-- A step that stays away from `close`. -/
theorem Reclosing.stays_open (h : Reclosing g m w) (hopen : ¬ w.pc.Closes)
    (hopen' : ¬ w'.pc.Closes) (hturn : InTurn g w') (hqueue : ∀ op ∈ w'.queue, Queued g w' op)
    (hfresh : w'.pc = .constructing ∨ w'.pc = .readingHeader → w'.written = 0)
    (hfits : w'.header.Fits)
    (hnext : w'.staged ≠ 0 → w'.header.nextSegmentOffset = g.slot w'.staged)
    (hend : w'.header.isEndSegment = w.header.isEndSegment)
    (hcalls : w'.calls = w.calls ∧ w'.appended = w.appended ∧ (∀ data ∈ w'.pc.pending,
        data ∈ w.pc.pending) ∨
      ∃ message, w.calls = .append message :: w'.calls ∧
        w'.appended = w.appended ++ [message.data] ∧ w'.pc.pending = [message.data]) :
    Reclosing g m w' := by
  obtain ⟨hnot, messages, hmessages, hsome⟩ := h.opened hopen
  refine ⟨hturn, h.chain, hqueue, hfresh, hfits, hnext, fun data hdata => ?_, h.free,
    fun _ => ⟨hend.trans hnot, ?_⟩, fun _ => h.unended (not_sealed hopen),
    fun hcloses => absurd hcloses hopen', fun hsealed => absurd hsealed.1 hopen'⟩
  · apply h.short
    rcases hcalls with ⟨heq, -, hpending⟩ | ⟨message, heq, -, hpending⟩
    · rw [heq] at hdata
      rcases List.mem_append.mp hdata with hdata | hdata
      · exact List.mem_append_left _ (hpending data hdata)
      · exact List.mem_append_right _ hdata
    · rw [hpending] at hdata
      rw [heq]
      exact List.mem_append_right _ hdata
  · rcases hcalls with ⟨heq, happended, -⟩ | ⟨message, heq, happended, -⟩
    · rw [heq, happended]
      exact ⟨messages, hmessages, hsome⟩
    · cases messages with
      | nil => simp [heq] at hmessages
      | cons message' messages =>
        rw [heq, List.map_cons, List.cons_append, List.cons.injEq] at hmessages
        refine ⟨messages, hmessages.2, Or.inr ?_⟩
        rw [happended]
        simp

/-- Operations of the queue stay what they are when the writer moves on. -/
theorem Queued.congr {op : LatOp} (h : Queued g w op) (hopen : ¬ w.pc.Closes)
    (hread : w.pc ≠ .readingHeader) : Queued g w' op := by
  cases op with
  | write remote src posted => exact h
  | writeHeader remote => exact absurd (Or.inl h.1) hopen
  | readHeader remote => exact absurd h.1 hread
  | readCounter remote => trivial

theorem isEndSegment_messageHeader (w : BufferWriterLat) (size : ℕ) :
    (w.messageHeader size).isEndSegment = w.header.isEndSegment := by
  simp [messageHeader, SegmentHeader.isEndSegment, SegmentHeader.setConsumable,
    Nat.and_or_distrib_right]

theorem Reclosing.writes {message : Message} (h : Reclosing g m w) (hpc : w.pc = .write message)
    (hturn : InTurn g (w.writeMessage message)) : Reclosing g m (w.writeMessage message) := by
  have hopen : ¬ w.pc.Closes := by simp [hpc, LatPc.Closes]
  have hlen : message.data.length ≤ g.segmentSize := h.short _ (by simp [hpc, LatPc.pending])
  have hnext := h.turn.nextSegment (by simp [hpc, LatPc.isWritten])
  have hfits : (w.messageHeader message.data.length).Fits := by
    refine ⟨hlen.trans_lt g.segmentSize_lt, ?_, ?_⟩
    · have hlt := g.slot_lt (w.written + 1)
      simpa [messageHeader, hnext] using hlt
    · exact Nat.or_lt_two_pow (n := 64) h.fits.2.2 (by decide)
  have hpointer : (w.messageHeader message.data.length).nextSegmentOffset =
      g.slot (w.written + 1) := by simp [messageHeader, hnext]
  have hend : (w.messageHeader message.data.length).isEndSegment = w.header.isEndSegment :=
    isEndSegment_messageHeader w _
  apply h.stays_open hopen _ hturn _ _ hfits (fun _ => hpointer) hend
  · exact Or.inl ⟨rfl, rfl, by simp [writeMessage, LatPc.pending]⟩
  · simp [writeMessage, LatPc.Closes]
  · intro op hop
    rcases List.mem_append.mp hop with hop | hop
    · exact (h.queue op hop).congr hopen (by simp [hpc])
    · obtain rfl := List.mem_singleton.mp hop
      refine ⟨w.written, _, message.data, h.turn.current, rfl, ?_, hfits, hpointer,
        hend.trans (h.opened hopen).1⟩
      rw [List.length_append, SegmentHeader.length_encode, RingGeometry.fullSize]
      omega
  · simp [writeMessage]

theorem Reclosing.advances {signaled : Bool} (h : Reclosing g m w) (hpc : w.pc = .written signaled)
    (hturn : InTurn g w.advance) : Reclosing g m w.advance := by
  have hopen : ¬ w.pc.Closes := by simp [hpc, LatPc.Closes]
  have hstaged : w.advance.staged = w.staged := by
    simp [staged, advance, hpc, LatPc.isWritten]
  apply h.stays_open hopen _ hturn _ _ h.fits _ rfl
  · exact Or.inl ⟨rfl, rfl, by simp [advance, LatPc.pending]⟩
  · simp [advance, LatPc.Closes]
  · exact fun op hop => (h.queue op hop).congr hopen (by simp [hpc])
  · simp [advance]
  · rw [hstaged]
    exact h.next

/-- No header is on its way while no call runs. -/
theorem Reclosing.no_header_queued (h : Reclosing g m w) (hpc : w.pc = .idle ∨ w.pc = .closed)
    (remote : ℕ) : .writeHeader remote ∉ w.queue := by
  intro hmem
  have hclosing := (h.queue _ hmem).1
  rcases hpc with hpc | hpc <;> rw [hclosing] at hpc <;> cases hpc

theorem Reclosing.queued_close (h : Reclosing g m w) (hpc : w.pc = .idle ∨ w.pc = .closed)
    (hpc' : w'.pc = .closing) (hlast : w'.lastSegmentOffset = w.lastSegmentOffset)
    (hqueue' : w'.queue = w.queue ++ [.writeHeader w.lastSegmentOffset]) :
    ∀ op ∈ w'.queue, Queued g w' op := by
  intro op hop
  rw [hqueue'] at hop
  rcases List.mem_append.mp hop with hop | hop
  · have hold := h.queue op hop
    cases op with
    | write remote src posted => exact hold
    | writeHeader remote => exact absurd hop (h.no_header_queued hpc remote)
    | readHeader remote => rcases hpc with hpc | hpc <;> rw [hold.1] at hpc <;> cases hpc
    | readCounter remote => trivial
  · obtain rfl := List.mem_singleton.mp hop
    exact ⟨hpc', hlast.symm⟩

theorem Reclosing.closes_call {calls : List LatCall} (h : Reclosing g m w)
    (hpc : w.pc = .idle ∨ w.pc = .closed) (hcalls : w.calls = .close :: calls)
    (hturn : InTurn g w') (hw' : w' = post { w with calls, header := w.closedHeader }
      (.writeHeader w.lastSegmentOffset) .closing) : Reclosing g m w' := by
  have hpc' : w'.pc = .closing := by rw [hw']; rfl
  have hcloses : w'.pc.Closes := Or.inl hpc'
  have hheader : w'.header = w.closedHeader := by rw [hw']; rfl
  have hcalls' : w'.calls = calls := by rw [hw']; rfl
  have hlast : w'.lastSegmentOffset = w.lastSegmentOffset := by rw [hw']; rfl
  have hwritten : w'.written = w.written := by rw [hw']; rfl
  have hqueue' : w'.queue = w.queue ++ [.writeHeader w.lastSegmentOffset] := by rw [hw']; rfl
  have hfits : w'.header.Fits := by
    have hsize : w.segmentSizes < sizeTBound := by
      rw [h.turn.placed.size]
      exact g.segmentSize_lt
    rw [hheader]
    exact ⟨hsize, h.fits.2.1, flags_closedHeader_lt w⟩
  have hagain : w'.header = w'.closedHeader := by
    rw [closedHeader_again (by rw [hw']; rfl) hheader, hheader]
  have hstaged : w'.staged = w.staged := by
    unfold staged
    rw [hwritten, hpc']
    rcases hpc with hpc | hpc <;> rw [hpc] <;> rfl
  have hnext : w'.staged ≠ 0 → w'.header.nextSegmentOffset = g.slot w'.staged := by
    rw [hstaged, hheader]
    exact h.next
  have hqueued := h.queued_close hpc hpc' hlast hqueue'
  have hnoheader := h.no_header_queued hpc
  have hfresh : w'.pc = .constructing ∨ w'.pc = .readingHeader → w'.written = 0 := by
    simp [hpc']
  have hshort : ∀ data ∈ w'.pc.pending ++ w'.calls.flatMap LatCall.messages,
      data.length ≤ g.segmentSize := by
    intro data hdata
    apply h.short
    rw [hpc', hcalls'] at hdata
    rw [hcalls]
    exact List.mem_append_right _ hdata
  rcases hpc with hpc | hpc
  · have hopen : ¬ w.pc.Closes := by simp [hpc, LatPc.Closes]
    obtain ⟨-, messages, hmessages, hsome⟩ := h.opened hopen
    have hone : messages = [] ∧ calls = [.close] := by
      cases messages with
      | nil => simpa [hcalls] using hmessages
      | cons message messages => simp [hcalls] at hmessages
    have hne : w'.written ≠ 0 := by
      have hcount := h.turn.count
      rw [hpc] at hcount
      rw [hwritten]
      intro hzero
      rw [hzero] at hcount
      exact hsome.resolve_left (absurd hone.1) (List.length_eq_zero_iff.mp hcount)
    have hnot : ¬ w'.Sealed := by
      rintro ⟨-, hnil | hnil⟩
      · simp [hqueue'] at hnil
      · simp [hcalls', hone.2] at hnil
    have hposted : w'.ClosePosted := by
      refine Or.inr ⟨w.queue, ?_, hnoheader⟩
      rw [hqueue', hlast]
    exact ⟨hturn, h.chain, hqueued, hfresh, hfits, hnext, hshort, h.free,
      fun hopen' => absurd hcloses hopen', fun _ => h.unended (not_sealed hopen),
      fun _ => ⟨hne, hagain, Or.inl ⟨hcalls'.trans hone.2, hposted⟩⟩,
      fun hsealed => absurd hsealed hnot⟩
  · -- the second call finds the header of the first one in memory
    obtain ⟨hne, hsame, hstage⟩ := h.closes (Or.inr hpc)
    have hempty : calls = [] ∧ w.queue = [] := by
      rcases hstage with ⟨hone, hnil | ⟨ops, hops, -⟩⟩ | ⟨hnil, -⟩
      · rw [hcalls, List.cons.injEq] at hone
        exact ⟨hone.2, hnil⟩
      · exact absurd (by rw [hops]; simp) (hnoheader w.lastSegmentOffset)
      · simp [hcalls] at hnil
    have hsealed : w'.Sealed := ⟨hcloses, Or.inr (hcalls'.trans hempty.1)⟩
    refine ⟨hturn, h.chain, hqueued, hfresh, hfits, hnext, hshort, h.free,
      fun hopen' => absurd hcloses hopen', fun hnot => absurd hsealed hnot,
      fun _ => ⟨hwritten ▸ hne, hagain, Or.inr ⟨hcalls'.trans hempty.1, Or.inr ?_⟩⟩, fun _ => ?_⟩
    · rw [hqueue', hempty.2, hlast, List.nil_append]
    · rw [hlast, hheader, ← hsame]
      exact h.shown ⟨Or.inr hpc, Or.inl hempty.2⟩

theorem Reclosing.step (h : Reclosing g m w) (hstep : w.step = some w') : Reclosing g m w' := by
  have hturn : InTurn g w' := h.turn.move (a := .step) (by simp) hstep
  cases callStep hstep with
  | waits hopen hopen' hwritten hread hqueue hpc' hheader hcount hcalls =>
    have hstaged : w'.staged = w.staged := by
      unfold staged
      rw [hcount, hwritten.1, hwritten.2]
    apply h.stays_open hopen hopen' hturn _ _ (hheader ▸ h.fits) _ (by rw [hheader])
    · rcases hcalls with ⟨heq, happended, hpending⟩ | hcall
      · exact Or.inl ⟨heq, happended, by rw [hpending]; exact fun _ => id⟩
      · exact Or.inr hcall
    · intro op hop
      have hold : ∀ op ∈ w.queue, Queued g w' op := by
        intro op hop
        apply (h.queue op hop).congr hopen
        intro hreading
        rw [hread hreading] at hop
        cases hop
      rcases hqueue with heq | ⟨hpc, heq, hreading⟩ | ⟨-, off, heq⟩
      · exact hold op (heq ▸ hop)
      · rw [heq] at hop
        rcases List.mem_append.mp hop with hop | hop
        · exact hold op hop
        · obtain rfl := List.mem_singleton.mp hop
          exact ⟨hreading, w.written, h.turn.current⟩
      · rw [heq] at hop
        rcases List.mem_append.mp hop with hop | hop
        · exact hold op hop
        · obtain rfl := List.mem_singleton.mp hop
          trivial
    · rintro (hconstructing | hreading)
      · exact absurd hconstructing hpc'.1
      · rw [hcount]
        exact h.fresh (Or.inl (hpc'.2 hreading))
    · rw [hstaged, hheader]
      exact h.next
  | writes message hpc hw' =>
    subst hw'
    exact h.writes hpc hturn
  | advances signaled hpc hw' =>
    subst hw'
    exact h.advances hpc hturn
  | closes calls hpc hcalls hw' => exact h.closes_call hpc hcalls hturn hw'
  | resumes hpc message hcalls =>
    obtain ⟨-, -, ⟨hone, -⟩ | ⟨hnil, -⟩⟩ := h.closes (Or.inr hpc)
    · simp [hcalls] at hone
    · simp [hcalls] at hnil
  | closed hpc hqueue hw' =>
    subst hw'
    have hcloses : LatPc.Closes .closed := Or.inr rfl
    obtain ⟨hne, hsame, hstage⟩ := h.closes (Or.inl hpc)
    have hstaged : staged { w with pc := .closed } = w.staged := by
      unfold staged
      rw [hpc]
      rfl
    refine ⟨hturn, h.chain, ?_, by simp, h.fits, ?_, ?_, h.free,
      fun hopen' => absurd hcloses hopen',
      fun hnot => absurd ⟨hcloses, Or.inl hqueue⟩ hnot, fun _ => ⟨hne, hsame, ?_⟩,
      fun _ => h.shown ⟨Or.inl hpc, Or.inl hqueue⟩⟩
    · intro op hop
      simp [hqueue] at hop
    · rw [hstaged]
      exact h.next
    · intro data hdata
      exact h.short data (List.mem_append_right _ hdata)
    · exact hstage.imp (fun hone => ⟨hone.1, Or.inl hqueue⟩) fun hnil => ⟨hnil.1, Or.inl hqueue⟩

/-- The segment that the header of the first `close` reaches next. -/
def sealing (w : BufferWriterLat) : Option ℕ :=
  match w.queue, w.calls with
  | .writeHeader remote :: _, _ :: _ => some remote
  | _, _ => none

/-- What an operation of the queue leaves of the end flags and of the rest of the memory. -/
structure KeepsEnds (g : RingGeometry) (w : BufferWriterLat) (m m' : Mem) : Prop where
  final : ∀ j, (readHeader m (g.slot j)).isEndSegment = true →
    (readHeader m' (g.slot j)).isEndSegment = true
  opened : ∀ j, w.sealing ≠ some (g.slot j) → (readHeader m (g.slot j)).isEndSegment = false →
    (readHeader m' (g.slot j)).isEndSegment = false
  outside : ∀ start len, start + len ≤ g.entry ∨ g.entry + g.segments * g.fullSize ≤ start →
    AgreeOn m' m start len

theorem KeepsEnds.refl (g : RingGeometry) (w : BufferWriterLat) (m : Mem) : KeepsEnds g w m m :=
  ⟨fun _ => id, fun _ _ => id, fun _ _ _ => AgreeOn.refl _ _ _⟩

/-- Bytes sent to one segment do not reach beyond the ring. -/
theorem agreeOn_send (g : RingGeometry) (m : Mem) (p : ℕ) {bytes : List UInt8}
    (hlength : bytes.length ≤ g.fullSize) (start len : ℕ)
    (hout : start + len ≤ g.entry ∨ g.entry + g.segments * g.fullSize ≤ start) :
    AgreeOn (writeBytes m (g.slot p) bytes) m start len := by
  have hlo := g.le_slot p
  have hhi := g.slot_add_fullSize_le p
  apply agreeOn_writeBytes
  unfold RingGeometry.fullSize at hhi hout hlength
  omega

/-- The queue behind its head, as long as the header of the first `close` has not arrived. -/
theorem Reclosing.closing_queue {op : LatOp} {queue : List LatOp} (h : Reclosing g m w)
    (hnot : ¬ w.Sealed) (hcloses : w.pc.Closes) (hqueue : w.queue = op :: queue) :
    w.calls = [.close] ∧ (op = .writeHeader w.lastSegmentOffset ∧ queue = [] ∨
      ∃ ops, queue = ops ++ [.writeHeader w.lastSegmentOffset] ∧
        ∀ remote, .writeHeader remote ∉ op :: ops) := by
  obtain ⟨-, -, ⟨hone, hnil | ⟨ops, hops, hno⟩⟩ | ⟨hnil, -⟩⟩ := h.closes hcloses
  · simp [hqueue] at hnil
  · refine ⟨hone, ?_⟩
    rw [hqueue] at hops
    cases ops with
    | nil =>
      rw [List.nil_append, List.cons.injEq] at hops
      exact Or.inl hops
    | cons op' ops =>
      rw [List.cons_append, List.cons.injEq] at hops
      obtain ⟨rfl, rfl⟩ := hops
      exact Or.inr ⟨ops, rfl, hno⟩
  · exact absurd ⟨hcloses, Or.inr hnil⟩ hnot

/-- An operation that is no header leaves all segments open. -/
theorem Reclosing.executes {op : LatOp} {queue : List LatOp} {header : SegmentHeader}
    {consumedCnt : ℕ} (h : Reclosing g m w) (hnot : ¬ w.Sealed) (hqueue : w.queue = op :: queue)
    (hop : ∀ remote, op ≠ .writeHeader remote)
    (hturn : InTurn g { w with queue, header, consumedCnt })
    (hheader : header = w.header ∨
      w.pc = .readingHeader ∧ header.Fits ∧ header.isEndSegment = false)
    (hchain : ∀ j, nextSegmentAt m' (g.slot j) = g.slot (j + 1))
    (hends : ∀ j, (readHeader m' (g.slot j)).isEndSegment = false) :
    Reclosing g m' { w with queue, header, consumedCnt } := by
  have hkept : w.pc ≠ .readingHeader → header = w.header :=
    fun hpc => hheader.resolve_right fun hread => hpc hread.1
  have hqueued : w.pc.Closes → w.calls = [.close] ∧
      ∃ ops, queue = ops ++ [.writeHeader w.lastSegmentOffset] ∧
        ∀ remote, .writeHeader remote ∉ ops := by
    intro hcloses
    obtain ⟨hone, ⟨heq, -⟩ | ⟨ops, hops, hno⟩⟩ := h.closing_queue hnot hcloses hqueue
    · exact absurd heq (hop _)
    · exact ⟨hone, ops, hops, fun remote hmem => hno remote (List.mem_cons_of_mem _ hmem)⟩
  have hnot' : ¬ Sealed { w with queue, header, consumedCnt } := by
    rintro ⟨hcloses, hdone⟩
    obtain ⟨hone, ops, hops, -⟩ := hqueued hcloses
    rcases hdone with hnil | hnil
    · simp [hops] at hnil
    · simp [hone] at hnil
  refine ⟨hturn, hchain, fun op' hop' => ?_, h.fresh, ?_, fun hstaged => ?_, h.short,
    fun j _ => hends j, fun hopen => ⟨?_, (h.opened hopen).2⟩, fun _ => hends, fun hcloses => ?_,
    fun hsealed => absurd hsealed hnot'⟩
  · exact h.queue op' (hqueue ▸ List.mem_cons_of_mem _ hop')
  · rcases hheader with rfl | ⟨-, hfits, -⟩
    · exact h.fits
    · exact hfits
  · have hpc : w.pc ≠ .readingHeader := by
      intro hpc
      apply hstaged
      simp [staged, hpc, h.fresh (Or.inr hpc), LatPc.isWritten]
    simp only [hkept hpc]
    exact h.next hstaged
  · rcases hheader with rfl | ⟨-, -, hend⟩
    · exact (h.opened hopen).1
    · exact hend
  · obtain ⟨hone, hposted⟩ := hqueued hcloses
    have hpc : w.pc ≠ .readingHeader := by
      intro hpc
      rcases hcloses with hcloses | hcloses <;> simp only [hpc] at hcloses <;> cases hcloses
    obtain ⟨hne, hsame, -⟩ := h.closes hcloses
    simp only [hkept hpc]
    exact ⟨hne, hsame, Or.inl ⟨hone, Or.inr hposted⟩⟩

/-- What arrives of a second `close` is there already. -/
theorem Reclosing.nic_sealed (h : Reclosing g m w) (hsealed : w.Sealed)
    (hnic : w.nic m = some (m', w', made)) (hturn : InTurn g w') :
    m' = m ∧ Reclosing g m w' := by
  obtain ⟨hcloses, hdone⟩ := hsealed
  have hbusy : w.queue ≠ [] := by
    intro hempty
    simp [BufferWriterLat.nic, hempty] at hnic
  have hnil := hdone.resolve_left hbusy
  obtain ⟨hne, hsame, ⟨hone, -⟩ | ⟨-, hempty | hone⟩⟩ := h.closes hcloses
  · simp [hnil] at hone
  · exact absurd hempty hbusy
  have hshown := h.shown ⟨hcloses, hdone⟩
  simp only [BufferWriterLat.nic, hone, Option.some.injEq, Prod.mk.injEq] at hnic
  obtain ⟨hm, rfl, -⟩ := hnic
  rw [← hshown, writeHeader_readHeader] at hm
  exact ⟨hm.symm, hturn, h.chain, by simp, h.fresh, h.fits, h.next, h.short, h.free, h.opened,
    fun hnot => absurd ⟨hcloses, Or.inl rfl⟩ hnot,
    fun _ => ⟨hne, hsame, Or.inr ⟨hnil, Or.inl rfl⟩⟩, fun _ => hshown⟩

/-- The header of the first `close` reaches the last segment. -/
theorem Reclosing.nic_closes {remote : ℕ} {queue : List LatOp} (h : Reclosing g m w)
    (hnot : ¬ w.Sealed) (hqueue : w.queue = .writeHeader remote :: queue)
    (hturn : InTurn g { w with queue }) :
    Reclosing g (writeHeader m remote w.header) { w with queue } ∧
      KeepsEnds g w m (writeHeader m remote w.header) := by
  obtain ⟨hpc, hremote⟩ := h.queue (.writeHeader remote) (by rw [hqueue]; exact List.mem_cons_self)
  have hcloses : w.pc.Closes := Or.inl hpc
  obtain ⟨hne, hsame, -⟩ := h.closes hcloses
  obtain ⟨hone, hempty⟩ : w.calls = [.close] ∧ queue = [] := by
    obtain ⟨hone, ⟨-, hnil⟩ | ⟨ops, -, hno⟩⟩ := h.closing_queue hnot hcloses hqueue
    · exact ⟨hone, hnil⟩
    · exact absurd List.mem_cons_self (hno remote)
  subst hempty
  have hslot : remote = g.slot (w.written - 1) := hremote.trans (h.turn.last hne)
  have hnext : w.header.nextSegmentOffset = g.slot (w.written - 1 + 1) := by
    have hstaged : w.staged = w.written := by simp [staged, hpc, LatPc.isWritten]
    rw [Nat.sub_add_cancel (Nat.one_le_iff_ne_zero.mpr hne), ← hstaged]
    apply h.next
    rw [hstaged]
    exact hne
  have hlength : (w.header.encode ++ []).length ≤ g.fullSize := by
    rw [List.append_nil, SegmentHeader.length_encode]
    exact Nat.le_add_left _ _
  have hsent : writeHeader m remote w.header =
      writeBytes m (g.slot (w.written - 1)) (w.header.encode ++ []) := by
    rw [hslot, List.append_nil, writeHeader]
  have hheaders := g.readHeader_sendHeader (m := m) (p := w.written - 1) h.fits [] hlength
  have hchain := g.chain_sendHeader h.chain [] hnext hlength
  have hread := readHeader_writeHeader m remote h.fits
  rw [← hsent] at hheaders hchain
  have hend : w.header.isEndSegment = true := hsame ▸ isEndSegment_closedHeader w
  have hwriteable : w.header.isWriteable = false := by
    rw [hsame]
    exact isWriteable_closedHeader w
  generalize hm : writeHeader m remote w.header = m₁ at hsent hheaders hchain hread ⊢
  constructor
  · have hsealed : Sealed { w with queue := [] } := ⟨hcloses, Or.inl rfl⟩
    refine ⟨hturn, hchain, by simp, h.fresh, h.fits, h.next, h.short, fun j hj => ?_,
      fun hopen => absurd hcloses hopen, fun hnot' => absurd hsealed hnot',
      fun _ => ⟨hne, hsame, Or.inl ⟨hone, Or.inl rfl⟩⟩, fun _ => ?_⟩
    · rw [hheaders] at hj ⊢
      split_ifs at hj ⊢
      · rw [hwriteable] at hj
        cases hj
      · exact h.free j hj
    · rw [← hremote]
      exact hread
  · refine ⟨fun j hj => ?_, fun j hclear hj => ?_, fun start len hout => ?_⟩
    · rw [hheaders]
      split_ifs
      · exact hend
      · exact hj
    · rw [hheaders, if_neg]
      · exact hj
      · intro heq
        apply hclear
        rw [sealing, hqueue, hone, hslot, heq]
    · rw [hsent]
      exact agreeOn_send g m _ hlength start len hout

/-- A message lands in its segment. -/
theorem Reclosing.nic_message {remote src : ℕ} {posted : List UInt8} {queue : List LatOp}
    (h : Reclosing g m w) (hnot : ¬ w.Sealed) (hqueue : w.queue = .write remote src posted :: queue)
    (hturn : InTurn g { w with queue }) :
    Reclosing g (writeBytes m remote posted) { w with queue } ∧
      KeepsEnds g w m (writeBytes m remote posted) := by
  obtain ⟨p, header, data, rfl, rfl, hlength, hfits, hnext, hend⟩ :=
    h.queue (.write remote src posted) (by rw [hqueue]; exact List.mem_cons_self)
  have hheaders := g.readHeader_sendHeader (m := m) (p := p) hfits data hlength
  have hends : ∀ j, (readHeader (writeBytes m (g.slot p) (header.encode ++ data))
      (g.slot j)).isEndSegment = false := by
    intro j
    rw [hheaders]
    split_ifs
    · exact hend
    · exact h.unended hnot j
  refine ⟨h.executes hnot hqueue (by simp) hturn (Or.inl rfl)
    (g.chain_sendHeader h.chain data hnext hlength) hends, fun j hj => ?_, fun j _ _ => hends j,
    agreeOn_send g m p hlength⟩
  rw [h.unended hnot j] at hj
  cases hj

theorem Reclosing.nic (h : Reclosing g m w) (hcarries : w.CarriesPosted)
    (hnic : w.nic m = some (m', w', made)) :
    Reclosing g m' w' ∧ KeepsEnds g w m m' ∧ (w.calls = [] → m' = m) := by
  have hturn : InTurn g w' := h.turn.move (a := .nic m) (by simp) (by simp [move, hnic])
  by_cases hsealed : w.Sealed
  · obtain ⟨rfl, h'⟩ := h.nic_sealed hsealed hnic hturn
    exact ⟨h', KeepsEnds.refl g w _, fun _ => rfl⟩
  have hcalls : w.calls ≠ [] := by
    intro hnil
    by_cases hcloses : w.pc.Closes
    · exact hsealed ⟨hcloses, Or.inr hnil⟩
    · obtain ⟨-, messages, hmessages, -⟩ := h.opened hcloses
      simp [hnil] at hmessages
  cases hqueue : w.queue with
  | nil => simp [BufferWriterLat.nic, hqueue] at hnic
  | cons op queue =>
    have hends := h.unended hsealed
    cases op with
    | write remote src posted =>
      have hbytes := hcarries remote src posted queue hqueue
      simp only [BufferWriterLat.nic, hqueue, hbytes, Option.some.injEq, Prod.mk.injEq] at hnic
      obtain ⟨rfl, rfl, -⟩ := hnic
      obtain ⟨h', hkeeps'⟩ := h.nic_message hsealed hqueue hturn
      exact ⟨h', hkeeps', fun hnil => absurd hnil hcalls⟩
    | writeHeader remote =>
      simp only [BufferWriterLat.nic, hqueue, Option.some.injEq, Prod.mk.injEq] at hnic
      obtain ⟨rfl, rfl, -⟩ := hnic
      obtain ⟨h', hkeeps'⟩ := h.nic_closes hsealed hqueue hturn
      exact ⟨h', hkeeps', fun hnil => absurd hnil hcalls⟩
    | readHeader remote =>
      obtain ⟨hpc, q, hq⟩ := h.queue (.readHeader remote) (by rw [hqueue]; exact List.mem_cons_self)
      simp only [BufferWriterLat.nic, hqueue, Option.some.injEq, Prod.mk.injEq] at hnic
      obtain ⟨rfl, rfl, -⟩ := hnic
      refine ⟨h.executes hsealed hqueue (by simp) hturn (Or.inr ⟨hpc, fits_readHeader m _, ?_⟩)
        h.chain hends, KeepsEnds.refl g w _, fun _ => rfl⟩
      rw [hq]
      exact hends q
    | readCounter remote =>
      simp only [BufferWriterLat.nic, hqueue, Option.some.injEq, Prod.mk.injEq] at hnic
      obtain ⟨rfl, rfl, -⟩ := hnic
      exact ⟨h.executes hsealed hqueue (by simp) hturn (Or.inl rfl) h.chain hends,
        KeepsEnds.refl g w _, fun _ => rfl⟩

/-- A writer just constructed on a ring just built. -/
theorem reclosing_init (hfree : ∀ j, readHeader m (g.slot j) = g.freeHeader j)
    (internalBufferSize : ℕ) {messages : List Message} (hmessages : messages ≠ [])
    (hshort : ∀ message ∈ messages, message.data.length ≤ g.segmentSize) :
    Reclosing g m (init g.entry g.segments g.segmentSize internalBufferSize
      (messages.map LatCall.append ++ [.close, .close])) := by
  have hopen : ¬ LatPc.Closes .constructing := by simp [LatPc.Closes]
  have hend : ∀ j, (readHeader m (g.slot j)).isEndSegment = false := by
    intro j
    rw [hfree]
    simp [RingGeometry.freeHeader, SegmentHeader.isEndSegment]
  refine ⟨inTurn_init g _ _, fun j => ?_, by simp [init], fun _ => rfl,
    ⟨Nat.two_pow_pos 64, Nat.two_pow_pos 64, Nat.two_pow_pos 64⟩, fun hstaged => absurd rfl hstaged,
    fun data hdata => ?_, fun j _ => hend j,
    fun _ => ⟨by simp [init, SegmentHeader.isEndSegment], messages, rfl, Or.inl hmessages⟩,
    fun _ => hend, fun hcloses => absurd hcloses hopen, fun hsealed => absurd hsealed.1 hopen⟩
  · rw [nextSegmentAt, hfree]
    rfl
  · simp only [init, LatPc.pending, List.nil_append, List.flatMap_append, List.flatMap_map,
      LatCall.messages, List.flatMap_cons, List.flatMap_nil, List.append_nil,
      List.mem_flatMap, List.mem_singleton] at hdata
    obtain ⟨message, hmem, rfl⟩ := hdata
    exact hshort message hmem

end BufferWriterLat
end DpiLibrary
