import DpiLibrary.Dpi.BufferWriterBW
import DpiLibrary.Dpi.RingRefinement

/-!
# The bandwidth writer's invariant

The writer holds the slot after the blocks sent, from the moment it finds it
writeable until its consumable header has arrived. Until then the bytes of the
current segment are partly in memory and partly in the internal buffer, named by
the posted writes. Everything appended is in the blocks sent, in the current
segment or still to be written by the running call.
-/

namespace DpiLibrary

/-- Bytes a call passes to the writer. -/
def WriterCall.bytes : WriterCall → List UInt8
  | .append data => data
  | .close => []

/-- A write of the first part of a split fills its segment and leaves something for the
next one. -/
def AfterWrite.Fills (g : RingGeometry) (size : ℕ) : AfterWrite → Prop
  | .split data _ => 2 ≤ g.segments ∧ size = g.segmentSize ∧ data ≠ []
  | .done _ => True

def AfterWrite.pending : AfterWrite → List UInt8
  | .split data rest => data ++ rest.getD []
  | .done rest => rest.getD []

/-- Bytes of the running call that have not been handed to `writeToSegment`. -/
def WriterPc.pending : WriterPc → List UInt8
  | .append data => data
  | .superAppend data rest => data ++ rest.getD []
  | .flush data after => data ++ after.pending
  | .getNextSegment data rest => data ++ rest.getD []
  | .handOver _ data rest => data ++ rest.getD []
  | .poll _ data rest => data ++ rest.getD []
  | _ => []

@[simp] theorem AfterWrite.pending_pc (after : AfterWrite) : after.pc.pending = after.pending := by
  cases after with
  | split data rest => rfl
  | done rest => cases rest <;> rfl

/-- The posted data writes cover `bytes` from position `pos` of the segment on, and their
sources lie below `limit` in the internal buffer. -/
def Posted (base : ℕ) (internal : Mem) (limit : ℕ) : ℕ → List RemoteOp → List UInt8 → Prop
  | _, [], bytes => bytes = []
  | pos, .writeData remote src len :: ops, bytes =>
    remote = base + pos ∧ src + len ≤ limit ∧
      ∃ rest, bytes = readBytes internal src len ++ rest ∧
        Posted base internal limit (pos + len) ops rest
  | _, .writeHeader _ :: _, _ => False
  | _, .readHeader _ :: _, _ => False

theorem Posted.concat {base limit : ℕ} {internal : Mem} {data : List UInt8} :
    ∀ {ops : List RemoteOp} {pos : ℕ} {bytes : List UInt8},
      Posted base internal limit pos ops bytes →
      Posted base (writeBytes internal limit data) (limit + data.length) pos
        (ops ++ [.writeData (base + (pos + bytes.length)) limit data.length]) (bytes ++ data) := by
  intro ops
  induction ops with
  | nil =>
    rintro pos bytes rfl
    refine ⟨rfl, le_rfl, [], ?_, rfl⟩
    rw [readBytes_writeBytes, List.append_nil, List.nil_append]
  | cons op ops ih =>
    intro pos bytes h
    cases op with
    | writeData remote src len =>
      obtain ⟨hremote, hsrc, rest, rfl, hrest⟩ := h
      have hkeep :
          readBytes (writeBytes internal limit data) src len = readBytes internal src len :=
        (agreeOn_writeBytes (Or.inl hsrc)).readBytes
      have htail := ih hrest
      refine ⟨hremote, hsrc.trans (Nat.le_add_right _ _), rest ++ data, ?_, ?_⟩
      · rw [hkeep, List.append_assoc]
      · rw [List.length_append, length_readBytes, ← Nat.add_assoc pos]
        exact htail
    | writeHeader remote => exact h.elim
    | readHeader remote => exact h.elim

namespace BufferWriterBW

/-- The client closes the writer at the end. -/
def CallsOpen (w : BufferWriterBW) : Prop :=
  ∃ appends : List (List UInt8), w.calls = appends.map WriterCall.append ++ [.close]

theorem CallsOpen.congr {w w' : BufferWriterBW} (h : w.CallsOpen) (hcalls : w'.calls = w.calls) :
    w'.CallsOpen := by
  unfold CallsOpen
  rwa [hcalls]

variable {g : RingGeometry} {x x' : RingState g} {m m' : Mem} {w : BufferWriterBW}
  {cur : List UInt8} {tail : List RemoteOp}

/-- The writer owns the slot after the blocks sent; `cur` are the bytes of the current
segment, and the queue holds writes of the part not yet in memory, then `tail`. -/
structure Holding (x : RingState g) (m : Mem) (w : BufferWriterBW) (cur : List UInt8)
    (tail : List RemoteOp) : Prop where
  room : x.sent.length < x.released + g.segments
  unfinished : x.fin = false
  offset : w.segmentOffset = g.slot x.sent.length
  size : w.sizeUsed = cur.length
  fits : cur.length ≤ g.segmentSize
  queue : ∃ landed rest ops, cur = landed ++ rest ∧ w.queue = ops ++ tail ∧
    readBytes m (g.dataOffset x.sent.length) landed.length = landed ∧
    Posted (g.dataOffset x.sent.length) w.internalBuffer w.internalOffset landed.length ops rest

/-- The writer holds the next segment with its header read and nothing else under way. -/
structure Ready (x : RingState g) (m : Mem) (w : BufferWriterBW) (cur : List UInt8)
    (tail : List RemoteOp) : Prop extends Holding x m w cur tail where
  header : w.header = g.freeHeader x.sent.length
  calls : w.CallsOpen

/-- The writer has closed and its last header has arrived. It still holds that header. -/
structure Finished (x : RingState g) (w : BufferWriterBW) (cur : List UInt8) : Prop where
  fin : x.fin = true
  nonempty : x.sent ≠ []
  cur_nil : cur = []
  queue : w.queue = []
  calls : w.calls = []
  offset : w.segmentOffset = g.slot (x.sent.length - 1)
  header : w.header = g.sentHeader .bw x (x.sent.length - 1)
  size : w.sizeUsed = w.header.counter

/-- The writer has handed its segment over and waits for the next one. -/
structure Waiting (x : RingState g) (w : BufferWriterBW) (cur : List UInt8) (next : ℕ) : Prop where
  multi : 2 ≤ g.segments
  unfinished : x.fin = false
  cur_nil : cur = []
  next_eq : next = g.slot x.sent.length
  calls : w.CallsOpen

theorem Waiting.congr {w' : BufferWriterBW} {next : ℕ} (h : Waiting x w cur next)
    (hcalls : w'.calls = w.calls) : Waiting x w' cur next :=
  ⟨h.multi, h.unfinished, h.cur_nil, h.next_eq, h.calls.congr hcalls⟩

/-- What the program counter says. -/
def State (x : RingState g) (m : Mem) (w : BufferWriterBW) (cur : List UInt8) : Prop :=
  match w.pc with
  | .constructing => Holding x m w cur [] ∧ w.CallsOpen
  | .constructed => Holding x m w cur [.readHeader (g.slot x.sent.length)] ∧ w.CallsOpen ∨
    Ready x m w cur []
  | .flush data after => cur.length + data.length ≤ g.segmentSize ∧
    after.Fills g (cur.length + data.length) ∧
    (Ready x m w cur [.writeHeader (g.slot x.sent.length)] ∨
      Ready x m w cur [] ∧ w.queue = [])
  | .getNextSegment data _ => Ready x m w cur [] ∧ 2 ≤ g.segments ∧ cur.length = g.segmentSize ∧
    data ≠ []
  | .handOver next data _ => data ≠ [] ∧
    (Holding x m w cur [.writeHeader (g.slot x.sent.length)] ∧ w.CallsOpen ∧ 2 ≤ g.segments ∧
        cur.length = g.segmentSize ∧ w.header = ⟨cur.length, g.slot (x.sent.length + 1), 0b0010⟩ ∧
        next = g.slot (x.sent.length + 1) ∨
      Waiting x w cur next ∧ w.queue = [])
  | .poll next data _ => data ≠ [] ∧ Waiting x w cur next ∧
    (w.queue = [.readHeader next] ∨ w.queue = [] ∧
      (w.header.isWriteable = true →
        w.header = g.freeHeader x.sent.length ∧ x.sent.length < x.released + g.segments) ∧
      (w.header.isWriteable = false → g.segments ≤ x.sent.length))
  | .closing =>
    Holding x m w cur [.writeHeader (g.slot x.sent.length)] ∧ w.calls = [] ∧
        w.header = ⟨cur.length, g.slot (x.sent.length + 1), 0b0110⟩ ∨
      Finished x w cur
  | .closed => Finished x w cur
  | _ => Ready x m w cur []

/-- The writer's invariant on a ring, for a client that passes `program` in all. A ring of
one segment is only written when everything fits into it. -/
structure Inv (g : RingGeometry) (program : List UInt8) (x : RingState g) (m : Mem)
    (w : BufferWriterBW) : Prop where
  segmentSize : w.segmentSize = g.segmentSize
  program_eq : w.appended ++ w.calls.flatMap WriterCall.bytes = program
  spare : 2 ≤ g.segments ∨ program.length ≤ g.segmentSize
  single : g.segments < 2 → x.sent ≠ [] → x.fin = true
  blocks : x.fin = false → ∀ block ∈ x.sent, block.length = g.segmentSize
  state : ∃ cur, w.appended = x.sent.flatten ++ cur ++ w.pc.pending ∧ State x m w cur

theorem Holding.stable (h : Holding x m w cur tail) (hsent : x'.sent = x.sent)
    (hfin : x'.fin = x.fin) (hrel : x.released ≤ x'.released)
    (hagree : AgreeOn m' m (g.dataOffset x.sent.length) g.segmentSize) :
    Holding x' m' w cur tail := by
  obtain ⟨landed, rest, ops, hcur, hqueue, hread, hposted⟩ := h.queue
  have hlen := congrArg List.length hcur
  rw [List.length_append] at hlen
  have hfits := h.fits
  refine ⟨?_, by rw [hfin, h.unfinished], by rw [hsent, h.offset], h.size, h.fits,
    landed, rest, ops, hcur, hqueue, ?_, by rwa [hsent]⟩
  · rw [hsent]
    have := h.room
    omega
  · rw [hsent, (hagree.mono le_rfl (by omega)).readBytes, hread]

theorem Ready.stable (h : Ready x m w cur tail) (hsent : x'.sent = x.sent)
    (hfin : x'.fin = x.fin) (hrel : x.released ≤ x'.released)
    (hagree : AgreeOn m' m (g.dataOffset x.sent.length) g.segmentSize) :
    Ready x' m' w cur tail :=
  ⟨h.toHolding.stable hsent hfin hrel hagree, by rw [hsent, h.header], h.calls⟩

/-- The invariant does not mind what the consumer does: it depends on memory only through
the data of the segment held. -/
theorem Inv.stable {program : List UInt8} (h : Inv g program x m w) (hsent : x'.sent = x.sent)
    (hfin : x'.fin = x.fin) (hrel : x.released ≤ x'.released)
    (hagree : x.sent.length < x.released + g.segments →
      AgreeOn m' m (g.dataOffset x.sent.length) g.segmentSize) : Inv g program x' m' w := by
  refine ⟨h.segmentSize, h.program_eq, h.spare, by rw [hsent, hfin]; exact h.single,
    by rw [hsent, hfin]; exact h.blocks, ?_⟩
  obtain ⟨cur, happ, hstate⟩ := h.state
  refine ⟨cur, by rw [hsent, happ], ?_⟩
  have hhold : ∀ {tail}, Holding x m w cur tail → Holding x' m' w cur tail :=
    fun hh => hh.stable hsent hfin hrel (hagree hh.room)
  have hready : ∀ {tail}, Ready x m w cur tail → Ready x' m' w cur tail :=
    fun hh => hh.stable hsent hfin hrel (hagree hh.room)
  have hfinished : Finished x w cur → Finished x' w cur :=
    fun hh => ⟨by rw [hfin, hh.fin], by rw [hsent]; exact hh.nonempty, hh.cur_nil, hh.queue,
      hh.calls, by rw [hsent]; exact hh.offset,
      by rw [hsent, RingGeometry.sentHeader_congr hsent hfin]; exact hh.header, hh.size⟩
  have hwaiting : ∀ {next}, Waiting x w cur next → Waiting x' w cur next :=
    fun hh => ⟨hh.multi, by rw [hfin, hh.unfinished], hh.cur_nil, by rw [hsent, hh.next_eq],
      hh.calls⟩
  unfold State at hstate ⊢
  rw [hsent]
  cases hpc : w.pc with
  | constructing =>
    simp only [hpc] at hstate ⊢
    exact ⟨hhold hstate.1, hstate.2⟩
  | constructed =>
    simp only [hpc] at hstate ⊢
    exact hstate.imp (fun hh => ⟨hhold hh.1, hh.2⟩) hready
  | flush data after =>
    simp only [hpc] at hstate ⊢
    exact ⟨hstate.1, hstate.2.1, hstate.2.2.imp hready fun hh => ⟨hready hh.1, hh.2⟩⟩
  | getNextSegment data rest =>
    simp only [hpc] at hstate ⊢
    exact ⟨hready hstate.1, hstate.2⟩
  | handOver next data rest =>
    simp only [hpc] at hstate ⊢
    exact ⟨hstate.1, hstate.2.imp (fun hh => ⟨hhold hh.1, hh.2⟩) fun hh => ⟨hwaiting hh.1, hh.2⟩⟩
  | poll next data rest =>
    simp only [hpc] at hstate ⊢
    refine ⟨hstate.1, hwaiting hstate.2.1, hstate.2.2.imp id fun hh => ⟨hh.1, fun hw => ?_, hh.2.2⟩⟩
    obtain ⟨hheader, hroom⟩ := hh.2.1 hw
    exact ⟨hheader, by omega⟩
  | closing =>
    simp only [hpc] at hstate ⊢
    exact hstate.imp (fun hh => ⟨hhold hh.1, hh.2⟩) hfinished
  | closed =>
    simp only [hpc] at hstate ⊢
    exact hfinished hstate
  | _ =>
    simp only [hpc] at hstate ⊢
    exact hready hstate

theorem Holding.postData (h : Holding x m w cur []) {offset : ℕ} {data : List UInt8}
    (after : AfterWrite) (hoffset : offset = w.internalOffset ∨ w.queue = [])
    (hfits : cur.length + data.length ≤ g.segmentSize) :
    Holding x m (w.postData offset data after) (cur ++ data) [] := by
  obtain ⟨landed, rest, ops, hcur, hqueue, hread, hposted⟩ := h.queue
  rw [List.append_nil] at hqueue
  have hsize : w.sizeUsed = landed.length + rest.length := by
    rw [h.size, hcur, List.length_append]
  have hremote : w.segmentOffset + w.sizeUsed + segmentHeaderSize =
      g.dataOffset x.sent.length + (landed.length + rest.length) := by
    rw [h.offset, hsize]
    unfold RingGeometry.dataOffset
    omega
  refine ⟨h.room, h.unfinished, h.offset, ?_, ?_, landed, rest ++ data,
    ops ++ [.writeData (g.dataOffset x.sent.length + (landed.length + rest.length)) offset
      data.length], ?_, ?_, hread, ?_⟩
  · simp [BufferWriterBW.postData, h.size]
  · simpa using hfits
  · rw [hcur, List.append_assoc]
  · simp only [BufferWriterBW.postData, hqueue, hremote, List.append_nil]
  · rcases hoffset with rfl | hnil
    · exact hposted.concat
    · -- the queue is empty, so nothing refers to the internal buffer any more
      have hops : ops = [] := hqueue.symm.trans hnil
      subst hops
      rw [show rest = [] from hposted]
      exact ⟨rfl, le_rfl, [], by simp [BufferWriterBW.postData, readBytes_writeBytes], rfl⟩

theorem Ready.postData (h : Ready x m w cur []) {offset : ℕ} {data : List UInt8}
    (after : AfterWrite) (hoffset : offset = w.internalOffset ∨ w.queue = [])
    (hfits : cur.length + data.length ≤ g.segmentSize) :
    Ready x m (w.postData offset data after) (cur ++ data) [] :=
  ⟨h.toHolding.postData after hoffset hfits, h.header, h.calls⟩

theorem Holding.post (h : Holding x m w cur []) (op : RemoteOp) (header : SegmentHeader)
    (calls : List WriterCall) (pc : WriterPc) :
    Holding x m ({ w with header, calls }.post op pc) cur [op] := by
  obtain ⟨landed, rest, ops, hcur, hqueue, hread, hposted⟩ := h.queue
  refine ⟨h.room, h.unfinished, h.offset, h.size, h.fits, landed, rest, ops, hcur, ?_, hread,
    hposted⟩
  simp [BufferWriterBW.post, hqueue]

theorem Ready.withPc (h : Ready x m w cur tail) (pc : WriterPc) :
    Ready x m { w with pc } cur tail :=
  ⟨⟨h.room, h.unfinished, h.offset, h.size, h.fits, h.queue⟩, h.header, h.calls⟩

theorem state_after (h : Ready x m w cur []) {after : AfterWrite} (hpc : w.pc = after.pc)
    (hfills : after.Fills g cur.length) : State x m w cur := by
  unfold State
  rw [hpc]
  cases after with
  | split data rest => exact ⟨h, hfills⟩
  | done rest => cases rest <;> exact h

theorem Inv.update {program : List UInt8} (h : Inv g program x m w) {w' : BufferWriterBW}
    (hseg : w'.segmentSize = w.segmentSize)
    (hprogram : w'.appended ++ w'.calls.flatMap WriterCall.bytes =
      w.appended ++ w.calls.flatMap WriterCall.bytes)
    (hstate : ∃ cur, w'.appended = x.sent.flatten ++ cur ++ w'.pc.pending ∧ State x m w' cur) :
    Inv g program x m w' :=
  ⟨hseg.trans h.segmentSize, hprogram.trans h.program_eq, h.spare, h.single, h.blocks, hstate⟩

theorem Inv.writeToSegment {program : List UInt8} (h : Inv g program x m w)
    (hready : Ready x m w cur []) {data : List UInt8} {after : AfterWrite}
    (happ : w.appended = x.sent.flatten ++ cur ++ (data ++ after.pending))
    (hfits : cur.length + data.length ≤ g.segmentSize)
    (hfills : after.Fills g (cur.length + data.length)) :
    Inv g program x m (w.writeToSegment data after) := by
  unfold BufferWriterBW.writeToSegment
  split_ifs with hroom
  · refine h.update rfl rfl ⟨cur ++ data, ?_, ?_⟩
    · rw [show (w.postData w.internalOffset data after).pc = after.pc from rfl,
        AfterWrite.pending_pc, show (w.postData w.internalOffset data after).appended =
        w.appended from rfl, happ]
      simp only [List.append_assoc]
    · refine state_after (hready.postData after (Or.inl rfl) hfits) rfl ?_
      rwa [List.length_append]
  · refine h.update rfl rfl ⟨cur, happ, hfits, hfills, Or.inl ?_⟩
    refine ⟨?_, hready.header, hready.calls⟩
    rw [← hready.offset]
    exact hready.toHolding.post _ w.header w.calls _

theorem Inv.superAppend {program : List UInt8} (h : Inv g program x m w)
    (hready : Ready x m w cur []) {data : List UInt8} {rest : Option (List UInt8)}
    (happ : w.appended = x.sent.flatten ++ cur ++ (data ++ rest.getD [])) :
    Inv g program x m (w.superAppend data rest) := by
  have hsize := hready.size
  have hcur := hready.fits
  have hseg := h.segmentSize
  have hmulti : w.segmentSize < w.sizeUsed + data.length → 2 ≤ g.segments := by
    intro hsplit
    refine h.spare.resolve_right fun hle => ?_
    rw [← h.program_eq, happ] at hle
    simp only [List.length_append] at hle
    omega
  by_cases hsplit : w.segmentSize < w.sizeUsed + data.length
  · by_cases hpart : 0 < w.segmentSize - w.sizeUsed
    · -- the first part fills the segment
      have heq : w.superAppend data rest =
          w.writeToSegment (data.take (w.segmentSize - w.sizeUsed))
            (.split (data.drop (w.segmentSize - w.sizeUsed)) rest) := by
        simp [BufferWriterBW.superAppend, hsplit, hpart]
      rw [heq]
      have hfull : cur.length + (data.take (w.segmentSize - w.sizeUsed)).length =
          g.segmentSize := by
        rw [List.length_take]
        omega
      refine h.writeToSegment hready ?_ hfull.le ⟨hmulti hsplit, hfull, ?_⟩
      · simp only [AfterWrite.pending, ← List.append_assoc, List.take_append_drop, happ]
      · rw [ne_eq, List.drop_eq_nil_iff]
        omega
    · have heq : w.superAppend data rest = { w with pc := .getNextSegment data rest } := by
        simp [BufferWriterBW.superAppend, hsplit, hpart]
      rw [heq]
      refine h.update rfl rfl ⟨cur, happ, hready.withPc _, hmulti hsplit, by omega, ?_⟩
      rintro rfl
      simp only [List.length_nil] at hsplit
      omega
  · have heq : w.superAppend data rest = w.writeToSegment data (.done rest) := by
      simp [BufferWriterBW.superAppend, hsplit]
    rw [heq]
    exact h.writeToSegment hready happ (by omega) trivial

/-- A call begins: its bytes are still to be written. -/
theorem Inv.nextCall {program : List UInt8} (h : Inv g program x m w)
    (hpc : w.pc = .idle ∨ w.pc = .closed) {w' : BufferWriterBW} (hstep : w.nextCall = some w') :
    Inv g program x m w' := by
  obtain ⟨cur, happ, hstate⟩ := h.state
  have hpending : w.pc.pending = [] := by rcases hpc with hpc | hpc <;> rw [hpc] <;> rfl
  rw [hpending, List.append_nil] at happ
  rcases hpc with hpc | hpc
  · have hready : Ready x m w cur [] := by
      unfold State at hstate
      rw [hpc] at hstate
      exact hstate
    obtain ⟨appends, hcalls⟩ := hready.calls
    cases appends with
    | nil =>
      simp only [List.map_nil, List.nil_append] at hcalls
      simp only [BufferWriterBW.nextCall, hcalls, Option.some.injEq] at hstep
      subst hstep
      refine h.update rfl (by simp [BufferWriterBW.post, hcalls, WriterCall.bytes])
        ⟨cur, by simpa [BufferWriterBW.post, WriterPc.pending] using happ, Or.inl ⟨?_, rfl, ?_⟩⟩
      · rw [← hready.offset]
        exact hready.toHolding.post _ w.closedHeader [] _
      · simp [BufferWriterBW.post, closedHeader, hready.header, hready.size,
          RingGeometry.freeHeader, SegmentHeader.setWriteable, SegmentHeader.setConsumable,
          SegmentHeader.markEndSegment]
    | cons data appends =>
      simp only [List.map_cons, List.cons_append] at hcalls
      simp only [BufferWriterBW.nextCall, hcalls, Option.some.injEq] at hstep
      subst hstep
      refine h.update rfl ?_ ⟨cur, ?_, ?_⟩
      · simp [hcalls, WriterCall.bytes]
      · simp [happ, WriterPc.pending]
      · exact ⟨⟨hready.room, hready.unfinished, hready.offset, hready.size, hready.fits,
          hready.queue⟩, hready.header, appends, rfl⟩
  · have hfinished : Finished x w cur := by
      unfold State at hstate
      rw [hpc] at hstate
      exact hstate
    simp [BufferWriterBW.nextCall, hfinished.calls] at hstep

theorem Inv.step {program : List UInt8} (h : Inv g program x m w) {w' : BufferWriterBW}
    (hstep : w.step = some w') : Inv g program x m w' := by
  obtain ⟨cur, happ, hstate⟩ := h.state
  unfold State at hstate
  cases hpc : w.pc with
  | constructing =>
    simp only [hpc] at hstate
    simp only [BufferWriterBW.step, hpc, Option.some.injEq] at hstep
    subst hstep
    rw [hpc] at happ
    refine h.update rfl rfl ⟨cur, happ, Or.inl ⟨?_, hstate.2⟩⟩
    rw [← hstate.1.offset]
    exact hstate.1.post _ w.header w.calls _
  | constructed =>
    simp only [hpc] at hstate
    simp only [BufferWriterBW.step, hpc] at hstep
    split_ifs at hstep with hqueue
    cases hstep
    rcases hstate with ⟨hhold, -⟩ | hready
    · obtain ⟨landed, rest, ops, -, hq, -⟩ := hhold.queue
      simp [hqueue] at hq
    · rw [hpc] at happ
      exact h.update rfl rfl ⟨cur, happ, hready.withPc _⟩
  | idle =>
    simp only [BufferWriterBW.step, hpc] at hstep
    exact h.nextCall (Or.inl hpc) hstep
  | append data =>
    simp only [hpc] at hstate
    rw [hpc] at happ
    simp only [BufferWriterBW.step, hpc] at hstep
    split_ifs at hstep
    · cases hstep
      refine h.update rfl rfl ⟨cur, ?_, hstate.withPc _⟩
      simpa [WriterPc.pending] using happ
    · cases hstep
      refine h.update rfl rfl ⟨cur, ?_, hstate.withPc _⟩
      simpa [WriterPc.pending] using happ
  | superAppend data rest =>
    simp only [hpc] at hstate
    rw [hpc] at happ
    simp only [BufferWriterBW.step, hpc, Option.some.injEq] at hstep
    subst hstep
    exact h.superAppend hstate happ
  | flush data after =>
    simp only [hpc] at hstate
    rw [hpc] at happ
    simp only [BufferWriterBW.step, hpc] at hstep
    split_ifs at hstep with hqueue
    cases hstep
    obtain ⟨hfits, hfills, hready | ⟨hready, -⟩⟩ := hstate
    · obtain ⟨landed, rest, ops, -, hq, -⟩ := hready.queue
      simp [hqueue] at hq
    · refine h.update rfl rfl ⟨cur ++ data, ?_, ?_⟩
      · rw [show (w.postData 0 data after).pc = after.pc from rfl, AfterWrite.pending_pc,
          show (w.postData 0 data after).appended = w.appended from rfl, happ]
        simp [WriterPc.pending]
      · refine state_after (hready.postData after (Or.inr hqueue) hfits) rfl ?_
        rwa [List.length_append]
  | getNextSegment data rest =>
    simp only [hpc] at hstate
    rw [hpc] at happ
    simp only [BufferWriterBW.step, hpc, Option.some.injEq] at hstep
    subst hstep
    obtain ⟨hready, hmulti, hfull, hdata⟩ := hstate
    refine h.update rfl rfl ⟨cur, happ, hdata, Or.inl ⟨?_, hready.calls, hmulti, hfull, ?_, ?_⟩⟩
    · rw [← hready.offset]
      exact hready.toHolding.post _ w.consumableHeader w.calls _
    · simp [BufferWriterBW.post, consumableHeader, hready.header, hready.size,
        RingGeometry.freeHeader, SegmentHeader.setWriteable, SegmentHeader.setConsumable]
    · rw [hready.header]
      rfl
  | handOver next data rest =>
    simp only [hpc] at hstate
    rw [hpc] at happ
    simp only [BufferWriterBW.step, hpc] at hstep
    split_ifs at hstep with hqueue
    cases hstep
    obtain ⟨hdata, ⟨hhold, -⟩ | ⟨hwaiting, -⟩⟩ := hstate
    · obtain ⟨landed, rest, ops, -, hq, -⟩ := hhold.queue
      simp [hqueue] at hq
    · refine h.update rfl rfl ⟨cur, happ, hdata, hwaiting.congr rfl, Or.inl ?_⟩
      simp [BufferWriterBW.post, hqueue]
  | poll next data rest =>
    simp only [hpc] at hstate
    rw [hpc] at happ
    obtain ⟨hdata, hwaiting, hqueue'⟩ := hstate
    simp only [BufferWriterBW.step, hpc] at hstep
    split_ifs at hstep with hqueue hwriteable
    · cases hstep
      obtain ⟨-, hread, -⟩ := hqueue'.resolve_left (by simp [hqueue])
      obtain ⟨hheader, hroom⟩ := hread hwriteable
      have hcur := hwaiting.cur_nil
      refine h.update rfl rfl ⟨cur, happ, ⟨hroom, hwaiting.unfinished, hwaiting.next_eq, ?_, ?_,
        [], [], [], ?_, ?_, rfl, rfl⟩, hheader, hwaiting.calls⟩
      · rw [hcur]
        rfl
      · rw [hcur]
        exact Nat.zero_le _
      · rw [hcur, List.append_nil]
      · simp [hqueue]
    · cases hstep
      refine h.update rfl rfl ⟨cur, happ, hdata, hwaiting.congr rfl, Or.inl ?_⟩
      simp [BufferWriterBW.post, hqueue]
  | closing =>
    simp only [hpc] at hstate
    simp only [BufferWriterBW.step, hpc] at hstep
    split_ifs at hstep with hqueue
    cases hstep
    rcases hstate with ⟨hhold, -⟩ | hfinished
    · obtain ⟨landed, rest, ops, -, hq, -⟩ := hhold.queue
      simp [hqueue] at hq
    · rw [hpc] at happ
      exact h.update rfl rfl ⟨cur, happ,
        hfinished.fin, hfinished.nonempty, hfinished.cur_nil, hfinished.queue, hfinished.calls,
        hfinished.offset, hfinished.header, hfinished.size⟩
  | closed =>
    simp only [BufferWriterBW.step, hpc] at hstep
    exact h.nextCall (Or.inr hpc) hstep

/-- The operation at the head of the queue is a data write into the segment held, or the
first of the tail, and then the whole segment is in memory. -/
theorem Holding.head (h : Holding x m w cur tail) {op : RemoteOp} {queue : List RemoteOp}
    (hqueue : w.queue = op :: queue) :
    (∃ remote src len, op = .writeData remote src len ∧
      Holding x (writeBytes m remote (readBytes w.internalBuffer src len)) { w with queue } cur
        tail ∧
      ∀ start size, start + size ≤ g.dataOffset x.sent.length ∨
        g.dataOffset x.sent.length + g.segmentSize ≤ start →
        AgreeOn (writeBytes m remote (readBytes w.internalBuffer src len)) m start size) ∨
      tail = op :: queue ∧ readBytes m (g.dataOffset x.sent.length) cur.length = cur := by
  obtain ⟨landed, rest, ops, hcur, hq, hread, hposted⟩ := h.queue
  rw [hqueue] at hq
  cases ops with
  | nil =>
    refine Or.inr ⟨hq.symm, ?_⟩
    rw [show rest = [] from hposted, List.append_nil] at hcur
    rwa [hcur]
  | cons op' ops =>
    obtain ⟨rfl, rfl⟩ := List.cons.inj hq
    cases op with
    | writeHeader remote => exact hposted.elim
    | readHeader remote => exact hposted.elim
    | writeData remote src len =>
      obtain ⟨rfl, -, rest', rfl, hposted'⟩ := hposted
      have hlen := congrArg List.length hcur
      simp only [List.length_append, length_readBytes] at hlen
      have hfits := h.fits
      have hwritten : ∀ start size, start + size ≤ g.dataOffset x.sent.length + landed.length ∨
          g.dataOffset x.sent.length + landed.length + len ≤ start →
          AgreeOn (writeBytes m (g.dataOffset x.sent.length + landed.length)
            (readBytes w.internalBuffer src len)) m start size :=
        fun start size hout => agreeOn_writeBytes (by rw [length_readBytes]; exact hout)
      refine Or.inl ⟨_, src, len, rfl, ⟨h.room, h.unfinished, h.offset, h.size, h.fits,
        landed ++ readBytes w.internalBuffer src len, rest', ops, ?_, rfl, ?_, ?_⟩,
        fun start size hout => hwritten start size (by omega)⟩
      · rw [hcur, List.append_assoc]
      · rw [List.length_append, readBytes_add, (hwritten _ _ (Or.inl le_rfl)).readBytes, hread]
        congr 1
        have hsame := readBytes_writeBytes m (g.dataOffset x.sent.length + landed.length)
          (readBytes w.internalBuffer src len)
        rwa [length_readBytes] at hsame ⊢
      · rw [List.length_append, length_readBytes]
        exact hposted'

/-- The rings on which the segment to be returned next may be looked at. -/
theorem Inv.window {program : List UInt8} (h : Inv g program x m w) :
    x.returned < x.released + g.segments ∨ x.fin = true ∧ x.returned = x.sent.length := by
  by_cases hmulti : 2 ≤ g.segments
  · exact Or.inl (x.returned_lt_window hmulti)
  · have hpos := g.segments_pos
    have hret := x.returned_le
    have hle := x.returned_le_sent
    have hsent := x.sent_le
    have hrel := x.released_le
    by_cases hheld : x.returned = x.released
    · exact Or.inl (by omega)
    · refine Or.inr ⟨h.single (by omega) fun hnil => ?_, by omega⟩
      rw [hnil, List.length_nil] at hle
      omega

section

variable {stage : MarkStep} {made : Option ℕ} {w' : BufferWriterBW}

/-- The header of the slot after the blocks sent, as long as there is room. -/
theorem readHeader_next (hshows : g.Shows .bw x stage m)
    (hroom : x.sent.length < x.released + g.segments) :
    readHeader m (g.slot x.sent.length) = g.freeHeader x.sent.length := by
  rw [hshows.header _ (x.released_le.trans x.returned_le_sent) hroom,
    RingGeometry.expectedHeader, if_neg (Nat.lt_irrefl _)]

/-- On a full ring that slot is the one held by the consumer or not yet taken: it does not
become writeable before the last statement of `mark_prev_segment`. -/
theorem not_writeable_of_full (hshows : g.Shows .bw x stage m) (hcredit : stage ≠ .credit)
    (hfin : x.fin = false) (hfull : x.sent.length = x.released + g.segments) :
    (readHeader m (g.slot x.sent.length)).isWriteable = false := by
  have hpos := g.segments_pos
  have hsent : g.sentHeader .bw x x.released =
      ⟨(x.sent.getD x.released []).length, g.slot (x.released + 1), 0b0010⟩ := by
    unfold RingGeometry.sentHeader
    rw [if_neg (by simp [hfin])]
    rfl
  rw [hfull, g.slot_add_segments, hshows.header _ le_rfl (by omega), RingGeometry.expectedHeader,
    if_pos (by omega), hsent]
  split_ifs
  · cases stage with
    | credit => exact absurd rfl hcredit
    | _ => simp [MarkStep.applied, SegmentHeader.setConsumable, SegmentHeader.isWriteable]
  · simp [SegmentHeader.isWriteable]

/-- The queue pair writes a part of the current segment, or turns to the tail. -/
theorem Holding.nic (h : Holding x m w cur tail) (hshows : g.Shows .bw x stage m)
    (hstep : w.nic m = some (m', w', made)) :
    (∃ queue, w' = { w with queue } ∧ made = none ∧ Holding x m' w' cur tail ∧
      g.Shows .bw x stage m' ∧ ∀ start len, start + len ≤ g.slot x.sent.length ∨
        g.slot x.sent.length + g.fullSize ≤ start → AgreeOn m' m start len) ∨
      ∃ op queue, w.queue = op :: queue ∧ tail = op :: queue ∧
        readBytes m (g.dataOffset x.sent.length) cur.length = cur := by
  cases hqueue : w.queue with
  | nil => simp [BufferWriterBW.nic, hqueue] at hstep
  | cons op queue =>
    rcases h.head hqueue with ⟨remote, src, len, rfl, hhold, hagree⟩ | ⟨htail, hread⟩
    · simp only [BufferWriterBW.nic, hqueue, Option.some.injEq, Prod.mk.injEq] at hstep
      obtain ⟨rfl, rfl, rfl⟩ := hstep
      refine Or.inl ⟨queue, rfl, rfl, hhold, hshows.fill h.room hagree (by simp), ?_⟩
      intro start len' hout
      refine hagree _ _ ?_
      unfold RingGeometry.dataOffset
      unfold RingGeometry.fullSize at hout
      omega
    · exact Or.inr ⟨op, queue, rfl, htail, hread⟩

/-- With the tail executed, the whole segment is in memory. -/
theorem Holding.executed (h : Holding x m w cur tail) (hqueue : w'.queue = [])
    (hread : readBytes m (g.dataOffset x.sent.length) cur.length = cur)
    (hoffset : w'.segmentOffset = w.segmentOffset) (hsize : w'.sizeUsed = w.sizeUsed) :
    Holding x m w' cur [] :=
  ⟨h.room, h.unfinished, by rw [hoffset, h.offset], by rw [hsize, h.size], h.fits,
    cur, [], [], (List.append_nil _).symm, by simp [hqueue], hread, rfl⟩

/-- The header write that hands over the current segment arrives. -/
theorem Holding.shows_land (h : Holding x m w cur tail) (hshows : g.Shows .bw x stage m)
    (hread : readBytes m (g.dataOffset x.sent.length) cur.length = cur) (last : Bool)
    (hheader : w.header = g.sentHeader .bw (x.land cur last h.room) x.sent.length) :
    g.Shows .bw (x.land cur last h.room) stage
        (writeHeader m (g.slot x.sent.length) w.header) ∧
      ∀ start len, start + len ≤ g.slot x.sent.length ∨
        g.slot x.sent.length + g.fullSize ≤ start →
        AgreeOn (writeHeader m (g.slot x.sent.length) w.header) m start len := by
  have hfits := h.fits
  have hfitsHeader : w.header.Fits := by
    have hsize := g.segmentSize_lt
    have hflag : (6 : ℕ) < sizeTBound := by
      unfold sizeTBound
      omega
    have hflag' : (2 : ℕ) < sizeTBound := by
      unfold sizeTBound
      omega
    rw [hheader]
    unfold RingGeometry.sentHeader
    simp only [LaggedRing.land_sent, List.getD_eq_getElem?_getD, List.getElem?_concat_length,
      Option.getD_some]
    split_ifs
    · exact ⟨by simp only; omega, g.slot_lt _, hflag⟩
    · exact ⟨by simp only; omega, g.slot_lt _, hflag'⟩
  have hagree : ∀ start len, start + len ≤ g.slot x.sent.length ∨
      g.slot x.sent.length + segmentHeaderSize ≤ start →
      AgreeOn (writeHeader m (g.slot x.sent.length) w.header) m start len :=
    fun start len hout => agreeOn_writeHeader hout
  have hslot : ∀ start len, start + len ≤ g.slot x.sent.length ∨
      g.slot x.sent.length + g.fullSize ≤ start →
      AgreeOn (writeHeader m (g.slot x.sent.length) w.header) m start len := by
    intro start len hout
    refine hagree _ _ ?_
    unfold RingGeometry.fullSize at hout
    omega
  refine ⟨hshows.land h.room h.unfinished hslot ?_ ?_ hfits (by simp), hslot⟩
  · rw [readHeader_writeHeader m _ hfitsHeader, hheader]
  · rw [(hagree _ _ (Or.inr (by unfold RingGeometry.dataOffset; omega))).readBytes, hread]

/-- An executed operation is a move of the protocol, and writes to the slot after the
blocks sent only, and only while there is room. -/
def Executed (g : RingGeometry) (program : List UInt8) (x : RingState g) (stage : MarkStep)
    (m m' : Mem) (w' : BufferWriterBW) (made : Option ℕ) : Prop :=
  ∃ x', NicMove x made x' ∧ g.Shows .bw x' stage m' ∧ Inv g program x' m' w' ∧
    ∀ start len, (x.sent.length < x.released + g.segments →
      start + len ≤ g.slot x.sent.length ∨ g.slot x.sent.length + g.fullSize ≤ start) →
      AgreeOn m' m start len

variable {program : List UInt8}

theorem Executed.stutter (hshows : g.Shows .bw x stage m) (h : Inv g program x m w') :
    Executed g program x stage m m w' none :=
  ⟨x, .stutter, hshows, h, fun _ _ _ => AgreeOn.refl _ _ _⟩

/-- The data writes do not depend on what follows them in the queue. -/
theorem Inv.nic_holding (h : Inv g program x m w) (hshows : g.Shows .bw x stage m)
    (hstep : w.nic m = some (m', w', made))
    (happ : w.appended = x.sent.flatten ++ cur ++ w.pc.pending) (hhold : Holding x m w cur tail)
    (hstate : w'.pc = w.pc → w'.header = w.header → w'.calls = w.calls →
      Holding x m' w' cur tail → State x m' w' cur)
    (htail : ∀ op queue, w.queue = op :: queue → tail = op :: queue →
      readBytes m (g.dataOffset x.sent.length) cur.length = cur →
      Executed g program x stage m m' w' made) : Executed g program x stage m m' w' made := by
  rcases hhold.nic hshows hstep with ⟨queue, rfl, rfl, hhold', hshows', hagree⟩ |
      ⟨op, queue, hqueue, heq, hread⟩
  · exact ⟨x, .stutter, hshows', ⟨h.segmentSize, h.program_eq, h.spare, h.single, h.blocks, cur,
      happ, hstate rfl rfl rfl hhold'⟩, fun start len hout => hagree start len (hout hhold.room)⟩
  · exact htail op queue hqueue heq hread

theorem Inv.nic_ready (h : Inv g program x m w) (hshows : g.Shows .bw x stage m)
    (hstep : w.nic m = some (m', w', made))
    (happ : w.appended = x.sent.flatten ++ cur ++ w.pc.pending) (hready : Ready x m w cur [])
    (hstate : w'.pc = w.pc → Ready x m' w' cur [] → State x m' w' cur) :
    Executed g program x stage m m' w' made := by
  refine h.nic_holding hshows hstep happ hready.toHolding (fun hpc hheader hcalls hhold => ?_)
    fun op queue _ htail => by simp at htail
  exact hstate hpc ⟨hhold, hheader.trans hready.header, hready.calls.congr hcalls⟩

/-- The constructor's read of the first header. -/
theorem Inv.nic_constructed (h : Inv g program x m w) (hshows : g.Shows .bw x stage m)
    (hstep : w.nic m = some (m', w', made))
    (happ : w.appended = x.sent.flatten ++ cur ++ w.pc.pending) (hpc : w.pc = .constructed)
    (hhold : Holding x m w cur [.readHeader (g.slot x.sent.length)]) (hcalls : w.CallsOpen) :
    Executed g program x stage m m' w' made := by
  refine h.nic_holding hshows hstep happ hhold (fun hpc' _ hcalls' hhold' => ?_)
    fun op queue hqueue htail hread => ?_
  · unfold State
    simp only [hpc', hpc]
    exact Or.inl ⟨hhold', hcalls.congr hcalls'⟩
  · obtain ⟨rfl, rfl⟩ := List.cons.inj htail
    simp only [BufferWriterBW.nic, hqueue, Option.some.injEq, Prod.mk.injEq] at hstep
    obtain ⟨rfl, rfl, rfl⟩ := hstep
    refine .stutter hshows (h.update rfl rfl ⟨cur, happ, ?_⟩)
    unfold State
    simp only [hpc]
    refine Or.inr ⟨?_, ?_, ?_⟩
    · exact hhold.executed rfl hread rfl rfl
    · exact readHeader_next hshows hhold.room
    · exact hcalls.congr rfl

/-- A flush writes the header that is in memory already. -/
theorem Inv.nic_flush (h : Inv g program x m w) (hshows : g.Shows .bw x stage m)
    (hstep : w.nic m = some (m', w', made))
    (happ : w.appended = x.sent.flatten ++ cur ++ w.pc.pending) {data : List UInt8}
    {after : AfterWrite} (hpc : w.pc = .flush data after)
    (hfits : cur.length + data.length ≤ g.segmentSize)
    (hfills : after.Fills g (cur.length + data.length))
    (hready : Ready x m w cur [.writeHeader (g.slot x.sent.length)]) :
    Executed g program x stage m m' w' made := by
  refine h.nic_holding hshows hstep happ hready.toHolding (fun hpc' hheader hcalls hhold => ?_)
    fun op queue hqueue htail hread => ?_
  · unfold State
    simp only [hpc', hpc]
    exact ⟨hfits, hfills, Or.inl ⟨hhold, hheader.trans hready.header, hready.calls.congr hcalls⟩⟩
  · obtain ⟨rfl, rfl⟩ := List.cons.inj htail
    simp only [BufferWriterBW.nic, hqueue, Option.some.injEq, Prod.mk.injEq] at hstep
    obtain ⟨rfl, rfl, rfl⟩ := hstep
    have hsame : writeHeader m (g.slot x.sent.length) w.header = m := by
      rw [hready.header, ← readHeader_next hshows hready.room, writeHeader_readHeader]
    have hquiet : w.header.isConsumable = false := by
      rw [hready.header]
      simp [RingGeometry.freeHeader, SegmentHeader.isConsumable]
    rw [hsame, hquiet]
    refine .stutter hshows (h.update rfl rfl ⟨cur, happ, ?_⟩)
    unfold State
    simp only [hpc]
    exact ⟨hfits, hfills, Or.inr ⟨⟨hready.toHolding.executed rfl hread rfl rfl, hready.header,
      hready.calls⟩, trivial⟩⟩

/-- The header write of `getNextSegment` sends the current segment. -/
theorem Inv.nic_handOver (h : Inv g program x m w) (hshows : g.Shows .bw x stage m)
    (hstep : w.nic m = some (m', w', made))
    (happ : w.appended = x.sent.flatten ++ cur ++ w.pc.pending) {next : ℕ} {data : List UInt8}
    {rest : Option (List UInt8)} (hpc : w.pc = .handOver next data rest)
    (hhold : Holding x m w cur [.writeHeader (g.slot x.sent.length)]) (hcalls : w.CallsOpen)
    (hdata : data ≠ []) (hmulti : 2 ≤ g.segments) (hfull : cur.length = g.segmentSize)
    (hheader : w.header = ⟨cur.length, g.slot (x.sent.length + 1), 0b0010⟩)
    (hnext : next = g.slot (x.sent.length + 1)) : Executed g program x stage m m' w' made := by
  refine h.nic_holding hshows hstep happ hhold (fun hpc' hheader' hcalls' hhold' => ?_)
    fun op queue hqueue htail hread => ?_
  · unfold State
    simp only [hpc', hpc]
    exact ⟨hdata, Or.inl ⟨hhold', hcalls.congr hcalls', hmulti, hfull, hheader'.trans hheader,
      hnext⟩⟩
  · obtain ⟨rfl, rfl⟩ := List.cons.inj htail
    simp only [BufferWriterBW.nic, hqueue, Option.some.injEq, Prod.mk.injEq] at hstep
    obtain ⟨rfl, rfl, rfl⟩ := hstep
    obtain ⟨hland, hagree⟩ := hhold.shows_land hshows hread false (by
      rw [hheader]
      simp [RingGeometry.sentHeader, RingGeometry.sentFlags, List.getD_eq_getElem?_getD])
    have hmade : w.header.isConsumable = true := by
      rw [hheader]
      simp [SegmentHeader.isConsumable]
    rw [hmade]
    refine ⟨_, .land cur false hhold.room hhold.unfinished, hland, ⟨h.segmentSize,
      h.program_eq, h.spare, fun hsingle => absurd hmulti (Nat.not_le.mpr hsingle), ?_, [], ?_, ?_⟩,
      fun start len hout => hagree start len (hout hhold.room)⟩
    · rintro - block hblock
      rcases List.mem_append.mp hblock with hblock | hblock
      · exact h.blocks hhold.unfinished block hblock
      · rw [List.mem_singleton.mp hblock, hfull]
    · rw [LaggedRing.land_sent, List.flatten_concat, List.append_nil]
      exact happ
    · unfold State
      simp only [hpc]
      refine ⟨hdata, Or.inr ⟨⟨hmulti, rfl, rfl, ?_, hcalls⟩, trivial⟩⟩
      rw [hnext, LaggedRing.land_sent, List.length_append, List.length_singleton]

/-- The header write of `close` sends the current segment as the final one. -/
theorem Inv.nic_closing (h : Inv g program x m w) (hshows : g.Shows .bw x stage m)
    (hstep : w.nic m = some (m', w', made))
    (happ : w.appended = x.sent.flatten ++ cur ++ w.pc.pending) (hpc : w.pc = .closing)
    (hhold : Holding x m w cur [.writeHeader (g.slot x.sent.length)]) (hcalls : w.calls = [])
    (hheader : w.header = ⟨cur.length, g.slot (x.sent.length + 1), 0b0110⟩) :
    Executed g program x stage m m' w' made := by
  refine h.nic_holding hshows hstep happ hhold (fun hpc' hheader' hcalls' hhold' => ?_)
    fun op queue hqueue htail hread => ?_
  · unfold State
    simp only [hpc', hpc]
    exact Or.inl ⟨hhold', hcalls'.trans hcalls, hheader'.trans hheader⟩
  · obtain ⟨rfl, rfl⟩ := List.cons.inj htail
    simp only [BufferWriterBW.nic, hqueue, Option.some.injEq, Prod.mk.injEq] at hstep
    obtain ⟨rfl, rfl, rfl⟩ := hstep
    have hsealed : w.header = g.sentHeader .bw (x.land cur true hhold.room) x.sent.length := by
      rw [hheader]
      simp [RingGeometry.sentHeader, List.getD_eq_getElem?_getD]
    obtain ⟨hland, hagree⟩ := hhold.shows_land hshows hread true hsealed
    have hmade : w.header.isConsumable = true := by
      rw [hheader]
      simp [SegmentHeader.isConsumable]
    rw [hmade]
    refine ⟨_, .land cur true hhold.room hhold.unfinished, hland, ⟨h.segmentSize,
      h.program_eq, h.spare, fun _ _ => rfl, fun hfin => Bool.noConfusion hfin, [], ?_, ?_⟩,
      fun start len hout => hagree start len (hout hhold.room)⟩
    · rw [LaggedRing.land_sent, List.flatten_concat, List.append_nil]
      exact happ
    · unfold State
      simp only [hpc]
      have hlast : (x.land cur true hhold.room).sent.length - 1 = x.sent.length := by simp
      refine Or.inr ⟨rfl, by simp, rfl, rfl, hcalls, ?_, ?_, ?_⟩
      · rw [hlast]
        exact hhold.offset
      · rw [hlast]
        exact hsealed
      · rw [hheader]
        exact hhold.size

/-- The poll sees the next header: it is writeable only if there is room. -/
theorem Inv.nic_poll (h : Inv g program x m w) (hshows : g.Shows .bw x stage m)
    (hcredit : stage ≠ .credit) (hstep : w.nic m = some (m', w', made))
    (happ : w.appended = x.sent.flatten ++ cur ++ w.pc.pending) {next : ℕ} {data : List UInt8}
    {rest : Option (List UInt8)} (hpc : w.pc = .poll next data rest) (hdata : data ≠ [])
    (hwaiting : Waiting x w cur next) (hqueue : w.queue = [.readHeader next]) :
    Executed g program x stage m m' w' made := by
  simp only [BufferWriterBW.nic, hqueue, Option.some.injEq, Prod.mk.injEq] at hstep
  obtain ⟨rfl, rfl, rfl⟩ := hstep
  refine .stutter hshows (h.update rfl rfl ⟨cur, happ, ?_⟩)
  unfold State
  simp only [hpc]
  refine ⟨hdata, hwaiting.congr rfl, Or.inr ⟨trivial, ?_⟩⟩
  rw [hwaiting.next_eq]
  rcases Nat.lt_or_ge x.sent.length (x.released + g.segments) with hroom | hfull
  · rw [readHeader_next hshows hroom]
    exact ⟨fun _ => ⟨rfl, hroom⟩, fun htaken => by
      simp [RingGeometry.freeHeader, SegmentHeader.isWriteable] at htaken⟩
  · rw [not_writeable_of_full hshows hcredit hwaiting.unfinished (x.sent_le.antisymm hfull)]
    exact ⟨fun hwriteable => Bool.noConfusion hwriteable,
      fun _ => (Nat.le_add_left _ _).trans hfull⟩

/-- An executed operation is a move of the protocol: a data write or a header flush is
none, a header write of `getNextSegment` or `close` sends the current segment. -/
theorem Inv.nic (h : Inv g program x m w) (hshows : g.Shows .bw x stage m)
    (hcredit : stage ≠ .credit) (hstep : w.nic m = some (m', w', made)) :
    Executed g program x stage m m' w' made := by
  obtain ⟨cur, happ, hstate⟩ := h.state
  have hidle : w.queue ≠ [] := by
    intro hqueue
    simp [BufferWriterBW.nic, hqueue] at hstep
  unfold State at hstate
  cases hpc : w.pc with
  | constructing =>
    simp only [hpc] at hstate
    refine h.nic_holding hshows hstep happ hstate.1 (fun hpc' _ hcalls hhold => ?_)
      fun op queue _ htail => by simp at htail
    unfold State
    simp only [hpc', hpc]
    exact ⟨hhold, hstate.2.congr hcalls⟩
  | constructed =>
    simp only [hpc] at hstate
    rcases hstate with ⟨hhold, hcalls⟩ | hready
    · exact h.nic_constructed hshows hstep happ hpc hhold hcalls
    · refine h.nic_ready hshows hstep happ hready fun hpc' hready' => ?_
      unfold State
      simp only [hpc', hpc]
      exact Or.inr hready'
  | flush data after =>
    simp only [hpc] at hstate
    obtain ⟨hfits, hfills, hready | ⟨-, hqueue⟩⟩ := hstate
    · exact h.nic_flush hshows hstep happ hpc hfits hfills hready
    · exact absurd hqueue hidle
  | getNextSegment data rest =>
    simp only [hpc] at hstate
    refine h.nic_ready hshows hstep happ hstate.1 fun hpc' hready' => ?_
    unfold State
    simp only [hpc', hpc]
    exact ⟨hready', hstate.2⟩
  | handOver next data rest =>
    simp only [hpc] at hstate
    obtain ⟨hdata, ⟨hhold, hcalls, hmulti, hfull, hheader, hnext⟩ | ⟨-, hqueue⟩⟩ := hstate
    · exact h.nic_handOver hshows hstep happ hpc hhold hcalls hdata hmulti hfull hheader hnext
    · exact absurd hqueue hidle
  | poll next data rest =>
    simp only [hpc] at hstate
    obtain ⟨hdata, hwaiting, hqueue | ⟨hqueue, -⟩⟩ := hstate
    · exact h.nic_poll hshows hcredit hstep happ hpc hdata hwaiting hqueue
    · exact absurd hqueue hidle
  | closing =>
    simp only [hpc] at hstate
    rcases hstate with ⟨hhold, hcalls, hheader⟩ | hfinished
    · exact h.nic_closing hshows hstep happ hpc hhold hcalls hheader
    · exact absurd hfinished.queue hidle
  | closed =>
    simp only [hpc] at hstate
    exact absurd hstate.queue hidle
  | _ =>
    simp only [hpc] at hstate
    refine h.nic_ready hshows hstep happ hstate fun hpc' hready' => ?_
    unfold State
    simp only [hpc', hpc]
    exact hready'

/-- A writer just constructed on a ring just built. -/
theorem inv_init (g : RingGeometry) (m : Mem) (internalBufferSize : ℕ)
    (appends : List (List UInt8))
    (hspare : 2 ≤ g.segments ∨ appends.flatten.length ≤ g.segmentSize) :
    Inv g appends.flatten (.empty _ _) m
      (init g.entry g.segmentSize internalBufferSize
        (appends.map WriterCall.append ++ [WriterCall.close])) := by
  have hbytes : (appends.map WriterCall.append ++ [WriterCall.close]).flatMap WriterCall.bytes =
      appends.flatten := by
    rw [List.flatMap_append, List.flatMap_map]
    simp [WriterCall.bytes, List.flatMap_id']
  refine ⟨rfl, ?_, hspare, fun _ h => absurd rfl h, fun _ _ h => absurd h List.not_mem_nil, [],
    rfl, ?_⟩
  · rw [show (init g.entry g.segmentSize internalBufferSize
      (appends.map WriterCall.append ++ [WriterCall.close])).appended = [] from rfl,
      List.nil_append]
    exact hbytes
  · refine ⟨⟨?_, rfl, g.slot_zero.symm, rfl, Nat.zero_le _, [], [], [], rfl, rfl, rfl, rfl⟩,
      appends, rfl⟩
    simp [g.segments_pos]

end

end BufferWriterBW
end DpiLibrary
