import DpiLibrary.Dpi.AllocatedRing
import DpiLibrary.Dpi.BandwidthRing
import DpiLibrary.Dpi.BandwidthStaging

/-!
# The bandwidth writer stays in its ring

The writer finds each segment through a pointer that it has read from a header, and the
headers it sends are copies of what it has read. Meanwhile the consumer may store any
counter and any flags in any header of the ring. Neither of them ever changes a pointer,
and so the writer goes round its own ring, however often it wraps.
-/

namespace DpiLibrary

/-- What happens to a ring: a step of its writer or of its queue pair, or a store of the consumer
to the counter or to the flags of a header. -/
inductive ChainMove where
  | writer
  | nic
  | counter (segment value : ℕ)
  | flags (segment : ℕ) (f : SegmentHeader → SegmentHeader)

/-- The memory of the node and a bandwidth writer. -/
structure ChainState where
  mem : Mem
  writer : BufferWriterBW

def ChainState.move (g : RingGeometry) (s : ChainState) : ChainMove → Option ChainState
  | .writer => s.writer.step.map fun writer => { s with writer }
  | .nic => (s.writer.nic s.mem).map fun r => ⟨r.1, r.2.1⟩
  | .counter segment value =>
    some { s with mem := setCounterAt s.mem (g.slot segment) value }
  | .flags segment f => some { s with mem := modifyFlagsAt s.mem (g.slot segment) f }

namespace BufferWriterBW

variable {g : RingGeometry} {p : ℕ} {m m' : Mem} {w w' : BufferWriterBW} {made : Option ℕ}

/-- Only data for segment `p` is queued, and the header at hand points behind it. -/
structure Writing (g : RingGeometry) (p : ℕ) (w : BufferWriterBW) : Prop where
  data : ∀ op ∈ w.queue, ∃ remote src len, op = .writeData remote src len ∧
    g.dataOffset p ≤ remote ∧ remote + len ≤ g.dataOffset p + g.segmentSize
  next : w.header.nextSegmentOffset = g.slot (p + 1)

/-- The header of segment `p` is queued behind data for it, or has been sent already. -/
def Sending (g : RingGeometry) (p : ℕ) (w : BufferWriterBW) : Prop :=
  ∃ ops, Writing g p { w with queue := ops } ∧
    (w.queue = ops ++ [.writeHeader (g.slot p)] ∨ ops = [] ∧ w.queue = [])

/-- What is queued at each place of the writer, and where the header at hand points to. -/
def OnChain (g : RingGeometry) (p : ℕ) (w : BufferWriterBW) : Prop :=
  match w.pc with
  | .constructing => w.queue = []
  | .constructed => w.queue = [.readHeader (g.slot p)] ∨ w.queue = [] ∧ Writing g p w
  | .flush data _ => Sending g p w ∧ w.sizeUsed + data.length ≤ g.segmentSize
  | .handOver next _ _ => Sending g p w ∧ next = g.slot (p + 1)
  | .poll next _ _ => next = g.slot (p + 1) ∧
    (w.queue = [.readHeader next] ∨ w.queue = [] ∧ Writing g (p + 1) w)
  | .closing => Sending g p w
  | .closed => w.queue = [] ∧ Writing g p w
  | _ => Writing g p w

/-- The writer is at segment `p` of the ring. -/
structure AtSegment (g : RingGeometry) (p : ℕ) (w : BufferWriterBW) : Prop where
  size : w.segmentSize = g.segmentSize
  offset : w.segmentOffset = g.slot p
  used : w.sizeUsed ≤ g.segmentSize
  chain : OnChain g p w

theorem Writing.congr (h : Writing g p w) (hqueue : w'.queue = w.queue)
    (hnext : w'.header.nextSegmentOffset = w.header.nextSegmentOffset) : Writing g p w' :=
  ⟨hqueue ▸ h.data, hnext ▸ h.next⟩

/-- A header sent while only data was queued. -/
theorem Writing.sending (h : Writing g p w)
    (hqueue : w'.queue = w.queue ++ [.writeHeader (g.slot p)])
    (hnext : w'.header.nextSegmentOffset = w.header.nextSegmentOffset) : Sending g p w' :=
  ⟨w.queue, h.congr rfl hnext, Or.inl hqueue⟩

theorem Sending.writing (h : Sending g p w) (hqueue : w.queue = []) : Writing g p w := by
  obtain ⟨ops, hops, hsend | ⟨rfl, -⟩⟩ := h
  · rw [hqueue] at hsend
    exact absurd hsend.symm (List.append_ne_nil_of_right_ne_nil ops (List.cons_ne_nil _ _))
  · exact hops.congr hqueue rfl

theorem Writing.onChain (h : Writing g p w) {after : AfterWrite} (hpc : w.pc = after.pc) :
    OnChain g p w := by
  unfold OnChain
  rcases after with ⟨data, rest⟩ | ⟨_ | data⟩ <;> rw [hpc] <;> exact h

theorem AtSegment.postData (h : AtSegment g p w) (hw : Writing g p w) (offset : ℕ)
    {data : List UInt8} (hfits : w.sizeUsed + data.length ≤ g.segmentSize) (after : AfterWrite) :
    AtSegment g p (w.postData offset data after) := by
  have hwriting : Writing g p (w.postData offset data after) := by
    refine ⟨fun op hop => ?_, hw.next⟩
    rcases List.mem_append.mp hop with hold | hnew
    · exact hw.data op hold
    · refine ⟨_, _, _, List.mem_singleton.mp hnew, ?_⟩
      rw [h.offset, RingGeometry.dataOffset]
      omega
  exact ⟨h.size, h.offset, hfits, hwriting.onChain rfl⟩

theorem AtSegment.writeToSegment (h : AtSegment g p w) (hw : Writing g p w) {data : List UInt8}
    (hfits : w.sizeUsed + data.length ≤ g.segmentSize) (after : AfterWrite) :
    AtSegment g p (w.writeToSegment data after) := by
  rcases w.writeToSegment_cases data after with ⟨-, heq⟩ | heq <;> rw [heq]
  · exact h.postData hw _ hfits after
  · refine ⟨h.size, h.offset, h.used, hw.sending ?_ rfl, hfits⟩
    rw [← h.offset]
    rfl

theorem AtSegment.superAppend (h : AtSegment g p w) (hw : Writing g p w) (data : List UInt8)
    (rest : Option (List UInt8)) : AtSegment g p (w.superAppend data rest) := by
  have hsize := h.size
  have hused := h.used
  unfold BufferWriterBW.superAppend
  split_ifs with hsplit
  · dsimp only
    split_ifs with hfirst
    · apply h.writeToSegment hw
      rw [List.length_take]
      omega
    · exact ⟨h.size, h.offset, h.used, hw.congr rfl rfl⟩
  · exact h.writeToSegment hw (by omega) _

theorem AtSegment.nextCall (h : AtSegment g p w) (hw : Writing g p w)
    (hcall : w.nextCall = some w') : AtSegment g p w' := by
  unfold BufferWriterBW.nextCall at hcall
  rcases hcalls : w.calls with _ | ⟨data | _, calls⟩ <;> rw [hcalls] at hcall <;> cases hcall
  · exact ⟨h.size, h.offset, h.used, hw.congr rfl rfl⟩
  · refine ⟨h.size, h.offset, h.used, hw.sending ?_ rfl⟩
    rw [← h.offset]
    rfl

/-- A step of the writer leaves it at its segment, or the poll has succeeded and takes it to the
next one. -/
theorem AtSegment.step (h : AtSegment g p w) (hstep : w.step = some w') :
    ∃ p', AtSegment g p' w' := by
  have hchain := h.chain
  unfold OnChain at hchain
  unfold BufferWriterBW.step at hstep
  cases hpc : w.pc with
  | constructing =>
    simp only [hpc, Option.some.injEq] at hstep hchain
    subst hstep
    refine ⟨p, h.size, h.offset, h.used, Or.inl ?_⟩
    simp only [post]
    rw [hchain, h.offset, List.nil_append]
  | constructed =>
    simp only [hpc] at hstep hchain
    split_ifs at hstep with hqueue
    cases hstep
    rcases hchain with hread | ⟨-, hw⟩
    · rw [hqueue] at hread
      cases hread
    · exact ⟨p, h.size, h.offset, h.used, hw.congr rfl rfl⟩
  | idle =>
    simp only [hpc] at hstep hchain
    exact ⟨p, h.nextCall hchain hstep⟩
  | append data =>
    simp only [hpc] at hstep hchain
    split_ifs at hstep <;> cases hstep <;>
      exact ⟨p, h.size, h.offset, h.used, hchain.congr rfl rfl⟩
  | superAppend data rest =>
    simp only [hpc, Option.some.injEq] at hstep hchain
    subst hstep
    exact ⟨p, h.superAppend hchain data rest⟩
  | flush data after =>
    simp only [hpc] at hstep hchain
    split_ifs at hstep with hqueue
    cases hstep
    exact ⟨p, h.postData (hchain.1.writing hqueue) 0 hchain.2 after⟩
  | getNextSegment data rest =>
    simp only [hpc, Option.some.injEq] at hstep hchain
    subst hstep
    refine ⟨p, h.size, h.offset, h.used, hchain.sending ?_ rfl, hchain.next⟩
    rw [← h.offset]
    rfl
  | handOver next data rest =>
    simp only [hpc] at hstep hchain
    split_ifs at hstep with hqueue
    cases hstep
    refine ⟨p, h.size, h.offset, h.used, hchain.2, Or.inl ?_⟩
    simp only [post]
    rw [hqueue, List.nil_append]
  | poll next data rest =>
    simp only [hpc] at hstep hchain
    obtain ⟨hnext, hread | ⟨-, hw⟩⟩ := hchain
    · simp [hread] at hstep
    · split_ifs at hstep with hqueue hwriteable <;> cases hstep
      · exact ⟨p + 1, h.size, hnext, Nat.zero_le _, hw.congr rfl rfl⟩
      · refine ⟨p, h.size, h.offset, h.used, hnext, Or.inl ?_⟩
        simp only [post]
        rw [hqueue, List.nil_append]
  | closing =>
    simp only [hpc] at hstep hchain
    split_ifs at hstep with hqueue
    cases hstep
    exact ⟨p, h.size, h.offset, h.used, hqueue, (hchain.writing hqueue).congr rfl rfl⟩
  | closed =>
    simp only [hpc] at hstep hchain
    exact ⟨p, h.nextCall hchain.2 hstep⟩

end BufferWriterBW

/-- Where an operation of the writer may write: data in the data area of the segment that the
writer holds, a header over a header of the ring. What it reads is a header of the ring. -/
def RemoteOp.StaysIn (g : RingGeometry) (w : BufferWriterBW) : RemoteOp → Prop
  | .writeData remote _ len =>
    ∃ j, w.ownedSegment = some (g.slot j) ∧ g.dataOffset j ≤ remote ∧
      remote + len ≤ g.dataOffset j + g.segmentSize
  | .writeHeader remote => ∃ j < g.segments, remote = g.slot j
  | .readHeader remote => ∃ j < g.segments, remote = g.slot j

namespace BufferWriterBW

variable {g : RingGeometry} {p : ℕ} {m m' : Mem} {w w' : BufferWriterBW} {made : Option ℕ}

/-- The pointers of the ring as the node has stored them. -/
def Chain (g : RingGeometry) (m : Mem) : Prop := ∀ j, nextSegmentAt m (g.slot j) = g.slot (j + 1)

theorem slot_of_ring (g : RingGeometry) (p : ℕ) : ∃ j < g.segments, g.slot p = g.slot j :=
  ⟨p % g.segments, Nat.mod_lt p g.segments_pos, (g.slot_mod p).symm⟩

/-- What the queue pair executes next, with what is queued behind it. -/
inductive QueueHead (g : RingGeometry) (p : ℕ) (w : BufferWriterBW) :
    RemoteOp → List RemoteOp → Prop
  | data {remote src len : ℕ} {queue : List RemoteOp}
      (howned : w.ownedSegment = some (g.slot p)) (hlo : g.dataOffset p ≤ remote)
      (hhi : remote + len ≤ g.dataOffset p + g.segmentSize)
      (hclosing : w.pc = .closing → queue ≠ []) :
      QueueHead g p w (.writeData remote src len) queue
  | header (howned : w.ownedSegment = some (g.slot p))
      (hnext : w.header.nextSegmentOffset = g.slot (p + 1)) :
      QueueHead g p w (.writeHeader (g.slot p)) []
  | read (q : ℕ) (hopen : w.pc ≠ .closing ∧ w.pc ≠ .closed) :
    QueueHead g p w (.readHeader (g.slot q)) []

theorem Writing.head (h : Writing g p w) (howned : w.ownedSegment = some (g.slot p))
    (hopen : w.pc ≠ .closing) {op : RemoteOp} {queue : List RemoteOp}
    (hqueue : w.queue = op :: queue) : QueueHead g p w op queue := by
  obtain ⟨remote, src, len, rfl, hlo, hhi⟩ := h.data op (by simp [hqueue])
  exact .data howned hlo hhi fun hpc => absurd hpc hopen

theorem Sending.head (h : Sending g p w)
    (howned : w.queue ≠ [] → w.ownedSegment = some (g.slot p)) {op : RemoteOp}
    {queue : List RemoteOp} (hqueue : w.queue = op :: queue) : QueueHead g p w op queue := by
  have howned' := howned (by simp [hqueue])
  obtain ⟨_ | ⟨op', ops⟩, hops, hsend | ⟨hnil, hempty⟩⟩ := h
  · rw [hqueue, List.nil_append, List.cons.injEq] at hsend
    obtain ⟨rfl, rfl⟩ := hsend
    exact .header howned' hops.next
  · rw [hqueue] at hempty
    cases hempty
  · rw [hqueue, List.cons_append, List.cons.injEq] at hsend
    obtain ⟨rfl, rfl⟩ := hsend
    obtain ⟨remote, src, len, rfl, hlo, hhi⟩ := hops.data op (List.mem_cons_self ..)
    exact .data howned' hlo hhi fun _ =>
      List.append_ne_nil_of_right_ne_nil ops (List.cons_ne_nil _ _)
  · cases hnil

theorem AtSegment.head (h : AtSegment g p w) {op : RemoteOp} {queue : List RemoteOp}
    (hqueue : w.queue = op :: queue) : QueueHead g p w op queue := by
  have hchain := h.chain
  have hbusy : w.queue ≠ [] := by simp [hqueue]
  unfold OnChain at hchain
  cases hpc : w.pc with
  | constructing =>
    simp only [hpc] at hchain
    exact absurd hchain hbusy
  | constructed =>
    simp only [hpc] at hchain
    have hread := hchain.resolve_right fun hdone => hbusy hdone.1
    rw [hqueue, List.cons.injEq] at hread
    obtain ⟨rfl, rfl⟩ := hread
    exact .read p (by simp [hpc])
  | flush data after =>
    simp only [hpc] at hchain
    exact hchain.1.head (fun _ => by simp [ownedSegment, hpc, h.offset]) hqueue
  | handOver next data rest =>
    simp only [hpc] at hchain
    exact hchain.1.head (fun hne => by simp [ownedSegment, hpc, h.offset, hne]) hqueue
  | poll next data rest =>
    simp only [hpc] at hchain
    obtain ⟨rfl, hchain⟩ := hchain
    have hread := hchain.resolve_right fun hdone => hbusy hdone.1
    rw [hqueue, List.cons.injEq] at hread
    obtain ⟨rfl, rfl⟩ := hread
    exact .read (p + 1) (by simp [hpc])
  | closing =>
    simp only [hpc] at hchain
    exact hchain.head (fun hne => by simp [ownedSegment, hpc, h.offset, hne]) hqueue
  | closed =>
    simp only [hpc] at hchain
    exact absurd hchain.1 hbusy
  | _ =>
    simp only [hpc] at hchain
    exact hchain.head (by simp [ownedSegment, hpc, h.offset]) (by simp [hpc]) hqueue

theorem QueueHead.staysIn {op : RemoteOp} {queue : List RemoteOp}
    (h : QueueHead g p w op queue) : op.StaysIn g w := by
  cases h with
  | data howned hlo hhi => exact ⟨p, howned, hlo, hhi⟩
  | header => exact slot_of_ring g p
  | read q => exact slot_of_ring g q

/-- The queue pair writes into the segment that the writer is at and nowhere else. -/
theorem QueueHead.outside {op : RemoteOp} {queue : List RemoteOp}
    (h : QueueHead g p w op queue) (hqueue : w.queue = op :: queue)
    (hnic : w.nic m = some (m', w', made)) {start len : ℕ}
    (hout : start + len ≤ g.slot p ∨ g.slot p + g.fullSize ≤ start) : AgreeOn m' m start len := by
  cases h with
  | data howned hlo hhi =>
    simp only [BufferWriterBW.nic, hqueue, Option.some.injEq, Prod.mk.injEq] at hnic
    obtain ⟨rfl, -⟩ := hnic
    apply agreeOn_writeBytes
    rw [length_readBytes]
    unfold RingGeometry.dataOffset at hlo hhi
    unfold RingGeometry.fullSize at hout
    omega
  | header =>
    simp only [BufferWriterBW.nic, hqueue, Option.some.injEq, Prod.mk.injEq] at hnic
    obtain ⟨rfl, -⟩ := hnic
    apply agreeOn_writeHeader
    unfold RingGeometry.fullSize at hout
    omega
  | read =>
    simp only [BufferWriterBW.nic, hqueue, Option.some.injEq, Prod.mk.injEq] at hnic
    obtain ⟨rfl, -⟩ := hnic
    exact .refl m start len

/-- Data touches no header, and a header is sent with the pointer that it has. -/
theorem QueueHead.keeps_chain {op : RemoteOp} {queue : List RemoteOp}
    (h : QueueHead g p w op queue) (hm : Chain g m) (hqueue : w.queue = op :: queue)
    (hnic : w.nic m = some (m', w', made)) : Chain g m' := by
  cases h with
  | data howned hlo hhi =>
    simp only [BufferWriterBW.nic, hqueue, Option.some.injEq, Prod.mk.injEq] at hnic
    obtain ⟨rfl, -⟩ := hnic
    rw [RingGeometry.dataOffset, segmentHeaderSize] at hlo hhi
    apply g.chain_writeBytes hm (p := p)
    · omega
    · rw [RingGeometry.fullSize, segmentHeaderSize, length_readBytes]
      omega
    · omega
  | header howned hnext =>
    simp only [BufferWriterBW.nic, hqueue, Option.some.injEq, Prod.mk.injEq] at hnic
    obtain ⟨rfl, -⟩ := hnic
    have hkept := g.chain_sendHeader hm (p := p) [] hnext (by
      rw [List.append_nil, SegmentHeader.length_encode]
      exact Nat.le_add_left _ _)
    rw [List.append_nil] at hkept
    exact hkept
  | read =>
    simp only [BufferWriterBW.nic, hqueue, Option.some.injEq, Prod.mk.injEq] at hnic
    obtain ⟨rfl, -⟩ := hnic
    exact hm

theorem Writing.nic (h : Writing g p w) (hnic : w.nic m = some (m', w', made)) :
    Writing g p w' := by
  unfold BufferWriterBW.nic at hnic
  cases hqueue : w.queue with
  | nil => simp [hqueue] at hnic
  | cons op queue =>
    obtain ⟨remote, src, len, rfl, -⟩ := h.data op (by simp [hqueue])
    simp only [hqueue, Option.some.injEq, Prod.mk.injEq] at hnic
    obtain ⟨-, rfl, -⟩ := hnic
    exact ⟨fun op hop => h.data op (by simp [hqueue, hop]), h.next⟩

theorem Sending.nic (h : Sending g p w) (hnic : w.nic m = some (m', w', made)) :
    Sending g p w' := by
  unfold BufferWriterBW.nic at hnic
  obtain ⟨_ | ⟨op, ops⟩, hops, hqueue | ⟨hnil, hqueue⟩⟩ := h
  · rw [List.nil_append] at hqueue
    simp only [hqueue, Option.some.injEq, Prod.mk.injEq] at hnic
    obtain ⟨-, rfl, -⟩ := hnic
    exact ⟨[], hops.congr rfl rfl, Or.inr ⟨rfl, rfl⟩⟩
  · simp [hqueue] at hnic
  · obtain ⟨remote, src, len, rfl, -⟩ := hops.data op (List.mem_cons_self ..)
    rw [List.cons_append] at hqueue
    simp only [hqueue, Option.some.injEq, Prod.mk.injEq] at hnic
    obtain ⟨-, rfl, -⟩ := hnic
    exact ⟨ops, ⟨fun op hop => hops.data op (List.mem_cons_of_mem _ hop), hops.next⟩, Or.inl rfl⟩
  · cases hnil

/-- A header that is read brings the pointer of its segment. -/
theorem nic_readHeader (hm : Chain g m) (hqueue : w.queue = [.readHeader (g.slot p)])
    (hnic : w.nic m = some (m', w', made)) : w'.queue = [] ∧ Writing g p w' := by
  simp only [BufferWriterBW.nic, hqueue, Option.some.injEq, Prod.mk.injEq] at hnic
  obtain ⟨-, rfl, -⟩ := hnic
  exact ⟨rfl, fun op hop => absurd hop List.not_mem_nil, hm p⟩

theorem AtSegment.nic (hm : Chain g m) (h : AtSegment g p w)
    (hnic : w.nic m = some (m', w', made)) : AtSegment g p w' := by
  have hchain := h.chain
  obtain ⟨op, queue, header, hqueue, heq⟩ := nic_eq hnic
  have hbusy : w.queue ≠ [] := by simp [hqueue]
  have hused : w'.sizeUsed = w.sizeUsed := by rw [heq]
  have hpc' : w'.pc = w.pc := by rw [heq]
  refine ⟨by rw [heq]; exact h.size, by rw [heq]; exact h.offset, hused.trans_le h.used, ?_⟩
  unfold OnChain at hchain ⊢
  cases hpc : w.pc with
  | constructing =>
    simp only [hpc] at hchain
    exact absurd hchain hbusy
  | constructed =>
    simp only [hpc', hpc] at hchain ⊢
    exact Or.inr (nic_readHeader hm (hchain.resolve_right fun hdone => hbusy hdone.1) hnic)
  | flush data after =>
    simp only [hpc', hpc, hused] at hchain ⊢
    exact ⟨hchain.1.nic hnic, hchain.2⟩
  | handOver next data rest =>
    simp only [hpc', hpc] at hchain ⊢
    exact ⟨hchain.1.nic hnic, hchain.2⟩
  | poll next data rest =>
    simp only [hpc', hpc] at hchain ⊢
    obtain ⟨rfl, hread⟩ := hchain
    exact ⟨rfl, Or.inr (nic_readHeader hm (hread.resolve_right fun hdone => hbusy hdone.1) hnic)⟩
  | closing =>
    simp only [hpc', hpc] at hchain ⊢
    exact hchain.nic hnic
  | closed =>
    simp only [hpc] at hchain
    exact absurd hchain.1 hbusy
  | _ =>
    simp only [hpc', hpc] at hchain ⊢
    exact hchain.nic hnic

end BufferWriterBW

namespace ChainState

open Schedule BufferWriterBW

variable {g : RingGeometry} {s t : ChainState} {a : ChainMove}

def init (m : Mem) (entry segmentSize internalBufferSize : ℕ) (calls : List WriterCall) :
    ChainState :=
  ⟨m, .init entry segmentSize internalBufferSize calls⟩

/-- What the queue pair executes stays in the ring. -/
def OwnRingOnly (g : RingGeometry) (s : ChainState) (a : ChainMove) : Prop :=
  a = .nic → ∀ op ∈ s.writer.queue.head?, op.StaysIn g s.writer

/-- The pointers are those of the ring, and the writer is at one of its segments. -/
def InRing (g : RingGeometry) (s : ChainState) : Prop :=
  Chain g s.mem ∧ ∃ p, AtSegment g p s.writer

theorem InRing.move (h : InRing g s) (hmove : s.move g a = some t) :
    OwnRingOnly g s a ∧ InRing g t := by
  obtain ⟨hm, p, hw⟩ := h
  cases a with
  | writer =>
    obtain ⟨writer, hstep, rfl⟩ := Option.map_eq_some_iff.mp hmove
    exact ⟨fun hnic => (nomatch hnic), hm, hw.step hstep⟩
  | nic =>
    obtain ⟨⟨m', w', made⟩, hnic, rfl⟩ := Option.map_eq_some_iff.mp hmove
    obtain ⟨op, queue, header, hqueue, -⟩ := nic_eq hnic
    have hhead := hw.head hqueue
    refine ⟨fun _ op' hop => ?_, hhead.keeps_chain hm hqueue hnic, p, hw.nic hm hnic⟩
    rw [hqueue] at hop
    cases hop
    exact hhead.staysIn
  | counter segment value =>
    cases hmove
    refine ⟨fun hnic => (nomatch hnic), ?_, p, hw⟩
    apply g.chain_writeBytes hm (p := segment) le_rfl <;> rw [length_encodeLE]
    · exact Nat.add_le_add_left (by unfold RingGeometry.fullSize segmentHeaderSize; omega) _
    · exact Or.inl le_rfl
  | flags segment f =>
    cases hmove
    refine ⟨fun hnic => (nomatch hnic), ?_, p, hw⟩
    apply g.chain_writeBytes hm (p := segment) (Nat.le_add_right _ 16) <;> rw [length_encodeLE]
    · rw [RingGeometry.fullSize, segmentHeaderSize]
      omega
    · exact Or.inr le_rfl

/-- What `mark_prev_segment` stores in a segment of a bandwidth ring is such a move. -/
theorem markStep_isMove {k : ℕ} (m : Mem) (w : BufferWriterBW) (it : BufferIterator k)
    {h : IterHelper k} (hprev : ∀ off ∈ h.prev, ∃ j, off = g.slot j) (inNext : Bool)
    {step : MarkStep} (hstep : step ≠ .credit) :
    (it.markStep .bw m h inNext step).1 = m ∨
      ∃ a, move g ⟨m, w⟩ a = some ⟨(it.markStep .bw m h inNext step).1, w⟩ := by
  cases hoff : h.prev with
  | none =>
    left
    cases step <;> simp only [BufferIterator.markStep, IterHelper.setPrevCounter,
      IterHelper.modifyPrevFlags, hoff] <;> first | split_ifs <;> rfl | exact absurd rfl hstep
  | some off =>
    obtain ⟨j, rfl⟩ := hprev off hoff
    cases step with
    | checkEnd | checkWriteable =>
      left
      simp only [BufferIterator.markStep]
      split_ifs <;> rfl
    | counter =>
      right
      refine ⟨.counter j 0, ?_⟩
      simp only [BufferIterator.markStep, IterHelper.setPrevCounter, hoff, move]
    | consumable =>
      right
      refine ⟨.flags j (SegmentHeader.setConsumable · false), ?_⟩
      simp only [BufferIterator.markStep, IterHelper.modifyPrevFlags, hoff, move]
    | writeable =>
      right
      refine ⟨.flags j (SegmentHeader.setWriteable · true), ?_⟩
      simp only [BufferIterator.markStep, IterHelper.modifyPrevFlags, hoff, move]
    | credit => exact absurd rfl hstep

theorem inRing_init {m : Mem} (hm : Chain g m) (internalBufferSize : ℕ)
    (calls : List WriterCall) :
    InRing g (init m g.entry g.segmentSize internalBufferSize calls) :=
  ⟨hm, 0, rfl, g.slot_zero.symm, Nat.zero_le _, rfl⟩

/-- Whatever the consumer does to counters and flags, the writer writes data only into the segment
that it holds and headers only over those of its ring, and all pointers stay as they were. -/
theorem writes_own_ring (g : RingGeometry) (m : Mem)
    (hring : ∀ j, nextSegmentAt m (g.slot j) = g.slot (j + 1)) (internalBufferSize : ℕ)
    (calls : List WriterCall) (moves : List ChainMove) :
    EachStep (move g) (OwnRingOnly g)
      (init m g.entry g.segmentSize internalBufferSize calls) moves ∧
    Throughout (move g)
      (fun s => ∀ j, nextSegmentAt s.mem (g.slot j) = nextSegmentAt m (g.slot j))
      (init m g.entry g.segmentSize internalBufferSize calls) moves := by
  have hinit := inRing_init hring internalBufferSize calls
  constructor
  · exact eachStep_of_invariant (L := fun _ => True) (fun s a t h _ hmove => (h.move hmove).2)
      (fun s a t h _ hmove => (h.move hmove).1) moves _ (fun _ _ => trivial) hinit
  · intro pre t hpre hexec j
    have hreach : InRing g t := invariant_exec (fun s a t h hmove => (h.move hmove).2) pre _ _
      hinit hexec
    rw [hreach.1 j, hring]

/-- Two bytes go through a ring of one segment of one byte: between them the consumer gives the
segment back, so that the writer wraps. -/
def wrapMoves : List ChainMove :=
  [.writer, .nic] ++ List.replicate 4 .writer ++ [.nic, .writer, .nic, .writer, .nic, .writer,
    .counter 0 0, .flags 0 (SegmentHeader.setConsumable · false),
    .flags 0 (SegmentHeader.setWriteable · true), .nic, .writer, .writer, .nic, .writer, .nic]

theorem writes_own_ring_single_segment :
    EachStep (move ((byteSegments 1 (by decide) (by decide)).ring 0))
        (OwnRingOnly ((byteSegments 1 (by decide) (by decide)).ring 0))
        (init ((byteSegments 1 (by decide) (by decide)).initMem fun _ => 0) 0 1 4
          [.append [7, 9], .close]) wrapMoves ∧
      Throughout (move ((byteSegments 1 (by decide) (by decide)).ring 0))
        (fun s => ∀ j,
          nextSegmentAt s.mem (((byteSegments 1 (by decide) (by decide)).ring 0).slot j) =
            nextSegmentAt ((byteSegments 1 (by decide) (by decide)).initMem fun _ => 0)
            (((byteSegments 1 (by decide) (by decide)).ring 0).slot j))
        (init ((byteSegments 1 (by decide) (by decide)).initMem fun _ => 0) 0 1 4
          [.append [7, 9], .close]) wrapMoves ∧
      (exec (move ((byteSegments 1 (by decide) (by decide)).ring 0))
        (init ((byteSegments 1 (by decide) (by decide)).initMem fun _ => 0) 0 1 4
          [.append [7, 9], .close]) wrapMoves).isSome = true := by
  have hwrites := writes_own_ring ((byteSegments 1 (by decide) (by decide)).ring 0)
    ((byteSegments 1 (by decide) (by decide)).initMem fun _ => 0) (fun j => by
      rw [nextSegmentAt, BufferRings.readHeader_initMem]
      rfl) 4 [.append [7, 9], .close] wrapMoves
  exact ⟨hwrites.1, hwrites.2, by decide +kernel⟩

end ChainState
end DpiLibrary
