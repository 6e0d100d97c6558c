import DpiLibrary.Foundation.PartialWrites
import DpiLibrary.Dpi.LatencyRing

/-!
# Writes that arrive byte by byte

The bytes of a remote write become visible one after the other, from the lowest address
up, and the iterator may look between any two of them. Reads are still executed at once.
A write has its effect on the ring when its last byte is visible, and one that carries
no data when its flags are: what the queue pair has done so far is compared with what it
would have done executing whole writes only.
-/

namespace DpiLibrary

variable {k : ℕ}

namespace BufferWriterLat

/-- The write at the head of the queue: its address, and its bytes as the queue pair reads
them. -/
def writing (w : BufferWriterLat) : Option (ℕ × List UInt8) :=
  match w.queue with
  | .write remote src posted :: _ => some (remote, readBytes w.internalBuffer src posted.length)
  | .writeHeader remote :: _ => some (remote, w.header.encode)
  | _ => none

/-- The queue pair makes one more byte of the write visible, behind `visible` ones, or
executes a read. -/
def tornNic (m : Mem) (w : BufferWriterLat) (visible : ℕ) : Option (Mem × BufferWriterLat × ℕ) :=
  match w.writing with
  | some (remote, bytes) =>
    let m := writeBytes m (remote + visible) bytes[visible]?.toList
    if visible + 1 < bytes.length then some (m, w, visible + 1)
    else some (m, { w with queue := w.queue.tail }, 0)
  | none => (w.nic m).map fun (m, w, _) => (m, w, visible)

end BufferWriterLat

/-- The system with the number of bytes that are visible of each ring's write under way. -/
structure TornSystem (k : ℕ) extends RingSystem BufferWriterLat k where
  visible : Fin k → ℕ

namespace TornSystem

def init (b : BufferRings k) (m : Mem) (writers : Fin k → BufferWriterLat) : TornSystem k :=
  { RingSystem.init b m writers with visible := fun _ => 0 }

def step (t : TornSystem k) : RingLabel k → Option (TornSystem k)
  | .nic r =>
    (BufferWriterLat.tornNic t.mem (t.writers r) (t.visible r)).map fun (mem, w, v) =>
      { t with
        mem
        writers := Function.update t.writers r w
        visible := Function.update t.visible r v }
  | label =>
    (RingSystem.step .lat BufferWriterLat.machine t.toRingSystem label).map fun s =>
      { s with visible := t.visible }

end TornSystem

namespace BufferWriterLat

variable {g : RingGeometry} {x : RingState g} {m : Mem} {w w' : BufferWriterLat}
  {program : List (List UInt8)} {remote v : ℕ} {bytes : List UInt8}

/-- The write at the head of the queue with the bytes it was posted with. -/
def underWay (w : BufferWriterLat) : Option (ℕ × List UInt8) :=
  match w.queue with
  | .write remote _ posted :: _ => some (remote, posted)
  | .writeHeader remote :: _ => some (remote, w.header.encode)
  | _ => none

theorem CarriesPosted.writing (h : w.CarriesPosted) : w.writing = w.underWay := by
  unfold BufferWriterLat.writing BufferWriterLat.underWay
  cases hqueue : w.queue with
  | nil => rfl
  | cons op queue =>
    cases op with
    | write remote src posted =>
      simp only
      rw [h _ _ _ _ hqueue]
    | _ => rfl

/-- Visible bytes that a write needs to have its effect: all, or those up to the flags if
no data follows. -/
def landing (bytes : List UInt8) : ℕ :=
  if bytes.length ≤ segmentHeaderSize then 17 else bytes.length

/-- The bytes visible of a write that has not had its effect. -/
def pending (w : BufferWriterLat) (visible : ℕ) : ℕ × List UInt8 :=
  match w.underWay with
  | some (remote, bytes) => (remote, if visible < landing bytes then bytes.take visible else [])
  | none => (0, [])

/-- The writer without the write under way, once that has had its effect. -/
def settled (w : BufferWriterLat) (visible : ℕ) : BufferWriterLat :=
  match w.underWay with
  | some (_, bytes) => if visible < landing bytes then w else { w with queue := w.queue.tail }
  | none => w

theorem settled_of_none (h : w.underWay = none) : w.settled v = w := by
  simp [settled, h]

theorem settled_of_lt (h : w.underWay = some (remote, bytes)) (hlt : v < landing bytes) :
    w.settled v = w := by
  simp [settled, h, hlt]

theorem settled_of_le (h : w.underWay = some (remote, bytes)) (hle : landing bytes ≤ v) :
    w.settled v = { w with queue := w.queue.tail } := by
  simp [settled, h, Nat.not_lt.mpr hle]

theorem landing_pos (bytes : List UInt8) : 0 < landing bytes := by
  unfold landing segmentHeaderSize
  split_ifs <;> omega

/-- A write has its effect with its last byte, or it is a header and has it with the flags. -/
theorem landing_cases (h : segmentHeaderSize ≤ bytes.length) :
    landing bytes = bytes.length ∨ landing bytes = 17 ∧ bytes.length = 24 := by
  unfold landing
  unfold segmentHeaderSize at h ⊢
  split_ifs <;> omega

theorem landing_le (h : segmentHeaderSize ≤ bytes.length) : landing bytes ≤ bytes.length := by
  rcases landing_cases h with hall | ⟨hheader, hshort⟩ <;> omega

theorem landing_encode (header : SegmentHeader) : landing header.encode = 17 := by
  unfold landing
  rw [SegmentHeader.length_encode, if_pos le_rfl]

@[simp] theorem settled_zero (w : BufferWriterLat) : w.settled 0 = w := by
  unfold settled
  split
  · rw [if_pos (landing_pos _)]
  · rfl

@[simp] theorem pending_zero (w : BufferWriterLat) : (w.pending 0).2 = [] := by
  unfold pending
  split
  · simp
  · rfl

theorem pending_of_none (h : w.underWay = none) : (w.pending v).2 = [] := by
  simp [pending, h]

theorem pending_of_lt (h : w.underWay = some (remote, bytes)) (hlt : v < landing bytes) :
    w.pending v = (remote, bytes.take v) := by
  simp [pending, h, hlt]

theorem pending_of_le (h : w.underWay = some (remote, bytes)) (hle : landing bytes ≤ v) :
    (w.pending v).2 = [] := by
  simp [pending, h, Nat.not_lt.mpr hle]

theorem writes_pending {a : ℕ} (h : Writes (w.pending v) a) :
    ∃ remote bytes, w.underWay = some (remote, bytes) ∧ v < landing bytes ∧ remote ≤ a ∧
      a < remote + v := by
  cases hunder : w.underWay with
  | none => exact absurd h (not_writes_of_nil (pending_of_none hunder) a)
  | some p =>
    obtain ⟨remote, bytes⟩ := p
    rcases Nat.lt_or_ge v (landing bytes) with hlt | hge
    · rw [pending_of_lt hunder hlt] at h
      obtain ⟨hlo, hhi⟩ := h
      rw [List.length_take] at hhi
      exact ⟨remote, bytes, rfl, hlt, hlo, by simp only at hhi; omega⟩
    · exact absurd h (not_writes_of_nil (pending_of_le hunder hge) a)

/-- The write under way, by what it is: the next message or the closing header. -/
inductive Arriving (g : RingGeometry) (x : RingState g) (w : BufferWriterLat) :
    ℕ → List UInt8 → Prop
  | message (data : List UInt8) (hroom : x.sent.length < x.released + g.segments)
    (hsize : data.length ≤ g.segmentSize) :
    Arriving g x w (g.slot x.sent.length)
      (SegmentHeader.encode ⟨data.length, g.slot (x.sent.length + 1), 0b0011⟩ ++ data)
  | closing (hsent : x.sent ≠ [])
    (hhead : w.queue.head? = some (.writeHeader (g.slot (x.sent.length - 1)))) :
    Arriving g x w (g.slot (x.sent.length - 1))
      (SegmentHeader.encode ⟨g.segmentSize, g.slot x.sent.length, 0b0110⟩)

/-- Both kinds go to a slot of the window and begin with a header. -/
theorem Arriving.place (h : Arriving g x w remote bytes) :
    ∃ (j : ℕ) (header : SegmentHeader) (data : List UInt8), remote = g.slot j ∧
      x.released ≤ j ∧ j < x.released + g.segments ∧
      bytes = header.encode ++ data ∧ data.length ≤ g.segmentSize ∧
      header.nextSegmentOffset = g.slot (j + 1) ∧ header.segmentFlags < 256 := by
  have hle := x.released_le.trans x.returned_le_sent
  cases h with
  | message data hroom hsize =>
    exact ⟨x.sent.length, _, data, rfl, hle, hroom, rfl, hsize, rfl, by norm_num⟩
  | closing hsent hhead =>
    have hpos := List.length_pos_of_ne_nil hsent
    have hlast : x.sent.length - 1 + 1 = x.sent.length := Nat.sub_add_cancel hpos
    have hreleased := x.released_lt_sent hsent
    have hbound := x.sent_le
    refine ⟨x.sent.length - 1, _, [], rfl, by omega, by omega, (List.append_nil _).symm,
      Nat.zero_le _, by rw [hlast], by norm_num⟩

/-- A write under way fits into one segment of the ring. -/
theorem Arriving.bounds (h : Arriving g x w remote bytes) :
    segmentHeaderSize ≤ bytes.length ∧ bytes.length ≤ g.fullSize ∧ g.entry ≤ remote ∧
      remote + bytes.length ≤ g.entry + g.segments * g.fullSize := by
  obtain ⟨j, header, data, rfl, -, -, rfl, hsize, -, -⟩ := h.place
  have hle := g.le_slot j
  have hend := g.slot_add_fullSize_le j
  rw [List.length_append, SegmentHeader.length_encode]
  unfold RingGeometry.fullSize at hend ⊢
  omega

/-- The operations behind the writes of messages: a read or the closing header. -/
theorem Detail.tail_cases {released : ℕ} {posted : List (List UInt8)} {tail : List LatOp}
    (h : Detail g released w posted tail) :
    tail = [] ∨ tail = [.readHeader (g.slot 0)] ∨ tail = [.readCounter (g.entry - 8)] ∨
      tail = [.writeHeader (g.slot (posted.length - 1))] ∧ posted ≠ [] ∧ w.pc = .closing ∧
        w.header = ⟨g.segmentSize, g.slot posted.length, 0b0110⟩ ∧ w.calls = [] := by
  unfold Detail at h
  cases hpc : w.pc with
  | constructing =>
    simp only [hpc] at h
    exact Or.inl h.2
  | readingHeader =>
    simp only [hpc] at h
    rcases h.2 with htail | ⟨htail, -⟩
    · exact Or.inr (Or.inl htail)
    · exact Or.inl htail
  | readingCounter =>
    simp only [hpc] at h
    rcases h.2.2 with htail | ⟨htail, -⟩
    · exact Or.inr (Or.inr (Or.inl htail))
    · exact Or.inl htail
  | refresh old message =>
    simp only [hpc] at h
    rcases h.2.2.2.2.2 with htail | htail
    · exact Or.inr (Or.inr (Or.inl htail))
    · exact Or.inl htail
  | idle =>
    simp only [hpc] at h
    exact Or.inl h.2.2
  | append message =>
    simp only [hpc] at h
    exact Or.inl h.2.2
  | write message =>
    simp only [hpc] at h
    exact Or.inl h.2.2.2
  | written signaled =>
    simp only [hpc] at h
    exact Or.inl h.2.2.2
  | closing =>
    simp only [hpc] at h
    obtain ⟨htail, hne, hheader, hcalls, -⟩ := h
    exact Or.inr (Or.inr (Or.inr ⟨htail, hne, rfl, hheader, hcalls⟩))
  | closed => simp only [hpc] at h

/-- What is at the head of the queue is a write of one of the two kinds, or a read of the
constructor or of the counter. -/
theorem Inv.head (h : Inv g program x m w) {op : LatOp} {queue : List LatOp}
    (hqueue : w.queue = op :: queue) :
    (∃ remote bytes, w.underWay = some (remote, bytes) ∧ Arriving g x w remote bytes) ∨
      w.underWay = none ∧ (op = .readHeader (g.slot 0) ∨ op = .readCounter (g.entry - 8)) := by
  obtain ⟨posted, happ, ⟨tail, hfly, hdetail⟩ | hfinished⟩ := h.state
  · obtain ⟨ops, rest, hposted, hops, hinflight⟩ := hfly.queue
    cases ops with
    | cons op' ops =>
      cases op' with
      | write remote src bytes =>
        obtain ⟨data, rest', rfl, rfl, rfl, -⟩ := hinflight
        rw [hqueue, List.cons_append] at hops
        obtain ⟨rfl, -⟩ := List.cons.inj hops
        have hroom := hfly.room
        rw [hposted, List.length_append, List.length_cons] at hroom
        refine Or.inl ⟨_, _, by simp only [underWay, hqueue], .message data (by omega) ?_⟩
        refine h.sizes data ?_
        rw [← h.program_eq, happ, hposted]
        simp
      | writeHeader remote => exact hinflight.elim
      | readHeader remote => exact hinflight.elim
      | readCounter remote => exact hinflight.elim
    | nil =>
      rw [List.nil_append] at hops
      rw [show rest = [] from hinflight, List.append_nil] at hposted
      rcases hdetail.tail_cases with rfl | rfl | rfl | ⟨rfl, hne, -, hheader, -⟩
      · cases hqueue.symm.trans hops
      · cases hqueue.symm.trans hops
        exact Or.inr ⟨by simp only [underWay, hops], Or.inl rfl⟩
      · cases hqueue.symm.trans hops
        exact Or.inr ⟨by simp only [underWay, hops], Or.inr rfl⟩
      · refine Or.inl ⟨g.slot (x.sent.length - 1), _, ?_,
          .closing (hposted ▸ hne) (by rw [hops, hposted]; rfl)⟩
        simp only [underWay, hops, hheader, hposted]
  · rw [hfinished.queue] at hqueue
    cases hqueue

/-- The closing header comes after all messages, and `close` waits for it to be written. -/
theorem Inv.closing (h : Inv g program x m w) {queue : List LatOp}
    (hqueue : w.queue = .writeHeader remote :: queue) : w.pc = .closing ∧ x.sent = program := by
  obtain ⟨posted, happ, ⟨tail, hfly, hdetail⟩ | hfinished⟩ := h.state
  · obtain ⟨ops, rest, hposted, hops, hinflight⟩ := hfly.queue
    cases ops with
    | cons op ops =>
      rw [hqueue, List.cons_append] at hops
      obtain ⟨rfl, -⟩ := List.cons.inj hops
      exact hinflight.elim
    | nil =>
      rw [List.nil_append] at hops
      rw [show rest = [] from hinflight, List.append_nil] at hposted
      rcases hdetail.tail_cases with rfl | rfl | rfl | ⟨-, -, hpc, -, hcalls⟩
      · cases hqueue.symm.trans hops
      · cases hqueue.symm.trans hops
      · cases hqueue.symm.trans hops
      · have hprogram := h.program_eq
        rw [hcalls, List.flatMap_nil, List.append_nil, happ, hpc] at hprogram
        exact ⟨hpc, by rw [← hposted, ← hprogram]; exact (List.append_nil _).symm⟩
  · rw [hfinished.queue] at hqueue
    cases hqueue

theorem Inv.step_writeHeader (h : Inv g program x m w) {queue : List LatOp}
    (hqueue : w.queue = .writeHeader remote :: queue) : w.step = none := by
  simp [BufferWriterLat.step, (h.closing hqueue).1, hqueue]

theorem nextCall_tail {op : LatOp} {queue : List LatOp} (hqueue : w.queue = op :: queue)
    (hstep : w.nextCall = some w') : ∃ queue', w'.queue = op :: queue' ∧
      ({ w with queue } : BufferWriterLat).nextCall = some { w' with queue := queue' } := by
  unfold nextCall at hstep ⊢
  cases hcalls : w.calls with
  | nil => simp [hcalls] at hstep
  | cons call calls =>
    cases call with
    | append message =>
      simp only [hcalls, Option.some.injEq] at hstep
      subst hstep
      exact ⟨queue, hqueue, rfl⟩
    | close =>
      simp only [hcalls, Option.some.injEq] at hstep
      subst hstep
      exact ⟨queue ++ [.writeHeader w.lastSegmentOffset], by simp [post, hqueue], rfl⟩

/-- A writer that does not wait for the head of its queue takes the same step without it. -/
theorem step_tail {op : LatOp} {queue : List LatOp} (hqueue : w.queue = op :: queue)
    (hstep : w.step = some w') : ∃ queue', w'.queue = op :: queue' ∧
      ({ w with queue } : BufferWriterLat).step = some { w' with queue := queue' } := by
  unfold BufferWriterLat.step at hstep ⊢
  cases hpc : w.pc with
  | constructing =>
    simp only [hpc, Option.some.injEq] at hstep
    subst hstep
    exact ⟨queue ++ [.readHeader w.currentSegmentOffset], by simp [post, hqueue], rfl⟩
  | readingHeader => simp [hpc, hqueue] at hstep
  | readingCounter => simp [hpc, hqueue] at hstep
  | refresh old message => simp [hpc, hqueue] at hstep
  | closing => simp [hpc, hqueue] at hstep
  | idle =>
    simp only [hpc] at hstep
    exact nextCall_tail hqueue hstep
  | closed =>
    simp only [hpc] at hstep
    exact nextCall_tail hqueue hstep
  | append message =>
    simp only [hpc] at hstep
    by_cases hnone : w.writeableFreeSegments = 0
    · rw [if_pos hnone] at hstep
      cases hstep
      exact ⟨queue ++ [.readCounter w.counterOffset], by simp [post, hqueue], by
        simp only [if_pos hnone]
        rfl⟩
    · rw [if_neg hnone] at hstep
      cases hstep
      exact ⟨queue, hqueue, by simp only [if_neg hnone]⟩
  | write message =>
    simp only [hpc, Option.some.injEq] at hstep
    subst hstep
    refine ⟨queue ++ [.write w.currentSegmentOffset
      (if w.internalBufferSize < message.data.length + segmentHeaderSize + w.internalOffset then 0
        else w.internalOffset)
      ((w.messageHeader message.data.length).encode ++ message.data)], ?_, rfl⟩
    simp only [writeMessage, hqueue, List.cons_append]
  | written signaled =>
    simp only [hpc] at hstep
    by_cases hwait : signaled = true ∧ w.queue ≠ []
    · rw [if_pos hwait] at hstep
      cases hstep
    · rw [if_neg hwait] at hstep
      cases hstep
      have hunsignaled : ¬ signaled = true := fun h => hwait ⟨h, by rw [hqueue]; simp⟩
      exact ⟨queue, hqueue, if_neg fun h => hunsignaled h.1⟩

/-- Steps leave the write under way as it is. -/
theorem underWay_step {op : LatOp} {queue : List LatOp} (hqueue : w.queue = op :: queue)
    (hop : ∀ remote, op ≠ .writeHeader remote) (hstep : w.step = some w') :
    w'.underWay = w.underWay := by
  obtain ⟨queue', hqueue', -⟩ := step_tail hqueue hstep
  cases op with
  | writeHeader remote => exact absurd rfl (hop remote)
  | _ => simp only [underWay, hqueue, hqueue']

/-- A step is one of the writer without the write that has had its effect, too. -/
theorem settled_step (hresting : w.underWay = none → v = 0)
    (hwaits : ∀ remote queue, w.queue = .writeHeader remote :: queue → w.step = none)
    (hstep : w.step = some w') : (w.settled v).step = some (w'.settled v) ∧
      (w'.underWay = w.underWay ∧ w'.queue.head? = w.queue.head? ∨ v = 0) := by
  cases hqueue : w.queue with
  | nil =>
    have hv : v = 0 := hresting (by simp only [underWay, hqueue])
    subst hv
    exact ⟨by rwa [settled_zero, settled_zero], Or.inr rfl⟩
  | cons op queue =>
    cases op with
    | writeHeader remote =>
      rw [hwaits remote queue hqueue] at hstep
      cases hstep
    | readHeader remote =>
      have hv : v = 0 := hresting (by simp only [underWay, hqueue])
      subst hv
      exact ⟨by rwa [settled_zero, settled_zero], Or.inr rfl⟩
    | readCounter remote =>
      have hv : v = 0 := hresting (by simp only [underWay, hqueue])
      subst hv
      exact ⟨by rwa [settled_zero, settled_zero], Or.inr rfl⟩
    | write remote src posted =>
      have hunder : w.underWay = some (remote, posted) := by simp only [underWay, hqueue]
      have hunder' := underWay_step hqueue (by simp) hstep
      obtain ⟨queue', hqueue', htail⟩ := step_tail hqueue hstep
      refine ⟨?_, Or.inl ⟨hunder', by rw [hqueue']; rfl⟩⟩
      rcases Nat.lt_or_ge v (landing posted) with hlt | hge
      · rwa [settled_of_lt hunder hlt, settled_of_lt (hunder'.trans hunder) hlt]
      · rw [settled_of_le hunder hge, settled_of_le (hunder'.trans hunder) hge, hqueue, hqueue']
        exact htail

/-- Executed as a whole, the write under way brings the bytes it was posted with. -/
theorem nic_of_underWay (hunder : w.underWay = some (remote, bytes)) (hguard : w.CarriesPosted)
    (m : Mem) : ∃ made, w.nic m =
      some (writeBytes m remote bytes, { w with queue := w.queue.tail }, made) := by
  cases hqueue : w.queue with
  | nil => simp [underWay, hqueue] at hunder
  | cons op queue =>
    cases op with
    | write remote' src posted =>
      simp only [underWay, hqueue, Option.some.injEq, Prod.mk.injEq] at hunder
      obtain ⟨rfl, rfl⟩ := hunder
      have hcarried := hguard _ _ _ _ hqueue
      refine ⟨if (readHeader (writeBytes m remote' posted) remote').isConsumable then some remote'
        else none, ?_⟩
      simp only [BufferWriterLat.nic, hqueue, hcarried, List.tail_cons]
    | writeHeader remote' =>
      simp only [underWay, hqueue, Option.some.injEq, Prod.mk.injEq] at hunder
      obtain ⟨rfl, rfl⟩ := hunder
      refine ⟨if w.header.isConsumable then some remote' else none, ?_⟩
      simp only [BufferWriterLat.nic, hqueue, List.tail_cons, writeHeader]
    | readHeader remote' => simp [underWay, hqueue] at hunder
    | readCounter remote' => simp [underWay, hqueue] at hunder

theorem tornNic_of_underWay (hunder : w.underWay = some (remote, bytes)) (hguard : w.CarriesPosted)
    (m : Mem) : w.tornNic m v =
      if v + 1 < bytes.length then
        some (writeBytes m (remote + v) bytes[v]?.toList, w, v + 1)
      else
        some (writeBytes m (remote + v) bytes[v]?.toList, { w with queue := w.queue.tail }, 0) := by
  unfold tornNic
  rw [hguard.writing, hunder]

end BufferWriterLat
end DpiLibrary
