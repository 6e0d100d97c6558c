import DpiLibrary.Dpi.BandwidthWriter

/-!
# Bandwidth rings

Guarantees of a buffer with one `BufferWriterBW` for each ring and one
`BufferIterator`, under every interleaving.
-/

namespace DpiLibrary

variable {k : ℕ}

namespace BufferWriterBW

def machine : WriterMachine BufferWriterBW := ⟨step, nic⟩

/-- The writer's current segment, from the moment it is acquired until the header that
hands it over has arrived. -/
def ownedSegment (w : BufferWriterBW) : Option ℕ :=
  match w.pc with
  | .handOver _ _ _ => if w.queue = [] then none else some w.segmentOffset
  | .poll _ _ _ => none
  | .closing => if w.queue = [] then none else some w.segmentOffset
  | .closed => none
  | _ => some w.segmentOffset

/-- `close` has been called and its header has arrived. -/
def Closed (w : BufferWriterBW) : Prop :=
  (w.pc = .closing ∨ w.pc = .closed) ∧ w.queue = [] ∧ w.calls = []

/-- The writer polls for the next segment, has nothing else under way, and would find the
segment taken. -/
def Blocked (m : Mem) (w : BufferWriterBW) : Prop :=
  ∃ next data rest, w.pc = .poll next data rest ∧ (w.queue = [] ∨ w.queue = [.readHeader next]) ∧
    (readHeader m next).isWriteable = false

variable {g : RingGeometry} {x : RingState g} {m m' : Mem} {w w' : BufferWriterBW}
  {program : List UInt8} {stage : MarkStep} {made : Option ℕ}

theorem Holding.queue_ne_nil {cur : List UInt8} {op : RemoteOp} (h : Holding x m w cur [op]) :
    w.queue ≠ [] := by
  obtain ⟨landed, rest, ops, -, hqueue, -⟩ := h.queue
  simp [hqueue]

/-- The writer owns its segment, waits for the next one or has closed. -/
theorem State.owner {cur : List UInt8} (h : State x m w cur) :
    (∃ tail, Holding x m w cur tail ∧ w.ownedSegment = some w.segmentOffset) ∨
      (∃ next, Waiting x w cur next ∧ w.ownedSegment = none) ∨
      Finished x w cur ∧ (w.pc = .closing ∨ w.pc = .closed) ∧ w.ownedSegment = none := by
  unfold State at h
  cases hpc : w.pc with
  | constructing =>
    simp only [hpc] at h
    exact Or.inl ⟨_, h.1, by simp [ownedSegment, hpc]⟩
  | constructed =>
    simp only [hpc] at h
    rcases h with h | h
    · exact Or.inl ⟨_, h.1, by simp [ownedSegment, hpc]⟩
    · exact Or.inl ⟨_, h.toHolding, by simp [ownedSegment, hpc]⟩
  | flush data after =>
    simp only [hpc] at h
    rcases h.2.2 with h | h
    · exact Or.inl ⟨_, h.toHolding, by simp [ownedSegment, hpc]⟩
    · exact Or.inl ⟨_, h.1.toHolding, by simp [ownedSegment, hpc]⟩
  | getNextSegment data rest =>
    simp only [hpc] at h
    exact Or.inl ⟨_, h.1.toHolding, by simp [ownedSegment, hpc]⟩
  | handOver next data rest =>
    simp only [hpc] at h
    rcases h.2 with h | h
    · exact Or.inl ⟨_, h.1, by simp [ownedSegment, hpc, h.1.queue_ne_nil]⟩
    · exact Or.inr (Or.inl ⟨_, h.1, by simp [ownedSegment, hpc, h.2]⟩)
  | poll next data rest =>
    simp only [hpc] at h
    exact Or.inr (Or.inl ⟨_, h.2.1, by simp [ownedSegment, hpc]⟩)
  | closing =>
    simp only [hpc] at h
    rcases h with h | h
    · exact Or.inl ⟨_, h.1, by simp [ownedSegment, hpc, h.1.queue_ne_nil]⟩
    · exact Or.inr (Or.inr ⟨h, Or.inl rfl, by simp [ownedSegment, hpc, h.queue]⟩)
  | closed =>
    simp only [hpc] at h
    exact Or.inr (Or.inr ⟨h, Or.inr rfl, by simp [ownedSegment, hpc]⟩)
  | _ =>
    simp only [hpc] at h
    exact Or.inl ⟨_, h.toHolding, by simp [ownedSegment, hpc]⟩

/-- Only a writer that has closed has finished its ring. -/
theorem Inv.finished (h : Inv g program x m w) (hfin : x.fin = true) :
    w.Closed ∧ w.appended = program ∧ x.sent.flatten = program := by
  obtain ⟨cur, happ, hstate⟩ := h.state
  rcases hstate.owner with ⟨tail, hhold, -⟩ | ⟨next, hwaiting, -⟩ | ⟨hfinished, hpc, -⟩
  · rw [hhold.unfinished] at hfin
    cases hfin
  · rw [hwaiting.unfinished] at hfin
    cases hfin
  · have hprogram := h.program_eq
    rw [hfinished.calls, List.flatMap_nil, List.append_nil] at hprogram
    have hpending : w.pc.pending = [] := by rcases hpc with hpc | hpc <;> rw [hpc] <;> rfl
    rw [hfinished.cur_nil, hpending, List.append_nil, List.append_nil] at happ
    exact ⟨⟨hpc, hfinished.queue, hfinished.calls⟩, hprogram, happ.symm.trans hprogram⟩

/-- The segment owned is the one after the blocks sent, and there is room for it. -/
theorem Inv.owned (h : Inv g program x m w) {offset : ℕ} (howned : w.ownedSegment = some offset) :
    offset = g.slot x.sent.length ∧ x.sent.length < x.released + g.segments := by
  obtain ⟨cur, -, hstate⟩ := h.state
  rcases hstate.owner with ⟨tail, hhold, heq⟩ | ⟨next, -, heq⟩ | ⟨-, -, heq⟩
  · rw [heq, Option.some.injEq] at howned
    exact ⟨howned ▸ hhold.offset, hhold.room⟩
  · rw [heq] at howned
    cases howned
  · rw [heq] at howned
    cases howned

/-- A writer is blocked on a full ring only. -/
theorem Inv.full_of_blocked (h : Inv g program x m w) (hshows : g.Shows .bw x stage m)
    (hblocked : w.Blocked m) :
    x.fin = false ∧ 2 ≤ g.segments ∧ x.sent.length = x.released + g.segments := by
  obtain ⟨next, data, rest, hpc, -, hwriteable⟩ := hblocked
  obtain ⟨cur, -, hstate⟩ := h.state
  unfold State at hstate
  simp only [hpc] at hstate
  obtain ⟨-, hwaiting, -⟩ := hstate
  refine ⟨hwaiting.unfinished, hwaiting.multi, ?_⟩
  by_contra hne
  have hroom : x.sent.length < x.released + g.segments := by
    have := x.sent_le
    omega
  rw [hwaiting.next_eq, readHeader_next hshows hroom] at hwriteable
  simp [RingGeometry.freeHeader, SegmentHeader.isWriteable] at hwriteable

end BufferWriterBW

open BufferWriterBW RingSystem

variable {b : BufferRings k}

/-- The bandwidth writer is one the protocol allows. -/
theorem bandwidthSim (htype : b.type = .bw) (program : Fin k → List UInt8) :
    WriterSim b machine (fun _ => True) fun r => Inv (b.ring r) (program r) where
  window _ _ _ _ h := h.window
  frame r x m m' w h hagree := by
    refine h.stable rfl rfl le_rfl fun _ => hagree.mono ?_ ?_
    · have hlo := (b.ring r).le_slot x.sent.length
      simp only [RingGeometry.block, RingGeometry.dataOffset]
      omega
    · have hlo := (b.ring r).le_slot x.sent.length
      have hhi := (b.ring r).slot_add_fullSize_le x.sent.length
      have hcounter := b.counter_fits r
      simp only [RingGeometry.block, RingGeometry.dataOffset]
      unfold RingGeometry.fullSize at hhi ⊢
      omega
  mark r x m m' w h hheld hsent hagree := by
    refine h.stable rfl rfl le_rfl fun hroom => hagree _ _ ?_
    have hapart : (b.ring r).slot x.sent.length + (b.ring r).fullSize ≤ (b.ring r).slot x.released ∨
        (b.ring r).slot x.released + (b.ring r).fullSize ≤ (b.ring r).slot x.sent.length :=
      (b.ring r).slots_apart x.released ⟨by omega, hroom⟩ ⟨le_rfl, by omega⟩ (by omega)
    unfold RingGeometry.dataOffset
    unfold RingGeometry.fullSize at hapart
    omega
  release r x m m' w hsent h _ hagree _ := by
    refine h.stable rfl rfl x.released_le fun _ => hagree _ _ ?_
    exact ((b.ring r).le_slot _).trans (Nat.le_add_right _ _)
  take r x m w hrel hsent h := h.stable rfl rfl le_rfl fun _ => AgreeOn.refl _ _ _
  step r x m w w' h hstep := h.step hstep
  nic r x stage m w m' w' made h _ hshows _ hcredit hstep := by
    rw [htype] at hshows hcredit ⊢
    obtain ⟨x', hmove, hshows', hinv, hagree⟩ := h.nic hshows (hcredit rfl) hstep
    refine ⟨x', hmove, hshows', hinv, fun start len hout => hagree start len fun _ => ?_⟩
    have hlo := (b.ring r).le_slot x.sent.length
    have hhi := (b.ring r).slot_add_fullSize_le x.sent.length
    omega

/-- Writers of the rings of a buffer, whose clients append and then close. -/
def BufferRings.bandwidthWriters (b : BufferRings k) (internalBufferSize : Fin k → ℕ)
    (appends : Fin k → List (List UInt8)) (r : Fin k) : BufferWriterBW :=
  .init (b.ring r).entry (b.ring r).segmentSize (internalBufferSize r)
    ((appends r).map WriterCall.append ++ [WriterCall.close])

/-- A state of the system with the protocol state it is in. -/
abbrev BandwidthRefines (appends : Fin k → List (List UInt8)) (s : RingSystem BufferWriterBW k)
    (a : BufferState b) : Prop :=
  s.Refines (fun r => Inv (b.ring r) (appends r).flatten) a

theorem bandwidth_refines (htype : b.type = .bw) {internalBufferSize : Fin k → ℕ}
    {appends : Fin k → List (List UInt8)}
    (hspare : ∀ r, 2 ≤ (b.ring r).segments ∨ (appends r).flatten.length ≤ (b.ring r).segmentSize)
    (m : Mem) (schedule : List (RingLabel k)) :
    Schedule.Throughout (step .bw machine) (fun s => ∃ a, BandwidthRefines (b := b) appends s a)
      (init b m (b.bandwidthWriters internalBufferSize appends)) schedule := by
  rw [← htype]
  exact refines_throughout_bw (bandwidthSim htype fun r => (appends r).flatten) htype m _
    (fun r => inv_init _ _ _ _ (hspare r)) schedule

theorem BandwidthRefines.exact {appends : Fin k → List (List UInt8)}
    {s : RingSystem BufferWriterBW k} {a : BufferState b} (h : BandwidthRefines appends s a)
    (htype : b.type = .bw) (r : Fin k) :
    returnedBlocks s.log r = (a.ring r).delivered :=
  h.2.blocks r (Or.inl htype)

/-- What `next` has returned is a prefix of what has been appended. -/
theorem BandwidthRefines.returned_isPrefix {appends : Fin k → List (List UInt8)}
    {s : RingSystem BufferWriterBW k} {a : BufferState b} (h : BandwidthRefines appends s a)
    (htype : b.type = .bw) (r : Fin k) :
    (returnedBlocks s.log r).flatten <+: (s.writers r).appended := by
  obtain ⟨cur, happ, -⟩ := (h.1.writer r).state
  rw [h.exact htype, happ, List.append_assoc]
  exact (a.ring r).delivered_isPrefix.flatten.trans (List.prefix_append _ _)

/-- First in, first out, and exactly once: the bytes returned for a ring are a prefix of the
bytes appended on it, and all of them when `has_next` returns false, which it does only
after every writer has closed. -/
theorem bandwidth_fifo (b : BufferRings k) (htype : b.type = .bw)
    (hsegments : ∀ r, 2 ≤ (b.ring r).segments) (internalBufferSize : Fin k → ℕ)
    (appends : Fin k → List (List UInt8)) (m : Mem) (schedule : List (RingLabel k)) :
    Schedule.Throughout (step .bw machine)
      (fun s => (∀ r, (returnedBlocks s.log r).flatten <+: (s.writers r).appended ∧
          (s.writers r).appended <+: (appends r).flatten) ∧
        (.hasNextReturned false ∈ s.log → ∀ r, (s.writers r).Closed ∧
          (returnedBlocks s.log r).flatten = (appends r).flatten))
      (init b m (b.bandwidthWriters internalBufferSize appends)) schedule := by
  intro pre s hpre hs
  obtain ⟨a, ha⟩ := bandwidth_refines htype (fun r => Or.inl (hsegments r)) m schedule pre s hpre hs
  refine ⟨fun r => ⟨ha.returned_isPrefix htype r, ?_⟩, fun hmem r => ?_⟩
  · rw [← (ha.1.writer r).program_eq]
    exact List.prefix_append _ _
  · obtain ⟨hfin, hreturned⟩ := ha.2.exhausted hmem r
    obtain ⟨hclosed, -, hsent⟩ := (ha.1.writer r).finished hfin
    rw [ha.exact htype, LaggedRing.delivered_eq _ hreturned]
    exact ⟨hclosed, hsent⟩

/-- One ring with segments of one byte. -/
def byteSegments (segments : ℕ) (hpos : 0 < segments) (hfits : 0 + segments * 25 < sizeTBound) :
    BufferRings 1 :=
  .single .bw ⟨0, segments, 1, hpos, hfits⟩ (Nat.zero_le _)

/-- The writer fills two segments and closes; the iterator reads them to the end. -/
def twoSegmentRun : List (RingLabel 1) :=
  [.writer 0, .nic 0] ++ List.replicate 4 (.writer 0) ++
    [.nic 0, .writer 0, .nic 0, .writer 0, .nic 0, .writer 0, .writer 0, .nic 0, .writer 0,
      .nic 0] ++
    RingLabel.call .hasNext 2 ++ RingLabel.call .next 6 ++ RingLabel.call .hasNext 2 ++
    RingLabel.call .next 6 ++ RingLabel.call .hasNext 4

theorem bandwidth_fifo_two_segments :
    ((Schedule.exec (step .bw machine) (init (byteSegments 2 (by decide) (by decide)) (fun _ => 0)
      ((byteSegments 2 (by decide) (by decide)).bandwidthWriters (fun _ => 4)
        fun _ => [[7, 9]])) twoSegmentRun).map fun s => s.log.getLast?) =
      some (some (.hasNextReturned false)) ∧
    Schedule.Throughout (step .bw machine)
      (fun s => (∀ r, (returnedBlocks s.log r).flatten <+: (s.writers r).appended ∧
          (s.writers r).appended <+: [[7, 9]].flatten) ∧
        (.hasNextReturned false ∈ s.log → ∀ r, (s.writers r).Closed ∧
          (returnedBlocks s.log r).flatten = [[7, 9]].flatten))
      (init (byteSegments 2 (by decide) (by decide)) (fun _ => 0)
        ((byteSegments 2 (by decide) (by decide)).bandwidthWriters (fun _ => 4)
          fun _ => [[7, 9]])) twoSegmentRun :=
  ⟨by decide +kernel, bandwidth_fifo (byteSegments 2 (by decide) (by decide)) rfl
    (fun _ => le_rfl) (fun _ => 4) (fun _ => [[7, 9]]) (fun _ => 0) twoSegmentRun⟩

/-- While a segment is lent to the client, no operation of a writer touches it, and no
segment is owned by a writer while it is consumable or lent. -/
theorem lent_intact (b : BufferRings k) (htype : b.type = .bw)
    (hsegments : ∀ r, 2 ≤ (b.ring r).segments) (internalBufferSize : Fin k → ℕ)
    (appends : Fin k → List (List UInt8)) (m : Mem) (schedule : List (RingLabel k)) :
    Schedule.Throughout (step .bw machine)
      (fun s => (∀ r offset, lentSegment s.log r = some offset → ∀ r' m' w made,
          nic s.mem (s.writers r') = some (m', w, made) →
          AgreeOn m' s.mem offset (b.ring r).fullSize) ∧
        ∀ r offset, (s.writers r).ownedSegment = some offset →
          (readHeader s.mem offset).isConsumable = false ∧
          ∀ r', lentSegment s.log r' ≠ some offset)
      (init b m (b.bandwidthWriters internalBufferSize appends)) schedule := by
  intro pre s hpre hs
  obtain ⟨a, ha⟩ := bandwidth_refines htype (fun r => Or.inl (hsegments r)) m schedule pre s hpre hs
  have hshows : ∀ r, (b.ring r).Shows .bw (a.ring r) (s.iterator.pcAt r).stage s.mem := by
    intro r
    rw [← htype]
    exact ha.1.shows r
  refine ⟨fun r offset hlent r' m' w made hnic => ?_, fun r offset howned => ⟨?_, ?_⟩⟩
  · obtain ⟨-, hheld, rfl⟩ := ha.2.lent r offset hlent
    obtain ⟨-, -, -, -, hagree⟩ := (ha.1.writer r').nic (hshows r')
      ((ha.1.stage_spec r').2 htype) hnic
    refine hagree _ _ fun hroom => ?_
    by_cases hr : r' = r
    · subst hr
      have hsent := (a.ring r').returned_le_sent
      exact (b.ring r').slots_apart (a.ring r').released
        ⟨le_rfl, Nat.lt_add_of_pos_right (b.ring r').segments_pos⟩
        ⟨by omega, hroom⟩ (by omega)
    · exact b.slots_apart (Ne.symm hr) _ _
  · obtain ⟨rfl, hroom⟩ := (ha.1.writer r).owned howned
    rw [readHeader_next (hshows r) hroom]
    simp [RingGeometry.freeHeader, SegmentHeader.isConsumable]
  · intro r' hlent
    obtain ⟨heq, hroom⟩ := (ha.1.writer r).owned howned
    obtain ⟨-, hheld, hoffset⟩ := ha.2.lent r' offset hlent
    rw [hoffset] at heq
    by_cases hr : r' = r
    · subst hr
      have hsent := (a.ring r').returned_le_sent
      exact (b.ring r').slot_ne (a.ring r').released
        ⟨le_rfl, Nat.lt_add_of_pos_right (b.ring r').segments_pos⟩ ⟨by omega, hroom⟩ (by omega) heq
    · exact b.slot_ne hr _ _ heq

theorem lent_intact_two_segments :
    ((Schedule.exec (step .bw machine) (init (byteSegments 2 (by decide) (by decide)) (fun _ => 0)
      ((byteSegments 2 (by decide) (by decide)).bandwidthWriters (fun _ => 4)
        fun _ => [[7, 9]])) (twoSegmentRun.take 26)).map fun s => lentSegment s.log 0) =
      some (some 0) ∧
    Schedule.Throughout (step .bw machine)
      (fun s => (∀ r offset, lentSegment s.log r = some offset → ∀ r' m' w made,
          nic s.mem (s.writers r') = some (m', w, made) →
          AgreeOn m' s.mem offset ((byteSegments 2 (by decide) (by decide)).ring r).fullSize) ∧
        ∀ r offset, (s.writers r).ownedSegment = some offset →
          (readHeader s.mem offset).isConsumable = false ∧
          ∀ r', lentSegment s.log r' ≠ some offset)
      (init (byteSegments 2 (by decide) (by decide)) (fun _ => 0)
        ((byteSegments 2 (by decide) (by decide)).bandwidthWriters (fun _ => 4)
          fun _ => [[7, 9]])) twoSegmentRun :=
  ⟨by decide +kernel, lent_intact (byteSegments 2 (by decide) (by decide)) rfl
    (fun _ => le_rfl) (fun _ => 4) (fun _ => [[7, 9]]) (fun _ => 0) twoSegmentRun⟩

/-- The statements of `mark_prev_segment` that change a header. -/
def MarkStep.Resets : MarkStep → Prop
  | .counter => True
  | .consumable => True
  | .writeable => True
  | _ => False

/-- `next` is resetting the header of the segment it is about to return. -/
def BufferIterator.ResetsNext (it : BufferIterator k) : Prop :=
  ∃ step h, it.pc = .mark step true ∧ step.Resets ∧ it.segmentIterators.get? = some h ∧
    h.prev = some h.iter

/-- The segment released by `next` is not the one returned: the bounds leave room for two. -/
theorem SysInv.not_resetsNext {ω : Type} {W : ∀ r, RingState (b.ring r) → Mem → ω → Prop}
    {a : BufferState b} {m : Mem} {writers : Fin k → ω} {it : BufferIterator k}
    (hinv : SysInv W a m writers it) : ¬ it.ResetsNext := by
  rintro ⟨mstep, h, hpc, -, hget, hprev⟩
  obtain ⟨⟨bs, as⟩, pc⟩ := it
  cases as with
  | nil => simp at hget
  | cons y as =>
    simp only [Cursor.get?_cons, Option.some.injEq] at hget hpc
    subst hget hpc
    obtain ⟨hhelper, ⟨hrel, hsent, -⟩, -, -⟩ := hinv.current
    rw [hhelper.prev, hhelper.iter] at hprev
    split_ifs at hprev with hzero
    have hle := (a.ring y.ring).sent_le
    exact (b.ring y.ring).slot_ne (a.ring y.ring).released ⟨by omega, by omega⟩
      ⟨by omega, by omega⟩ (by omega) (Option.some.inj hprev)

end DpiLibrary
