import DpiLibrary.Dpi.AllocatedRing
import DpiLibrary.Dpi.BandwidthRing
import DpiLibrary.Dpi.LatencyRing

/-!
# Writers of either kind

A client holds a `BufferWriter`; which of the two it constructs follows from the type of the
buffer. A ring of a registered buffer has no writer until an appender has joined. Simulations
of kinds of writers add up, so the rings of a buffer of either type, with or without writers,
are covered by the simulations of the two kinds.
-/

namespace DpiLibrary

variable {k : ℕ} {ω ω' : Type}

namespace WriterMachine

/-- A writer of the one kind or the other. -/
def sum (machine : WriterMachine ω) (machine' : WriterMachine ω') : WriterMachine (ω ⊕ ω') where
  step
    | .inl w => (machine.step w).map .inl
    | .inr w => (machine'.step w).map .inr
  nic m
    | .inl w => (machine.nic m w).map fun (m, w, made) => (m, .inl w, made)
    | .inr w => (machine'.nic m w).map fun (m, w, made) => (m, .inr w, made)

/-- A place for a writer. -/
def option (machine : WriterMachine ω) : WriterMachine (Option ω) where
  step w := w.bind fun w => (machine.step w).map some
  nic m w := w.bind fun w => (machine.nic m w).map fun (m, w, made) => (m, some w, made)

end WriterMachine

/-- A ring without a writer is empty. -/
def Joined {g : RingGeometry} (W : RingState g → Mem → ω → Prop) (x : RingState g) (m : Mem) :
    Option ω → Prop
  | none => x = .empty _ _
  | some w => W x m w

namespace WriterSim

variable {b : BufferRings k} {machine : WriterMachine ω} {machine' : WriterMachine ω'}
  {guard : ω → Prop} {guard' : ω' → Prop} {W : ∀ r, RingState (b.ring r) → Mem → ω → Prop}
  {W' : ∀ r, RingState (b.ring r) → Mem → ω' → Prop}

/-- An invariant with a parameter that nobody changes. -/
theorem exists_of_forall {ι : Type} {V : ι → ∀ r, RingState (b.ring r) → Mem → ω → Prop}
    (h : ∀ i, WriterSim b machine guard (V i)) :
    WriterSim b machine guard fun r x m w => ∃ i, V i r x m w where
  window r x m w := fun ⟨i, hV⟩ => (h i).window r x m w hV
  frame r x m m' w := fun ⟨i, hV⟩ hagree => ⟨i, (h i).frame r x m m' w hV hagree⟩
  mark r x m m' w := fun ⟨i, hV⟩ hheld hsent hagree =>
    ⟨i, (h i).mark r x m m' w hV hheld hsent hagree⟩
  release r x m m' w hsent := fun ⟨i, hV⟩ hheld hagree hcount =>
    ⟨i, (h i).release r x m m' w hsent hV hheld hagree hcount⟩
  take r x m w hrel hsent := fun ⟨i, hV⟩ => ⟨i, (h i).take r x m w hrel hsent hV⟩
  step r x m w w' := fun ⟨i, hV⟩ hstep => ⟨i, (h i).step r x m w w' hV hstep⟩
  nic r x stage m w m' w' made := fun ⟨i, hV⟩ hguard hshows hstage hcredit hstep => by
    obtain ⟨x', hmove, hshows', hV', hagree⟩ :=
      (h i).nic r x stage m w m' w' made hV hguard hshows hstage hcredit hstep
    exact ⟨x', hmove, hshows', ⟨i, hV'⟩, hagree⟩

/-- A simulation that holds under a condition on the buffer. -/
theorem and_of_imp {P : Prop} (h : P → WriterSim b machine guard W) :
    WriterSim b machine guard fun r x m w => P ∧ W r x m w where
  window r x m w := fun ⟨hP, hW⟩ => (h hP).window r x m w hW
  frame r x m m' w := fun ⟨hP, hW⟩ hagree => ⟨hP, (h hP).frame r x m m' w hW hagree⟩
  mark r x m m' w := fun ⟨hP, hW⟩ hheld hsent hagree =>
    ⟨hP, (h hP).mark r x m m' w hW hheld hsent hagree⟩
  release r x m m' w hsent := fun ⟨hP, hW⟩ hheld hagree hcount =>
    ⟨hP, (h hP).release r x m m' w hsent hW hheld hagree hcount⟩
  take r x m w hrel hsent := fun ⟨hP, hW⟩ => ⟨hP, (h hP).take r x m w hrel hsent hW⟩
  step r x m w w' := fun ⟨hP, hW⟩ hstep => ⟨hP, (h hP).step r x m w w' hW hstep⟩
  nic r x stage m w m' w' made := fun ⟨hP, hW⟩ hguard hshows hstage hcredit hstep => by
    obtain ⟨x', hmove, hshows', hW', hagree⟩ :=
      (h hP).nic r x stage m w m' w' made hW hguard hshows hstage hcredit hstep
    exact ⟨x', hmove, hshows', ⟨hP, hW'⟩, hagree⟩

theorem sum (sim : WriterSim b machine guard W) (sim' : WriterSim b machine' guard' W') :
    WriterSim b (machine.sum machine') (Sum.elim guard guard')
      fun r x m => Sum.elim (W r x m) (W' r x m) where
  window r x m w := by
    cases w with
    | inl w => exact sim.window r x m w
    | inr w => exact sim'.window r x m w
  frame r x m m' w := by
    cases w with
    | inl w => exact sim.frame r x m m' w
    | inr w => exact sim'.frame r x m m' w
  mark r x m m' w := by
    cases w with
    | inl w => exact sim.mark r x m m' w
    | inr w => exact sim'.mark r x m m' w
  release r x m m' w := by
    cases w with
    | inl w => exact sim.release r x m m' w
    | inr w => exact sim'.release r x m m' w
  take r x m w := by
    cases w with
    | inl w => exact sim.take r x m w
    | inr w => exact sim'.take r x m w
  step r x m w w' h hstep := by
    cases w with
    | inl w =>
      obtain ⟨v, hv, rfl⟩ := Option.map_eq_some_iff.mp hstep
      exact sim.step r x m w v h hv
    | inr w =>
      obtain ⟨v, hv, rfl⟩ := Option.map_eq_some_iff.mp hstep
      exact sim'.step r x m w v h hv
  nic r x stage m w m' w' made h hguard hshows hstage hcredit hstep := by
    cases w with
    | inl w =>
      obtain ⟨⟨m₁, v, made₁⟩, hv, heq⟩ := Option.map_eq_some_iff.mp hstep
      cases heq
      exact sim.nic r x stage m w _ v _ h hguard hshows hstage hcredit hv
    | inr w =>
      obtain ⟨⟨m₁, v, made₁⟩, hv, heq⟩ := Option.map_eq_some_iff.mp hstep
      cases heq
      exact sim'.nic r x stage m w _ v _ h hguard hshows hstage hcredit hv

theorem option (sim : WriterSim b machine guard W) :
    WriterSim b machine.option (fun w => ∀ v ∈ w, guard v) fun r => Joined (W r) where
  window r x m w h := by
    cases w with
    | none =>
      left
      rw [show x = .empty _ _ from h]
      exact Nat.add_pos_right _ (b.ring r).segments_pos
    | some w => exact sim.window r x m w h
  frame r x m m' w h := by
    cases w with
    | none => exact fun _ => h
    | some w => exact sim.frame r x m m' w h
  mark r x m m' w h := by
    cases w with
    | none => exact fun _ _ _ => h
    | some w => exact sim.mark r x m m' w h
  release r x m m' w hsent h := by
    cases w with
    | none =>
      rw [show x = .empty _ _ from h] at hsent
      exact absurd hsent (Nat.lt_irrefl 0)
    | some w => exact sim.release r x m m' w hsent h
  take r x m w hrel hsent h := by
    cases w with
    | none =>
      rw [show x = .empty _ _ from h] at hsent
      exact absurd hsent (Nat.lt_irrefl 0)
    | some w => exact sim.take r x m w hrel hsent h
  step r x m w w' h hstep := by
    obtain ⟨v, rfl, hv⟩ := Option.bind_eq_some_iff.mp hstep
    obtain ⟨v', hv', rfl⟩ := Option.map_eq_some_iff.mp hv
    exact sim.step r x m v v' h hv'
  nic r x stage m w m' w' made h hguard hshows hstage hcredit hstep := by
    obtain ⟨v, rfl, hv⟩ := Option.bind_eq_some_iff.mp hstep
    obtain ⟨⟨m₁, v', made₁⟩, hv', heq⟩ := Option.map_eq_some_iff.mp hv
    cases heq
    exact sim.nic r x stage m v _ v' _ h (hguard v rfl) hshows hstage hcredit hv'

end WriterSim

/-- A latency writer writes a header alone only where there is a segment. -/
theorem BufferWriterLat.Inv.writeHeader_slot {g : RingGeometry} {program : List (List UInt8)}
    {x : RingState g} {m : Mem} {w : BufferWriterLat} (h : BufferWriterLat.Inv g program x m w)
    {remote : ℕ} {queue : List LatOp} (hqueue : w.queue = .writeHeader remote :: queue) :
    ∃ j, remote = g.slot j := by
  obtain ⟨posted, -, ⟨tail, hfly, hdetail⟩ | hfinished⟩ := h.state
  · obtain ⟨ops, rest, -, hops, hinflight⟩ := hfly.queue
    cases ops with
    | nil =>
      rw [List.nil_append, hqueue] at hops
      subst hops
      unfold BufferWriterLat.Detail at hdetail
      cases hpc : w.pc <;> simp only [hpc] at hdetail
      case closing =>
        have htail := hdetail.1
        simp only [List.cons.injEq, LatOp.writeHeader.injEq] at htail
        exact ⟨_, htail.1⟩
      all_goals simp at hdetail
    | cons op ops =>
      rw [List.cons_append, hqueue] at hops
      obtain ⟨rfl, -⟩ := List.cons.inj hops
      exact hinflight.elim
  · rw [hfinished.queue] at hqueue
    cases hqueue

/-- A writer of either kind. -/
abbrev BufferWriter := BufferWriterBW ⊕ BufferWriterLat

namespace BufferWriter

def machine : WriterMachine BufferWriter := BufferWriterBW.machine.sum BufferWriterLat.machine

/-- The writer that an appender constructs with the handle its join returns and the ring named
there. Its client appends the messages and closes. -/
def construct (handle : BufferHandle) (segment : BufferSegment) (internalBufferSize : ℕ)
    (messages : List Message) : BufferWriter :=
  match handle.buffertype with
  | .bw => .inl (.init segment.offset handle.segmentSizes internalBufferSize
      ((messages.map Message.data).map WriterCall.append ++ [WriterCall.close]))
  | .lat => .inr (.init segment.offset handle.segmentsPerWriter handle.segmentSizes
      internalBufferSize (messages.map LatCall.append ++ [LatCall.close]))

/-- What the client has passed to `append` so far. -/
def appendedBytes : BufferWriter → List UInt8 :=
  Sum.elim BufferWriterBW.appended fun w => w.appended.flatten

def Closed : BufferWriter → Prop := Sum.elim BufferWriterBW.Closed BufferWriterLat.Closed

instance : ∀ w : BufferWriter, Decidable w.Closed
  | .inl w => inferInstanceAs (Decidable ((w.pc = .closing ∨ w.pc = .closed) ∧ _))
  | .inr w => inferInstanceAs (Decidable ((w.pc = .closing ∨ w.pc = .closed) ∧ _))

/-- The write that a latency writer's queue pair executes next carries the bytes it was posted
with. -/
def CarriesPosted : BufferWriter → Prop := Sum.elim (fun _ => True) BufferWriterLat.CarriesPosted

instance (w : BufferWriter) : Decidable w.CarriesPosted :=
  match w with
  | .inl _ => .isTrue trivial
  | .inr w => inferInstanceAs (Decidable w.CarriesPosted)

/-- Every message fills a segment, where the writer sends one message with each. -/
def FillsSegments (segmentSize : ℕ) : BufferWriter → Prop :=
  Sum.elim (fun _ => True) fun w => ∀ data ∈ w.appended, data.length = segmentSize

/-- The writer is of the kind of its buffer and keeps the invariant of that kind. -/
def Inv (type : Buffertype) {g : RingGeometry} (x : RingState g) (m : Mem) : BufferWriter → Prop :=
  Sum.elim (fun w => type = .bw ∧ ∃ program, BufferWriterBW.Inv g program x m w)
    fun w => type = .lat ∧ ∃ program, BufferWriterLat.Inv g program x m w

theorem sim {b : BufferRings k} (hsegments : ∀ r, 2 ≤ (b.ring r).segments) :
    WriterSim b machine CarriesPosted fun _ x m w => Inv b.type x m w :=
  (WriterSim.and_of_imp fun htype => .exists_of_forall fun program =>
    bandwidthSim htype fun _ => program).sum
  (WriterSim.and_of_imp fun htype => .exists_of_forall fun program =>
    latencySim htype (fun _ => program) fun r => Or.inl (hsegments r))

variable {type : Buffertype} {g : RingGeometry} {x : RingState g} {m : Mem} {w : BufferWriter}

/-- What has been sent has been appended before. -/
theorem Inv.sent_isPrefix (h : w.Inv type x m) : x.sent.flatten <+: w.appendedBytes := by
  cases w with
  | inl w =>
    obtain ⟨-, program, h⟩ := h
    obtain ⟨cur, happ, -⟩ := h.state
    have hsplit : w.appended = x.sent.flatten ++ (cur ++ w.pc.pending) := by
      rw [happ, List.append_assoc]
    exact ⟨_, hsplit.symm⟩
  | inr w =>
    obtain ⟨-, program, h⟩ := h
    exact h.sent_isPrefix.flatten

/-- A ring is finished once its writer has closed and all has been sent. -/
theorem Inv.finished (h : w.Inv type x m) (hfin : x.fin = true) :
    w.Closed ∧ x.sent.flatten = w.appendedBytes := by
  cases w with
  | inl w =>
    obtain ⟨-, program, h⟩ := h
    obtain ⟨hclosed, happended, hsent⟩ := h.finished hfin
    exact ⟨hclosed, hsent.trans happended.symm⟩
  | inr w =>
    obtain ⟨-, program, h⟩ := h
    obtain ⟨hclosed, happended, hsent⟩ := h.finished hfin
    exact ⟨hclosed, congrArg List.flatten (hsent.trans happended.symm)⟩

theorem Inv.exact (h : w.Inv type x m) (hfills : w.FillsSegments g.segmentSize) :
    type = .bw ∨ ∀ block ∈ x.sent, block.length = g.segmentSize := by
  cases w with
  | inl w => exact Or.inl h.1
  | inr w =>
    obtain ⟨-, program, h⟩ := h
    exact Or.inr fun block hblock => hfills block (h.sent_isPrefix.subset hblock)

/-- The data of a segment that is not yet released is left alone. -/
theorem Inv.nic_data {stage : MarkStep} {m' : Mem} {w' : BufferWriter} {made : Option ℕ}
    (h : w.Inv type x m) (hguard : w.CarriesPosted) (hshows : g.Shows type x stage m)
    (hstage : (∀ y, stage.applied y = y) ∨ x.returned < x.sent.length)
    (hcredit : type = .bw → stage ≠ .credit) (hcounter : NodeServer.counterSize type ≤ g.entry)
    (hstep : machine.nic m w = some (m', w', made)) {j : ℕ} (hheld : x.released ≤ j)
    (hsent : j < x.sent.length) : AgreeOn m' m (g.dataOffset j) g.segmentSize := by
  have hwindow := x.sent_le
  -- where the next block goes there is nothing to release
  have hnext : x.sent.length < x.released + g.segments →
      g.dataOffset j + g.segmentSize ≤ g.slot x.sent.length ∨
        g.slot x.sent.length + g.fullSize ≤ g.dataOffset j := by
    intro hroom
    have hapart := g.slots_apart x.released ⟨hheld, by omega⟩ ⟨by omega, hroom⟩
      (Nat.ne_of_lt hsent)
    unfold RingGeometry.fullSize RingGeometry.dataOffset at *
    omega
  cases w with
  | inl w =>
    obtain ⟨rfl, program, h⟩ := h
    obtain ⟨⟨m₁, v, made₁⟩, hv, heq⟩ := Option.map_eq_some_iff.mp hstep
    cases heq
    obtain ⟨-, -, -, -, hagree⟩ := h.nic hshows (hcredit rfl) hv
    exact hagree _ _ hnext
  | inr w =>
    obtain ⟨rfl, program, h⟩ := h
    obtain ⟨⟨m₁, v, made₁⟩, hv, heq⟩ := Option.map_eq_some_iff.mp hstep
    cases heq
    have hexecuted := h.nic hguard hshows hstage hcounter hv
    change w.nic m = _ at hv
    cases hqueue : w.queue with
    | nil => simp [BufferWriterLat.nic, hqueue] at hv
    | cons op queue =>
      cases op with
      | write remote src posted =>
        obtain ⟨x', hx'⟩ := hexecuted
        obtain ⟨hroom, hout⟩ := hx'.write remote src posted queue hqueue
        exact hout _ _ (hnext hroom)
      | writeHeader remote =>
        obtain ⟨j', rfl⟩ := h.writeHeader_slot hqueue
        simp only [BufferWriterLat.nic, hqueue, Option.some.injEq, Prod.mk.injEq] at hv
        obtain ⟨rfl, -, -⟩ := hv
        apply agreeOn_writeHeader
        have hapart := g.slot_eq_or_apart j j'
        unfold RingGeometry.fullSize RingGeometry.dataOffset at *
        omega
      | readHeader remote =>
        simp only [BufferWriterLat.nic, hqueue, Option.some.injEq, Prod.mk.injEq] at hv
        obtain ⟨rfl, -, -⟩ := hv
        exact AgreeOn.refl _ _ _
      | readCounter remote =>
        simp only [BufferWriterLat.nic, hqueue, Option.some.injEq, Prod.mk.injEq] at hv
        obtain ⟨rfl, -, -⟩ := hv
        exact AgreeOn.refl _ _ _

/-- A writer just constructed, on a ring that no other writer has touched. -/
theorem inv_construct {handle : BufferHandle} {segment : BufferSegment} (internalBufferSize : ℕ)
    {messages : List Message} (hentry : g.entry = segment.offset)
    (hcount : g.segments = handle.segmentsPerWriter) (hsize : g.segmentSize = handle.segmentSizes)
    (hsegments : 2 ≤ g.segments)
    (hmessages : handle.buffertype = .lat → messages ≠ [] ∧
      ∀ message ∈ messages, message.data.length ≤ handle.segmentSizes)
    (hshows : g.Shows handle.buffertype (.empty _ _) .checkEnd m) :
    (construct handle segment internalBufferSize messages).Inv handle.buffertype
      (.empty (List UInt8) g.segments) m := by
  unfold construct
  cases htype : handle.buffertype with
  | bw =>
    refine ⟨rfl, (messages.map Message.data).flatten, ?_⟩
    rw [← hentry, ← hsize]
    exact BufferWriterBW.inv_init g m internalBufferSize _ (Or.inl hsegments)
  | lat =>
    obtain ⟨hne, hlengths⟩ := hmessages htype
    rw [htype] at hshows
    refine ⟨rfl, messages.map Message.data, ?_⟩
    rw [← hentry, ← hsize, ← hcount]
    exact BufferWriterLat.inv_init g internalBufferSize messages (Or.inr ⟨rfl, hne⟩)
      (fun message hmem => hsize ▸ hlengths message hmem) hshows

end BufferWriter
end DpiLibrary
