import DpiLibrary.Dpi.AppendCloseRead
import DpiLibrary.Dpi.SegmentIterator

/-!
# Reading a closed buffer

The buffer reader, the segment iterator and the buffer iterator return the same bytes
of every ring of a closed buffer that no consumer has touched. The buffer iterator
changes headers while it goes; it is followed in the protocol, where each step of the
client's loop takes work off.
-/

namespace DpiLibrary

variable {k : ℕ}

def MarkStep.work : MarkStep → ℕ
  | .checkEnd => 7
  | .checkWriteable => 7
  | .counter => 6
  | .consumable => 5
  | .writeable => 4
  | .credit => 4

/-- Bound on the steps up to the next return of `next` or the end. -/
def IteratorPc.work : IteratorPc → ℕ
  | .idle => 11
  | .loop => 10
  | .testConsumable => 9
  | .ready => 8
  | .mark step _ => step.work
  | .getRawData => 3
  | .erase => 3
  | .advance _ => 2

namespace BufferIterator

/-- What a client does that reads to the end: it calls `next` when `has_next` has returned
true. -/
def clientAction (it : BufferIterator k) : IteratorAction :=
  match it.pc with
  | .idle => .hasNext
  | .ready => .next
  | _ => .run

/-- `while (it.has_next()) it.next(size)`, up to the return of false. The events are those
in front and those of the loop. -/
def drain (type : Buffertype) :
    ℕ → Mem → BufferIterator k → List (RingEvent k) → Option (Mem × List (RingEvent k))
  | 0, _, _, _ => none
  | fuel + 1, m, it, log =>
    (it.step type m it.clientAction).bind fun (m, it, events) =>
      if .hasNextReturned false ∈ events then some (m, log ++ events)
      else drain type fuel m it (log ++ events)

/-- Leaving a ring takes steps as well. -/
def work (it : BufferIterator k) : ℕ := 8 * it.segmentIterators.toList.length + it.pc.work

end BufferIterator

namespace BufferState

variable {b : BufferRings k}

/-- Every ring is closed. -/
def Closed (a : BufferState b) : Prop := ∀ r, (a.ring r).fin = true ∧ (a.ring r).sent ≠ []

/-- Blocks that `next` has still to return. -/
def toReturn (a : BufferState b) : ℕ := ∑ r, ((a.ring r).sent.length - (a.ring r).returned)

end BufferState

open RingSystem

section

variable {b : BufferRings k} {a a' : BufferState b} {events : List (RingEvent k)}

/-- A move of the consumer leaves what has been sent. -/
theorem RingMove.of_consumer (h : RingMove a events a')
    (hconsumer : ∀ offset, .madeConsumable offset ∉ events) (r : Fin k) :
    (a'.ring r).sent = (a.ring r).sent ∧ (a'.ring r).fin = (a.ring r).fin ∧
      (a'.ring r).returned = (a.ring r).returned + (returnedBlocks events r).length := by
  cases h with
  | stutter => exact ⟨rfl, rfl, rfl⟩
  | ready => exact ⟨rfl, rfl, rfl⟩
  | exhausted hall => exact ⟨rfl, rfl, rfl⟩
  | ask r' hsent => exact ⟨rfl, rfl, rfl⟩
  | land r' block last hroom hfin => exact absurd List.mem_cons_self (hconsumer _)
  | finish r' hfin hsent => exact absurd List.mem_cons_self (hconsumer _)
  | release r' hasked hsent =>
    by_cases hr : r = r'
    · subst hr
      rw [BufferState.set_ring_self]
      exact ⟨rfl, rfl, rfl⟩
    · rw [BufferState.set_ring_of_ne _ hr]
      exact ⟨rfl, rfl, rfl⟩
  | take r' hasked hrel hsent data hdata =>
    by_cases hr : r = r'
    · subst hr
      simp [returnedBlocks]
    · simp [returnedBlocks, hr, Ne.symm hr]

/-- A consumable segment is found at once. -/
def BufferIterator.Finds (it : BufferIterator k) (a : BufferState b) : Prop :=
  it.pc = .testConsumable → ∀ h ∈ it.segmentIterators.get?,
    (a.ring h.ring).returned < (a.ring h.ring).sent.length

theorem RingMove.closed (h : RingMove a events a')
    (hconsumer : ∀ offset, .madeConsumable offset ∉ events) (hclosed : a.Closed) : a'.Closed := by
  intro r
  obtain ⟨hsent, hfin, -⟩ := h.of_consumer hconsumer r
  rw [hsent, hfin]
  exact hclosed r

theorem BufferIterator.Finds.move {it : BufferIterator k} (h : RingMove a events a')
    (hconsumer : ∀ offset, .madeConsumable offset ∉ events)
    (hfinds : it.pc = .testConsumable → events = [] ∧ it.Finds a) : it.Finds a' := by
  intro hpc y hy
  obtain ⟨rfl, hfind⟩ := hfinds hpc
  obtain ⟨hsent, -, hreturned⟩ := h.of_consumer hconsumer y.ring
  rw [hsent, hreturned]
  exact hfind hpc y hy

/-- What a step of the client's loop does on closed rings. -/
inductive DrainStep (m : Mem) (it : BufferIterator k) (a : BufferState b) : Prop
  | last (it' : BufferIterator k)
    (hstep : it.step .bw m it.clientAction = some (m, it', [.hasNextReturned false]))
  | more (m' : Mem) (it' : BufferIterator k) (events : List (RingEvent k))
    (hstep : it.step .bw m it.clientAction = some (m', it', events))
    (hmore : .hasNextReturned false ∉ events)
    (hconsumer : ∀ offset, .madeConsumable offset ∉ events)
    (hfinds : it'.pc = .testConsumable → events = [] ∧ it'.Finds a)
    (hwork : it'.work < it.work + 12 * ∑ r, (returnedBlocks events r).length)

/-- Most steps stay in the call and in the list. -/
theorem DrainStep.within {m m' : Mem} {c c' : Cursor (IterHelper k)} {pc pc' : IteratorPc}
    (hstep : BufferIterator.step .bw m ⟨c, pc⟩ (BufferIterator.clientAction ⟨c, pc⟩) =
      some (m', ⟨c', pc'⟩, events))
    (hmore : .hasNextReturned false ∉ events)
    (hconsumer : ∀ offset, .madeConsumable offset ∉ events) (hpc : pc' ≠ .testConsumable)
    (hlist : c'.toList.length = c.toList.length) (hlt : pc'.work < pc.work) :
    DrainStep m ⟨c, pc⟩ a := by
  apply DrainStep.more m' ⟨c', pc'⟩ events hstep hmore hconsumer (fun h => absurd h hpc)
  simp only [BufferIterator.work, hlist]
  omega

variable {ω : Type} {W : ∀ r, RingState (b.ring r) → Mem → ω → Prop} {m : Mem}
  {writers : Fin k → ω} {it : BufferIterator k}

/-- Head of the loop of `has_next`: the segment returned last is the final one of its ring
only if the ring is read up, and otherwise there is one to return. -/
theorem SysInv.drain_loop {c : Cursor (IterHelper k)} (hinv : SysInv W a m writers ⟨c, .loop⟩)
    (hclosed : a.Closed) : DrainStep m ⟨c, .loop⟩ a := by
  obtain ⟨c', hc', hlist⟩ : ∃ c', c' = (if c.atEnd then .start c.toList else c) ∧
      c'.toList = c.toList := by
    refine ⟨_, rfl, ?_⟩
    split_ifs <;> simp
  have hinv' : SysInv W a m writers ⟨c', .loop⟩ :=
    hinv.rest hlist (Or.inr (Or.inl rfl)) (Or.inr rfl)
  have hstep : BufferIterator.step .bw m ⟨c, .loop⟩ .run =
      some (m, BufferIterator.loopStep m ⟨c, .loop⟩) := rfl
  simp only [BufferIterator.loopStep, ← hc'] at hstep
  obtain ⟨bs, as⟩ := c'
  cases as with
  | nil => exact .last _ hstep
  | cons h as =>
    obtain ⟨hhelper, hrel, hshows, -⟩ := hinv'.current
    have hiff := isEndSegment_prevHeader hhelper hshows hrel
    simp only [Cursor.get?_cons] at hstep
    by_cases hend : (h.prevHeader m).isEndSegment = true
    · rw [if_pos hend] at hstep
      exact .within hstep List.not_mem_nil (fun _ => List.not_mem_nil) (by simp)
        (congrArg List.length hlist) (by decide)
    · rw [if_neg hend] at hstep
      apply DrainStep.more m _ [] hstep List.not_mem_nil (fun _ => List.not_mem_nil)
      · refine fun _ => ⟨rfl, fun _ y hy => ?_⟩
        obtain rfl : h = y := by simpa using hy
        obtain ⟨hfin, hne⟩ := hclosed h.ring
        have hpos := List.length_pos_of_ne_nil hne
        have hle := (a.ring h.ring).returned_le_sent
        by_contra hnot
        exact hend (hiff.mpr ⟨by omega, hfin, by omega⟩)
      · simp only [BufferIterator.work, hlist, IteratorPc.work]
        omega

/-- Every statement of a mark brings it nearer to its end. -/
theorem BufferIterator.markStep_spec (m : Mem) (bs as : List (IterHelper k)) (h : IterHelper k)
    (step : MarkStep) (inNext : Bool) :
    ∃ m' h' pc', BufferIterator.markStep .bw m ⟨⟨bs, h :: as⟩, .mark step inNext⟩ h inNext step =
      (m', ⟨⟨bs, h' :: as⟩, pc'⟩) ∧ pc' ≠ .testConsumable ∧
        pc'.work < step.work := by
  have hafter : BufferIterator.afterMark inNext ≠ .testConsumable ∧
      (BufferIterator.afterMark inNext).work = 3 := by
    cases inNext <;> simp [BufferIterator.afterMark, IteratorPc.work]
  cases step with
  | checkEnd =>
    simp only [BufferIterator.markStep]
    split_ifs
    · refine ⟨m, h, _, rfl, hafter.1, ?_⟩
      rw [hafter.2]
      decide
    · exact ⟨m, h, _, rfl, by simp, Nat.lt_succ_self 6⟩
  | checkWriteable =>
    simp only [BufferIterator.markStep]
    split_ifs
    · exact ⟨m, h, _, rfl, by simp, Nat.lt_succ_self 6⟩
    · refine ⟨m, h, _, rfl, hafter.1, ?_⟩
      rw [hafter.2]
      decide
  | counter => exact ⟨_, _, _, rfl, by simp, Nat.lt_succ_self 5⟩
  | consumable => exact ⟨_, _, _, rfl, by simp, Nat.lt_succ_self 4⟩
  | writeable =>
    refine ⟨_, _, _, rfl, hafter.1, ?_⟩
    rw [hafter.2]
    decide
  | credit =>
    refine ⟨_, _, _, rfl, hafter.1, ?_⟩
    rw [hafter.2]
    decide

/-- One step of the client's loop. -/
theorem SysInv.drain_step (hinv : SysInv W a m writers it)
    (hclosed : a.Closed) (hfinds : it.Finds a) : DrainStep m it a := by
  obtain ⟨⟨bs, as⟩, pc⟩ := it
  cases as with
  | nil =>
    rcases hinv.iterator.atEnd rfl with rfl | rfl
    · have hstep : BufferIterator.step .bw m ⟨⟨bs, []⟩, .idle⟩ .hasNext =
          some (m, ⟨⟨bs, []⟩, .loop⟩, []) := rfl
      exact .within hstep List.not_mem_nil (fun _ => List.not_mem_nil) (by simp) rfl (by decide)
    · exact hinv.drain_loop hclosed
  | cons h as =>
    obtain ⟨hhelper, hphase, hshows, -⟩ := hinv.current
    cases pc with
    | idle =>
      exact .within rfl List.not_mem_nil (fun _ => List.not_mem_nil) (by simp) rfl
        (by decide)
    | loop => exact hinv.drain_loop hclosed
    | ready => exact .within rfl (by simp) (by simp) (by simp) rfl (by decide)
    | testConsumable =>
      have hiff := hshows.isConsumable_iff hphase.2
      have hconsumable := hiff.mpr (hfinds rfl h rfl)
      rw [← hhelper.iter] at hconsumable
      have hstep : BufferIterator.step .bw m ⟨⟨bs, h :: as⟩, .testConsumable⟩ .run =
          some (m, ⟨⟨bs, h :: as⟩, .ready⟩, [.hasNextReturned true]) := by
        simp [BufferIterator.step, hconsumable]
      exact .within hstep (by simp) (by simp) (by simp) rfl (by decide)
    | mark step inNext =>
      obtain ⟨m', h', pc', hmark, hpc, hlt⟩ :=
        BufferIterator.markStep_spec m bs as h step inNext
      have hstep : BufferIterator.step .bw m ⟨⟨bs, h :: as⟩, .mark step inNext⟩ .run =
          some (m', ⟨⟨bs, h' :: as⟩, pc'⟩, []) := by
        simp only [BufferIterator.step, Cursor.get?_cons, hmark]
      exact .within hstep List.not_mem_nil (fun _ => List.not_mem_nil) hpc (by simp) hlt
    | erase =>
      apply DrainStep.more m ⟨⟨bs, as⟩, .loop⟩ [] rfl List.not_mem_nil
        (fun _ => List.not_mem_nil) (by simp)
      simp only [BufferIterator.work, Cursor.toList_mk, List.length_append, List.length_cons,
        IteratorPc.work]
      omega
    | getRawData =>
      have hlt : (IteratorPc.advance (readHeader m h.iter).counter).work <
          IteratorPc.getRawData.work := by
        show 2 < 3
        decide
      exact .within rfl List.not_mem_nil (fun _ => List.not_mem_nil) (by simp) rfl hlt
    | advance retSize =>
      apply DrainStep.more m _ _ rfl (by simp) (by simp) (by simp)
      have hone : ∑ r, (returnedBlocks [RingEvent.nextReturned h.ring h.iter
          (readBytes m (h.iter + segmentHeaderSize) retSize)] r).length = 1 := by
        have hterm : ∀ r, (returnedBlocks [RingEvent.nextReturned h.ring h.iter
            (readBytes m (h.iter + segmentHeaderSize) retSize)] r).length =
            if h.ring = r then 1 else 0 := by
          intro r
          by_cases hr : h.ring = r <;> simp [returnedBlocks, hr]
        simp [hterm]
      rw [hone]
      simp only [BufferIterator.work, Cursor.toList_next, Cursor.modify_cons, Cursor.toList_mk,
        List.length_append, List.length_cons, IteratorPc.work]
      omega

/-- A step of the iterator in the protocol. -/
theorem RingSystem.Refines.iterator_step {machine : WriterMachine ω} {guard : ω → Prop}
    (sim : WriterSim b machine guard W) (htype : b.type = .bw) {m' : Mem} {it' : BufferIterator k}
    {log : List (RingEvent k)} {action : IteratorAction}
    (h : RingSystem.Refines W ⟨m, writers, it, log⟩ a)
    (hstep : it.step .bw m action = some (m', it', events)) :
    ∃ a', RingMove a events a' ∧ RingSystem.Refines W ⟨m', writers, it', log ++ events⟩ a' := by
  have hrun : RingSystem.step b.type machine ⟨m, writers, it, log⟩ (.iterator action) =
      some ⟨m', writers, it', log ++ events⟩ := by
    simp only [RingSystem.step, htype, hstep, Option.map_some]
  have hguarded : RingSystem.Guarded guard ⟨m, writers, it, log⟩ (.iterator action) :=
    h.guarded htype (.iterator action)
  obtain ⟨a', events', hmove, hlog, h'⟩ := h.step sim hguarded hrun
  obtain rfl := List.append_cancel_left hlog
  exact ⟨a', hmove, h'⟩

/-- What is left to return after a move of the consumer. -/
theorem RingMove.toReturn (h : RingMove a events a')
    (hconsumer : ∀ offset, .madeConsumable offset ∉ events) :
    a'.toReturn + ∑ r, (returnedBlocks events r).length = a.toReturn := by
  unfold BufferState.toReturn
  rw [← Finset.sum_add_distrib]
  apply Finset.sum_congr rfl
  intro r _
  obtain ⟨hsent, -, hreturned⟩ := h.of_consumer hconsumer r
  have hle := (a'.ring r).returned_le_sent
  rw [hsent] at hle ⊢
  omega

/-- The client's loop on closed rings ends, and `next` has returned all that was sent. -/
theorem RingSystem.Refines.drain {machine : WriterMachine ω} {guard : ω → Prop}
    (sim : WriterSim b machine guard W) (htype : b.type = .bw) (before : List (RingEvent k)) :
    ∀ (fuel : ℕ) (m : Mem) (it : BufferIterator k) (log : List (RingEvent k)) (a : BufferState b),
      RingSystem.Refines W ⟨m, writers, it, before ++ log⟩ a → a.Closed → it.Finds a →
      12 * a.toReturn + it.work < fuel →
      ∃ m' events, it.drain .bw fuel m log = some (m', events) ∧
        ∀ r, returnedBlocks (before ++ events) r = (a.ring r).sent := by
  intro fuel
  induction fuel with
  | zero => intro m it log a _ _ _ hfuel; omega
  | succ fuel ih =>
    intro m it log a h hclosed hfinds hfuel
    have hsys : SysInv W a m writers it := h.1
    cases hsys.drain_step hclosed hfinds with
    | last it' hstep =>
      obtain ⟨a', hmove, h'⟩ := h.iterator_step sim htype hstep
      refine ⟨m, log ++ [.hasNextReturned false], by simp [BufferIterator.drain, hstep],
        fun r => ?_⟩
      have hdrained := h'.2.exhausted (by simp) r
      rw [← List.append_assoc, h'.2.blocks r (Or.inl htype),
        LaggedRing.delivered_eq _ hdrained.2, (hmove.of_consumer (by simp) r).1]
    | more m' it' events hstep hmore hconsumer hfinds' hwork =>
      obtain ⟨a', hmove, h'⟩ := h.iterator_step sim htype hstep
      have hkeep := hmove.of_consumer hconsumer
      have hleft := hmove.toReturn hconsumer
      rw [List.append_assoc] at h'
      obtain ⟨m'', events', hdrain, hblocks⟩ := ih m' it' (log ++ events) a' h'
        (hmove.closed hconsumer hclosed) (.move hmove hconsumer hfinds') (by omega)
      refine ⟨m'', events', ?_, fun r => ?_⟩
      · simp only [BufferIterator.drain, hstep, Option.bind_some, if_neg hmore]
        exact hdrain
      · rw [hblocks r, (hkeep r).1]

end

open BufferWriterBW

variable {b : BufferRings k} {appends : Fin k → List (List UInt8)}

/-- Without a consumer the iterator stays as it was built, and `next` returns nothing. -/
theorem untouched_of_writers {machine : WriterMachine BufferWriterBW}
    {schedule : List (RingLabel k)} (hlabels : ∀ label ∈ schedule, label.OfWriter)
    {s s' : RingSystem BufferWriterBW k}
    (hrun : Schedule.exec (RingSystem.step .bw machine) s schedule = some s') :
    s'.iterator = s.iterator ∧ ∀ r, returnedBlocks s'.log r = returnedBlocks s.log r := by
  have hthroughout : Schedule.Throughout (RingSystem.step .bw machine)
      (fun t => t.iterator = s.iterator ∧ ∀ r, returnedBlocks t.log r = returnedBlocks s.log r)
      s schedule := by
    refine Schedule.EachStep.throughout ?_ schedule s ⟨rfl, fun _ => rfl⟩
      (Schedule.eachStep_of_forall hlabels)
    rintro t label t' ⟨hiterator, hblocks⟩ hlabel hstep
    cases label with
    | writer r =>
      obtain ⟨w, -, rfl⟩ := Option.map_eq_some_iff.mp hstep
      exact ⟨hiterator, hblocks⟩
    | nic r =>
      obtain ⟨⟨m', w, made⟩, -, rfl⟩ := Option.map_eq_some_iff.mp hstep
      refine ⟨hiterator, fun r' => ?_⟩
      rw [returnedBlocks_append, hblocks]
      cases made <;> simp [returnedBlocks]
    | iterator action => exact hlabel.elim
  exact hthroughout schedule s' (List.prefix_refl _) hrun

/-- A closed ring before any consumer: all of it is in memory. -/
structure ClosedRing {g : RingGeometry} (x : RingState g) (m : Mem) (bytes : List UInt8) :
    Prop where
  shows : g.Shows .bw x .checkEnd m
  returned : x.returned = 0
  released : x.released = 0
  fin : x.fin = true
  nonempty : 0 < x.sent.length
  sent : x.sent.flatten = bytes

theorem BandwidthRefines.closedRing {s : RingSystem BufferWriterBW k} {a : BufferState b}
    (h : BandwidthRefines appends s a) (htype : b.type = .bw) (hidle : s.iterator.pc = .idle)
    (hlog : ∀ r, returnedBlocks s.log r = []) (hclosed : ∀ r, (s.writers r).Closed) (r : Fin k) :
    ClosedRing (a.ring r) s.mem (appends r).flatten := by
  have hfin := (h.1.writer r).fin_of_closed (hclosed r)
  have hreturned : (a.ring r).returned = 0 := by
    rw [← h.2.count r, hlog r, List.length_nil]
  have hreleased : (a.ring r).released = 0 := by
    have hle := (a.ring r).released_le
    omega
  have hstage : (s.iterator.pcAt r).stage = .checkEnd := by
    unfold BufferIterator.pcAt
    rw [hidle]
    split
    · split_ifs <;> rfl
    · rfl
  have hshows := h.1.shows r
  rw [hstage, htype] at hshows
  have hne := (h.1.writer r).nonempty hfin
  exact ⟨hshows, hreturned, hreleased, hfin, List.length_pos_of_ne_nil hne,
    ((h.1.writer r).finished hfin).2.2⟩

/-- Steps that suffice to read a buffer in any of the three ways. -/
def BufferRings.readSteps (b : BufferRings k) : ℕ :=
  12 * ∑ r, (b.ring r).segments + 8 * k + 12

theorem BufferRings.segments_lt_readSteps (b : BufferRings k) (r : Fin k) :
    (b.ring r).segments + 1 < b.readSteps := by
  have hle : (b.ring r).segments ≤ ∑ r, (b.ring r).segments :=
    Finset.single_le_sum (f := fun r => (b.ring r).segments) (fun _ _ => Nat.zero_le _)
      (Finset.mem_univ r)
  unfold readSteps
  omega

theorem BufferRings.work_ofEntries (b : BufferRings k) :
    (BufferIterator.ofEntries b.entries).work = 8 * k + 11 := by
  simp [BufferIterator.work, BufferIterator.ofEntries, BufferRings.entries, IteratorPc.work]

/-- The work of a new iterator. -/
theorem BufferRings.work_lt_readSteps {a : BufferState b}
    (hreleased : ∀ r, (a.ring r).released = 0) :
    12 * a.toReturn + (BufferIterator.ofEntries b.entries).work < b.readSteps := by
  have hle : a.toReturn ≤ ∑ r, (b.ring r).segments := by
    apply Finset.sum_le_sum
    intro r _
    have hsent := (a.ring r).sent_le
    have := hreleased r
    omega
  rw [b.work_ofEntries, readSteps]
  omega

/-- The reader, the segment iterator and the buffer iterator, each started on the memory of a
closed buffer without a consumer, return the same bytes of every ring: those appended. -/
theorem readers_agree (b : BufferRings k) (htype : b.type = .bw) (internalBufferSize : Fin k → ℕ)
    (appends : Fin k → List (List UInt8))
    (hfits : ∀ r, (appends r).flatten.length ≤ (b.ring r).segments * (b.ring r).segmentSize)
    (m : Mem) (schedule : List (RingLabel k)) (hlabels : ∀ label ∈ schedule, label.OfWriter)
    (s : RingSystem BufferWriterBW k)
    (hrun : Schedule.exec (RingSystem.step .bw machine)
      (RingSystem.init b m (b.bandwidthWriters internalBufferSize appends)) schedule = some s)
    (hclosed : ∀ r, (s.writers r).Closed) (fuel : ℕ) (hfuel : b.readSteps ≤ fuel) :
    (∀ name nodeId segmentsPerWriter segmentSizes sizeRead,
      BufferReader.read fuel s.mem (b.handle name nodeId segmentsPerWriter segmentSizes) sizeRead
          false =
        some (if k = 0 then (none, sizeRead)
          else (some ((List.finRange k).flatMap fun r => (appends r).flatten),
            ((List.finRange k).flatMap fun r => (appends r).flatten).length))) ∧
    (∀ r data, BufferReader.readRing s.mem false fuel (b.ring r).entry data =
      some (data ++ (appends r).flatten)) ∧
    (∀ r, let segment : BufferSegment := ⟨(b.ring r).entry, (b.ring r).segmentSize⟩
      SegmentIterator.walk s.mem segment.endIterator fuel segment.beginIterator [] =
        some (appends r).flatten) ∧
    ∃ m' events, (BufferIterator.ofEntries b.entries).drain .bw fuel s.mem [] = some (m', events) ∧
      ∀ r, (returnedBlocks events r).flatten = (appends r).flatten := by
  obtain ⟨a, ha⟩ := bandwidth_refines htype (spare_of_fits hfits) m schedule schedule s
    (List.prefix_refl _) hrun
  obtain ⟨hiterator, hblocks⟩ := untouched_of_writers hlabels hrun
  have hring := ha.closedRing htype (by rw [hiterator]; rfl) hblocks hclosed
  have hlength : ∀ r, (a.ring r).sent.length + 1 < fuel := by
    intro r
    have hsent := (a.ring r).sent_le
    have hreleased := (hring r).released
    have hsteps := b.segments_lt_readSteps r
    omega
  have hread : ∀ r data, BufferReader.readRing s.mem false fuel (b.ring r).entry data =
      some (data ++ (appends r).flatten) := by
    intro r data
    have hshows := BufferReader.readRing_shows (hring r).shows (hring r).released (hring r).fin
      fuel 0 data (hring r).nonempty (by have := hlength r; omega)
    rwa [RingGeometry.slot_zero, List.drop_zero, (hring r).sent] at hshows
  refine ⟨read_handle hread, hread, fun r => ?_, ?_⟩
  · have hshows := SegmentIterator.walk_shows (hring r).shows (hring r).released (hring r).fin
      fuel 0 [] (hring r).nonempty (by have := hlength r; omega)
    rwa [RingGeometry.slot_zero, List.drop_zero, (hring r).sent] at hshows
  · have hstart : RingSystem.Refines (fun r => Inv (b.ring r) (appends r).flatten)
        ⟨s.mem, s.writers, .ofEntries b.entries, s.log ++ []⟩ a := by
      have hnew : s.iterator = .ofEntries b.entries := hiterator
      rw [List.append_nil, ← hnew]
      exact ha
    obtain ⟨m', events, hdrain, hall⟩ := RingSystem.Refines.drain
      (bandwidthSim htype fun r => (appends r).flatten) htype s.log fuel s.mem
      (.ofEntries b.entries) [] a hstart
      (fun r => ⟨(hring r).fin, List.ne_nil_of_length_pos (hring r).nonempty⟩)
      (fun h => absurd h (by simp [BufferIterator.ofEntries]))
      ((b.work_lt_readSteps fun r => (hring r).released).trans_le hfuel)
    refine ⟨m', events, hdrain, fun r => ?_⟩
    have hsent := hall r
    rw [returnedBlocks_append, hblocks r] at hsent
    rw [← (hring r).sent, ← hsent]
    rfl

/-- The writer fills its two segments and closes. -/
def fillTwoRun : List (RingLabel 1) :=
  [.writer 0, .nic 0] ++ List.replicate 4 (.writer 0) ++
    [.nic 0, .writer 0, .nic 0, .writer 0, .nic 0, .writer 0, .writer 0, .nic 0, .writer 0, .nic 0]

theorem readers_agree_two_segments :
    ∃ s, Schedule.exec (RingSystem.step .bw machine)
      (RingSystem.init (byteSegments 2 (by decide) (by decide)) (fun _ => 0)
        ((byteSegments 2 (by decide) (by decide)).bandwidthWriters (fun _ => 4)
          fun _ => [[7, 9]])) fillTwoRun = some s ∧
    BufferReader.readRing s.mem false 44 0 [] = some [7, 9] ∧
    SegmentIterator.walk s.mem .getEndSegmentIterator 44 ⟨0, false⟩ [] = some [7, 9] ∧
    ∃ m' events, (BufferIterator.ofEntries [(0, 0)]).drain .bw 44 s.mem [] = some (m', events) ∧
      (returnedBlocks events (0 : Fin 1)).flatten = [7, 9] := by
  have hclosed : ((Schedule.exec (RingSystem.step .bw machine)
      (RingSystem.init (byteSegments 2 (by decide) (by decide)) (fun _ => 0)
        ((byteSegments 2 (by decide) (by decide)).bandwidthWriters (fun _ => 4)
          fun _ => [[7, 9]])) fillTwoRun).map fun s =>
        ((s.writers 0).pc, (s.writers 0).queue, (s.writers 0).calls)) =
      some (.closing, [], []) := by decide +kernel
  obtain ⟨s, hs, heq⟩ := Option.map_eq_some_iff.mp hclosed
  simp only [Prod.mk.injEq] at heq
  obtain ⟨-, hread, hwalk, m', events, hdrain, hbytes⟩ :=
    readers_agree (byteSegments 2 (by decide) (by decide)) rfl (fun _ => 4) (fun _ => [[7, 9]])
      (fun _ => le_rfl) (fun _ => 0) fillTwoRun (by simp [fillTwoRun, RingLabel.OfWriter]) s hs
      (fun r => by
        rw [Subsingleton.elim r 0]
        exact ⟨Or.inl heq.1, heq.2.1, heq.2.2⟩) 44 (by decide)
  exact ⟨s, hs, hread 0 [], hwalk 0, m', events, hdrain, hbytes 0⟩

end DpiLibrary
