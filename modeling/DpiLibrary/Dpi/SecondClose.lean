import DpiLibrary.Dpi.BandwidthResets
import DpiLibrary.Dpi.LatencyResets

/-!
# Closing twice

`DPI_Close_buffer` closes a writer and `DPI_Finalize` closes it once more. The second header
finds itself in memory, so that neither the memory nor the consumer can tell the difference.
On a bandwidth buffer this is so in every run. On a latency buffer it takes a first header that
does not arrive in the middle of a reset of its segment, which a ring of one segment does not
rule out.
-/

namespace DpiLibrary

variable {ω : Type} {k : ℕ}

/-- A step of anything but the writer of ring `r` and its queue pair. -/
def RingLabel.Spares (r : Fin k) : RingLabel k → Prop
  | .writer r' | .nic r' => r' ≠ r
  | .iterator _ => True

namespace RingSystem

variable {type : Buffertype} {machine : WriterMachine ω} {r : Fin k}
  {s t s' t' s₀ t₀ : RingSystem ω k} {label : RingLabel k}

/-- What a run from `start` shows: the memory, the iterator and the events of the run. -/
def shownFrom (start s : RingSystem ω k) : Mem × BufferIterator k × List (RingEvent k) :=
  (s.mem, s.iterator, s.log.drop start.log.length)

/-- Further runs that leave the writer of ring `r` alone are the same from `s` and from `t`. -/
def SameRuns (type : Buffertype) (machine : WriterMachine ω) (r : Fin k) (s t : RingSystem ω k) :
    Prop :=
  ∀ further : List (RingLabel k), (∀ label ∈ further, label.Spares r) →
    (Schedule.exec (step type machine) t further).map (shownFrom t) =
      (Schedule.exec (step type machine) s further).map (shownFrom s)

/-- An operation of a writer that has been closed for the second time changes no byte, and all
goes on as without it. -/
def SecondCloseUnseen (type : Buffertype) (machine : WriterMachine ω) (closedTwice : ω → Prop)
    (s : RingSystem ω k) (label : RingLabel k) : Prop :=
  ∀ r t, label = .nic r → closedTwice (s.writers r) → s.step type machine label = some t →
    t.mem = s.mem ∧ SameRuns type machine r s t

/-- Two runs, from `s₀` and from `t₀`, that differ in the writer of ring `r` alone. -/
structure Alike (r : Fin k) (s₀ t₀ s t : RingSystem ω k) : Prop where
  mem : t.mem = s.mem
  iterator : t.iterator = s.iterator
  writers : ∀ r', r' ≠ r → t.writers r' = s.writers r'
  log : ∃ events, s.log = s₀.log ++ events ∧ t.log = t₀.log ++ events

theorem Alike.shownFrom (h : Alike r s₀ t₀ s t) : shownFrom t₀ t = shownFrom s₀ s := by
  obtain ⟨events, hs, ht⟩ := h.log
  simp only [RingSystem.shownFrom, h.mem, h.iterator, hs, ht, List.drop_left]

theorem Alike.move (h : Alike r s₀ t₀ s t) {mem : Mem} {iterator : BufferIterator k}
    {writers writers' : Fin k → ω} (hwriters : ∀ r', r' ≠ r → writers' r' = writers r')
    (events : List (RingEvent k)) :
    Alike r s₀ t₀ ⟨mem, writers, iterator, s.log ++ events⟩
      ⟨mem, writers', iterator, t.log ++ events⟩ := by
  obtain ⟨earlier, hs, ht⟩ := h.log
  refine ⟨rfl, rfl, hwriters, earlier ++ events, ?_, ?_⟩
  · rw [← List.append_assoc, ← hs]
  · rw [← List.append_assoc, ← ht]

/-- The writers stay alike when the same ring is updated in both. -/
theorem update_alike {writers writers' : Fin k → ω}
    (h : ∀ r', r' ≠ r → writers' r' = writers r') (r₁ : Fin k) (w : ω) (r' : Fin k) (hr : r' ≠ r) :
    Function.update writers' r₁ w r' = Function.update writers r₁ w r' := by
  by_cases heq : r' = r₁
  · rw [heq, Function.update_self, Function.update_self]
  · rw [Function.update_of_ne heq, Function.update_of_ne heq, h r' hr]

variable (type machine) in
/-- Both make the same step, or neither does. -/
theorem Alike.step (h : Alike r s₀ t₀ s t) (hspares : label.Spares r) :
    s.step type machine label = none ∧ t.step type machine label = none ∨
      ∃ s' t', s.step type machine label = some s' ∧ t.step type machine label = some t' ∧
        Alike r s₀ t₀ s' t' := by
  cases label with
  | writer r₁ =>
    have hwriter := h.writers r₁ hspares
    cases hstep : machine.step (s.writers r₁) with
    | none => exact Or.inl (by simp [RingSystem.step, hwriter, hstep])
    | some w =>
      refine Or.inr ⟨_, _, by rw [RingSystem.step, hstep]; rfl,
        by rw [RingSystem.step, hwriter, hstep]; rfl, ?_⟩
      exact ⟨h.mem, h.iterator, update_alike h.writers r₁ w, h.log⟩
  | nic r₁ =>
    have hwriter := h.writers r₁ hspares
    cases hstep : machine.nic s.mem (s.writers r₁) with
    | none => exact Or.inl (by simp [RingSystem.step, hwriter, h.mem, hstep])
    | some result =>
      obtain ⟨mem, w, made⟩ := result
      refine Or.inr ⟨_, _, by rw [RingSystem.step, hstep]; rfl,
        by rw [RingSystem.step, hwriter, h.mem, hstep]; rfl, ?_⟩
      rw [h.iterator]
      exact h.move (update_alike h.writers r₁ w) _
  | iterator action =>
    cases hstep : s.iterator.step type s.mem action with
    | none => exact Or.inl (by simp [RingSystem.step, h.iterator, h.mem, hstep])
    | some result =>
      obtain ⟨mem, iterator, events⟩ := result
      refine Or.inr ⟨_, _, by rw [RingSystem.step, hstep]; rfl,
        by rw [RingSystem.step, h.iterator, h.mem, hstep]; rfl, ?_⟩
      exact h.move h.writers events

theorem Alike.exec (h : Alike r s₀ t₀ s t) {further : List (RingLabel k)}
    (hspares : ∀ label ∈ further, label.Spares r) :
    (Schedule.exec (RingSystem.step type machine) t further).map (RingSystem.shownFrom t₀) =
      (Schedule.exec (RingSystem.step type machine) s further).map
        (RingSystem.shownFrom s₀) := by
  induction further generalizing s t with
  | nil =>
    simp only [Schedule.exec_nil, Option.map_some]
    rw [h.shownFrom]
  | cons label further ih =>
    obtain ⟨hlabel, hfurther⟩ := List.forall_mem_cons.mp hspares
    rw [Schedule.exec_cons, Schedule.exec_cons]
    rcases h.step type machine hlabel with ⟨hs, ht⟩ | ⟨s', t', hs, ht, h'⟩
    · rw [hs, ht]
      rfl
    · rw [hs, ht]
      exact ih h' hfurther

/-- Where the writer's step shows nothing, all further runs are the same. -/
theorem sameRuns_of_alike (hmem : t.mem = s.mem) (hiterator : t.iterator = s.iterator)
    (hwriters : ∀ r', r' ≠ r → t.writers r' = s.writers r') : SameRuns type machine r s t := by
  intro further hspares
  have halike : Alike r s t s t :=
    ⟨hmem, hiterator, hwriters, [], (List.append_nil _).symm, (List.append_nil _).symm⟩
  exact halike.exec hspares

/-- Writers with their rings, and an iterator on them, in every run whose steps meet `guard`. -/
structure ClosingSim (b : BufferRings k) (type : Buffertype) (machine : WriterMachine ω)
    (closedTwice : ω → Prop) (guard : RingSystem ω k → RingLabel k → Prop)
    (W : Fin k → Mem → ω → Prop) (At : Mem → IterHelper k → IteratorPc → Prop) : Prop where
  walk : ∀ writers : Fin k → ω, RingRules type b (fun r m => W r m (writers r)) At
  step : ∀ r m w w', W r m w → machine.step w = some w' → W r m w'
  nic : ∀ (s : RingSystem ω k) r m' w' made,
    Walks (fun r m => W r m (s.writers r)) At s.mem s.iterator → guard s (.nic r) →
    machine.nic s.mem (s.writers r) = some (m', w', made) →
    W r m' w' ∧ (closedTwice (s.writers r) → m' = s.mem) ∧
      (∀ h ∈ s.iterator.segmentIterators.toList, h.ring = r →
        At s.mem h (s.iterator.pcAt r) → At m' h (s.iterator.pcAt r)) ∧
      ∀ start len, start + len ≤ ((b.ring r).block b.type).start ∨
        ((b.ring r).block b.type).start + ((b.ring r).block b.type).length ≤ start →
        AgreeOn m' s.mem start len

section

variable {b : BufferRings k} {closedTwice : ω → Prop}
  {guard : RingSystem ω k → RingLabel k → Prop} {W : Fin k → Mem → ω → Prop}
  {At : Mem → IterHelper k → IteratorPc → Prop}

theorem ClosingSim.keeps (sim : ClosingSim b type machine closedTwice guard W At)
    (h : Walks (fun r m => W r m (s.writers r)) At s.mem s.iterator) (hguard : guard s label)
    (hstep : s.step type machine label = some t) :
    Walks (fun r m => W r m (t.writers r)) At t.mem t.iterator := by
  cases label with
  | writer r =>
    obtain ⟨w, hw, rfl⟩ := Option.map_eq_some_iff.mp hstep
    refine ⟨fun r' => ?_, h.nodup, h.helper, h.atEnd⟩
    by_cases hr : r' = r
    · subst hr
      simp only [Function.update_self]
      exact sim.step _ _ _ _ (h.ring _) hw
    · simp only [Function.update_of_ne hr]
      exact h.ring r'
  | nic r =>
    obtain ⟨⟨m', w, made⟩, hnic, rfl⟩ := Option.map_eq_some_iff.mp hstep
    obtain ⟨hown, -, hat, hout⟩ := sim.nic s r m' w made h hguard hnic
    apply h.writes (sim.walk s.writers) (r := r) (fun r' hr => b.agreeOn_other hr hout) _ _ hat
    · simp only [Function.update_self]
      exact hown
    · intro r' hr
      simp only [Function.update_of_ne hr]
      exact id
  | iterator action =>
    obtain ⟨⟨m', it', events⟩, hit, rfl⟩ := Option.map_eq_some_iff.mp hstep
    exact h.step (sim.walk s.writers) hit

theorem ClosingSim.unseen (sim : ClosingSim b type machine closedTwice guard W At)
    (h : Walks (fun r m => W r m (s.writers r)) At s.mem s.iterator) (hguard : guard s label) :
    SecondCloseUnseen type machine closedTwice s label := by
  rintro r t rfl htwice hstep
  obtain ⟨⟨m', w, made⟩, hnic, rfl⟩ := Option.map_eq_some_iff.mp hstep
  obtain ⟨-, hquiet, -, -⟩ := sim.nic s r m' w made h hguard hnic
  have hmem := hquiet htwice
  exact ⟨hmem, sameRuns_of_alike hmem rfl fun r' hr => Function.update_of_ne hr _ _⟩

theorem ClosingSim.eachStep (sim : ClosingSim b type machine closedTwice guard W At)
    (h : Walks (fun r m => W r m (s.writers r)) At s.mem s.iterator)
    {schedule : List (RingLabel k)}
    (hguard : Schedule.EachStep (RingSystem.step type machine) guard s schedule) :
    Schedule.EachStep (RingSystem.step type machine)
      (SecondCloseUnseen type machine closedTwice) s schedule := by
  have hthrough := hguard.throughout
    (I := fun s => Walks (fun r m => W r m (s.writers r)) At s.mem s.iterator)
    (fun s label t h hguard hstep => sim.keeps h hguard hstep) schedule s h
  intro pre label u v hpre hu hv
  have hwalks := hthrough pre u ((List.prefix_append pre [label]).trans hpre) hu
  exact sim.unseen hwalks (hguard pre label u v hpre hu hv)

/-- Helpers of an iterator just made. -/
theorem walker_start (b : BufferRings k) {h : IterHelper k}
    (hmem : h ∈ (BufferIterator.ofEntries b.entries).segmentIterators.toList) :
    Walker b.type (b.ring h.ring) h ∧ h.prev = none := by
  have hhelper := b.iterInv_start.helper h hmem
  have hprev : h.prev = none := hhelper.prev
  exact ⟨⟨Or.inl ⟨hprev, _, hhelper.iter⟩, hhelper.sentinel, hhelper.counterOffset⟩, hprev⟩

theorem walks_start {K : Fin k → Mem → Prop} {m : Mem} (hK : ∀ r, K r m)
    (hat : ∀ h ∈ (BufferIterator.ofEntries b.entries).segmentIterators.toList, At m h .idle) :
    Walks K At m (.ofEntries b.entries) := by
  refine ⟨hK, b.iterInv_start.nodup, fun h hh => ?_, b.iterInv_start.atEnd⟩
  have hidle : (BufferIterator.ofEntries b.entries).pcAt h.ring = .idle := by
    unfold BufferIterator.pcAt
    split
    · split_ifs <;> rfl
    · rfl
  rw [hidle]
  exact hat h hh

end

end RingSystem

variable {b : BufferRings k}

open RingSystem

namespace BufferWriterBW

theorem closingSim (htype : b.type = .bw) :
    ClosingSim b .bw machine (fun w => w.calls = []) (fun _ _ => True)
      (fun r m w => Reclosing (b.ring r) m w) (ResetsOwn b) where
  walk writers := resetRules b writers
  step _ _ _ _ h hstep := h.step hstep
  nic s r m' w' made hwalks _ hnic := by
    have hK := hwalks.ring r
    obtain ⟨hown, hkeeps, hquiet⟩ := hK.nic hnic
    refine ⟨hown, hquiet, ?_, fun start len hside => hK.nic_outside hnic ?_⟩
    · rintro h - rfl ⟨hw, hphase⟩
      exact ⟨hw, hphase.keeps hK.freeOnly hkeeps hw⟩
    · simp only [RingGeometry.block, htype, NodeServer.counterSize] at hside
      omega

end BufferWriterBW

/-- Writers whose clients append and then close them twice. -/
def BufferRings.bandwidthClosedTwice (b : BufferRings k) (internalBufferSize : Fin k → ℕ)
    (appends : Fin k → List (List UInt8)) (r : Fin k) : BufferWriterBW :=
  .init (b.ring r).entry (b.ring r).segmentSize (internalBufferSize r)
    ((appends r).map WriterCall.append ++ [.close, .close])

namespace BufferWriterLat

/-- A write executed next carries what it was posted with, and the header of a first `close` does
not go to the segment that the iterator is resetting. -/
def SealsClear (s : RingSystem BufferWriterLat k) : RingLabel k → Prop
  | .nic r => (s.writers r).CarriesPosted ∧
    ∀ off ∈ (s.writers r).sealing, s.iterator.resetting ≠ some off
  | _ => True

instance (s : RingSystem BufferWriterLat k) (label : RingLabel k) :
    Decidable (SealsClear s label) :=
  match label with
  | .writer _ => .isTrue trivial
  | .nic r => inferInstanceAs (Decidable ((s.writers r).CarriesPosted ∧
    ∀ off ∈ (s.writers r).sealing, s.iterator.resetting ≠ some off))
  | .iterator _ => .isTrue trivial

/-- The iterator resets the segment behind the current helper. -/
theorem resetting_of_pcAt {it : BufferIterator k} {h : IterHelper k}
    (hnodup : (it.segmentIterators.toList.map IterHelper.ring).Nodup)
    (hmem : h ∈ it.segmentIterators.toList) (hresets : (it.pcAt h.ring).Resets) :
    it.resetting = h.prev := by
  unfold BufferIterator.pcAt at hresets
  split at hresets
  · next y hy =>
    split_ifs at hresets with heq
    · have hyh : y = h := List.inj_on_of_nodup_map hnodup (Cursor.mem_toList_of_get? hy) hmem heq
      rw [BufferIterator.resetting, if_pos hresets, hy, hyh, Option.bind_some]
    · exact hresets.elim
  · exact hresets.elim

theorem closingSim (htype : b.type = .lat) :
    ClosingSim b .lat machine (fun w => w.calls = []) SealsClear
      (fun r m w => Reclosing (b.ring r) m w) (ClearsOwn b) where
  walk writers := clearRules b htype writers
  step _ _ _ _ h hstep := h.step hstep
  nic s r m' w' made hwalks hclear hnic := by
    obtain ⟨hcarries, hsealing⟩ := hclear
    obtain ⟨hown, hkeeps, hquiet⟩ := (hwalks.ring r).nic hcarries hnic
    refine ⟨hown, hquiet, ?_, fun start len hside => hkeeps.outside start len ?_⟩
    · rintro h hh rfl ⟨hw, hphase⟩
      refine ⟨hw, hphase.keeps hw hkeeps.final fun hresets j hprev hend => ?_⟩
      apply hkeeps.opened j _ hend
      intro hseals
      apply hsealing _ hseals
      rw [resetting_of_pcAt hwalks.nodup hh hresets, hprev]
    · simp only [RingGeometry.block, htype, NodeServer.counterSize] at hside
      omega

end BufferWriterLat

/-- On a bandwidth buffer the second `close` goes unseen in every run. On a latency buffer it does
so if no message is longer than a segment, as long as the messages arrive as they were posted and
no header of a first `close` meets a reset of its segment. -/
theorem second_close_unseen (b : BufferRings k) (internalBufferSize : Fin k → ℕ) (m : Mem)
    (schedule : List (RingLabel k)) :
    (b.type = .bw → ∀ appends : Fin k → List (List UInt8),
      Schedule.EachStep (step .bw BufferWriterBW.machine)
        (SecondCloseUnseen .bw BufferWriterBW.machine fun w => w.calls = [])
        (init b m (b.bandwidthClosedTwice internalBufferSize appends)) schedule) ∧
    (b.type = .lat → ∀ messages : Fin k → List Message, (∀ r, messages r ≠ []) →
      (∀ r, ∀ message ∈ messages r, message.data.length ≤ (b.ring r).segmentSize) →
      Schedule.EachStep (step .lat BufferWriterLat.machine) BufferWriterLat.SealsClear
        (init b m (b.latencyWriters internalBufferSize messages fun _ => [.close, .close]))
        schedule →
      Schedule.EachStep (step .lat BufferWriterLat.machine)
        (SecondCloseUnseen .lat BufferWriterLat.machine fun w => w.calls = [])
        (init b m (b.latencyWriters internalBufferSize messages fun _ => [.close, .close]))
        schedule) := by
  constructor
  · intro htype appends
    apply (BufferWriterBW.closingSim htype).eachStep
    · refine walks_start (fun r => ?_) fun h hh => ?_
      · exact BufferWriterBW.reclosing_init (b.readHeader_initMem m r) _ _
      · obtain ⟨hw, hprev⟩ := walker_start b hh
        rw [htype] at hw
        refine ⟨hw, fun off hoff => ?_⟩
        rw [hprev] at hoff
        cases hoff
    · exact fun _ _ _ _ _ _ _ => trivial
  · intro htype messages hmessages hshort hclear
    apply (BufferWriterLat.closingSim htype).eachStep _ hclear
    refine walks_start (fun r => ?_) fun h hh => ?_
    · exact BufferWriterLat.reclosing_init (b.readHeader_initMem m r) _ (hmessages r) (hshort r)
    · obtain ⟨hw, -⟩ := walker_start b hh
      rw [htype] at hw
      exact ⟨hw, trivial⟩

/-- A ring that is read to the end and then closed for the second time, of each kind. -/
theorem second_close_unseen_two_segments :
    (((Schedule.exec (step .bw BufferWriterBW.machine)
        (init (byteSegments 2 (by decide) (by decide)) (fun _ => 0)
          ((byteSegments 2 (by decide) (by decide)).bandwidthClosedTwice (fun _ => 4)
            fun _ => [[7, 9]]))
        (twoSegmentRun ++ [.writer 0, .writer 0, .nic 0])).map fun s => (s.writers 0).calls) =
          some [] ∧
      Schedule.EachStep (step .bw BufferWriterBW.machine)
        (SecondCloseUnseen .bw BufferWriterBW.machine fun w => w.calls = [])
        (init (byteSegments 2 (by decide) (by decide)) (fun _ => 0)
          ((byteSegments 2 (by decide) (by decide)).bandwidthClosedTwice (fun _ => 4)
            fun _ => [[7, 9]]))
        (twoSegmentRun ++ [.writer 0, .writer 0, .nic 0])) ∧
    ((Schedule.exec (step .lat BufferWriterLat.machine)
        (init (creditSegments 2 (by decide) (by decide)) (fun _ => 0)
          ((creditSegments 2 (by decide) (by decide)).latencyWriters (fun _ => 100)
            (fun _ => [⟨[7], [], false⟩, ⟨[8], [], false⟩, ⟨[9], [], false⟩])
            fun _ => [.close, .close]))
        (creditCloseRun ++ [.writer 0, .nic 0])).map fun s => (s.writers 0).calls) = some [] ∧
      Schedule.EachStep (step .lat BufferWriterLat.machine)
        (SecondCloseUnseen .lat BufferWriterLat.machine fun w => w.calls = [])
        (init (creditSegments 2 (by decide) (by decide)) (fun _ => 0)
          ((creditSegments 2 (by decide) (by decide)).latencyWriters (fun _ => 100)
            (fun _ => [⟨[7], [], false⟩, ⟨[8], [], false⟩, ⟨[9], [], false⟩])
            fun _ => [.close, .close]))
        (creditCloseRun ++ [.writer 0, .nic 0]) := by
  refine ⟨⟨by decide +kernel, ?_⟩, by decide +kernel, ?_⟩
  · exact (second_close_unseen (byteSegments 2 (by decide) (by decide)) (fun _ => 4) (fun _ => 0)
      (twoSegmentRun ++ [.writer 0, .writer 0, .nic 0])).1 rfl fun _ => [[7, 9]]
  · exact (second_close_unseen (creditSegments 2 (by decide) (by decide)) (fun _ => 100)
      (fun _ => 0) (creditCloseRun ++ [.writer 0, .nic 0])).2 rfl
      (fun _ => [⟨[7], [], false⟩, ⟨[8], [], false⟩, ⟨[9], [], false⟩]) (by simp)
      (by simp [creditSegments, BufferRings.single]) (by decide +kernel)

/-- On a ring of one segment the iterator finds the segment that it has returned once more. Its
`next` has tested the flags when the header of `close` arrives, and resets it. -/
def resetClosedRun : List (RingLabel 1) :=
  [RingLabel.writer 0, .nic 0, .writer 0, .nic 0, .writer 0] ++ appendSteps ++
    RingLabel.call .hasNext 2 ++ RingLabel.call .next 4 ++ RingLabel.call .hasNext 2 ++
    RingLabel.call .next 2 ++ [RingLabel.writer 0, .nic 0] ++
    List.replicate 3 (RingLabel.iterator .run) ++ [RingLabel.writer 0, .writer 0]

/-- The second header sets the flags of the first one again. -/
theorem second_close_after_reset :
    ¬ Schedule.EachStep (step .lat BufferWriterLat.machine)
      (SecondCloseUnseen .lat BufferWriterLat.machine fun w => w.calls = [])
      (init (creditSegments 1 (by decide) (by decide)) (fun _ => 0)
        ((creditSegments 1 (by decide) (by decide)).latencyWriters (fun _ => 100)
          (fun _ => [⟨[7], [], false⟩]) fun _ => [.close, .close]))
      (resetClosedRun ++ [.nic 0]) := by
  intro h
  have hrun : ((Schedule.exec (step .lat BufferWriterLat.machine)
      (init (creditSegments 1 (by decide) (by decide)) (fun _ => 0)
        ((creditSegments 1 (by decide) (by decide)).latencyWriters (fun _ => 100)
          (fun _ => [⟨[7], [], false⟩]) fun _ => [.close, .close])) resetClosedRun).map fun s =>
        ((s.writers 0).calls, s.mem 24,
          (s.step .lat BufferWriterLat.machine (.nic 0)).map fun t => t.mem 24)) =
      some ([], 5, some 6) := by
    decide +kernel
  obtain ⟨s, hs, heq⟩ := Option.map_eq_some_iff.mp hrun
  simp only [Prod.mk.injEq] at heq
  obtain ⟨hcalls, hbefore, hnic⟩ := heq
  obtain ⟨t, ht, hafter⟩ := Option.map_eq_some_iff.mp hnic
  obtain ⟨hmem, -⟩ := h resetClosedRun (.nic 0) s t (List.prefix_refl _) hs ht 0 t rfl hcalls ht
  rw [hmem, hbefore] at hafter
  revert hafter
  decide

end DpiLibrary
