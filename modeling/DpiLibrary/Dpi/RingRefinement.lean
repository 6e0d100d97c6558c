import DpiLibrary.Dpi.IteratorInvariant

/-!
# The system refines the protocol

For a kind of writer whose steps and queue-pair operations are moves of the
protocol too, every run of the system is a run of the protocol with the same log.
What the protocol guarantees of its logs then holds of the system's.
-/

namespace DpiLibrary

variable {k : ℕ} {ω : Type}

/-- What an executed operation of a writer's queue pair does to its ring, with the offset
at which a consumable header arrives. -/
inductive NicMove {g : RingGeometry} (x : RingState g) : Option ℕ → RingState g → Prop
  | stutter : NicMove x none x
  | land (block : List UInt8) (last : Bool) (hroom : x.sent.length < x.released + g.segments)
    (hfin : x.fin = false) : NicMove x (some (g.slot x.sent.length)) (x.land block last hroom)
  | finish (hfin : x.fin = false) (hsent : x.sent ≠ []) :
    NicMove x (some (g.slot (x.sent.length - 1))) x.finish

theorem NicMove.ringMove {b : BufferRings k} (a : BufferState b) {r : Fin k} {made : Option ℕ}
    {x : RingState (b.ring r)} (h : NicMove (a.ring r) made x) :
    RingMove a (made.toList.map RingEvent.madeConsumable) (a.set r x) := by
  cases h with
  | stutter =>
    rw [BufferState.set_self]
    exact .stutter a
  | land block last hroom hfin => exact .land a r block last hroom hfin
  | finish hfin hsent => exact .finish a r hfin hsent

theorem NicMove.returned {g : RingGeometry} {x x' : RingState g} {made : Option ℕ}
    (h : NicMove x made x') : x'.returned = x.returned := by
  cases h <;> rfl

theorem NicMove.released {g : RingGeometry} {x x' : RingState g} {made : Option ℕ}
    (h : NicMove x made x') : x'.released = x.released := by
  cases h <;> rfl

theorem NicMove.phase {g : RingGeometry} {x x' : RingState g} {made : Option ℕ}
    {type : Buffertype} {pc : IteratorPc} (h : NicMove x made x') (hphase : Phase type x pc) :
    Phase type x' pc := by
  cases h with
  | stutter => exact hphase
  | land block last hroom hfin =>
    have hle : ∀ {i}, i < x.sent.length → i < (x.sent ++ [block]).length := by
      intro i hi
      rw [List.length_append]
      omega
    cases pc with
    | idle => exact hphase
    | loop => exact hphase
    | testConsumable => exact hphase
    | ready => exact ⟨hphase.1, hle hphase.2⟩
    | mark step inNext =>
      cases inNext with
      | true => exact ⟨hphase.1, hle hphase.2.1, hphase.2.2⟩
      | false =>
        have hf := hphase.2.2.2.1
        rw [hfin] at hf
        cases hf
    | erase =>
      have hf := hphase.1
      rw [hfin] at hf
      cases hf
    | getRawData => exact ⟨hphase.1, hle hphase.2⟩
    | advance size =>
      obtain ⟨hrel, hsent, hsize⟩ := hphase
      refine ⟨hrel, hle hsent, ?_⟩
      rwa [LaggedRing.land_sent, LaggedRing.land_returned, List.getD_eq_getElem?_getD,
        List.getElem?_append_left hsent, ← List.getD_eq_getElem?_getD]
  | finish hfin hsent =>
    cases pc with
    | mark step inNext =>
      cases inNext with
      | true => exact hphase
      | false => exact ⟨hphase.1, hphase.2.1, hphase.2.2.1, rfl, hphase.2.2.2.2⟩
    | erase => exact ⟨rfl, hphase.2⟩
    | _ => exact hphase

/-- What a kind of writer has to guarantee of its own steps. The guard is what is assumed
of the operations its queue pair executes. -/
structure WriterSim (b : BufferRings k) (machine : WriterMachine ω) (guard : ω → Prop)
    (W : ∀ r, RingState (b.ring r) → Mem → ω → Prop) : Prop extends WriterRules b W where
  step : ∀ r x m w w', W r x m w → machine.step w = some w' → W r x m w'
  nic : ∀ r x stage m w m' w' made, W r x m w → guard w → (b.ring r).Shows b.type x stage m →
    (∀ y, stage.applied y = y) ∨ x.returned < x.sent.length →
    (b.type = .bw → stage ≠ .credit) → machine.nic m w = some (m', w', made) →
    ∃ x', NicMove x made x' ∧ (b.ring r).Shows b.type x' stage m' ∧ W r x' m' w' ∧
      ∀ start len, start + len ≤ (b.ring r).entry ∨
        (b.ring r).entry + (b.ring r).segments * (b.ring r).fullSize ≤ start →
        AgreeOn m' m start len

section

variable {b : BufferRings k} {machine : WriterMachine ω} {guard : ω → Prop}
  {W : ∀ r, RingState (b.ring r) → Mem → ω → Prop} {a : BufferState b} {m : Mem}
  {writers : Fin k → ω} {it : BufferIterator k}

theorem SysInv.writer_step (sim : WriterSim b machine guard W) (hinv : SysInv W a m writers it)
    {r : Fin k} {w : ω} (hstep : machine.step (writers r) = some w) :
    SysInv W a m (Function.update writers r w) it := by
  refine ⟨hinv.shows, fun r' => ?_, hinv.iterator⟩
  by_cases hr : r' = r
  · subst hr
    rw [Function.update_self]
    exact sim.step _ _ _ _ _ (hinv.writer r') hstep
  · rw [Function.update_of_ne hr]
    exact hinv.writer r'

/-- While a segment is partly reset there is another one to take, and only the latency
iterator counts credits. -/
theorem SysInv.stage_spec (hinv : SysInv W a m writers it) (r : Fin k) :
    ((∀ y, (it.pcAt r).stage.applied y = y) ∨ (a.ring r).returned < (a.ring r).sent.length) ∧
      (b.type = .bw → (it.pcAt r).stage ≠ .credit) := by
  have hchecked : ∀ {pc : IteratorPc}, pc.stage = .checkEnd →
      ((∀ y, pc.stage.applied y = y) ∨ (a.ring r).returned < (a.ring r).sent.length) ∧
        (b.type = .bw → pc.stage ≠ .credit) := by
    intro pc hpc
    rw [hpc]
    exact ⟨Or.inl fun _ => rfl, fun _ => by simp⟩
  obtain ⟨⟨bs, as⟩, pc⟩ := it
  cases as with
  | nil => exact hchecked rfl
  | cons h as =>
    obtain ⟨-, hphase, -, -⟩ := hinv.current
    rw [BufferIterator.pcAt_cons]
    split_ifs with hr
    · subst hr
      cases pc with
      | mark step inNext =>
        cases inNext with
        | true =>
          refine ⟨Or.inr hphase.2.1, fun hbw hstep => ?_⟩
          have hallowed := hphase.2.2
          rw [show step = .credit from hstep] at hallowed
          rw [hbw] at hallowed
          cases hallowed.1
        | false => exact hchecked rfl
      | _ => exact hchecked rfl
    · exact hchecked rfl

/-- On a full ring of two segments or more the iterator points at a consumable segment. -/
theorem SysInv.consumable_of_full (hinv : SysInv W a m writers it) {r : Fin k}
    (hfin : (a.ring r).fin = false) (hsegments : 2 ≤ (b.ring r).segments)
    (hfull : (a.ring r).sent.length = (a.ring r).released + (b.ring r).segments) :
    ∃ h ∈ it.segmentIterators.toList, h.ring = r ∧
      (readHeader m h.iter).isConsumable = true := by
  have hmem : r ∈ it.segmentIterators.toList.map IterHelper.ring := by
    by_contra hnot
    have hdrained := (hinv.iterator.erased r hnot).1
    rw [hfin] at hdrained
    cases hdrained
  obtain ⟨h, hh, rfl⟩ := List.mem_map.mp hmem
  refine ⟨h, hh, rfl, ?_⟩
  rw [(hinv.iterator.helper h hh).iter,
    (hinv.shows h.ring).isConsumable_iff ((a.ring h.ring).returned_lt_window hsegments)]
  exact (a.ring h.ring).returned_lt_of_full hsegments hfull

theorem SysInv.nic_step (sim : WriterSim b machine guard W) (hinv : SysInv W a m writers it)
    {r : Fin k} {m' : Mem} {w : ω} {made : Option ℕ} (hguard : guard (writers r))
    (hstep : machine.nic m (writers r) = some (m', w, made)) :
    ∃ x, NicMove (a.ring r) made x ∧
      SysInv W (a.set r x) m' (Function.update writers r w) it := by
  obtain ⟨x, hmove, hshows, hwriter, hagree⟩ := sim.nic _ _ _ _ _ _ _ _ (hinv.writer r)
    hguard (hinv.shows r) (hinv.stage_spec r).1 (hinv.stage_spec r).2 hstep
  have hothers : ∀ r', r' ≠ r →
      AgreeOn m' m ((b.ring r').block b.type).start ((b.ring r').block b.type).length := by
    intro r' hr
    have hap := b.apart r' r hr
    have hc := b.counter_fits r
    simp only [Span.Apart, RingGeometry.block] at hap
    apply hagree
    simp only [RingGeometry.block]
    omega
  refine ⟨x, hmove, fun r' => ?_, fun r' => ?_, hinv.iterator.nodup, fun h hh => ?_,
    fun h hh => ?_, fun r' hr' => ?_, hinv.iterator.asked, hinv.iterator.atEnd⟩
  · by_cases hr : r' = r
    · subst hr
      rwa [BufferState.set_ring_self]
    · rw [BufferState.set_ring_of_ne _ hr]
      exact (hinv.shows r').frame (b.counter_le r') (hothers r' hr)
  · by_cases hr : r' = r
    · subst hr
      rwa [BufferState.set_ring_self, Function.update_self]
    · rw [BufferState.set_ring_of_ne _ hr, Function.update_of_ne hr]
      exact sim.frame _ _ _ _ _ (hinv.writer r') (hothers r' hr)
  · have hold := hinv.iterator.helper h hh
    by_cases hr : h.ring = r
    · subst hr
      rw [BufferState.set_ring_self]
      have hret := hmove.returned
      exact ⟨by rw [hret]; exact hold.iter, by rw [hret]; exact hold.prev, hold.sentinel,
        hold.unmarked, hold.counterOffset⟩
    · rwa [BufferState.set_ring_of_ne _ hr]
  · have hold := hinv.iterator.phase h hh
    by_cases hr : h.ring = r
    · subst hr
      rw [BufferState.set_ring_self]
      exact hmove.phase hold
    · rwa [BufferState.set_ring_of_ne _ hr]
  · have hold := hinv.iterator.erased r' hr'
    unfold BufferState.Drained at hold ⊢
    by_cases hr : r' = r
    · subst hr
      rw [BufferState.set_ring_self]
      have hphase : Phase b.type (a.ring r') .erase := hold
      exact hmove.phase hphase
    · rwa [BufferState.set_ring_of_ne _ hr]

end

/-- The system is in some state of the protocol, and its log is one of the protocol's. -/
def RingSystem.Refines {b : BufferRings k} (W : ∀ r, RingState (b.ring r) → Mem → ω → Prop)
    (s : RingSystem ω k) (a : BufferState b) : Prop :=
  SysInv W a s.mem s.writers s.iterator ∧ LogInv a s.log

/-- A step of a queue pair under its guard, or of the iterator without letting a credit
counter wrap. -/
def RingSystem.Guarded (guard : ω → Prop) (s : RingSystem ω k) : RingLabel k → Prop
  | .writer _ => True
  | .nic r => guard (s.writers r)
  | .iterator _ => s.iterator.pc = .mark .credit true →
    ∀ h ∈ s.iterator.segmentIterators.get?, readWord s.mem h.counterOffset + 1 < sizeTBound

instance (guard : ω → Prop) [DecidablePred guard] (s : RingSystem ω k) (label : RingLabel k) :
    Decidable (s.Guarded guard label) :=
  match label with
  | .writer _ => .isTrue trivial
  | .nic r => inferInstanceAs (Decidable (guard (s.writers r)))
  | .iterator _ => inferInstanceAs (Decidable (s.iterator.pc = .mark .credit true →
    ∀ h ∈ s.iterator.segmentIterators.get?, readWord s.mem h.counterOffset + 1 < sizeTBound))

/-- A bandwidth buffer has no credits. -/
theorem RingSystem.Refines.guarded {b : BufferRings k}
    {W : ∀ r, RingState (b.ring r) → Mem → ω → Prop} {s : RingSystem ω k} {a : BufferState b}
    (h : s.Refines W a) (htype : b.type = .bw) (label : RingLabel k) :
    s.Guarded (fun _ => True) label := by
  cases label with
  | iterator action =>
    intro hpc y hy
    have hnot := (h.1.stage_spec y.ring).2 htype
    have hat : s.iterator.pcAt y.ring = .mark .credit true := by
      unfold BufferIterator.pcAt
      rw [Option.mem_def.mp hy]
      simpa using hpc
    rw [hat] at hnot
    exact absurd rfl hnot
  | _ => trivial

theorem RingSystem.Refines.step {b : BufferRings k} {machine : WriterMachine ω}
    {guard : ω → Prop} {W : ∀ r, RingState (b.ring r) → Mem → ω → Prop}
    (sim : WriterSim b machine guard W) {s s' : RingSystem ω k} {a : BufferState b}
    {label : RingLabel k} (h : s.Refines W a)
    (hguarded : s.Guarded guard label) (hstep : s.step b.type machine label = some s') :
    ∃ a' events, RingMove a events a' ∧ s'.log = s.log ++ events ∧ s'.Refines W a' := by
  obtain ⟨hinv, hlog⟩ := h
  cases label with
  | writer r =>
    obtain ⟨w, hw, rfl⟩ := Option.map_eq_some_iff.mp hstep
    exact ⟨a, [], .stutter a, (List.append_nil _).symm, hinv.writer_step sim hw, hlog⟩
  | nic r =>
    obtain ⟨⟨m', w, made⟩, hnic, rfl⟩ := Option.map_eq_some_iff.mp hstep
    obtain ⟨x, hmove, hinv'⟩ := hinv.nic_step sim hguarded hnic
    exact ⟨a.set r x, _, hmove.ringMove a, rfl, hinv', hlog.move (hmove.ringMove a)⟩
  | iterator action =>
    obtain ⟨⟨m', it', events⟩, hit, rfl⟩ := Option.map_eq_some_iff.mp hstep
    obtain ⟨a', hmove, hinv'⟩ := hinv.iterator_step sim.toWriterRules hit
      fun h hh hpc => hguarded hpc h hh
    exact ⟨a', _, hmove, rfl, hinv', hlog.move hmove⟩

/-- What the node writes for one ring leaves the others as they are. -/
theorem BufferRings.shows_initMem (b : BufferRings k) (m : Mem) (r : Fin k) :
    (b.ring r).Shows b.type (.empty (List UInt8) (b.ring r).segments) .checkEnd (b.initMem m) := by
  have hkeep : ∀ (l : List (Fin k)) (m : Mem), r ∈ l ∨
      (b.ring r).Shows b.type (.empty (List UInt8) (b.ring r).segments) .checkEnd m →
      (b.ring r).Shows b.type (.empty (List UInt8) (b.ring r).segments) .checkEnd
        (l.foldl (fun m r => (NodeServer.initRing m b.type ((b.ring r).block b.type).start
          (b.ring r).segments (b.ring r).fullSize).1) m) := by
    intro l
    induction l with
    | nil =>
      rintro m (hr | hshows)
      · cases hr
      · exact hshows
    | cons r' l ih =>
      intro m h
      refine ih _ ?_
      by_cases hr : r' = r
      · subst hr
        exact Or.inr (RingGeometry.shows_initRing _ (b.counter_fits r'))
      · refine h.imp (fun hmem => (List.mem_cons.mp hmem).resolve_left (Ne.symm hr)) ?_
        intro hshows
        exact hshows.frame (b.counter_le r)
          (RingGeometry.agreeOn_initRing _ (b.counter_fits r') (b.apart r r' (Ne.symm hr)))
  exact hkeep _ m (Or.inl (List.mem_finRange r))

theorem BufferRings.readHeader_initMem (b : BufferRings k) (m : Mem) (r : Fin k) (i : ℕ) :
    readHeader (b.initMem m) ((b.ring r).slot i) = (b.ring r).freeHeader i := by
  have hlt := Nat.mod_lt i (b.ring r).segments_pos
  have hheader := (b.shows_initMem m r).header (i % (b.ring r).segments) (Nat.zero_le _)
    (by rw [LaggedRing.empty_released]; omega)
  simp only [RingGeometry.expectedHeader, LaggedRing.empty_sent, List.length_nil,
    Nat.not_lt_zero, if_false] at hheader
  rw [(b.ring r).slot_mod, (b.ring r).freeHeader_mod] at hheader
  exact hheader

theorem BufferRings.iterInv_start (b : BufferRings k) :
    IterInv (BufferState.start b) (BufferIterator.ofEntries b.entries) := by
  have hlist : (BufferIterator.ofEntries b.entries).segmentIterators.toList =
      (List.finRange k).map fun r => IterHelper.ofEntry (b.ring r).entry r := by
    simp [BufferIterator.ofEntries, BufferRings.entries]
  have hring : ((BufferIterator.ofEntries b.entries).segmentIterators.toList.map
      IterHelper.ring) = List.finRange k := by
    rw [hlist, List.map_map]
    exact List.map_id _
  refine ⟨?_, fun h hh => ?_, fun h hh => ?_, fun r hr => ?_, rfl, fun _ => Or.inl rfl⟩
  · rw [hring]
    exact List.nodup_finRange k
  · rw [hlist] at hh
    obtain ⟨r, -, rfl⟩ := List.mem_map.mp hh
    refine ⟨(b.ring r).slot_zero.symm, rfl, ?_, fun _ => ?_, fun htype => ?_⟩
    · simp [IterHelper.ofEntry, SegmentHeader.isEndSegment, SegmentHeader.markEndSegment]
    · simp [IterHelper.ofEntry, SegmentHeader.isWriteable, SegmentHeader.markEndSegment]
    · have h8 := b.counter_le r htype
      have hfits := (b.ring r).fits
      simp only [IterHelper.ofEntry]
      unfold sizeTBound at hfits ⊢
      omega
  · unfold BufferIterator.pcAt
    split
    · split_ifs <;> rfl
    · rfl
  · rw [hring] at hr
    exact absurd (List.mem_finRange r) hr

/-- A buffer just built, with writers just constructed. -/
theorem RingSystem.refines_init {b : BufferRings k}
    {W : ∀ r, RingState (b.ring r) → Mem → ω → Prop} (m : Mem) (writers : Fin k → ω)
    (hwriters : ∀ r, W r (.empty _ _) (b.initMem m) (writers r)) :
    (RingSystem.init b m writers).Refines W (.start b) := by
  refine ⟨⟨fun r => ?_, hwriters, b.iterInv_start⟩, logInv_start b⟩
  have hstage : ((BufferIterator.ofEntries b.entries).pcAt r).stage = .checkEnd := by
    unfold BufferIterator.pcAt
    split
    · split_ifs <;> rfl
    · rfl
  rw [show (RingSystem.init b m writers).iterator = BufferIterator.ofEntries b.entries from rfl,
    hstage]
  exact b.shows_initMem m r

/-- Every state of a guarded run is one of the protocol. -/
theorem RingSystem.refines_throughout {b : BufferRings k} {machine : WriterMachine ω}
    {guard : ω → Prop} {W : ∀ r, RingState (b.ring r) → Mem → ω → Prop}
    (sim : WriterSim b machine guard W) (m : Mem) (writers : Fin k → ω)
    (hwriters : ∀ r, W r (.empty _ _) (b.initMem m) (writers r))
    (schedule : List (RingLabel k))
    (hguarded : Schedule.EachStep (step b.type machine) (Guarded guard) (init b m writers)
      schedule) :
    Schedule.Throughout (step b.type machine) (fun s => ∃ a, s.Refines W a) (init b m writers)
      schedule := by
  refine Schedule.EachStep.throughout ?_ schedule _ ⟨_, refines_init m writers hwriters⟩ hguarded
  rintro s label s' ⟨a, ha⟩ hlabel hstep
  obtain ⟨a', -, -, -, ha'⟩ := ha.step sim hlabel hstep
  exact ⟨a', ha'⟩

/-- Every run on a bandwidth buffer is one of the protocol. -/
theorem RingSystem.refines_throughout_bw {b : BufferRings k} {machine : WriterMachine ω}
    {W : ∀ r, RingState (b.ring r) → Mem → ω → Prop} (sim : WriterSim b machine (fun _ => True) W)
    (htype : b.type = .bw) (m : Mem) (writers : Fin k → ω)
    (hwriters : ∀ r, W r (.empty _ _) (b.initMem m) (writers r)) (schedule : List (RingLabel k)) :
    Schedule.Throughout (step b.type machine) (fun s => ∃ a, s.Refines W a) (init b m writers)
      schedule := by
  intro pre s _ hs
  refine Schedule.invariant_exec (I := fun s => ∃ a, s.Refines W a) ?_ pre _ s
    ⟨_, refines_init m writers hwriters⟩ hs
  rintro s label s' ⟨a, ha⟩ hstep
  obtain ⟨a', -, -, -, ha'⟩ := ha.step sim (ha.guarded htype label) hstep
  exact ⟨a', ha'⟩

end DpiLibrary
