import DpiLibrary.Dpi.LatencyRing

/-!
# Rings that are closed again

A client may close a writer that it has closed before. The header sent then is the one its segment
has already. The ring stands still, and but for one more consumable segment in the log the run is
that of writers closed once. What these guarantee holds for writers closed any number of times:
no segment is handed out twice, and writer and consumer do not wait for each other.
-/

namespace DpiLibrary

variable {ω : Type} {k : ℕ}

/-- Closing once more makes no other header of the one that was sent. -/
theorem SegmentHeader.closing_eq_self {h : SegmentHeader} {counter : ℕ}
    (hflags : h.segmentFlags = 0b0110) (hcounter : counter = h.counter) :
    (({ h with counter }.setWriteable false).setConsumable true).markEndSegment = h := by
  obtain ⟨size, next, flags⟩ := h
  cases hflags
  cases hcounter
  simp [setWriteable, setConsumable, markEndSegment]

/-- The header of a finished ring. -/
theorem RingGeometry.segmentFlags_sentHeader_last {g : RingGeometry} {type : Buffertype}
    {x : RingState g} (hfin : x.fin = true) (hsent : x.sent ≠ []) :
    (g.sentHeader type x (x.sent.length - 1)).segmentFlags = 0b0110 := by
  have hlast := Nat.sub_add_cancel (List.length_pos_of_ne_nil hsent)
  unfold sentHeader
  rw [if_pos ⟨hfin, hlast⟩]

open RingSystem

/-- `w` follows `w₀`: it has called all that `w₀` has, and maybe more. Where `w` moves, `w₀` makes
the same move, or it stands still and so does the memory. -/
structure FollowerSim (b : BufferRings k) (machine : WriterMachine ω) (guard : ω → Prop)
    (W : ∀ r, RingState (b.ring r) → Mem → ω → Prop) (Follows : ω → ω → Prop) : Prop where
  step : ∀ r x m w₀ w w', W r x m w₀ → Follows w₀ w → machine.step w = some w' →
    Follows w₀ w' ∨ ∃ w₀', machine.step w₀ = some w₀' ∧ Follows w₀' w'
  nic : ∀ r x stage m w₀ w m' w' made, W r x m w₀ → Follows w₀ w →
    (b.ring r).Shows b.type x stage m →
    (∀ y, stage.applied y = y) ∨ x.returned < x.sent.length →
    machine.nic m w = some (m', w', made) →
    m' = m ∧ Follows w₀ w' ∨ (guard w → guard w₀) ∧
      ∃ w₀', machine.nic m w₀ = some (m', w₀', made) ∧ Follows w₀' w'

/-- One more consumable segment in the log changes nothing of what it says. -/
theorem LogInv.madeAgain {b : BufferRings k} {a : BufferState b} {log : List (RingEvent k)}
    (h : LogInv a log) (made : Option ℕ) :
    LogInv a (log ++ made.toList.map RingEvent.madeConsumable) := by
  cases made with
  | none => simpa using h
  | some offset =>
    simp only [Option.toList_some, List.map_cons, List.map_nil]
    constructor
    · intro r hr
      simpa using h.blocks r hr
    · intro r
      simpa using h.count r
    · intro r off hlent
      apply h.lent r off
      simpa using hlent
    · intro r j hj hj'
      simp [h.fresh r j hj hj']
    · exact neverTwice_concat.mpr ⟨h.neverTwice, trivial⟩
    · intro hmem
      apply h.exhausted
      simpa using hmem

section

variable {b : BufferRings k} {machine : WriterMachine ω} {guard : ω → Prop}
  {W : ∀ r, RingState (b.ring r) → Mem → ω → Prop} {Follows : ω → ω → Prop}

/-- The system with writers that have been closed once is in a state of the protocol, and the
writers at hand follow these. -/
def RingSystem.Trails (W : ∀ r, RingState (b.ring r) → Mem → ω → Prop) (Follows : ω → ω → Prop)
    (s : RingSystem ω k) (writers : Fin k → ω) (a : BufferState b) : Prop :=
  RingSystem.Refines W { s with writers } a ∧ ∀ r, Follows (writers r) (s.writers r)

theorem follows_update {writers₀ writers : Fin k → ω} (h : ∀ r, Follows (writers₀ r) (writers r))
    {r : Fin k} {w₀ w : ω} (hw : Follows w₀ w) (r' : Fin k) :
    Follows (Function.update writers₀ r w₀ r') (Function.update writers r w r') := by
  by_cases hr : r' = r
  · subst hr
    rwa [Function.update_self, Function.update_self]
  · rw [Function.update_of_ne hr, Function.update_of_ne hr]
    exact h r'

theorem follows_update_right {writers₀ writers : Fin k → ω}
    (h : ∀ r, Follows (writers₀ r) (writers r)) {r : Fin k} {w : ω} (hw : Follows (writers₀ r) w)
    (r' : Fin k) : Follows (writers₀ r') (Function.update writers r w r') := by
  have hupdate := follows_update (r := r) h hw r'
  rwa [Function.update_eq_self] at hupdate

variable {s s' : RingSystem ω k} {writers : Fin k → ω} {a : BufferState b} {label : RingLabel k}

theorem RingSystem.Trails.step (h : s.Trails W Follows writers a)
    (sim : WriterSim b machine guard W) (follower : FollowerSim b machine guard W Follows)
    (hguarded : s.Guarded guard label) (hstep : s.step b.type machine label = some s') :
    ∃ writers' a', s'.Trails W Follows writers' a' := by
  obtain ⟨hrefines, hfollows⟩ := h
  cases label with
  | writer r =>
    obtain ⟨w, hw, rfl⟩ := Option.map_eq_some_iff.mp hstep
    rcases follower.step r _ _ _ _ _ (hrefines.1.writer r) (hfollows r) hw with
      hquiet | ⟨w₀, hw₀, hfollow⟩
    · exact ⟨writers, a, hrefines, follows_update_right hfollows hquiet⟩
    · exact ⟨Function.update writers r w₀, a, ⟨hrefines.1.writer_step sim hw₀, hrefines.2⟩,
        follows_update hfollows hfollow⟩
  | nic r =>
    obtain ⟨⟨m', w, made⟩, hnic, rfl⟩ := Option.map_eq_some_iff.mp hstep
    rcases follower.nic r _ _ _ _ _ _ _ _ (hrefines.1.writer r) (hfollows r) (hrefines.1.shows r)
      (hrefines.1.stage_spec r).1 hnic with ⟨rfl, hquiet⟩ | ⟨hguard, w₀, hw₀, hfollow⟩
    · exact ⟨writers, a, ⟨hrefines.1, hrefines.2.madeAgain made⟩,
        follows_update_right hfollows hquiet⟩
    · obtain ⟨x, hmove, hinv⟩ := hrefines.1.nic_step sim (hguard hguarded) hw₀
      exact ⟨Function.update writers r w₀, a.set r x, ⟨hinv, hrefines.2.move (hmove.ringMove a)⟩,
        follows_update hfollows hfollow⟩
  | iterator action =>
    obtain ⟨⟨m', it', events⟩, hit, rfl⟩ := Option.map_eq_some_iff.mp hstep
    obtain ⟨a', hmove, hinv⟩ := hrefines.1.iterator_step sim.toWriterRules hit
      fun y hy hpc => hguarded hpc y hy
    exact ⟨writers, a', ⟨hinv, hrefines.2.move hmove⟩, hfollows⟩

theorem RingSystem.trails_throughout (sim : WriterSim b machine guard W)
    (follower : FollowerSim b machine guard W Follows) (m : Mem) (writers₀ : Fin k → ω)
    {writers : Fin k → ω}
    (hwriters : ∀ r, W r (.empty _ _) (b.initMem m) (writers₀ r))
    (hfollows : ∀ r, Follows (writers₀ r) (writers r)) (schedule : List (RingLabel k))
    (hguarded : Schedule.EachStep (step b.type machine) (Guarded guard) (init b m writers)
      schedule) :
    Schedule.Throughout (step b.type machine) (fun s => ∃ writers a, s.Trails W Follows writers a)
      (init b m writers) schedule := by
  refine Schedule.EachStep.throughout ?_ schedule _
    ⟨writers₀, _, refines_init m writers₀ hwriters, hfollows⟩ hguarded
  rintro s label s' ⟨writers, a, ha⟩ hlabel hstep
  exact ha.step sim follower hlabel hstep

/-- A bandwidth buffer has no credits. -/
theorem RingSystem.trails_throughout_bw (sim : WriterSim b machine (fun _ => True) W)
    (follower : FollowerSim b machine (fun _ => True) W Follows) (htype : b.type = .bw) (m : Mem)
    (writers₀ : Fin k → ω) {writers : Fin k → ω}
    (hwriters : ∀ r, W r (.empty _ _) (b.initMem m) (writers₀ r))
    (hfollows : ∀ r, Follows (writers₀ r) (writers r)) (schedule : List (RingLabel k)) :
    Schedule.Throughout (step b.type machine) (fun s => ∃ writers a, s.Trails W Follows writers a)
      (init b m writers) schedule := by
  intro pre s _ hs
  refine Schedule.invariant_exec (I := fun s => ∃ writers a, s.Trails W Follows writers a) ?_ pre
    _ s ⟨writers₀, _, refines_init m writers₀ hwriters, hfollows⟩ hs
  rintro s label s' ⟨writers, a, ha⟩ hstep
  have hguarded : s.Guarded (fun _ => True) label := by
    have hfollowed := ha.1.guarded htype label
    cases label <;> exact hfollowed
  exact ha.step sim follower hguarded hstep

end

namespace BufferWriterBW

/-- `w` is a writer like `w₀`, whose client closes it once, but with any number of calls of
`close`. From the second one on, `w₀` stands still. -/
inductive Follows (w₀ : BufferWriterBW) : BufferWriterBW → Prop
  | before (calls : List WriterCall) (n : ℕ) (hcalls : w₀.calls = calls ++ [.close]) :
    Follows w₀ { w₀ with calls := calls ++ List.replicate n .close }
  | closes (n : ℕ) (hpc : w₀.pc = .closing ∨ w₀.pc = .closed) (hcalls : w₀.calls = []) :
    Follows w₀ { w₀ with calls := List.replicate n .close }
  | again (n : ℕ) (hpc : w₀.pc = .closed) (hcalls : w₀.calls = []) (hqueue : w₀.queue = [])
    (queue : List RemoteOp) (hposted : queue = [] ∨ queue = [.writeHeader w₀.segmentOffset]) :
    Follows w₀ { w₀ with calls := List.replicate n .close, queue, pc := .closing }

variable {g : RingGeometry} {x : RingState g} {stage : MarkStep} {m m' : Mem}
  {w₀ w w' : BufferWriterBW} {program : List UInt8} {made : Option ℕ}

/-- Only a call looks at the calls to come. -/
theorem step_withCalls (w : BufferWriterBW) (calls : List WriterCall)
    (hpc : ¬ (w.pc = .idle ∨ w.pc = .closed)) :
    ({ w with calls } : BufferWriterBW).step = w.step.map fun w' => { w' with calls } := by
  cases hat : w.pc with
  | idle => exact absurd (Or.inl hat) hpc
  | closed => exact absurd (Or.inr hat) hpc
  | superAppend data rest =>
    simp only [step, hat, superAppend, writeToSegment]
    split_ifs <;> rfl
  | _ =>
    simp only [step, hat]
    try split_ifs
    all_goals rfl

theorem calls_step (hpc : ¬ (w.pc = .idle ∨ w.pc = .closed)) (hstep : w.step = some w') :
    w'.calls = w.calls := by
  have hkept := step_withCalls w w.calls hpc
  rw [hstep] at hkept
  have hsame : w' = { w' with calls := w.calls } := Option.some.inj hkept
  rw [hsame]

theorem step_eq_nextCall (w : BufferWriterBW) (hpc : w.pc = .idle ∨ w.pc = .closed) :
    w.step = w.nextCall := by
  unfold BufferWriterBW.step
  rcases hpc with hpc | hpc <;> simp only [hpc]

theorem nic_withCalls (m : Mem) (w : BufferWriterBW) (calls : List WriterCall) :
    ({ w with calls } : BufferWriterBW).nic m =
      (w.nic m).map fun r => (r.1, { r.2.1 with calls }, r.2.2) := by
  simp only [nic]
  rcases w.queue with _ | ⟨_ | _ | _, queue⟩ <;> rfl

theorem Inv.finished_of_closed (h : Inv g program x m w) (hpc : w.pc = .closed) :
    ∃ cur, Finished x w cur := by
  obtain ⟨cur, -, hstate⟩ := h.state
  unfold State at hstate
  simp only [hpc] at hstate
  exact ⟨cur, hstate⟩

/-- A closed writer has its last header at hand. -/
theorem Inv.closedHeader_of_closed (h : Inv g program x m w) (hpc : w.pc = .closed) :
    w.closedHeader = w.header := by
  obtain ⟨cur, hfinished⟩ := h.finished_of_closed hpc
  apply SegmentHeader.closing_eq_self _ hfinished.size
  rw [hfinished.header]
  exact RingGeometry.segmentFlags_sentHeader_last hfinished.fin hfinished.nonempty

/-- So does its segment. -/
theorem Inv.writeHeader_of_closed (h : Inv g program x m w) (hpc : w.pc = .closed)
    (hshows : g.Shows .bw x stage m)
    (hstage : (∀ y, stage.applied y = y) ∨ x.returned < x.sent.length) :
    writeHeader m w.segmentOffset w.header = m := by
  obtain ⟨cur, hfinished⟩ := h.finished_of_closed hpc
  rw [hfinished.offset, hfinished.header, ← hshows.readHeader_last hfinished.nonempty hstage,
    writeHeader_readHeader]

/-- A call of a writer that is closed further on, or for the last time before it stands still. -/
theorem nextCall_before {calls : List WriterCall} {n : ℕ} (hcalls : w₀.calls = calls ++ [.close])
    (hstep : nextCall { w₀ with calls := calls ++ List.replicate n .close } = some w') :
    ∃ w₀', w₀.nextCall = some w₀' ∧ Follows w₀' w' := by
  rcases calls with _ | ⟨data | _, calls⟩
  · cases n with
    | zero => cases hstep
    | succ n =>
      cases hstep
      refine ⟨_, by rw [nextCall, hcalls]; rfl, ?_⟩
      exact .closes n (Or.inl rfl) rfl
  · cases hstep
    refine ⟨_, by rw [nextCall, hcalls]; rfl, ?_⟩
    exact .before calls n rfl
  · cases hstep
    refine ⟨_, by rw [nextCall, hcalls]; rfl, ?_⟩
    exact .before calls n rfl

theorem Follows.step (h : Follows w₀ w) (hinv : Inv g program x m w₀) (hstep : w.step = some w') :
    Follows w₀ w' ∨ ∃ w₀', w₀.step = some w₀' ∧ Follows w₀' w' := by
  cases h with
  | before calls n hcalls =>
    by_cases hcall : w₀.pc = .idle ∨ w₀.pc = .closed
    · rw [step_eq_nextCall { w₀ with calls := calls ++ List.replicate n .close } hcall] at hstep
      rw [step_eq_nextCall w₀ hcall]
      exact Or.inr (nextCall_before hcalls hstep)
    · rw [step_withCalls w₀ _ hcall] at hstep
      obtain ⟨w₀', hw₀, rfl⟩ := Option.map_eq_some_iff.mp hstep
      exact Or.inr ⟨w₀', hw₀, .before calls n ((calls_step hcall hw₀).trans hcalls)⟩
  | closes n hpc hcalls =>
    rcases hpc with hpc | hpc
    · simp only [BufferWriterBW.step, hpc] at hstep ⊢
      split_ifs at hstep ⊢ with hqueue
      cases hstep
      exact Or.inr ⟨_, rfl, .closes n (Or.inr rfl) hcalls⟩
    · -- the second header is posted
      obtain ⟨cur, hfinished⟩ := hinv.finished_of_closed hpc
      simp only [BufferWriterBW.step, hpc] at hstep
      cases n with
      | zero => cases hstep
      | succ n =>
        have hheader : ({ w₀ with calls := List.replicate (n + 1) .close, pc := .closed } :
            BufferWriterBW).closedHeader = w₀.header := hinv.closedHeader_of_closed hpc
        simp only [nextCall, List.replicate_succ, Option.some.injEq] at hstep hheader
        rw [← hstep, post, hheader, hfinished.queue]
        exact Or.inl (.again n hpc hcalls hfinished.queue _ (Or.inr rfl))
  | again n hpc hcalls hqueue queue hposted =>
    simp only [BufferWriterBW.step] at hstep
    split_ifs at hstep with hnil
    cases hstep
    rw [hnil, ← hpc, ← hqueue]
    exact Or.inl (.closes n (Or.inr hpc) hcalls)

theorem Follows.nic (h : Follows w₀ w) (hinv : Inv g program x m w₀)
    (hshows : g.Shows .bw x stage m)
    (hstage : (∀ y, stage.applied y = y) ∨ x.returned < x.sent.length)
    (hstep : w.nic m = some (m', w', made)) :
    m' = m ∧ Follows w₀ w' ∨ ∃ w₀', w₀.nic m = some (m', w₀', made) ∧ Follows w₀' w' := by
  cases h with
  | before calls n hcalls =>
    rw [nic_withCalls] at hstep
    obtain ⟨⟨m₁, w₀', made₁⟩, hw₀, heq⟩ := Option.map_eq_some_iff.mp hstep
    cases heq
    obtain ⟨op, queue, header, -, rfl⟩ := nic_eq hw₀
    exact Or.inr ⟨_, hw₀, .before calls n hcalls⟩
  | closes n hpc hcalls =>
    rw [nic_withCalls] at hstep
    obtain ⟨⟨m₁, w₀', made₁⟩, hw₀, heq⟩ := Option.map_eq_some_iff.mp hstep
    cases heq
    obtain ⟨op, queue, header, -, rfl⟩ := nic_eq hw₀
    exact Or.inr ⟨_, hw₀, .closes n hpc hcalls⟩
  | again n hpc hcalls hqueue queue hposted =>
    rcases hposted with rfl | rfl
    · cases hstep
    · cases hstep
      exact Or.inl ⟨hinv.writeHeader_of_closed hpc hshows hstage,
        .again n hpc hcalls hqueue [] (Or.inl rfl)⟩

/-- Where `w` is blocked, `w₀` is. -/
theorem Follows.blocked (h : Follows w₀ w) (hblocked : w.Blocked m) : w₀.Blocked m := by
  obtain ⟨next, data, rest, hpc, hqueue, hwriteable⟩ := hblocked
  cases h with
  | before calls n hcalls => exact ⟨next, data, rest, hpc, hqueue, hwriteable⟩
  | closes n _ hcalls => exact ⟨next, data, rest, hpc, hqueue, hwriteable⟩
  | again => cases hpc

end BufferWriterBW

open BufferWriterBW in
theorem bandwidthFollows {b : BufferRings k} (htype : b.type = .bw)
    (program : Fin k → List UInt8) :
    FollowerSim b machine (fun _ => True) (fun r => Inv (b.ring r) (program r)) Follows where
  step r x m w₀ w w' h hfollows hstep := hfollows.step h hstep
  nic r x stage m w₀ w m' w' made h hfollows hshows hstage hstep := by
    rw [htype] at hshows
    exact (hfollows.nic h hshows hstage hstep).imp id fun hmove => ⟨fun _ => trivial, hmove⟩

/-- Writers whose clients append and then close them any number of times. -/
def BufferRings.bandwidthClosing (b : BufferRings k) (internalBufferSize : Fin k → ℕ)
    (appends : Fin k → List (List UInt8)) (closes : Fin k → ℕ) (r : Fin k) : BufferWriterBW :=
  .init (b.ring r).entry (b.ring r).segmentSize (internalBufferSize r)
    ((appends r).map WriterCall.append ++ List.replicate (closes r) WriterCall.close)

theorem bandwidth_trails {b : BufferRings k} (htype : b.type = .bw) (internalBufferSize : Fin k → ℕ)
    {appends : Fin k → List (List UInt8)} (closes : Fin k → ℕ)
    (hspare : ∀ r, 2 ≤ (b.ring r).segments ∨ (appends r).flatten.length ≤ (b.ring r).segmentSize)
    (m : Mem) (schedule : List (RingLabel k)) :
    Schedule.Throughout (step .bw BufferWriterBW.machine)
      (fun s => ∃ writers a, s.Trails (b := b)
        (fun r => BufferWriterBW.Inv (b.ring r) (appends r).flatten) BufferWriterBW.Follows
        writers a)
      (init b m (b.bandwidthClosing internalBufferSize appends closes)) schedule := by
  rw [← htype]
  apply trails_throughout_bw (bandwidthSim htype _) (bandwidthFollows htype _) htype m
    (b.bandwidthWriters internalBufferSize appends)
  · exact fun r => BufferWriterBW.inv_init _ _ _ _ (hspare r)
  · exact fun r => .before ((appends r).map WriterCall.append) (closes r) rfl

namespace BufferWriterLat

/-- `w` is a writer like `w₀`, which is closed once or never. If `w₀` is closed, the client of `w`
may call `close` any number of times. From the second one on, `w₀` stands still. -/
inductive Follows (w₀ : BufferWriterLat) : BufferWriterLat → Prop
  | same : Follows w₀ w₀
  | before (calls : List LatCall) (n : ℕ) (hcalls : w₀.calls = calls ++ [.close]) :
    Follows w₀ { w₀ with calls := calls ++ List.replicate n .close }
  | closes (n : ℕ) (hpc : w₀.pc = .closing ∨ w₀.pc = .closed) (hcalls : w₀.calls = []) :
    Follows w₀ { w₀ with calls := List.replicate n .close }
  | again (n : ℕ) (hpc : w₀.pc = .closed) (hcalls : w₀.calls = []) (hqueue : w₀.queue = [])
    (queue : List LatOp) (hposted : queue = [] ∨ queue = [.writeHeader w₀.lastSegmentOffset]) :
    Follows w₀ { w₀ with calls := List.replicate n .close, queue, pc := .closing }

variable {g : RingGeometry} {x : RingState g} {stage : MarkStep} {m m' : Mem}
  {w₀ w w' : BufferWriterLat} {program : List (List UInt8)} {made : Option ℕ}

/-- Only a call looks at the calls to come. -/
theorem step_withCalls (w : BufferWriterLat) (calls : List LatCall)
    (hpc : ¬ (w.pc = .idle ∨ w.pc = .closed)) :
    ({ w with calls } : BufferWriterLat).step = w.step.map fun w' => { w' with calls } := by
  cases hat : w.pc with
  | idle => exact absurd (Or.inl hat) hpc
  | closed => exact absurd (Or.inr hat) hpc
  | _ =>
    simp only [step, hat]
    try split_ifs
    all_goals rfl

theorem calls_step (hpc : ¬ (w.pc = .idle ∨ w.pc = .closed)) (hstep : w.step = some w') :
    w'.calls = w.calls := by
  have hkept := step_withCalls w w.calls hpc
  rw [hstep] at hkept
  have hsame : w' = { w' with calls := w.calls } := Option.some.inj hkept
  rw [hsame]

theorem step_eq_nextCall (w : BufferWriterLat) (hpc : w.pc = .idle ∨ w.pc = .closed) :
    w.step = w.nextCall := by
  unfold BufferWriterLat.step
  rcases hpc with hpc | hpc <;> simp only [hpc]

/-- The queue pair neither looks at the calls nor changes them. -/
theorem nic_withCalls (m : Mem) (w : BufferWriterLat) (calls : List LatCall) :
    ({ w with calls } : BufferWriterLat).nic m =
      (w.nic m).map fun r => (r.1, { r.2.1 with calls }, r.2.2) := by
  simp only [nic]
  rcases w.queue with _ | ⟨_ | _ | _ | _, queue⟩ <;> rfl

theorem calls_nic (hstep : w.nic m = some (m', w', made)) :
    w'.calls = w.calls ∧ w'.pc = w.pc := by
  simp only [nic] at hstep
  rcases hqueue : w.queue with _ | ⟨_ | _ | _ | _, queue⟩ <;> rw [hqueue] at hstep <;>
    cases hstep <;> exact ⟨rfl, rfl⟩

theorem Inv.finished_of_closed (h : Inv g program x m w) (hpc : w.pc = .closed) :
    ∃ posted, Finished x w posted := by
  obtain ⟨posted, -, ⟨tail, -, hdetail⟩ | hfinished⟩ := h.state
  · unfold Detail at hdetail
    simp only [hpc] at hdetail
  · exact ⟨posted, hfinished⟩

/-- A closed writer has its last header at hand. -/
theorem Inv.closedHeader_of_closed (h : Inv g program x m w) (hpc : w.pc = .closed) :
    w.closedHeader = w.header := by
  obtain ⟨posted, hfinished⟩ := h.finished_of_closed hpc
  apply SegmentHeader.closing_eq_self
  · rw [hfinished.header]
  · rw [hfinished.header, h.segmentSizes]

/-- So does its segment. -/
theorem Inv.writeHeader_of_closed (h : Inv g program x m w) (hpc : w.pc = .closed)
    (hshows : g.Shows .lat x stage m)
    (hstage : (∀ y, stage.applied y = y) ∨ x.returned < x.sent.length) :
    writeHeader m w.lastSegmentOffset w.header = m := by
  obtain ⟨posted, hfinished⟩ := h.finished_of_closed hpc
  have hsent := hfinished.sent
  subst hsent
  have hlast := Nat.sub_add_cancel (List.length_pos_of_ne_nil hfinished.nonempty)
  have hheader : w.header = g.sentHeader .lat x (x.sent.length - 1) := by
    unfold RingGeometry.sentHeader
    rw [if_pos ⟨hfinished.fin, hlast⟩, hlast, hfinished.header]
  rw [hfinished.last, hheader, ← hshows.readHeader_last hfinished.nonempty hstage,
    writeHeader_readHeader]

theorem nextCall_before {calls : List LatCall} {n : ℕ} (hcalls : w₀.calls = calls ++ [.close])
    (hstep : nextCall { w₀ with calls := calls ++ List.replicate n .close } = some w') :
    ∃ w₀', w₀.nextCall = some w₀' ∧ Follows w₀' w' := by
  rcases calls with _ | ⟨message | _, calls⟩
  · cases n with
    | zero => cases hstep
    | succ n =>
      cases hstep
      refine ⟨_, by rw [nextCall, hcalls]; rfl, ?_⟩
      exact .closes n (Or.inl rfl) rfl
  · cases hstep
    refine ⟨_, by rw [nextCall, hcalls]; rfl, ?_⟩
    exact .before calls n rfl
  · cases hstep
    refine ⟨_, by rw [nextCall, hcalls]; rfl, ?_⟩
    exact .before calls n rfl

theorem Follows.step (h : Follows w₀ w) (hinv : Inv g program x m w₀) (hstep : w.step = some w') :
    Follows w₀ w' ∨ ∃ w₀', w₀.step = some w₀' ∧ Follows w₀' w' := by
  cases h with
  | same => exact Or.inr ⟨w', hstep, .same⟩
  | before calls n hcalls =>
    by_cases hcall : w₀.pc = .idle ∨ w₀.pc = .closed
    · rw [step_eq_nextCall { w₀ with calls := calls ++ List.replicate n .close } hcall] at hstep
      rw [step_eq_nextCall w₀ hcall]
      exact Or.inr (nextCall_before hcalls hstep)
    · rw [step_withCalls w₀ _ hcall] at hstep
      obtain ⟨w₀', hw₀, rfl⟩ := Option.map_eq_some_iff.mp hstep
      exact Or.inr ⟨w₀', hw₀, .before calls n ((calls_step hcall hw₀).trans hcalls)⟩
  | closes n hpc hcalls =>
    rcases hpc with hpc | hpc
    · simp only [BufferWriterLat.step, hpc] at hstep ⊢
      split_ifs at hstep ⊢ with hqueue
      cases hstep
      exact Or.inr ⟨_, rfl, .closes n (Or.inr rfl) hcalls⟩
    · -- the second header is posted
      obtain ⟨posted, hfinished⟩ := hinv.finished_of_closed hpc
      simp only [BufferWriterLat.step, hpc] at hstep
      cases n with
      | zero => cases hstep
      | succ n =>
        have hheader : ({ w₀ with calls := List.replicate (n + 1) .close, pc := .closed } :
            BufferWriterLat).closedHeader = w₀.header := hinv.closedHeader_of_closed hpc
        simp only [nextCall, List.replicate_succ, Option.some.injEq] at hstep hheader
        rw [← hstep, post, hheader, hfinished.queue]
        exact Or.inl (.again n hpc hcalls hfinished.queue _ (Or.inr rfl))
  | again n hpc hcalls hqueue queue hposted =>
    simp only [BufferWriterLat.step] at hstep
    split_ifs at hstep with hnil
    cases hstep
    rw [hnil, ← hpc, ← hqueue]
    exact Or.inl (.closes n (Or.inr hpc) hcalls)

theorem Follows.nic (h : Follows w₀ w) (hinv : Inv g program x m w₀)
    (hshows : g.Shows .lat x stage m)
    (hstage : (∀ y, stage.applied y = y) ∨ x.returned < x.sent.length)
    (hstep : w.nic m = some (m', w', made)) :
    m' = m ∧ Follows w₀ w' ∨ (w.CarriesPosted → w₀.CarriesPosted) ∧
      ∃ w₀', w₀.nic m = some (m', w₀', made) ∧ Follows w₀' w' := by
  cases h with
  | same => exact Or.inr ⟨id, w', hstep, .same⟩
  | before calls n hcalls =>
    rw [nic_withCalls] at hstep
    obtain ⟨⟨m₁, w₀', made₁⟩, hw₀, heq⟩ := Option.map_eq_some_iff.mp hstep
    cases heq
    have hcalls' := (calls_nic hw₀).1
    exact Or.inr ⟨id, w₀', hw₀, .before calls n (hcalls'.trans hcalls)⟩
  | closes n hpc hcalls =>
    rw [nic_withCalls] at hstep
    obtain ⟨⟨m₁, w₀', made₁⟩, hw₀, heq⟩ := Option.map_eq_some_iff.mp hstep
    cases heq
    obtain ⟨hcalls', hpc'⟩ := calls_nic hw₀
    rw [← hpc'] at hpc
    exact Or.inr ⟨id, w₀', hw₀, .closes n hpc (hcalls'.trans hcalls)⟩
  | again n hpc hcalls hqueue queue hposted =>
    rcases hposted with rfl | rfl
    · cases hstep
    · cases hstep
      exact Or.inl ⟨hinv.writeHeader_of_closed hpc hshows hstage,
        .again n hpc hcalls hqueue [] (Or.inl rfl)⟩

theorem Follows.blocked (h : Follows w₀ w) (hblocked : w.Blocked m) : w₀.Blocked m := by
  cases h with
  | same => exact hblocked
  | before calls n hcalls => exact hblocked
  | closes n _ hcalls => exact hblocked
  | again =>
    obtain ⟨old, message, hpc, -⟩ := hblocked
    cases hpc

end BufferWriterLat

open BufferWriterLat in
theorem latencyFollows {b : BufferRings k} (htype : b.type = .lat)
    (program : Fin k → List (List UInt8)) :
    FollowerSim b machine CarriesPosted (fun r => Inv (b.ring r) (program r)) Follows where
  step r x m w₀ w w' h hfollows hstep := hfollows.step h hstep
  nic r x stage m w₀ w m' w' made h hfollows hshows hstage hstep := by
    rw [htype] at hshows
    exact hfollows.nic h hshows hstage hstep

/-- Writers whose clients append and then close them any number of times, but not without a
message. -/
theorem latency_trails {b : BufferRings k} (htype : b.type = .lat)
    {internalBufferSize : Fin k → ℕ} {messages : Fin k → List Message} {closes : Fin k → ℕ}
    (hspare : ∀ r, 2 ≤ (b.ring r).segments ∨ messages r = [])
    (hcloses : ∀ r, messages r = [] → closes r = 0)
    (hsizes : ∀ r, ∀ message ∈ messages r, message.data.length ≤ (b.ring r).segmentSize)
    {m : Mem} {schedule : List (RingLabel k)}
    (hguarded : Schedule.EachStep (step .lat BufferWriterLat.machine)
      (Guarded BufferWriterLat.CarriesPosted)
      (init b m (b.latencyWriters internalBufferSize messages
        fun r => List.replicate (closes r) .close)) schedule) :
    Schedule.Throughout (step .lat BufferWriterLat.machine)
      (fun s => ∃ writers a, s.Trails (b := b)
        (fun r => BufferWriterLat.Inv (b.ring r) ((messages r).map Message.data))
        BufferWriterLat.Follows writers a)
      (init b m (b.latencyWriters internalBufferSize messages
        fun r => List.replicate (closes r) .close)) schedule := by
  have hprogram : ∀ r, 2 ≤ (b.ring r).segments ∨ (messages r).map Message.data = [] :=
    fun r => (hspare r).imp id fun hnone => by rw [hnone]; rfl
  rw [← htype] at hguarded ⊢
  apply trails_throughout (latencySim htype _ hprogram) (latencyFollows htype _) m
    (b.latencyWriters internalBufferSize messages
      fun r => if messages r = [] then [] else [.close]) _ _ schedule hguarded
  · intro r
    apply BufferWriterLat.inv_init _ _ _ _ (hsizes r)
    · rw [← htype]
      exact b.shows_initMem m r
    · by_cases hnone : messages r = []
      · exact Or.inl (if_pos hnone)
      · exact Or.inr ⟨if_neg hnone, hnone⟩
  · intro r
    simp only [BufferRings.latencyWriters]
    split_ifs with hnone
    · rw [hcloses r hnone]
      exact .same
    · exact .before ((messages r).map LatCall.append) (closes r) rfl

/-- The protocol hands out nothing twice, nor does a system that trails it. -/
theorem RingSystem.Trails.notTwice {b : BufferRings k}
    {W : ∀ r, RingState (b.ring r) → Mem → ω → Prop} {Follows : ω → ω → Prop}
    {s : RingSystem ω k} {writers : Fin k → ω} {a : BufferState b}
    (h : s.Trails W Follows writers a) : NeverTwice s.log ∧ ¬ s.iterator.ResetsNext :=
  ⟨h.1.2.neverTwice, h.1.1.not_resetsNext⟩

/-- No segment is handed out twice: on a bandwidth buffer as long as a ring of one segment never
has to be filled again, on a latency buffer as long as nothing is appended on such a ring, the
messages fit into a segment and arrive as they were posted, and the counters do not wrap. -/
theorem never_twice (b : BufferRings k) (internalBufferSize closes : Fin k → ℕ) (m : Mem)
    (schedule : List (RingLabel k)) :
    (b.type = .bw → ∀ appends : Fin k → List (List UInt8),
      (∀ r, 2 ≤ (b.ring r).segments ∨ (appends r).flatten.length ≤ (b.ring r).segmentSize) →
      Schedule.Throughout (step .bw BufferWriterBW.machine)
        (fun s => NeverTwice s.log ∧ ¬ s.iterator.ResetsNext)
        (init b m (b.bandwidthClosing internalBufferSize appends closes)) schedule) ∧
    (b.type = .lat → ∀ messages : Fin k → List Message,
      (∀ r, 2 ≤ (b.ring r).segments ∨ messages r = []) →
      (∀ r, messages r = [] → closes r = 0) →
      (∀ r, ∀ message ∈ messages r, message.data.length ≤ (b.ring r).segmentSize) →
      Schedule.EachStep (step .lat BufferWriterLat.machine) (Guarded BufferWriterLat.CarriesPosted)
        (init b m (b.latencyWriters internalBufferSize messages
          fun r => List.replicate (closes r) .close)) schedule →
      Schedule.Throughout (step .lat BufferWriterLat.machine)
        (fun s => NeverTwice s.log ∧ ¬ s.iterator.ResetsNext)
        (init b m (b.latencyWriters internalBufferSize messages
          fun r => List.replicate (closes r) .close)) schedule) := by
  constructor
  · intro htype appends hspare pre s hpre hs
    obtain ⟨writers, a, ha⟩ := bandwidth_trails htype internalBufferSize closes hspare m schedule
      pre s hpre hs
    exact ha.notTwice
  · intro htype messages hspare hcloses hsizes hguarded pre s hpre hs
    obtain ⟨writers, a, ha⟩ := latency_trails htype hspare hcloses hsizes hguarded pre s hpre hs
    exact ha.notTwice

/-- Rings of two segments, read to the end and closed again. -/
theorem never_twice_two_segments :
    (((Schedule.exec (step .bw BufferWriterBW.machine)
        (init (byteSegments 2 (by decide) (by decide)) (fun _ => 0)
          ((byteSegments 2 (by decide) (by decide)).bandwidthClosing (fun _ => 4)
            (fun _ => [[7, 9]]) fun _ => 2))
        (twoSegmentRun ++ [.writer 0, .writer 0, .nic 0])).map fun s => s.log.length) = some 10 ∧
      Schedule.Throughout (step .bw BufferWriterBW.machine)
        (fun s => NeverTwice s.log ∧ ¬ s.iterator.ResetsNext)
        (init (byteSegments 2 (by decide) (by decide)) (fun _ => 0)
          ((byteSegments 2 (by decide) (by decide)).bandwidthClosing (fun _ => 4)
            (fun _ => [[7, 9]]) fun _ => 2))
        (twoSegmentRun ++ [.writer 0, .writer 0, .nic 0])) ∧
    ((Schedule.exec (step .lat BufferWriterLat.machine)
        (init (creditSegments 2 (by decide) (by decide)) (fun _ => 0)
          ((creditSegments 2 (by decide) (by decide)).latencyWriters (fun _ => 100)
            (fun _ => [⟨[7], [], false⟩, ⟨[8], [], false⟩, ⟨[9], [], false⟩])
            fun _ => List.replicate 2 .close))
        (creditCloseRun ++ [.writer 0, .nic 0])).map fun s => s.log.length) = some 15 ∧
      Schedule.Throughout (step .lat BufferWriterLat.machine)
        (fun s => NeverTwice s.log ∧ ¬ s.iterator.ResetsNext)
        (init (creditSegments 2 (by decide) (by decide)) (fun _ => 0)
          ((creditSegments 2 (by decide) (by decide)).latencyWriters (fun _ => 100)
            (fun _ => [⟨[7], [], false⟩, ⟨[8], [], false⟩, ⟨[9], [], false⟩])
            fun _ => List.replicate 2 .close))
        (creditCloseRun ++ [.writer 0, .nic 0]) := by
  refine ⟨⟨by decide +kernel, ?_⟩, by decide +kernel, ?_⟩
  · exact (never_twice (byteSegments 2 (by decide) (by decide)) (fun _ => 4) (fun _ => 2)
      (fun _ => 0) (twoSegmentRun ++ [.writer 0, .writer 0, .nic 0])).1 rfl (fun _ => [[7, 9]])
      fun _ => Or.inl le_rfl
  · exact (never_twice (creditSegments 2 (by decide) (by decide)) (fun _ => 100) (fun _ => 2)
      (fun _ => 0) (creditCloseRun ++ [.writer 0, .nic 0])).2 rfl
      (fun _ => [⟨[7], [], false⟩, ⟨[8], [], false⟩, ⟨[9], [], false⟩]) (fun _ => Or.inl le_rfl)
      (by simp) (by simp [creditSegments, BufferRings.single]) (by decide +kernel)

/-- On a ring of one segment the writer hands the segment over and waits; the iterator
returns it and, the segment still being consumable, returns it again. -/
def singleSegmentRun : List (RingLabel 1) :=
  [.writer 0, .nic 0] ++ List.replicate 4 (.writer 0) ++ [.nic 0, .writer 0, .nic 0] ++
    RingLabel.call .hasNext 2 ++ RingLabel.call .next 6 ++ RingLabel.call .hasNext 2 ++
    RingLabel.call .next 6

theorem handed_out_twice_single_segment :
    ¬ Schedule.Throughout (step .bw BufferWriterBW.machine)
      (fun s => NeverTwice s.log ∧ ¬ s.iterator.ResetsNext)
      (init (byteSegments 1 (by decide) (by decide)) (fun _ => 0)
        ((byteSegments 1 (by decide) (by decide)).bandwidthWriters (fun _ => 4)
          fun _ => [[7, 9]])) singleSegmentRun := by
  intro h
  have hlog : ((Schedule.exec (step .bw BufferWriterBW.machine)
      (init (byteSegments 1 (by decide) (by decide)) (fun _ => 0)
        ((byteSegments 1 (by decide) (by decide)).bandwidthWriters (fun _ => 4)
          fun _ => [[7, 9]])) singleSegmentRun).map fun s => s.log) =
      some ([.madeConsumable 0, .hasNextReturned true, .nextCalled 0, .nextReturned 0 0 [7],
        .hasNextReturned true, .nextCalled 0] ++ [.nextReturned 0 0 []]) := by decide +kernel
  obtain ⟨s, hs, heq⟩ := Option.map_eq_some_iff.mp hlog
  have hnever := (h singleSegmentRun s (List.prefix_refl _) hs).1
  rw [heq] at hnever
  have htwice := hnever _ 0 0 [] (List.prefix_refl _)
  revert htwice
  decide

/-- A writer that waits for its next segment or for credit and an iterator that finds nothing to
return never wait for each other: on a bandwidth buffer in every run, on a latency buffer as long
as no client closes a ring that it has appended nothing on, the messages fit into a segment and
arrive as they were posted, and the counters do not wrap. -/
theorem never_both_waiting (b : BufferRings k) (hsegments : ∀ r, 2 ≤ (b.ring r).segments)
    (internalBufferSize closes : Fin k → ℕ) (m : Mem) (schedule : List (RingLabel k)) :
    (b.type = .bw → ∀ appends : Fin k → List (List UInt8),
      Schedule.Throughout (step .bw BufferWriterBW.machine)
        (fun s => ∀ r, (s.writers r).Blocked s.mem → ∃ h ∈ s.iterator.segmentIterators.toList,
          h.ring = r ∧ (readHeader s.mem h.iter).isConsumable = true)
        (init b m (b.bandwidthClosing internalBufferSize appends closes)) schedule) ∧
    (b.type = .lat → ∀ messages : Fin k → List Message,
      (∀ r, messages r = [] → closes r = 0) →
      (∀ r, ∀ message ∈ messages r, message.data.length ≤ (b.ring r).segmentSize) →
      Schedule.EachStep (step .lat BufferWriterLat.machine) (Guarded BufferWriterLat.CarriesPosted)
        (init b m (b.latencyWriters internalBufferSize messages
          fun r => List.replicate (closes r) .close)) schedule →
      Schedule.Throughout (step .lat BufferWriterLat.machine)
        (fun s => ∀ r, (s.writers r).Blocked s.mem → ∃ h ∈ s.iterator.segmentIterators.toList,
          h.ring = r ∧ (readHeader s.mem h.iter).isConsumable = true)
        (init b m (b.latencyWriters internalBufferSize messages
          fun r => List.replicate (closes r) .close)) schedule) := by
  constructor
  · intro htype appends pre s hpre hs r hblocked
    obtain ⟨writers, a, ha, hfollows⟩ := bandwidth_trails htype internalBufferSize closes
      (fun r => Or.inl (hsegments r)) m schedule pre s hpre hs
    have hshows : (b.ring r).Shows .bw (a.ring r) (s.iterator.pcAt r).stage s.mem := by
      rw [← htype]
      exact ha.1.shows r
    obtain ⟨hfin, hmulti, hfull⟩ := (ha.1.writer r).full_of_blocked hshows
      ((hfollows r).blocked hblocked)
    exact ha.1.consumable_of_full hfin hmulti hfull
  · intro htype messages hcloses hsizes hguarded pre s hpre hs r hblocked
    obtain ⟨writers, a, ha, hfollows⟩ := latency_trails htype (fun r => Or.inl (hsegments r))
      hcloses hsizes hguarded pre s hpre hs
    obtain ⟨hfin, hfull⟩ := (ha.1.writer r).full_of_blocked ((hfollows r).blocked hblocked)
    exact ha.1.consumable_of_full hfin (hsegments r) hfull

theorem never_both_waiting_two_segments :
    Schedule.Throughout (step .bw BufferWriterBW.machine)
      (fun s => ∀ r, (s.writers r).Blocked s.mem → ∃ h ∈ s.iterator.segmentIterators.toList,
        h.ring = r ∧ (readHeader s.mem h.iter).isConsumable = true)
      (init (byteSegments 2 (by decide) (by decide)) (fun _ => 0)
        ((byteSegments 2 (by decide) (by decide)).bandwidthClosing (fun _ => 4)
          (fun _ => [[7, 9]]) fun _ => 2)) (twoSegmentRun ++ [.writer 0, .writer 0, .nic 0]) ∧
    Schedule.Throughout (step .lat BufferWriterLat.machine)
      (fun s => ∀ r, (s.writers r).Blocked s.mem → ∃ h ∈ s.iterator.segmentIterators.toList,
        h.ring = r ∧ (readHeader s.mem h.iter).isConsumable = true)
      (init (creditSegments 2 (by decide) (by decide)) (fun _ => 0)
        ((creditSegments 2 (by decide) (by decide)).latencyWriters (fun _ => 100)
          (fun _ => [⟨[7], [], false⟩, ⟨[8], [], false⟩, ⟨[9], [], false⟩])
          fun _ => List.replicate 2 .close))
      (creditCloseRun ++ [.writer 0, .nic 0]) := by
  constructor
  · exact (never_both_waiting (byteSegments 2 (by decide) (by decide)) (fun _ => le_rfl)
      (fun _ => 4) (fun _ => 2) (fun _ => 0) (twoSegmentRun ++ [.writer 0, .writer 0, .nic 0])).1
      rfl fun _ => [[7, 9]]
  · exact (never_both_waiting (creditSegments 2 (by decide) (by decide)) (fun _ => le_rfl)
      (fun _ => 100) (fun _ => 2) (fun _ => 0) (creditCloseRun ++ [.writer 0, .nic 0])).2 rfl
      (fun _ => [⟨[7], [], false⟩, ⟨[8], [], false⟩, ⟨[9], [], false⟩]) (by simp)
      (by simp [creditSegments, BufferRings.single]) (by decide +kernel)

/-- The third message, of 25 bytes, ends in zeros that replace the header of the segment
lent to the client. The iterator cannot release that segment any more. -/
def longMessageRun : List (RingLabel 1) :=
  creditRun ++ [.writer 0, .nic 0, .writer 0, .writer 0, .nic 0, .writer 0, .writer 0, .writer 0,
    .nic 0] ++ RingLabel.call .hasNext 2 ++ RingLabel.call .next 4

theorem both_waiting_after_long_message :
    ¬ Schedule.Throughout (step .lat BufferWriterLat.machine)
      (fun s => ∀ r, (s.writers r).Blocked s.mem → ∃ h ∈ s.iterator.segmentIterators.toList,
        h.ring = r ∧ (readHeader s.mem h.iter).isConsumable = true)
      (init (creditSegments 2 (by decide) (by decide)) (fun _ => 0)
        ((creditSegments 2 (by decide) (by decide)).latencyWriters (fun _ => 100)
          (fun _ => [⟨[7], [], false⟩, ⟨[8], [], false⟩, ⟨List.replicate 25 0, [], false⟩,
            ⟨[5], [], false⟩]) fun _ => []))
      longMessageRun := by
  intro h
  have hrun : ((Schedule.exec (step .lat BufferWriterLat.machine)
      (init (creditSegments 2 (by decide) (by decide)) (fun _ => 0)
        ((creditSegments 2 (by decide) (by decide)).latencyWriters (fun _ => 100)
          (fun _ => [⟨[7], [], false⟩, ⟨[8], [], false⟩, ⟨List.replicate 25 0, [], false⟩,
            ⟨[5], [], false⟩]) fun _ => []))
      longMessageRun).map fun s =>
        ((s.writers 0).pc, (s.writers 0).queue, (s.writers 0).consumedCnt,
          readWord s.mem (s.writers 0).counterOffset,
          s.iterator.segmentIterators.toList.map fun y => (readHeader s.mem y.iter).isConsumable)) =
      some (.refresh 3 ⟨[5], [], false⟩, [], 3, 3, [false]) := by
    decide +kernel
  obtain ⟨s, hs, heq⟩ := Option.map_eq_some_iff.mp hrun
  simp only [Prod.mk.injEq] at heq
  obtain ⟨hpc, hqueue, hcnt, hword, hiter⟩ := heq
  obtain ⟨y, hy, -, hconsumable⟩ := h _ s (List.prefix_refl _) hs 0
    ⟨3, _, hpc, Or.inl hqueue, hcnt, hword⟩
  have hmem := List.mem_map_of_mem (f := fun y => (readHeader s.mem y.iter).isConsumable) hy
  rw [hiter, hconsumable] at hmem
  simp at hmem

end DpiLibrary
