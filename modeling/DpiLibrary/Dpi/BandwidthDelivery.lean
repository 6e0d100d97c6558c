import DpiLibrary.Dpi.FairDelivery

/-!
# Fair delivery of bandwidth buffers

A bandwidth writer that finds the next segment taken reads its header again and again.
Once the segment is free one read is enough, so the reads are not counted as work but
ranked by how far the writer is from having read a free header.
-/

namespace DpiLibrary

variable {k : ℕ}

def WriterPc.polls : WriterPc → Bool
  | .poll _ _ _ => true
  | _ => false

theorem WriterPc.exists_of_polls {pc : WriterPc} (h : pc.polls = true) :
    ∃ next data rest, pc = .poll next data rest := by
  cases pc with
  | poll next data rest => exact ⟨next, data, rest, rfl⟩
  | _ => simp [polls] at h

namespace BufferWriterBW

/-- Work of the writer and its queue pair, one read for all the reads of a poll. -/
def pollingWork (w : BufferWriterBW) : ℕ :=
  if w.pc.polls then 2 * w.steps + 1 else w.work

/-- Turns until a polling writer has read a free header; without room there is no saying. -/
def pollRank {g : RingGeometry} (x : RingState g) (w : BufferWriterBW) : ℕ :=
  if w.pc.polls then
    if w.queue = [] ∧ w.header.isWriteable = true then 0
    else if x.sent.length < x.released + g.segments then
      if w.queue = [] then 2 else 1
    else 3
  else 0

def left {g : RingGeometry} (x : RingState g) (w : BufferWriterBW) : ℕ :=
  13 * w.pollingWork + pollRank x w

variable {g : RingGeometry} {x x' : RingState g} {m m' : Mem} {w w' : BufferWriterBW}
  {program : List UInt8} {stage : MarkStep} {made : Option ℕ}

theorem pollRank_le (x : RingState g) (w : BufferWriterBW) : pollRank x w ≤ 3 := by
  unfold pollRank
  split_ifs <;> omega

/-- A segment that has become free brings a polling writer nearer. -/
theorem pollRank_consume (w : BufferWriterBW) (hsent : x'.sent = x.sent)
    (hreleased : x.released ≤ x'.released) : pollRank x' w ≤ pollRank x w := by
  unfold pollRank
  rw [hsent]
  split_ifs <;> omega

theorem polls_pc_after (after : AfterWrite) : after.pc.polls = false := by
  cases after with
  | split data rest => rfl
  | done rest => cases rest <;> rfl

theorem polls_writeToSegment (w : BufferWriterBW) (data : List UInt8) (after : AfterWrite) :
    (w.writeToSegment data after).pc.polls = false := by
  unfold writeToSegment
  split_ifs
  · exact polls_pc_after after
  · rfl

theorem polls_superAppend (w : BufferWriterBW) (data : List UInt8) (rest : Option (List UInt8)) :
    (w.superAppend data rest).pc.polls = false := by
  unfold superAppend
  dsimp only
  split_ifs
  · exact polls_writeToSegment _ _ _
  · rfl
  · exact polls_writeToSegment _ _ _

theorem polls_nextCall (hstep : w.nextCall = some w') : w'.pc.polls = false := by
  unfold nextCall at hstep
  split at hstep <;> cases hstep <;> rfl

/-- A writer that polls has just posted a read. -/
theorem queue_ne_nil_of_polls (hstep : w.step = some w') (hpolls : w'.pc.polls = true) :
    w'.queue ≠ [] := by
  have hnot : ∀ {pc : WriterPc}, pc.polls = false → pc.polls ≠ true := by
    intro pc hpc
    simp [hpc]
  unfold step at hstep
  split at hstep
  case h_3 => exact absurd hpolls (hnot (polls_nextCall hstep))
  case h_11 => exact absurd hpolls (hnot (polls_nextCall hstep))
  case h_5 =>
    cases hstep
    exact absurd hpolls (hnot (polls_superAppend _ _ _))
  case h_6 =>
    split_ifs at hstep
    cases hstep
    exact absurd hpolls (hnot (polls_pc_after _))
  all_goals
    try split_ifs at hstep
    all_goals
      cases hstep
      simp_all [post, WriterPc.polls]

/-- The writer takes nothing out of the queue. -/
theorem queue_prefix_step (hstep : w.step = some w') : w.queue <+: w'.queue := by
  have hwrite : ∀ data after, w.queue <+: (w.writeToSegment data after).queue := by
    intro data after
    unfold writeToSegment
    split_ifs <;> exact List.prefix_append _ _
  have hcall : w.nextCall = some w' → w.queue <+: w'.queue := by
    intro hnext
    unfold nextCall at hnext
    split at hnext <;> cases hnext
    · exact List.prefix_refl _
    · exact List.prefix_append _ _
  unfold step at hstep
  split at hstep
  case h_3 => exact hcall hstep
  case h_11 => exact hcall hstep
  case h_5 =>
    cases hstep
    unfold superAppend
    dsimp only
    split_ifs
    · exact hwrite _ _
    · exact List.prefix_refl _
    · exact hwrite _ _
  all_goals
    try split_ifs at hstep
    all_goals
      cases hstep
      simp [post, postData]

theorem pollingWork_le_work (hstep : w.step = some w') : w'.pollingWork ≤ w'.work := by
  unfold pollingWork
  split_ifs with hpolls
  · have hpos := List.length_pos_of_ne_nil (queue_ne_nil_of_polls hstep hpolls)
    unfold work
    omega
  · exact le_rfl

/-- A step of the writer takes work off, or it is a poll that has found the segment taken. -/
theorem Inv.left_step (h : Inv g program x m w) (hsize : 0 < g.segmentSize)
    (hbuffer : 0 < w.internalBufferSize) (hstep : w.step = some w') :
    left x w' < left x w ∨
      left x w' = left x w ∧ x.released + g.segments ≤ x.sent.length := by
  have hrank' := pollRank_le x w'
  have hwork' := pollingWork_le_work hstep
  by_cases hpolls : w.pc.polls = true
  · obtain ⟨next, data, rest, hpc⟩ := WriterPc.exists_of_polls hpolls
    have hqueue : w.queue = [] := by
      by_contra hne
      simp [BufferWriterBW.step, hpc, hne] at hstep
    have hpolling : w.pollingWork = w.work + 1 := by
      simp [pollingWork, hpolls, work, hqueue]
    by_cases hwriteable : w.header.isWriteable = true
    · have hlt := h.work_step_lt hsize hbuffer (fun _ _ _ _ _ => hwriteable) hstep
      unfold left
      omega
    · simp only [BufferWriterBW.step, hpc, hqueue, if_true, hwriteable] at hstep
      cases hstep
      have hsame : (w.post (.readHeader next) (.poll next data rest)).pollingWork =
          w.pollingWork := by
        simp [pollingWork, post, steps, hpc, WriterPc.polls, WriterPc.work]
      unfold left
      rw [hsame]
      by_cases hroom : x.sent.length < x.released + g.segments
      · have hpost : pollRank x (w.post (.readHeader next) (.poll next data rest)) = 1 := by
          simp [pollRank, post, WriterPc.polls, hroom]
        have hbefore : pollRank x w = 2 := by
          simp [pollRank, hpolls, hqueue, hwriteable, hroom]
        omega
      · have hpost : pollRank x (w.post (.readHeader next) (.poll next data rest)) = 3 := by
          simp [pollRank, post, WriterPc.polls, hroom]
        have hbefore : pollRank x w = 3 := by
          simp [pollRank, hpolls, hwriteable, hroom]
        omega
  · have hlt := h.work_step_lt hsize hbuffer
      (fun next data rest hpc => absurd (by rw [hpc]; rfl) hpolls) hstep
    have hpolling : w.pollingWork = w.work := by simp [pollingWork, hpolls]
    unfold left
    omega

/-- An operation of the queue pair takes work off and pays for the segment it sends, or it is
a read of a poll. -/
theorem Inv.left_nic (h : Inv g program x m w) (hshows : g.Shows .bw x stage m)
    (hstep : w.nic m = some (m', w', made)) (hmove : NicMove x made x') :
    left x' w' + 12 * x'.sent.length < left x w + 12 * x.sent.length ∨
      left x' w' ≤ left x w ∧ x' = x ∧ made = none ∧
        x.released + g.segments ≤ x.sent.length := by
  have hlt := work_nic_lt hstep
  have hrank' := pollRank_le x' w'
  obtain ⟨op, queue, header, hqueue, rfl⟩ := nic_eq hstep
  by_cases hpolls : w.pc.polls = true
  · obtain ⟨next, data, rest, hpc⟩ := WriterPc.exists_of_polls hpolls
    obtain ⟨cur, -, hstate⟩ := h.state
    unfold State at hstate
    simp only [hpc, hqueue, reduceCtorEq, false_and, or_false] at hstate
    obtain ⟨-, hwaiting, hread⟩ := hstate
    obtain ⟨rfl, rfl⟩ := List.cons.inj hread
    simp only [BufferWriterBW.nic, hqueue, Option.some.injEq, Prod.mk.injEq] at hstep
    obtain ⟨rfl, hheader, rfl⟩ := hstep
    have hheader : readHeader m next = header := congrArg BufferWriterBW.header hheader
    cases hmove with
    | stutter =>
      have hsame : ({ w with queue := [], header } : BufferWriterBW).pollingWork =
          w.pollingWork := by
        simp [pollingWork, hpolls, steps, fullWork]
      unfold left
      rw [hsame]
      by_cases hroom : x.sent.length < x.released + g.segments
      · have hbefore : pollRank x w = 1 := by
          simp [pollRank, hpolls, hqueue, hroom]
        have hafter : pollRank x { w with queue := [], header } = 0 := by
          rw [hwaiting.next_eq, readHeader_next hshows hroom] at hheader
          simp [pollRank, hpolls, ← hheader, RingGeometry.freeHeader,
            SegmentHeader.isWriteable]
        omega
      · have hbefore : pollRank x w = 3 := by
          simp [pollRank, hpolls, hqueue, hroom]
        exact Or.inr ⟨by omega, rfl, rfl, by omega⟩
  · have hpolling : w.pollingWork = w.work := by simp [pollingWork, hpolls]
    have hpolling' : ({ w with queue, header } : BufferWriterBW).pollingWork =
        ({ w with queue, header } : BufferWriterBW).work := by simp [pollingWork, hpolls]
    have hsent : x'.sent.length ≤ x.sent.length + 1 := by
      cases hmove <;> simp
    have hrank : pollRank x' { w with queue, header } = 0 := by simp [pollRank, hpolls]
    unfold left
    omega

end BufferWriterBW

open BufferWriterBW RingSystem

variable {b : BufferRings k}

/-- The writer's invariant, with the internal buffer it was constructed with. -/
def BandwidthWriterInv (b : BufferRings k) (program : Fin k → List UInt8) (r : Fin k)
    (x : RingState (b.ring r)) (m : Mem) (w : BufferWriterBW) : Prop :=
  Inv (b.ring r) (program r) x m w ∧ 0 < w.internalBufferSize

theorem bandwidthWriterSim (htype : b.type = .bw) (program : Fin k → List UInt8) :
    WriterSim b machine (fun _ => True) (BandwidthWriterInv b program) := by
  refine (bandwidthSim htype program).and (P := fun _ w => 0 < w.internalBufferSize) ?_ ?_
  · intro r x m w w' _ hbuffer hstep
    rwa [internalBufferSize_step hstep]
  · intro r x m w m' w' made _ hbuffer hstep
    rwa [internalBufferSize_nic hstep]

theorem bandwidthLaws (htype : b.type = .bw) (hsize : ∀ r, 0 < (b.ring r).segmentSize)
    (program : Fin k → List UInt8) :
    WriterLaws b machine (BandwidthWriterInv b program) (fun _ => BufferWriterBW.left)
      fun w => w.queue ≠ [] where
  nic_isSome m w := by
    cases hqueue : w.queue with
    | nil => simp [machine, nic, hqueue]
    | cons op queue => cases op <;> simp [machine, nic, hqueue]
  stays_busy w w' hstep hbusy hnil := by
    have hprefix := queue_prefix_step hstep
    rw [hnil, List.prefix_nil] at hprefix
    exact hbusy hprefix
  consume r x x' w hsent hreleased := by
    have hrank := pollRank_consume (g := b.ring r) w hsent hreleased
    unfold BufferWriterBW.left
    omega
  step_le r x m w w' h hstep := by
    rcases h.1.left_step (hsize r) h.2 hstep with hlt | ⟨heq, -⟩
    · exact hlt.le
    · exact heq.le
  step_lt r x m w w' h hstep _ hroom := by
    rcases h.1.left_step (hsize r) h.2 hstep with hlt | ⟨-, hfull⟩
    · exact hlt
    · omega
  nic_le r x stage m w m' w' made x' h hshows hstep hmove := by
    rw [htype] at hshows
    rcases h.1.left_nic hshows hstep hmove with hlt | ⟨hle, rfl, -, -⟩
    · exact hlt.le
    · exact Nat.add_le_add_right hle _
  nic_lt r x stage m w m' w' made x' h hshows hstep hmove hroom := by
    rw [htype] at hshows
    rcases h.1.left_nic hshows hstep hmove with hlt | ⟨-, -, hmade, hfull⟩
    · exact hlt
    · rcases hroom with hne | hroom
      · exact absurd hmade hne
      · omega
  step_isSome r x m w h hfin hidle := by
    have hqueue : w.queue = [] := not_not.mp hidle
    by_contra hnone
    have hclosed := h.1.closed_of_stopped hqueue (Option.not_isSome_iff_eq_none.mp hnone)
    rw [h.1.fin_of_closed hclosed] at hfin
    cases hfin
  sent_ne_nil r x m w h hfin := h.1.nonempty hfin

def bandwidthProgress (htype : b.type = .bw) (hsize : ∀ r, 0 < (b.ring r).segmentSize)
    (program : Fin k → List UInt8) : WriterProgress b machine (BandwidthWriterInv b program) where
  left _ := BufferWriterBW.left
  Busy w := w.queue ≠ []
  laws := bandwidthLaws htype hsize program

/-- Every fair run delivers: from some time on `has_next` has returned false, every writer has
closed and the consumer has been given all bytes appended, in order. -/
theorem bandwidth_fair_delivery (b : BufferRings k) (htype : b.type = .bw)
    (hsegments : ∀ r, 2 ≤ (b.ring r).segments) (hsize : ∀ r, 1 ≤ (b.ring r).segmentSize)
    (internalBufferSize : Fin k → ℕ) (hbuffer : ∀ r, 1 ≤ internalBufferSize r)
    (appends : Fin k → List (List UInt8)) (m : Mem) (schedule : ℕ → Party k)
    (hfair : FairRuns.Fair schedule) :
    ∃ n, ∀ n', n ≤ n' → ∀ s, s = FairRuns.run (turn .bw machine)
        (init b m (b.bandwidthWriters internalBufferSize appends)) schedule n' →
      .hasNextReturned false ∈ s.log ∧
      ∀ r, (s.writers r).Closed ∧ (returnedBlocks s.log r).flatten = (appends r).flatten := by
  have hstart : ∃ a, (init b m (b.bandwidthWriters internalBufferSize appends)).Refines
      (BandwidthWriterInv b fun r => (appends r).flatten) a :=
    ⟨_, refines_init m _ fun r => ⟨inv_init _ _ _ _ (Or.inl (hsegments r)), hbuffer r⟩⟩
  obtain ⟨n, hn⟩ := (bandwidthProgress htype hsize fun r => (appends r).flatten).eventually_drained
    hsegments (bandwidthWriterSim htype fun r => (appends r).flatten) hstart hfair
    (fun n a ha => ha.guarded htype _)
  rw [htype] at hn
  refine ⟨n, ?_⟩
  rintro n' hle s rfl
  obtain ⟨hlog, a, ha, hdrained⟩ := hn n' hle
  refine ⟨hlog, fun r => ?_⟩
  obtain ⟨hfin, hreturned⟩ := hdrained r
  obtain ⟨hclosed, -, hsent⟩ := (ha.1.writer r).1.finished hfin
  rw [ha.2.blocks r (Or.inl htype), LaggedRing.delivered_eq _ hreturned]
  exact ⟨hclosed, hsent⟩

/-- Parties that have their turns one after the other. -/
theorem bandwidth_fair_delivery_in_turn :
    ∃ n, ∀ n', n ≤ n' → ∀ s, s = FairRuns.run (turn .bw machine)
        (init (byteSegments 2 (by decide) (by decide)) (fun _ => 0)
          ((byteSegments 2 (by decide) (by decide)).bandwidthWriters (fun _ => 4)
            fun _ => [[7, 9], [8, 8, 8]])) (Party.inTurn 1) n' →
      .hasNextReturned false ∈ s.log ∧
      ∀ r, (s.writers r).Closed ∧
        (returnedBlocks s.log r).flatten = [[7, 9], [8, 8, 8]].flatten :=
  bandwidth_fair_delivery (byteSegments 2 (by decide) (by decide)) rfl (fun _ => le_rfl)
    (fun _ => le_rfl) (fun _ => 4) (fun _ => by decide) (fun _ => [[7, 9], [8, 8, 8]]) (fun _ => 0)
    (Party.inTurn 1) (Party.fair_inTurn 1)

end DpiLibrary
