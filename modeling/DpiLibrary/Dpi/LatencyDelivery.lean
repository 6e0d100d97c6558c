import DpiLibrary.Dpi.FairDelivery
import DpiLibrary.Dpi.LatencyRing

/-!
# Fair delivery of latency buffers

A latency writer without credits reads the ring's counter until it changes. Writes of
earlier messages may still be in front of that read in the queue; they are counted as
work, and the reads are ranked as those of the bandwidth writer are.
-/

namespace DpiLibrary

variable {k : ℕ}

def LatPc.work : LatPc → ℕ
  | .constructing => 3
  | .readingHeader => 2
  | .readingCounter => 1
  | .idle => 0
  | .append _ => 4
  | .refresh _ _ => 3
  | .write _ => 2
  | .written _ => 1
  | .closing => 1
  | .closed => 0

def LatCall.work : LatCall → ℕ
  | .append _ => 5
  | .close => 2

def LatPc.refreshes : LatPc → Bool
  | .refresh _ _ => true
  | _ => false

theorem LatPc.exists_of_refreshes {pc : LatPc} (h : pc.refreshes = true) :
    ∃ old message, pc = .refresh old message := by
  cases pc with
  | refresh old message => exact ⟨old, message, rfl⟩
  | _ => simp [refreshes] at h

namespace BufferWriterLat

/-- Bound on the steps of the writer itself, the waits for credit not counted. -/
def steps (w : BufferWriterLat) : ℕ := w.pc.work + (w.calls.map LatCall.work).sum

/-- Work of the writer and its queue pair, one read for all the reads of a refresh. -/
def work (w : BufferWriterLat) : ℕ :=
  if w.pc.refreshes then 2 * w.steps + (w.queue.filter LatOp.isWrite).length + 1
  else 2 * w.steps + w.queue.length

/-- Turns until a writer that waits has read a counter that allows a write; if the ring has
no room for it there is no saying. -/
def refreshRank {g : RingGeometry} (x : RingState g) (w : BufferWriterLat) : ℕ :=
  match w.pc with
  | .refresh old _ =>
    if w.queue = [] ∧ old ≠ w.consumedCnt then 0
    else if w.written < x.released + g.segments then
      if w.queue = [] then 2 else 1
    else 3
  | _ => 0

def left {g : RingGeometry} (x : RingState g) (w : BufferWriterLat) : ℕ :=
  17 * w.work + refreshRank x w

variable {g : RingGeometry} {x x' : RingState g} {m m' : Mem} {w w' : BufferWriterLat}
  {program : List (List UInt8)} {stage : MarkStep} {made : Option ℕ}

theorem refreshRank_le (x : RingState g) (w : BufferWriterLat) : refreshRank x w ≤ 3 := by
  unfold refreshRank
  split
  · split_ifs <;> omega
  · omega

/-- A segment that has been released brings a waiting writer nearer. -/
theorem refreshRank_consume (w : BufferWriterLat) (hreleased : x.released ≤ x'.released) :
    refreshRank x' w ≤ refreshRank x w := by
  unfold refreshRank
  split
  · split_ifs <;> omega
  · exact le_rfl

theorem length_filter_isWrite_le (w : BufferWriterLat) :
    (w.queue.filter LatOp.isWrite).length ≤ w.queue.length := List.length_filter_le _ _

/-- Every step takes work off, unless it is a read that has found no credit. -/
theorem work_step_lt (hstep : w.step = some w') :
    w'.work < w.work ∨ ∃ old message, w.pc = .refresh old message ∧ w.queue = [] ∧
      old = w.consumedCnt ∧ w' = w.post (.readCounter w.counterOffset) (.refresh old message) := by
  have hcall : (w.pc = .idle ∨ w.pc = .closed) → w.nextCall = some w' → w'.work < w.work := by
    intro hpc hnext
    unfold nextCall at hnext
    split at hnext
    · cases hnext
    · next message calls hcalls =>
      cases hnext
      rcases hpc with hpc | hpc <;>
        simp [work, steps, hpc, hcalls, LatPc.refreshes, LatPc.work, LatCall.work]
    · next calls hcalls =>
      cases hnext
      rcases hpc with hpc | hpc <;>
        simp [work, steps, post, hpc, hcalls, LatPc.refreshes, LatPc.work, LatCall.work] <;> omega
  cases hpc : w.pc with
  | constructing =>
    simp only [step, hpc, Option.some.injEq] at hstep
    subst hstep
    simp [work, steps, post, hpc, LatPc.refreshes, LatPc.work]
    omega
  | readingHeader =>
    simp only [step, hpc] at hstep
    split_ifs at hstep with hqueue
    cases hstep
    simp [work, steps, post, hpc, hqueue, LatPc.refreshes, LatPc.work]
    omega
  | readingCounter =>
    simp only [step, hpc] at hstep
    split_ifs at hstep with hqueue
    cases hstep
    simp [work, steps, hpc, hqueue, LatPc.refreshes, LatPc.work]
  | idle =>
    simp only [step, hpc] at hstep
    exact Or.inl (hcall (Or.inl hpc) hstep)
  | append message =>
    have hfilter := w.length_filter_isWrite_le
    simp only [step, hpc] at hstep
    split_ifs at hstep
    · cases hstep
      simp [work, steps, post, hpc, LatPc.refreshes, LatPc.work, LatOp.isWrite]
      omega
    · cases hstep
      simp [work, steps, hpc, LatPc.refreshes, LatPc.work]
  | refresh old message =>
    simp only [step, hpc] at hstep
    split_ifs at hstep with hqueue hsame
    · cases hstep
      exact Or.inr ⟨old, message, rfl, hqueue, hsame, rfl⟩
    · cases hstep
      simp [work, steps, hpc, hqueue, LatPc.refreshes, LatPc.work]
  | write message =>
    simp only [step, hpc, Option.some.injEq] at hstep
    subst hstep
    simp [work, steps, writeMessage, hpc, LatPc.refreshes, LatPc.work]
    omega
  | written signaled =>
    simp only [step, hpc] at hstep
    split_ifs at hstep
    cases hstep
    simp [work, steps, hpc, LatPc.refreshes, LatPc.work]
  | closing =>
    simp only [step, hpc] at hstep
    split_ifs at hstep with hqueue
    cases hstep
    simp [work, steps, hpc, hqueue, LatPc.refreshes, LatPc.work]
  | closed =>
    simp only [step, hpc] at hstep
    exact Or.inl (hcall (Or.inr hpc) hstep)

/-- Without a write in the queue all messages written have been sent. -/
theorem Inv.written_eq (h : Inv g program x m w) {old : ℕ} {message : Message}
    (hpc : w.pc = .refresh old message) (hnone : w.queue.filter LatOp.isWrite = []) :
    w.written = x.sent.length := by
  have hlanded := h.landed
  simpa [BufferWriterLat.landed, postedCount, hpc, hnone] using hlanded

/-- A step of the writer takes work off, or it is a read that has found no credit. -/
theorem Inv.left_step (h : Inv g program x m w) (hstep : w.step = some w') :
    left x w' < left x w ∨
      left x w' ≤ left x w ∧ (w.queue = [] → x.released + g.segments ≤ x.sent.length) := by
  rcases work_step_lt hstep with hlt | ⟨old, message, hpc, hqueue, hsame, rfl⟩
  · have hrank := refreshRank_le x w'
    unfold left
    omega
  · have hwritten := h.written_eq hpc (by rw [hqueue]; rfl)
    have hwork : (w.post (.readCounter w.counterOffset) (.refresh old message)).work = w.work := by
      simp [work, steps, post, hpc, hqueue, LatPc.refreshes, LatPc.work, LatOp.isWrite]
    unfold left
    rw [hwork]
    by_cases hroom : w.written < x.released + g.segments
    · have hbefore : refreshRank x w = 2 := by
        simp [refreshRank, hpc, hqueue, hsame, hroom]
      have hafter : refreshRank x (w.post (.readCounter w.counterOffset) (.refresh old message)) =
          1 := by
        simp [refreshRank, post, hroom]
      omega
    · have hbefore : refreshRank x w = 3 := by
        simp [refreshRank, hpc, hsame, hroom]
      have hafter : refreshRank x (w.post (.readCounter w.counterOffset) (.refresh old message)) =
          3 := by
        simp [refreshRank, post, hroom]
      exact Or.inr ⟨by omega, fun _ => by omega⟩

/-- While `append` waits for credit, what is behind the writes in the queue is the read of
the counter. -/
theorem Inv.refresh_head (h : Inv g program x m w) {old : ℕ} {message : Message}
    (hpc : w.pc = .refresh old message) {op : LatOp} {queue : List LatOp}
    (hqueue : w.queue = op :: queue) :
    op.isWrite = true ∨ op = .readCounter (g.entry - 8) ∧ queue = [] ∧ old = w.written := by
  obtain ⟨posted, -, ⟨tail, hfly, hdetail⟩ | hfinished⟩ := h.state
  · obtain ⟨ops, rest, -, hops, hinflight⟩ := hfly.queue
    unfold Detail at hdetail
    simp only [hpc] at hdetail
    obtain ⟨-, hcredit, hfree, -, -, htail⟩ := hdetail
    cases ops with
    | nil =>
      rw [List.nil_append, hqueue] at hops
      rcases htail with htail | htail
      · rw [htail] at hops
        obtain ⟨rfl, rfl⟩ := List.cons.inj hops
        have hbalance := hcredit.balance
        exact Or.inr ⟨rfl, rfl, by omega⟩
      · rw [htail] at hops
        cases hops
    | cons op' ops =>
      rw [List.cons_append, hqueue] at hops
      obtain ⟨rfl, -⟩ := List.cons.inj hops
      have hfilter := hinflight.filter_isWrite
      exact Or.inl (List.filter_eq_self.mp hfilter op List.mem_cons_self)
  · rcases hfinished.pc with hpc' | hpc' <;> rw [hpc] at hpc' <;> cases hpc'

/-- What the queue pair takes out of the queue. -/
theorem nic_eq (hstep : w.nic m = some (m', w', made)) :
    ∃ op queue header consumedCnt, w.queue = op :: queue ∧
      w' = { w with queue, header, consumedCnt } := by
  unfold nic at hstep
  split at hstep
  · cases hstep
  · next remote src posted queue hqueue =>
    cases hstep
    exact ⟨_, queue, w.header, w.consumedCnt, hqueue, rfl⟩
  · next remote queue hqueue =>
    cases hstep
    exact ⟨_, queue, w.header, w.consumedCnt, hqueue, rfl⟩
  · next remote queue hqueue =>
    cases hstep
    exact ⟨_, queue, _, w.consumedCnt, hqueue, rfl⟩
  · next remote queue hqueue =>
    cases hstep
    exact ⟨_, queue, w.header, _, hqueue, rfl⟩

/-- An operation of the queue pair takes work off and pays for the segment it sends, or it is
a read of a writer that waits for credit. -/
theorem Inv.left_nic (h : Inv g program x m w) (hstep : w.nic m = some (m', w', made))
    (hmove : NicMove x made x') :
    left x' w' + 12 * x'.sent.length < left x w + 12 * x.sent.length ∨
      left x' w' ≤ left x w ∧ x' = x ∧ made = none ∧
        x.released + g.segments ≤ x.sent.length := by
  have hsent : x'.sent.length ≤ x.sent.length + 1 := by
    cases hmove <;> simp
  have hrank' := refreshRank_le x' w'
  by_cases hrefreshes : w.pc.refreshes = true
  · obtain ⟨old, message, hpc⟩ := LatPc.exists_of_refreshes hrefreshes
    obtain ⟨op, queue, header, consumedCnt, hqueue, rfl⟩ := nic_eq hstep
    rcases h.refresh_head hpc hqueue with hwrite | ⟨rfl, rfl, rfl⟩
    · have hwork : ({ w with queue, header, consumedCnt } : BufferWriterLat).work + 1 = w.work := by
        simp [work, steps, hrefreshes, hqueue, hwrite]
        omega
      unfold left
      omega
    · have hnone : w.queue.filter LatOp.isWrite = [] := by
        rw [hqueue]
        rfl
      have hwritten := h.written_eq hpc hnone
      simp only [BufferWriterLat.nic, hqueue, Option.some.injEq, Prod.mk.injEq] at hstep
      obtain ⟨rfl, hread, rfl⟩ := hstep
      have hcnt : readWord m (g.entry - 8) = consumedCnt :=
        congrArg BufferWriterLat.consumedCnt hread
      rw [h.counter] at hcnt
      cases hmove with
      | stutter =>
        have hwork : ({ w with queue := [], header, consumedCnt } : BufferWriterLat).work =
            w.work := by
          simp [work, steps, hrefreshes, hqueue, LatOp.isWrite]
        unfold left
        rw [hwork]
        by_cases hroom : w.written < x.released + g.segments
        · have hbefore : refreshRank x w = 1 := by
            simp [refreshRank, hpc, hqueue, hroom]
          have hafter : refreshRank x { w with queue := [], header, consumedCnt } = 0 := by
            have hne : w.written ≠ consumedCnt := by omega
            simp [refreshRank, hpc, hne]
          omega
        · have hbefore : refreshRank x w = 3 := by
            simp [refreshRank, hpc, hqueue, hroom]
          exact Or.inr ⟨by omega, rfl, rfl, by omega⟩
  · obtain ⟨op, queue, header, consumedCnt, hqueue, rfl⟩ := nic_eq hstep
    have hwork : ({ w with queue, header, consumedCnt } : BufferWriterLat).work + 1 = w.work := by
      simp [work, steps, hrefreshes, hqueue]
      omega
    unfold left
    omega

/-- The client has called `close` or will. -/
def WillClose (w : BufferWriterLat) : Prop :=
  w.calls.getLast? = some .close ∨ w.pc = .closing ∨ w.pc = .closed

theorem WillClose.congr (h : w.WillClose) (hcalls : w'.calls = w.calls)
    (hpc : w.pc ≠ .closing ∧ w.pc ≠ .closed) : w'.WillClose := by
  rcases h with h | h | h
  · exact Or.inl (by rw [hcalls, h])
  · exact absurd h hpc.1
  · exact absurd h hpc.2

theorem Inv.willClose_step (h : Inv g program x m w) (hclose : w.WillClose)
    (hstep : w.step = some w') : w'.WillClose := by
  cases hpc : w.pc with
  | idle =>
    simp only [BufferWriterLat.step, hpc] at hstep
    unfold BufferWriterLat.nextCall at hstep
    split at hstep
    · cases hstep
    · next message calls hcalls =>
      cases hstep
      have hlast : (LatCall.append message :: calls).getLast? = some .close := by
        rw [← hcalls]
        exact hclose.resolve_right (by simp [hpc])
      cases calls with
      | nil => simp at hlast
      | cons call calls => exact Or.inl (by simpa using hlast)
    · cases hstep
      exact Or.inr (Or.inl rfl)
  | closing =>
    simp only [BufferWriterLat.step, hpc] at hstep
    split_ifs at hstep
    cases hstep
    exact Or.inr (Or.inr rfl)
  | closed =>
    obtain ⟨posted, -, ⟨tail, -, hdetail⟩ | hfinished⟩ := h.state
    · unfold Detail at hdetail
      simp only [hpc] at hdetail
    · simp [BufferWriterLat.step, BufferWriterLat.nextCall, hpc, hfinished.calls] at hstep
  | _ =>
    simp only [BufferWriterLat.step, hpc] at hstep
    try split_ifs at hstep
    all_goals
      cases hstep
      exact hclose.congr rfl (by simp [hpc])

theorem willClose_nic (hclose : w.WillClose) (hstep : w.nic m = some (m', w', made)) :
    w'.WillClose := by
  obtain ⟨op, queue, header, consumedCnt, -, rfl⟩ := nic_eq hstep
  exact hclose

/-- The writer takes nothing out of the queue. -/
theorem queue_prefix_step (hstep : w.step = some w') : w.queue <+: w'.queue := by
  have hcall : w.nextCall = some w' → w.queue <+: w'.queue := by
    intro hnext
    unfold nextCall at hnext
    split at hnext <;> cases hnext
    · exact List.prefix_refl _
    · exact List.prefix_append _ _
  unfold step at hstep
  split at hstep
  case h_4 => exact hcall hstep
  case h_10 => exact hcall hstep
  all_goals
    try split_ifs at hstep
    all_goals
      cases hstep
      simp [post, writeMessage]

/-- A writer that will close and has nothing under way has a step to take until it has
closed. -/
theorem Inv.step_isSome (h : Inv g program x m w) (hclose : w.WillClose) (hfin : x.fin = false)
    (hqueue : w.queue = []) : w.step.isSome := by
  cases hpc : w.pc with
  | idle =>
    have hlast := hclose.resolve_right (by simp [hpc])
    cases hcalls : w.calls with
    | nil => simp [hcalls] at hlast
    | cons call calls =>
      cases call <;> simp [BufferWriterLat.step, BufferWriterLat.nextCall, hpc, hcalls]
  | append message =>
    simp only [BufferWriterLat.step, hpc]
    split_ifs <;> rfl
  | refresh old message =>
    simp only [BufferWriterLat.step, hpc, hqueue, if_true]
    split_ifs <;> rfl
  | closed =>
    obtain ⟨posted, -, ⟨tail, -, hdetail⟩ | hfinished⟩ := h.state
    · unfold Detail at hdetail
      simp only [hpc] at hdetail
    · rw [hfinished.fin] at hfin
      cases hfin
  | _ => simp [BufferWriterLat.step, hpc, hqueue]

end BufferWriterLat

open BufferWriterLat RingSystem

variable {b : BufferRings k}

/-- The writer's invariant for a client that closes in the end. -/
def LatencyWriterInv (b : BufferRings k) (program : Fin k → List (List UInt8)) (r : Fin k)
    (x : RingState (b.ring r)) (m : Mem) (w : BufferWriterLat) : Prop :=
  Inv (b.ring r) (program r) x m w ∧ w.WillClose

theorem latencyWriterSim (htype : b.type = .lat) (hsegments : ∀ r, 2 ≤ (b.ring r).segments)
    (program : Fin k → List (List UInt8)) :
    WriterSim b machine CarriesPosted (LatencyWriterInv b program) :=
  (latencySim htype program fun r => Or.inl (hsegments r)).and (P := fun _ w => w.WillClose)
    (fun _ _ _ _ _ h hclose hstep => h.willClose_step hclose hstep)
    (fun _ _ _ _ _ _ _ _ hclose hstep => willClose_nic hclose hstep)

theorem latencyLaws (program : Fin k → List (List UInt8)) (hprogram : ∀ r, program r ≠ []) :
    WriterLaws b machine (LatencyWriterInv b program) (fun _ => BufferWriterLat.left)
      fun w => w.queue ≠ [] where
  nic_isSome m w := by
    cases hqueue : w.queue with
    | nil => simp [machine, nic, hqueue]
    | cons op queue => cases op <;> simp [machine, nic, hqueue]
  stays_busy w w' hstep hbusy hnil := by
    have hprefix := queue_prefix_step hstep
    rw [hnil, List.prefix_nil] at hprefix
    exact hbusy hprefix
  consume r x x' w _ hreleased := by
    have hrank := refreshRank_consume (g := b.ring r) w hreleased
    unfold BufferWriterLat.left
    omega
  step_le r x m w w' h hstep := by
    rcases h.1.left_step hstep with hlt | ⟨hle, -⟩
    · exact hlt.le
    · exact hle
  step_lt r x m w w' h hstep hidle hroom := by
    rcases h.1.left_step hstep with hlt | ⟨-, hfull⟩
    · exact hlt
    · have hle := hfull (not_not.mp hidle)
      omega
  nic_le r x stage m w m' w' made x' h _ hstep hmove := by
    rcases h.1.left_nic hstep hmove with hlt | ⟨hle, rfl, -, -⟩
    · exact hlt.le
    · exact Nat.add_le_add_right hle _
  nic_lt r x stage m w m' w' made x' h _ hstep hmove hroom := by
    rcases h.1.left_nic hstep hmove with hlt | ⟨-, -, hmade, hfull⟩
    · exact hlt
    · rcases hroom with hne | hroom
      · exact absurd hmade hne
      · omega
  step_isSome r x m w h hfin hidle := h.1.step_isSome h.2 hfin (not_not.mp hidle)
  sent_ne_nil r x m w h hfin := by
    rw [(h.1.finished hfin).2.2]
    exact hprogram r

def latencyProgress (program : Fin k → List (List UInt8)) (hprogram : ∀ r, program r ≠ []) :
    WriterProgress b machine (LatencyWriterInv b program) where
  left _ := BufferWriterLat.left
  Busy w := w.queue ≠ []
  laws := latencyLaws program hprogram

/-- The counter of a ring counts at most the messages sent on it. -/
theorem guarded_of_count {program : Fin k → List (List UInt8)} (htype : b.type = .lat)
    (hcount : ∀ r, (b.ring r).segments + (program r).length < sizeTBound)
    {s : RingSystem BufferWriterLat k} {a : BufferState b}
    (h : s.Refines (LatencyWriterInv b program) a) {label : RingLabel k}
    (hcarries : ∀ r, label = .nic r → (s.writers r).CarriesPosted) :
    s.Guarded CarriesPosted label := by
  cases label with
  | writer r => trivial
  | nic r => exact hcarries r rfl
  | iterator action =>
    intro hpc y hy
    have hmem : y ∈ s.iterator.segmentIterators.toList := Cursor.mem_toList_of_get? hy
    have hat : s.iterator.pcAt y.ring = .mark .credit true := by
      unfold BufferIterator.pcAt
      rw [Option.mem_def.mp hy]
      simpa using hpc
    have hphase := h.1.iterator.phase y hmem
    rw [hat] at hphase
    obtain ⟨hreleased, hreturned, -, hpos⟩ := hphase
    have hwriter := (h.1.writer y.ring).1
    have hsent := hwriter.sent_program.length_le
    have hbound := hcount y.ring
    rw [(h.1.iterator.helper y hmem).counterOffset htype, hwriter.counter]
    omega

/-- Every fair run in which the writes carry the bytes they were posted with delivers: from
some time on `has_next` has returned false, every writer has closed and the consumer has
been given all messages appended, in order. -/
theorem latency_fair_delivery (b : BufferRings k) (htype : b.type = .lat)
    (hsegments : ∀ r, 2 ≤ (b.ring r).segments) (internalBufferSize : Fin k → ℕ)
    (messages : Fin k → List Message) (hmessages : ∀ r, messages r ≠ [])
    (hsizes : ∀ r, ∀ message ∈ messages r, message.data.length = (b.ring r).segmentSize)
    (hcount : ∀ r, (b.ring r).segments + (messages r).length < sizeTBound) (m : Mem)
    (schedule : ℕ → Party k) (hfair : FairRuns.Fair schedule)
    (hcarries : ∀ n r, schedule n = .nic r → ((FairRuns.run (turn .lat machine)
      (init b m (b.latencyWriters internalBufferSize messages fun _ => [.close]))
        schedule n).writers r).CarriesPosted) :
    ∃ n, ∀ n', n ≤ n' → ∀ s, s = FairRuns.run (turn .lat machine)
        (init b m (b.latencyWriters internalBufferSize messages fun _ => [.close])) schedule n' →
      .hasNextReturned false ∈ s.log ∧
      ∀ r, (s.writers r).Closed ∧ returnedBlocks s.log r = (messages r).map Message.data := by
  have hprogram : ∀ r, (messages r).map Message.data ≠ [] := by
    intro r
    simpa using hmessages r
  have hstart : ∃ a, (init b m (b.latencyWriters internalBufferSize messages
      fun _ => [.close])).Refines
        (LatencyWriterInv b fun r => (messages r).map Message.data) a := by
    refine ⟨_, refines_init m _ fun r => ⟨?_, Or.inl ?_⟩⟩
    · apply inv_init _ _ _ (Or.inr ⟨rfl, hmessages r⟩)
        fun message hmem => (hsizes r message hmem).le
      rw [← htype]
      exact b.shows_initMem m r
    · simp [BufferRings.latencyWriters, BufferWriterLat.init]
  rw [← htype] at hcarries
  obtain ⟨n, hn⟩ := (latencyProgress _ hprogram).eventually_drained hsegments
    (latencyWriterSim htype hsegments _) hstart hfair (fun n a ha => guarded_of_count htype
      (fun r => by rw [List.length_map]; exact hcount r) ha
      fun r hlabel => hcarries n r (RingSystem.label_eq_nic hlabel))
  rw [htype] at hn
  refine ⟨n, ?_⟩
  rintro n' hle s rfl
  obtain ⟨hlog, a, ha, hdrained⟩ := hn n' hle
  refine ⟨hlog, fun r => ?_⟩
  obtain ⟨hfin, hreturned⟩ := hdrained r
  obtain ⟨hclosed, -, hsent⟩ := (ha.1.writer r).1.finished hfin
  have hexact : a.Exact r := by
    refine Or.inr fun data hdata => ?_
    rw [hsent] at hdata
    obtain ⟨message, hmem, rfl⟩ := List.mem_map.mp hdata
    exact hsizes r message hmem
  rw [ha.2.blocks r hexact, LaggedRing.delivered_eq _ hreturned]
  exact ⟨hclosed, hsent⟩

/-- The control locations at which a writer waits for its queue to drain, if every message is
signaled. -/
def LatPc.Waits : LatPc → Prop
  | .readingHeader => True
  | .readingCounter => True
  | .refresh _ _ => True
  | .written signaled => signaled = true
  | .closing => True
  | _ => False

/-- The message of the running call, until its write is posted. -/
def LatPc.message? : LatPc → Option Message
  | .append message => some message
  | .refresh _ message => some message
  | .write message => some message
  | _ => none

namespace BufferWriterLat

variable {m m' : Mem} {w w' : BufferWriterLat} {made : Option ℕ}

/-- A writer whose client signals every message: what it posts is executed before it goes on. -/
structure Signaled (w : BufferWriterLat) : Prop where
  calls : ∀ message, .append message ∈ w.calls → message.signaled = true
  pending : ∀ message ∈ w.pc.message?, message.signaled = true
  queue : w.queue = [] ∨ w.pc.Waits ∧ w.CarriesPosted ∧ ∃ op, w.queue = [op]

theorem Signaled.carriesPosted (h : w.Signaled) : w.CarriesPosted := by
  rcases h.queue with hqueue | ⟨-, hcarries, -⟩
  · intro remote src posted queue hq
    rw [hqueue] at hq
    cases hq
  · exact hcarries

/-- A single read or header write carries no message. -/
theorem carriesPosted_post {op : LatOp} {pc : LatPc} (hqueue : w.queue = [])
    (hop : op.isWrite = false) : (w.post op pc).CarriesPosted := by
  intro remote src posted queue hq
  simp only [post, hqueue, List.nil_append] at hq
  rw [(List.cons.inj hq).1] at hop
  cases hop

/-- A record staged in two copies is there as a whole. -/
theorem readBytes_staged (m : Mem) (offset : ℕ) (header data beyond : List UInt8) :
    readBytes (writeBytes (writeBytes m offset header) (offset + header.length) (data ++ beyond))
      offset (header.length + data.length) = header ++ data := by
  have hheader : readBytes (writeBytes (writeBytes m offset header) (offset + header.length)
      (data ++ beyond)) offset header.length = header := by
    rw [(agreeOn_writeBytes (Or.inl le_rfl)).readBytes, readBytes_writeBytes]
  have hdata := readBytes_writeBytes_within (writeBytes m offset header)
    (offset + header.length) 0 data.length (data ++ beyond) (by simp)
  rw [Nat.add_zero, List.drop_zero, List.take_left] at hdata
  rw [readBytes_add, hheader, hdata]

theorem carriesPosted_writeMessage (message : Message) (hqueue : w.queue = []) :
    (w.writeMessage message).CarriesPosted := by
  intro remote src posted queue hq
  simp only [writeMessage, hqueue, List.nil_append, List.cons.injEq, LatOp.write.injEq] at hq
  obtain ⟨⟨-, rfl, rfl⟩, -⟩ := hq
  have hcopied : message.copied = message.data ++
      (message.beyond ++ List.replicate segmentHeaderSize 0).take segmentHeaderSize := by
    rw [Message.copied, List.append_assoc, List.take_length_add_append]
  have hstaged := readBytes_staged w.internalBuffer
    (if w.internalBufferSize < message.data.length + segmentHeaderSize + w.internalOffset then 0
      else w.internalOffset) (w.messageHeader message.data.length).encode message.data
    ((message.beyond ++ List.replicate segmentHeaderSize 0).take segmentHeaderSize)
  rw [← List.length_append, SegmentHeader.length_encode, ← hcopied] at hstaged
  exact hstaged

theorem signaled_init {entry segments segmentSizes internalBufferSize : ℕ} {calls : List LatCall}
    (h : ∀ message, .append message ∈ calls → message.signaled = true) :
    (init entry segments segmentSizes internalBufferSize calls).Signaled :=
  ⟨h, by simp [init, LatPc.message?], Or.inl rfl⟩

theorem Signaled.nextCall (h : w.Signaled) (hqueue : w.queue = [])
    (hstep : w.nextCall = some w') : w'.Signaled := by
  unfold BufferWriterLat.nextCall at hstep
  split at hstep
  · cases hstep
  · next message calls hcalls =>
    cases hstep
    refine ⟨fun message' hmem => ?_, fun message' hmem => ?_, Or.inl hqueue⟩
    · exact h.calls message' (by rw [hcalls]; exact List.mem_cons_of_mem _ hmem)
    · cases hmem
      exact h.calls message (by rw [hcalls]; exact List.mem_cons_self)
  · next calls hcalls =>
    cases hstep
    have hcarries : ({ w with calls, header := w.closedHeader }.post
        (.writeHeader w.lastSegmentOffset) .closing).CarriesPosted :=
      carriesPosted_post hqueue rfl
    refine ⟨fun message' hmem => ?_, fun message' hmem => ?_,
      Or.inr ⟨trivial, hcarries, .writeHeader w.lastSegmentOffset, ?_⟩⟩
    · exact h.calls message' (by rw [hcalls]; exact List.mem_cons_of_mem _ hmem)
    · cases hmem
    · simp [post, hqueue]

/-- A writer that waits does not move before its queue is empty, and a step posts at most one
operation. -/
theorem Signaled.step (h : w.Signaled) (hstep : w.step = some w') : w'.Signaled := by
  have hqueue : w.queue = [] := by
    rcases h.queue with hqueue | ⟨hwaits, -, op, hqueue⟩
    · exact hqueue
    · cases hpc : w.pc with
      | written signaled =>
        rw [hpc] at hwaits
        have hsignaled : signaled = true := hwaits
        simp [BufferWriterLat.step, hpc, hqueue, hsignaled] at hstep
      | constructing => simp [hpc, LatPc.Waits] at hwaits
      | idle => simp [hpc, LatPc.Waits] at hwaits
      | append message => simp [hpc, LatPc.Waits] at hwaits
      | write message => simp [hpc, LatPc.Waits] at hwaits
      | closed => simp [hpc, LatPc.Waits] at hwaits
      | _ => simp [BufferWriterLat.step, hpc, hqueue] at hstep
  have hpost : ∀ {op : LatOp} {pc : LatPc}, op.isWrite = false → pc.Waits →
      (∀ message ∈ pc.message?, message.signaled = true) → (w.post op pc).Signaled := by
    intro op pc hop hwaits hpending
    exact ⟨h.calls, hpending, Or.inr ⟨hwaits, carriesPosted_post hqueue hop, op,
      by simp [post, hqueue]⟩⟩
  have hpending := h.pending
  cases hpc : w.pc with
  | constructing =>
    simp only [BufferWriterLat.step, hpc, Option.some.injEq] at hstep
    subst hstep
    exact hpost rfl trivial (by simp [LatPc.message?])
  | readingHeader =>
    simp only [BufferWriterLat.step, hpc, hqueue, if_true, Option.some.injEq] at hstep
    subst hstep
    exact hpost rfl trivial (by simp [LatPc.message?])
  | readingCounter =>
    simp only [BufferWriterLat.step, hpc, hqueue, if_true, Option.some.injEq] at hstep
    subst hstep
    exact ⟨h.calls, by simp [LatPc.message?], Or.inl rfl⟩
  | idle =>
    simp only [BufferWriterLat.step, hpc] at hstep
    exact h.nextCall hqueue hstep
  | append message =>
    rw [hpc] at hpending
    simp only [BufferWriterLat.step, hpc] at hstep
    split_ifs at hstep
    · cases hstep
      exact hpost rfl trivial hpending
    · cases hstep
      exact ⟨h.calls, hpending, Or.inl hqueue⟩
  | refresh old message =>
    rw [hpc] at hpending
    simp only [BufferWriterLat.step, hpc, hqueue, if_true] at hstep
    split_ifs at hstep
    · cases hstep
      exact hpost rfl trivial hpending
    · cases hstep
      exact ⟨h.calls, hpending, Or.inl rfl⟩
  | write message =>
    rw [hpc] at hpending
    simp only [BufferWriterLat.step, hpc, Option.some.injEq] at hstep
    subst hstep
    obtain ⟨op, hop⟩ : ∃ op, (w.writeMessage message).queue = w.queue ++ [op] := ⟨_, rfl⟩
    refine ⟨h.calls, by simp [writeMessage, LatPc.message?],
      Or.inr ⟨?_, carriesPosted_writeMessage message hqueue, op, ?_⟩⟩
    · have hsignaled := hpending message rfl
      simp [writeMessage, LatPc.Waits, hsignaled]
    · rw [hop, hqueue, List.nil_append]
  | written signaled =>
    simp only [BufferWriterLat.step, hpc, hqueue, ne_eq, not_true, and_false, if_false,
      Option.some.injEq] at hstep
    subst hstep
    exact ⟨h.calls, by simp [LatPc.message?], Or.inl rfl⟩
  | closing =>
    simp only [BufferWriterLat.step, hpc, hqueue, if_true, Option.some.injEq] at hstep
    subst hstep
    exact ⟨h.calls, by simp [LatPc.message?], Or.inl rfl⟩
  | closed =>
    simp only [BufferWriterLat.step, hpc] at hstep
    exact h.nextCall hqueue hstep

theorem Signaled.nic (h : w.Signaled) (hstep : w.nic m = some (m', w', made)) : w'.Signaled := by
  obtain ⟨op, queue, header, consumedCnt, hqueue, rfl⟩ := nic_eq hstep
  refine ⟨h.calls, h.pending, Or.inl ?_⟩
  rcases h.queue with hnil | ⟨-, -, op', hone⟩
  · rw [hnil] at hqueue
    cases hqueue
  · rw [hone] at hqueue
    exact (List.cons.inj hqueue).2.symm

end BufferWriterLat

/-- Clients that signal every message never have one overwritten that is still to be written. -/
theorem signaled_run {s : RingSystem BufferWriterLat k} (h : ∀ r, (s.writers r).Signaled)
    (schedule : ℕ → Party k) (n : ℕ) (r : Fin k) :
    ((FairRuns.run (turn .lat machine) s schedule n).writers r).Signaled := by
  have hturn : ∀ (s : RingSystem BufferWriterLat k) p t, (∀ r, (s.writers r).Signaled) →
      s.turn .lat machine p = some t → ∀ r, (t.writers r).Signaled := by
    intro s p t hs hstep r'
    cases p with
    | writer r =>
      obtain ⟨w, hw, rfl⟩ := Option.map_eq_some_iff.mp hstep
      by_cases hr : r' = r
      · subst hr
        simpa using (hs r').step hw
      · simpa [hr] using hs r'
    | nic r =>
      obtain ⟨⟨m', w, made⟩, hw, rfl⟩ := Option.map_eq_some_iff.mp hstep
      by_cases hr : r' = r
      · subst hr
        simpa using (hs r').nic hw
      · simpa [hr] using hs r'
    | consumer =>
      obtain ⟨⟨m', it, events⟩, -, rfl⟩ := Option.map_eq_some_iff.mp hstep
      exact hs r'
  exact FairRuns.run_invariant hturn (Nat.zero_le n) h r

/-- Three signaled messages on two segments, the parties one after the other. -/
theorem latency_fair_delivery_in_turn :
    ∃ n, ∀ n', n ≤ n' → ∀ s, s = FairRuns.run (turn .lat machine)
        (init (creditSegments 2 (by decide) (by decide)) (fun _ => 0)
          ((creditSegments 2 (by decide) (by decide)).latencyWriters (fun _ => 100)
            (fun _ => [⟨[7], [], true⟩, ⟨[8], [], true⟩, ⟨[9], [], true⟩]) fun _ => [.close]))
        (Party.inTurn 1) n' →
      .hasNextReturned false ∈ s.log ∧
      ∀ r, (s.writers r).Closed ∧ returnedBlocks s.log r = [[7], [8], [9]] :=
  latency_fair_delivery (creditSegments 2 (by decide) (by decide)) rfl (fun _ => le_rfl)
    (fun _ => 100) (fun _ => [⟨[7], [], true⟩, ⟨[8], [], true⟩, ⟨[9], [], true⟩]) (by simp)
    (by simp [creditSegments, BufferRings.single]) (fun _ => show 2 + 3 < sizeTBound by decide)
    (fun _ => 0) (Party.inTurn 1) (Party.fair_inTurn 1) fun n r _ =>
      (signaled_run (fun _ => signaled_init (by simp)) (Party.inTurn 1) n r).carriesPosted

end DpiLibrary
