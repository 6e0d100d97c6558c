import DpiLibrary.Dpi.DeploymentRequests

/-!
# The invariant of a deployment

The rings of a deployment fall into parts: those of a consumer, with its iterator, and the
rings that no consumer has been given, each with an iterator that nobody uses. Each part is a
system of writers and one iterator and refines the protocol of its buffer; the blocks of the
rings are apart, so that what one part does the others do not notice.
-/

namespace DpiLibrary

variable {k : ℕ}

namespace Deployment

open RegistryServer

/-- The rings with these numbers, as the handle of their buffer describes them. -/
structure Covers (handle : BufferHandle) (index : Fin k → ℕ) (b : BufferRings k) : Prop where
  type : b.type = handle.buffertype
  ring : ∀ r, ∃ segment, handle.entrySegments[index r]? = some segment ∧
    handle.Describes segment (b.ring r)

/-- Rings of a buffer with their writers and an iterator, as a system of their own. -/
def view (d : Deployment) (name : String) (index : Fin k → ℕ) (it : BufferIterator k)
    (log : List (RingEvent k)) : RingSystem (Option BufferWriter) k :=
  ⟨d.mem, fun r => d.writers name (index r), it, log⟩

/-- A state of the rings of a buffer, seen by an iterator whose calls are these. -/
structure Shown (d : Deployment) (name : String) (index : Fin k → ℕ) (it : BufferIterator k)
    (calls : List (RingEvent k)) (handle : BufferHandle) (b : BufferRings k) (a : BufferState b)
    (log : List (RingEvent k)) : Prop where
  registered : d.registry.retrieveBuffer name = some handle
  covers : Covers handle index b
  calls : log.filter RingEvent.isCall = calls
  refines : (d.view name index it log).Refines (fun _ => Joined (BufferWriter.Inv b.type)) a

def Runs (d : Deployment) (name : String) (index : Fin k → ℕ) (it : BufferIterator k)
    (calls : List (RingEvent k)) : Prop :=
  ∃ handle b a log, d.Shown name index it calls handle b a log

/-- A consumer with the rings it was given, or a ring that no consumer has. -/
inductive Part (d : Deployment) (name : String) :
    ∀ {k : ℕ}, (Fin k → ℕ) → BufferIterator k → List (RingEvent k) → Prop
  | consumer (c : Consumer) (hc : d.consumers name = some c) :
    Part d name (fun r : Fin c.rings => r) c.iterator c.log
  | ring (i : ℕ) (handle : BufferHandle) (segment : BufferSegment)
    (hhandle : d.registry.retrieveBuffer name = some handle)
    (hsegment : handle.entrySegments[i]? = some segment)
    (hfree : ∀ c ∈ d.consumers name, c.rings ≤ i) :
    Part d name (fun _ : Fin 1 => i) (.ofEntries [(segment.offset, 0)]) []

/-- The invariant. A writer has the number of a ring that was joined, and a consumer's iterator
is of the type of its buffer. -/
structure Deployed (memSize : ℕ) (d : Deployment) : Prop where
  placed : Placed memSize (d.registry, d.node)
  kept : WellKept d.registry
  segments : ∀ name handle, d.registry.retrieveBuffer name = some handle →
    2 ≤ handle.segmentsPerWriter
  joined : ∀ name i, (d.writers name i).isSome → i < d.registry.joined name ∧
    ∃ handle, d.registry.retrieveBuffer name = some handle
  types : ∀ name c, d.consumers name = some c → ∃ handle,
    d.registry.retrieveBuffer name = some handle ∧ c.buffertype = handle.buffertype
  parts : ∀ name {k : ℕ} (index : Fin k → ℕ) it calls, d.Part name index it calls →
    d.Runs name index it calls

variable {d d' : Deployment} {name : String} {index : Fin k → ℕ} {it : BufferIterator k}
  {calls : List (RingEvent k)} {memSize : ℕ}

theorem Part.injective (h : d.Part name index it calls) : Function.Injective index := by
  cases h with
  | consumer c hc => exact Fin.val_injective
  | ring => exact Function.injective_of_subsingleton _

/-- Every ring of a registered buffer is in some part. -/
theorem exists_part {handle : BufferHandle} {i : ℕ} {segment : BufferSegment}
    (hhandle : d.registry.retrieveBuffer name = some handle)
    (hsegment : handle.entrySegments[i]? = some segment) :
    ∃ (k : ℕ) (index : Fin k → ℕ) (it : BufferIterator k) (calls : List (RingEvent k)) (r : Fin k),
      d.Part name index it calls ∧ index r = i := by
  cases hc : d.consumers name with
  | none => exact ⟨1, _, _, _, 0, .ring i handle segment hhandle hsegment (by simp [hc]), rfl⟩
  | some c =>
    by_cases hlt : i < c.rings
    · exact ⟨c.rings, _, _, _, ⟨i, hlt⟩, .consumer c hc, rfl⟩
    · refine ⟨1, _, _, _, 0, .ring i handle segment hhandle hsegment ?_, rfl⟩
      intro c' hc'
      cases hc.symm.trans hc'
      exact Nat.le_of_not_lt hlt

end Deployment

/-- Rings of different buffers, or with different numbers, share no byte. -/
theorem RegistryServer.Placed.ringSpans_apart {memSize : ℕ} {s : RegistryServer × RemoteNode}
    (hs : Placed memSize s) {name name' : String} {i i' : ℕ} {h h' : BufferHandle}
    {segment segment' : BufferSegment} (hname : s.1.retrieveBuffer name = some h)
    (hname' : s.1.retrieveBuffer name' = some h') (hsegment : h.entrySegments[i]? = some segment)
    (hsegment' : h'.entrySegments[i']? = some segment') (hne : name' ≠ name ∨ i' ≠ i) :
    (h.ringSpan segment).Apart (h'.ringSpan segment') := by
  have hapart := hs.accounts.apart
  have hperm : s.1.handles.Perm (h :: (s.1.bufferHandles.erase name).entries.map Sigma.snd) :=
    RDMAManager.entries_erase_perm hname
  rw [ringSpans, (hperm.flatMap_right BufferHandle.ringSpans).pairwise_iff fun hab => hab.symm,
    List.flatMap_cons, List.pairwise_append] at hapart
  obtain ⟨hown, -, hothers⟩ := hapart
  have hget : h.ringSpans[i]? = some (h.ringSpan segment) := by
    rw [BufferHandle.ringSpans, List.getElem?_map, hsegment, Option.map_some]
  have hget' : h'.ringSpans[i']? = some (h'.ringSpan segment') := by
    rw [BufferHandle.ringSpans, List.getElem?_map, hsegment', Option.map_some]
  by_cases heq : name' = name
  · subst heq
    obtain rfl : h = h' := Option.some.inj (hname.symm.trans hname')
    have hi := hne.resolve_left (not_not_intro rfl)
    rw [List.pairwise_iff_getElem] at hown
    obtain ⟨hlt, hi₁⟩ := List.getElem?_eq_some_iff.mp hget
    obtain ⟨hlt', hi₂⟩ := List.getElem?_eq_some_iff.mp hget'
    rw [← hi₁, ← hi₂]
    rcases Nat.lt_or_gt_of_ne hi with hless | hless
    · exact (hown i' i hlt' hlt hless).symm
    · exact hown i i' hlt hlt' hless
  · apply hothers _ (List.mem_of_getElem? hget)
    have hlook : (s.1.bufferHandles.erase name).lookup name' = some h' := by
      rw [AList.lookup_erase_ne heq]
      exact hname'
    exact List.mem_flatMap.mpr ⟨h', List.mem_map_of_mem (AList.mem_lookup_iff.mp hlook),
      List.mem_of_getElem? hget'⟩

namespace Deployment

open RegistryServer

variable {d d' : Deployment} {name : String} {index : Fin k → ℕ} {it it' : BufferIterator k}
  {calls log : List (RingEvent k)} {handle : BufferHandle} {b : BufferRings k} {a : BufferState b}
  {m : Mem}

@[simp] theorem setWriter_writers (d : Deployment) (name name' : String) (i i' : ℕ)
    (w : Option BufferWriter) : (d.setWriter name i w).writers name' i' =
      if name' = name ∧ i' = i then w else d.writers name' i' := by
  by_cases hname : name' = name
  · subst hname
    by_cases hi : i' = i
    · subst hi
      simp [setWriter]
    · simp [setWriter, hi]
  · simp [setWriter, hname]

@[simp] theorem setWriter_registry (d : Deployment) (name : String) (i : ℕ)
    (w : Option BufferWriter) : (d.setWriter name i w).registry = d.registry := rfl

@[simp] theorem setWriter_mem (d : Deployment) (name : String) (i : ℕ) (w : Option BufferWriter) :
    (d.setWriter name i w).mem = d.mem := rfl

@[simp] theorem setMem_registry (d : Deployment) (m : Mem) :
    (d.setMem m).registry = d.registry := rfl

@[simp] theorem setMem_writers (d : Deployment) (m : Mem) : (d.setMem m).writers = d.writers := rfl

@[simp] theorem setMem_mem (d : Deployment) (m : Mem) : (d.setMem m).mem = m := rfl

theorem update_view (hinj : Function.Injective index) (r : Fin k) (w : Option BufferWriter) :
    Function.update (fun r' => d.writers name (index r')) r w =
      fun r' => (d.setWriter name (index r) w).writers name (index r') := by
  funext r'
  by_cases hr : r' = r
  · subst hr
    simp
  · simp [hr, hinj.ne hr]

theorem Covers.segments (h : Covers handle index b) (hsegments : 2 ≤ handle.segmentsPerWriter)
    (r : Fin k) : 2 ≤ (b.ring r).segments := by
  obtain ⟨segment, -, hg⟩ := h.ring r
  rwa [hg.segments]

theorem Covers.block_eq (h : Covers handle index b) {r : Fin k} {segment : BufferSegment}
    (hsegment : handle.entrySegments[index r]? = some segment) :
    (b.ring r).block b.type = handle.ringSpan segment := by
  obtain ⟨segment', hsegment', hg⟩ := h.ring r
  cases hsegment.symm.trans hsegment'
  rw [h.type, hg.block_eq]

theorem Covers.push (h : Covers handle index b) (segments : List BufferSegment) :
    Covers (handle.push segments) index b := by
  refine ⟨h.type, fun r => ?_⟩
  obtain ⟨segment, hsegment, hg⟩ := h.ring r
  have hlt := (List.getElem?_eq_some_iff.mp hsegment).1
  refine ⟨segment, ?_, BufferHandle.describes_push.mpr hg⟩
  rw [BufferHandle.push_entrySegments, List.getElem?_append_left hlt]
  exact hsegment

/-- The writers of the rings, as a machine of the protocol. -/
theorem Covers.sim (h : Covers handle index b) (hsegments : 2 ≤ handle.segmentsPerWriter) :
    WriterSim b BufferWriter.machine.option (fun w => ∀ v ∈ w, v.CarriesPosted)
      fun _ => Joined (BufferWriter.Inv b.type) :=
  (BufferWriter.sim (h.segments hsegments)).option

/-- A part does not notice what happens to the handle's end, to other writers and to bytes
outside its blocks. -/
theorem Shown.frame (h : d.Shown name index it calls handle b a log)
    (hsegments : 2 ≤ handle.segmentsPerWriter) {segments : List BufferSegment}
    (hhandle : d'.registry.retrieveBuffer name = some (handle.push segments))
    (hwriters : ∀ r, d'.writers name (index r) = d.writers name (index r))
    (hmem : ∀ r segment, handle.entrySegments[index r]? = some segment →
      AgreeOn d'.mem d.mem (handle.ringSpan segment).start (handle.ringSpan segment).length) :
    d'.Shown name index it calls (handle.push segments) b a log := by
  refine ⟨hhandle, h.covers.push segments, h.calls, ?_⟩
  have hview : d'.view name index it log =
      ⟨d'.mem, fun r => d.writers name (index r), it, log⟩ := by
    simp only [view, hwriters]
  rw [hview]
  refine ⟨h.refines.1.frame (h.covers.sim hsegments).toWriterRules fun r => ?_, h.refines.2⟩
  obtain ⟨segment, hsegment, -⟩ := h.covers.ring r
  rw [h.covers.block_eq hsegment]
  exact hmem r segment hsegment

/-- The iterators of others are no part of what an iterator sees. -/
theorem Runs.setConsumer (h : d.Runs name index it calls) (name' : String) (c : Consumer) :
    (d.setConsumer name' c).Runs name index it calls := by
  obtain ⟨handle, b, a, log, h⟩ := h
  exact ⟨handle, b, a, log, h.registered, h.covers, h.calls, h.refines⟩

/-- A writer of the part moves. -/
theorem Shown.writer_step (h : d.Shown name index it calls handle b a log)
    (hsegments : 2 ≤ handle.segmentsPerWriter) (hinj : Function.Injective index) {r : Fin k}
    {w : Option BufferWriter}
    (hstep : BufferWriter.machine.option.step (d.writers name (index r)) = some w) :
    (d.setWriter name (index r) w).Shown name index it calls handle b a log := by
  have hrefines : RingSystem.Refines (fun _ => Joined (BufferWriter.Inv b.type))
      ⟨d.mem, Function.update (fun r' => d.writers name (index r')) r w, it, log⟩ a :=
    ⟨h.refines.1.writer_step (h.covers.sim hsegments) hstep, h.refines.2⟩
  rw [update_view hinj] at hrefines
  exact ⟨h.registered, h.covers, h.calls, hrefines⟩

/-- A queue pair of the part executes an operation, which stays in its ring. -/
theorem Shown.nic_step (h : d.Shown name index it calls handle b a log)
    (hsegments : 2 ≤ handle.segmentsPerWriter) (hinj : Function.Injective index) {r : Fin k}
    {w : Option BufferWriter} {made : Option ℕ}
    (hguard : ∀ v ∈ d.writers name (index r), v.CarriesPosted)
    (hstep : BufferWriter.machine.option.nic d.mem (d.writers name (index r)) =
      some (m, w, made)) :
    ((d.setWriter name (index r) w).setMem m).Runs name index it calls ∧
      ∀ start len, ((b.ring r).block b.type).Outside start len → AgreeOn m d.mem start len := by
  have sim := h.covers.sim hsegments
  constructor
  · obtain ⟨x, hmove, hinv⟩ := h.refines.1.nic_step sim hguard hstep
    have hlog := h.refines.2.move (hmove.ringMove a)
    have hcalls : (log ++ made.toList.map RingEvent.madeConsumable).filter RingEvent.isCall =
        calls := by
      rw [List.filter_append, h.calls]
      cases made <;> simp [RingEvent.isCall]
    simp only [view, update_view hinj] at hinv
    exact ⟨handle, b, _, _, h.registered, h.covers, hcalls, hinv, hlog⟩
  · intro start len hout
    have hinv := h.refines.1
    obtain ⟨x, -, -, -, hagree⟩ := sim.nic _ _ _ _ _ _ _ _ (hinv.writer r) hguard (hinv.shows r)
      (hinv.stage_spec r).1 (hinv.stage_spec r).2 hstep
    have hcounter := b.counter_fits r
    apply hagree
    simp only [Span.Outside, RingGeometry.block] at hout
    omega

/-- The iterator of the part moves, and writes in the part's rings only. -/
theorem Shown.iterator_step (h : d.Shown name index it calls handle b a log)
    (hsegments : 2 ≤ handle.segmentsPerWriter) {action : IteratorAction}
    {events : List (RingEvent k)}
    (hcredit : it.pc = .mark .credit true → ∀ y ∈ it.segmentIterators.get?,
      readWord d.mem y.counterOffset + 1 < sizeTBound)
    (hstep : it.step handle.buffertype d.mem action = some (m, it', events)) :
    (d.setMem m).Runs name index it' (calls ++ events) ∧
      ∀ start len, (∀ r, ((b.ring r).block b.type).Outside start len) →
        AgreeOn m d.mem start len := by
  have sim := h.covers.sim hsegments
  rw [← h.covers.type] at hstep
  constructor
  · obtain ⟨a', hmove, hinv⟩ := h.refines.1.iterator_step sim.toWriterRules hstep
      fun y hy hpc => hcredit hpc y hy
    have hcalls : (log ++ events).filter RingEvent.isCall = calls ++ events := by
      rw [List.filter_append, h.calls,
        List.filter_eq_self.mpr (BufferIterator.isCall_of_step hstep)]
    exact ⟨handle, b, a', _, h.registered, h.covers, hcalls, hinv, h.refines.2.move hmove⟩
  · intro start len hout
    exact h.refines.1.iterator_writes hstep fun r _ => hout r

/-- An appender has joined a ring that nobody had joined before. -/
theorem Shown.join (h : d.Shown name index it calls handle b a log)
    (hsegments : 2 ≤ handle.segmentsPerWriter) (hinj : Function.Injective index) {r : Fin k}
    (hnone : d.writers name (index r) = none) {segment : BufferSegment}
    (hsegment : handle.entrySegments[index r]? = some segment) {joined : BufferHandle}
    (htype : joined.buffertype = handle.buffertype)
    (hcount : joined.segmentsPerWriter = handle.segmentsPerWriter)
    (hsize : joined.segmentSizes = handle.segmentSizes) (internalBufferSize : ℕ)
    {messages : List Message} (hmessages : handle.buffertype = .lat → messages ≠ [] ∧
      ∀ message ∈ messages, message.data.length ≤ handle.segmentSizes) :
    (d.setWriter name (index r)
      (some (.construct joined segment internalBufferSize messages))).Shown name index it calls
        handle b a log := by
  have hinv := h.refines.1
  obtain ⟨segment', hsegment', hg⟩ := h.covers.ring r
  cases hsegment.symm.trans hsegment'
  have hempty : a.ring r = .empty _ _ := by
    have hwriter := hinv.writer r
    simp only [view, hnone] at hwriter
    exact hwriter
  have hshows := hinv.shows r
  rw [hempty, h.covers.type, ← htype] at hshows
  have hw := BufferWriter.inv_construct internalBufferSize hg.entry
    (hg.segments.trans hcount.symm) (hg.segmentSize.trans hsize.symm)
    (h.covers.segments hsegments r) (by rw [htype, hsize]; exact hmessages)
    (hshows.stage_congr (Or.inl rfl))
  rw [htype, ← h.covers.type] at hw
  have hset := hinv.setWriter (r := r)
    (w := some (.construct joined segment internalBufferSize messages)) (by rw [hempty]; exact hw)
  simp only [view, update_view hinj] at hset
  exact ⟨h.registered, h.covers, h.calls, hset, h.refines.2⟩

/-- A ring that no consumer has: nothing has been taken from it. -/
theorem Shown.ring {index : Fin 1 → ℕ} {calls log : List (RingEvent 1)} {b : BufferRings 1}
    {a : BufferState b} {offset : ℕ}
    (h : d.Shown name index (.ofEntries [(offset, 0)]) calls handle b a log) :
    (a.ring 0).returned = 0 ∧
      (b.ring 0).Shows handle.buffertype (a.ring 0) .checkEnd d.mem ∧
      Joined (BufferWriter.Inv handle.buffertype) (a.ring 0) d.mem (d.writers name (index 0)) := by
  have hinv := h.refines.1
  have hprev := (hinv.iterator.helper (.ofEntry offset 0)
    (by simp [view, BufferIterator.ofEntries])).prev
  have hshows := hinv.shows 0
  have hwriter := hinv.writer 0
  rw [h.covers.type] at hshows hwriter
  refine ⟨?_, hshows, hwriter⟩
  by_contra hne
  rw [IterHelper.ofEntry, if_neg hne] at hprev
  cases hprev

/-- A consumer is given all rings that are there, while their writers may be at work. -/
theorem runs_getIterator {memSize : ℕ} (hplaced : Placed memSize (d.registry, d.node))
    (hregistered : d.registry.retrieveBuffer name = some handle) {opened : BufferHandle}
    (hentries : opened.entrySegments = handle.entrySegments)
    (hrings : ∀ i segment, handle.entrySegments[i]? = some segment →
      d.Runs name (fun _ : Fin 1 => i) (.ofEntries [(segment.offset, 0)]) []) :
    d.Runs name (fun r : Fin (Consumer.getIterator opened).rings => (r : ℕ))
      (Consumer.getIterator opened).iterator (Consumer.getIterator opened).log := by
  have hring : ∀ r : Fin opened.entrySegments.length, ∃ g,
      handle.Describes (opened.entrySegments.get r) g ∧ ∃ x : RingState g, x.returned = 0 ∧
        g.Shows handle.buffertype x .checkEnd d.mem ∧
        Joined (BufferWriter.Inv handle.buffertype) x d.mem (d.writers name r) := by
    intro r
    have hsegment : handle.entrySegments[(r : ℕ)]? = some (opened.entrySegments.get r) := by
      rw [← hentries]
      exact List.getElem?_eq_getElem r.isLt
    obtain ⟨handle', b, a, log, h⟩ := hrings r _ hsegment
    cases hregistered.symm.trans h.registered
    obtain ⟨segment', hsegment', hg⟩ := h.covers.ring 0
    cases hsegment.symm.trans hsegment'
    exact ⟨b.ring 0, hg, a.ring 0, h.ring⟩
  choose g hg x hreturned hshows hwriters using hring
  have hget : ∀ r : Fin opened.entrySegments.length,
      handle.entrySegments[(r : ℕ)]? = some (opened.entrySegments.get r) := by
    intro r
    rw [← hentries]
    exact List.getElem?_eq_getElem r.isLt
  let b : BufferRings opened.entrySegments.length :=
    { type := handle.buffertype
      ring := g
      counter_fits := fun r => by
        rw [(hg r).entry]
        exact (hplaced.buffers name handle hregistered).2 _ (List.mem_of_getElem? (hget r))
      apart := fun r r' hne => by
        rw [(hg r).block_eq, (hg r').block_eq]
        exact hplaced.ringSpans_apart hregistered hregistered (hget r) (hget r')
          (Or.inr fun heq => hne (Fin.ext heq.symm)) }
  have hiterator : (Consumer.getIterator opened).iterator = .ofEntries b.entries := by
    simp only [Consumer.getIterator, BufferRings.entries, b, (hg _).entry]
  have hcalls : (RingSystem.arrivals (b := b) x).filter RingEvent.isCall = [] := by
    simpa using fun e he => RingSystem.isCall_of_mem_arrivals he
  refine ⟨handle, b, ⟨x, none⟩, RingSystem.arrivals (b := b) x, hregistered,
    ⟨rfl, fun r => ⟨_, hget r, hg r⟩⟩, hcalls, ?_⟩
  rw [hiterator]
  exact RingSystem.refines_opened hreturned hshows hwriters

end Deployment
end DpiLibrary
