import DpiLibrary.Dpi.DeploymentInvariant

/-!
# Runs of a deployment

Every step of a deployment keeps its invariant: what one part does is covered by the protocol
of its buffer, and the other parts do not notice it. So a consumer is given, ring by ring, what
the writer that joined the ring has appended, whatever goes on in the other buffers of the node.
-/

namespace DpiLibrary

variable {dpiNodes : List String} {connection : String} {memSize : ℕ}

theorem RegistryServer.ringSpan_mem {r : RegistryServer} {name : String} {handle : BufferHandle}
    (h : r.retrieveBuffer name = some handle) {segment : BufferSegment}
    (hsegment : segment ∈ handle.entrySegments) : handle.ringSpan segment ∈ r.ringSpans := by
  have hmem : handle ∈ r.handles :=
    List.mem_map.mpr ⟨⟨name, handle⟩, AList.mem_lookup_iff.mp h, rfl⟩
  exact List.mem_flatMap.mpr ⟨handle, hmem, List.mem_map_of_mem hsegment⟩

namespace Deployment

open RegistryServer

variable {d d' : Deployment} {registry : RegistryServer} {node : RemoteNode}

/-- What a served request leaves of the registry and the memory. -/
structure Served (memSize : ℕ) (d : Deployment) (registry : RegistryServer) (node : RemoteNode) :
    Prop where
  placed : Placed memSize (registry, node)
  kept : WellKept registry
  segments : ∀ name handle, registry.retrieveBuffer name = some handle →
    2 ≤ handle.segmentsPerWriter
  handles : ∀ name handle, d.registry.retrieveBuffer name = some handle →
    d.registry.joined name ≤ registry.joined name ∧
      ∃ segments, registry.retrieveBuffer name = some (handle.push segments)
  memory : ∀ name handle, d.registry.retrieveBuffer name = some handle →
    ∀ segment ∈ handle.entrySegments, AgreeOn node.server.buffer d.mem
      (handle.ringSpan segment).start (handle.ringSpan segment).length
  fresh : ∀ name handle i segment, registry.retrieveBuffer name = some handle →
    handle.entrySegments[i]? = some segment →
    (∀ handle₀, d.registry.retrieveBuffer name = some handle₀ → handle₀.entrySegments.length ≤ i) →
    handle.ShowsEmpty segment node.server.buffer

/-- The registry counts joins and changes nothing else. -/
theorem Deployed.served_setJoined (hd : d.Deployed memSize) {name : String} {n : ℕ}
    (hn : d.registry.joined name ≤ n) (hkept : WellKept (d.registry.setJoined name n)) :
    Served memSize d (d.registry.setJoined name n) d.node where
  placed := ⟨hd.placed.accounts, hd.placed.buffers⟩
  kept := hkept
  segments := hd.segments
  handles name' handle h := by
    refine ⟨?_, [], by rw [BufferHandle.push_nil]; exact h⟩
    rw [joined_setJoined]
    split_ifs with heq
    · rw [heq]
      exact hn
    · exact le_rfl
  memory _ _ _ _ _ := AgreeOn.refl _ _ _
  fresh name' handle i segment h hsegment hold := by
    have hlt := (List.getElem?_eq_some_iff.mp hsegment).1
    have hle := hold handle h
    omega

theorem Deployed.served_refl (hd : d.Deployed memSize) : Served memSize d d.registry d.node where
  placed := hd.placed
  kept := hd.kept
  segments := hd.segments
  handles name handle h := ⟨le_rfl, [], by rw [BufferHandle.push_nil]; exact h⟩
  memory _ _ _ _ _ := AgreeOn.refl _ _ _
  fresh name handle i segment h hsegment hold := by
    have hlt := (List.getElem?_eq_some_iff.mp hsegment).1
    have hle := hold handle h
    omega

/-- A ring is added to a registered buffer. -/
theorem Deployed.served_createRing (hsize : memSize < sizeTBound) (hd : d.Deployed memSize)
    {name : String} {handle : BufferHandle} {segment : BufferSegment}
    (hname : d.registry.retrieveBuffer name = some handle)
    (hroom : ∃ b ∈ d.node.server.manager.rdmaMem, handle.blockSize ≤ b.size)
    (hring : createRingOnBuffer (RemoteNode.nodesAt dpiNodes connection) d.node handle =
      some (node, some segment))
    (hplaced : Placed memSize (d.registry.setHandle name (handle.push [segment]), node)) :
    Served memSize d (d.registry.setHandle name (handle.push [segment])) node := by
  obtain ⟨hkeeps, hfresh⟩ := createRingOnBuffer_fresh hsize hd.placed.accounts
    (hd.placed.buffers name handle hname).1 hroom hring
  refine ⟨hplaced, hd.kept.push hname [segment], fun name' handle' h => ?_,
    fun name' handle' h => ⟨by simp, ?_⟩,
    fun name' handle' h s hs => hkeeps _ (ringSpan_mem h hs),
    fun name' handle' i s h hs hold => ?_⟩
  · rw [retrieveBuffer_setHandle] at h
    split_ifs at h with heq
    · cases h
      exact hd.segments name handle hname
    · exact hd.segments name' handle' h
  · rw [retrieveBuffer_setHandle]
    split_ifs with heq
    · subst heq
      cases hname.symm.trans h
      exact ⟨[segment], rfl⟩
    · exact ⟨[], by rw [BufferHandle.push_nil]; exact h⟩
  · rw [retrieveBuffer_setHandle] at h
    split_ifs at h with heq
    · subst heq
      cases h
      have hle := hold handle hname
      rw [BufferHandle.push_entrySegments, List.getElem?_append_right hle] at hs
      have hlast : s = segment := by
        have hmem := List.mem_of_getElem? hs
        simpa using hmem
      rw [hlast]
      exact (hfresh segment rfl).push [segment]
    · have hlt := (List.getElem?_eq_some_iff.mp hs).1
      have hle := hold handle' h
      omega

/-- A buffer is registered, with all of its rings or with some. -/
theorem Deployed.served_register (hsize : memSize < sizeTBound) (hd : d.Deployed memSize)
    {req : DPIAppendBufferRequest} {handle : BufferHandle} {success : Bool}
    (hallowed : d.Allowed (RemoteNode.nodesAt dpiNodes connection) (.request (.appendBuffer req)))
    (hrings : createRings (RemoteNode.nodesAt dpiNodes connection) req.numberAppenders d.node
      req.bufferHandle = some (node, handle, success))
    (hplaced : Placed memSize (((d.registry.setHandle req.name req.bufferHandle).setHandle req.name
      handle).setJoined req.name 0, node))
    (hkept : WellKept (((d.registry.setHandle req.name req.bufferHandle).setHandle req.name
      handle).setJoined req.name 0)) :
    Served memSize d (((d.registry.setHandle req.name req.bufferHandle).setHandle req.name
      handle).setJoined req.name 0) node := by
  obtain ⟨-, hname, hb, hsegments, hfit⟩ := hallowed
  obtain ⟨hkeeps, ⟨segments, rfl⟩, hempty⟩ := createRings_fresh (l := d.registry.ringSpans) hsize
    hd.placed.accounts hb (by simp [DPIAppendBufferRequest.bufferHandle]) hfit hrings
  have hnew : ∀ name' handle', d.registry.retrieveBuffer name' = some handle' →
      name' ≠ req.name := by
    rintro name' handle' h rfl
    exact hname (mem_bufferHandles.mpr ⟨handle', h⟩)
  refine ⟨hplaced, hkept, fun name' handle' h => ?_, fun name' handle' h => ?_,
    fun name' handle' h s hs => hkeeps _ (ringSpan_mem h hs),
    fun name' handle' i s h hs hold => ?_⟩
  · simp only [retrieveBuffer_setJoined, retrieveBuffer_setHandle] at h
    split_ifs at h with heq
    · cases h
      exact hsegments
    · exact hd.segments name' handle' h
  · have hne := hnew name' handle' h
    refine ⟨by simp [hne], [], ?_⟩
    simp only [retrieveBuffer_setJoined, retrieveBuffer_setHandle, if_neg hne,
      BufferHandle.push_nil]
    exact h
  · simp only [retrieveBuffer_setJoined, retrieveBuffer_setHandle] at h
    split_ifs at h with heq
    · cases h
      exact hempty s (List.mem_of_getElem? hs)
    · have hlt := (List.getElem?_eq_some_iff.mp hs).1
      have hle := hold handle' h
      omega

theorem Deployed.served (hsize : memSize < sizeTBound) (hd : d.Deployed memSize)
    {req : RegistryRequest} {resp : RegistryResponse}
    (hallowed : d.Allowed (RemoteNode.nodesAt dpiNodes connection) (.request req))
    (h : d.registry.handle (RemoteNode.nodesAt dpiNodes connection) d.node req =
      some (registry, node, resp)) : Served memSize d registry node := by
  have hserve : serve (RemoteNode.nodesAt dpiNodes connection) (d.registry, d.node) req =
      some (registry, node) := by
    simp [serve, h]
  have hkept : WellKept (registry, node).1 := wellKept_serve hd.kept hserve
  cases handled_of_handle h with
  | createRingFailed => exact hd.served_refl
  | createRing name handle node segment hname hring =>
    have hreq : RingRequest (.createRingOnBuffer name) := trivial
    exact hd.served_createRing hsize hname (hallowed handle hname).1 hring
      (placed_serve hsize hd.placed hreq hserve)
  | retrieveFailed => exact hd.served_refl
  | retrieve => exact hd.served_refl
  | joinFull => exact hd.served_setJoined le_rfl hkept
  | join => exact hd.served_setJoined (Nat.le_succ _) hkept
  | nameTaken req hreg hname => exact absurd hname hallowed.2.1
  | register req node handle success hreg hname hrings =>
    have hreq : RingRequest (.appendBuffer req) := ⟨hallowed.1, hallowed.2.2.1⟩
    exact hd.served_register hsize hallowed hrings (placed_serve hsize hd.placed hreq hserve) hkept
  | append req hreg =>
    rw [hallowed.1] at hreg
    cases hreg
  | invalid => exact hd.served_refl

/-- A ring just built, before anyone has joined it. -/
theorem runs_fresh {name : String} {handle : BufferHandle} {i : ℕ} {segment : BufferSegment}
    (hsize : memSize < sizeTBound) (hplaced : Placed memSize (d.registry, d.node))
    (hhandle : d.registry.retrieveBuffer name = some handle)
    (hsegment : handle.entrySegments[i]? = some segment) (hempty : handle.ShowsEmpty segment d.mem)
    (hnone : d.writers name i = none) :
    d.Runs name (fun _ : Fin 1 => i) (.ofEntries [(segment.offset, 0)]) [] := by
  obtain ⟨hb, hcounters⟩ := hplaced.buffers name handle hhandle
  have hmem := List.mem_of_getElem? hsegment
  obtain ⟨g, hg⟩ := BufferHandle.exists_describes hsize hb (hcounters segment hmem)
    (hplaced.accounts.inside _ (ringSpan_mem hhandle hmem))
  let b : BufferRings 1 := .single handle.buffertype g (hg.entry ▸ hcounters segment hmem)
  have hentries : b.entries = [(segment.offset, 0)] := by
    simp [BufferRings.entries, b, BufferRings.single, hg.entry, List.finRange_succ]
  refine ⟨handle, b, ⟨fun _ => .empty _ _, none⟩, RingSystem.arrivals (b := b) fun _ => .empty _ _,
    hhandle, ⟨rfl, fun _ => ⟨segment, hsegment, hg⟩⟩, ?_, ?_⟩
  · simpa using fun e he => RingSystem.isCall_of_mem_arrivals he
  · rw [← hentries]
    refine RingSystem.refines_opened (fun _ => rfl) (fun _ => hempty g hg) fun _ => ?_
    simp only [hnone]
    rfl

/-- A served request keeps the invariant. -/
theorem Deployed.serve (hsize : memSize < sizeTBound) (hd : d.Deployed memSize)
    (hs : Served memSize d registry node) :
    Deployed memSize { d with registry, node } where
  placed := hs.placed
  kept := hs.kept
  segments := hs.segments
  joined name i hi := by
    obtain ⟨hlt, handle, hhandle⟩ := hd.joined name i hi
    obtain ⟨hle, segments, hhandle'⟩ := hs.handles name handle hhandle
    exact ⟨hlt.trans_le hle, _, hhandle'⟩
  types name c hc := by
    obtain ⟨handle, hhandle, htype⟩ := hd.types name c hc
    obtain ⟨-, segments, hhandle'⟩ := hs.handles name handle hhandle
    exact ⟨_, hhandle', htype⟩
  parts name k index it calls hpart := by
    have hold : ∀ {k : ℕ} {index : Fin k → ℕ} {it : BufferIterator k} {calls : List (RingEvent k)},
        d.Runs name index it calls →
          Runs { d with registry, node } name index it calls := by
      rintro k index it calls ⟨handle, b, a, log, h⟩
      obtain ⟨-, segments, hhandle⟩ := hs.handles name handle h.registered
      exact ⟨_, _, _, _, h.frame (hd.segments name handle h.registered) hhandle (fun _ => rfl)
        fun r segment hsegment =>
          hs.memory name handle h.registered segment (List.mem_of_getElem? hsegment)⟩
    cases hpart with
    | consumer c hc => exact hold (hd.parts name _ _ _ (.consumer c hc))
    | ring i handle segment hhandle hsegment hfree =>
      by_cases hnew : ∀ handle₀, d.registry.retrieveBuffer name = some handle₀ →
          handle₀.entrySegments.length ≤ i
      · refine runs_fresh hsize hs.placed hhandle hsegment
          (hs.fresh name handle i segment hhandle hsegment hnew) ?_
        by_contra hsome
        obtain ⟨hlt, handle₀, hhandle₀⟩ := hd.joined name i (Option.isSome_iff_ne_none.mpr hsome)
        have hle := hd.kept.counters name handle₀ hhandle₀
        have hge := hnew handle₀ hhandle₀
        omega
      · push Not at hnew
        obtain ⟨handle₀, hhandle₀, hlt⟩ := hnew
        obtain ⟨-, segments, hpush⟩ := hs.handles name handle₀ hhandle₀
        obtain rfl : handle₀.push segments = handle := Option.some.inj (hpush.symm.trans hhandle)
        rw [BufferHandle.push_entrySegments, List.getElem?_append_left hlt] at hsegment
        exact hold (hd.parts name _ _ _ (.ring i handle₀ segment hhandle₀ hsegment hfree))

section

variable {k : ℕ} {name : String} {index : Fin k → ℕ} {it : BufferIterator k}
  {calls : List (RingEvent k)}

/-- What goes on elsewhere is not noticed. -/
theorem Deployed.runs_frame (hd : d.Deployed memSize) (h : d.Runs name index it calls)
    (hregistry : d'.registry = d.registry)
    (hwriters : ∀ r, d'.writers name (index r) = d.writers name (index r))
    (hmem : ∀ handle, d.registry.retrieveBuffer name = some handle → ∀ r segment,
      handle.entrySegments[index r]? = some segment →
        AgreeOn d'.mem d.mem (handle.ringSpan segment).start (handle.ringSpan segment).length) :
    d'.Runs name index it calls := by
  obtain ⟨handle, b, a, log, h⟩ := h
  have hhandle : d'.registry.retrieveBuffer name = some (handle.push []) := by
    rw [hregistry, BufferHandle.push_nil]
    exact h.registered
  exact ⟨_, b, a, log, h.frame (hd.segments name handle h.registered) hhandle hwriters
    (hmem handle h.registered)⟩

theorem Part.congr (h : d'.Part name index it calls) (hregistry : d'.registry = d.registry)
    (hconsumers : d'.consumers = d.consumers) : d.Part name index it calls := by
  cases h with
  | consumer c hc => exact .consumer c (hconsumers ▸ hc)
  | ring i handle segment hhandle hsegment hfree =>
    rw [hregistry] at hhandle
    rw [hconsumers] at hfree
    exact .ring i handle segment hhandle hsegment hfree

end

theorem Deployed.placed_setMem (hd : d.Deployed memSize) (m : Mem) :
    Placed memSize ((d.setMem m).registry, (d.setMem m).node) :=
  ⟨hd.placed.accounts.of_manager_eq rfl, hd.placed.buffers⟩

variable {name : String} {i : ℕ}

/-- A writer's own step. -/
theorem Deployed.writer_step (hd : d.Deployed memSize) {w : Option BufferWriter}
    (hstep : BufferWriter.machine.option.step (d.writers name i) = some w) :
    (d.setWriter name i w).Deployed memSize where
  placed := hd.placed
  kept := hd.kept
  segments := hd.segments
  joined name' i' hi := by
    rw [setWriter_writers] at hi
    split_ifs at hi with heq
    · obtain ⟨rfl, rfl⟩ := heq
      obtain ⟨v, hv, -⟩ := Option.bind_eq_some_iff.mp hstep
      exact hd.joined name' i' (by simp [hv])
    · exact hd.joined name' i' hi
  types := hd.types
  parts name' k index it calls hpart := by
    have hpart := hpart.congr (d := d) rfl rfl
    have hruns := hd.parts name' index it calls hpart
    by_cases hmine : name' = name ∧ ∃ r, index r = i
    · obtain ⟨rfl, r, rfl⟩ := hmine
      obtain ⟨handle, b, a, log, h⟩ := hruns
      exact ⟨handle, b, a, log, h.writer_step (hd.segments name' handle h.registered)
        hpart.injective hstep⟩
    · refine hd.runs_frame hruns rfl (fun r => ?_) fun _ _ _ _ _ => AgreeOn.refl _ _ _
      rw [setWriter_writers, if_neg fun heq => hmine ⟨heq.1, r, heq.2⟩]

/-- The ring that a writer was given. -/
theorem Deployed.exists_ring (hd : d.Deployed memSize) (hsome : (d.writers name i).isSome) :
    ∃ handle segment, d.registry.retrieveBuffer name = some handle ∧
      handle.entrySegments[i]? = some segment := by
  obtain ⟨hlt, handle, hhandle⟩ := hd.joined name i hsome
  have hle := hd.kept.counters name handle hhandle
  exact ⟨handle, _, hhandle, List.getElem?_eq_getElem (hlt.trans_le hle)⟩

/-- What a queue pair writes stays in the ring of its writer. -/
theorem Deployed.nic_writes (hd : d.Deployed memSize) {w : Option BufferWriter} {m : Mem}
    {made : Option ℕ} (hguard : ∀ v ∈ d.writers name i, v.CarriesPosted)
    (hstep : BufferWriter.machine.option.nic d.mem (d.writers name i) = some (m, w, made)) :
    ∃ handle segment, d.registry.retrieveBuffer name = some handle ∧
      handle.entrySegments[i]? = some segment ∧
      ∀ start len, (handle.ringSpan segment).Outside start len → AgreeOn m d.mem start len := by
  have hsome : (d.writers name i).isSome := by
    obtain ⟨v, hv, -⟩ := Option.bind_eq_some_iff.mp hstep
    simp [hv]
  obtain ⟨handle, segment, hhandle, hsegment⟩ := hd.exists_ring hsome
  obtain ⟨k, index, it, calls, r, hpart, rfl⟩ := exists_part hhandle hsegment
  obtain ⟨handle', b, a, log, h⟩ := hd.parts name index it calls hpart
  cases hhandle.symm.trans h.registered
  have hwrites := (h.nic_step (hd.segments name _ hhandle) hpart.injective hguard hstep).2
  rw [h.covers.block_eq hsegment] at hwrites
  exact ⟨handle, segment, hhandle, hsegment, hwrites⟩

/-- An operation that a queue pair executes. -/
theorem Deployed.nic_step (hd : d.Deployed memSize) {w : Option BufferWriter} {m : Mem}
    {made : Option ℕ} (hguard : ∀ v ∈ d.writers name i, v.CarriesPosted)
    (hstep : BufferWriter.machine.option.nic d.mem (d.writers name i) = some (m, w, made)) :
    ((d.setWriter name i w).setMem m).Deployed memSize := by
  obtain ⟨handle₀, segment₀, hhandle₀, hsegment₀, hagree⟩ := hd.nic_writes hguard hstep
  have hsome : (d.writers name i).isSome := by
    obtain ⟨v, hv, -⟩ := Option.bind_eq_some_iff.mp hstep
    simp [hv]
  refine ⟨hd.placed_setMem m, hd.kept, hd.segments, fun name' i' hi => ?_, hd.types,
    fun name' k index it calls hpart => ?_⟩
  · rw [setMem_writers, setWriter_writers] at hi
    split_ifs at hi with heq
    · obtain ⟨rfl, rfl⟩ := heq
      exact hd.joined name' i' hsome
    · exact hd.joined name' i' hi
  · have hpart := hpart.congr (d := d) rfl rfl
    have hruns := hd.parts name' index it calls hpart
    by_cases hmine : name' = name ∧ ∃ r, index r = i
    · obtain ⟨rfl, r, rfl⟩ := hmine
      obtain ⟨handle, b, a, log, h⟩ := hruns
      exact (h.nic_step (hd.segments name' handle h.registered) hpart.injective hguard hstep).1
    · refine hd.runs_frame hruns rfl (fun r => ?_) fun handle hhandle r segment hsegment => ?_
      · rw [setMem_writers, setWriter_writers, if_neg fun heq => hmine ⟨heq.1, r, heq.2⟩]
      · apply hagree
        apply (hd.placed.ringSpans_apart hhandle₀ hhandle hsegment₀ hsegment ?_).outside
        by_contra heq
        push Not at heq
        exact hmine ⟨heq.1, r, heq.2⟩

/-- A statement of a consumer's iterator. -/
theorem Deployed.iterator_step (hd : d.Deployed memSize) {c : Consumer}
    (hc : d.consumers name = some c) {action : IteratorAction} {m : Mem}
    {iterator : BufferIterator c.rings} {events : List (RingEvent c.rings)}
    (hcredit : c.iterator.pc = .mark .credit true → ∀ h ∈ c.iterator.segmentIterators.get?,
      readWord d.mem h.counterOffset + 1 < sizeTBound)
    (hstep : c.iterator.step c.buffertype d.mem action = some (m, iterator, events)) :
    ((d.setConsumer name { c with iterator, log := c.log ++ events }).setMem m).Deployed
      memSize := by
  obtain ⟨handle, b, a, log, h⟩ := hd.parts name _ _ _ (.consumer c hc)
  have hregistered := h.registered
  obtain ⟨handle', hhandle', htype⟩ := hd.types name c hc
  cases hregistered.symm.trans hhandle'
  rw [htype] at hstep
  obtain ⟨hruns, hagree⟩ := h.iterator_step (hd.segments name handle hregistered) hcredit hstep
  have hothers : ∀ {name' : String} {k : ℕ} {index : Fin k → ℕ} {it : BufferIterator k}
      {calls : List (RingEvent k)}, d.Part name' index it calls →
      (name' ≠ name ∨ ∀ r, c.rings ≤ index r) →
      ((d.setConsumer name { c with iterator, log := c.log ++ events }).setMem m).Runs name' index
        it calls := by
    intro name' k index it calls hpart hne
    refine hd.runs_frame (hd.parts name' index it calls hpart) rfl (fun _ => rfl)
      fun handle' hhandle' r segment hsegment => ?_
    apply hagree
    intro r'
    obtain ⟨segment', hsegment', -⟩ := h.covers.ring r'
    rw [h.covers.block_eq hsegment']
    apply (hd.placed.ringSpans_apart hregistered hhandle' hsegment' hsegment ?_).outside
    rcases hne with hne | hge
    · exact Or.inl hne
    · have hle := hge r
      exact Or.inr (by omega)
  refine ⟨hd.placed_setMem m, hd.kept, hd.segments, hd.joined, fun name' c' hc' => ?_,
    fun name' k index it calls hpart => ?_⟩
  · by_cases heq : name' = name
    · subst heq
      simp only [setConsumer, setMem, Function.update_self, Option.some.injEq] at hc'
      subst hc'
      exact ⟨handle, hregistered, htype⟩
    · simp only [setConsumer, setMem, ne_eq, heq, not_false_eq_true, Function.update_of_ne] at hc'
      exact hd.types name' c' hc'
  by_cases heq : name' = name
  · subst heq
    cases hpart with
    | consumer c' hc' =>
      simp only [setConsumer, setMem, Function.update_self, Option.some.injEq] at hc'
      subst hc'
      exact hruns.setConsumer name' _
    | ring i handle' segment hhandle' hsegment hfree =>
      have hge : c.rings ≤ i := by
        simpa [setConsumer, setMem] using hfree
      refine hothers (.ring i handle' segment hhandle' hsegment fun c' hc' => ?_)
        (Or.inr fun _ => hge)
      cases hc.symm.trans hc'
      exact hge
  · have hconsumer : ((d.setConsumer name { c with iterator, log := c.log ++ events }).setMem
        m).consumers name' = d.consumers name' := by
      simp [setConsumer, setMem, heq]
    refine hothers ?_ (Or.inl heq)
    cases hpart with
    | consumer c' hc' => exact .consumer c' (hconsumer ▸ hc')
    | ring i handle' segment hhandle' hsegment hfree =>
      rw [hconsumer] at hfree
      exact .ring i handle' segment hhandle' hsegment hfree

/-- Calls that only look a buffer up, or count a join. -/
theorem Deployed.served_call (hsize : memSize < sizeTBound) (hd : d.Deployed memSize)
    {isAppender : Bool} {resp : RegistryResponse}
    (h : d.registry.handle (RemoteNode.nodesAt dpiNodes connection) d.node
      (.retrieveBuffer name isAppender) = some (registry, node, resp)) :
    Served memSize d registry node := by
  have hrequest : d.Allowed (RemoteNode.nodesAt dpiNodes connection)
      (.request (.retrieveBuffer name isAppender)) := trivial
  exact hd.served hsize hrequest h

/-- An appender joins, and constructs its writer on the ring it is given. -/
theorem Deployed.join (hsize : memSize < sizeTBound) (hd : d.Deployed memSize)
    {resp : RegistryResponse} {handle : BufferHandle} {segment : BufferSegment}
    {internalBufferSize : ℕ} {messages : List Message}
    (hallowed : d.Allowed (RemoteNode.nodesAt dpiNodes connection)
      (.joinBuffer name internalBufferSize messages))
    (hserved : d.registry.handle (RemoteNode.nodesAt dpiNodes connection) d.node
      (RegistryClient.joinBuffer name).request = some (registry, node, resp))
    (hresult : (RegistryClient.joinBuffer name).result resp = some handle)
    (hsegment : handle.entrySegments.head? = some segment) :
    (setWriter { d with registry, node } name (d.registry.joined name)
      (some (.construct handle segment internalBufferSize messages))).Deployed memSize := by
  have hserve := hd.serve hsize (hd.served_call hsize hserved)
  cases handled_of_handle hserved with
  | retrieveFailed => cases hresult
  | joinFull => simp [RegistryClient.result, RegistryClient.retrieveOrJoinBuffer] at hresult
  | join _ stored segment' hstored hsegment' =>
    have hmirrors := RegistryClient.mirrors_retrieved (hd.kept.named name stored hstored) _ hresult
    rw [hmirrors.entrySegments, List.head?_cons, Option.some.injEq] at hsegment
    subst hsegment
    have hnone : d.writers name (d.registry.joined name) = none := by
      by_contra hsome
      have hlt := (hd.joined name _ (Option.isSome_iff_ne_none.mpr hsome)).1
      omega
    refine ⟨hserve.placed, hserve.kept, hserve.segments, fun name' i hi => ?_, hserve.types,
      fun name' k index it calls hpart => ?_⟩
    · rw [setWriter_writers] at hi
      split_ifs at hi with heq
      · obtain ⟨rfl, rfl⟩ := heq
        exact ⟨by simp, stored, hstored⟩
      · exact hserve.joined name' i hi
    · have hruns := hserve.parts name' index it calls (hpart.congr rfl rfl)
      by_cases hmine : name' = name ∧ ∃ r, index r = d.registry.joined name
      · obtain ⟨rfl, r, hr⟩ := hmine
        obtain ⟨handle', b, a, log, h⟩ := hruns
        obtain rfl : stored = handle' := Option.some.inj (hstored.symm.trans h.registered)
        rw [← hr] at hnone hsegment'
        have hjoin := h.join (hd.segments name' stored hstored) hpart.injective hnone hsegment'
          hmirrors.buffertype hmirrors.segmentsPerWriter hmirrors.segmentSizes internalBufferSize
          fun htype => hallowed stored hstored htype
        rw [hr] at hjoin
        exact ⟨stored, b, a, log, hjoin⟩
      · refine hserve.runs_frame hruns rfl (fun r => ?_) fun _ _ _ _ _ => AgreeOn.refl _ _ _
        rw [setWriter_writers, if_neg fun heq => hmine ⟨heq.1, r, heq.2⟩]

/-- A consumer retrieves a buffer and is given an iterator over the rings it has by then. -/
theorem Deployed.getIterator (hd : d.Deployed memSize)
    {resp : RegistryResponse} {handle : BufferHandle} (hnew : d.consumers name = none)
    (hserved : d.registry.handle (RemoteNode.nodesAt dpiNodes connection) d.node
      (RegistryClient.retrieveBuffer name).request = some (registry, node, resp))
    (hresult : (RegistryClient.retrieveBuffer name).result resp = some handle) :
    (setConsumer { d with registry, node } name (.getIterator handle)).Deployed memSize := by
  cases handled_of_handle hserved with
  | retrieveFailed => cases hresult
  | retrieve _ stored hstored =>
    have hmirrors := RegistryClient.mirrors_retrieved (hd.kept.named name stored hstored) _ hresult
    refine ⟨hd.placed, hd.kept, hd.segments, hd.joined, fun name' c hc => ?_,
      fun name' k index it calls hpart => ?_⟩
    · by_cases heq : name' = name
      · subst heq
        simp only [setConsumer, Function.update_self, Option.some.injEq] at hc
        subst hc
        exact ⟨stored, hstored, hmirrors.buffertype⟩
      · simp only [setConsumer, ne_eq, heq, not_false_eq_true, Function.update_of_ne] at hc
        exact hd.types name' c hc
    · cases hpart with
      | consumer c hc =>
        by_cases heq : name' = name
        · subst heq
          simp only [setConsumer, Function.update_self, Option.some.injEq] at hc
          subst hc
          apply Runs.setConsumer
          refine runs_getIterator hd.placed hstored hmirrors.entrySegments fun i segment hsegment =>
            hd.parts name' _ _ _ (.ring i stored segment hstored hsegment (by simp [hnew]))
        · simp only [setConsumer, ne_eq, heq, not_false_eq_true, Function.update_of_ne] at hc
          exact (hd.parts name' _ _ _ (.consumer c hc)).setConsumer name _
      | ring i handle' segment hhandle' hsegment hfree =>
        apply Runs.setConsumer
        refine hd.parts name' _ _ _ (.ring i handle' segment hhandle' hsegment fun c hc => ?_)
        by_cases heq : name' = name
        · subst heq
          rw [hnew] at hc
          cases hc
        · apply hfree
          simpa [setConsumer, heq] using hc

theorem deployed_init (memSize : ℕ) (buffer : Mem) (exchanges : List Exchange) :
    (init memSize buffer exchanges).Deployed memSize where
  placed := placed_init memSize buffer exchanges
  kept := wellKept_init
  segments name handle h := by simp [init, retrieveBuffer, RegistryServer.init] at h
  joined name i h := by simp [init] at h
  types name c h := by simp [init] at h
  parts name k index it calls hpart := by
    cases hpart with
    | consumer c hc => simp [init] at hc
    | ring i handle segment hhandle => simp [init, retrieveBuffer, RegistryServer.init] at hhandle

theorem Deployed.step (hsize : memSize < sizeTBound) (hd : d.Deployed memSize)
    {label : DeploymentLabel} (hallowed : d.Allowed (RemoteNode.nodesAt dpiNodes connection) label)
    (hstep : d.step (RemoteNode.nodesAt dpiNodes connection) label = some d') :
    d'.Deployed memSize := by
  cases label with
  | request req =>
    obtain ⟨⟨registry, node, resp⟩, hserved, rfl⟩ := Option.map_eq_some_iff.mp hstep
    exact hd.serve hsize (hd.served hsize hallowed hserved)
  | joinBuffer name internalBufferSize messages =>
    obtain ⟨⟨registry, node, resp⟩, hserved, hstep⟩ := Option.bind_eq_some_iff.mp hstep
    obtain ⟨handle, hresult, hstep⟩ := Option.bind_eq_some_iff.mp hstep
    obtain ⟨segment, hsegment, hstep⟩ := Option.bind_eq_some_iff.mp hstep
    cases hstep
    exact hd.join hsize hallowed hserved hresult hsegment
  | getIterator name =>
    obtain ⟨⟨registry, node, resp⟩, hserved, hstep⟩ := Option.bind_eq_some_iff.mp hstep
    obtain ⟨handle, hresult, hstep⟩ := Option.bind_eq_some_iff.mp hstep
    cases hstep
    exact hd.getIterator hallowed hserved hresult
  | writer name ring =>
    obtain ⟨w, hw, rfl⟩ := Option.map_eq_some_iff.mp hstep
    exact hd.writer_step hw
  | nic name ring =>
    obtain ⟨⟨m, w, made⟩, hnic, rfl⟩ := Option.map_eq_some_iff.mp hstep
    exact hd.nic_step hallowed hnic
  | iterator name action =>
    obtain ⟨c, hc, hstep⟩ := Option.bind_eq_some_iff.mp hstep
    obtain ⟨⟨m, iterator, events⟩, hiterator, hstep⟩ := Option.bind_eq_some_iff.mp hstep
    cases hstep
    exact hd.iterator_step hc (fun hpc h hh => hallowed c hc hpc h hh) hiterator

/-- A step is a served request or the move of one party. -/
theorem Deployed.step_cases (hsize : memSize < sizeTBound) (hd : d.Deployed memSize)
    {label : DeploymentLabel} (hallowed : d.Allowed (RemoteNode.nodesAt dpiNodes connection) label)
    (hstep : d.step (RemoteNode.nodesAt dpiNodes connection) label = some d') :
    Served memSize d d'.registry d'.node ∨
      (∃ name i w, label = .writer name i ∧ d' = d.setWriter name i w) ∨
      (∃ name i m w made, label = .nic name i ∧
        BufferWriter.machine.option.nic d.mem (d.writers name i) = some (m, w, made) ∧
        d' = (d.setWriter name i w).setMem m) ∨
      ∃ name action c m iterator events, label = .iterator name action ∧
        d.consumers name = some c ∧
        c.iterator.step c.buffertype d.mem action = some (m, iterator, events) ∧
        d' = (d.setConsumer name { c with iterator, log := c.log ++ events }).setMem m := by
  cases label with
  | request req =>
    obtain ⟨⟨registry, node, resp⟩, hserved, rfl⟩ := Option.map_eq_some_iff.mp hstep
    exact Or.inl (hd.served hsize hallowed hserved)
  | joinBuffer name internalBufferSize messages =>
    obtain ⟨⟨registry, node, resp⟩, hserved, hstep⟩ := Option.bind_eq_some_iff.mp hstep
    obtain ⟨handle, hresult, hstep⟩ := Option.bind_eq_some_iff.mp hstep
    obtain ⟨segment, hsegment, hstep⟩ := Option.bind_eq_some_iff.mp hstep
    cases hstep
    exact Or.inl (hd.served_call hsize hserved)
  | getIterator name =>
    obtain ⟨⟨registry, node, resp⟩, hserved, hstep⟩ := Option.bind_eq_some_iff.mp hstep
    obtain ⟨handle, hresult, hstep⟩ := Option.bind_eq_some_iff.mp hstep
    cases hstep
    exact Or.inl (hd.served_call hsize hserved)
  | writer name ring =>
    obtain ⟨w, hw, rfl⟩ := Option.map_eq_some_iff.mp hstep
    exact Or.inr (Or.inl ⟨name, ring, w, rfl, rfl⟩)
  | nic name ring =>
    obtain ⟨⟨m, w, made⟩, hnic, rfl⟩ := Option.map_eq_some_iff.mp hstep
    exact Or.inr (Or.inr (Or.inl ⟨name, ring, m, w, made, rfl, hnic, rfl⟩))
  | iterator name action =>
    obtain ⟨c, hc, hstep⟩ := Option.bind_eq_some_iff.mp hstep
    obtain ⟨⟨m, iterator, events⟩, hiterator, hstep⟩ := Option.bind_eq_some_iff.mp hstep
    cases hstep
    exact Or.inr (Or.inr (Or.inr ⟨name, action, c, m, iterator, events, rfl, hc, hiterator, rfl⟩))

/-- A registered buffer stays, with the rings it has. -/
theorem Deployed.registered_step (hsize : memSize < sizeTBound) (hd : d.Deployed memSize)
    {label : DeploymentLabel} (hallowed : d.Allowed (RemoteNode.nodesAt dpiNodes connection) label)
    (hstep : d.step (RemoteNode.nodesAt dpiNodes connection) label = some d')
    {handle : BufferHandle} (hhandle : d.registry.retrieveBuffer name = some handle) :
    ∃ segments, d'.registry.retrieveBuffer name = some (handle.push segments) := by
  have hsame : d'.registry = d.registry →
      ∃ segments, d'.registry.retrieveBuffer name = some (handle.push segments) := by
    intro heq
    exact ⟨[], by rw [heq, BufferHandle.push_nil]; exact hhandle⟩
  rcases hd.step_cases hsize hallowed hstep with hserved | ⟨_, _, _, -, rfl⟩ |
    ⟨_, _, _, _, _, -, -, rfl⟩ | ⟨_, _, _, _, _, _, -, -, -, rfl⟩
  · exact (hserved.handles name handle hhandle).2
  · exact hsame rfl
  · exact hsame rfl
  · exact hsame rfl

end Deployment
end DpiLibrary
