import DpiLibrary.Dpi.RingCreation

/-!
# Rings do not share memory

Every entry segment the registry has recorded is a block that the node's allocator
counts as live, and no block is recorded twice. So the rings of all buffers are
apart as the live blocks are, however many registrations and create-ring requests
there were and wherever they stopped.
-/

namespace DpiLibrary

open Schedule

namespace BufferHandle

/-- The bytes of the ring with this entry segment, a latency ring's counter included. -/
def ringSpan (h : BufferHandle) (segment : BufferSegment) : Span :=
  ⟨segment.offset - NodeServer.counterSize h.buffertype,
    NodeServer.counterSize h.buffertype +
      h.segmentsPerWriter * (h.segmentSizes + segmentHeaderSize)⟩

/-- The rings of a buffer. -/
def ringSpans (h : BufferHandle) : List Span := h.entrySegments.map h.ringSpan

/-- Parameters whose ring fits the count field and the address space. -/
def Bounded (h : BufferHandle) : Prop :=
  1 ≤ h.segmentsPerWriter ∧ h.segmentsPerWriter < uint32Bound ∧
    h.segmentsPerWriter * (h.segmentSizes + segmentHeaderSize) + 8 < sizeTBound

@[simp] theorem ringSpans_push (h : BufferHandle) (segments : List BufferSegment) :
    (h.push segments).ringSpans = h.ringSpans ++ segments.map h.ringSpan := by
  simp only [ringSpans, push_entrySegments, List.map_append]
  rfl

theorem Bounded.push {h : BufferHandle} (hb : h.Bounded) (segments : List BufferSegment) :
    (h.push segments).Bounded := hb

theorem Bounded.blockSize_eq {h : BufferHandle} (hb : h.Bounded) :
    h.blockSize = NodeServer.counterSize h.buffertype +
      h.segmentsPerWriter * (h.segmentSizes + segmentHeaderSize) := by
  have hcounter := NodeServer.counterSize_le h.buffertype
  have hfits := hb.2.2
  exact h.blockSize_eq_iff.mpr (Or.inr ⟨hb.2.1, by omega⟩)

theorem Bounded.blockSize_pos {h : BufferHandle} (hb : h.Bounded) : 0 < h.blockSize := by
  have hmul := Nat.mul_le_mul_right (h.segmentSizes + segmentHeaderSize) hb.1
  rw [hb.blockSize_eq]
  unfold segmentHeaderSize at hmul ⊢
  omega

end BufferHandle

/-- The node's allocator accounts for all the spans of a list as live blocks, none of its
blocks being empty. -/
structure Accounts (memSize : ℕ) (node : RemoteNode) (l : List Span) : Prop where
  accounted : node.server.manager.Accounted
  memSize : node.server.manager.memSize = memSize
  nonempty : ∀ offset b, node.server.manager.usedRdmaMem.lookup offset = some b → 0 < b.size
  recorded : l.Subperm (node.server.manager.liveBlocks.map RdmaMem.span)

namespace Accounts

variable {memSize : ℕ} {node node' : RemoteNode} {l l' : List Span} {h : BufferHandle}

theorem subperm (hl : Accounts memSize node l) (hs : l'.Subperm l) : Accounts memSize node l' :=
  ⟨hl.accounted, hl.memSize, hl.nonempty, hs.trans hl.recorded⟩

theorem of_manager_eq (hl : Accounts memSize node l)
    (heq : node'.server.manager = node.server.manager) : Accounts memSize node' l := by
  constructor
  · rw [heq]
    exact hl.accounted
  · rw [heq]
    exact hl.memSize
  · rw [heq]
    exact hl.nonempty
  · rw [heq]
    exact hl.recorded

/-- A block is taken where no live block starts: those have an address of their own. -/
theorem fresh (hl : Accounts memSize node l) (hb : h.Bounded) {offset : ℕ}
    (hc : RingCreated node h offset node') : offset ∉ node.server.manager.usedRdmaMem := by
  intro hmem
  obtain ⟨b, hlook⟩ := RDMAManager.lookup_of_mem hmem
  have hpos := hb.blockSize_pos
  have hfree := hc.taken.cover_pos (x := offset) ⟨le_rfl, by simpa using hpos⟩
  have hlive : 0 < cover (node.server.manager.liveBlocks.map RdmaMem.span) offset := by
    have hmem : b ∈ node.server.manager.liveBlocks := RDMAManager.mem_liveBlocks.mpr ⟨offset, hlook⟩
    refine cover_pos.mpr ⟨b.span, List.mem_map_of_mem hmem, ?_⟩
    have hkey := hl.accounted.keyed offset b hlook
    have hsize := hl.nonempty offset b hlook
    simp only [Span.Contains, RdmaMem.span_start, RdmaMem.span_length]
    omega
  have hle := hl.accounted.cover_free_le offset
  omega

theorem created (hl : Accounts memSize node l) (hb : h.Bounded) {offset : ℕ}
    (hc : RingCreated node h offset node') :
    Accounts memSize node' (⟨offset, h.blockSize⟩ :: l) where
  accounted := hc.taken.accounted hl.accounted
  memSize := hc.taken.memSize.trans hl.memSize
  nonempty o b hlook := by
    rw [hc.taken.used] at hlook
    by_cases ho : o = offset
    · rw [ho, AList.lookup_insert] at hlook
      cases hlook
      exact hb.blockSize_pos
    · rw [AList.lookup_insert_ne ho] at hlook
      exact hl.nonempty o b hlook
  recorded := by
    have hlive := RDMAManager.liveBlocks_insert (b := .ofBlock h.blockSize false offset)
      (hl.fresh hb hc)
    rw [RDMAManager.liveBlocks, hc.taken.used, hlive]
    exact (List.subperm_cons _).mpr hl.recorded

/-- The recorded rings are apart and inside the memory. -/
theorem apart (hl : Accounts memSize node l) : l.Pairwise Span.Apart := by
  have hlive : (node.server.manager.liveBlocks.map RdmaMem.span).Pairwise Span.Apart := by
    have hdisjoint : (node.server.manager.liveBlocks.map RdmaMem.span).Pairwise fun a b =>
        ∀ x, a.Contains x → ¬ b.Contains x := by
      apply disjoint_of_cover
      intro x
      have := hl.accounted.cover_free_le x
      omega
    refine hdisjoint.imp_of_mem ?_
    have hpos : ∀ a ∈ node.server.manager.liveBlocks.map RdmaMem.span, 0 < a.length := by
      intro a ha
      obtain ⟨b, hmem, rfl⟩ := List.mem_map.mp ha
      obtain ⟨offset, hlook⟩ := RDMAManager.mem_liveBlocks.mp hmem
      exact hl.nonempty offset b hlook
    intro a b ha hb h
    exact Span.apart_of_disjoint (hpos a ha) (hpos b hb) h
  obtain ⟨l', hperm, hsub⟩ := hl.recorded
  exact (hperm.pairwise_iff fun h => h.symm).mp (hlive.sublist hsub)

theorem inside (hl : Accounts memSize node l) : ∀ a ∈ l, a.Inside memSize := by
  intro a ha
  obtain ⟨b, hmem, rfl⟩ := List.mem_map.mp (hl.recorded.subset ha)
  obtain ⟨offset, hlook⟩ := RDMAManager.mem_liveBlocks.mp hmem
  rw [← hl.memSize]
  exact hl.accounted.within.liveBlocks offset b hlook

end Accounts

namespace RegistryServer

variable {dpiNodes : List String} {connection : String} {memSize : ℕ}

def handles (r : RegistryServer) : List BufferHandle := r.bufferHandles.entries.map Sigma.snd

/-- The rings of all registered buffers. -/
def ringSpans (r : RegistryServer) : List Span := r.handles.flatMap BufferHandle.ringSpans

/-- The rings of all buffers share no byte and lie in the memory; a latency ring has its
counter in front. -/
structure Isolated (memSize : ℕ) (r : RegistryServer) : Prop where
  apart : r.ringSpans.Pairwise Span.Apart
  inside : ∀ a ∈ r.ringSpans, a.Inside memSize
  counters : ∀ name h, r.retrieveBuffer name = some h → ∀ segment ∈ h.entrySegments,
    NodeServer.counterSize h.buffertype ≤ segment.offset

/-- A create-ring request, or a registration with bounded parameters. -/
def RingRequest : RegistryRequest → Prop
  | .createRingOnBuffer _ => True
  | .appendBuffer req => req.register = true ∧ req.bufferHandle.Bounded
  | _ => False

theorem ringSpans_setHandle {r : RegistryServer} {name : String} {h : BufferHandle}
    (hname : r.retrieveBuffer name = some h) (h' : BufferHandle) :
    ∃ rest, r.ringSpans.Perm (h.ringSpans ++ rest) ∧
      (r.setHandle name h').ringSpans = h'.ringSpans ++ rest := by
  refine ⟨((r.bufferHandles.erase name).entries.map Sigma.snd).flatMap BufferHandle.ringSpans,
    ?_, ?_⟩
  · have hperm := RDMAManager.entries_erase_perm hname
    exact hperm.flatMap_right BufferHandle.ringSpans
  · simp only [ringSpans, handles, setHandle, AList.entries_insert, AList.erase, List.map_cons,
      List.flatMap_cons]

theorem ringSpans_setHandle_new {r : RegistryServer} {name : String}
    (hname : name ∉ r.bufferHandles) (h : BufferHandle) :
    (r.setHandle name h).ringSpans = h.ringSpans ++ r.ringSpans := by
  simp only [ringSpans, handles, setHandle, AList.entries_insert_of_notMem hname, List.map_cons,
    List.flatMap_cons]

/-- The ring an entry segment stands for is the block it was built in. -/
theorem ringSpan_entrySegment {h : BufferHandle} (hb : h.Bounded) {offset : ℕ}
    (hfits : offset + h.blockSize < sizeTBound) :
    h.ringSpan (entrySegment h offset) = ⟨offset, h.blockSize⟩ ∧
      NodeServer.counterSize h.buffertype ≤ (entrySegment h offset).offset := by
  have hblock := hb.blockSize_eq
  have hentry : (entrySegment h offset).offset =
      offset + NodeServer.counterSize h.buffertype := by
    unfold entrySegment NodeServer.ringEntry
    cases htype : h.buffertype with
    | bw => rfl
    | lat =>
      rw [htype] at hblock
      exact Nat.mod_eq_of_lt (by omega)
  rw [BufferHandle.ringSpan, hentry, Nat.add_sub_cancel, ← hblock]
  exact ⟨rfl, Nat.le_add_left _ _⟩

theorem createRingOnBuffer_accounts (hsize : memSize < sizeTBound) {node node' : RemoteNode}
    {h : BufferHandle} {segment : Option BufferSegment} {l : List Span}
    (hl : Accounts memSize node l) (hb : h.Bounded)
    (hrun : createRingOnBuffer (RemoteNode.nodesAt dpiNodes connection) node h =
      some (node', segment)) :
    Accounts memSize node' (segment.toList.map h.ringSpan ++ l) ∧
      ∀ s ∈ segment, NodeServer.counterSize h.buffertype ≤ s.offset := by
  rcases createRingOnBuffer_cases hrun with ⟨rfl, hmanager⟩ | ⟨offset, rfl, hc⟩
  · exact ⟨hl.of_manager_eq hmanager, by simp⟩
  · have hcreated := hl.created hb hc
    have hinside := hcreated.inside _ List.mem_cons_self
    simp only [Span.Inside] at hinside
    have hfits : offset + h.blockSize < sizeTBound := by omega
    obtain ⟨hspan, hcounter⟩ := ringSpan_entrySegment hb hfits
    constructor
    · simpa [hspan] using hcreated
    · simpa using hcounter

/-- A registration that stops part-way leaves the rings it has created. -/
theorem createRings_accounts (hsize : memSize < sizeTBound) {l : List Span} :
    ∀ {numberAppenders : ℕ} {node node' : RemoteNode} {h h' : BufferHandle} {success : Bool},
      Accounts memSize node (h.ringSpans ++ l) → h.Bounded →
      (∀ s ∈ h.entrySegments, NodeServer.counterSize h.buffertype ≤ s.offset) →
      createRings (RemoteNode.nodesAt dpiNodes connection) numberAppenders node h =
        some (node', h', success) →
      Accounts memSize node' (h'.ringSpans ++ l) ∧ h'.Bounded ∧
        ∀ s ∈ h'.entrySegments, NodeServer.counterSize h'.buffertype ≤ s.offset := by
  intro numberAppenders
  induction numberAppenders with
  | zero =>
    intro node node' h h' success hl hb hcounters hrun
    simp only [createRings, Option.some.injEq, Prod.mk.injEq] at hrun
    obtain ⟨rfl, rfl, -⟩ := hrun
    exact ⟨hl, hb, hcounters⟩
  | succ n ih =>
    intro node node' h h' success hl hb hcounters hrun
    rw [createRings] at hrun
    obtain ⟨⟨node₁, segment⟩, hring, hrest⟩ := Option.bind_eq_some_iff.mp hrun
    obtain ⟨hl₁, hcounter⟩ := createRingOnBuffer_accounts hsize hl hb hring
    cases segment with
    | none =>
      simp only [Option.some.injEq, Prod.mk.injEq] at hrest
      obtain ⟨rfl, rfl, -⟩ := hrest
      exact ⟨hl₁, hb, hcounters⟩
    | some segment =>
      have hpush : Accounts memSize node₁ ((h.push [segment]).ringSpans ++ l) := by
        refine hl₁.subperm (List.Perm.subperm ?_)
        simp only [BufferHandle.ringSpans_push, Option.toList_some, List.map_cons, List.map_nil,
          List.append_assoc, List.singleton_append]
        exact List.perm_middle
      refine ih hpush (hb.push [segment]) ?_ hrest
      intro s hs
      rcases List.mem_append.mp hs with hs | hs
      · exact hcounters s hs
      · rw [List.mem_singleton.mp hs]
        exact hcounter segment rfl

/-- The node accounts for every recorded ring, and the buffers have bounded parameters. -/
structure Placed (memSize : ℕ) (s : RegistryServer × RemoteNode) : Prop where
  accounts : Accounts memSize s.2 s.1.ringSpans
  buffers : ∀ name h, s.1.retrieveBuffer name = some h → h.Bounded ∧
    ∀ segment ∈ h.entrySegments, NodeServer.counterSize h.buffertype ≤ segment.offset

theorem Placed.isolated {s : RegistryServer × RemoteNode} (hs : Placed memSize s) :
    Isolated memSize s.1 :=
  ⟨hs.accounts.apart, hs.accounts.inside, fun name h hh => (hs.buffers name h hh).2⟩

theorem placed_init (memSize : ℕ) (buffer : Mem) (exchanges : List Exchange) :
    Placed memSize (init, RemoteNode.init memSize buffer exchanges) where
  accounts := ⟨RDMAManager.accounted_init memSize, rfl,
    by simp [RemoteNode.init, RDMAManager.init], List.nil_subperm⟩
  buffers name h hh := by simp [retrieveBuffer, init] at hh

theorem placed_serve (hsize : memSize < sizeTBound) {s s' : RegistryServer × RemoteNode}
    {req : RegistryRequest} (hs : Placed memSize s) (hreq : RingRequest req)
    (h : serve (RemoteNode.nodesAt dpiNodes connection) s req = some s') : Placed memSize s' := by
  obtain ⟨⟨r', node', resp⟩, hhandle, rfl⟩ := Option.map_eq_some_iff.mp h
  cases handled_of_handle hhandle with
  | createRingFailed => exact hs
  | createRing name buf node' segment hname hring =>
    obtain ⟨hb, hcounters⟩ := hs.buffers name buf hname
    obtain ⟨rest, hperm, hrings⟩ := ringSpans_setHandle hname (buf.push [segment])
    obtain ⟨hl, hcounter⟩ := createRingOnBuffer_accounts hsize
      (hs.accounts.subperm hperm.symm.subperm) hb hring
    constructor
    · rw [hrings]
      refine hl.subperm (List.Perm.subperm ?_)
      simp only [BufferHandle.ringSpans_push, Option.toList_some, List.map_cons, List.map_nil,
        List.append_assoc, List.singleton_append]
      exact List.perm_middle
    · intro other h' hh'
      rw [retrieveBuffer_setHandle] at hh'
      split_ifs at hh' with heq
      · cases hh'
        refine ⟨hb.push [segment], fun seg hseg => ?_⟩
        rcases List.mem_append.mp hseg with hseg | hseg
        · exact hcounters seg hseg
        · rw [List.mem_singleton.mp hseg]
          exact hcounter segment rfl
      · exact hs.buffers other h' hh'
  | retrieveFailed => exact hs
  | retrieve => exact hs
  | joinFull => exact hreq.elim
  | join => exact hreq.elim
  | nameTaken req hreg hname => exact ⟨hs.accounts, hs.buffers⟩
  | register req node' buf success hreg hname hrings =>
    obtain ⟨hl, hb, hcounters⟩ := createRings_accounts (l := s.1.ringSpans) hsize hs.accounts hreq.2
      (by simp [DPIAppendBufferRequest.bufferHandle]) hrings
    have hlook : (s.1.setHandle req.name req.bufferHandle).retrieveBuffer req.name =
        some req.bufferHandle := by simp
    constructor
    · obtain ⟨rest, hperm, hnew⟩ := ringSpans_setHandle hlook buf
      rw [ringSpans_setHandle_new hname] at hperm
      have hrest : s.1.ringSpans.Perm rest := hperm
      show Accounts memSize node' (((s.1.setHandle req.name req.bufferHandle).setHandle req.name
        buf).ringSpans)
      rw [hnew]
      exact hl.subperm (hrest.symm.append_left _).subperm
    · intro other h' hh'
      simp only [retrieveBuffer_setJoined, retrieveBuffer_setHandle] at hh'
      split_ifs at hh' with heq
      · cases hh'
        exact ⟨hb, hcounters⟩
      · exact hs.buffers other h' hh'
  | append req hreg =>
    rw [hreq.1] at hreg
    cases hreg
  | invalid => exact hreq.elim

/-- After any requests that create rings, answered one after the other, on one node that
nobody else uses. -/
theorem rings_isolated (hsize : memSize < sizeTBound) (buffer : Mem) (exchanges : List Exchange)
    (requests : List RegistryRequest) (hrequests : ∀ req ∈ requests, RingRequest req)
    {s : RegistryServer × RemoteNode}
    (hrun : exec (serve (RemoteNode.nodesAt dpiNodes connection))
      (init, RemoteNode.init memSize buffer exchanges) requests = some s) :
    Isolated memSize s.1 := by
  have hguard : EachStep (serve (RemoteNode.nodesAt dpiNodes connection))
      (fun _ req => RingRequest req) (init, RemoteNode.init memSize buffer exchanges) requests :=
    eachStep_of_forall hrequests
  have hthroughout := EachStep.throughout (I := Placed memSize)
    (fun _ _ _ hs hreq h => placed_serve hsize hs hreq h) requests _
    (placed_init memSize buffer exchanges) hguard
  exact (hthroughout requests s (List.prefix_refl _) hrun).isolated

def registerOneWriter : DPIAppendBufferRequest where
  name := "bw"
  nodeId := 1
  segmentsPerWriter := 2
  numberAppenders := 1
  segmentSizes := 16
  register := true

def registerThreeLatWriters : DPIAppendBufferRequest where
  name := "lat"
  nodeId := 1
  segmentsPerWriter := 2
  numberAppenders := 3
  segmentSizes := 16
  register := true
  buffertype := .lat

/-- Two buffers on one node; there is memory for one of the rings of the second. -/
def twoBufferRequests : List RegistryRequest :=
  [.appendBuffer registerOneWriter, .appendBuffer registerThreeLatWriters,
    .createRingOnBuffer "bw"]

theorem rings_isolated_twoBufferRequests :
    ∃ s, exec (serve (RemoteNode.nodesAt ["127.0.0.1:5400"] "127.0.0.1:5400"))
        (init, RemoteNode.init 250 (fun _ => 0) []) twoBufferRequests = some s ∧
      Isolated 250 s.1 := by
  have hrequests : ∀ req ∈ twoBufferRequests, RingRequest req := by
    intro req hreq
    simp only [twoBufferRequests, List.mem_cons, List.not_mem_nil, or_false] at hreq
    rcases hreq with rfl | rfl | rfl
    · exact ⟨rfl, by unfold BufferHandle.Bounded; decide⟩
    · exact ⟨rfl, by unfold BufferHandle.Bounded; decide⟩
    · trivial
  have hanswered : (exec (serve (RemoteNode.nodesAt ["127.0.0.1:5400"] "127.0.0.1:5400"))
      (init, RemoteNode.init 250 (fun _ => 0) []) twoBufferRequests).isSome = true := by decide
  obtain ⟨s, hs⟩ := Option.isSome_iff_exists.mp hanswered
  exact ⟨s, hs, rings_isolated (by decide) (fun _ => 0) [] twoBufferRequests hrequests hs⟩

end RegistryServer
end DpiLibrary
