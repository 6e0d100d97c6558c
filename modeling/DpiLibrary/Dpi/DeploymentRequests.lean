import DpiLibrary.Dpi.Deployment
import DpiLibrary.Dpi.RingShape

/-!
# Requests among running buffers

A request changes the registry and the node's memory while writers and consumers are at work.
Its rings are built in blocks that no other ring has, so the rings that are there keep their
bytes and the new ones are empty. Handles only grow and join counters only rise.
-/

namespace DpiLibrary

variable {dpiNodes : List String} {connection : String} {memSize : ℕ}

namespace BufferHandle

/-- The geometry of the ring with this entry segment. -/
structure Describes (h : BufferHandle) (segment : BufferSegment) (g : RingGeometry) : Prop where
  entry : g.entry = segment.offset
  segments : g.segments = h.segmentsPerWriter
  segmentSize : g.segmentSize = h.segmentSizes

variable {h : BufferHandle} {segment : BufferSegment} {g g' : RingGeometry}

theorem Describes.block_eq (hg : h.Describes segment g) :
    g.block h.buffertype = h.ringSpan segment := by
  rw [RingGeometry.block, RingGeometry.fullSize, hg.entry, hg.segments, hg.segmentSize]
  rfl

theorem Describes.unique (hg : h.Describes segment g) (hg' : h.Describes segment g') : g = g' := by
  obtain ⟨entry, segments, segmentSize, hpos, hfits⟩ := g
  obtain ⟨entry', segments', segmentSize', hpos', hfits'⟩ := g'
  obtain ⟨rfl, rfl, rfl⟩ := hg
  obtain ⟨rfl, rfl, rfl⟩ := hg'
  rfl

/-- A ring that lies in the memory has a geometry. -/
theorem exists_describes (hsize : memSize < sizeTBound) (hb : h.Bounded)
    (hcounter : NodeServer.counterSize h.buffertype ≤ segment.offset)
    (hinside : (h.ringSpan segment).Inside memSize) : ∃ g, h.Describes segment g := by
  simp only [Span.Inside, ringSpan] at hinside
  exact ⟨⟨segment.offset, h.segmentsPerWriter, h.segmentSizes, hb.1, by omega⟩, rfl, rfl, rfl⟩

/-- Memory shows the ring as it is when it has just been built. -/
def ShowsEmpty (h : BufferHandle) (segment : BufferSegment) (m : Mem) : Prop :=
  ∀ g, h.Describes segment g → g.Shows h.buffertype (.empty _ _) .checkEnd m

/-- Segments that are added later play no part. -/
theorem describes_push {segments : List BufferSegment} :
    (h.push segments).Describes segment g ↔ h.Describes segment g :=
  ⟨fun ⟨he, hs, hz⟩ => ⟨he, hs, hz⟩, fun ⟨he, hs, hz⟩ => ⟨he, hs, hz⟩⟩

theorem ShowsEmpty.push {m : Mem} (hempty : h.ShowsEmpty segment m)
    (segments : List BufferSegment) : (h.push segments).ShowsEmpty segment m :=
  fun g hg => hempty g (describes_push.mp hg)

theorem ShowsEmpty.frame {m m' : Mem} (hempty : h.ShowsEmpty segment m)
    (hcounter : NodeServer.counterSize h.buffertype ≤ segment.offset)
    (hagree : AgreeOn m' m (h.ringSpan segment).start (h.ringSpan segment).length) :
    h.ShowsEmpty segment m' := by
  intro g hg
  apply (hempty g hg).frame
  · intro htype
    rw [htype, ← hg.entry] at hcounter
    exact hcounter
  · rw [hg.block_eq]
    exact hagree

end BufferHandle

/-- With room for the block the handler builds its ring there. -/
theorem NodeServer.handle_fits {node : NodeServer} (hm : RDMAManager.WithinMemory node.manager)
    {segmentsCount segmentsSize : ℕ} {type : Buffertype}
    (hroom : ∃ b ∈ node.manager.rdmaMem,
      allocateMemorySize segmentsCount segmentsSize type ≤ b.size) :
    ∃ offset, RDMAManager.Taken node.manager (allocateMemorySize segmentsCount segmentsSize type)
        offset (node.handle segmentsCount segmentsSize type).1.manager ∧
      (node.handle segmentsCount segmentsSize type).1.buffer =
        (initRing node.buffer type offset segmentsCount segmentsSize).1 ∧
      (node.handle segmentsCount segmentsSize type).2 = (ringEntry type offset, .noError) := by
  rcases node.handle_cases segmentsCount segmentsSize type with ⟨-, hret⟩ | htaken
  · exfalso
    rcases node.manager.internalAlloc_servedFrom
      (allocateMemorySize segmentsCount segmentsSize type) with
      ⟨hnone, -⟩ | ⟨pre, b, post, -, -, -, -, halloc⟩
    · exact (hm.servedFrom_eq_none _).mp hnone hroom
    · unfold allocateMemorySize at halloc
      simp only [handle, requestMemoryResource, halloc] at hret
      simp [RdmaMem.ofBlock] at hret
  · exact htaken

namespace RegistryServer

variable {node node' : RemoteNode} {h h' : BufferHandle} {l : List Span}

/-- With room for its block a ring is built, or the node stays as it is. -/
theorem createRingOnBuffer_fits {segment : Option BufferSegment}
    (hm : RDMAManager.WithinMemory node.server.manager)
    (hroom : ∃ b ∈ node.server.manager.rdmaMem, h.blockSize ≤ b.size)
    (hrun : createRingOnBuffer (RemoteNode.nodesAt dpiNodes connection) node h =
      some (node', segment)) :
    segment = none ∧ node'.server = node.server ∨
      ∃ offset, segment = some (entrySegment h offset) ∧ RingCreated node h offset node' := by
  unfold createRingOnBuffer at hrun
  split_ifs at hrun with hid
  · cases hrun
    exact Or.inl ⟨rfl, rfl⟩
  · obtain ⟨conn, -, hrun⟩ := Option.bind_eq_some_iff.mp hrun
    simp only [RemoteNode.nodesAt, Option.some.injEq, Prod.mk.injEq] at hrun
    obtain ⟨hnode, hsegment⟩ := hrun
    split_ifs at hnode hsegment with hconn
    · obtain ⟨offset, htaken, hbuffer, hanswer⟩ := NodeServer.handle_fits hm hroom
      unfold RemoteNode.remoteAllocSegments at hnode hsegment
      cases hfate : node.exchanges.headD .answered with
      | unconnected =>
        simp only [hfate] at hnode hsegment
        rw [← hnode, ← hsegment]
        exact Or.inl ⟨rfl, rfl⟩
      | answered =>
        simp only [hfate] at hnode hsegment
        rw [← hnode, ← hsegment]
        exact Or.inr ⟨offset, by simp [hanswer, entrySegment], htaken, hbuffer⟩
    · rw [← hnode, ← hsegment]
      exact Or.inl ⟨rfl, rfl⟩

/-- What a ring that has been built changes: the bytes of its own block, where it is empty. -/
theorem ringCreated_fresh (hsize : memSize < sizeTBound) (hl : Accounts memSize node l)
    (hb : h.Bounded) {offset : ℕ} (hc : RingCreated node h offset node') :
    (∀ span ∈ l, AgreeOn node'.server.buffer node.server.buffer span.start span.length) ∧
      h.ShowsEmpty (entrySegment h offset) node'.server.buffer := by
  have hcreated := hl.created hb hc
  have hinside := hcreated.inside _ List.mem_cons_self
  simp only [Span.Inside] at hinside
  have hfits : offset + h.blockSize < sizeTBound := by omega
  obtain ⟨hspan, hcounter⟩ := ringSpan_entrySegment hb hfits
  have hinside' : (h.ringSpan (entrySegment h offset)).Inside memSize := by
    rw [hspan]
    exact hinside
  obtain ⟨g, hg⟩ := BufferHandle.exists_describes hsize hb hcounter hinside'
  have hblock := hg.block_eq
  rw [hspan] at hblock
  have hentry : g.entry = offset + NodeServer.counterSize h.buffertype := by
    have hstart := congrArg Span.start hblock
    simp only [RingGeometry.block] at hstart
    rw [← hg.entry] at hcounter
    omega
  have hbuffer := hc.buffer_eq hentry hg.segments hg.segmentSize
    (h.blockSize_eq_iff.mp hb.blockSize_eq |>.resolve_left (by have := hb.1; omega))
  have hcounter' : NodeServer.counterSize h.buffertype ≤ g.entry := hg.entry ▸ hcounter
  constructor
  · intro span hmem
    have hapart := (List.pairwise_cons.mp hcreated.apart).1 span hmem
    rw [hbuffer]
    apply g.agreeOn_initRing hcounter'
    rw [hblock]
    exact hapart.outside
  · intro g' hg'
    rw [hg'.unique hg, hbuffer]
    exact g.shows_initRing hcounter'

/-- What a served request may have done to the memory: the spans given keep their bytes. -/
def Keeps (node node' : RemoteNode) (l : List Span) : Prop :=
  ∀ span ∈ l, AgreeOn node'.server.buffer node.server.buffer span.start span.length

theorem Keeps.trans {node'' : RemoteNode} (h₁ : Keeps node node' l) (h₂ : Keeps node' node'' l) :
    Keeps node node'' l :=
  fun span hmem => (h₂ span hmem).trans (h₁ span hmem)

theorem createRingOnBuffer_fresh (hsize : memSize < sizeTBound) (hl : Accounts memSize node l)
    (hb : h.Bounded) (hroom : ∃ b ∈ node.server.manager.rdmaMem, h.blockSize ≤ b.size)
    {segment : Option BufferSegment}
    (hrun : createRingOnBuffer (RemoteNode.nodesAt dpiNodes connection) node h =
      some (node', segment)) :
    Keeps node node' l ∧ ∀ s ∈ segment, h.ShowsEmpty s node'.server.buffer := by
  rcases createRingOnBuffer_fits hl.accounted.within hroom hrun with
    ⟨rfl, hserver⟩ | ⟨offset, rfl, hc⟩
  · refine ⟨fun span _ => ?_, by simp⟩
    rw [hserver]
    exact AgreeOn.refl _ _ _
  · obtain ⟨hkeeps, hempty⟩ := ringCreated_fresh hsize hl hb hc
    exact ⟨hkeeps, by simpa using hempty⟩

/-- A registration that finds room for its rings: those it has created are empty, and the
others keep their bytes. -/
theorem createRings_fresh (hsize : memSize < sizeTBound) {l : List Span} :
    ∀ {numberAppenders : ℕ} {node node' : RemoteNode} {h h' : BufferHandle} {success : Bool},
      Accounts memSize node (h.ringSpans ++ l) → h.Bounded →
      (∀ s ∈ h.entrySegments, NodeServer.counterSize h.buffertype ≤ s.offset ∧
        h.ShowsEmpty s node.server.buffer) →
      Deployment.RingsFit (RemoteNode.nodesAt dpiNodes connection) numberAppenders node h →
      createRings (RemoteNode.nodesAt dpiNodes connection) numberAppenders node h =
        some (node', h', success) →
      Keeps node node' l ∧ (∃ segments, h' = h.push segments) ∧
        ∀ s ∈ h'.entrySegments, h'.ShowsEmpty s node'.server.buffer := by
  intro numberAppenders
  induction numberAppenders with
  | zero =>
    intro node node' h h' success hl hb hempty hfit hrun
    simp only [createRings, Option.some.injEq, Prod.mk.injEq] at hrun
    obtain ⟨rfl, rfl, -⟩ := hrun
    exact ⟨fun _ _ => AgreeOn.refl _ _ _, ⟨[], by simp⟩, fun s hs => (hempty s hs).2⟩
  | succ n ih =>
    intro node node' h h' success hl hb hempty hfit hrun
    obtain ⟨hroom, hrest⟩ := hfit
    rw [createRings] at hrun
    obtain ⟨⟨node₁, segment⟩, hring, hrun⟩ := Option.bind_eq_some_iff.mp hrun
    obtain ⟨hl₁, hcounter⟩ := createRingOnBuffer_accounts hsize hl hb hring
    obtain ⟨hkeeps, hfresh⟩ := createRingOnBuffer_fresh hsize hl hb hroom hring
    have hold : ∀ s ∈ h.entrySegments, NodeServer.counterSize h.buffertype ≤ s.offset ∧
        h.ShowsEmpty s node₁.server.buffer := by
      intro s hs
      refine ⟨(hempty s hs).1, (hempty s hs).2.frame (hempty s hs).1 (hkeeps (h.ringSpan s) ?_)⟩
      exact List.mem_append_left _ (List.mem_map_of_mem hs)
    have hothers : Keeps node node₁ l :=
      fun span hmem => hkeeps span (List.mem_append_right _ hmem)
    cases segment with
    | none =>
      simp only [Option.some.injEq, Prod.mk.injEq] at hrun
      obtain ⟨rfl, rfl, -⟩ := hrun
      exact ⟨hothers, ⟨[], by simp⟩, fun s hs => (hold s hs).2⟩
    | some segment =>
      have hpush : Accounts memSize node₁ ((h.push [segment]).ringSpans ++ l) := by
        refine hl₁.subperm (List.Perm.subperm ?_)
        simp only [BufferHandle.ringSpans_push, Option.toList_some, List.map_cons, List.map_nil,
          List.append_assoc, List.singleton_append]
        exact List.perm_middle
      have hempty₁ : ∀ s ∈ (h.push [segment]).entrySegments,
          NodeServer.counterSize h.buffertype ≤ s.offset ∧
            h.ShowsEmpty s node₁.server.buffer := by
        intro s hs
        rcases List.mem_append.mp hs with hs | hs
        · exact hold s hs
        · rw [List.mem_singleton.mp hs]
          exact ⟨hcounter segment rfl, hfresh segment rfl⟩
      have hfit₁ := hrest (node₁, some segment) hring segment rfl
      obtain ⟨hkeeps₁, ⟨segments, hsegments⟩, hall⟩ := ih hpush (hb.push [segment])
        (fun s hs => ⟨(hempty₁ s hs).1, (hempty₁ s hs).2.push [segment]⟩) hfit₁ hrun
      exact ⟨hothers.trans hkeeps₁, ⟨segment :: segments, by simp [hsegments]⟩, hall⟩

end RegistryServer
end DpiLibrary
