import DpiLibrary.Dpi.RingCreation
import DpiLibrary.Dpi.RingMemory

/-!
# The shape of a ring, told and built

The registry tells writers and readers how many segments a ring has and how large
they are. The node has built what was left of these numbers in the message and
after its own arithmetic. Both agree exactly when nothing was cut off.
-/

namespace DpiLibrary

open Schedule

/-- A ring of the node: a live block with room for exactly the counter and the segments,
each of which points at the next. -/
structure NodeServer.IsRing (server : NodeServer) (entry segmentsCount segmentSize : ℕ)
    (type : Buffertype) : Prop where
  block : ∃ offset b, server.manager.usedRdmaMem.lookup offset = some b ∧
    entry = offset + NodeServer.counterSize type ∧
    b.size = NodeServer.counterSize type + segmentsCount * (segmentSize + segmentHeaderSize)
  next : ∀ i < segmentsCount,
    (readHeader server.buffer (entry + i * (segmentSize + segmentHeaderSize))).nextSegmentOffset =
      entry + (i + 1) % segmentsCount * (segmentSize + segmentHeaderSize)

/-- What becomes of a ring built in the block at `offset`, whatever is built afterwards. -/
structure Built (node : RemoteNode) (h : BufferHandle) (offset : ℕ) : Prop where
  record : node.server.manager.usedRdmaMem.lookup offset =
    some (.ofBlock h.blockSize false offset)
  unavailable : ∀ x, (Span.mk offset h.blockSize).Contains x →
    cover (node.server.manager.rdmaMem.map RdmaMem.span) x = 0
  headers : ∀ g : RingGeometry, g.entry = offset + NodeServer.counterSize h.buffertype →
    g.segments = h.segmentsPerWriter → g.segmentSize = h.segmentSizes → h.Fits →
    ∀ j, readHeader node.server.buffer (g.slot j) = g.freeHeader j

/-- The entry segments of the handle play no part. -/
theorem built_push {node : RemoteNode} {h : BufferHandle} {segments : List BufferSegment}
    {offset : ℕ} : Built node (h.push segments) offset ↔ Built node h offset := by
  constructor
  · rintro ⟨hrecord, hunavailable, hheaders⟩
    exact ⟨hrecord, hunavailable, hheaders⟩
  · rintro ⟨hrecord, hunavailable, hheaders⟩
    exact ⟨hrecord, hunavailable, hheaders⟩

/-- A node whose allocator is in order and whose memory ends inside the address space. -/
structure Sound (node : RemoteNode) : Prop where
  accounted : node.server.manager.Accounted
  memSize : node.server.manager.memSize < sizeTBound

variable {node node' : RemoteNode} {h : BufferHandle} {offset offset' : ℕ}

theorem Sound.created (hs : Sound node) (hc : RingCreated node h offset node') : Sound node' := by
  constructor
  · exact hc.taken.accounted hs.accounted
  · rw [hc.taken.memSize]
    exact hs.memSize

theorem Sound.block_lt (hs : Sound node) (hb : Built node h offset) :
    offset + h.blockSize < sizeTBound := by
  have hinside := hs.accounted.within.liveBlocks offset _ hb.record
  simp only [Span.Inside, RdmaMem.span, RdmaMem.ofBlock] at hinside
  have hsize := hs.memSize
  omega

/-- The block of a geometry is the one the ring was built in. -/
theorem block_eq {g : RingGeometry}
    (hentry : g.entry = offset + NodeServer.counterSize h.buffertype)
    (hsegments : g.segments = h.segmentsPerWriter) (hsize : g.segmentSize = h.segmentSizes)
    (hfits : h.Fits) : g.block h.buffertype = ⟨offset, h.blockSize⟩ := by
  have hblock := h.blockSize_eq_iff.mpr (Or.inr hfits)
  rw [RingGeometry.block, RingGeometry.fullSize, hentry, hsegments, hsize, Nat.add_sub_cancel,
    hblock]

/-- The memory after a ring was built, seen through its geometry. -/
theorem RingCreated.buffer_eq (hc : RingCreated node h offset node') {g : RingGeometry}
    (hentry : g.entry = offset + NodeServer.counterSize h.buffertype)
    (hsegments : g.segments = h.segmentsPerWriter) (hsize : g.segmentSize = h.segmentSizes)
    (hfits : h.Fits) : node'.server.buffer =
      (NodeServer.initRing node.server.buffer h.buffertype (g.block h.buffertype).start g.segments
        g.fullSize).1 := by
  have hfull : h.segmentSizes + segmentHeaderSize < sizeTBound := by
    have hmul := Nat.mul_le_mul_right (g.segmentSize + segmentHeaderSize) g.segments_pos
    have hfits := g.fits
    rw [← hsize]
    omega
  rw [hc.buffer, block_eq hentry hsegments hsize hfits, hsegments, RingGeometry.fullSize, hsize,
    Nat.mod_eq_of_lt hfits.1, Nat.mod_eq_of_lt hfull]

theorem built_of_created (hs : Sound node) (hc : RingCreated node h offset node') :
    Built node' h offset where
  record := hc.taken.lookup
  unavailable _ hx := hc.taken.cover_eq_zero hs.accounted hx
  headers g hentry hsegments hsize hfits j := by
    rw [hc.buffer_eq hentry hsegments hsize hfits]
    exact g.readHeader_initRing (by omega) j

/-- A ring built later is given addresses that were still free. -/
theorem Built.apart (hb : Built node h offset) (hc : RingCreated node h offset' node')
    (hpos : 0 < h.blockSize) :
    (Span.mk offset h.blockSize).Apart ⟨offset', h.blockSize⟩ := by
  refine Span.apart_of_disjoint hpos hpos fun x hx hx' => ?_
  have hfree := hc.taken.cover_pos hx'
  have hnone := hb.unavailable x hx
  omega

theorem Built.created (hs : Sound node) (hb : Built node h offset)
    (hc : RingCreated node h offset' node') : Built node' h offset where
  record := by
    rw [hc.taken.used]
    by_cases heq : offset = offset'
    · rw [heq, AList.lookup_insert]
    · rw [AList.lookup_insert_ne heq]
      exact hb.record
  unavailable x hx := by
    have hle := hc.taken.cover_le x
    have hnone := hb.unavailable x hx
    omega
  headers g hentry hsegments hsize hfits j := by
    have hb' := built_of_created hs hc
    have hlt := (hs.created hc).block_lt hb'
    have hblock := h.blockSize_eq_iff.mpr (Or.inr hfits)
    -- the geometry of the new ring
    let g' : RingGeometry :=
      { entry := offset' + NodeServer.counterSize h.buffertype
        segments := h.segmentsPerWriter
        segmentSize := h.segmentSizes
        segments_pos := hsegments ▸ g.segments_pos
        fits := by omega }
    have hspan : g.block h.buffertype = ⟨offset, h.blockSize⟩ :=
      block_eq hentry hsegments hsize hfits
    have hspan' : g'.block h.buffertype = ⟨offset', h.blockSize⟩ := block_eq rfl rfl rfl hfits
    have hle := g.le_slot j
    have hend := g.slot_add_fullSize_le j
    have hlength : h.blockSize = NodeServer.counterSize h.buffertype + g.segments * g.fullSize := by
      rw [hblock, RingGeometry.fullSize, hsegments, hsize]
    have hpos : 0 < h.blockSize := by
      unfold RingGeometry.fullSize segmentHeaderSize at hend hlength
      omega
    have hapart := hb.apart hc hpos
    simp only [Span.Apart] at hapart
    have hout : g.slot j + segmentHeaderSize ≤ (g'.block h.buffertype).start ∨
        (g'.block h.buffertype).start + (g'.block h.buffertype).length ≤ g.slot j := by
      rw [hspan']
      unfold RingGeometry.fullSize at hend hlength
      simp only
      omega
    have hagree := RingGeometry.agreeOn_initRing (m := node.server.buffer) g'
      (Nat.le_add_left _ _) hout
    rw [hc.buffer_eq (g := g') rfl rfl rfl hfits, hagree.readHeader]
    exact hb.headers g hentry hsegments hsize hfits j

/-- The handle describes a ring that was built for it exactly when nothing was cut off. -/
theorem isRing_iff (hs : Sound node) (hb : Built node h offset) :
    node.server.IsRing (RegistryServer.entrySegment h offset).offset h.segmentsPerWriter
        h.segmentSizes h.buffertype ↔ h.segmentsPerWriter = 0 ∨ h.Fits := by
  have hlt := hs.block_lt hb
  have hentry : (RegistryServer.entrySegment h offset).offset =
      offset + NodeServer.counterSize h.buffertype ∨
        ∀ offset', (RegistryServer.entrySegment h offset).offset ≠
          offset' + NodeServer.counterSize h.buffertype := by
    unfold RegistryServer.entrySegment NodeServer.ringEntry
    cases h.buffertype with
    | bw => exact Or.inl rfl
    | lat =>
      simp only [NodeServer.counterSize, sizeTBound] at hlt ⊢
      rcases Nat.lt_or_ge (offset + 8) (2 ^ 64) with hsmall | hwrap
      · exact Or.inl (Nat.mod_eq_of_lt hsmall)
      · refine Or.inr fun offset' => ?_
        omega
  rw [← h.blockSize_eq_iff]
  constructor
  · rintro ⟨⟨o, b, hlook, hoffset, hsize⟩, -⟩
    have heq : (RegistryServer.entrySegment h offset).offset =
        offset + NodeServer.counterSize h.buffertype :=
      hentry.resolve_right fun hne => hne o hoffset
    have ho : o = offset := by omega
    rw [ho, hb.record] at hlook
    cases hlook
    exact hsize
  · intro hblock
    have heq : (RegistryServer.entrySegment h offset).offset =
        offset + NodeServer.counterSize h.buffertype := by
      unfold RegistryServer.entrySegment NodeServer.ringEntry
      cases htype : h.buffertype with
      | bw => rfl
      | lat =>
        rw [htype] at hblock
        exact Nat.mod_eq_of_lt (by omega)
    refine ⟨⟨offset, _, hb.record, heq, hblock⟩, fun i hi => ?_⟩
    have hfits : h.Fits := (h.blockSize_eq_iff.mp hblock).resolve_left (by omega)
    let g : RingGeometry :=
      { entry := offset + NodeServer.counterSize h.buffertype
        segments := h.segmentsPerWriter
        segmentSize := h.segmentSizes
        segments_pos := by omega
        fits := by omega }
    have hslot : g.slot i = offset + NodeServer.counterSize h.buffertype +
        i * (h.segmentSizes + segmentHeaderSize) := by
      have hmod : i % g.segments = i := Nat.mod_eq_of_lt hi
      rw [RingGeometry.slot, hmod]
      rfl
    have hheader := hb.headers g rfl rfl rfl hfits i
    rw [heq, ← hslot, hheader]
    rfl

namespace RegistryServer

variable {dpiNodes : List String} {connection : String}

/-- A registration that gets all its rings: they are the segments of its handle, and each of
them is still there in the end. -/
theorem createRings_built :
    ∀ {numberAppenders : ℕ} {node node' : RemoteNode} {h h' : BufferHandle}, Sound node →
      createRings (RemoteNode.nodesAt dpiNodes connection) numberAppenders node h =
        some (node', h', true) →
      Sound node' ∧ (∀ offset, Built node h offset → Built node' h offset) ∧
        ∃ offsets : List ℕ, offsets.length = numberAppenders ∧
          h' = h.push (offsets.map (entrySegment h)) ∧
          ∀ offset ∈ offsets, Built node' h offset := by
  intro numberAppenders
  induction numberAppenders with
  | zero =>
    intro node node' h h' hs hrun
    simp only [createRings, Option.some.injEq, Prod.mk.injEq] at hrun
    obtain ⟨rfl, rfl, -⟩ := hrun
    exact ⟨hs, fun _ hb => hb, [], rfl, by simp, by simp⟩
  | succ n ih =>
    intro node node' h h' hs hrun
    rw [createRings] at hrun
    obtain ⟨⟨node₁, segment⟩, hring, hrest⟩ := Option.bind_eq_some_iff.mp hrun
    rcases createRingOnBuffer_cases hring with ⟨rfl, -⟩ | ⟨offset, rfl, hc⟩
    · simp at hrest
    · -- the handle that the loop goes on with has the same parameters
      have hrest' : createRings (RemoteNode.nodesAt dpiNodes connection) n node₁
          (h.push [entrySegment h offset]) = some (node', h', true) := hrest
      obtain ⟨hs', hkeep, offsets, hlength, rfl, hbuilt⟩ := ih (hs.created hc) hrest'
      have hkeep' : ∀ o, Built node₁ h o → Built node' h o :=
        fun o hb => built_push.mp (hkeep o (built_push.mpr hb))
      refine ⟨hs', fun o hb => hkeep' o (hb.created hs hc), offset :: offsets, by simp [hlength],
        by simp, fun o ho => ?_⟩
      rcases List.mem_cons.mp ho with rfl | ho
      · exact hkeep' o (built_of_created hs hc)
      · exact built_push.mp (hbuilt o ho)

/-- The numbers of a registration that creates rings survive the message and the node's
arithmetic. -/
def Described (req : DPIAppendBufferRequest) : Prop :=
  req.numberAppenders = 0 ∨ req.segmentsPerWriter = 0 ∨
    (req.segmentsPerWriter < uint32Bound ∧
      req.segmentsPerWriter * (req.segmentSizes + segmentHeaderSize) +
        NodeServer.counterSize req.buffertype < sizeTBound)

/-- The rings a successful registration reports have the shape it reports, whatever the
state of the node was, exactly when the request meets `Described`. -/
theorem register_describes_rings_iff {memSize : ℕ} (hsize : memSize < sizeTBound)
    {buffer₀ : Mem} {server : NodeServer}
    (hreach : Reachable NodeServer.serve (NodeServer.init memSize buffer₀) server)
    (exchanges : List Exchange) {r r' : RegistryServer} {node' : RemoteNode}
    {req : DPIAppendBufferRequest} (hreg : req.register = true)
    (hhandle : handle (RemoteNode.nodesAt dpiNodes connection) r ⟨server, exchanges⟩
      (.appendBuffer req) = some (r', node', .appendBuffer .noError)) :
    (∃ h, r'.retrieveBuffer req.name = some h ∧ ∀ segment ∈ h.entrySegments,
        node'.server.IsRing segment.offset h.segmentsPerWriter h.segmentSizes h.buffertype) ↔
      Described req := by
  obtain ⟨haccounted, hmem⟩ := NodeServer.accounted_reachable hreach
  have hs : Sound ⟨server, exchanges⟩ := ⟨haccounted, by rw [hmem]; exact hsize⟩
  generalize hresp : RegistryResponse.appendBuffer .noError = resp at hhandle
  cases handled_of_handle hhandle with
  | nameTaken req hreg hname => cases hresp
  | append req hfalse =>
    rw [hreg] at hfalse
    cases hfalse
  | register req node' buf success hreg hname hrings =>
    cases success with
    | false => cases hresp
    | true =>
      obtain ⟨hs', -, offsets, hlength, rfl, hbuilt⟩ := createRings_built hs hrings
      have hstored : (((r.setHandle req.name req.bufferHandle).setHandle req.name
          (req.bufferHandle.push (offsets.map (entrySegment req.bufferHandle)))).setJoined req.name
            0).retrieveBuffer req.name =
          some (req.bufferHandle.push (offsets.map (entrySegment req.bufferHandle))) := by simp
      have hiff : ∀ o ∈ offsets, node'.server.IsRing (entrySegment req.bufferHandle o).offset
          req.segmentsPerWriter req.segmentSizes req.buffertype ↔
            req.segmentsPerWriter = 0 ∨ req.bufferHandle.Fits :=
        fun o ho => isRing_iff hs' (hbuilt o ho)
      have hsegments : (req.bufferHandle.push
          (offsets.map (entrySegment req.bufferHandle))).entrySegments =
            offsets.map (entrySegment req.bufferHandle) := rfl
      constructor
      · rintro ⟨h, hh, hall⟩
        rw [hstored] at hh
        cases hh
        rcases Nat.eq_zero_or_pos req.numberAppenders with hzero | hpos
        · exact Or.inl hzero
        · obtain ⟨o, ho⟩ := List.exists_mem_of_length_pos (hlength ▸ hpos)
          apply Or.inr
          apply (hiff o ho).mp
          apply hall
          rw [hsegments]
          exact List.mem_map_of_mem ho
      · intro hdescribed
        refine ⟨_, hstored, fun segment hsegment => ?_⟩
        rw [hsegments] at hsegment
        obtain ⟨o, ho, rfl⟩ := List.mem_map.mp hsegment
        rcases hdescribed with hzero | hfits
        · rw [hzero] at hlength
          rw [List.eq_nil_of_length_eq_zero hlength] at ho
          cases ho
        · exact (hiff o ho).mpr hfits

def registerTwoLatWriters : DPIAppendBufferRequest where
  name := "buffer"
  nodeId := 1
  segmentsPerWriter := 2
  numberAppenders := 2
  segmentSizes := 16
  register := true
  buffertype := .lat

theorem register_describes_rings_two :
    ∃ r' node', handle (RemoteNode.nodesAt ["127.0.0.1:5400"] "127.0.0.1:5400") init
        (RemoteNode.init 300 (fun _ => 0) []) (.appendBuffer registerTwoLatWriters) =
        some (r', node', .appendBuffer .noError) ∧
      ∃ h, r'.retrieveBuffer "buffer" = some h ∧ ∀ segment ∈ h.entrySegments,
        node'.server.IsRing segment.offset h.segmentsPerWriter h.segmentSizes h.buffertype := by
  have hanswer : (handle (RemoteNode.nodesAt ["127.0.0.1:5400"] "127.0.0.1:5400") init
      (RemoteNode.init 300 (fun _ => 0) []) (.appendBuffer registerTwoLatWriters)).map
        (fun served => served.2.2) = some (.appendBuffer .noError) := by decide
  obtain ⟨⟨r', node', resp⟩, hhandle, rfl⟩ := Option.map_eq_some_iff.mp hanswer
  refine ⟨r', node', hhandle, ?_⟩
  exact (register_describes_rings_iff (by decide) (Reachable.refl _) [] rfl hhandle).mpr
    (Or.inr (Or.inr ⟨by decide, by decide⟩))

/-- One segment more than the count field can carry. -/
def registerLongRing : DPIAppendBufferRequest where
  name := "buffer"
  nodeId := 1
  segmentsPerWriter := 2 ^ 32 + 1
  numberAppenders := 1
  segmentSizes := 16
  register := true

/-- The node builds a ring of one segment, in 40 bytes, and the registry reports one of
`2 ^ 32 + 1` segments. -/
theorem count_cut_off :
    ¬ ∀ r' node', handle (RemoteNode.nodesAt ["127.0.0.1:5400"] "127.0.0.1:5400") init
        (RemoteNode.init 100 (fun _ => 0) []) (.appendBuffer registerLongRing) =
        some (r', node', .appendBuffer .noError) →
      ∃ h, r'.retrieveBuffer "buffer" = some h ∧ ∀ segment ∈ h.entrySegments,
        node'.server.IsRing segment.offset h.segmentsPerWriter h.segmentSizes h.buffertype := by
  intro hall
  have hanswer : (handle (RemoteNode.nodesAt ["127.0.0.1:5400"] "127.0.0.1:5400") init
      (RemoteNode.init 100 (fun _ => 0) []) (.appendBuffer registerLongRing)).map
        (fun served => ((served.1.retrieveBuffer "buffer"),
          served.2.1.server.manager.usedRdmaMem.lookup 0, served.2.2)) =
      some (some (registerLongRing.bufferHandle.push [⟨0, 16⟩]), some (.ofBlock 40 false 0),
        .appendBuffer .noError) := by decide
  obtain ⟨⟨r', node', resp⟩, hhandle, heq⟩ := Option.map_eq_some_iff.mp hanswer
  simp only [Prod.mk.injEq] at heq
  obtain ⟨hstored, hlook, rfl⟩ := heq
  obtain ⟨h, hh, hrings⟩ := hall r' node' hhandle
  rw [hstored] at hh
  cases hh
  obtain ⟨⟨o, b, hb, hentry, hsize⟩, -⟩ := hrings ⟨0, 16⟩ (by simp)
  have ho : o = 0 := by
    simp only at hentry
    omega
  rw [ho, hlook] at hb
  cases hb
  exact absurd hsize (by decide)

end RegistryServer
end DpiLibrary
