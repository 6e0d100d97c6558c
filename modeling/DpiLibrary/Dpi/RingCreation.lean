import DpiLibrary.Dpi.RegistryRuns
import DpiLibrary.Dpi.RingAllocation

/-!
# From a request of the registry to a block of the node

The registry adds the header size to the segment size, the message has 32 bits for
the count and the node computes modulo `2 ^ 64`. What comes out of all this is
one block: the lemmas here say which one, for one ring and for all the rings of
a registration.
-/

namespace DpiLibrary

namespace RemoteNode

/-- A configuration of which one node is looked at; rings on the other nodes are refused. -/
def nodesAt (dpiNodes : List String) (connection : String) : Nodes RemoteNode where
  dpiNodes
  remoteAllocSegments node conn _ count size type :=
    if conn = connection then node.remoteAllocSegments count size type else (node, none)

end RemoteNode

namespace NodeServer

/-- Offset of the first segment of a ring in the block at `offset`. -/
def ringEntry (type : Buffertype) (offset : ℕ) : ℕ :=
  match type with
  | .bw => offset
  | .lat => (offset + counterSize .lat) % sizeTBound

theorem initRing_snd (m : Mem) (type : Buffertype) (offset segmentsCount segmentsSize : ℕ) :
    (initRing m type offset segmentsCount segmentsSize).2 = ringEntry type offset := by
  cases type <;> rfl

/-- A request finds no block, or a ring is built in the block taken. -/
theorem handle_cases (node : NodeServer) (segmentsCount segmentsSize : ℕ) (type : Buffertype) :
    (node.handle segmentsCount segmentsSize type).1.manager = node.manager ∧
        (node.handle segmentsCount segmentsSize type).2.2 = .memoryNotAvailable ∨
      ∃ offset, RDMAManager.Taken node.manager (allocateMemorySize segmentsCount segmentsSize type)
          offset (node.handle segmentsCount segmentsSize type).1.manager ∧
        (node.handle segmentsCount segmentsSize type).1.buffer =
          (initRing node.buffer type offset segmentsCount segmentsSize).1 ∧
        (node.handle segmentsCount segmentsSize type).2 = (ringEntry type offset, .noError) := by
  rcases node.manager.internalAlloc_taken (allocateMemorySize segmentsCount segmentsSize type) with
    h | ⟨offset, hblock, htaken⟩
  · unfold allocateMemorySize at h
    apply Or.inl
    simp only [handle, requestMemoryResource, h]
    exact ⟨trivial, rfl⟩
  · refine Or.inr ⟨offset, htaken, ?_⟩
    unfold allocateMemorySize at hblock
    simp only [handle, requestMemoryResource, hblock, initRing_snd]
    exact ⟨rfl, rfl⟩

end NodeServer

/-- Size of the block that a ring for this buffer is given. -/
def BufferHandle.blockSize (h : BufferHandle) : ℕ :=
  NodeServer.allocateMemorySize (h.segmentsPerWriter % uint32Bound)
    ((h.segmentSizes + segmentHeaderSize) % sizeTBound) h.buffertype

/-- Nothing is cut off on the way from the handle to the allocator. -/
def BufferHandle.Fits (h : BufferHandle) : Prop :=
  h.segmentsPerWriter < uint32Bound ∧
    h.segmentsPerWriter * (h.segmentSizes + segmentHeaderSize) +
      NodeServer.counterSize h.buffertype < sizeTBound

theorem BufferHandle.blockSize_eq_iff (h : BufferHandle) :
    h.blockSize = NodeServer.counterSize h.buffertype +
        h.segmentsPerWriter * (h.segmentSizes + segmentHeaderSize) ↔
      h.segmentsPerWriter = 0 ∨ h.Fits := by
  have hcounter := NodeServer.counterSize_le h.buffertype
  have hbound : 8 < sizeTBound := by decide
  unfold blockSize NodeServer.allocateMemorySize Fits
  constructor
  · intro heq
    have hlt := Nat.mod_lt (h.segmentsPerWriter % uint32Bound *
      ((h.segmentSizes + segmentHeaderSize) % sizeTBound) % sizeTBound +
        NodeServer.counterSize h.buffertype) (show 0 < sizeTBound by omega)
    rw [heq] at hlt
    rcases Nat.eq_zero_or_pos h.segmentsPerWriter with hzero | hpos
    · exact Or.inl hzero
    · refine Or.inr ⟨?_, by omega⟩
      by_contra hcount
      -- the ring that was asked for is longer than all that the count field can ask for
      have hle : h.segmentsPerWriter % uint32Bound *
          ((h.segmentSizes + segmentHeaderSize) % sizeTBound) ≤
            h.segmentsPerWriter % uint32Bound * (h.segmentSizes + segmentHeaderSize) :=
        Nat.mul_le_mul_left _ (Nat.mod_le _ _)
      have hcut : h.segmentsPerWriter % uint32Bound < h.segmentsPerWriter := by
        have := Nat.mod_lt h.segmentsPerWriter (show 0 < uint32Bound by decide)
        omega
      have hless := Nat.mul_lt_mul_of_pos_right hcut
        (show 0 < h.segmentSizes + segmentHeaderSize by unfold segmentHeaderSize; omega)
      have hmod := Nat.mod_le (h.segmentsPerWriter % uint32Bound *
        ((h.segmentSizes + segmentHeaderSize) % sizeTBound)) sizeTBound
      have hsum := Nat.mod_le (h.segmentsPerWriter % uint32Bound *
        ((h.segmentSizes + segmentHeaderSize) % sizeTBound) % sizeTBound +
          NodeServer.counterSize h.buffertype) sizeTBound
      omega
  · rintro (hzero | ⟨hcount, hfits⟩)
    · rw [hzero, Nat.zero_mod, Nat.zero_mul, Nat.zero_mul, Nat.zero_mod, Nat.zero_add, Nat.add_zero,
        Nat.mod_eq_of_lt (by omega)]
    · rcases Nat.eq_zero_or_pos h.segmentsPerWriter with hzero | hpos
      · rw [hzero, Nat.zero_mod, Nat.zero_mul, Nat.zero_mul, Nat.zero_mod, Nat.zero_add,
          Nat.add_zero, Nat.mod_eq_of_lt (by omega)]
      · have hsegment : h.segmentSizes + segmentHeaderSize < sizeTBound := by
          have hmul := Nat.mul_le_mul_right (h.segmentSizes + segmentHeaderSize) hpos
          omega
        have hproduct : h.segmentsPerWriter * (h.segmentSizes + segmentHeaderSize) % sizeTBound =
            h.segmentsPerWriter * (h.segmentSizes + segmentHeaderSize) :=
          Nat.mod_eq_of_lt (by omega)
        rw [Nat.mod_eq_of_lt hcount, Nat.mod_eq_of_lt hsegment, hproduct,
          Nat.mod_eq_of_lt hfits, Nat.add_comm]

/-- A ring for this buffer has been built in a block of the node. -/
structure RingCreated (node : RemoteNode) (h : BufferHandle) (offset : ℕ) (node' : RemoteNode) :
    Prop where
  taken : RDMAManager.Taken node.server.manager h.blockSize offset node'.server.manager
  buffer : node'.server.buffer = (NodeServer.initRing node.server.buffer h.buffertype offset
    (h.segmentsPerWriter % uint32Bound) ((h.segmentSizes + segmentHeaderSize) % sizeTBound)).1

namespace RegistryServer

variable {dpiNodes : List String} {connection : String} {node node' : RemoteNode}

/-- The segment of a ring whose block is at `offset`. -/
def entrySegment (h : BufferHandle) (offset : ℕ) : BufferSegment :=
  ⟨NodeServer.ringEntry h.buffertype offset, h.segmentSizes⟩

@[simp] theorem entrySegment_push (h : BufferHandle) (segments : List BufferSegment) :
    entrySegment (h.push segments) = entrySegment h := rfl

/-- The registry gets a segment exactly for a ring that was built. -/
theorem createRingOnBuffer_cases {h : BufferHandle} {segment : Option BufferSegment}
    (hrun : createRingOnBuffer (RemoteNode.nodesAt dpiNodes connection) node h =
      some (node', segment)) :
    segment = none ∧ node'.server.manager = node.server.manager ∨
      ∃ offset, segment = some (entrySegment h offset) ∧ RingCreated node h offset node' := by
  unfold createRingOnBuffer at hrun
  split_ifs at hrun with hid
  · cases hrun
    exact Or.inl ⟨rfl, rfl⟩
  · obtain ⟨conn, -, hrun⟩ := Option.bind_eq_some_iff.mp hrun
    simp only [RemoteNode.nodesAt, Option.some.injEq, Prod.mk.injEq] at hrun
    obtain ⟨hnode, hsegment⟩ := hrun
    split_ifs at hnode hsegment with hconn
    · have hcases := node.server.handle_cases (h.segmentsPerWriter % uint32Bound)
        ((h.segmentSizes + segmentHeaderSize) % sizeTBound) h.buffertype
      unfold RemoteNode.remoteAllocSegments at hnode hsegment
      cases hfate : node.exchanges.headD .answered with
      | unconnected =>
        simp only [hfate] at hnode hsegment
        rw [← hnode, ← hsegment]
        exact Or.inl ⟨rfl, rfl⟩
      | answered =>
        simp only [hfate] at hnode hsegment
        rw [← hnode, ← hsegment]
        rcases hcases with ⟨hmanager, hret⟩ | ⟨offset, htaken, hbuffer, hanswer⟩
        · exact Or.inl ⟨by simp [hret], hmanager⟩
        · exact Or.inr ⟨offset, by simp [hanswer, entrySegment], htaken, hbuffer⟩
    · rw [← hnode, ← hsegment]
      exact Or.inl ⟨rfl, rfl⟩

end RegistryServer
end DpiLibrary
