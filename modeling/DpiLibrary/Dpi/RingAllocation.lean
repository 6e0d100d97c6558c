import DpiLibrary.Dpi.NodeServer
import DpiLibrary.Rdma.MemoryClients

/-!
# What a ring allocation writes

The handler of `DPIAllocSegmentsRequest` writes a counter and headers at addresses
that it computes from the request, whatever the allocator answered. All of these
bytes lie in the block just allocated exactly when the block was allocated, no
address wrapped and every segment has room for its header.
-/

namespace DpiLibrary

open Schedule

/-- What changes a node: the messages it handles, and what clients write into its memory. -/
inductive NodeEvent where
  | allocSegments (segmentsCount segmentsSize : ℕ) (type : Buffertype)
  | memoryResource (reqMsg : MemoryResourceRequest)
  | remoteWrite (buffer : Mem)

namespace NodeServer

def init (memSize : ℕ) (buffer : Mem) : NodeServer := ⟨.init memSize, buffer⟩

def serve (node : NodeServer) : NodeEvent → Option NodeServer
  | .allocSegments segmentsCount segmentsSize type =>
    some (node.handle segmentsCount segmentsSize type).1
  | .memoryResource reqMsg =>
    some { node with manager := (RDMAServer.handle node.manager reqMsg).1 }
  | .remoteWrite buffer => some { node with buffer }

theorem counterSize_le (type : Buffertype) : counterSize type ≤ 8 := by
  cases type <;> decide

/-- Size of the block that the handler asks the allocator for. -/
def allocateMemorySize (segmentsCount segmentsSize : ℕ) (type : Buffertype) : ℕ :=
  (segmentsCount * segmentsSize % sizeTBound + counterSize type) % sizeTBound

/-- The block a request allocates; it has no bytes if the allocation fails. -/
def allocatedBlock (node : NodeServer) (segmentsCount segmentsSize : ℕ) (type : Buffertype) :
    Span :=
  (node.manager.internalAlloc (allocateMemorySize segmentsCount segmentsSize type)).2.span

/-- Every byte outside the block that a request allocates is unchanged. -/
def TouchesOwnBlock (node : NodeServer) (segmentsCount segmentsSize : ℕ) (type : Buffertype) :
    Prop :=
  ∀ x, ¬ (node.allocatedBlock segmentsCount segmentsSize type).Contains x →
    (node.handle segmentsCount segmentsSize type).1.buffer x = node.buffer x

/-- The allocator has room and the block of the ring has room for the counter and for
each header, at the place computed for it. -/
def RingFits (m : RDMAManager) (segmentsCount segmentsSize : ℕ) (type : Buffertype) : Prop :=
  let size := allocateMemorySize segmentsCount segmentsSize type
  if ∃ b ∈ m.rdmaMem, size ≤ b.size then
    counterSize type ≤ size ∧ ∀ i < segmentsCount,
      (counterSize type + i * segmentsSize) % sizeTBound + segmentHeaderSize ≤ size
  else type = .bw ∧ segmentsCount = 0

/-- The block writes of the handler. -/
def ringWrites (type : Buffertype) (offset segmentsCount segmentsSize : ℕ) :
    List (ℕ × List UInt8) :=
  let headers := fun entry => (List.range segmentsCount).map fun i =>
    ((entry + i * segmentsSize) % sizeTBound,
      (initialHeader entry segmentsCount segmentsSize i).encode)
  match type with
  | .bw => headers offset
  | .lat => (offset, encodeLE 8 segmentsCount) :: headers ((offset + counterSize .lat) % sizeTBound)

theorem initHeaders_eq_writeAll (m : Mem) (offset segmentsCount segmentsSize : ℕ) :
    initHeaders m offset segmentsCount segmentsSize =
      writeAll m ((List.range segmentsCount).map fun i =>
        ((offset + i * segmentsSize) % sizeTBound,
          (initialHeader offset segmentsCount segmentsSize i).encode)) := by
  rw [writeAll, List.foldl_map]
  rfl

theorem initRing_eq_writeAll (m : Mem) (type : Buffertype) (offset segmentsCount segmentsSize : ℕ) :
    (initRing m type offset segmentsCount segmentsSize).1 =
      writeAll m (ringWrites type offset segmentsCount segmentsSize) := by
  cases type with
  | bw => exact initHeaders_eq_writeAll m offset segmentsCount segmentsSize
  | lat => exact initHeaders_eq_writeAll _ _ segmentsCount segmentsSize

theorem handle_buffer (node : NodeServer) (segmentsCount segmentsSize : ℕ) (type : Buffertype) :
    (node.handle segmentsCount segmentsSize type).1.buffer =
      writeAll node.buffer (ringWrites type
        (node.allocatedBlock segmentsCount segmentsSize type).start segmentsCount segmentsSize) :=
  initRing_eq_writeAll node.buffer type _ segmentsCount segmentsSize

theorem accounted_serve {node node' : NodeServer} {e : NodeEvent}
    (hm : node.manager.Accounted) (h : node.serve e = some node') :
    node'.manager.Accounted ∧ node'.manager.memSize = node.manager.memSize := by
  cases e with
  | allocSegments segmentsCount segmentsSize type =>
    cases h
    exact ⟨hm.alloc _, RDMAManager.memSize_internalAlloc _ _⟩
  | memoryResource reqMsg =>
    cases h
    obtain ⟨size, offset, type⟩ := reqMsg
    cases type with
    | memoryResourceRequest => exact ⟨hm.alloc size, RDMAManager.memSize_internalAlloc _ _⟩
    | memoryResourceRelease => exact ⟨hm.free offset, RDMAManager.memSize_internalFree _ _⟩
    | other => exact ⟨hm, rfl⟩
  | remoteWrite buffer =>
    cases h
    exact ⟨hm, rfl⟩

theorem accounted_reachable {memSize : ℕ} {buffer₀ : Mem} {node : NodeServer}
    (h : Reachable serve (init memSize buffer₀) node) :
    node.manager.Accounted ∧ node.manager.memSize = memSize := by
  refine h.invariant (I := fun n => n.manager.Accounted ∧ n.manager.memSize = memSize)
    ⟨RDMAManager.accounted_init memSize, rfl⟩ ?_
  rintro n e n' ⟨hm, hmem⟩ hstep
  obtain ⟨hm', hmem'⟩ := accounted_serve hm hstep
  exact ⟨hm', hmem'.trans hmem⟩

/-- The addresses of a word or header at distance `d` from the start of a block that does
not reach the end of the address space. -/
theorem writes_subset_iff {start length d : ℕ} (bs : List UInt8)
    (hend : start + length < sizeTBound) (hd : d < sizeTBound) (hpos : 0 < bs.length) :
    (∀ x, Writes ((start + d) % sizeTBound, bs) x → (Span.mk start length).Contains x) ↔
      d + bs.length ≤ length := by
  unfold Writes Span.Contains
  constructor
  · intro h
    have hfirst := h ((start + d) % sizeTBound) ⟨le_rfl, by simp only; omega⟩
    have hlast := h ((start + d) % sizeTBound + (bs.length - 1)) ⟨by simp, by simp only; omega⟩
    simp only [sizeTBound] at *
    omega
  · rintro hle x ⟨hlo, hhi⟩
    simp only [sizeTBound] at *
    omega

theorem ringWrites_subset_iff {start length segmentsCount segmentsSize : ℕ} {type : Buffertype}
    (hend : start + length < sizeTBound) :
    (∀ w ∈ ringWrites type start segmentsCount segmentsSize, ∀ x, Writes w x →
        (Span.mk start length).Contains x) ↔
      counterSize type ≤ length ∧ ∀ i < segmentsCount,
        (counterSize type + i * segmentsSize) % sizeTBound + segmentHeaderSize ≤ length := by
  have haddr : ∀ i, (start + (counterSize type + i * segmentsSize) % sizeTBound) % sizeTBound =
      ((start + counterSize type) % sizeTBound + i * segmentsSize) % sizeTBound := by
    intro i
    rw [Nat.add_mod_mod, Nat.mod_add_mod, Nat.add_assoc]
  have hheader : ∀ i, (∀ x, Writes (((start + counterSize type) % sizeTBound + i * segmentsSize)
        % sizeTBound, (initialHeader ((start + counterSize type) % sizeTBound) segmentsCount
          segmentsSize i).encode) x → (Span.mk start length).Contains x) ↔
      (counterSize type + i * segmentsSize) % sizeTBound + segmentHeaderSize ≤ length := by
    intro i
    rw [← haddr i,
      writes_subset_iff _ hend (Nat.mod_lt _ (by decide)) (by simp [segmentHeaderSize]),
      SegmentHeader.length_encode]
  cases type with
  | bw =>
    have hstart : start % sizeTBound = start := Nat.mod_eq_of_lt (by omega)
    simp only [counterSize, Nat.add_zero, hstart] at hheader
    simp [ringWrites, counterSize, hheader]
  | lat =>
    have hcounter : (∀ x, Writes (start, encodeLE 8 segmentsCount) x →
        (Span.mk start length).Contains x) ↔ 8 ≤ length := by
      have h := writes_subset_iff (d := 0) (encodeLE 8 segmentsCount) hend (by decide) (by simp)
      rw [Nat.add_zero, Nat.mod_eq_of_lt (by omega), Nat.zero_add, length_encodeLE] at h
      exact h
    simp only [ringWrites, List.forall_mem_cons, List.forall_mem_map, List.mem_range]
    exact and_congr hcounter (forall₂_congr fun i _ => hheader i)

/-- Nothing is written only if there is neither a counter nor a header. -/
theorem ringWrites_empty_iff (type : Buffertype) (start segmentsCount segmentsSize : ℕ) :
    (∀ w ∈ ringWrites type start segmentsCount segmentsSize, ∀ x, ¬ Writes w x) ↔
      type = .bw ∧ segmentsCount = 0 := by
  constructor
  · intro h
    cases type with
    | bw =>
      refine ⟨rfl, ?_⟩
      by_contra hne
      exact h _ (List.mem_map_of_mem (List.mem_range.mpr (Nat.pos_of_ne_zero hne))) _
        ⟨le_rfl, by simp [segmentHeaderSize]⟩
    | lat => exact absurd ⟨le_rfl, by simp⟩ (h _ List.mem_cons_self start)
  · rintro ⟨rfl, rfl⟩
    simp [ringWrites]

/-- Whatever the memory holds, ring allocation changes nothing outside the block it
allocates, exactly when the ring fits. -/
theorem touchesOwnBlock_iff {memSize : ℕ} (hsize : memSize < sizeTBound) {buffer₀ : Mem}
    {node : NodeServer} (h : Reachable serve (init memSize buffer₀) node)
    (segmentsCount segmentsSize : ℕ) (type : Buffertype) :
    (∀ buffer, TouchesOwnBlock { node with buffer } segmentsCount segmentsSize type) ↔
      RingFits node.manager segmentsCount segmentsSize type := by
  obtain ⟨haccounted, hmem⟩ := accounted_reachable h
  have hm := haccounted.within
  have hframe : (∀ buffer, TouchesOwnBlock { node with buffer } segmentsCount segmentsSize type) ↔
      ∀ w ∈ ringWrites type (node.allocatedBlock segmentsCount segmentsSize type).start
        segmentsCount segmentsSize, ∀ x, Writes w x →
          (node.allocatedBlock segmentsCount segmentsSize type).Contains x := by
    rw [← writeAll_frame_iff]
    simp only [TouchesOwnBlock, handle_buffer]
    exact Iff.rfl
  rw [hframe]
  have hnone := hm.servedFrom_eq_none (allocateMemorySize segmentsCount segmentsSize type)
  rcases node.manager.internalAlloc_servedFrom (allocateMemorySize segmentsCount segmentsSize type)
    with ⟨hserved, halloc⟩ | ⟨pre, b, post, hserved, hsplit, -, hle, halloc⟩
  · have hblock : node.allocatedBlock segmentsCount segmentsSize type = ⟨0, 0⟩ := by
      rw [allocatedBlock, halloc]
      rfl
    rw [RingFits, if_neg (hnone.mp hserved), hblock,
      ← ringWrites_empty_iff type 0 segmentsCount segmentsSize]
    simp [Span.Contains]
  · have hblock : node.allocatedBlock segmentsCount segmentsSize type =
        ⟨b.offset, allocateMemorySize segmentsCount segmentsSize type⟩ := by
      rw [allocatedBlock, halloc]
      rfl
    have hroom : ∃ b ∈ node.manager.rdmaMem,
        allocateMemorySize segmentsCount segmentsSize type ≤ b.size := ⟨b, by simp [hsplit], hle⟩
    have hb := (hm.freeBlocks b (by simp [hsplit])).2
    simp only [Span.Inside, RdmaMem.span_start, RdmaMem.span_length] at hb
    have hend : b.offset + allocateMemorySize segmentsCount segmentsSize type < sizeTBound := by
      omega
    rw [RingFits, if_pos hroom, hblock]
    exact ringWrites_subset_iff hend

/-- A node with one ring of two segments of 16 bytes. -/
def oneRingNode : NodeServer := ((init 200 fun _ => 0).handle 2 40 .bw).1

theorem oneRingNode_latencyRing : TouchesOwnBlock oneRingNode 2 40 .lat := by
  have hreachable : Reachable serve (init 200 fun _ => 0) oneRingNode :=
    ⟨[.allocSegments 2 40 .bw], rfl⟩
  have hfits : RingFits oneRingNode.manager 2 40 .lat := by
    unfold RingFits
    decide
  exact (touchesOwnBlock_iff (by decide) hreachable 2 40 .lat).mpr hfits oneRingNode.buffer

/-- A second ring finds no memory, and its headers land in the first one: segment 0 of that
ring is now followed by byte 72. -/
theorem failed_allocation_overwrites_ring :
    Reachable serve (init 200 fun _ => 0) oneRingNode ∧ ¬ TouchesOwnBlock oneRingNode 2 72 .bw := by
  constructor
  · exact ⟨[.allocSegments 2 40 .bw], rfl⟩
  · intro h
    have hbyte := h 8 (by decide)
    revert hbyte
    decide

end NodeServer
end DpiLibrary
