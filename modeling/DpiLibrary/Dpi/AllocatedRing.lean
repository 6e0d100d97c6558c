import DpiLibrary.Dpi.RingCreation
import DpiLibrary.Dpi.RingMemory

/-!
# Rings that were answered with success

The size of a ring is computed modulo `2 ^ 64` and says nothing about the headers. An
answer without error therefore means that a block was found, and that the ring lies in
it only if the arithmetic was exact. Then the headers form one cycle through the
segments of the block.
-/

namespace DpiLibrary

/-- Offset stored in the header at `offset`. -/
def nextSegmentAt (m : Mem) (offset : ℕ) : ℕ := (readHeader m offset).nextSegmentOffset

/-- Following the next pointers of a ring passes its slots in turn. -/
theorem RingGeometry.iterate_nextSegmentAt (g : RingGeometry) {m : Mem}
    (hnext : ∀ j, nextSegmentAt m (g.slot j) = g.slot (j + 1)) (k : ℕ) :
    (nextSegmentAt m)^[k] g.entry = g.slot k := by
  induction k with
  | zero => exact g.slot_zero.symm
  | succ k ih => rw [Function.iterate_succ_apply', ih, hnext]

/-- The next pointer in the memory after a header and data have been written. -/
theorem nextSegmentAt_writeBytes (m : Mem) (offset : ℕ) {h : SegmentHeader} (data : List UInt8)
    (hnext : h.nextSegmentOffset < sizeTBound) :
    nextSegmentAt (writeBytes m offset (h.encode ++ data)) offset = h.nextSegmentOffset := by
  apply readWord_of_getElem? hnext
  intro i hi
  have hlen : 8 + i + 1 ≤ (h.encode ++ data).length := by
    rw [List.length_append, h.length_encode, segmentHeaderSize]
    omega
  have hbyte := readBytes_writeBytes_within m offset (8 + i) 1 (h.encode ++ data) hlen
  have hhead := congrArg (fun bytes : List UInt8 => bytes[0]?) hbyte
  rw [getElem?_readBytes _ _ _ _ Nat.one_pos, Nat.add_zero, List.getElem?_take_of_lt Nat.one_pos,
    List.getElem?_drop, Nat.add_zero, h.getElem?_encode_next data hi] at hhead
  rw [← hhead, Nat.add_assoc]

namespace RingGeometry

variable (g : RingGeometry) {m : Mem}

/-- Two slots are the same or have no byte in common. -/
theorem slot_eq_or_apart (p q : ℕ) :
    g.slot q = g.slot p ∨ g.slot p + g.fullSize ≤ g.slot q ∨ g.slot q + g.fullSize ≤ g.slot p := by
  obtain ⟨q', hlo, hhi, hslot⟩ := g.exists_window p q
  rw [← hslot]
  by_cases hqp : q' = p
  · exact Or.inl (by rw [hqp])
  · exact Or.inr (g.slots_apart p ⟨le_rfl, Nat.lt_add_of_pos_right g.segments_pos⟩ ⟨hlo, hhi⟩
      (Ne.symm hqp))

/-- What is stored in a segment beside its next pointer leaves all pointers of the ring as
they are. -/
theorem chain_writeBytes (hnext : ∀ j, nextSegmentAt m (g.slot j) = g.slot (j + 1)) {p offset : ℕ}
    {bytes : List UInt8} (hlo : g.slot p ≤ offset)
    (hhi : offset + bytes.length ≤ g.slot p + g.fullSize)
    (hout : offset + bytes.length ≤ g.slot p + 8 ∨ g.slot p + 16 ≤ offset) (j : ℕ) :
    nextSegmentAt (writeBytes m offset bytes) (g.slot j) = g.slot (j + 1) := by
  rw [← hnext j]
  apply AgreeOn.readWord
  apply agreeOn_writeBytes
  have hapart := g.slot_eq_or_apart p j
  unfold fullSize segmentHeaderSize at *
  omega

/-- A header with the right pointer, sent to a segment alone or with data, leaves all pointers
of the ring as they are. -/
theorem chain_sendHeader (hnext : ∀ j, nextSegmentAt m (g.slot j) = g.slot (j + 1)) {p : ℕ}
    {h : SegmentHeader} (data : List UInt8) (hheader : h.nextSegmentOffset = g.slot (p + 1))
    (hlength : (h.encode ++ data).length ≤ g.fullSize) (j : ℕ) :
    nextSegmentAt (writeBytes m (g.slot p) (h.encode ++ data)) (g.slot j) = g.slot (j + 1) := by
  rw [← hnext j]
  rcases g.slot_eq_or_apart p j with heq | hapart
  · rw [heq, nextSegmentAt_writeBytes m _ data (hheader ▸ g.slot_lt _), hheader, hnext]
  · have hagree : AgreeOn (writeBytes m (g.slot p) (h.encode ++ data)) m (g.slot j)
        segmentHeaderSize := by
      apply agreeOn_writeBytes
      unfold fullSize at hapart hlength
      omega
    rw [nextSegmentAt, hagree.readHeader, nextSegmentAt]

/-- The headers of the ring after one is sent, alone or with data. -/
theorem readHeader_sendHeader {p : ℕ} {h : SegmentHeader} (hfits : h.Fits) (data : List UInt8)
    (hlength : (h.encode ++ data).length ≤ g.fullSize) (j : ℕ) :
    readHeader (writeBytes m (g.slot p) (h.encode ++ data)) (g.slot j) =
      if g.slot j = g.slot p then h else readHeader m (g.slot j) := by
  split_ifs with heq
  · rw [heq, readHeader_writeBytes m _ data hfits]
  · have hapart := (g.slot_eq_or_apart p j).resolve_left heq
    apply AgreeOn.readHeader
    apply agreeOn_writeBytes
    unfold fullSize at hapart hlength
    omega

end RingGeometry

namespace NodeServer

open Schedule

variable {memSize : ℕ} {buffer₀ : Mem} {node : NodeServer}

/-- A request answered without error has got a block of the size asked for, inside the memory. -/
theorem answered_block (h : Reachable serve (init memSize buffer₀) node)
    {segmentsCount segmentsSize : ℕ} {type : Buffertype}
    (hret : (node.handle segmentsCount segmentsSize type).2.2 = .noError) :
    ∃ offset, node.allocatedBlock segmentsCount segmentsSize type =
        ⟨offset, allocateMemorySize segmentsCount segmentsSize type⟩ ∧
      offset + allocateMemorySize segmentsCount segmentsSize type ≤ memSize ∧
      (node.handle segmentsCount segmentsSize type).2.1 = ringEntry type offset ∧
      (node.handle segmentsCount segmentsSize type).1.buffer =
        (initRing node.buffer type offset segmentsCount segmentsSize).1 := by
  obtain ⟨haccounted, hmem⟩ := accounted_reachable h
  rcases node.manager.internalAlloc_taken (allocateMemorySize segmentsCount segmentsSize type) with
    hnone | ⟨offset, hblock, htaken⟩
  · unfold allocateMemorySize at hnone
    simp only [handle, requestMemoryResource, hnone] at hret
    cases hret
  · have hinside := (htaken.accounted haccounted).within.liveBlocks offset _ htaken.lookup
    rw [htaken.memSize, hmem] at hinside
    have hspan : node.allocatedBlock segmentsCount segmentsSize type =
        ⟨offset, allocateMemorySize segmentsCount segmentsSize type⟩ := by
      rw [allocatedBlock, hblock]
      rfl
    unfold allocateMemorySize at hblock
    refine ⟨offset, hspan, hinside, ?_, ?_⟩
    · simp only [handle, requestMemoryResource, hblock, initRing_snd]
      rfl
    · simp only [handle, requestMemoryResource, hblock]
      rfl

/-- The block of a request has room for what was asked for, counted without bound, and the
counter and each header that the handler writes lie in it. -/
structure RingWithinBlock (node : NodeServer) (segmentsCount segmentsSize : ℕ)
    (type : Buffertype) : Prop where
  size : segmentsCount * segmentsSize + counterSize type ≤
    (node.allocatedBlock segmentsCount segmentsSize type).length
  writes : ∀ w ∈ ringWrites type (node.allocatedBlock segmentsCount segmentsSize type).start
    segmentsCount segmentsSize, ∀ x, Writes w x →
      (node.allocatedBlock segmentsCount segmentsSize type).Contains x

/-- Nothing wraps, and a segment has room for its header. -/
def SizesExact (segmentsCount segmentsSize : ℕ) (type : Buffertype) : Prop :=
  segmentsCount * segmentsSize + counterSize type < sizeTBound ∧
    (segmentsCount = 0 ∨ segmentHeaderSize ≤ segmentsSize)

theorem allocateMemorySize_lt (segmentsCount segmentsSize : ℕ) (type : Buffertype) :
    allocateMemorySize segmentsCount segmentsSize type < sizeTBound := Nat.mod_lt _ (by decide)

theorem allocateMemorySize_eq {segmentsCount segmentsSize : ℕ} {type : Buffertype}
    (h : segmentsCount * segmentsSize + counterSize type < sizeTBound) :
    allocateMemorySize segmentsCount segmentsSize type =
      segmentsCount * segmentsSize + counterSize type := by
  have hproduct : segmentsCount * segmentsSize < sizeTBound := by omega
  rw [allocateMemorySize, Nat.mod_eq_of_lt hproduct, Nat.mod_eq_of_lt h]

/-- Each header has room behind the counter exactly when a segment has room for one. -/
theorem headers_fit_iff {segmentsCount segmentsSize counter : ℕ}
    (h : segmentsCount * segmentsSize + counter < sizeTBound) :
    (∀ i < segmentsCount, (counter + i * segmentsSize) % sizeTBound + segmentHeaderSize ≤
        segmentsCount * segmentsSize + counter) ↔
      segmentsCount = 0 ∨ segmentHeaderSize ≤ segmentsSize := by
  have hexact : ∀ i < segmentsCount, (i + 1) * segmentsSize ≤ segmentsCount * segmentsSize ∧
      (counter + i * segmentsSize) % sizeTBound = counter + i * segmentsSize := by
    intro i hi
    have hle := Nat.mul_le_mul_right segmentsSize (Nat.succ_le_of_lt hi)
    rw [Nat.succ_mul] at hle ⊢
    exact ⟨hle, Nat.mod_eq_of_lt (by omega)⟩
  constructor
  · intro hfits
    rcases Nat.eq_zero_or_pos segmentsCount with hzero | hpos
    · exact Or.inl hzero
    · -- the last header is the one that may stick out
      have hlast := hfits (segmentsCount - 1) (by omega)
      have hcount : (segmentsCount - 1 + 1) * segmentsSize = segmentsCount * segmentsSize := by
        rw [Nat.sub_add_cancel hpos]
      rw [(hexact _ (by omega)).2] at hlast
      rw [Nat.succ_mul] at hcount
      exact Or.inr (by omega)
  · rintro (rfl | hsize) i hi
    · omega
    · obtain ⟨hle, hmod⟩ := hexact i hi
      rw [hmod]
      rw [Nat.succ_mul] at hle
      omega

/-- A ring answered without error lies in its block exactly when its size was computed exactly
and its segments have room for their headers. -/
theorem ring_within_block_iff (hsize : memSize < sizeTBound)
    (h : Reachable serve (init memSize buffer₀) node) (segmentsCount segmentsSize : ℕ)
    (type : Buffertype) (hret : (node.handle segmentsCount segmentsSize type).2.2 = .noError) :
    RingWithinBlock node segmentsCount segmentsSize type ↔
      SizesExact segmentsCount segmentsSize type := by
  obtain ⟨offset, hblock, hinside, -, -⟩ := answered_block h hret
  have hend : offset + allocateMemorySize segmentsCount segmentsSize type < sizeTBound := by omega
  constructor
  · rintro ⟨hroom, hheaders⟩
    rw [hblock] at hroom hheaders
    have hlt := allocateMemorySize_lt segmentsCount segmentsSize type
    have hexact : segmentsCount * segmentsSize + counterSize type < sizeTBound :=
      lt_of_le_of_lt hroom hlt
    have hfits := ((ringWrites_subset_iff hend).mp hheaders).2
    rw [allocateMemorySize_eq hexact] at hfits
    exact ⟨hexact, (headers_fit_iff hexact).mp hfits⟩
  · rintro ⟨hexact, hsegment⟩
    have hfits := (headers_fit_iff hexact).mpr hsegment
    have hmemory := allocateMemorySize_eq hexact
    constructor
    · rw [hblock, hmemory]
    · rw [hblock]
      apply (ringWrites_subset_iff hend).mpr
      rw [hmemory]
      exact ⟨Nat.le_add_left _ _, hfits⟩

theorem latencyRing_within_block :
    RingWithinBlock (init 200 fun _ => 0) 2 40 .lat := by
  apply (ring_within_block_iff (by decide) (Reachable.refl _) 2 40 .lat (by decide)).mpr
  exact ⟨by decide, Or.inr (by decide)⟩

/-- With its counter, a latency ring of one segment of `2 ^ 64 - 8` bytes comes out as zero bytes.
The request is answered without error; the counter and the header are in the node's memory and
behind the block. -/
theorem product_wraps :
    ((init 100 fun _ => 0).handle 1 (2 ^ 64 - 8) .lat).2.2 = .noError ∧
      ¬ RingWithinBlock (init 100 fun _ => 0) 1 (2 ^ 64 - 8) .lat := by
  refine ⟨by decide, fun h => ?_⟩
  have hroom := h.size
  revert hroom
  decide

/-- A cycle of free segments in a block, the segments `segmentsSize` bytes apart. For a latency
ring their number is in the eight bytes in front. -/
structure WellFormedRing (m : Mem) (block : Span) (type : Buffertype)
    (entry segmentsCount segmentsSize : ℕ) : Prop where
  walk : ∀ k, (nextSegmentAt m)^[k] entry = entry + k % segmentsCount * segmentsSize
  distinct : ∀ k < segmentsCount, ∀ k' < segmentsCount,
    (nextSegmentAt m)^[k] entry = (nextSegmentAt m)^[k'] entry → k = k'
  returns : (nextSegmentAt m)^[segmentsCount] entry = entry
  inside : ∀ k, block.start ≤ (nextSegmentAt m)^[k] entry ∧
    (nextSegmentAt m)^[k] entry + segmentHeaderSize ≤ block.start + block.length
  header : ∀ k, (readHeader m ((nextSegmentAt m)^[k] entry)).isWriteable = true ∧
    (readHeader m ((nextSegmentAt m)^[k] entry)).isConsumable = false ∧
    (readHeader m ((nextSegmentAt m)^[k] entry)).isEndSegment = false ∧
    (readHeader m ((nextSegmentAt m)^[k] entry)).counter = 0
  counter : type = .lat → entry = block.start + 8 ∧ readWord m (entry - 8) = segmentsCount

/-- What the node writes for a ring, seen through the geometry of the ring. -/
theorem wellFormedRing_initRing (g : RingGeometry) {type : Buffertype} (m : Mem)
    (hcounter : counterSize type ≤ g.entry) :
    WellFormedRing (initRing m type (g.block type).start g.segments g.fullSize).1 (g.block type)
      type g.entry g.segments g.fullSize := by
  have hheader := g.readHeader_initRing (m := m) hcounter
  have hshows := g.shows_initRing (m := m) hcounter
  generalize (initRing m type (g.block type).start g.segments g.fullSize).1 = built
    at hheader hshows
  have hwalk := g.iterate_nextSegmentAt (m := built) fun j => by rw [nextSegmentAt, hheader]; rfl
  constructor
  · exact hwalk
  · intro k hk k' hk' heq
    by_contra hne
    rw [hwalk, hwalk] at heq
    exact g.slot_ne 0 (by omega) (by omega) hne heq
  · rw [hwalk, RingGeometry.slot, Nat.mod_self, Nat.zero_mul, Nat.add_zero]
  · intro k
    have hle := g.le_slot k
    have hend := g.slot_add_fullSize_le k
    rw [hwalk]
    simp only [RingGeometry.block]
    unfold RingGeometry.fullSize at hend ⊢
    omega
  · intro k
    rw [hwalk, hheader]
    simp [RingGeometry.freeHeader, SegmentHeader.isWriteable, SegmentHeader.isConsumable,
      SegmentHeader.isEndSegment]
  · rintro rfl
    have hword := hshows.counter rfl
    have hlt := Nat.mod_eq_of_lt (lt_of_le_of_lt (Nat.le_mul_of_pos_right g.segments
      (show 0 < g.segmentSize + segmentHeaderSize by unfold segmentHeaderSize; omega))
      (lt_of_le_of_lt (Nat.le_add_left _ g.entry) g.fits))
    simp only [counterSize] at hcounter
    refine ⟨by simp only [RingGeometry.block, counterSize]; omega, ?_⟩
    rw [hword, LaggedRing.empty_released, Nat.add_zero, hlt]

/-- The ring of a request with sizes that do not wrap and segments with room for a header, if it
is answered without error. -/
theorem answered_geometry (hsize : memSize < sizeTBound)
    (h : Reachable serve (init memSize buffer₀) node) {segmentsCount segmentsSize : ℕ}
    {type : Buffertype} (hcount : 1 ≤ segmentsCount) (hsegment : 24 ≤ segmentsSize)
    (hexact : segmentsCount * segmentsSize + 8 < sizeTBound)
    (hret : (node.handle segmentsCount segmentsSize type).2.2 = .noError) :
    ∃ g : RingGeometry, g.entry = (node.handle segmentsCount segmentsSize type).2.1 ∧
      g.segments = segmentsCount ∧ g.fullSize = segmentsSize ∧ counterSize type ≤ g.entry ∧
      g.block type = node.allocatedBlock segmentsCount segmentsSize type ∧
      (node.handle segmentsCount segmentsSize type).1.buffer =
        (initRing node.buffer type (g.block type).start g.segments g.fullSize).1 := by
  obtain ⟨offset, hblock, hinside, hentry, hbuffer⟩ := answered_block h hret
  have hcounter := counterSize_le type
  have hmemory : allocateMemorySize segmentsCount segmentsSize type =
      segmentsCount * segmentsSize + counterSize type := allocateMemorySize_eq (by omega)
  have hfull : segmentsSize - 24 + segmentHeaderSize = segmentsSize := Nat.sub_add_cancel hsegment
  let g : RingGeometry :=
    { entry := offset + counterSize type
      segments := segmentsCount
      segmentSize := segmentsSize - 24
      segments_pos := hcount
      fits := by
        rw [hfull]
        omega }
  have hspan : g.block type = ⟨offset, allocateMemorySize segmentsCount segmentsSize type⟩ := by
    rw [RingGeometry.block, RingGeometry.fullSize, hfull, hmemory, Nat.add_sub_cancel,
      Nat.add_comm (counterSize type)]
  have hring : g.entry = ringEntry type offset := by
    cases type with
    | bw => rfl
    | lat =>
      have hlt : offset + counterSize .lat < sizeTBound := by omega
      exact (Nat.mod_eq_of_lt hlt).symm
  refine ⟨g, hring.trans hentry.symm, rfl, hfull, Nat.le_add_left _ _, hspan.trans hblock.symm, ?_⟩
  rw [hbuffer, hspan, RingGeometry.fullSize, hfull]

theorem allocated_ring_wellFormed (hsize : memSize < sizeTBound)
    (h : Reachable serve (init memSize buffer₀) node) {segmentsCount segmentsSize : ℕ}
    (type : Buffertype) (hcount : 1 ≤ segmentsCount) (hsegment : 24 ≤ segmentsSize)
    (hexact : segmentsCount * segmentsSize + 8 < sizeTBound)
    (hret : (node.handle segmentsCount segmentsSize type).2.2 = .noError) :
    WellFormedRing (node.handle segmentsCount segmentsSize type).1.buffer
      (node.allocatedBlock segmentsCount segmentsSize type) type
      (node.handle segmentsCount segmentsSize type).2.1 segmentsCount segmentsSize := by
  obtain ⟨g, hentry, hsegments, hfull, hcounter, hblock, hbuffer⟩ :=
    answered_geometry hsize h hcount hsegment hexact hret
  rw [hbuffer, ← hentry, ← hblock]
  have hwell := wellFormedRing_initRing g node.buffer hcounter
  rw [hsegments, hfull] at hwell ⊢
  exact hwell

theorem latencyRing_wellFormed :
    WellFormedRing ((init 200 fun _ => 0).handle 2 40 .lat).1.buffer
      ((init 200 fun _ => 0).allocatedBlock 2 40 .lat) .lat
      ((init 200 fun _ => 0).handle 2 40 .lat).2.1 2 40 :=
  allocated_ring_wellFormed (by decide) (Reachable.refl _) .lat (by decide) (by decide)
    (by decide) (by decide)

end NodeServer
end DpiLibrary
