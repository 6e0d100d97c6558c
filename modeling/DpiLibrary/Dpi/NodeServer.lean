import DpiLibrary.Dpi.SegmentHeader

/-!
# The node server

A ring is one block of the node's registered memory: `segmentsCount` segments of
`segmentsSize` bytes, each with a header that points at the next one. A latency
ring has its credit counter in the eight bytes in front of the first segment.
-/

namespace DpiLibrary

/-- The registered memory of a node with its allocator. Offsets past the memory have bytes too:
that a write there may end the process is left out. -/
structure NodeServer where
  manager : RDMAManager
  buffer : Mem

namespace NodeServer

def requestMemoryResource (node : NodeServer) (size : ℕ) : NodeServer × ℕ × MessageErrors :=
  let (manager, memRes) := node.manager.internalAlloc size
  ({ node with manager }, memRes.offset,
    if memRes.isnull then .memoryNotAvailable else .noError)

def counterSize : Buffertype → ℕ
  | .bw => 0
  | .lat => 8

/-- Header of segment `i` of a ring whose first segment is at `offset`. -/
def initialHeader (offset segmentsCount segmentsSize i : ℕ) : SegmentHeader :=
  let lastSegment := i + 1 = segmentsCount
  let nextSegOffset :=
    if lastSegment then offset else (offset + (i + 1) * segmentsSize) % sizeTBound
  (SegmentHeader.mk 0 nextSegOffset 0).setWriteable true

/-- Body of the loop over the segments. -/
def writeInitialHeader (offset segmentsCount segmentsSize : ℕ) (m : Mem) (i : ℕ) : Mem :=
  writeHeader m ((offset + i * segmentsSize) % sizeTBound)
    (initialHeader offset segmentsCount segmentsSize i)

def initHeaders (m : Mem) (offset segmentsCount segmentsSize : ℕ) : Mem :=
  (List.range segmentsCount).foldl (writeInitialHeader offset segmentsCount segmentsSize) m

/-- What the handler writes for a ring in the block at `offset`: the counter of a latency
ring and the headers. Returns the offset of the first segment too. -/
def initRing (m : Mem) (type : Buffertype) (offset segmentsCount segmentsSize : ℕ) : Mem × ℕ :=
  match type with
  | .bw => (initHeaders m offset segmentsCount segmentsSize, offset)
  | .lat =>
    let m := writeWord m offset segmentsCount
    let offset := (offset + counterSize .lat) % sizeTBound
    (initHeaders m offset segmentsCount segmentsSize, offset)

/-- The handler of `DPIAllocSegmentsRequest`. The ring is written whatever the
allocation answered. -/
def handle (node : NodeServer) (segmentsCount segmentsSize : ℕ) (type : Buffertype) :
    NodeServer × ℕ × MessageErrors :=
  let allocateMemorySize :=
    (segmentsCount * segmentsSize % sizeTBound + counterSize type) % sizeTBound
  let (node, offset, ret) := node.requestMemoryResource allocateMemorySize
  let (buffer, offset) := initRing node.buffer type offset segmentsCount segmentsSize
  ({ node with buffer }, offset, ret)

end NodeServer
end DpiLibrary
