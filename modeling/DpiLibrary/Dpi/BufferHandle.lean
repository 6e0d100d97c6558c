import DpiLibrary.Rdma.Manager

/-!
# Buffer handles and registry messages

A buffer handle names a buffer and lists the entry segments of its rings. The
registry's requests and responses carry the fields of the message definitions; a
field that a failing branch leaves unset has its default value.
-/

namespace DpiLibrary

/-- Entry segment of one ring; the size is that of the data portion. -/
structure BufferSegment where
  offset : ℕ
  size : ℕ
  deriving DecidableEq, Repr

inductive Buffertype where
  | bw
  | lat
  deriving DecidableEq, Repr

structure BufferHandle where
  name : String
  nodeId : ℕ
  entrySegments : List BufferSegment
  segmentsPerWriter : ℕ
  numberOfWriters : ℕ
  segmentSizes : ℕ
  buffertype : Buffertype
  deriving DecidableEq, Repr

/-- Size of a segment header: counter, offset of the next segment and flags. -/
def segmentHeaderSize : ℕ := 24

inductive MessageErrors where
  | noError
  | invalidMessage
  | memoryNotAvailable
  | memoryReleaseFailed
  | dpiCreateRingOnBufFailed
  | dpiRtrvBuffhandleFailed
  | dpiAppendBuffhandleFailed
  | dpiRegisterBuffhandleFailed
  | dpiJoinBufferFailed
  deriving DecidableEq, Repr

/-- Fields of `DPIAppendBufferRequest` that the registry reads. -/
structure DPIAppendBufferRequest where
  name : String
  nodeId : ℕ := 0
  segment : List BufferSegment := []
  segmentsPerWriter : ℕ := 0
  numberAppenders : ℕ := 0
  segmentSizes : ℕ := 0
  register : Bool := false
  buffertype : Buffertype := .bw
  deriving DecidableEq, Repr

inductive RegistryRequest where
  | createRingOnBuffer (name : String)
  | retrieveBuffer (name : String) (isAppender : Bool)
  | appendBuffer (req : DPIAppendBufferRequest)
  | other
  deriving DecidableEq, Repr

structure DPICreateRingOnBufferResponse where
  name : String := ""
  nodeId : ℕ := 0
  segment : Option BufferSegment := none
  segmentsPerWriter : ℕ := 0
  segmentSizes : ℕ := 0
  ret : MessageErrors
  deriving DecidableEq, Repr

structure DPIRetrieveBufferResponse where
  name : String := ""
  nodeId : ℕ := 0
  segment : List BufferSegment := []
  segmentsPerWriter : ℕ := 0
  segmentSizes : ℕ := 0
  buffertype : Buffertype := .bw
  ret : MessageErrors
  deriving DecidableEq, Repr

inductive RegistryResponse where
  | createRingOnBuffer (resp : DPICreateRingOnBufferResponse)
  | retrieveBuffer (resp : DPIRetrieveBufferResponse)
  | appendBuffer (ret : MessageErrors)
  | error (ret : MessageErrors)
  deriving DecidableEq, Repr

end DpiLibrary
