import Mathlib.Tactic.SplitIfs
import DpiLibrary.Dpi.BufferHandle

/-!
# The registry server

`handle` is a function of the registry, the memory nodes and one request. The
nodes are a parameter: what the registry needs of them is the list of configured
connections and the ring allocation. `none` stands for a request that ends the
server: an access outside a vector or through a null pointer.
-/

namespace DpiLibrary

/-- The memory nodes as the registry sees them. `remoteAllocSegments` answers the
offset of the new ring's entry segment, or nothing when the allocation fails. -/
structure Nodes (ν : Type) where
  dpiNodes : List String
  remoteAllocSegments : ν → (connection bufferName : String) →
    (segmentsCount segmentsSize : ℕ) → Buffertype → ν × Option ℕ

variable {ν : Type}

/-- Node ids count from one; the index is computed in `size_t` and checked by `at`. -/
def Nodes.getIPFromNodeId (nodes : Nodes ν) (nodeId : ℕ) : Option String :=
  nodes.dpiNodes[(nodeId + (sizeTBound - 1)) % sizeTBound]?

structure RegistryServer where
  bufferHandles : AList fun _ : String => BufferHandle
  appendersJoinedBuffer : AList fun _ : String => ℕ
  deriving DecidableEq

namespace RegistryServer

def init : RegistryServer := ⟨∅, ∅⟩

def retrieveBuffer (r : RegistryServer) (name : String) : Option BufferHandle :=
  r.bufferHandles.lookup name

/-- Appenders joined so far; an absent entry reads as zero. -/
def joined (r : RegistryServer) (name : String) : ℕ :=
  (r.appendersJoinedBuffer.lookup name).getD 0

/-- Write a handle back, as the source does through its pointer into the map. -/
def setHandle (r : RegistryServer) (name : String) (h : BufferHandle) : RegistryServer :=
  { r with bufferHandles := r.bufferHandles.insert name h }

def setJoined (r : RegistryServer) (name : String) (n : ℕ) : RegistryServer :=
  { r with appendersJoinedBuffer := r.appendersJoinedBuffer.insert name n }

@[simp] theorem retrieveBuffer_setHandle (r : RegistryServer) (name other : String)
    (h : BufferHandle) : (r.setHandle name h).retrieveBuffer other =
      if other = name then some h else r.retrieveBuffer other := by
  unfold retrieveBuffer setHandle
  split_ifs with heq
  · rw [heq, AList.lookup_insert]
  · exact AList.lookup_insert_ne heq

@[simp] theorem joined_setHandle (r : RegistryServer) (name other : String) (h : BufferHandle) :
    (r.setHandle name h).joined other = r.joined other := rfl

@[simp] theorem retrieveBuffer_setJoined (r : RegistryServer) (name other : String) (n : ℕ) :
    (r.setJoined name n).retrieveBuffer other = r.retrieveBuffer other := rfl

@[simp] theorem joined_setJoined (r : RegistryServer) (name other : String) (n : ℕ) :
    (r.setJoined name n).joined other = if other = name then n else r.joined other := by
  unfold joined setJoined
  split_ifs with heq
  · rw [heq, AList.lookup_insert, Option.getD_some]
  · rw [AList.lookup_insert_ne heq]

theorem mem_bufferHandles {r : RegistryServer} {name : String} :
    name ∈ r.bufferHandles ↔ ∃ h, r.retrieveBuffer name = some h := by
  rw [← AList.lookup_isSome, Option.isSome_iff_exists]
  rfl

def registerBuffer (r : RegistryServer) (h : BufferHandle) : RegistryServer × Bool :=
  if h.name ∈ r.bufferHandles then (r, false) else (r.setHandle h.name h, true)

/-- A ring on the buffer's node; the inner `none` is the null segment. -/
def createRingOnBuffer (nodes : Nodes ν) (node : ν) (h : BufferHandle) :
    Option (ν × Option BufferSegment) :=
  if nodes.dpiNodes.length < h.nodeId then some (node, none)
  else do
    let connection ← nodes.getIPFromNodeId h.nodeId
    let fullSegmentSize := (h.segmentSizes + segmentHeaderSize) % sizeTBound
    let (node, offset) := nodes.remoteAllocSegments node connection h.name h.segmentsPerWriter
      fullSegmentSize h.buffertype
    some (node, offset.map fun offset => ⟨offset, h.segmentSizes⟩)

/-- The loop of a registration: one ring for each appender, until one fails. -/
def createRings (nodes : Nodes ν) : ℕ → ν → BufferHandle → Option (ν × BufferHandle × Bool)
  | 0, node, h => some (node, h, true)
  | numberAppenders + 1, node, h => do
    let (node, segment) ← createRingOnBuffer nodes node h
    match segment with
    | none => some (node, h, false)
    | some segment =>
      createRings nodes numberAppenders node
        { h with entrySegments := h.entrySegments ++ [segment] }

def appendSegment (r : RegistryServer) (name : String) (segment : BufferSegment) :
    RegistryServer × Bool :=
  match r.retrieveBuffer name with
  | none => (r, false)
  | some h => (r.setHandle name { h with entrySegments := h.entrySegments ++ [segment] }, true)

def appendSegments (r : RegistryServer) (name : String) : List BufferSegment → RegistryServer × Bool
  | [] => (r, true)
  | segment :: segments =>
    let (r, success) := r.appendSegment name segment
    if success then r.appendSegments name segments else (r, false)

def handleCreateRing (nodes : Nodes ν) (r : RegistryServer) (node : ν) (name : String) :
    Option (RegistryServer × ν × DPICreateRingOnBufferResponse) :=
  match r.retrieveBuffer name with
  | none => some (r, node, { ret := .dpiCreateRingOnBufFailed })
  | some h => do
    let (node, segment) ← createRingOnBuffer nodes node h
    -- the null segment is dereferenced
    let segment ← segment
    let resp := {
      name
      nodeId := h.nodeId
      segment := some segment
      segmentsPerWriter := h.segmentsPerWriter
      segmentSizes := h.segmentSizes
      ret := .noError }
    some (r.setHandle name { h with entrySegments := h.entrySegments ++ [segment] }, node, resp)

/-- Response of a retrieve or a join that succeeds. -/
def retrieved (name : String) (h : BufferHandle) (segment : List BufferSegment) :
    DPIRetrieveBufferResponse where
  name
  nodeId := h.nodeId
  segment
  segmentsPerWriter := h.segmentsPerWriter
  segmentSizes := h.segmentSizes
  buffertype := h.buffertype
  ret := .noError

def handleRetrieve (r : RegistryServer) (name : String) (isAppender : Bool) :
    Option (RegistryServer × DPIRetrieveBufferResponse) :=
  match r.retrieveBuffer name with
  | none => some (r, { ret := .dpiRtrvBuffhandleFailed })
  | some h =>
    if isAppender then
      let numberAppenders := r.joined name
      if numberAppenders = h.entrySegments.length then
        some (r.setJoined name numberAppenders, { ret := .dpiJoinBufferFailed })
      else do
        let segment ← h.entrySegments[numberAppenders]?
        some (r.setJoined name (numberAppenders + 1), retrieved name h [segment])
    else some (r, retrieved name h h.entrySegments)

def handleRegister (nodes : Nodes ν) (r : RegistryServer) (node : ν)
    (req : DPIAppendBufferRequest) : Option (RegistryServer × ν × MessageErrors) :=
  let buffHandle : BufferHandle := {
    name := req.name
    nodeId := req.nodeId
    entrySegments := []
    segmentsPerWriter := req.segmentsPerWriter
    numberOfWriters := req.numberAppenders
    segmentSizes := req.segmentSizes
    buffertype := req.buffertype }
  let (r, registerSuccess) := r.registerBuffer buffHandle
  if registerSuccess then do
    let (node, buffHandle, registerSuccess) ← createRings nodes req.numberAppenders node buffHandle
    some ((r.setHandle req.name buffHandle).setJoined req.name 0, node,
      if registerSuccess then .noError else .dpiRegisterBuffhandleFailed)
  else some (r.setJoined req.name 0, node, .dpiRegisterBuffhandleFailed)

def handle (nodes : Nodes ν) (r : RegistryServer) (node : ν) :
    RegistryRequest → Option (RegistryServer × ν × RegistryResponse)
  | .createRingOnBuffer name =>
    (handleCreateRing nodes r node name).map fun (r, node, resp) =>
      (r, node, .createRingOnBuffer resp)
  | .retrieveBuffer name isAppender =>
    (r.handleRetrieve name isAppender).map fun (r, resp) => (r, node, .retrieveBuffer resp)
  | .appendBuffer req =>
    if req.register then
      (handleRegister nodes r node req).map fun (r, node, ret) => (r, node, .appendBuffer ret)
    else
      let (r, appendSuccess) := r.appendSegments req.name req.segment
      some (r, node, .appendBuffer
        (if appendSuccess then .noError else .dpiAppendBuffhandleFailed))
  | .other => some (r, node, .error .invalidMessage)

end RegistryServer
end DpiLibrary
