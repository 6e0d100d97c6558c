import DpiLibrary.Dpi.RegistryRuns

/-!
# The registry client

`RegistryClient` sends a request for a buffer and builds a handle from the fields of
the response. The handle mirrors the one the registry stores, except for the type
of the buffer after a create-ring request: its response does not carry the type.
-/

namespace DpiLibrary

open Schedule

variable {ν : Type}

/-- The constructor; the type has a default value. -/
def BufferHandle.create (name : String) (nodeId segmentsPerWriter numberOfWriters segmentSizes : ℕ)
    (buffertype : Buffertype := .bw) : BufferHandle where
  name
  nodeId
  entrySegments := []
  segmentsPerWriter
  numberOfWriters
  segmentSizes
  buffertype

/-- Calls of the client that return a handle. -/
inductive RegistryClient where
  | retrieveBuffer (name : String)
  | joinBuffer (name : String)
  | createSegmentRingOnBuffer (name : String)
  deriving DecidableEq, Repr

namespace RegistryClient

def name : RegistryClient → String
  | .retrieveBuffer name => name
  | .joinBuffer name => name
  | .createSegmentRingOnBuffer name => name

/-- The message sent. -/
def request : RegistryClient → RegistryRequest
  | .retrieveBuffer name => .retrieveBuffer name false
  | .joinBuffer name => .retrieveBuffer name true
  | .createSegmentRingOnBuffer name => .createRingOnBuffer name

/-- The handle built from the response to a retrieve or a join; null without one. -/
def retrieveOrJoinBuffer (name : String) : RegistryResponse → Option BufferHandle
  | .retrieveBuffer resp =>
    if resp.ret = .noError then
      some ((BufferHandle.create name resp.nodeId resp.segmentsPerWriter resp.segment.length
        resp.segmentSizes resp.buffertype).push resp.segment)
    else none
  | _ => none

/-- The handle built from the response to a create-ring request. An absent segment reads as
the default message. -/
def ringHandle (name : String) : RegistryResponse → Option BufferHandle
  | .createRingOnBuffer resp =>
    if resp.ret = .noError then
      some ((BufferHandle.create name resp.nodeId resp.segmentsPerWriter 0 resp.segmentSizes).push
        [resp.segment.getD ⟨0, 0⟩])
    else none
  | _ => none

/-- What the call returns after the response. -/
def result : RegistryClient → RegistryResponse → Option BufferHandle
  | .retrieveBuffer name => retrieveOrJoinBuffer name
  | .joinBuffer name => retrieveOrJoinBuffer name
  | .createSegmentRingOnBuffer name => ringHandle name

/-- The entry segments the registry means to send: all of them, the joined one or the new
one. -/
def meant (r r' : RegistryServer) (stored : BufferHandle) : RegistryClient → List BufferSegment
  | .retrieveBuffer _ => stored.entrySegments
  | .joinBuffer name => stored.entrySegments[r.joined name]?.toList
  | .createSegmentRingOnBuffer name =>
    ((r'.retrieveBuffer name).elim [] BufferHandle.entrySegments).drop stored.entrySegments.length

/-- The client's handle agrees with the stored one and lists these entry segments. -/
structure Mirrors (handle stored : BufferHandle) (segments : List BufferSegment) : Prop where
  name : handle.name = stored.name
  nodeId : handle.nodeId = stored.nodeId
  segmentsPerWriter : handle.segmentsPerWriter = stored.segmentsPerWriter
  segmentSizes : handle.segmentSizes = stored.segmentSizes
  buffertype : handle.buffertype = stored.buffertype
  entrySegments : handle.entrySegments = segments

open RegistryServer

variable {nodes : Nodes ν} {r r' : RegistryServer} {node node' : ν} {resp : RegistryResponse}

/-- A handle built from the response of a retrieve or a join. -/
theorem mirrors_retrieved {name : String} {stored result : BufferHandle}
    (hname : stored.name = name) (segments : List BufferSegment)
    (hresult : retrieveOrJoinBuffer name (.retrieveBuffer (retrieved name stored segments)) =
      some result) : Mirrors result stored segments := by
  simp only [retrieveOrJoinBuffer, retrieved, if_true, Option.some.injEq] at hresult
  subst hresult
  exact ⟨hname.symm, rfl, rfl, rfl, rfl, rfl⟩

/-- A handle built from the response of a create-ring request has the default type. -/
theorem mirrors_ringCreated_iff {name : String} {stored result : BufferHandle}
    (hname : stored.name = name) (segment : BufferSegment)
    (hresult : ringHandle name (.createRingOnBuffer (ringCreated name stored segment)) =
      some result) : Mirrors result stored [segment] ↔ stored.buffertype = .bw := by
  simp only [ringHandle, ringCreated, if_true, Option.some.injEq, Option.getD_some] at hresult
  subst hresult
  constructor
  · intro h
    exact h.buffertype.symm
  · intro htype
    exact ⟨hname.symm, rfl, rfl, rfl, htype.symm, rfl⟩

/-- In every reachable state a call that succeeds returns a handle that mirrors the stored
one, unless it asks for a ring on a latency buffer. -/
theorem mirrors_iff (nodes : Nodes ν) (start : ν) (s : RegistryServer × ν)
    (hreach : Reachable (serve nodes) (init, start) s) (call : RegistryClient)
    (stored : BufferHandle) (hstored : s.1.retrieveBuffer call.name = some stored)
    (r' : RegistryServer) (node' : ν) (resp : RegistryResponse)
    (hhandle : handle nodes s.1 s.2 call.request = some (r', node', resp)) (result : BufferHandle)
    (hresult : call.result resp = some result) :
    Mirrors result stored (call.meant s.1 r' stored) ↔
      (∀ name, call ≠ .createSegmentRingOnBuffer name) ∨ stored.buffertype = .bw := by
  have hname := (wellKept_reachable hreach).named call.name stored hstored
  cases call with
  | retrieveBuffer name =>
    cases handled_of_handle hhandle with
    | retrieveFailed _ _ hnone => cases hnone.symm.trans hstored
    | retrieve _ h hh =>
      cases hh.symm.trans hstored
      exact iff_of_true (mirrors_retrieved hname _ hresult) (Or.inl (by simp))
  | joinBuffer name =>
    cases handled_of_handle hhandle with
    | retrieveFailed _ _ hnone => cases hnone.symm.trans hstored
    | joinFull _ h hh hfull =>
      simp [RegistryClient.result, retrieveOrJoinBuffer] at hresult
    | join _ h segment hh hsegment =>
      cases hh.symm.trans hstored
      refine iff_of_true ?_ (Or.inl (by simp))
      have hmeant : meant s.1 (s.1.setJoined name (s.1.joined name + 1)) stored
          (.joinBuffer name) = [segment] := by
        simp only [meant, hsegment, Option.toList_some]
      rw [hmeant]
      exact mirrors_retrieved hname _ hresult
  | createSegmentRingOnBuffer name =>
    cases handled_of_handle hhandle with
    | createRingFailed _ hnone => cases hnone.symm.trans hstored
    | createRing _ h node' segment hh hring =>
      cases hh.symm.trans hstored
      have hmeant : meant s.1 (s.1.setHandle name (stored.push [segment])) stored
          (.createSegmentRingOnBuffer name) = [segment] := by
        simp [meant]
      rw [hmeant, mirrors_ringCreated_iff hname segment hresult]
      simp

/-- Registration of a buffer without rings. -/
def registerTyped (buffertype : Buffertype) : DPIAppendBufferRequest where
  name := "buffer"
  nodeId := 1
  segmentsPerWriter := 1
  segmentSizes := 16
  register := true
  buffertype

/-- The registry after such a registration. -/
def withTypedBuffer (buffertype : Buffertype) : RegistryServer :=
  ((RegistryServer.init.setHandle "buffer" (registerTyped buffertype).bufferHandle).setHandle
    "buffer" (registerTyped buffertype).bufferHandle).setJoined "buffer" 0

theorem mirrors_created_ring :
    Mirrors ((BufferHandle.create "buffer" 1 1 0 16).push [⟨0, 16⟩])
      (registerTyped .bw).bufferHandle [⟨0, 16⟩] := by
  have h := mirrors_iff (RemoteNode.nodes "127.0.0.1:5400") (RemoteNode.init 60 (fun _ => 0) [])
    (withTypedBuffer .bw, RemoteNode.init 60 (fun _ => 0) [])
    ⟨[.appendBuffer (registerTyped .bw)], rfl⟩ (.createSegmentRingOnBuffer "buffer")
    (registerTyped .bw).bufferHandle rfl _ _ _ rfl
    ((BufferHandle.create "buffer" 1 1 0 16).push [⟨0, 16⟩]) rfl
  exact h.mpr (Or.inr rfl)

/-- The handle returned with a new ring on a latency buffer says that it is a bandwidth
buffer. -/
theorem ring_handle_has_default_type :
    Reachable (serve (RemoteNode.nodes "127.0.0.1:5400"))
      (init, RemoteNode.init 60 (fun _ => 0) [])
      (withTypedBuffer .lat, RemoteNode.init 60 (fun _ => 0) []) ∧
    ¬ ∀ (r' : RegistryServer) (node' : RemoteNode) (resp : RegistryResponse)
      (result : BufferHandle),
      handle (RemoteNode.nodes "127.0.0.1:5400") (withTypedBuffer .lat)
        (RemoteNode.init 60 (fun _ => 0) []) (.createRingOnBuffer "buffer") =
        some (r', node', resp) →
      (createSegmentRingOnBuffer "buffer").result resp = some result →
      Mirrors result (registerTyped .lat).bufferHandle
        ((createSegmentRingOnBuffer "buffer").meant (withTypedBuffer .lat) r'
          (registerTyped .lat).bufferHandle) := by
  refine ⟨⟨[.appendBuffer (registerTyped .lat)], rfl⟩, fun h => ?_⟩
  have hmirrors := h _ _ _ ((BufferHandle.create "buffer" 1 1 0 16).push [⟨8, 16⟩]) rfl rfl
  exact absurd hmirrors.buffertype (by decide)

end RegistryClient
end DpiLibrary
