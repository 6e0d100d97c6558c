import DpiLibrary.Dpi.BufferFrames
import DpiLibrary.Dpi.BufferWriter
import DpiLibrary.Dpi.RegistryClient
import DpiLibrary.Dpi.RingIsolation

/-!
# A deployment

The registry, a node and the clients of any number of buffers on it. Appenders join a buffer
and write to the ring they are given, consumers retrieve a buffer and iterate over its rings,
and the registry creates rings in the same memory while all of them are at work. A schedule
names, step by step, who moves.
-/

namespace DpiLibrary

open Schedule

/-- A consumer: an iterator over the rings listed in the handle it has retrieved, and the calls
it has made. -/
structure Consumer where
  rings : ℕ
  buffertype : Buffertype
  iterator : BufferIterator rings
  log : List (RingEvent rings)

/-- `getIterator` and `getIteratorLat`: the client asks for the one that suits the buffer. -/
def Consumer.getIterator (handle : BufferHandle) : Consumer where
  rings := handle.entrySegments.length
  buffertype := handle.buffertype
  iterator := .ofEntries ((List.finRange handle.entrySegments.length).map fun r =>
    ((handle.entrySegments.get r).offset, r))
  log := []

/-- Writers are known by their buffer and the number of the ring they were given. -/
structure Deployment where
  registry : RegistryServer
  node : RemoteNode
  writers : String → ℕ → Option BufferWriter
  consumers : String → Option Consumer

inductive DeploymentLabel where
  | request (req : RegistryRequest)
  | joinBuffer (name : String) (internalBufferSize : ℕ) (messages : List Message)
  | getIterator (name : String)
  | writer (name : String) (ring : ℕ)
  | nic (name : String) (ring : ℕ)
  | iterator (name : String) (action : IteratorAction)

namespace Deployment

/-- The memory that the node has registered. -/
def mem (d : Deployment) : Mem := d.node.server.buffer

def setMem (d : Deployment) (m : Mem) : Deployment :=
  { d with node := { d.node with server := { d.node.server with buffer := m } } }

def setWriter (d : Deployment) (name : String) (ring : ℕ) (w : Option BufferWriter) : Deployment :=
  { d with writers := Function.update d.writers name (Function.update (d.writers name) ring w) }

def setConsumer (d : Deployment) (name : String) (c : Consumer) : Deployment :=
  { d with consumers := Function.update d.consumers name (some c) }

def init (memSize : ℕ) (buffer : Mem) (exchanges : List Exchange) : Deployment where
  registry := .init
  node := .init memSize buffer exchanges
  writers := fun _ _ => none
  consumers := fun _ => none

def step (nodes : Nodes RemoteNode) (d : Deployment) : DeploymentLabel → Option Deployment
  | .request req =>
    (d.registry.handle nodes d.node req).map fun (registry, node, _) => { d with registry, node }
  | .joinBuffer name internalBufferSize messages => do
    let call := RegistryClient.joinBuffer name
    let (registry, node, resp) ← d.registry.handle nodes d.node call.request
    let handle ← call.result resp
    let segment ← handle.entrySegments.head?
    some (setWriter { d with registry, node } name (d.registry.joined name)
      (some (.construct handle segment internalBufferSize messages)))
  | .getIterator name => do
    let call := RegistryClient.retrieveBuffer name
    let (registry, node, resp) ← d.registry.handle nodes d.node call.request
    let handle ← call.result resp
    some (setConsumer { d with registry, node } name (.getIterator handle))
  | .writer name ring =>
    (BufferWriter.machine.option.step (d.writers name ring)).map fun w => d.setWriter name ring w
  | .nic name ring =>
    (BufferWriter.machine.option.nic d.mem (d.writers name ring)).map fun (m, w, _) =>
      (d.setWriter name ring w).setMem m
  | .iterator name action => do
    let c ← d.consumers name
    let (m, iterator, events) ← c.iterator.step c.buffertype d.mem action
    some ((d.setConsumer name { c with iterator, log := c.log ++ events }).setMem m)

/-- Every ring of a request finds a block in the node's memory. -/
def RingsFit (nodes : Nodes RemoteNode) : ℕ → RemoteNode → BufferHandle → Prop
  | 0, _, _ => True
  | count + 1, node, handle =>
    (∃ b ∈ node.server.manager.rdmaMem, handle.blockSize ≤ b.size) ∧
      ∀ served ∈ RegistryServer.createRingOnBuffer nodes node handle, ∀ segment ∈ served.2,
        RingsFit nodes count served.1 (handle.push [segment])

/-- What is asked of the clients. Names are registered once, with parameters that survive the
message, for rings of two segments or more that the node has room for. A buffer has one
consumer. The messages of a latency writer fit a segment, its queue pair reads what was posted,
and no credit counter wraps. -/
def Allowed (nodes : Nodes RemoteNode) (d : Deployment) : DeploymentLabel → Prop
  | .request (.createRingOnBuffer name) =>
    ∀ handle ∈ d.registry.retrieveBuffer name, RingsFit nodes 1 d.node handle
  | .request (.retrieveBuffer _ _) => True
  | .request (.appendBuffer req) =>
    req.register = true ∧ req.name ∉ d.registry.bufferHandles ∧ req.bufferHandle.Bounded ∧
      2 ≤ req.segmentsPerWriter ∧ RingsFit nodes req.numberAppenders d.node req.bufferHandle
  | .request .other => True
  | .joinBuffer name _ messages =>
    ∀ handle ∈ d.registry.retrieveBuffer name, handle.buffertype = .lat →
      messages ≠ [] ∧ ∀ message ∈ messages, message.data.length ≤ handle.segmentSizes
  | .getIterator name => d.consumers name = none
  | .writer _ _ => True
  | .nic name ring => ∀ w ∈ d.writers name ring, w.CarriesPosted
  | .iterator name _ =>
    ∀ c ∈ d.consumers name, c.iterator.pc = .mark .credit true →
      ∀ h ∈ c.iterator.segmentIterators.get?, readWord d.mem h.counterOffset + 1 < sizeTBound

instance decidableRingsFit (nodes : Nodes RemoteNode) :
    ∀ (count : ℕ) (node : RemoteNode) (handle : BufferHandle),
      Decidable (RingsFit nodes count node handle)
  | 0, _, _ => .isTrue trivial
  | count + 1, node, handle =>
    haveI := decidableRingsFit nodes count
    inferInstanceAs (Decidable ((∃ b ∈ node.server.manager.rdmaMem, handle.blockSize ≤ b.size) ∧
      ∀ served ∈ RegistryServer.createRingOnBuffer nodes node handle, ∀ segment ∈ served.2,
        RingsFit nodes count served.1 (handle.push [segment])))

instance decidableAllowed (nodes : Nodes RemoteNode) (d : Deployment) :
    ∀ label : DeploymentLabel, Decidable (d.Allowed nodes label)
  | .request (.createRingOnBuffer name) =>
    inferInstanceAs (Decidable (∀ handle ∈ d.registry.retrieveBuffer name,
      RingsFit nodes 1 d.node handle))
  | .request (.retrieveBuffer _ _) => .isTrue trivial
  | .request (.appendBuffer req) =>
    haveI : Decidable req.bufferHandle.Bounded := inferInstanceAs (Decidable (_ ∧ _))
    inferInstanceAs (Decidable (req.register = true ∧ req.name ∉ d.registry.bufferHandles ∧
      req.bufferHandle.Bounded ∧ 2 ≤ req.segmentsPerWriter ∧
      RingsFit nodes req.numberAppenders d.node req.bufferHandle))
  | .request .other => .isTrue trivial
  | .joinBuffer name _ messages =>
    inferInstanceAs (Decidable (∀ handle ∈ d.registry.retrieveBuffer name,
      handle.buffertype = .lat → messages ≠ [] ∧
        ∀ message ∈ messages, message.data.length ≤ handle.segmentSizes))
  | .getIterator name =>
    decidable_of_iff ((d.consumers name).isNone = true) Option.isNone_iff_eq_none
  | .writer _ _ => .isTrue trivial
  | .nic name ring => inferInstanceAs (Decidable (∀ w ∈ d.writers name ring, w.CarriesPosted))
  | .iterator name _ =>
    inferInstanceAs (Decidable (∀ c ∈ d.consumers name, c.iterator.pc = .mark .credit true →
      ∀ h ∈ c.iterator.segmentIterators.get?, readWord d.mem h.counterOffset + 1 < sizeTBound))

end Deployment
end DpiLibrary
