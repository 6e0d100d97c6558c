import DpiLibrary.Dpi.NodeServer
import DpiLibrary.Dpi.RegistryServer

/-!
# A memory node behind its client stub

`RDMAClient::remoteAllocSegments` connects to a node and sends it one message. Nodes
can be reached and answer: a message that cannot be sent, and one without an answer, is
the end of the registry's process. `connect` may fail all the same, at a queue pair;
what becomes of each call is part of the state.
-/

namespace DpiLibrary

/-- What becomes of a call: `connect` returns false, or the node answers. -/
inductive Exchange where
  | unconnected
  | answered
  deriving DecidableEq, Repr

/-- A node and the fate of the next calls to it. Calls after these are answered. -/
structure RemoteNode where
  server : NodeServer
  exchanges : List Exchange

/-- Values of `uint32` fields. -/
def uint32Bound : ℕ := 2 ^ 32

namespace RemoteNode

/-- The request carries the count in a field of 32 bits. -/
def remoteAllocSegments (node : RemoteNode) (segmentsCount segmentsSize : ℕ) (type : Buffertype) :
    RemoteNode × Option ℕ :=
  let exchanges := node.exchanges.tail
  match node.exchanges.headD .answered with
  | .unconnected => ({ node with exchanges }, none)
  | .answered =>
    let (server, offset, ret) :=
      node.server.handle (segmentsCount % uint32Bound) segmentsSize type
    ({ server, exchanges }, if ret = .noError then some offset else none)

/-- A node with nothing allocated. -/
def init (memSize : ℕ) (buffer : Mem) (exchanges : List Exchange) : RemoteNode :=
  ⟨⟨.init memSize, buffer⟩, exchanges⟩

/-- A configuration with this node only. -/
def nodes (connection : String) : Nodes RemoteNode where
  dpiNodes := [connection]
  remoteAllocSegments node _ _ count size type := node.remoteAllocSegments count size type

end RemoteNode
end DpiLibrary
