import Mathlib.Logic.Function.Basic
import Mathlib.Data.List.OfFn

/-!
# Connecting queue pairs

A client connects a queue pair to one of a server by exchanging connection data, and on
request a second one for management. Where a step can fail, the call says what happens
there. A message that gets lost is the end of the client's process. The server answers a
request it could not serve as well: what its methods return is dropped, and kept in the
state only to be talked about.
-/

namespace DpiLibrary

/-- `ib_conn_t`. -/
structure ConnData where
  buffer : ℕ
  rkey : ℕ
  qpNum : ℕ
  lid : ℕ
  gid : Fin 16 → ℕ
  psn : ℕ
  deriving Inhabited

/-- `RDMAConnRequest`, `RDMAConnResponse` and their variants for the management queue. -/
structure ConnMessage where
  buffer : ℕ := 0
  rkey : ℕ := 0
  qpNum : ℕ := 0
  lid : ℕ := 0
  gid : List ℕ := []
  psn : ℕ := 0
  serverConnkey : ℕ := 0

namespace ConnMessage

def ofConn (conn : ConnData) (serverConnkey : ℕ) : ConnMessage where
  buffer := conn.buffer
  rkey := conn.rkey
  qpNum := conn.qpNum
  lid := conn.lid
  gid := List.ofFn conn.gid
  psn := conn.psn
  serverConnkey

/-- What is read of a message. An element that the repeated field does not have is whatever
lies behind it. -/
def conn (msg : ConnMessage) (pastEnd : ℕ → ℕ) : ConnData where
  buffer := msg.buffer
  rkey := msg.rkey
  qpNum := msg.qpNum
  lid := msg.lid
  gid := fun i => msg.gid.getD i (pastEnd i)
  psn := msg.psn

end ConnMessage

/-- What the device does when a queue pair is created: nothing, a queue pair that cannot be
initialised, or one with its connection data. -/
inductive QPCreation where
  | failed
  | notInitialized
  | created (conn : ConnData)

/-- The queue pairs of an `RDMAManagerRC`, by connection key. -/
structure QueuePairs where
  lastConnKey : ℕ
  lconns : ℕ → ConnData
  rconns : ℕ → Option ConnData
  connected : ℕ → Bool

namespace QueuePairs

def empty : QueuePairs where
  lastConnKey := 0
  lconns := fun _ => default
  rconns := fun _ => none
  connected := fun _ => false

def initQP (m : QueuePairs) : QPCreation → Option ℕ × QueuePairs
  | .failed => (none, m)
  | .notInitialized => (none, { m with lastConnKey := m.lastConnKey + 1 })
  | .created conn =>
    (some m.lastConnKey,
      { m with
        lastConnKey := m.lastConnKey + 1
        lconns := Function.update m.lconns m.lastConnKey conn })

def getLocalConnData (m : QueuePairs) (connKey : ℕ) : ConnData := m.lconns connKey

def setRemoteConnData (m : QueuePairs) (connKey : ℕ) (conn : ConnData) : QueuePairs :=
  { m with rconns := Function.update m.rconns connKey (some conn) }

/-- `modified` says whether the queue pair can be modified to be ready. -/
def connectQP (m : QueuePairs) (connKey : ℕ) (modified : Bool) : Bool × QueuePairs :=
  if m.connected connKey then (true, m)
  else if modified then (true, { m with connected := Function.update m.connected connKey true })
  else (false, m)

end QueuePairs

/-- What happens to a request of the client. An error message of the server is an unexpected
response too. -/
inductive Delivery where
  | requestLost
  | responseLost
  | unexpectedResponse
  | delivered
  deriving DecidableEq, Repr

/-- What happens while one queue pair is connected, on both sides. -/
structure Handshake where
  initQP : QPCreation
  delivery : Delivery
  serverInitQP : QPCreation
  serverConnectQP : Bool
  pastEnd : ℕ → ℕ
  connectQP : Bool

/-- The connections of an `RDMAServer`. -/
structure ServerConnections where
  manager : QueuePairs
  addr : List ℕ
  addr2mgmtAddr : ℕ → Option ℕ

namespace ServerConnections

def empty : ServerConnections where
  manager := .empty
  addr := []
  addr2mgmtAddr := fun _ => none

/-- `connectQueue` and `connectMgmtQueue`, which differ in where the new queue pair is entered
and in whether its key is in the response. -/
def connectWith (server : ServerConnections) (x : Handshake) (request : ConnMessage)
    (enter : ServerConnections → ℕ → ServerConnections) (serverConnkey : ℕ → ℕ) :
    Bool × ConnMessage × ServerConnections :=
  match server.manager.initQP x.serverInitQP with
  | (none, manager) => (false, {}, { server with manager })
  | (some ibAddr, manager) =>
    let server := enter { server with manager } ibAddr
    let manager := server.manager.setRemoteConnData ibAddr (request.conn x.pastEnd)
    match manager.connectQP ibAddr x.serverConnectQP with
    | (false, manager) => (false, {}, { server with manager })
    | (true, manager) =>
      (true, .ofConn (manager.getLocalConnData ibAddr) (serverConnkey ibAddr),
        { server with manager })

def connectQueue (server : ServerConnections) (x : Handshake) (request : ConnMessage) :
    Bool × ConnMessage × ServerConnections :=
  server.connectWith x request
    (fun server ibAddr => { server with addr := server.addr ++ [ibAddr] }) id

def connectMgmtQueue (server : ServerConnections) (x : Handshake) (request : ConnMessage) :
    Bool × ConnMessage × ServerConnections :=
  server.connectWith x request
    (fun server ibAddr =>
      { server with
        addr2mgmtAddr := Function.update server.addr2mgmtAddr request.serverConnkey (some ibAddr) })
    fun _ => 0

end ServerConnections

/-- The connections of an `RDMAClient`, and whether its process has ended. Of `m_clients` only
the keys are kept. -/
structure ClientConnections where
  manager : QueuePairs
  clients : String → Bool
  addr : String → Option ℕ
  mgmtAddr : String → Option ℕ
  ended : Bool

/-- No connections yet. -/
def ClientConnections.empty : ClientConnections where
  manager := .empty
  clients := fun _ => false
  addr := fun _ => none
  mgmtAddr := fun _ => none
  ended := false

/-- `Logging::fatal`. -/
def ClientConnections.fatal (client : ClientConnections) : ClientConnections :=
  { client with ended := true }

/-- A request a server has handled: the client's queue pair it came from, the method it was
handed to, and what that returned. -/
structure Served where
  connKey : ℕ
  management : Bool
  result : Bool
  response : ConnMessage

/-- A client, the server behind each connection, and the requests served so far. -/
structure ConnectionSystem where
  client : ClientConnections
  servers : String → ServerConnections
  served : List Served

/-- A call of `connect` and what happens in it. -/
structure ConnectCall where
  connection : String
  managementQueue : Bool
  clientConnects : Bool
  queue : Handshake
  mgmtQueue : Handshake

namespace ConnectionSystem

def init : ConnectionSystem where
  client := .empty
  servers := fun _ => .empty
  served := []

def fatal (s : ConnectionSystem) : ConnectionSystem := { s with client := s.client.fatal }

/-- `RDMAServer::handle`: the response is sent whatever the method returns. -/
def handle (s : ConnectionSystem) (connection : String) (management : Bool) (connKey : ℕ)
    (x : Handshake) (request : ConnMessage) : ConnMessage × ConnectionSystem :=
  let (result, response, server) :=
    if management then (s.servers connection).connectMgmtQueue x request
    else (s.servers connection).connectQueue x request
  (response,
    { s with
      servers := Function.update s.servers connection server
      served := s.served ++ [⟨connKey, management, result, response⟩] })

/-- The exchange of connection data for the queue pair `connKey`, in `connect` and in
`createManagementQueue`, up to the connected queue pair. The server's key is returned.
`ProtoClient::send` ends the process when it cannot send or cannot receive. -/
def exchange (s : ConnectionSystem) (connection : String) (management : Bool) (connKey : ℕ)
    (serverConnkey : ℕ) (x : Handshake) : Option ℕ × ConnectionSystem :=
  let request := ConnMessage.ofConn (s.client.manager.getLocalConnData connKey) serverConnkey
  match x.delivery with
  | .requestLost => (none, s.fatal)
  | .unexpectedResponse => (none, s)
  | .responseLost => (none, (s.handle connection management connKey x request).2.fatal)
  | .delivered =>
    let (response, s) := s.handle connection management connKey x request
    let manager := s.client.manager.setRemoteConnData connKey (response.conn x.pastEnd)
    let (connected, manager) := manager.connectQP connKey x.connectQP
    (if connected then some response.serverConnkey else none,
      { s with client := { s.client with manager } })

def createManagementQueue (s : ConnectionSystem) (connection : String) (connKeyServer : ℕ)
    (x : Handshake) : Bool × ConnectionSystem :=
  match s.client.manager.initQP x.initQP with
  | (none, manager) => (false, { s with client := { s.client with manager } })
  | (some clientAddr, manager) =>
    let mgmtAddr := Function.update s.client.mgmtAddr connection (some clientAddr)
    let s := { s with client := { s.client with manager, mgmtAddr } }
    let (serverConnkey, s) := s.exchange connection true clientAddr connKeyServer x
    (serverConnkey.isSome, s)

/-- `RDMAClient::connect` with the address it sets, or nothing if it does not return true. A
process that has ended makes no call, and `ProtoClient::connect` ends it when it fails. -/
def connect (s : ConnectionSystem) (call : ConnectCall) : Option ℕ × ConnectionSystem :=
  if s.client.ended then (none, s)
  -- `isConnected`
  else if s.client.clients call.connection then (some ((s.client.addr call.connection).getD 0), s)
  else
    match s.client.manager.initQP call.queue.initQP with
    | (none, manager) => (none, { s with client := { s.client with manager } })
    | (some ibAddr, manager) =>
      let addr := Function.update s.client.addr call.connection (some ibAddr)
      let s := { s with client := { s.client with manager, addr } }
      if call.clientConnects then
        let clients := Function.update s.client.clients call.connection true
        let s := { s with client := { s.client with clients } }
        match s.exchange call.connection false ibAddr 0 call.queue with
        | (none, s) => (none, s)
        | (some serverConnkey, s) =>
          if call.managementQueue then
            let (created, s) :=
              s.createManagementQueue call.connection serverConnkey call.mgmtQueue
            (if created then some ibAddr else none, s)
          else (some ibAddr, s)
      else (none, s.fatal)

def run (s : ConnectionSystem) (calls : List ConnectCall) : ConnectionSystem :=
  calls.foldl (fun s call => (s.connect call).2) s

/-- The queue pair has received the data of a server whose method succeeded, and it is
connected. -/
def Joined (s : ConnectionSystem) (management : Bool) (connKey : ℕ) : Prop :=
  s.client.manager.connected connKey = true ∧
    ∃ e ∈ s.served, e.connKey = connKey ∧ e.management = management ∧ e.result = true ∧
      ∃ pastEnd, s.client.manager.rconns connKey = some (e.response.conn pastEnd)

/-- What a call of `connect` that returns true promises. -/
def Connected (s : ConnectionSystem) (connection : String) (managementQueue : Bool) : Prop :=
  (∃ connKey, s.client.addr connection = some connKey ∧ s.Joined false connKey) ∧
    (managementQueue = true →
      ∃ connKey, s.client.mgmtAddr connection = some connKey ∧ s.Joined true connKey)

end ConnectionSystem

end DpiLibrary
