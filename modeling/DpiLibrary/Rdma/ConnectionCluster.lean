import DpiLibrary.Foundation.Schedule
import DpiLibrary.Rdma.QueuePairs

/-!
# Many clients and their servers

Any number of clients connect to the same servers, one exchange with a server after the other.
Between the exchange for its queue pair and the one for its management queue a client has to
wait for its turn, so the exchanges of different clients come in any order. A client whose
message gets lost is gone; the servers and the other clients go on.
-/

namespace DpiLibrary

/-- The management queue of a client, by the key of the server's queue pair; without an entry the
lookup throws. -/
def ServerConnections.getMgmtQueue (server : ServerConnections) (serverQueue : ℕ) : Option ℕ :=
  server.addr2mgmtAddr serverQueue

/-- A queue pair of a client and the one the server has made for it. -/
structure QueuePairing (ι : Type) where
  client : ι
  connKey : ℕ
  connection : String
  serverKey : ℕ
  management : Bool
  deriving DecidableEq, Repr

/-- The clients with the servers they share. -/
structure ConnectionCluster (ι : Type) where
  clients : ι → ClientConnections
  servers : String → ServerConnections
  /-- A connection for which the client is about to make the management queue, with the key of
  the server's queue pair. -/
  pending : ι → Option (String × ℕ)
  /-- The pairs the servers have made so far. -/
  pairs : List (QueuePairing ι)

inductive ClusterLabel (ι : Type) where
  | connect (client : ι) (call : ConnectCall)
  | createManagementQueue (client : ι) (x : Handshake)

namespace ConnectionCluster

variable {ι : Type} [DecidableEq ι]

def init : ConnectionCluster ι where
  clients := fun _ => .empty
  servers := fun _ => .empty
  pending := fun _ => none
  pairs := []

def setClient (s : ConnectionCluster ι) (i : ι) (client : ClientConnections) :
    ConnectionCluster ι :=
  { s with clients := Function.update s.clients i client }

def fatal (s : ConnectionCluster ι) (i : ι) : ConnectionCluster ι :=
  s.setClient i (s.clients i).fatal

/-- The server behind a connection handles a request of a client. A queue pair that it makes has
the next key. -/
def serve (s : ConnectionCluster ι) (i : ι) (connection : String) (management : Bool)
    (connKey : ℕ) (x : Handshake) (request : ConnMessage) :
    ConnMessage × ConnectionCluster ι :=
  let (result, response, server) :=
    if management then (s.servers connection).connectMgmtQueue x request
    else (s.servers connection).connectQueue x request
  (response, { s with
    servers := Function.update s.servers connection server
    pairs := s.pairs ++ if result then
      [⟨i, connKey, connection, (s.servers connection).manager.lastConnKey, management⟩]
      else [] })

/-- A client takes the data of a response and connects its queue pair. -/
def receive (s : ConnectionCluster ι) (i : ι) (connKey : ℕ) (x : Handshake)
    (response : ConnMessage) : Bool × ConnectionCluster ι :=
  let client := s.clients i
  let manager := client.manager.setRemoteConnData connKey (response.conn x.pastEnd)
  let (connected, manager) := manager.connectQP connKey x.connectQP
  (connected, s.setClient i { client with manager })

/-- The exchange of connection data for a queue pair of a client. -/
def exchange (s : ConnectionCluster ι) (i : ι) (connection : String) (management : Bool)
    (connKey serverConnkey : ℕ) (x : Handshake) : Option ℕ × ConnectionCluster ι :=
  let request := ConnMessage.ofConn ((s.clients i).manager.getLocalConnData connKey) serverConnkey
  match x.delivery with
  | .requestLost => (none, s.fatal i)
  | .unexpectedResponse => (none, s)
  | .responseLost => (none, (s.serve i connection management connKey x request).2.fatal i)
  | .delivered =>
    let (response, s) := s.serve i connection management connKey x request
    let (connected, s) := s.receive i connKey x response
    (if connected then some response.serverConnkey else none, s)

/-- `connect` of a client with these entries, up to the management queue. -/
def connect (s : ConnectionCluster ι) (i : ι) (client : ClientConnections) (call : ConnectCall) :
    ConnectionCluster ι :=
  if client.clients call.connection then s
  else match client.manager.initQP call.queue.initQP with
    | (none, manager) => s.setClient i { client with manager }
    | (some ibAddr, manager) =>
      let addr := Function.update client.addr call.connection (some ibAddr)
      if call.clientConnects then
        let clients := Function.update client.clients call.connection true
        let s := s.setClient i { client with manager, addr, clients }
        match s.exchange i call.connection false ibAddr 0 call.queue with
        | (none, s) => s
        | (some serverConnkey, s) =>
          if call.managementQueue then
            { s with
              pending := Function.update s.pending i (some (call.connection, serverConnkey)) }
          else s
      else s.setClient i (.fatal { client with manager, addr })

def createManagementQueue (s : ConnectionCluster ι) (i : ι) (client : ClientConnections)
    (connection : String) (connKeyServer : ℕ) (x : Handshake) : ConnectionCluster ι :=
  match client.manager.initQP x.initQP with
  | (none, manager) => s.setClient i { client with manager }
  | (some clientAddr, manager) =>
    let mgmtAddr := Function.update client.mgmtAddr connection (some clientAddr)
    ((s.setClient i { client with manager, mgmtAddr }).exchange i connection true clientAddr
      connKeyServer x).2

/-- A client calls `connect` when it still runs and no call of its own is under way. -/
def step (s : ConnectionCluster ι) : ClusterLabel ι → Option (ConnectionCluster ι)
  | .connect i call =>
    if (s.clients i).ended then none
    else match s.pending i with
      | none => some (s.connect i (s.clients i) call)
      | some _ => none
  | .createManagementQueue i x =>
    match s.pending i with
    | none => none
    | some (connection, connKeyServer) =>
      some { s.createManagementQueue i (s.clients i) connection connKeyServer x with
        pending := Function.update s.pending i none }

/-- A client of a cluster is in the state of a client that has the servers for itself. -/
structure Sees (s : ConnectionCluster ι) (i : ι) (system : ConnectionSystem) : Prop where
  client : s.clients i = system.client
  servers : s.servers = system.servers

open Schedule

variable {s : ConnectionCluster ι} {i : ι} {system : ConnectionSystem}

theorem Sees.setClient (h : s.Sees i system) (client : ClientConnections) :
    (s.setClient i client).Sees i { system with client } :=
  ⟨Function.update_self _ _ _, h.servers⟩

theorem Sees.fatal (h : s.Sees i system) : (s.fatal i).Sees i system.fatal := by
  unfold ConnectionCluster.fatal ConnectionSystem.fatal
  rw [h.client]
  exact h.setClient _

theorem Sees.exchange (h : s.Sees i system) (connection : String) (management : Bool)
    (connKey serverConnkey : ℕ) (x : Handshake) :
    (s.exchange i connection management connKey serverConnkey x).1 =
        (system.exchange connection management connKey serverConnkey x).1 ∧
      (s.exchange i connection management connKey serverConnkey x).2.Sees i
        (system.exchange connection management connKey serverConnkey x).2 := by
  obtain ⟨hclient, hservers⟩ := h
  unfold ConnectionCluster.exchange ConnectionSystem.exchange
  cases x.delivery with
  | requestLost => exact ⟨rfl, Sees.fatal ⟨hclient, hservers⟩⟩
  | unexpectedResponse => exact ⟨rfl, hclient, hservers⟩
  | responseLost =>
    refine ⟨rfl, Sees.fatal ⟨?_, ?_⟩⟩
    · simp [serve, ConnectionSystem.handle, hclient]
    · simp [serve, ConnectionSystem.handle, hclient, hservers]
  | delivered =>
    refine ⟨?_, ?_, ?_⟩
    · simp [serve, receive, ConnectionSystem.handle, hclient, hservers]
      rfl
    · simp [serve, receive, ConnectionSystem.handle, hclient, hservers,
        ConnectionCluster.setClient]
    · simp [serve, receive, ConnectionSystem.handle, hclient, hservers,
        ConnectionCluster.setClient]

theorem Sees.createManagementQueue (h : s.Sees i system) (connection : String)
    (connKeyServer : ℕ) (x : Handshake) :
    (s.createManagementQueue i system.client connection connKeyServer x).Sees i
      (system.createManagementQueue connection connKeyServer x).2 := by
  unfold ConnectionCluster.createManagementQueue ConnectionSystem.createManagementQueue
  cases hcreate : system.client.manager.initQP x.initQP with
  | mk created manager =>
    simp only
    cases created with
    | none => exact h.setClient _
    | some clientAddr =>
      exact ((h.setClient _).exchange connection true clientAddr connKeyServer x).2

/-- A `connect` that no other client comes between is that of a client alone. -/
theorem sees_connect (s : ConnectionCluster ι) (i : ι) (call : ConnectCall)
    (hended : (s.clients i).ended = false) (hpending : s.pending i = none) : ∃ t,
      (exec step s [.connect i call] = some t ∨
        exec step s [.connect i call, .createManagementQueue i call.mgmtQueue] = some t) ∧
      t.Sees i ((ConnectionSystem.connect ⟨s.clients i, s.servers, []⟩ call).2) := by
  have hsees : s.Sees i ⟨s.clients i, s.servers, []⟩ := ⟨rfl, rfl⟩
  have hstep : step s (.connect i call) = some (s.connect i (s.clients i) call) := by
    simp [step, hended, hpending]
  generalize hsystem : (⟨s.clients i, s.servers, []⟩ : ConnectionSystem) = system at hsees
  unfold ConnectionSystem.connect
  rw [if_neg (by simp [← hsees.client, hended])]
  by_cases hclient : system.client.clients call.connection = true
  · refine ⟨s, Or.inl ?_, by rwa [if_pos hclient]⟩
    simp [hstep, ConnectionCluster.connect, hsees.client, hclient]
  rw [if_neg hclient]
  rw [hsees.client] at hstep
  unfold ConnectionCluster.connect at hstep
  rw [if_neg hclient] at hstep
  cases hcreate : system.client.manager.initQP call.queue.initQP with
  | mk created manager =>
    simp only [hcreate] at hstep ⊢
    cases created with
    | none => exact ⟨_, Or.inl (by simp [hstep]), hsees.setClient _⟩
    | some ibAddr =>
      cases hconnects : call.clientConnects with
      | false =>
        simp only [hconnects, Bool.false_eq_true, if_false] at hstep ⊢
        exact ⟨_, Or.inl (by simp [hstep]), hsees.setClient _⟩
      | true =>
        simp only [hconnects, if_true] at hstep ⊢
        generalize hentered : ({
          manager
          clients := Function.update system.client.clients call.connection true
          addr := Function.update system.client.addr call.connection (some ibAddr)
          mgmtAddr := system.client.mgmtAddr
          ended := system.client.ended } : ClientConnections) = client at hstep ⊢
        obtain ⟨hkey, hafter⟩ :=
          (hsees.setClient client).exchange call.connection false ibAddr 0 call.queue
        rcases hexchange : (s.setClient i client).exchange i call.connection false ibAddr 0
          call.queue with ⟨key, s₁⟩
        rcases hexchange' : ConnectionSystem.exchange { system with client } call.connection false
          ibAddr 0 call.queue with ⟨key', system₁⟩
        rw [hexchange, hexchange'] at hkey hafter
        rw [hexchange] at hstep
        simp only at hkey hafter hstep ⊢
        subst hkey
        cases key with
        | none => exact ⟨_, Or.inl (by simp [hstep]), hafter⟩
        | some serverConnkey =>
          cases hasked : call.managementQueue with
          | false =>
            simp only [hasked, Bool.false_eq_true, if_false] at hstep ⊢
            exact ⟨_, Or.inl (by simp [hstep]), hafter⟩
          | true =>
            simp only [hasked, if_true] at hstep ⊢
            generalize hasking : ({ s₁ with
              pending := Function.update s₁.pending i (some (call.connection, serverConnkey)) } :
                ConnectionCluster ι) = s₂ at hstep
            have hpending₂ : s₂.pending i = some (call.connection, serverConnkey) := by
              rw [← hasking]
              exact Function.update_self _ _ _
            have hsees₂ : s₂.Sees i system₁ := by
              rw [← hasking]
              exact ⟨hafter.client, hafter.servers⟩
            have hmade := hsees₂.createManagementQueue call.connection serverConnkey call.mgmtQueue
            refine ⟨{ s₂.createManagementQueue i system₁.client call.connection serverConnkey
              call.mgmtQueue with pending := Function.update s₂.pending i none }, Or.inr ?_,
              hmade.client, hmade.servers⟩
            have hstep₂ : step s₂ (.createManagementQueue i call.mgmtQueue) =
                some { s₂.createManagementQueue i system₁.client call.connection serverConnkey
                  call.mgmtQueue with pending := Function.update s₂.pending i none } := by
              simp [step, hpending₂, hsees₂.client]
            simp [hstep, hstep₂]

end ConnectionCluster
end DpiLibrary
