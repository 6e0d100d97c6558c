import Mathlib.Tactic.Common
import DpiLibrary.Rdma.QueuePairs

/-!
# Runs of connect

Of the calls on one connection, the first that gets a message client decides what the
connection has: later calls return true without a look at it. What that call leaves is
said in terms of what happened in it, and stays, since every queue pair has a key of its
own.
-/

namespace DpiLibrary

def QPCreation.isCreated : QPCreation → Bool
  | .created _ => true
  | _ => false

namespace Handshake

/-- The server's method succeeds. -/
def accepted (x : Handshake) : Bool := x.serverInitQP.isCreated && x.serverConnectQP

/-- The client sees no failure. -/
def passes (x : Handshake) : Bool := x.delivery == .delivered && x.connectQP

end Handshake

namespace ConnectCall

/-- The call gets as far as the message client. -/
def reaches (call : ConnectCall) : Bool := call.queue.initQP.isCreated && call.clientConnects

/-- No step that the client tests fails behind it. -/
def passes (call : ConnectCall) : Bool :=
  call.queue.passes &&
    (!call.managementQueue || call.mgmtQueue.initQP.isCreated && call.mgmtQueue.passes)

/-- The queue pair is connected on both sides, and so is a management queue if one is asked
for. -/
def completes (call : ConnectCall) (managementQueue : Bool) : Bool :=
  call.queue.passes && call.queue.accepted &&
    (!managementQueue || call.managementQueue && call.mgmtQueue.initQP.isCreated &&
      call.mgmtQueue.passes && call.mgmtQueue.accepted)

end ConnectCall

namespace QueuePairs

variable {m : QueuePairs}

/-- Keys not given out yet are not connected. -/
def Fresh (m : QueuePairs) : Prop :=
  ∀ connKey, m.lastConnKey ≤ connKey → m.connected connKey = false

theorem fresh_empty : empty.Fresh := fun _ _ => rfl

theorem connected_initQP (m : QueuePairs) (creation : QPCreation) :
    (m.initQP creation).2.connected = m.connected := by
  cases creation <;> rfl

theorem rconns_initQP (m : QueuePairs) (creation : QPCreation) :
    (m.initQP creation).2.rconns = m.rconns := by
  cases creation <;> rfl

theorem lastConnKey_initQP_le (m : QueuePairs) (creation : QPCreation) :
    m.lastConnKey ≤ (m.initQP creation).2.lastConnKey := by
  cases creation
  · exact le_rfl
  · exact Nat.le_succ _
  · exact Nat.le_succ _

theorem Fresh.initQP (h : m.Fresh) (creation : QPCreation) : (m.initQP creation).2.Fresh := by
  intro connKey hkey
  rw [connected_initQP]
  exact h connKey ((m.lastConnKey_initQP_le creation).trans hkey)

/-- A queue pair gets the next key. -/
theorem initQP_eq_some {m' : QueuePairs} {creation : QPCreation} {connKey : ℕ}
    (h : m.initQP creation = (some connKey, m')) :
    creation.isCreated = true ∧ connKey = m.lastConnKey ∧ m'.lastConnKey = m.lastConnKey + 1 := by
  cases creation with
  | created conn =>
    cases h
    exact ⟨rfl, rfl, rfl⟩
  | _ => cases h

theorem initQP_eq_none {m' : QueuePairs} {creation : QPCreation}
    (h : m.initQP creation = (none, m')) : creation.isCreated = false := by
  cases creation with
  | created conn => cases h
  | _ => rfl

theorem connectQP_of_not_connected {connKey : ℕ} (h : m.connected connKey = false)
    (modified : Bool) :
    m.connectQP connKey modified =
      (modified, if modified then
        { m with connected := Function.update m.connected connKey true } else m) := by
  cases modified <;> simp [connectQP, h]

end QueuePairs

namespace ServerConnections

variable {server : ServerConnections}

/-- What the server's methods return. -/
theorem connectWith_spec (h : server.manager.Fresh) (x : Handshake) (request : ConnMessage)
    {enter : ServerConnections → ℕ → ServerConnections} (serverConnkey : ℕ → ℕ)
    (henter : ∀ server ibAddr, (enter server ibAddr).manager = server.manager) :
    (server.connectWith x request enter serverConnkey).1 = x.accepted ∧
      (server.connectWith x request enter serverConnkey).2.2.manager.Fresh := by
  have hinit := h.initQP x.serverInitQP
  unfold connectWith Handshake.accepted
  cases hcreate : server.manager.initQP x.serverInitQP with
  | mk created manager =>
    rw [hcreate] at hinit
    cases created with
    | none =>
      rw [QueuePairs.initQP_eq_none hcreate]
      exact ⟨rfl, hinit⟩
    | some ibAddr =>
      obtain ⟨hcreated, rfl, hlast⟩ := QueuePairs.initQP_eq_some hcreate
      have hnot : manager.connected server.manager.lastConnKey = false := by
        have hsame := server.manager.connected_initQP x.serverInitQP
        rw [hcreate] at hsame
        rw [hsame]
        exact h _ le_rfl
      rw [hcreated, Bool.true_and]
      have hset : (manager.setRemoteConnData server.manager.lastConnKey
          (request.conn x.pastEnd)).connected server.manager.lastConnKey = false := hnot
      simp only [henter, QueuePairs.connectQP_of_not_connected hset]
      cases x.serverConnectQP with
      | false => exact ⟨rfl, hinit⟩
      | true =>
        refine ⟨rfl, fun connKey hkey => ?_⟩
        have hother : connKey ≠ server.manager.lastConnKey := by
          have hle : manager.lastConnKey ≤ connKey := hkey
          omega
        exact (Function.update_of_ne hother _ _).trans (hinit connKey hkey)

theorem connectQueue_spec (h : server.manager.Fresh) (x : Handshake) (request : ConnMessage) :
    (server.connectQueue x request).1 = x.accepted ∧
      (server.connectQueue x request).2.2.manager.Fresh :=
  connectWith_spec h x request id fun _ _ => rfl

theorem connectMgmtQueue_spec (h : server.manager.Fresh) (x : Handshake)
    (request : ConnMessage) :
    (server.connectMgmtQueue x request).1 = x.accepted ∧
      (server.connectMgmtQueue x request).2.2.manager.Fresh :=
  connectWith_spec h x request (fun _ => 0) fun _ _ => rfl

end ServerConnections

namespace ConnectionSystem

variable {s s' s'' : ConnectionSystem} {connKey : ℕ} {management : Bool}

/-- Keys not given out yet are not in use, on any side. -/
structure Fresh (s : ConnectionSystem) : Prop where
  manager : s.client.manager.Fresh
  servers : ∀ connection, (s.servers connection).manager.Fresh
  served : ∀ e ∈ s.served, e.connKey < s.client.manager.lastConnKey

theorem fresh_init : init.Fresh where
  manager := QueuePairs.fresh_empty
  servers _ := QueuePairs.fresh_empty
  served _ he := absurd he List.not_mem_nil

/-- Only the queue pair `connKey` changes, and requests come from it only. -/
structure Touches (connKey : ℕ) (s s' : ConnectionSystem) : Prop where
  clients : s'.client.clients = s.client.clients
  addr : s'.client.addr = s.client.addr
  mgmtAddr : s'.client.mgmtAddr = s.client.mgmtAddr
  lastConnKey : s'.client.manager.lastConnKey = s.client.manager.lastConnKey
  rconns : ∀ other, other ≠ connKey →
    s'.client.manager.rconns other = s.client.manager.rconns other
  connected : ∀ other, other ≠ connKey →
    s'.client.manager.connected other = s.client.manager.connected other
  served : ∃ new, s'.served = s.served ++ new ∧ ∀ e ∈ new, e.connKey = connKey

theorem Touches.refl (connKey : ℕ) (s : ConnectionSystem) : Touches connKey s s :=
  ⟨rfl, rfl, rfl, rfl, fun _ _ => rfl, fun _ _ => rfl, [], (List.append_nil _).symm,
    fun _ he => absurd he List.not_mem_nil⟩

theorem Touches.fatal (h : Touches connKey s s') : Touches connKey s s'.fatal :=
  ⟨h.clients, h.addr, h.mgmtAddr, h.lastConnKey, h.rconns, h.connected, h.served⟩

/-- So it is when the server has answered a request from it. -/
theorem Touches.answered {e : Served} (hclient : s'.client = s.client)
    (hserved : s'.served = s.served ++ [e]) (hkey : e.connKey = connKey) :
    Touches connKey s s' :=
  ⟨by rw [hclient], by rw [hclient], by rw [hclient], by rw [hclient], fun _ _ => by rw [hclient],
    fun _ _ => by rw [hclient], [e], hserved, by simpa using hkey⟩

theorem Touches.withManager (h : Touches connKey s s') {manager : QueuePairs}
    (hlast : manager.lastConnKey = s'.client.manager.lastConnKey)
    (hrconns : ∀ other, other ≠ connKey → manager.rconns other = s'.client.manager.rconns other)
    (hconnected : ∀ other, other ≠ connKey →
      manager.connected other = s'.client.manager.connected other) :
    Touches connKey s { s' with client := { s'.client with manager } } :=
  ⟨h.clients, h.addr, h.mgmtAddr, hlast.trans h.lastConnKey,
    fun other hother => (hrconns other hother).trans (h.rconns other hother),
    fun other hother => (hconnected other hother).trans (h.connected other hother), h.served⟩

theorem Touches.joined_iff (h : Touches connKey s s') {other : ℕ} (hother : other ≠ connKey) :
    s'.Joined management other ↔ s.Joined management other := by
  obtain ⟨new, hserved, hnew⟩ := h.served
  have hmem : ∀ e, e.connKey = other → (e ∈ s'.served ↔ e ∈ s.served) := by
    rintro e rfl
    rw [hserved, List.mem_append]
    constructor
    · rintro (he | he)
      · exact he
      · exact absurd (hnew e he) hother
    · exact Or.inl
  unfold Joined
  rw [h.connected other hother, h.rconns other hother]
  constructor
  · rintro ⟨hconnected, e, he, hkey, hrest⟩
    exact ⟨hconnected, e, (hmem e hkey).mp he, hkey, hrest⟩
  · rintro ⟨hconnected, e, he, hkey, hrest⟩
    exact ⟨hconnected, e, (hmem e hkey).mpr he, hkey, hrest⟩

theorem Touches.fresh (h : Touches connKey s s') (hfresh : s.Fresh)
    (hkey : connKey < s.client.manager.lastConnKey)
    (hservers : ∀ connection, (s'.servers connection).manager.Fresh) : s'.Fresh := by
  refine ⟨fun other hother => ?_, hservers, fun e he => ?_⟩
  · rw [h.lastConnKey] at hother
    rw [h.connected other (by omega)]
    exact hfresh.manager other hother
  · obtain ⟨new, hserved, hnew⟩ := h.served
    rw [h.lastConnKey]
    rw [hserved] at he
    rcases List.mem_append.mp he with he | he
    · exact hfresh.served e he
    · rw [hnew e he]
      exact hkey

/-- The server answers the request, and its return value is what happened on its side. -/
theorem handle_spec (hservers : ∀ connection, (s.servers connection).manager.Fresh)
    (connection : String) (management : Bool) (connKey : ℕ) (x : Handshake)
    (request : ConnMessage) :
    (s.handle connection management connKey x request).2.client = s.client ∧
      (∀ other,
        ((s.handle connection management connKey x request).2.servers other).manager.Fresh) ∧
      (s.handle connection management connKey x request).2.served =
        s.served ++ [⟨connKey, management, x.accepted,
          (s.handle connection management connKey x request).1⟩] := by
  have hupdate : ∀ server : ServerConnections, server.manager.Fresh →
      ∀ other, (Function.update s.servers connection server other).manager.Fresh := by
    intro server hserver other
    by_cases hother : other = connection
    · subst hother
      rwa [Function.update_self]
    · rw [Function.update_of_ne hother]
      exact hservers other
  unfold handle
  cases management with
  | false =>
    obtain ⟨hresult, hfresh⟩ :=
      ServerConnections.connectQueue_spec (hservers connection) x request
    exact ⟨rfl, hupdate _ hfresh, by rw [← hresult]; rfl⟩
  | true =>
    obtain ⟨hresult, hfresh⟩ :=
      ServerConnections.connectMgmtQueue_spec (hservers connection) x request
    exact ⟨rfl, hupdate _ hfresh, by rw [← hresult]; rfl⟩

/-- The exchange for a new queue pair: the client sees no failure exactly when nothing it tests
fails, and the queue pair is joined exactly when the server's method has succeeded too. -/
theorem exchange_spec (hservers : ∀ connection, (s.servers connection).manager.Fresh)
    (hunused : s.client.manager.connected connKey = false)
    (hunserved : ∀ e ∈ s.served, e.connKey ≠ connKey) (connection : String) (management : Bool)
    (serverConnkey : ℕ) (x : Handshake) {r : Option ℕ}
    (hrun : s.exchange connection management connKey serverConnkey x = (r, s')) :
    Touches connKey s s' ∧ (∀ other, (s'.servers other).manager.Fresh) ∧ r.isSome = x.passes ∧
      (s'.Joined management connKey ↔ x.passes = true ∧ x.accepted = true) := by
  have hnot : ¬ s.Joined management connKey := by
    rintro ⟨hconnected, -⟩
    rw [hunused] at hconnected
    cases hconnected
  obtain ⟨hclient, hfresh, hserved⟩ := handle_spec hservers connection management connKey x
    (.ofConn (s.client.manager.getLocalConnData connKey) serverConnkey)
  unfold exchange at hrun
  cases hdelivery : x.delivery with
  | requestLost =>
    simp only [hdelivery, Prod.mk.injEq] at hrun
    obtain ⟨rfl, rfl⟩ := hrun
    exact ⟨(Touches.refl _ _).fatal, hservers, by simp [Handshake.passes, hdelivery],
      iff_of_false hnot (by simp [Handshake.passes, hdelivery])⟩
  | unexpectedResponse =>
    simp only [hdelivery, Prod.mk.injEq] at hrun
    obtain ⟨rfl, rfl⟩ := hrun
    exact ⟨.refl _ _, hservers, by simp [Handshake.passes, hdelivery],
      iff_of_false hnot (by simp [Handshake.passes, hdelivery])⟩
  | responseLost =>
    simp only [hdelivery, Prod.mk.injEq] at hrun
    obtain ⟨rfl, rfl⟩ := hrun
    refine ⟨(Touches.answered hclient hserved rfl).fatal, hfresh,
      by simp [Handshake.passes, hdelivery],
      iff_of_false ?_ (by simp [Handshake.passes, hdelivery])⟩
    rintro ⟨hconnected, -⟩
    have hbefore := (congrArg (·.manager.connected connKey) hclient).symm.trans hconnected
    rw [hunused] at hbefore
    cases hbefore
  | delivered =>
    cases hhandle : s.handle connection management connKey x
        (.ofConn (s.client.manager.getLocalConnData connKey) serverConnkey) with
    | mk response s₁ =>
      rw [hhandle] at hclient hfresh hserved
      simp only at hclient hfresh hserved
      have hset : (s₁.client.manager.setRemoteConnData connKey
          (response.conn x.pastEnd)).connected connKey = false := by
        rw [hclient]
        exact hunused
      simp only [hdelivery, hhandle, QueuePairs.connectQP_of_not_connected hset,
        Prod.mk.injEq] at hrun
      obtain ⟨rfl, rfl⟩ := hrun
      have hpasses : x.passes = x.connectQP := by simp [Handshake.passes, hdelivery]
      have htouches := Touches.answered hclient hserved rfl
      rw [hpasses]
      cases x.connectQP with
      | false =>
        refine ⟨htouches.withManager rfl (fun _ hother => Function.update_of_ne hother _ _)
          fun _ _ => rfl, hfresh, rfl, iff_of_false ?_ (by simp)⟩
        rintro ⟨hconnected, -⟩
        exact absurd (hset.symm.trans hconnected) Bool.false_ne_true
      | true =>
        refine ⟨htouches.withManager rfl (fun _ hother => Function.update_of_ne hother _ _)
          fun _ hother => Function.update_of_ne hother _ _, hfresh, rfl, ?_⟩
        constructor
        · rintro ⟨-, e, he, hkey, -, hresult, -⟩
          rw [hserved] at he
          rcases List.mem_append.mp he with he | he
          · exact absurd hkey (hunserved e he)
          · obtain rfl := List.mem_singleton.mp he
            exact ⟨rfl, hresult⟩
        · rintro ⟨-, haccepted⟩
          refine ⟨Function.update_self _ _ _, ⟨connKey, management, x.accepted, response⟩, ?_,
            rfl, rfl, haccepted, x.pastEnd, Function.update_self _ _ _⟩
          rw [hserved]
          simp

/-- Queue pairs in use keep what they are. -/
structure Grows (s s' : ConnectionSystem) : Prop where
  lastConnKey : s.client.manager.lastConnKey ≤ s'.client.manager.lastConnKey
  joined : ∀ management connKey, connKey < s.client.manager.lastConnKey →
    (s'.Joined management connKey ↔ s.Joined management connKey)

theorem Grows.refl (s : ConnectionSystem) : Grows s s := ⟨le_rfl, fun _ _ _ => Iff.rfl⟩

theorem Grows.trans (h : Grows s s') (h' : Grows s' s'') : Grows s s'' :=
  ⟨h.lastConnKey.trans h'.lastConnKey, fun management connKey hkey =>
    (h'.joined management connKey (hkey.trans_le h.lastConnKey)).trans
      (h.joined management connKey hkey)⟩

theorem Touches.grows (h : Touches connKey s s') (hgrows : Grows s'' s)
    (hnew : s''.client.manager.lastConnKey ≤ connKey) : Grows s'' s' :=
  ⟨hgrows.lastConnKey.trans h.lastConnKey.ge, fun management other hother =>
    (h.joined_iff (by omega)).trans (hgrows.joined management other hother)⟩

/-- A new queue pair, connected to nothing, and entries of the maps. -/
theorem Fresh.initQP (h : s.Fresh) (creation : QPCreation) {client : ClientConnections}
    (hmanager : client.manager = (s.client.manager.initQP creation).2) :
    ({ s with client } : ConnectionSystem).Fresh ∧ Grows s { s with client } := by
  have hle := s.client.manager.lastConnKey_initQP_le creation
  refine ⟨⟨?_, h.servers, fun e he => ?_⟩, ?_, fun management connKey _ => ?_⟩
  · show client.manager.Fresh
    rw [hmanager]
    exact h.manager.initQP creation
  · show e.connKey < client.manager.lastConnKey
    rw [hmanager]
    exact (h.served e he).trans_le hle
  · show s.client.manager.lastConnKey ≤ client.manager.lastConnKey
    rw [hmanager]
    exact hle
  · unfold Joined
    simp only [hmanager, QueuePairs.connected_initQP, QueuePairs.rconns_initQP]

/-- A new queue pair, entered in the maps, and the exchange for it. -/
theorem exchange_new (h : s.Fresh) {creation : QPCreation} {manager : QueuePairs}
    (hcreate : s.client.manager.initQP creation = (some connKey, manager))
    (client : ClientConnections) (hmanager : client.manager = manager) (connection : String)
    (management : Bool) (serverConnkey : ℕ) (x : Handshake) {r : Option ℕ}
    (hrun : exchange { s with client } connection management connKey serverConnkey x = (r, s')) :
    s'.Fresh ∧ Grows s s' ∧ Touches connKey { s with client } s' ∧
      connKey < s'.client.manager.lastConnKey ∧ r.isSome = x.passes ∧
      (s'.Joined management connKey ↔ x.passes = true ∧ x.accepted = true) := by
  have hsnd : client.manager = (s.client.manager.initQP creation).2 := by rw [hmanager, hcreate]
  obtain ⟨hfresh, hgrows⟩ := h.initQP creation hsnd
  obtain ⟨-, rfl, hlast⟩ := QueuePairs.initQP_eq_some hcreate
  have hunused : client.manager.connected s.client.manager.lastConnKey = false := by
    rw [hsnd, QueuePairs.connected_initQP]
    exact h.manager _ le_rfl
  have hunserved : ∀ e ∈ s.served, e.connKey ≠ s.client.manager.lastConnKey :=
    fun e he => (h.served e he).ne
  obtain ⟨htouches, hservers, hpasses, hjoined⟩ :=
    exchange_spec hfresh.servers hunused hunserved connection management serverConnkey x hrun
  have hlt : s.client.manager.lastConnKey < client.manager.lastConnKey := by
    rw [hmanager, hlast]
    exact Nat.lt_succ_self _
  exact ⟨htouches.fresh hfresh hlt hservers, htouches.grows hgrows le_rfl, htouches,
    hlt.trans_eq htouches.lastConnKey.symm, hpasses, hjoined⟩

/-- The maps have the same entries for a connection. -/
structure SameEntries (connection : String) (s s' : ConnectionSystem) : Prop where
  clients : s'.client.clients connection = s.client.clients connection
  addr : s'.client.addr connection = s.client.addr connection
  mgmtAddr : s'.client.mgmtAddr connection = s.client.mgmtAddr connection

/-- What is known of the management queue a connection has. -/
structure MgmtLeft (s : ConnectionSystem) (connection : String) (joined : Bool) : Prop where
  old : ∀ connKey, s.client.mgmtAddr connection = some connKey →
    connKey < s.client.manager.lastConnKey
  joined_iff : (∃ connKey, s.client.mgmtAddr connection = some connKey ∧ s.Joined true connKey) ↔
    joined = true

theorem MgmtLeft.of_none {connection : String} {joined : Bool}
    (h : s.client.mgmtAddr connection = none) (hjoined : joined = false) :
    s.MgmtLeft connection joined := by
  refine ⟨fun connKey hkey => ?_, iff_of_false ?_ (by simp [hjoined])⟩
  · rw [h] at hkey
    cases hkey
  · rintro ⟨connKey, hkey, -⟩
    rw [h] at hkey
    cases hkey

theorem createManagementQueue_spec (h : s.Fresh) (connection : String) (connKeyServer : ℕ)
    (x : Handshake) (hnone : s.client.mgmtAddr connection = none) {r : Bool}
    (hrun : s.createManagementQueue connection connKeyServer x = (r, s')) :
    s'.Fresh ∧ Grows s s' ∧ r = (x.initQP.isCreated && x.passes) ∧
      s'.client.clients = s.client.clients ∧ s'.client.addr = s.client.addr ∧
      (∀ other, other ≠ connection → s'.client.mgmtAddr other = s.client.mgmtAddr other) ∧
      s'.MgmtLeft connection (x.initQP.isCreated && x.passes && x.accepted) := by
  unfold createManagementQueue at hrun
  cases hcreate : s.client.manager.initQP x.initQP with
  | mk created manager =>
    have hmanager : manager = (s.client.manager.initQP x.initQP).2 := by rw [hcreate]
    cases created with
    | none =>
      have hcreated := QueuePairs.initQP_eq_none hcreate
      simp only [hcreate, Prod.mk.injEq] at hrun
      obtain ⟨rfl, rfl⟩ := hrun
      obtain ⟨hfresh, hgrows⟩ := h.initQP x.initQP
        (show { s.client with manager }.manager = _ from hmanager)
      refine ⟨hfresh, hgrows, by simp [hcreated], rfl, rfl, fun _ _ => rfl, ?_⟩
      exact .of_none hnone (by simp [hcreated])
    | some clientAddr =>
      obtain ⟨hcreated, rfl, hlast⟩ := QueuePairs.initQP_eq_some hcreate
      simp only [hcreate] at hrun
      generalize hclient : ({ s.client with
        manager
        mgmtAddr := Function.update s.client.mgmtAddr connection
          (some s.client.manager.lastConnKey) } : ClientConnections) = client at hrun
      generalize hexchange : exchange { s with client } connection true
        s.client.manager.lastConnKey connKeyServer x = result at hrun
      obtain ⟨serverConnkey, s₁⟩ := result
      obtain ⟨rfl, rfl⟩ := Prod.mk.inj hrun
      obtain ⟨hfresh, hgrows, htouches, hlt, hpasses, hjoined⟩ :=
        exchange_new h hcreate client (by rw [← hclient]) connection true connKeyServer x hexchange
      have hentry : s₁.client.mgmtAddr connection = some s.client.manager.lastConnKey := by
        rw [htouches.mgmtAddr, ← hclient]
        exact Function.update_self _ _ _
      refine ⟨hfresh, hgrows, by rw [hcreated, Bool.true_and, hpasses], ?_, ?_,
        fun other hother => ?_, fun connKey hkey => ?_, ?_⟩
      · rw [htouches.clients, ← hclient]
      · rw [htouches.addr, ← hclient]
      · rw [htouches.mgmtAddr, ← hclient]
        exact Function.update_of_ne hother _ _
      · rw [hentry] at hkey
        obtain rfl := Option.some.inj hkey
        exact hlt
      · rw [hcreated, Bool.true_and, Bool.and_eq_true, ← hjoined, hentry]
        constructor
        · rintro ⟨connKey, hkey, hjoin⟩
          obtain rfl := Option.some.inj hkey
          exact hjoin
        · exact fun hjoin => ⟨_, rfl, hjoin⟩

/-- What the call that gets the message client leaves of its connection. -/
structure Left (s : ConnectionSystem) (connection : String) (first : ConnectCall) : Prop where
  client : s.client.clients connection = true
  queue : ∃ connKey, s.client.addr connection = some connKey ∧
    connKey < s.client.manager.lastConnKey ∧
    (s.Joined false connKey ↔ first.queue.passes = true ∧ first.queue.accepted = true)
  mgmt : s.MgmtLeft connection (first.queue.passes && (first.managementQueue &&
    (first.mgmtQueue.initQP.isCreated && first.mgmtQueue.passes && first.mgmtQueue.accepted)))

/-- The outcomes of a call. -/
inductive ConnectStep (s : ConnectionSystem) (call : ConnectCall) :
    Option ℕ → ConnectionSystem → Prop
  | again (connKey : ℕ) (hclient : s.client.clients call.connection = true) :
    ConnectStep s call (some connKey) s
  | failed (s' : ConnectionSystem) (hclient : s.client.clients call.connection = false)
    (hreaches : call.reaches = false) (hclient' : s'.client.clients call.connection = false)
    (hmgmt : s'.client.mgmtAddr call.connection = none) : ConnectStep s call none s'
  | reached (r : Option ℕ) (s' : ConnectionSystem)
    (hclient : s.client.clients call.connection = false) (hreaches : call.reaches = true)
    (hpasses : r.isSome = call.passes) (hleft : s'.Left call.connection call) :
    ConnectStep s call r s'

/-- The queue pair of a new connection is entered and the exchange for it is over. -/
structure QueueMade (s : ConnectionSystem) (call : ConnectCall) (connKey : ℕ)
    (serverConnkey : Option ℕ) (s' : ConnectionSystem) : Prop where
  fresh : s'.Fresh
  grows : Grows s s'
  clients : s'.client.clients call.connection = true
  addr : s'.client.addr call.connection = some connKey
  mgmtAddr : s'.client.mgmtAddr = s.client.mgmtAddr
  others : ∀ other, other ≠ call.connection → SameEntries other s s'
  lt : connKey < s'.client.manager.lastConnKey
  passes : serverConnkey.isSome = call.queue.passes
  joined : s'.Joined false connKey ↔ call.queue.passes = true ∧ call.queue.accepted = true

theorem queueMade_of_exchange (h : s.Fresh) (call : ConnectCall) {connKey : ℕ}
    {manager : QueuePairs} (hcreate : s.client.manager.initQP call.queue.initQP =
      (some connKey, manager)) {client : ClientConnections}
    (hentered : ({
      manager
      clients := Function.update s.client.clients call.connection true
      addr := Function.update s.client.addr call.connection (some connKey)
      mgmtAddr := s.client.mgmtAddr
      ended := s.client.ended } : ClientConnections) = client) {serverConnkey : Option ℕ}
    (hexchange : exchange { s with client } call.connection false connKey 0 call.queue =
      (serverConnkey, s')) : QueueMade s call connKey serverConnkey s' := by
  obtain ⟨hfresh, hgrows, htouches, hlt, hpasses, hjoined⟩ :=
    exchange_new h hcreate client (by rw [← hentered]) call.connection false 0 call.queue hexchange
  have hmgmt : s'.client.mgmtAddr = s.client.mgmtAddr := by rw [htouches.mgmtAddr, ← hentered]
  refine ⟨hfresh, hgrows, ?_, ?_, hmgmt, fun other hother => ⟨?_, ?_, congrFun hmgmt other⟩, hlt,
    hpasses, hjoined⟩
  · rw [htouches.clients, ← hentered]
    exact Function.update_self _ _ _
  · rw [htouches.addr, ← hentered]
    exact Function.update_self _ _ _
  · rw [htouches.clients, ← hentered]
    exact Function.update_of_ne hother _ _
  · rw [htouches.addr, ← hentered]
    exact Function.update_of_ne hother _ _

/-- Without a management queue this is all that the call leaves. -/
theorem QueueMade.left {serverConnkey : Option ℕ} {call : ConnectCall}
    (h : QueueMade s call connKey serverConnkey s')
    (hnone : s'.client.mgmtAddr call.connection = none)
    (hnot : call.queue.passes = false ∨ call.managementQueue = false) :
    s'.Left call.connection call := by
  refine ⟨h.clients, ⟨connKey, h.addr, h.lt, h.joined⟩, .of_none hnone ?_⟩
  rcases hnot with hnot | hnot <;> simp [hnot]

/-- The management queue that follows it. -/
theorem QueueMade.managed {serverConnkey : Option ℕ} {call : ConnectCall}
    (h : QueueMade s call connKey serverConnkey s')
    (hnone : s'.client.mgmtAddr call.connection = none) (hpassed : call.queue.passes = true)
    (hasked : call.managementQueue = true) (connKeyServer : ℕ) {created : Bool}
    (hrun : s'.createManagementQueue call.connection connKeyServer call.mgmtQueue =
      (created, s'')) :
    s''.Fresh ∧ Grows s s'' ∧ (∀ other, other ≠ call.connection → SameEntries other s s'') ∧
      created = call.passes ∧ s''.Left call.connection call := by
  obtain ⟨hfresh, hgrows, hcreated, hclients, haddr, hmgmt, hleft⟩ :=
    createManagementQueue_spec h.fresh call.connection connKeyServer call.mgmtQueue hnone hrun
  refine ⟨hfresh, h.grows.trans hgrows, fun other hother => ?_, ?_, ?_, ⟨connKey, ?_, ?_, ?_⟩, ?_⟩
  · have hold := h.others other hother
    exact ⟨by rw [hclients, hold.clients], by rw [haddr, hold.addr],
      by rw [hmgmt other hother, hold.mgmtAddr]⟩
  · simp [ConnectCall.passes, hpassed, hasked, hcreated]
  · rw [hclients]
    exact h.clients
  · rw [haddr]
    exact h.addr
  · exact h.lt.trans_le hgrows.lastConnKey
  · exact (hgrows.joined false connKey h.lt).trans h.joined
  · rw [hpassed, hasked, Bool.true_and, Bool.true_and]
    exact hleft

theorem connect_of_ended (hended : s.client.ended = true) (call : ConnectCall) :
    s.connect call = (none, s) := if_pos hended

theorem connect_spec (h : s.Fresh) (hended : s.client.ended = false) (call : ConnectCall)
    (hnone : s.client.clients call.connection = false →
      s.client.mgmtAddr call.connection = none) {r : Option ℕ}
    (hrun : s.connect call = (r, s')) :
    s'.Fresh ∧ Grows s s' ∧ (∀ other, other ≠ call.connection → SameEntries other s s') ∧
      ConnectStep s call r s' := by
  unfold connect at hrun
  rw [if_neg (by simp [hended])] at hrun
  by_cases hclient : s.client.clients call.connection = true
  · rw [if_pos hclient] at hrun
    obtain ⟨rfl, rfl⟩ := Prod.mk.inj hrun
    exact ⟨h, .refl s, fun _ _ => ⟨rfl, rfl, rfl⟩, .again _ hclient⟩
  rw [if_neg hclient] at hrun
  have hclient := Bool.eq_false_iff.mpr hclient
  cases hcreate : s.client.manager.initQP call.queue.initQP with
  | mk created manager =>
    have hsnd : manager = (s.client.manager.initQP call.queue.initQP).2 := by rw [hcreate]
    cases created with
    | none =>
      simp only [hcreate, Prod.mk.injEq] at hrun
      obtain ⟨rfl, rfl⟩ := hrun
      obtain ⟨hfresh, hgrows⟩ := h.initQP call.queue.initQP
        (show { s.client with manager }.manager = _ from hsnd)
      have hreaches : call.reaches = false := by
        rw [ConnectCall.reaches, QueuePairs.initQP_eq_none hcreate, Bool.false_and]
      exact ⟨hfresh, hgrows, fun _ _ => ⟨rfl, rfl, rfl⟩,
        .failed _ hclient hreaches hclient (hnone hclient)⟩
    | some connKey =>
      have hcreated := (QueuePairs.initQP_eq_some hcreate).1
      simp only [hcreate] at hrun
      cases hconnects : call.clientConnects with
      | false =>
        simp only [hconnects, Bool.false_eq_true, if_false] at hrun
        generalize hentered : ({ s.client with
          manager
          addr := Function.update s.client.addr call.connection (some connKey) } :
            ClientConnections) = client at hrun
        obtain ⟨rfl, rfl⟩ := Prod.mk.inj hrun
        obtain ⟨hfresh, hgrows⟩ := h.initQP call.queue.initQP
          (show client.fatal.manager = _ by rw [← hsnd, ← hentered]; rfl)
        have hreaches : call.reaches = false := by
          rw [ConnectCall.reaches, hconnects, Bool.and_false]
        subst hentered
        exact ⟨hfresh, hgrows, fun other hother =>
          ⟨rfl, Function.update_of_ne hother _ _, rfl⟩,
          .failed _ hclient hreaches hclient (hnone hclient)⟩
      | true =>
        simp only [hconnects, if_true] at hrun
        generalize hentered : ({
          manager
          clients := Function.update s.client.clients call.connection true
          addr := Function.update s.client.addr call.connection (some connKey)
          mgmtAddr := s.client.mgmtAddr
          ended := s.client.ended } : ClientConnections) = client at hrun
        generalize hexchange : exchange { s with client } call.connection false connKey 0
          call.queue = result at hrun
        obtain ⟨serverConnkey, s₁⟩ := result
        have hmade : QueueMade s call connKey serverConnkey s₁ :=
          queueMade_of_exchange h call hcreate hentered hexchange
        have hreaches : call.reaches = true := by
          rw [ConnectCall.reaches, hcreated, hconnects, Bool.and_true]
        have hmgmtNone : s₁.client.mgmtAddr call.connection = none := by
          rw [hmade.mgmtAddr]
          exact hnone hclient
        cases serverConnkey with
        | none =>
          obtain ⟨rfl, rfl⟩ := Prod.mk.inj hrun
          have hfailed : call.queue.passes = false := hmade.passes.symm
          exact ⟨hmade.fresh, hmade.grows, hmade.others, .reached none s₁ hclient hreaches
            (by simp [ConnectCall.passes, hfailed]) (hmade.left hmgmtNone (Or.inl hfailed))⟩
        | some serverConnkey =>
          have hpassed : call.queue.passes = true := hmade.passes.symm
          cases hasked : call.managementQueue with
          | false =>
            simp only [hasked, Bool.false_eq_true, if_false] at hrun
            obtain ⟨rfl, rfl⟩ := Prod.mk.inj hrun
            exact ⟨hmade.fresh, hmade.grows, hmade.others,
              .reached (some connKey) s₁ hclient hreaches
              (by simp [ConnectCall.passes, hpassed, hasked])
              (hmade.left hmgmtNone (Or.inr hasked))⟩
          | true =>
            simp only [hasked, if_true] at hrun
            generalize hmanagement : s₁.createManagementQueue call.connection serverConnkey
              call.mgmtQueue = result at hrun
            obtain ⟨created, s₂⟩ := result
            obtain ⟨rfl, rfl⟩ := Prod.mk.inj hrun
            obtain ⟨hfresh, hgrows, hothers, hcreated, hleft⟩ :=
              hmade.managed hmgmtNone hpassed hasked serverConnkey hmanagement
            refine ⟨hfresh, hgrows, hothers, .reached _ s₂ hclient hreaches ?_ hleft⟩
            rw [← hcreated]
            cases created <;> rfl

theorem MgmtLeft.grows {connection : String} {joined : Bool} (h : s.MgmtLeft connection joined)
    (hgrows : Grows s s') (hsame : SameEntries connection s s') :
    s'.MgmtLeft connection joined := by
  constructor
  · intro connKey hkey
    rw [hsame.mgmtAddr] at hkey
    exact (h.old connKey hkey).trans_le hgrows.lastConnKey
  · rw [hsame.mgmtAddr, ← h.joined_iff]
    constructor
    · rintro ⟨connKey, hkey, hjoined⟩
      exact ⟨connKey, hkey, (hgrows.joined true connKey (h.old connKey hkey)).mp hjoined⟩
    · rintro ⟨connKey, hkey, hjoined⟩
      exact ⟨connKey, hkey, (hgrows.joined true connKey (h.old connKey hkey)).mpr hjoined⟩

theorem Left.grows {connection : String} {first : ConnectCall} (h : s.Left connection first)
    (hgrows : Grows s s') (hsame : SameEntries connection s s') : s'.Left connection first := by
  obtain ⟨connKey, haddr, hlt, hjoined⟩ := h.queue
  refine ⟨?_, ⟨connKey, ?_, hlt.trans_le hgrows.lastConnKey, ?_⟩, h.mgmt.grows hgrows hsame⟩
  · rw [hsame.clients]
    exact h.client
  · rw [hsame.addr]
    exact haddr
  · exact (hgrows.joined false connKey hlt).trans hjoined

/-- Whether the connection is what `connect` promises depends on that call alone. -/
theorem Left.connected_iff {connection : String} {first : ConnectCall} (h : s.Left connection first)
    (managementQueue : Bool) :
    s.Connected connection managementQueue ↔ first.completes managementQueue = true := by
  obtain ⟨connKey, haddr, -, hjoined⟩ := h.queue
  have hqueue : (∃ connKey, s.client.addr connection = some connKey ∧ s.Joined false connKey) ↔
      first.queue.passes = true ∧ first.queue.accepted = true := by
    rw [haddr, ← hjoined]
    constructor
    · rintro ⟨other, hkey, hjoin⟩
      obtain rfl := Option.some.inj hkey
      exact hjoin
    · exact fun hjoin => ⟨connKey, rfl, hjoin⟩
  unfold Connected ConnectCall.completes
  rw [hqueue, h.mgmt.joined_iff]
  cases managementQueue with
  | false => simp
  | true =>
    simp only [forall_const, Bool.and_eq_true, Bool.not_true, Bool.false_or]
    tauto

/-- The first of the calls on a connection that gets the message client. -/
def firstReaching (calls : List ConnectCall) (connection : String) : Option ConnectCall :=
  calls.find? fun call => call.connection == connection && call.reaches

theorem firstReaching_concat (done : List ConnectCall) (call : ConnectCall) (connection : String) :
    firstReaching (done ++ [call]) connection =
      (firstReaching done connection).or
        (if call.connection = connection ∧ call.reaches = true then some call else none) := by
  simp only [firstReaching, List.find?_append, List.find?_singleton, Bool.and_eq_true, beq_iff_eq]

/-- The state after a sequence of calls, while the process runs. -/
structure Tracks (done : List ConnectCall) (s : ConnectionSystem) : Prop where
  fresh : s.Fresh
  untouched : ∀ connection, firstReaching done connection = none →
    s.client.clients connection = false ∧ s.client.mgmtAddr connection = none
  left : ∀ connection first, firstReaching done connection = some first → s.Left connection first

theorem tracks_init : Tracks [] init where
  fresh := fresh_init
  untouched _ _ := ⟨rfl, rfl⟩
  left connection first h := by simp [firstReaching] at h

/-- A connection has a message client exactly when a call on it got one. -/
theorem Tracks.firstReaching_eq_none_iff {done : List ConnectCall} (h : Tracks done s)
    (connection : String) :
    firstReaching done connection = none ↔ s.client.clients connection = false := by
  constructor
  · exact fun hnone => (h.untouched connection hnone).1
  · intro hclient
    cases hfirst : firstReaching done connection with
    | none => rfl
    | some first =>
      rw [(h.left connection first hfirst).client] at hclient
      cases hclient

theorem Tracks.connect {done : List ConnectCall} (h : Tracks done s)
    (hended : s.client.ended = false) (call : ConnectCall) {r : Option ℕ}
    (hrun : s.connect call = (r, s')) :
    Tracks (done ++ [call]) s' ∧ ConnectStep s call r s' := by
  have hnone : s.client.clients call.connection = false →
      s.client.mgmtAddr call.connection = none := fun hclient =>
    (h.untouched _ ((h.firstReaching_eq_none_iff _).mpr hclient)).2
  obtain ⟨hfresh, hgrows, hothers, hstep⟩ := connect_spec h.fresh hended call hnone hrun
  have hother : ∀ connection, connection ≠ call.connection →
      firstReaching (done ++ [call]) connection = firstReaching done connection := by
    intro connection hne
    rw [firstReaching_concat, if_neg fun hcall => hne hcall.1.symm, Option.or_none]
  have hsame : (firstReaching (done ++ [call]) call.connection = none →
        s'.client.clients call.connection = false ∧
          s'.client.mgmtAddr call.connection = none) ∧
      ∀ first, firstReaching (done ++ [call]) call.connection = some first →
        s'.Left call.connection first := by
    rw [firstReaching_concat]
    cases hstep with
    | again connKey hclient =>
      cases hfirst : firstReaching done call.connection with
      | none =>
        rw [(h.untouched _ hfirst).1] at hclient
        cases hclient
      | some first =>
        refine ⟨fun hnone => by simp at hnone, fun first' hfirst' => ?_⟩
        obtain rfl : first = first' := by simpa using hfirst'
        exact h.left _ first hfirst
    | failed s' hclient hreaches hclient' hmgmt =>
      rw [(h.firstReaching_eq_none_iff _).mpr hclient, hreaches]
      exact ⟨fun _ => ⟨hclient', hmgmt⟩, fun first hfirst => by simp at hfirst⟩
    | reached r s' hclient hreaches hpasses hleft =>
      rw [(h.firstReaching_eq_none_iff _).mpr hclient, hreaches]
      refine ⟨fun hnone => by simp at hnone, fun first hfirst => ?_⟩
      obtain rfl : call = first := by simpa using hfirst
      exact hleft
  refine ⟨⟨hfresh, fun connection hfirst => ?_, fun connection first hfirst => ?_⟩, hstep⟩
  · by_cases hne : connection = call.connection
    · subst hne
      exact hsame.1 hfirst
    · rw [hother connection hne] at hfirst
      obtain ⟨hclients, hmgmt⟩ := h.untouched connection hfirst
      rw [(hothers connection hne).clients, (hothers connection hne).mgmtAddr]
      exact ⟨hclients, hmgmt⟩
  · by_cases hne : connection = call.connection
    · subst hne
      exact hsame.2 first hfirst
    · rw [hother connection hne] at hfirst
      exact (h.left connection first hfirst).grows hgrows (hothers connection hne)

/-- Runs are followed up to the end of the process. -/
theorem Tracks.run {done : List ConnectCall} (calls : List ConnectCall)
    (h : s.client.ended = false → Tracks done s) :
    (s.run calls).client.ended = false → Tracks (done ++ calls) (s.run calls) := by
  induction calls generalizing done s with
  | nil => simpa [ConnectionSystem.run] using h
  | cons call calls ih =>
    have hcall : (s.connect call).2.client.ended = false →
        Tracks (done ++ [call]) (s.connect call).2 := by
      intro hrunning
      cases hended : s.client.ended with
      | true =>
        rw [connect_of_ended hended, hended] at hrunning
        cases hrunning
      | false => exact ((h hended).connect hended call rfl).1
    have hrest := ih hcall
    rwa [List.append_assoc, List.singleton_append] at hrest

/-- Whenever a call returns true, its connection is what `connect` promises. -/
def SuccessIsConnected (calls : List ConnectCall) : Prop :=
  ∀ done call rest, calls = done ++ call :: rest →
    ∀ ibAddr s, (init.run done).connect call = (some ibAddr, s) →
      s.Connected call.connection call.managementQueue

/-- As long as the process runs: a call on a connection with a message client asks for no more
than the call that got the client has left, and a call that gets one is not deceived by a server
that has failed. -/
def NothingMissed (calls : List ConnectCall) : Prop :=
  ∀ done call rest, calls = done ++ call :: rest → (init.run done).client.ended = false →
    match firstReaching done call.connection with
    | some first => first.completes call.managementQueue = true
    | none => call.reaches = true → call.passes = true →
      call.completes call.managementQueue = true

/-- A successful connect means a connected queue, over any sequence of calls with any failures
in them, exactly when nothing has been missed. -/
theorem successIsConnected_iff_nothingMissed (calls : List ConnectCall) :
    SuccessIsConnected calls ↔ NothingMissed calls := by
  have htracks : ∀ done, (init.run done).client.ended = false → Tracks done (init.run done) :=
    fun done => Tracks.run done fun _ => tracks_init
  constructor
  · intro h done call rest hsplit hended
    have htrack := htracks done hended
    cases hrun : (init.run done).connect call with
    | mk r s =>
      have hsound := fun ibAddr hsome => h done call rest hsplit ibAddr s (hrun.trans hsome)
      cases (htrack.connect hended call hrun).2 with
      | again connKey hclient =>
        cases hfirst : firstReaching done call.connection with
        | none =>
          rw [(htrack.untouched _ hfirst).1] at hclient
          cases hclient
        | some first =>
          exact ((htrack.left _ first hfirst).connected_iff _).mp (hsound connKey rfl)
      | failed s hclient hreaches =>
        simp only [(htrack.firstReaching_eq_none_iff _).mpr hclient]
        intro hreach
        rw [hreaches] at hreach
        cases hreach
      | reached r s hclient hreaches hpasses hleft =>
        simp only [(htrack.firstReaching_eq_none_iff _).mpr hclient]
        intro _ hpass
        obtain ⟨ibAddr, rfl⟩ := Option.isSome_iff_exists.mp (hpasses.trans hpass)
        exact (hleft.connected_iff _).mp (hsound ibAddr rfl)
  · intro h done call rest hsplit ibAddr s hrun
    have hended : (init.run done).client.ended = false := by
      by_contra hover
      rw [connect_of_ended (by simpa using hover)] at hrun
      cases hrun
    have htrack := htracks done hended
    have hcall := h done call rest hsplit hended
    cases (htrack.connect hended call hrun).2 with
    | again connKey hclient =>
      cases hfirst : firstReaching done call.connection with
      | none =>
        rw [(htrack.untouched _ hfirst).1] at hclient
        cases hclient
      | some first =>
        simp only [hfirst] at hcall
        exact ((htrack.left _ first hfirst).connected_iff _).mpr hcall
    | reached r s hclient hreaches hpasses hleft =>
      simp only [(htrack.firstReaching_eq_none_iff _).mpr hclient] at hcall
      exact (hleft.connected_iff _).mpr (hcall hreaches hpasses.symm)

/-- A handshake that only the client's device may spoil: `connectQP` cannot modify the queue
pair. -/
def modifiedOrNot (connectQP : Bool) : Handshake where
  initQP := .created default
  delivery := .delivered
  serverInitQP := .created default
  serverConnectQP := true
  pastEnd := fun _ => 0
  connectQP

/-- The first call returns false. The second returns true at once. -/
def failedThenAgain : List ConnectCall :=
  [⟨"server", false, true, modifiedOrNot false, modifiedOrNot true⟩,
    ⟨"server", false, true, modifiedOrNot true, modifiedOrNot true⟩]

theorem success_after_failed_connect : ¬ SuccessIsConnected failedThenAgain := by
  intro h
  obtain ⟨⟨connKey, haddr, hconnected, -⟩, -⟩ := h [_] _ [] rfl 0 _ rfl
  obtain rfl : 0 = connKey := Option.some.inj haddr
  cases hconnected

end ConnectionSystem

end DpiLibrary
