import Mathlib.Data.List.GetD
import Mathlib.Data.List.Nodup
import Mathlib.Tactic.Common
import DpiLibrary.Rdma.ConnectRuns
import DpiLibrary.Rdma.ConnectionCluster

/-!
# Paired queues

The queue pairs of all clients and of all servers are paired off: no queue pair has two
partners, and both sides of a pair hold each other's connection data. Only a queue pair whose
server could not make a partner for it is connected without one, since it is answered all the
same.
-/

namespace DpiLibrary

open Schedule

/-- Connection data arrive as they were sent. -/
@[simp] theorem ConnMessage.conn_ofConn (conn : ConnData) (serverConnkey : ℕ)
    (pastEnd : ℕ → ℕ) : (ConnMessage.ofConn conn serverConnkey).conn pastEnd = conn := by
  cases conn with
  | mk buffer rkey qpNum lid gid psn =>
    simp only [ConnMessage.conn, ConnMessage.ofConn, ConnData.mk.injEq, true_and, and_true]
    funext i
    have hi : (i : ℕ) < (List.ofFn gid).length := by simp only [List.length_ofFn, i.isLt]
    rw [List.getD_eq_getElem _ _ hi, List.getElem_ofFn]

namespace QueuePairs

variable {m m' m'' : QueuePairs} {connKey : ℕ}

/-- Queue pairs in use stay what they are, and those not made yet are not connected. -/
structure Keeps (m m' : QueuePairs) : Prop where
  lastConnKey : m.lastConnKey ≤ m'.lastConnKey
  lconns : ∀ connKey < m.lastConnKey, m'.lconns connKey = m.lconns connKey
  rconns : ∀ connKey < m.lastConnKey, m'.rconns connKey = m.rconns connKey
  connected : ∀ connKey < m.lastConnKey, m'.connected connKey = m.connected connKey
  fresh : m'.Fresh

theorem Fresh.keeps (h : m.Fresh) : Keeps m m :=
  ⟨le_rfl, fun _ _ => rfl, fun _ _ => rfl, fun _ _ => rfl, h⟩

theorem Fresh.keeps_initQP (h : m.Fresh) (creation : QPCreation) :
    Keeps m (m.initQP creation).2 where
  lastConnKey := m.lastConnKey_initQP_le creation
  lconns := by
    intro connKey hlt
    cases creation with
    | created conn => exact Function.update_of_ne hlt.ne _ _
    | _ => rfl
  rconns := fun connKey _ => congrFun (m.rconns_initQP creation) connKey
  connected := fun connKey _ => congrFun (m.connected_initQP creation) connKey
  fresh := h.initQP creation

/-- A queue pair made after `m` receives data and may get connected. -/
theorem Keeps.update (h : Keeps m m') (hnew : m.lastConnKey ≤ connKey)
    (hlt : connKey < m'.lastConnKey) (conn : ConnData) (modified : Bool) :
    Keeps m ((m'.setRemoteConnData connKey conn).connectQP connKey modified).2 := by
  have hset : Keeps m (m'.setRemoteConnData connKey conn) := by
    refine ⟨h.lastConnKey, h.lconns, fun other hother => ?_, h.connected, h.fresh⟩
    exact (Function.update_of_ne (by omega) _ _).trans (h.rconns other hother)
  unfold connectQP
  split_ifs with hconnected hmodified
  · exact hset
  · refine ⟨hset.lastConnKey, hset.lconns, hset.rconns, fun other hother => ?_,
      fun other hother => ?_⟩
    · exact (Function.update_of_ne (by omega) _ _).trans (h.connected other hother)
    · have hne : other ≠ connKey := by
        have hle : m'.lastConnKey ≤ other := hother
        omega
      exact (Function.update_of_ne hne _ _).trans (h.fresh other hother)
  · exact hset

end QueuePairs

/-- What a server's method returns and leaves. -/
inductive ServerConnections.Answered (m : QueuePairs) (received : ConnData)
    (serverConnkey : ℕ → ℕ) : Bool → ConnMessage → QueuePairs → Prop
  | refused (m' : QueuePairs) (hkeeps : m.Keeps m') :
    Answered m received serverConnkey false {} m'
  | accepted (m' : QueuePairs) (hkeeps : m.Keeps m') (hlast : m'.lastConnKey = m.lastConnKey + 1)
    (hconnected : m'.connected m.lastConnKey = true)
    (hrconns : m'.rconns m.lastConnKey = some received) :
    Answered m received serverConnkey true
      (.ofConn (m'.lconns m.lastConnKey) (serverConnkey m.lastConnKey)) m'

namespace ServerConnections

theorem answered_connectWith {server : ServerConnections} (h : server.manager.Fresh)
    (x : Handshake) (request : ConnMessage) (enter : ServerConnections → ℕ → ServerConnections)
    (serverConnkey : ℕ → ℕ)
    (henter : ∀ server ibAddr, (enter server ibAddr).manager = server.manager) :
    Answered server.manager (request.conn x.pastEnd) serverConnkey
      (server.connectWith x request enter serverConnkey).1
      (server.connectWith x request enter serverConnkey).2.1
      (server.connectWith x request enter serverConnkey).2.2.manager := by
  have hkeeps := h.keeps_initQP x.serverInitQP
  unfold connectWith
  cases hcreate : server.manager.initQP x.serverInitQP with
  | mk created manager =>
    rw [hcreate] at hkeeps
    cases created with
    | none => exact .refused manager hkeeps
    | some ibAddr =>
      obtain ⟨-, rfl, hlast⟩ := QueuePairs.initQP_eq_some hcreate
      have hupdate := hkeeps.update le_rfl (by simp only [hlast]; omega) (request.conn x.pastEnd)
        x.serverConnectQP
      have hnot : (manager.setRemoteConnData server.manager.lastConnKey
          (request.conn x.pastEnd)).connected server.manager.lastConnKey = false := by
        have hsame := server.manager.connected_initQP x.serverInitQP
        rw [hcreate] at hsame
        exact (congrFun hsame _).trans (h _ le_rfl)
      rw [QueuePairs.connectQP_of_not_connected hnot] at hupdate
      simp only [henter, QueuePairs.connectQP_of_not_connected hnot]
      revert hupdate
      cases x.serverConnectQP with
      | false =>
        intro hupdate
        exact .refused _ hupdate
      | true =>
        intro hupdate
        exact .accepted _ hupdate hlast (Function.update_self _ _ _) (Function.update_self _ _ _)

theorem addr2mgmtAddr_connectQueue (server : ServerConnections) (x : Handshake)
    (request : ConnMessage) :
    (server.connectQueue x request).2.2.addr2mgmtAddr = server.addr2mgmtAddr := by
  unfold connectQueue connectWith
  split
  · rfl
  · simp only
    split <;> rfl

/-- Only the entry for the key in the request changes, also when the method fails. -/
theorem addr2mgmtAddr_connectMgmtQueue (server : ServerConnections) (x : Handshake)
    (request : ConnMessage) :
    (∀ key, key ≠ request.serverConnkey →
      (server.connectMgmtQueue x request).2.2.addr2mgmtAddr key = server.addr2mgmtAddr key) ∧
    ((server.connectMgmtQueue x request).1 = true →
      (server.connectMgmtQueue x request).2.2.addr2mgmtAddr request.serverConnkey =
        some server.manager.lastConnKey) := by
  unfold connectMgmtQueue connectWith
  split
  · exact ⟨fun _ _ => rfl, fun h => absurd h Bool.false_ne_true⟩
  · next ibAddr manager hcreate =>
    obtain ⟨-, rfl, -⟩ := QueuePairs.initQP_eq_some hcreate
    simp only
    split
    · exact ⟨fun key hne => Function.update_of_ne hne _ _,
        fun h => absurd h Bool.false_ne_true⟩
    · exact ⟨fun key hne => Function.update_of_ne hne _ _, fun _ => Function.update_self _ _ _⟩

end ServerConnections

namespace ConnectionCluster

variable {ι : Type} {s s' : ConnectionCluster ι} {i : ι} {connKey : ℕ}

/-- What the two sides of a pair know of each other. -/
structure Agreed (s : ConnectionCluster ι) (p : QueuePairing ι) : Prop where
  client_lt : p.connKey < (s.clients p.client).manager.lastConnKey
  server_lt : p.serverKey < (s.servers p.connection).manager.lastConnKey
  server_connected : (s.servers p.connection).manager.connected p.serverKey = true
  server_rconns : (s.servers p.connection).manager.rconns p.serverKey =
    some ((s.clients p.client).manager.lconns p.connKey)
  client_rconns : (s.clients p.client).manager.connected p.connKey = true →
    (s.clients p.client).manager.rconns p.connKey =
      some ((s.servers p.connection).manager.lconns p.serverKey)

/-- The queue pair has been answered by a server that could not make a partner for it. -/
def Unanswered (s : ConnectionCluster ι) (i : ι) (connKey : ℕ) : Prop :=
  ∃ pastEnd, (s.clients i).manager.rconns connKey = some (ConnMessage.conn {} pastEnd)

structure Matched (s : ConnectionCluster ι) : Prop where
  clients_fresh : ∀ i, (s.clients i).manager.Fresh
  servers_fresh : ∀ connection, (s.servers connection).manager.Fresh
  agreed : ∀ p ∈ s.pairs, s.Agreed p
  clients_nodup : (s.pairs.map fun p => (p.client, p.connKey)).Nodup
  servers_nodup : (s.pairs.map fun p => (p.connection, p.serverKey)).Nodup
  paired : ∀ i connKey, (s.clients i).manager.connected connKey = true →
    (∃ p ∈ s.pairs, p.client = i ∧ p.connKey = connKey) ∨ s.Unanswered i connKey

theorem matched_init : (init : ConnectionCluster ι).Matched where
  clients_fresh _ := QueuePairs.fresh_empty
  servers_fresh _ := QueuePairs.fresh_empty
  agreed _ hp := absurd hp List.not_mem_nil
  clients_nodup := List.nodup_nil
  servers_nodup := List.nodup_nil
  paired i connKey h := by simp [init, ClientConnections.empty, QueuePairs.empty] at h

/-- The pairs are matched whatever the maps of the clients and the servers are. -/
theorem Matched.of_manager (h : s.Matched)
    (hclients : ∀ i, (s.clients i).manager.Keeps (s'.clients i).manager)
    (hconnected : ∀ i connKey, (s'.clients i).manager.connected connKey =
      (s.clients i).manager.connected connKey)
    (hrconns : ∀ i, (s'.clients i).manager.rconns = (s.clients i).manager.rconns)
    (hservers : ∀ connection, (s.servers connection).manager.Keeps
      (s'.servers connection).manager)
    (hpairs : s'.pairs = s.pairs) : s'.Matched where
  clients_fresh i := (hclients i).fresh
  servers_fresh connection := (hservers connection).fresh
  agreed := by
    intro p hp
    rw [hpairs] at hp
    obtain ⟨hclient, hserver, hconn, hserverData, hclientData⟩ := h.agreed p hp
    refine ⟨hclient.trans_le (hclients _).lastConnKey, hserver.trans_le (hservers _).lastConnKey,
      ((hservers _).connected _ hserver).trans hconn, ?_, fun hmade => ?_⟩
    · rw [(hservers _).rconns _ hserver, (hclients _).lconns _ hclient]
      exact hserverData
    · rw [hrconns, (hservers _).lconns _ hserver]
      rw [hconnected] at hmade
      exact hclientData hmade
  clients_nodup := by rw [hpairs]; exact h.clients_nodup
  servers_nodup := by rw [hpairs]; exact h.servers_nodup
  paired := by
    intro i connKey hmade
    rw [hconnected] at hmade
    unfold Unanswered
    rw [hpairs, hrconns]
    exact h.paired i connKey hmade

/-- What serving a request comes to: the server has made a partner for the client's queue pair
and answers its data, or it has not and answers nothing. -/
inductive Outcome (s : ConnectionCluster ι) (i : ι) (connection : String) (management : Bool)
    (connKey requestKey : ℕ) (x : Handshake) : ConnMessage → ConnectionCluster ι → Prop
  | refused (server : ServerConnections) (hrefused : x.accepted = false)
    (hkeeps : (s.servers connection).manager.Keeps server.manager)
    (hothers : ∀ key, management = true → key ≠ requestKey →
      server.addr2mgmtAddr key = (s.servers connection).addr2mgmtAddr key)
    (hqueue : management = false →
      server.addr2mgmtAddr = (s.servers connection).addr2mgmtAddr) :
    Outcome s i connection management connKey requestKey x {}
      { s with servers := Function.update s.servers connection server }
  | accepted (server : ServerConnections) (serverConnkey : ℕ)
    (hkeeps : (s.servers connection).manager.Keeps server.manager)
    (hlast : server.manager.lastConnKey = (s.servers connection).manager.lastConnKey + 1)
    (hconnected : server.manager.connected (s.servers connection).manager.lastConnKey = true)
    (hrconns : server.manager.rconns (s.servers connection).manager.lastConnKey =
      some ((s.clients i).manager.lconns connKey))
    (hothers : ∀ key, management = true → key ≠ requestKey →
      server.addr2mgmtAddr key = (s.servers connection).addr2mgmtAddr key)
    (hqueue : management = false →
      server.addr2mgmtAddr = (s.servers connection).addr2mgmtAddr ∧
        serverConnkey = (s.servers connection).manager.lastConnKey)
    (hmgmt : management = true →
      server.addr2mgmtAddr requestKey = some (s.servers connection).manager.lastConnKey) :
    Outcome s i connection management connKey requestKey x
      (.ofConn (server.manager.lconns (s.servers connection).manager.lastConnKey) serverConnkey)
      { s with
        servers := Function.update s.servers connection server
        pairs := s.pairs ++
          [⟨i, connKey, connection, (s.servers connection).manager.lastConnKey, management⟩] }

theorem outcome_serve (h : ∀ connection, (s.servers connection).manager.Fresh) (i : ι)
    (connection : String) (management : Bool) (connKey serverConnkey : ℕ) (x : Handshake)
    {request : ConnMessage} {response : ConnMessage}
    (hrequest : ConnMessage.ofConn ((s.clients i).manager.lconns connKey) serverConnkey = request)
    (hserve : s.serve i connection management connKey x request = (response, s')) :
    Outcome s i connection management connKey serverConnkey x response s' := by
  have hkey : request.serverConnkey = serverConnkey := by rw [← hrequest]; rfl
  have hreceived : request.conn x.pastEnd = (s.clients i).manager.lconns connKey := by
    rw [← hrequest, ConnMessage.conn_ofConn]
  cases management with
  | true =>
    have hanswered := ServerConnections.answered_connectWith (h connection) x request
      (fun server ibAddr => { server with
        addr2mgmtAddr := Function.update server.addr2mgmtAddr request.serverConnkey
          (some ibAddr) }) (fun _ => 0) fun _ _ => rfl
    have haccepted := (ServerConnections.connectMgmtQueue_spec (h connection) x request).1
    obtain ⟨hothers, hmgmt⟩ :=
      ServerConnections.addr2mgmtAddr_connectMgmtQueue (s.servers connection) x request
    simp only [serve, if_true] at hserve
    change ServerConnections.Answered _ _ _
      ((s.servers connection).connectMgmtQueue x request).1
      ((s.servers connection).connectMgmtQueue x request).2.1
      ((s.servers connection).connectMgmtQueue x request).2.2.manager at hanswered
    rcases hanswer : (s.servers connection).connectMgmtQueue x request with
      ⟨result, response', server⟩
    rw [hanswer] at hanswered haccepted hothers hmgmt hserve
    simp only [hreceived, hkey] at hanswered haccepted hothers hmgmt hserve
    obtain ⟨rfl, rfl⟩ := Prod.mk.inj hserve
    generalize hmanager : server.manager = manager at hanswered
    cases hanswered with
    | refused _ hkeeps =>
      subst hmanager
      simpa using Outcome.refused server haccepted.symm hkeeps (fun key _ => hothers key) (by simp)
    | accepted _ hkeeps hlast hconnected hrconns =>
      subst hmanager
      exact Outcome.accepted server _ hkeeps hlast hconnected hrconns (fun key _ => hothers key)
        (by simp) (fun _ => hmgmt rfl)
  | false =>
    have hanswered := ServerConnections.answered_connectWith (h connection) x request
      (fun server ibAddr => { server with addr := server.addr ++ [ibAddr] }) id
      fun _ _ => rfl
    have haccepted := (ServerConnections.connectQueue_spec (h connection) x request).1
    have hqueue := ServerConnections.addr2mgmtAddr_connectQueue (s.servers connection) x request
    simp only [serve, Bool.false_eq_true, if_false] at hserve
    change ServerConnections.Answered _ _ _
      ((s.servers connection).connectQueue x request).1
      ((s.servers connection).connectQueue x request).2.1
      ((s.servers connection).connectQueue x request).2.2.manager at hanswered
    rcases hanswer : (s.servers connection).connectQueue x request with
      ⟨result, response', server⟩
    rw [hanswer] at hanswered haccepted hqueue hserve
    simp only [hreceived] at hanswered haccepted hqueue hserve
    obtain ⟨rfl, rfl⟩ := Prod.mk.inj hserve
    generalize hmanager : server.manager = manager at hanswered
    cases hanswered with
    | refused _ hkeeps =>
      subst hmanager
      simpa using Outcome.refused server haccepted.symm hkeeps (by simp) (fun _ => hqueue)
    | accepted _ hkeeps hlast hconnected hrconns =>
      subst hmanager
      exact Outcome.accepted server _ hkeeps hlast hconnected hrconns (by simp)
        (fun _ => ⟨hqueue, rfl⟩) (by simp)

theorem keeps_update {server : ServerConnections} {connection : String}
    (h : ∀ connection, (s.servers connection).manager.Fresh)
    (hkeeps : (s.servers connection).manager.Keeps server.manager) (other : String) :
    (s.servers other).manager.Keeps
      (Function.update s.servers connection server other).manager := by
  rcases eq_or_ne other connection with rfl | hne
  · rwa [Function.update_self]
  · rw [Function.update_of_ne hne]
    exact (h other).keeps

/-- Serving a request for a queue pair that has no partner yet. -/
theorem Matched.outcome (h : s.Matched) {connection : String} {management : Bool}
    {requestKey : ℕ} {x : Handshake} {response : ConnMessage}
    (hkey : connKey < (s.clients i).manager.lastConnKey)
    (hunused : ∀ p ∈ s.pairs, p.client = i → p.connKey ≠ connKey)
    (hnot : (s.clients i).manager.connected connKey = false)
    (houtcome : Outcome s i connection management connKey requestKey x response s') :
    s'.Matched := by
  cases houtcome with
  | refused server hrefused hkeeps =>
    exact h.of_manager (fun i => (h.clients_fresh i).keeps) (fun _ _ => rfl) (fun _ => rfl)
      (keeps_update h.servers_fresh hkeeps) rfl
  | accepted server serverConnkey hkeeps hlast hconnected hrconns =>
    have hkept := keeps_update h.servers_fresh hkeeps
    refine ⟨h.clients_fresh, fun other => (hkept other).fresh, fun p hp => ?_, ?_, ?_,
      fun j key hmade => ?_⟩
    · rcases List.mem_append.mp hp with hold | hnew
      · obtain ⟨hclient, hserver, hconn, hserverData, hclientData⟩ := h.agreed p hold
        refine ⟨hclient, hserver.trans_le (hkept _).lastConnKey,
          ((hkept _).connected _ hserver).trans hconn,
          ((hkept _).rconns _ hserver).trans hserverData, fun hmade => ?_⟩
        exact (hclientData hmade).trans (congrArg some ((hkept _).lconns _ hserver).symm)
      · obtain rfl := List.mem_singleton.mp hnew
        refine ⟨hkey, ?_, ?_, ?_, fun hmade => ?_⟩
        · simp only [Function.update_self, hlast]
          omega
        · simpa using hconnected
        · simpa using hrconns
        · exact absurd (hnot.symm.trans hmade) Bool.false_ne_true
    · rw [List.map_append, List.nodup_append]
      refine ⟨h.clients_nodup, List.nodup_singleton _, fun a ha b hb => ?_⟩
      obtain ⟨p, hp, rfl⟩ := List.mem_map.mp ha
      obtain rfl := List.mem_singleton.mp hb
      intro heq
      obtain ⟨hi, hk⟩ := Prod.mk.inj heq
      exact hunused p hp hi hk
    · rw [List.map_append, List.nodup_append]
      refine ⟨h.servers_nodup, List.nodup_singleton _, fun a ha b hb => ?_⟩
      obtain ⟨p, hp, rfl⟩ := List.mem_map.mp ha
      obtain rfl := List.mem_singleton.mp hb
      intro heq
      obtain ⟨hc, hk⟩ := Prod.mk.inj heq
      have hlt := (h.agreed p hp).server_lt
      rw [hc, hk] at hlt
      exact lt_irrefl _ hlt
    · rcases h.paired j key hmade with ⟨p, hp, hpair⟩ | hempty
      · exact Or.inl ⟨p, List.mem_append_left _ hp, hpair⟩
      · exact Or.inr hempty

theorem Matched.eq_of_client (h : s.Matched) {p q : QueuePairing ι} (hp : p ∈ s.pairs)
    (hq : q ∈ s.pairs) (hclient : p.client = q.client) (hkey : p.connKey = q.connKey) : p = q :=
  List.inj_on_of_nodup_map h.clients_nodup hp hq (Prod.ext hclient hkey)

theorem Matched.with_pending (h : s.Matched) (pending : ι → Option (String × ℕ)) :
    ({ s with pending } : ConnectionCluster ι).Matched :=
  h.of_manager (fun i => (h.clients_fresh i).keeps) (fun _ _ => rfl) (fun _ => rfl)
    (fun connection => (h.servers_fresh connection).keeps) rfl

variable [DecidableEq ι]

theorem manager_fatal (s : ConnectionCluster ι) (i j : ι) :
    ((s.fatal i).clients j).manager = (s.clients j).manager := by
  rcases eq_or_ne j i with rfl | hne
  · simp [fatal, setClient, ClientConnections.fatal]
  · simp [fatal, setClient, Function.update_of_ne hne]

theorem Matched.fatal (h : s.Matched) (i : ι) : (s.fatal i).Matched := by
  refine h.of_manager (fun j => ?_) (fun j key => ?_) (fun j => ?_)
    (fun connection => (h.servers_fresh connection).keeps) rfl
  · rw [manager_fatal]
    exact (h.clients_fresh j).keeps
  · rw [manager_fatal]
  · rw [manager_fatal]

/-- A client takes data of its queue pair's partner, or of no partner when it has none. -/
theorem Matched.receive (h : s.Matched) {response : ConnMessage} (x : Handshake)
    (hkey : connKey < (s.clients i).manager.lastConnKey)
    (hnot : (s.clients i).manager.connected connKey = false)
    (hresponse : (∃ p ∈ s.pairs, p.client = i ∧ p.connKey = connKey ∧
        response.conn x.pastEnd = (s.servers p.connection).manager.lconns p.serverKey) ∨
      response = {} ∧ ∀ p ∈ s.pairs, p.client = i → p.connKey ≠ connKey) :
    (s.receive i connKey x response).2.Matched := by
  set m := (s.clients i).manager with hm
  have hset : (m.setRemoteConnData connKey (response.conn x.pastEnd)).connected connKey = false :=
    hnot
  have hmanager : ((s.receive i connKey x response).2.clients i).manager =
      { m with
        rconns := Function.update m.rconns connKey (some (response.conn x.pastEnd))
        connected := if x.connectQP then Function.update m.connected connKey true
          else m.connected } := by
    simp only [ConnectionCluster.receive, setClient, Function.update_self, ← hm,
      QueuePairs.connectQP_of_not_connected hset]
    cases x.connectQP <;> rfl
  have hothers : ∀ j, j ≠ i → (s.receive i connKey x response).2.clients j = s.clients j :=
    fun j hj => Function.update_of_ne hj _ _
  have hconnected : ∀ key, key ≠ connKey →
      ((s.receive i connKey x response).2.clients i).manager.connected key = m.connected key := by
    intro key hne
    rw [hmanager]
    cases x.connectQP
    · rfl
    · exact Function.update_of_ne hne _ _
  refine ⟨fun j => ?_, h.servers_fresh, fun p hp => ?_, h.clients_nodup, h.servers_nodup,
    fun j key hmade => ?_⟩
  · rcases eq_or_ne j i with rfl | hne
    · intro key hle
      have hlast : ((s.receive j connKey x response).2.clients j).manager.lastConnKey =
        m.lastConnKey := by rw [hmanager]
      rw [hlast] at hle
      rw [hconnected key (by omega)]
      exact h.clients_fresh j key hle
    · rw [hothers j hne]
      exact h.clients_fresh j
  · obtain ⟨hclient, hserver, hconn, hserverData, hclientData⟩ := h.agreed p hp
    rcases eq_or_ne p.client i with hi | hne
    · rw [hi] at hclient hserverData hclientData
      refine ⟨?_, hserver, hconn, ?_, ?_⟩
      · rw [hi, hmanager]
        exact hclient
      · rw [hi, hmanager]
        exact hserverData
      · rw [hi]
        intro hmade
        rcases eq_or_ne p.connKey connKey with hk | hk
        · rcases hresponse with ⟨q, hq, hqi, hqk, hdata⟩ | ⟨-, hnone⟩
          · obtain rfl := h.eq_of_client hp hq (hi.trans hqi.symm) (hk.trans hqk.symm)
            rw [hmanager, hk]
            exact (Function.update_self _ _ _).trans (congrArg some hdata)
          · exact absurd hk (hnone p hp hi)
        · rw [hconnected _ hk] at hmade
          rw [hmanager]
          exact (Function.update_of_ne hk _ _).trans (hclientData hmade)
    · refine ⟨?_, hserver, hconn, ?_, ?_⟩
      · rw [hothers _ hne]
        exact hclient
      · rw [hothers _ hne]
        exact hserverData
      · rw [hothers _ hne]
        exact hclientData
  · rcases eq_or_ne j i with rfl | hne
    · rcases eq_or_ne key connKey with rfl | hk
      · rcases hresponse with ⟨q, hq, hqi, hqk, -⟩ | ⟨rfl, -⟩
        · exact Or.inl ⟨q, hq, hqi, hqk⟩
        · refine Or.inr ⟨x.pastEnd, ?_⟩
          rw [hmanager]
          exact Function.update_self _ _ _
      · rw [hconnected key hk] at hmade
        rcases h.paired j key hmade with hpair | ⟨pastEnd, hempty⟩
        · exact Or.inl hpair
        · refine Or.inr ⟨pastEnd, ?_⟩
          rw [hmanager]
          exact (Function.update_of_ne hk _ _).trans hempty
    · rw [hothers j hne] at hmade
      unfold Unanswered
      rw [hothers j hne]
      exact h.paired j key hmade

/-- What an exchange comes to, by what happens to the request and the response. -/
inductive Exchanges (s : ConnectionCluster ι) (i : ι) (connection : String) (management : Bool)
    (connKey requestKey : ℕ) (x : Handshake) : Option ℕ → ConnectionCluster ι → Prop
  | unexpected : Exchanges s i connection management connKey requestKey x none s
  | requestLost : Exchanges s i connection management connKey requestKey x none (s.fatal i)
  | responseLost (response : ConnMessage) (s' : ConnectionCluster ι)
    (houtcome : Outcome s i connection management connKey requestKey x response s') :
    Exchanges s i connection management connKey requestKey x none (s'.fatal i)
  | answered (response : ConnMessage) (s' : ConnectionCluster ι) (key : Option ℕ)
    (hdelivery : x.delivery = .delivered)
    (houtcome : Outcome s i connection management connKey requestKey x response s')
    (hkey : ∀ serverConnkey ∈ key, serverConnkey = response.serverConnkey) :
    Exchanges s i connection management connKey requestKey x key
      (s'.receive i connKey x response).2

theorem exchange_cases (h : ∀ connection, (s.servers connection).manager.Fresh) (i : ι)
    (connection : String) (management : Bool) (connKey serverConnkey : ℕ) (x : Handshake) :
    Exchanges s i connection management connKey serverConnkey x
      (s.exchange i connection management connKey serverConnkey x).1
      (s.exchange i connection management connKey serverConnkey x).2 := by
  unfold ConnectionCluster.exchange QueuePairs.getLocalConnData
  generalize hrequest : ConnMessage.ofConn ((s.clients i).manager.lconns connKey) serverConnkey =
    request
  rcases hserve : s.serve i connection management connKey x request with ⟨response, s'⟩
  have houtcome := outcome_serve h i connection management connKey serverConnkey x hrequest hserve
  cases hdelivery : x.delivery with
  | requestLost => exact .requestLost
  | unexpectedResponse => exact .unexpected
  | responseLost =>
    simp only [hserve]
    exact .responseLost response s' houtcome
  | delivered =>
    simp only [hserve]
    apply Exchanges.answered response s' _ hdelivery houtcome
    intro key hkey
    split_ifs at hkey
    · exact (Option.some.inj hkey).symm
    · cases hkey

theorem Matched.exchanges (h : s.Matched) {connection : String} {management : Bool}
    {serverConnkey : ℕ} {x : Handshake} {key : Option ℕ}
    (hkey : connKey < (s.clients i).manager.lastConnKey)
    (hnot : (s.clients i).manager.connected connKey = false)
    (hunused : ∀ p ∈ s.pairs, p.client = i → p.connKey ≠ connKey)
    (hexchanges : Exchanges s i connection management connKey serverConnkey x key s') :
    s'.Matched := by
  cases hexchanges with
  | unexpected => exact h
  | requestLost => exact h.fatal i
  | responseLost response s' houtcome => exact (h.outcome hkey hunused hnot houtcome).fatal i
  | answered response s' key hdelivery houtcome =>
    have hserved := h.outcome hkey hunused hnot houtcome
    cases houtcome with
    | refused server hrefused hkeeps =>
      exact hserved.receive x hkey hnot (Or.inr ⟨rfl, hunused⟩)
    | accepted server key hkeeps hlast hconnected hrconns =>
      refine hserved.receive x hkey hnot (Or.inl ⟨_, List.mem_append_right _
        (List.mem_singleton_self _), rfl, rfl, ?_⟩)
      simp

theorem Matched.initQP (h : s.Matched) (creation : QPCreation) {client : ClientConnections}
    (hmanager : client.manager = ((s.clients i).manager.initQP creation).2) :
    (s.setClient i client).Matched := by
  have hclient : ∀ j, ((s.setClient i client).clients j).manager =
      if j = i then ((s.clients i).manager.initQP creation).2 else (s.clients j).manager := by
    intro j
    split_ifs with hj
    · subst hj
      rw [← hmanager]
      exact congrArg _ (Function.update_self _ _ _)
    · exact congrArg _ (Function.update_of_ne hj _ _)
  refine h.of_manager (fun j => ?_) (fun j key => ?_) (fun j => ?_)
    (fun connection => (h.servers_fresh connection).keeps) rfl
  · rw [hclient]
    split_ifs with hj
    · subst hj
      exact (h.clients_fresh j).keeps_initQP creation
    · exact (h.clients_fresh j).keeps
  · rw [hclient]
    split_ifs with hj
    · subst hj
      rw [QueuePairs.connected_initQP]
    · rfl
  · rw [hclient]
    split_ifs with hj
    · subst hj
      rw [QueuePairs.rconns_initQP]
    · rfl

/-- A new queue pair of a client and the exchange for it. -/
theorem Matched.exchange_new (h : s.Matched) {creation : QPCreation} {manager : QueuePairs}
    (hcreate : (s.clients i).manager.initQP creation = (some connKey, manager))
    (client : ClientConnections) (hmanager : client.manager = manager) (connection : String)
    (management : Bool) (serverConnkey : ℕ) (x : Handshake) :
    (s.setClient i client).Matched ∧ connKey < client.manager.lastConnKey ∧
      client.manager.connected connKey = false ∧
      (∀ p ∈ s.pairs, p.client = i → p.connKey ≠ connKey) ∧
      ((s.setClient i client).exchange i connection management connKey serverConnkey
        x).2.Matched := by
  have hsnd : client.manager = ((s.clients i).manager.initQP creation).2 := by
    rw [hmanager, hcreate]
  obtain ⟨-, rfl, hlast⟩ := QueuePairs.initQP_eq_some hcreate
  have hself : ((s.setClient i client).clients i).manager = client.manager :=
    congrArg _ (Function.update_self _ _ _)
  have hmade := h.initQP creation hsnd
  have hkey : (s.clients i).manager.lastConnKey < client.manager.lastConnKey := by
    rw [hmanager, hlast]
    exact Nat.lt_succ_self _
  have hnot : client.manager.connected (s.clients i).manager.lastConnKey = false := by
    rw [hsnd, QueuePairs.connected_initQP]
    exact h.clients_fresh i _ le_rfl
  have hunused : ∀ p ∈ s.pairs, p.client = i → p.connKey ≠ (s.clients i).manager.lastConnKey := by
    rintro p hp rfl
    exact (h.agreed p hp).client_lt.ne
  refine ⟨hmade, hkey, hnot, hunused, ?_⟩
  apply hmade.exchanges (by rwa [hself]) (by rwa [hself]) hunused
    (exchange_cases hmade.servers_fresh i connection management _ serverConnkey x)

/-- What a call of `connect` comes to: nothing when the client has the connection, a queue pair
without an exchange, or an exchange for a new queue pair. -/
inductive Connects (s : ConnectionCluster ι) (i : ι) (call : ConnectCall) :
    ConnectionCluster ι → Prop
  | again (hclient : (s.clients i).clients call.connection = true) : Connects s i call s
  | failed (client : ClientConnections)
    (hmanager : client.manager = ((s.clients i).manager.initQP call.queue.initQP).2)
    (hclients : client.clients = (s.clients i).clients) :
    Connects s i call (s.setClient i client)
  | exchanged (connKey : ℕ) (client : ClientConnections) (key : Option ℕ)
    (s' : ConnectionCluster ι) (pending : ι → Option (String × ℕ))
    (hclient : (s.clients i).clients call.connection = false)
    (hcreate : (s.clients i).manager.initQP call.queue.initQP = (some connKey, client.manager))
    (hclients : client.clients = Function.update (s.clients i).clients call.connection true)
    (hexchange : (s.setClient i client).exchange i call.connection false connKey 0 call.queue =
      (key, s'))
    (hpending : pending = s'.pending ∨ ∃ serverConnkey, key = some serverConnkey ∧
      pending = Function.update s'.pending i (some (call.connection, serverConnkey))) :
    Connects s i call { s' with pending }

theorem connects (s : ConnectionCluster ι) (i : ι) (call : ConnectCall) :
    Connects s i call (s.connect i (s.clients i) call) := by
  unfold ConnectionCluster.connect
  by_cases hclient : (s.clients i).clients call.connection = true
  · rw [if_pos hclient]
    exact .again hclient
  rw [if_neg hclient]
  cases hcreate : (s.clients i).manager.initQP call.queue.initQP with
  | mk created manager =>
    have hsnd : manager = ((s.clients i).manager.initQP call.queue.initQP).2 := by rw [hcreate]
    cases created with
    | none => exact .failed _ hsnd rfl
    | some connKey =>
      cases hconnects : call.clientConnects with
      | false => exact .failed _ hsnd rfl
      | true =>
        simp only [if_true]
        generalize hentered : ({
          manager
          clients := Function.update (s.clients i).clients call.connection true
          addr := Function.update (s.clients i).addr call.connection (some connKey)
          mgmtAddr := (s.clients i).mgmtAddr
          ended := (s.clients i).ended } : ClientConnections) = client
        rcases hexchange : (s.setClient i client).exchange i call.connection false connKey 0
          call.queue with ⟨key, s'⟩
        have hmade := fun pending => Connects.exchanged connKey client key s' pending
          (Bool.eq_false_iff.mpr hclient) (by rw [hcreate, ← hentered]) (by rw [← hentered])
          hexchange
        cases key with
        | none => exact hmade _ (Or.inl rfl)
        | some serverConnkey =>
          cases hasked : call.managementQueue with
          | false => exact hmade _ (Or.inl rfl)
          | true => exact hmade _ (Or.inr ⟨serverConnkey, rfl, rfl⟩)

theorem Matched.connect (h : s.Matched) {call : ConnectCall} (hconnects : Connects s i call s') :
    s'.Matched := by
  cases hconnects with
  | again => exact h
  | failed client hmanager => exact h.initQP call.queue.initQP hmanager
  | exchanged connKey client key s₁ pending hclient hcreate hclients hexchange hpending =>
    have hmade := (h.exchange_new hcreate client rfl call.connection false 0 call.queue).2.2.2.2
    rw [hexchange] at hmade
    exact hmade.with_pending pending

theorem Matched.createManagementQueue (h : s.Matched) (i : ι) (connection : String)
    (connKeyServer : ℕ) (x : Handshake) :
    (s.createManagementQueue i (s.clients i) connection connKeyServer x).Matched := by
  unfold ConnectionCluster.createManagementQueue
  cases hcreate : (s.clients i).manager.initQP x.initQP with
  | mk created manager =>
    have hsnd : manager = ((s.clients i).manager.initQP x.initQP).2 := by rw [hcreate]
    cases created with
    | none => exact h.initQP x.initQP hsnd
    | some clientAddr =>
      exact (h.exchange_new hcreate _ rfl connection true connKeyServer x).2.2.2.2

theorem Matched.step (h : s.Matched) {label : ClusterLabel ι} (hstep : s.step label = some s') :
    s'.Matched := by
  cases label with
  | connect i call =>
    simp only [ConnectionCluster.step] at hstep
    split_ifs at hstep
    split at hstep <;> cases hstep
    exact h.connect (connects s i call)
  | createManagementQueue i x =>
    simp only [ConnectionCluster.step] at hstep
    split at hstep <;> cases hstep
    exact (h.createManagementQueue i _ _ x).with_pending _

/-- In every run the queue pairs of the clients and those of the servers are paired off one to
one, and both sides of a pair hold the connection data of the other. A client's queue pair that
is connected is in a pair, unless its server failed, in which case it holds the data of an empty
response. -/
theorem queues_paired (labels : List (ClusterLabel ι)) :
    Throughout step (fun s : ConnectionCluster ι =>
      (∀ p ∈ s.pairs, s.Agreed p) ∧
      (s.pairs.map fun p => (p.client, p.connKey)).Nodup ∧
      (s.pairs.map fun p => (p.connection, p.serverKey)).Nodup ∧
      ∀ i connKey, (s.clients i).manager.connected connKey = true →
        (∃ p ∈ s.pairs, p.client = i ∧ p.connKey = connKey) ∨ s.Unanswered i connKey)
      init labels := by
  intro pre s hpre hexec
  have hmatched := invariant_exec (fun _ _ _ h hstep => Matched.step h hstep) pre _ s matched_init
    hexec
  exact ⟨hmatched.agreed, hmatched.clients_nodup, hmatched.servers_nodup, hmatched.paired⟩

end ConnectionCluster
end DpiLibrary
