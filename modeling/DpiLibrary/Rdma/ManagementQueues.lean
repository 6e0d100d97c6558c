import DpiLibrary.Rdma.ConnectionPairs

/-!
# Management queues

A server finds the management queue of a client by the key of the queue pair it made for that
client. The key travels through the client, and it is the right one unless the server's method
has failed: an empty response carries the key zero.
-/

namespace DpiLibrary

open Schedule

/-- The server's method succeeds if its response is delivered. -/
def Handshake.Granted (x : Handshake) : Prop := x.delivery = .delivered → x.accepted = true

instance (x : Handshake) : Decidable x.Granted :=
  inferInstanceAs (Decidable (x.delivery = .delivered → x.accepted = true))

/-- The exchange in a step of a cluster. -/
def ClusterLabel.handshake {ι : Type} : ClusterLabel ι → Handshake
  | .connect _ call => call.queue
  | .createManagementQueue _ x => x

namespace ConnectionCluster

variable {ι : Type} {s s' : ConnectionCluster ι} {i : ι} {connection : String}
  {management : Bool} {connKey requestKey : ℕ} {x : Handshake} {key : Option ℕ}

/-- What an exchange adds, when the server does not fail behind a delivered response. -/
structure Added (s : ConnectionCluster ι) (i : ι) (connection : String) (management : Bool)
    (connKey requestKey : ℕ) (key : Option ℕ) (made : List (QueuePairing ι))
    (s' : ConnectionCluster ι) : Prop where
  pairs : s'.pairs = s.pairs ++ made
  single : made = [] ∨
    made = [⟨i, connKey, connection, (s.servers connection).manager.lastConnKey, management⟩]
  clients : ∀ j, (s'.clients j).clients = (s.clients j).clients
  pending : s'.pending = s.pending
  connected : ∀ j other, (s'.clients j).manager.connected other = true →
    (s.clients j).manager.connected other = true ∨
      ∃ p ∈ made, p.client = j ∧ p.connKey = other
  others : ∀ server other, server ≠ connection ∨ management = false ∨ other ≠ requestKey →
    (s'.servers server).getMgmtQueue other = (s.servers server).getMgmtQueue other
  mgmt : management = true → ∀ p ∈ made,
    (s'.servers connection).getMgmtQueue requestKey = some p.serverKey
  key : management = false → ∀ serverConnkey ∈ key, ∃ p ∈ made, p.serverKey = serverConnkey

theorem Outcome.added {response : ConnMessage}
    (h : Outcome s i connection management connKey requestKey x response s') :
    ∃ made, Added s i connection management connKey requestKey none made s' ∧
      (x.accepted = true → ∃ p ∈ made, p.client = i ∧ p.connKey = connKey ∧
        (management = false → p.serverKey = response.serverConnkey)) := by
  cases h with
  | refused server hrefused hkeeps hothers hqueue =>
    refine ⟨[], ⟨by simp, Or.inl rfl, fun _ => rfl, rfl, fun _ _ => Or.inl,
      fun other key hother => ?_, by simp, by simp⟩, fun haccepted => ?_⟩
    · rcases eq_or_ne other connection with rfl | hne
      · simp only [Function.update_self]
        rcases hother with hne | hmanagement | hkey
        · exact absurd rfl hne
        · exact congrFun (hqueue hmanagement) key
        · cases management with
          | true => exact hothers key rfl hkey
          | false => exact congrFun (hqueue rfl) key
      · simp only [Function.update_of_ne hne]
    · simp [hrefused] at haccepted
  | accepted server serverConnkey hkeeps hlast hconnected hrconns hothers hqueue hmgmt =>
    refine ⟨_, ⟨rfl, Or.inr rfl, fun _ => rfl, rfl, fun _ _ => Or.inl, fun other key hother => ?_,
      fun hmanagement p hp => ?_, by simp⟩,
      fun _ => ⟨_, List.mem_singleton_self _, rfl, rfl,
        fun hmanagement => (hqueue hmanagement).2.symm⟩⟩
    · rcases eq_or_ne other connection with rfl | hne
      · simp only [Function.update_self]
        rcases hother with hne | hmanagement | hkey
        · exact absurd rfl hne
        · exact congrFun (hqueue hmanagement).1 key
        · cases management with
          | true => exact hothers key rfl hkey
          | false => exact congrFun (hqueue rfl).1 key
      · simp only [Function.update_of_ne hne]
    · obtain rfl := List.mem_singleton.mp hp
      simp only [Function.update_self]
      exact hmgmt hmanagement

theorem added_refl (s : ConnectionCluster ι) (i : ι) (connection : String) (management : Bool)
    (connKey requestKey : ℕ) : Added s i connection management connKey requestKey none [] s where
  pairs := by simp
  single := Or.inl rfl
  clients _ := rfl
  pending := rfl
  connected _ _ := Or.inl
  others _ _ _ := rfl
  mgmt := by simp
  key := by simp

/-- Clients make one queue and at most one management queue for each connection, and the server's
entry leads from the one to the other. -/
structure Managed (s : ConnectionCluster ι) : Prop where
  matched : s.Matched
  paired : ∀ i connKey, (s.clients i).manager.connected connKey = true →
    ∃ p ∈ s.pairs, p.client = i ∧ p.connKey = connKey
  known : ∀ p ∈ s.pairs, (s.clients p.client).clients p.connection = true
  single : ∀ p ∈ s.pairs, ∀ q ∈ s.pairs, p.management = q.management → p.client = q.client →
    p.connection = q.connection → p = q
  pending : ∀ i connection key, s.pending i = some (connection, key) →
    (∃ p ∈ s.pairs, p.management = false ∧ p.client = i ∧ p.connection = connection ∧
      p.serverKey = key) ∧
    ∀ p ∈ s.pairs, p.management = true → p.client = i → p.connection ≠ connection
  mgmt : ∀ p ∈ s.pairs, p.management = true → ∃ q ∈ s.pairs, q.management = false ∧
    q.client = p.client ∧ q.connection = p.connection ∧
    (s.servers p.connection).getMgmtQueue q.serverKey = some p.serverKey

theorem managed_init : (init : ConnectionCluster ι).Managed where
  matched := matched_init
  paired i connKey h := by simp [init, ClientConnections.empty, QueuePairs.empty] at h
  known _ hp := absurd hp List.not_mem_nil
  single _ hp := absurd hp List.not_mem_nil
  pending i connection key h := by simp [init] at h
  mgmt _ hp := absurd hp List.not_mem_nil

theorem Added.mem {made : List (QueuePairing ι)}
    (h : Added s i connection management connKey requestKey key made s') {p : QueuePairing ι}
    (hp : p ∈ made) : p.client = i ∧ p.connection = connection ∧ p.management = management := by
  rcases h.single with hnil | hone
  · simp [hnil] at hp
  · rw [hone] at hp
    obtain rfl := List.mem_singleton.mp hp
    exact ⟨rfl, rfl, rfl⟩

/-- At most one pair is added. -/
theorem Added.eq {made : List (QueuePairing ι)}
    (h : Added s i connection management connKey requestKey key made s') {p q : QueuePairing ι}
    (hp : p ∈ made) (hq : q ∈ made) : p = q := by
  rcases h.single with hnil | hone
  · simp [hnil] at hp
  · rw [hone] at hp hq
    exact (List.mem_singleton.mp hp).trans (List.mem_singleton.mp hq).symm

/-- What both kinds of exchanges keep, when a pair of this kind is new for the connection. -/
theorem Managed.added (h : s.Managed) {made : List (QueuePairing ι)}
    (hadded : Added s i connection management connKey requestKey key made s')
    (hnew : ∀ p ∈ s.pairs, p.management = management → p.client = i → p.connection ≠ connection)
    (hclient : (s.clients i).clients connection = true) :
    (∀ i connKey, (s'.clients i).manager.connected connKey = true →
        ∃ p ∈ s'.pairs, p.client = i ∧ p.connKey = connKey) ∧
      (∀ p ∈ s'.pairs, (s'.clients p.client).clients p.connection = true) ∧
      ∀ p ∈ s'.pairs, ∀ q ∈ s'.pairs, p.management = q.management → p.client = q.client →
        p.connection = q.connection → p = q := by
  rw [hadded.pairs]
  refine ⟨fun j other hmade => ?_, fun p hp => ?_, fun p hp q hq hkind hi hc => ?_⟩
  · rcases hadded.connected j other hmade with hbefore | ⟨p, hp, hpair⟩
    · obtain ⟨p, hp, hpair⟩ := h.paired j other hbefore
      exact ⟨p, List.mem_append_left _ hp, hpair⟩
    · exact ⟨p, List.mem_append_right _ hp, hpair⟩
  · rw [hadded.clients]
    rcases List.mem_append.mp hp with hold | hmade
    · exact h.known p hold
    · obtain ⟨rfl, rfl, -⟩ := hadded.mem hmade
      exact hclient
  · rcases List.mem_append.mp hp with hold | hmade <;>
      rcases List.mem_append.mp hq with hold' | hmade'
    · exact h.single p hold q hold' hkind hi hc
    · obtain ⟨hqi, hqc, hqm⟩ := hadded.mem hmade'
      exact absurd (hc.trans hqc) (hnew p hold (hkind.trans hqm) (hi.trans hqi))
    · obtain ⟨hpi, hpc, hpm⟩ := hadded.mem hmade
      exact absurd (hc.symm.trans hpc) (hnew q hold' (hkind.symm.trans hpm) (hi.symm.trans hpi))
    · exact hadded.eq hmade hmade'

variable [DecidableEq ι]

theorem connected_receive {response : ConnMessage} {j : ι} {other : ℕ}
    (h : ((s.receive i connKey x response).2.clients j).manager.connected other = true) :
    (s.clients j).manager.connected other = true ∨ j = i ∧ other = connKey := by
  rcases eq_or_ne j i with rfl | hne
  · rcases eq_or_ne other connKey with rfl | hother
    · exact Or.inr ⟨rfl, rfl⟩
    · left
      simp only [receive, setClient, Function.update_self, QueuePairs.connectQP] at h
      split_ifs at h
      · exact h
      · exact (Function.update_of_ne hother _ _).symm.trans h
      · exact h
  · left
    simpa [receive, setClient, Function.update_of_ne hne] using h

theorem clients_receive (s : ConnectionCluster ι) (i j : ι) (connKey : ℕ) (x : Handshake)
    (response : ConnMessage) :
    ((s.receive i connKey x response).2.clients j).clients = (s.clients j).clients := by
  rcases eq_or_ne j i with rfl | hne
  · simp [receive, setClient]
  · simp [receive, setClient, Function.update_of_ne hne]

theorem clients_fatal (s : ConnectionCluster ι) (i j : ι) :
    ((s.fatal i).clients j).clients = (s.clients j).clients := by
  rcases eq_or_ne j i with rfl | hne
  · simp [fatal, setClient, ClientConnections.fatal]
  · simp [fatal, setClient, Function.update_of_ne hne]

theorem Added.fatal {made : List (QueuePairing ι)}
    (h : Added s i connection management connKey requestKey key made s') (j : ι) :
    Added s i connection management connKey requestKey key made (s'.fatal j) where
  pairs := h.pairs
  single := h.single
  clients k := (clients_fatal s' j k).trans (h.clients k)
  pending := h.pending
  connected := by
    intro k other hconnected
    rw [manager_fatal] at hconnected
    exact h.connected k other hconnected
  others := h.others
  mgmt := h.mgmt
  key := h.key

theorem Exchanges.added (h : Exchanges s i connection management connKey requestKey x key s')
    (hgranted : x.Granted) :
    ∃ made, Added s i connection management connKey requestKey key made s' := by
  cases h with
  | unexpected => exact ⟨[], added_refl s i connection management connKey requestKey⟩
  | requestLost => exact ⟨[], (added_refl s i connection management connKey requestKey).fatal i⟩
  | responseLost response s' houtcome =>
    obtain ⟨made, hadded, -⟩ := houtcome.added
    exact ⟨made, hadded.fatal i⟩
  | answered response s' key hdelivery houtcome hkey =>
    obtain ⟨made, hadded, haccepted⟩ := houtcome.added
    obtain ⟨p, hp, hclient, hconnKey, hserver⟩ := haccepted (hgranted hdelivery)
    refine ⟨made, hadded.pairs, hadded.single,
      fun j => (clients_receive _ _ _ _ _ _).trans (hadded.clients j), hadded.pending,
      fun j other hconnected => ?_, hadded.others, hadded.mgmt, fun hmanagement key hmem => ?_⟩
    · rcases connected_receive hconnected with hbefore | ⟨rfl, rfl⟩
      · exact hadded.connected j other hbefore
      · exact Or.inr ⟨p, hp, hclient, hconnKey⟩
    · exact ⟨p, hp, (hserver hmanagement).trans (hkey key hmem).symm⟩

theorem Managed.setClient (h : s.Managed) (client : ClientConnections)
    (hmatched : (s.setClient i client).Matched)
    (hconnected : client.manager.connected = (s.clients i).manager.connected)
    (hclients : ∀ connection, (s.clients i).clients connection = true →
      client.clients connection = true) : (s.setClient i client).Managed where
  matched := hmatched
  paired := by
    intro j key hmade
    apply h.paired j key
    rcases eq_or_ne j i with rfl | hne
    · simpa [ConnectionCluster.setClient, hconnected] using hmade
    · simpa [ConnectionCluster.setClient, Function.update_of_ne hne] using hmade
  known := by
    intro p hp
    rcases eq_or_ne p.client i with hi | hne
    · have hknown := h.known p hp
      rw [hi] at hknown ⊢
      simpa [ConnectionCluster.setClient] using hclients _ hknown
    · simpa [ConnectionCluster.setClient, Function.update_of_ne hne] using h.known p hp
  single := h.single
  pending := h.pending
  mgmt := h.mgmt

/-- The exchange for the queue pair of a connection. -/
theorem Managed.queueAdded (h : s.Managed) {made : List (QueuePairing ι)} (hmatched : s'.Matched)
    (hadded : Added s i connection false connKey requestKey key made s')
    (hnew : ∀ p ∈ s.pairs, p.client = i → p.connection ≠ connection)
    (hclient : (s.clients i).clients connection = true) {pending : ι → Option (String × ℕ)}
    (hpending : pending = s'.pending ∨ ∃ serverConnkey, key = some serverConnkey ∧
      pending = Function.update s'.pending i (some (connection, serverConnkey))) :
    ({ s' with pending } : ConnectionCluster ι).Managed := by
  obtain ⟨hpaired, hknown, hsingle⟩ :=
    h.added hadded (fun p hp _ => hnew p hp) hclient
  have hnone : ∀ p ∈ s'.pairs, p.management = true → p ∈ s.pairs := by
    intro p hp hmanagement
    rw [hadded.pairs] at hp
    rcases List.mem_append.mp hp with hold | hmade
    · exact hold
    · have hqueue := (hadded.mem hmade).2.2
      simp [hmanagement] at hqueue
  have holds : ∀ p ∈ s.pairs, p ∈ s'.pairs := by
    intro p hp
    rw [hadded.pairs]
    exact List.mem_append_left _ hp
  have hbefore : ∀ j c k, s.pending j = some (c, k) →
      (∃ p ∈ s'.pairs, p.management = false ∧ p.client = j ∧ p.connection = c ∧ p.serverKey = k) ∧
      ∀ p ∈ s'.pairs, p.management = true → p.client = j → p.connection ≠ c := by
    intro j c k hsome
    obtain ⟨⟨p, hp, hpair⟩, hfree⟩ := h.pending j c k hsome
    exact ⟨⟨p, holds p hp, hpair⟩,
      fun p hp hmanagement => hfree p (hnone p hp hmanagement) hmanagement⟩
  refine ⟨hmatched.with_pending pending, hpaired, hknown, hsingle, fun j c k hsome => ?_,
    fun p hp hmanagement => ?_⟩
  · rcases hpending with rfl | ⟨serverConnkey, hkey, rfl⟩
    · rw [hadded.pending] at hsome
      exact hbefore j c k hsome
    · rcases eq_or_ne j i with rfl | hne
      · simp only [Function.update_self, Option.some.injEq, Prod.mk.injEq] at hsome
        obtain ⟨rfl, rfl⟩ := hsome
        obtain ⟨p, hp, hserver⟩ := hadded.key rfl serverConnkey hkey
        obtain ⟨hpi, hpc, hpm⟩ := hadded.mem hp
        refine ⟨⟨p, ?_, hpm, hpi, hpc, hserver⟩, fun p hp hmanagement hpi => ?_⟩
        · rw [hadded.pairs]
          exact List.mem_append_right _ hp
        · exact hnew p (hnone p hp hmanagement) hpi
      · simp only [Function.update_of_ne hne] at hsome
        rw [hadded.pending] at hsome
        exact hbefore j c k hsome
  · obtain ⟨q, hq, hqm, hqi, hqc, hentry⟩ := h.mgmt p (hnone p hp hmanagement) hmanagement
    refine ⟨q, holds q hq, hqm, hqi, hqc, ?_⟩
    exact (hadded.others _ _ (Or.inr (Or.inl rfl))).trans hentry

/-- The exchange for the management queue of a connection. -/
theorem Managed.mgmtAdded (h : s.Managed) {made : List (QueuePairing ι)} (hmatched : s'.Matched)
    (hadded : Added s i connection true connKey requestKey key made s')
    (hpending : s.pending i = some (connection, requestKey)) :
    ({ s' with pending := Function.update s.pending i none } : ConnectionCluster ι).Managed := by
  obtain ⟨⟨p₀, hp₀, hqueue₀, hi₀, hc₀, hkey₀⟩, hfree⟩ := h.pending i connection requestKey hpending
  have hclient : (s.clients i).clients connection = true := by
    have hknown := h.known p₀ hp₀
    rwa [hi₀, hc₀] at hknown
  obtain ⟨hpaired, hknown, hsingle⟩ := h.added hadded hfree hclient
  have holds : ∀ p ∈ s.pairs, p ∈ s'.pairs := by
    intro p hp
    rw [hadded.pairs]
    exact List.mem_append_left _ hp
  refine ⟨hmatched.with_pending _, hpaired, hknown, hsingle, fun j c k hsome => ?_,
    fun p hp hmanagement => ?_⟩
  · rcases eq_or_ne j i with rfl | hne
    · simp at hsome
    · simp only [Function.update_of_ne hne] at hsome
      obtain ⟨⟨p, hp, hpair⟩, hfree'⟩ := h.pending j c k hsome
      refine ⟨⟨p, holds p hp, hpair⟩, fun p hp hmanagement hpj => ?_⟩
      rw [hadded.pairs] at hp
      rcases List.mem_append.mp hp with hold | hmade
      · exact hfree' p hold hmanagement hpj
      · exact absurd (hpj.symm.trans (hadded.mem hmade).1) hne
  · rw [hadded.pairs] at hp
    rcases List.mem_append.mp hp with hold | hmade
    · obtain ⟨q, hq, hqm, hqi, hqc, hentry⟩ := h.mgmt p hold hmanagement
      refine ⟨q, holds q hq, hqm, hqi, hqc, ?_⟩
      refine (hadded.others _ _ ?_).trans hentry
      by_contra hsame
      simp only [not_or, not_not] at hsame
      obtain ⟨hserver, -, hkey⟩ := hsame
      have hq₀ : q = p₀ := List.inj_on_of_nodup_map h.matched.servers_nodup hq hp₀
        (Prod.ext (hqc.trans (hserver.trans hc₀.symm)) (hkey.trans hkey₀.symm))
      exact hfree p hold hmanagement (hqi.symm.trans ((congrArg _ hq₀).trans hi₀)) hserver
    · obtain ⟨hpi, hpc, -⟩ := hadded.mem hmade
      refine ⟨p₀, holds p₀ hp₀, hqueue₀, hi₀.trans hpi.symm, hc₀.trans hpc.symm, ?_⟩
      rw [hpc, hkey₀]
      exact hadded.mgmt rfl p hmade

theorem Managed.connect (h : s.Managed) {call : ConnectCall} (hgranted : call.queue.Granted)
    (hconnects : Connects s i call s') : s'.Managed := by
  have hmatched := h.matched.connect hconnects
  cases hconnects with
  | again => exact h
  | failed client hmanager hclients =>
    apply h.setClient _ hmatched
    · rw [hmanager, QueuePairs.connected_initQP]
    · rw [hclients]
      exact fun _ hclient => hclient
  | exchanged connKey client key s₁ pending hclient hcreate hclients hexchange hpending =>
    obtain ⟨hentered, -, -, -, hmade⟩ :=
      h.matched.exchange_new hcreate client rfl call.connection false 0 call.queue
    have hexchanges := exchange_cases hentered.servers_fresh i call.connection false connKey 0
      call.queue
    rw [hexchange] at hmade hexchanges
    obtain ⟨made, hadded⟩ := hexchanges.added hgranted
    have hself : (s.setClient i client).clients i = client := Function.update_self _ _ _
    have hmanaged : (s.setClient i client).Managed := by
      apply h.setClient _ hentered
      · rw [show client.manager = ((s.clients i).manager.initQP call.queue.initQP).2 by
            rw [hcreate], QueuePairs.connected_initQP]
      · intro connection hknown
        rw [hclients]
        by_cases hsame : connection = call.connection
        · rw [hsame]
          exact Function.update_self _ _ _
        · rwa [Function.update_of_ne hsame]
    apply hmanaged.queueAdded hmade hadded ?_ ?_ hpending
    · rintro p hp rfl hconnection
      have hknown := h.known p hp
      rw [hconnection, hclient] at hknown
      exact absurd hknown Bool.false_ne_true
    · rw [hself, hclients]
      exact Function.update_self _ _ _

theorem Managed.clearPending (h : s.Managed) (i : ι) :
    ({ s with pending := Function.update s.pending i none } : ConnectionCluster ι).Managed where
  matched := h.matched.with_pending _
  paired := h.paired
  known := h.known
  single := h.single
  pending := by
    intro j c k hsome
    rcases eq_or_ne j i with rfl | hne
    · simp at hsome
    · simp only [Function.update_of_ne hne] at hsome
      exact h.pending j c k hsome
  mgmt := h.mgmt

theorem Managed.createManagementQueue (h : s.Managed) {connection : String} {connKeyServer : ℕ}
    {x : Handshake} (hgranted : x.Granted)
    (hpending : s.pending i = some (connection, connKeyServer)) :
    ({ s.createManagementQueue i (s.clients i) connection connKeyServer x with
      pending := Function.update s.pending i none } : ConnectionCluster ι).Managed := by
  unfold ConnectionCluster.createManagementQueue
  cases hcreate : (s.clients i).manager.initQP x.initQP with
  | mk created manager =>
    have hsnd : manager = ((s.clients i).manager.initQP x.initQP).2 := by rw [hcreate]
    have hconnected : manager.connected = (s.clients i).manager.connected := by
      rw [hsnd, QueuePairs.connected_initQP]
    cases created with
    | none =>
      exact (h.setClient { s.clients i with manager } (h.matched.initQP x.initQP hsnd) hconnected
        fun _ hknown => hknown).clearPending i
    | some clientAddr =>
      simp only
      generalize hclient : ({ s.clients i with
        manager
        mgmtAddr := Function.update (s.clients i).mgmtAddr connection (some clientAddr) } :
          ClientConnections) = client
      have hmanager : client.manager = manager := by rw [← hclient]
      obtain ⟨hentered, -, -, -, hmade⟩ :=
        h.matched.exchange_new hcreate client hmanager connection true connKeyServer x
      obtain ⟨made, hadded⟩ := (exchange_cases hentered.servers_fresh i connection true clientAddr
        connKeyServer x).added hgranted
      have hmanaged : (s.setClient i client).Managed := by
        apply h.setClient client hentered (hmanager ▸ hconnected)
        rw [← hclient]
        exact fun _ hknown => hknown
      exact hmanaged.mgmtAdded hmade hadded hpending

theorem Managed.step (h : s.Managed) {label : ClusterLabel ι} (hgranted : label.handshake.Granted)
    (hstep : s.step label = some s') : s'.Managed := by
  cases label with
  | connect i call =>
    simp only [ConnectionCluster.step] at hstep
    split_ifs at hstep
    split at hstep <;> cases hstep
    exact h.connect hgranted (connects s i call)
  | createManagementQueue i x =>
    simp only [ConnectionCluster.step] at hstep
    split at hstep <;> cases hstep
    exact h.createManagementQueue hgranted ‹_›

/-- As long as the servers' methods succeed behind the responses they send, every connected queue
pair of a client has its partner, a client makes one queue and one management queue for a
connection at most, and `getMgmtQueue` leads from the partner of the one to that of the other,
whatever the other clients of the server do. -/
theorem getMgmtQueue_paired (labels : List (ClusterLabel ι))
    (hgranted : ∀ label ∈ labels, label.handshake.Granted) :
    Throughout step (fun s : ConnectionCluster ι =>
      (∀ i connKey, (s.clients i).manager.connected connKey = true →
        ∃ p ∈ s.pairs, p.client = i ∧ p.connKey = connKey) ∧
      (∀ p ∈ s.pairs, ∀ q ∈ s.pairs, p.management = q.management → p.client = q.client →
        p.connection = q.connection → p = q) ∧
      ∀ p ∈ s.pairs, p.management = true → ∃ q ∈ s.pairs, q.management = false ∧
        q.client = p.client ∧ q.connection = p.connection ∧
        (s.servers p.connection).getMgmtQueue q.serverKey = some p.serverKey) init labels := by
  have hmanaged : Throughout step (Managed (ι := ι)) init labels :=
    EachStep.throughout (fun s label s' hs hG hstep => hs.step hG hstep) labels init managed_init
      (eachStep_of_forall hgranted)
  intro pre s hpre hexec
  have h := hmanaged pre s hpre hexec
  exact ⟨h.paired, h.single, h.mgmt⟩

/-- A handshake without a failure, but for the server's own. -/
def handshake (qpNum : ℕ) (serverConnectQP : Bool) : Handshake where
  initQP := .created ⟨0, 0, qpNum, 0, fun _ => 0, 0⟩
  delivery := .delivered
  serverInitQP := .created ⟨0, 0, qpNum + 100, 0, fun _ => 0, 0⟩
  serverConnectQP
  pastEnd := fun _ => 0
  connectQP := true

def connectCall (qpNum : ℕ) (serverConnectQP : Bool) : ConnectCall where
  connection := "127.0.0.1:5400"
  managementQueue := true
  clientConnects := true
  queue := handshake qpNum serverConnectQP
  mgmtQueue := handshake (qpNum + 1) true

theorem getMgmtQueue_paired_two_clients :
    Throughout step (fun s : ConnectionCluster Bool =>
      (∀ i connKey, (s.clients i).manager.connected connKey = true →
        ∃ p ∈ s.pairs, p.client = i ∧ p.connKey = connKey) ∧
      (∀ p ∈ s.pairs, ∀ q ∈ s.pairs, p.management = q.management → p.client = q.client →
        p.connection = q.connection → p = q) ∧
      ∀ p ∈ s.pairs, p.management = true → ∃ q ∈ s.pairs, q.management = false ∧
        q.client = p.client ∧ q.connection = p.connection ∧
        (s.servers p.connection).getMgmtQueue q.serverKey = some p.serverKey) init
      [.connect true (connectCall 1 true), .connect false (connectCall 3 true),
        .createManagementQueue false (handshake 4 true),
        .createManagementQueue true (handshake 2 true)] :=
  getMgmtQueue_paired _ (by decide)

/-- A client whose queue pair the server fails to connect is entered under the key zero, where
another client has its queue pair. -/
example : ((exec step (init : ConnectionCluster Bool)
    [.connect true (connectCall 1 true), .connect false (connectCall 3 false),
      .createManagementQueue false (handshake 4 true)]).map fun s =>
        (s.pairs.map fun p => (p.client, p.serverKey),
          (s.servers "127.0.0.1:5400").getMgmtQueue 0)) =
    some ([(true, 0), (false, 2)], some 2) := by
  decide

end ConnectionCluster
end DpiLibrary
