import Mathlib.Data.List.ReduceOption
import DpiLibrary.Dpi.RingAssignment
import DpiLibrary.Net.ServerRequests

/-!
# The registry behind its server

Clients reach the registry through a `ProtoServer`. Its runs are runs of the registry on the
requests in the order in which they are handled, so what holds of the registry after any
sequence of requests holds while clients use it at the same time.
-/

namespace DpiLibrary

open Schedule

variable {ν κ : Type}

namespace RegistryServer

/-- `handle` behind the socket; a message that does not parse is `none`. -/
def handler (nodes : Nodes ν) :
    Handler (Option RegistryRequest) RegistryResponse (RegistryServer × ν) where
  parses := Option.isSome
  handle s message := message.bind fun req =>
    (handle nodes s.1 s.2 req).map fun (r, node, resp) => ((r, node), resp)

end RegistryServer

namespace Assignment

/-- The rings that responses hand out, each to the appender that sent the request. -/
def ringsHanded (nodes : Nodes ν) (messages : List (Option RegistryRequest))
    (responses : List RegistryResponse) : List RingAddr :=
  (messages.zip responses).flatMap fun (message, response) =>
    message.elim [] fun req => handedRings nodes req response

theorem ringsHanded_operations (nodes : Nodes ν)
    (operations : List (Operation κ (Option RegistryRequest) RegistryResponse)) :
    ringsHanded nodes (operations.map (·.request)) (operations.map (·.response)) =
      operations.flatMap fun op => ringsHanded nodes [op.request] [op.response] := by
  induction operations with
  | nil => rfl
  | cons op operations ih => simpa [ringsHanded] using ih

/-- Responses still to come hand out nothing yet. -/
theorem ringsHanded_prefix (nodes : Nodes ν) (messages messages' : List (Option RegistryRequest))
    {responses responses' : List RegistryResponse}
    (hlength : messages.length = (responses ++ responses').length) :
    ringsHanded nodes (messages ++ messages') responses <+:
      ringsHanded nodes messages (responses ++ responses') := by
  induction responses generalizing messages with
  | nil => simp [ringsHanded]
  | cons response responses ih =>
    cases messages with
    | nil => simp at hlength
    | cons message messages =>
      have hrest := ih messages (by simpa using hlength)
      simpa [ringsHanded] using hrest

open RegistryServer

/-- The registry with its record of the rings handed out, on requests that are replayed. -/
theorem exec_of_replay {nodes : Nodes ν} {s : Assignment ν} {t : RegistryServer × ν}
    {messages : List (Option RegistryRequest)} {responses : List RegistryResponse}
    (h : replay (handler nodes).serve (s.registry, s.node) messages = some (t, responses)) :
    ∃ s', exec (step nodes) s messages.reduceOption = some s' ∧
      s'.handed.Perm (ringsHanded nodes messages responses ++ s.handed) := by
  induction messages generalizing s responses with
  | nil =>
    cases h
    exact ⟨s, rfl, List.Perm.refl _⟩
  | cons message messages ih =>
    obtain ⟨⟨u, response⟩, hserve, hrest⟩ := Option.bind_eq_some_iff.mp h
    obtain ⟨⟨t', later⟩, hlater, heq⟩ := Option.map_eq_some_iff.mp hrest
    cases heq
    cases message with
    | none => simp [Handler.serve, handler] at hserve
    | some req =>
      obtain ⟨⟨r, node, resp⟩, hhandle, heq⟩ : ∃ a, handle nodes s.registry s.node req = some a ∧
          ((a.1, a.2.1), a.2.2) = (u, response) := by
        simpa [Handler.serve, handler] using hserve
      cases heq
      obtain ⟨s', hs', hperm⟩ := ih (s := ⟨r, node, handedRings nodes req resp ++ s.handed,
        countRegistered s.registry r s.registered req⟩) hlater
      refine ⟨s', ?_, hperm.trans ?_⟩
      · simp [List.reduceOption_cons_of_some, step, hhandle, hs']
      · have hcons : ringsHanded nodes (some req :: messages) (resp :: later) =
            handedRings nodes req resp ++ ringsHanded nodes messages later := rfl
        rw [hcons, List.append_assoc]
        exact List.perm_append_comm_assoc _ _ _

variable [DecidableEq κ]

/-- Appenders that use the registry at the same time never receive the same ring, if in the order
in which the registry handles their requests the joins stay within the rings of the registrations
and no name is registered again after a join. -/
theorem received_rings_disjoint {nodes : Nodes ν} {issued : ν → Set (String × ℕ)}
    (hfresh : FreshAllocation nodes issued) (portFree : Bool) (node : ν)
    {labels : List (ServerLabel κ (Option RegistryRequest))}
    {t : ProtoServer κ (Option RegistryRequest) RegistryResponse (RegistryServer × ν)}
    (hexec : exec (ProtoServer.step (handler nodes)) (.init portFree (.init, node)) labels = some t)
    (hwithin : EachStep (step nodes) WithinRegistration (start node)
      (t.log.map (·.request)).reduceOption) :
    let shown := history (ProtoServer.step (handler nodes)) ProtoServer.event
      (.init portFree (.init, node)) labels
    let received := fun client =>
      ringsHanded nodes (ObjectEvent.calls client shown) (ObjectEvent.returns client shown)
    (∀ client, (received client).Nodup) ∧
      ∀ client other, client ≠ other → (received client).Disjoint (received other) := by
  intro shown received
  obtain ⟨later, hlog, hreplay, hclients⟩ :=
    (ProtoServer.seen_init portFree (RegistryServer.init, node)).inTurn hexec
  have hall : t.log = later := hlog
  subst hall
  obtain ⟨s', hs', hperm⟩ := exec_of_replay (s := start node) hreplay
  have hinv : Inv nodes issued s' := by
    apply EachStep.throughout (fun s req s' hs hG hstep => inv_step hfresh hs hG hstep) _ _
      (inv_start nodes issued node) hwithin _ _ (List.prefix_refl _)
    exact hs'
  have hnodup : (t.log.flatMap fun op => ringsHanded nodes [op.request] [op.response]).Nodup := by
    rw [← ringsHanded_operations]
    simpa [start] using hperm.nodup_iff.mp hinv.nodup
  have hreceived : ∀ client, received client <+:
      (t.log.filter (·.client = client)).flatMap fun op =>
        ringsHanded nodes [op.request] [op.response] := by
    intro client
    obtain ⟨requests, responses, hcalls, hreturns, -⟩ := hclients client rfl
    have hlength := congrArg List.length hreturns
    rw [← ringsHanded_operations, hreturns]
    have hprefix := ringsHanded_prefix nodes
      ((t.log.filter (·.client = client)).map (·.request)) requests (by simpa using hlength)
    rwa [← hcalls] at hprefix
  obtain ⟨hclient, hothers⟩ := Operation.nodup_by_client hnodup
  constructor
  · intro client
    exact (hclient client).sublist (hreceived client).sublist
  · intro client other hne ring hring hring'
    exact hothers client other hne ((hreceived client).subset hring)
      ((hreceived other).subset hring')

/-- Two appenders join at the same time: both requests are sent before one is handled. -/
def joinTogether : List (ServerLabel Bool (Option RegistryRequest)) :=
  [.owner, .thread, .thread, .thread, .owner, .request true (some registerTwo)] ++
    List.replicate 5 .thread ++
    [.response true, .request true (some (.retrieveBuffer "buffer" true)),
      .request false (some (.retrieveBuffer "buffer" true))] ++
    List.replicate 10 .thread ++ [.response false, .response true]

theorem received_rings_disjoint_joinTogether :
    let shown := history (ProtoServer.step (handler (frontToBack 5000))) ProtoServer.event
      (.init true (.init, 0)) joinTogether
    let received := fun client => ringsHanded (frontToBack 5000) (ObjectEvent.calls client shown)
      (ObjectEvent.returns client shown)
    (∀ client, (received client).Nodup) ∧
      ∀ client other, client ≠ other → (received client).Disjoint (received other) := by
  have hlog : (exec (ProtoServer.step (handler (frontToBack 5000))) (.init true (.init, 0))
      joinTogether).map (fun t => (t.log.map (·.request)).reduceOption) =
      some [registerTwo, .retrieveBuffer "buffer" true, .retrieveBuffer "buffer" true] := by
    decide
  obtain ⟨t, ht, hrequests⟩ := Option.map_eq_some_iff.mp hlog
  apply received_rings_disjoint (freshAllocation_frontToBack 5000) true 0 ht
  rw [hrequests]
  decide

end Assignment
end DpiLibrary
