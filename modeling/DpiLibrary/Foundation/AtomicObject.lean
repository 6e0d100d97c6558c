import Mathlib.Data.List.Flatten
import Mathlib.Data.List.Nodup
import Mathlib.Data.List.Pairwise
import Mathlib.Logic.Function.Basic
import DpiLibrary.Foundation.Schedule

/-!
# Histories and atomic objects

The history of a schedule is the list of the events it shows, and a simulation between
two systems carries a run of the one to a run of the other with the same history. An
atomic object is the system that says what a concurrent one is for: between a client's
call and its return there is one point at which the call takes effect, on the state that
the calls before it have left.
-/

namespace DpiLibrary
namespace Schedule

variable {σ τ α β ε : Type*}

section
variable (step : σ → α → Option σ) (event : σ → α → Option ε)

/-- The events that a schedule shows, in their order. -/
def history : σ → List α → List ε
  | _, [] => []
  | s, a :: as => (event s a).toList ++ (step s a).elim [] fun t => history t as

variable {step event}

theorem history_cons {s t : σ} {a : α} {as : List α} (h : step s a = some t) :
    history step event s (a :: as) = (event s a).toList ++ history step event t as := by
  simp [history, h]

theorem history_append {s t : σ} {as bs : List α} (h : exec step s as = some t) :
    history step event s (as ++ bs) = history step event s as ++ history step event t bs := by
  induction as generalizing s with
  | nil =>
    cases h
    rfl
  | cons a as ih =>
    obtain ⟨u, hu, hrest⟩ := Option.bind_eq_some_iff.mp h
    rw [List.cons_append, history_cons hu, history_cons hu, ih hrest, List.append_assoc]

end

/-- A system follows the steps of another one and shows the same events. -/
structure Simulation (step : σ → α → Option σ) (event : σ → α → Option ε)
    (step' : τ → β → Option τ) (event' : τ → β → Option ε) where
  Matches : σ → τ → Prop
  follows : ∀ s u a s', Matches s u → step s a = some s' → ∃ bs u', exec step' u bs = some u' ∧
    Matches s' u' ∧ history step' event' u bs = (event s a).toList

theorem Simulation.run {step : σ → α → Option σ} {event : σ → α → Option ε}
    {step' : τ → β → Option τ} {event' : τ → β → Option ε}
    (S : Simulation step event step' event') {s t : σ} {u : τ} {as : List α} (h : S.Matches s u)
    (hexec : exec step s as = some t) : ∃ bs v, exec step' u bs = some v ∧ S.Matches t v ∧
      history step' event' u bs = history step event s as := by
  induction as generalizing s u with
  | nil =>
    cases hexec
    exact ⟨[], u, rfl, h, rfl⟩
  | cons a as ih =>
    obtain ⟨s', hs', hrest⟩ := Option.bind_eq_some_iff.mp hexec
    obtain ⟨bs, u', hbs, hmatches, hevents⟩ := S.follows s u a s' h hs'
    obtain ⟨cs, v, hcs, hlast, hlater⟩ := ih hmatches hrest
    refine ⟨bs ++ cs, v, by simp [exec_append, hbs, hcs], hlast, ?_⟩
    rw [history_append hbs, history_cons hs', hevents, hlater]

end Schedule

/-- A call that took effect, with its response. -/
structure Operation (κ μ ρ : Type*) where
  client : κ
  request : μ
  response : ρ
  deriving DecidableEq, Repr

/-- What operations give, all different, is divided among the clients. -/
theorem Operation.nodup_by_client {κ μ ρ β : Type*} [DecidableEq κ]
    {operations : List (Operation κ μ ρ)} {f : Operation κ μ ρ → List β}
    (h : (operations.flatMap f).Nodup) :
    (∀ client, ((operations.filter (·.client = client)).flatMap f).Nodup) ∧
      ∀ client other, client ≠ other →
        ((operations.filter (·.client = client)).flatMap f).Disjoint
          ((operations.filter (·.client = other)).flatMap f) := by
  constructor
  · intro client
    exact h.sublist (List.filter_sublist.flatMap f)
  · intro client other hne b hb hb'
    obtain ⟨op, hop, hmem⟩ := List.mem_flatMap.mp hb
    obtain ⟨op', hop', hmem'⟩ := List.mem_flatMap.mp hb'
    obtain ⟨hop, hclient⟩ := List.mem_filter.mp hop
    obtain ⟨hop', hother⟩ := List.mem_filter.mp hop'
    have hops : op ≠ op' := by
      rintro rfl
      exact hne ((of_decide_eq_true hclient).symm.trans (of_decide_eq_true hother))
    have hsymm : Std.Symm (Function.onFun List.Disjoint f) :=
      ⟨fun _ _ hdisj => List.disjoint_symm hdisj⟩
    exact (List.nodup_flatMap.mp h).2.forall hop hop' hops hmem hmem'

/-- How far a client's call has got. -/
inductive Call (μ ρ : Type*) where
  | idle
  | pending (request : μ)
  | done (response : ρ)
  deriving DecidableEq, Repr

namespace Call

variable {μ ρ : Type*}

def requests : Call μ ρ → List μ
  | .pending request => [request]
  | _ => []

def responses : Call μ ρ → List ρ
  | .done response => [response]
  | _ => []

theorem length_le_one (call : Call μ ρ) :
    call.requests.length + call.responses.length ≤ 1 := by
  cases call <;> simp [requests, responses]

end Call

inductive ObjectLabel (κ μ : Type*) where
  | call (client : κ) (request : μ)
  /-- The client's call takes effect. -/
  | point (client : κ)
  | ret (client : κ)
  deriving DecidableEq, Repr

/-- What the clients see. -/
inductive ObjectEvent (κ μ ρ : Type*) where
  | call (client : κ) (request : μ)
  | ret (client : κ) (response : ρ)
  deriving DecidableEq, Repr

namespace ObjectEvent

variable {κ μ ρ : Type*} [DecidableEq κ]

/-- The requests of a client in a history. -/
def calls (client : κ) (history : List (ObjectEvent κ μ ρ)) : List μ :=
  history.filterMap fun
    | .call other request => if other = client then some request else none
    | .ret _ _ => none

/-- The responses of a client in a history. -/
def returns (client : κ) (history : List (ObjectEvent κ μ ρ)) : List ρ :=
  history.filterMap fun
    | .call _ _ => none
    | .ret other response => if other = client then some response else none

@[simp] theorem calls_nil (client : κ) :
    calls client ([] : List (ObjectEvent κ μ ρ)) = [] := rfl

@[simp] theorem returns_nil (client : κ) :
    returns client ([] : List (ObjectEvent κ μ ρ)) = [] := rfl

@[simp] theorem calls_append (client : κ) (h h' : List (ObjectEvent κ μ ρ)) :
    calls client (h ++ h') = calls client h ++ calls client h' :=
  List.filterMap_append

@[simp] theorem returns_append (client : κ) (h h' : List (ObjectEvent κ μ ρ)) :
    returns client (h ++ h') = returns client h ++ returns client h' :=
  List.filterMap_append

@[simp] theorem calls_call (client other : κ) (request : μ) :
    calls client [(.call other request : ObjectEvent κ μ ρ)] =
      if other = client then [request] else [] := by
  by_cases h : other = client <;> simp [calls, h]

@[simp] theorem calls_ret (client other : κ) (response : ρ) :
    calls client [(.ret other response : ObjectEvent κ μ ρ)] = [] := rfl

@[simp] theorem returns_call (client other : κ) (request : μ) :
    returns client [(.call other request : ObjectEvent κ μ ρ)] = [] := rfl

@[simp] theorem returns_ret (client other : κ) (response : ρ) :
    returns client [(.ret other response : ObjectEvent κ μ ρ)] =
      if other = client then [response] else [] := by
  by_cases h : other = client <;> simp [returns, h]

end ObjectEvent

/-- An object with the calls under way and the order in which calls took effect. -/
structure AtomicObject (κ μ ρ σ : Type*) where
  service : σ
  calls : κ → Call μ ρ
  order : List (Operation κ μ ρ)

/-- Requests one after the other, with their responses. -/
def replay {μ ρ σ : Type*} (handle : σ → μ → Option (σ × ρ)) : σ → List μ → Option (σ × List ρ)
  | s, [] => some (s, [])
  | s, request :: requests =>
    (handle s request).bind fun (s, response) =>
      (replay handle s requests).map fun (s, responses) => (s, response :: responses)

theorem replay_append {μ ρ σ : Type*} {handle : σ → μ → Option (σ × ρ)} {s t u : σ}
    {requests requests' : List μ} {responses responses' : List ρ}
    (h : replay handle s requests = some (t, responses))
    (h' : replay handle t requests' = some (u, responses')) :
    replay handle s (requests ++ requests') = some (u, responses ++ responses') := by
  induction requests generalizing s responses with
  | nil =>
    cases h
    exact h'
  | cons request requests ih =>
    obtain ⟨⟨w, response⟩, hw, hrest⟩ := Option.bind_eq_some_iff.mp h
    obtain ⟨⟨w', later⟩, hlater, heq⟩ := Option.map_eq_some_iff.mp hrest
    cases heq
    simp [replay, hw, ih hlater]

namespace AtomicObject

open Schedule

variable {κ μ ρ σ : Type*} [DecidableEq κ]

def start (service : σ) : AtomicObject κ μ ρ σ where
  service
  calls := fun _ => .idle
  order := []

def step (handle : σ → μ → Option (σ × ρ)) (u : AtomicObject κ μ ρ σ) :
    ObjectLabel κ μ → Option (AtomicObject κ μ ρ σ)
  | .call client request =>
    match u.calls client with
    | .idle => some { u with calls := Function.update u.calls client (.pending request) }
    | _ => none
  | .point client =>
    match u.calls client with
    | .pending request => (handle u.service request).map fun (service, response) => {
        service
        calls := Function.update u.calls client (.done response)
        order := u.order ++ [⟨client, request, response⟩] }
    | _ => none
  | .ret client =>
    match u.calls client with
    | .done _ => some { u with calls := Function.update u.calls client .idle }
    | _ => none

def event (u : AtomicObject κ μ ρ σ) : ObjectLabel κ μ → Option (ObjectEvent κ μ ρ)
  | .call client request => some (.call client request)
  | .point _ => none
  | .ret client =>
    match u.calls client with
    | .done response => some (.ret client response)
    | _ => none

variable {handle : σ → μ → Option (σ × ρ)} {u v : AtomicObject κ μ ρ σ}

/-- What a step shows and what it does to the calls, by the label. -/
inductive Stepped (handle : σ → μ → Option (σ × ρ)) (u : AtomicObject κ μ ρ σ) :
    ObjectLabel κ μ → AtomicObject κ μ ρ σ → Option (ObjectEvent κ μ ρ) → Prop
  | call (client : κ) (request : μ) (hidle : u.calls client = .idle) :
    Stepped handle u (.call client request)
      { u with calls := Function.update u.calls client (.pending request) }
      (some (.call client request))
  | point (client : κ) (request : μ) (service : σ) (response : ρ)
    (hpending : u.calls client = .pending request)
    (hhandle : handle u.service request = some (service, response)) :
    Stepped handle u (.point client)
      ⟨service, Function.update u.calls client (.done response),
        u.order ++ [⟨client, request, response⟩]⟩ none
  | ret (client : κ) (response : ρ) (hdone : u.calls client = .done response) :
    Stepped handle u (.ret client) { u with calls := Function.update u.calls client .idle }
      (some (.ret client response))

theorem stepped {label : ObjectLabel κ μ} (h : u.step handle label = some v) :
    Stepped handle u label v (u.event label) := by
  cases label with
  | call client request =>
    simp only [step] at h
    split at h <;> cases h
    exact .call client request ‹_›
  | point client =>
    simp only [step] at h
    split at h
    · next request hpending =>
      obtain ⟨⟨service, response⟩, hhandle, hrest⟩ := Option.map_eq_some_iff.mp h
      cases hrest
      exact .point client request service response hpending hhandle
    · cases h
  | ret client =>
    simp only [step] at h
    split at h
    · next response hdone =>
      cases h
      have hevent : u.event (.ret client) = some (.ret client response) := by
        simp [event, hdone]
      rw [hevent]
      exact .ret client response hdone
    · cases h

/-- Calls that take effect one after the other between two states, with what the clients see
meanwhile. For each client its requests are those that take effect, but for the one call it may
have under way before or after, and its responses are theirs. -/
structure Advances (handle : σ → μ → Option (σ × ρ)) (u v : AtomicObject κ μ ρ σ)
    (shown : List (ObjectEvent κ μ ρ)) (later : List (Operation κ μ ρ)) : Prop where
  order : v.order = u.order ++ later
  replays : replay handle u.service (later.map (·.request)) =
    some (v.service, later.map (·.response))
  calls : ∀ client, (u.calls client).requests ++ ObjectEvent.calls client shown =
    (later.filter (·.client = client)).map (·.request) ++ (v.calls client).requests
  returns : ∀ client, (u.calls client).responses ++
      (later.filter (·.client = client)).map (·.response) =
    ObjectEvent.returns client shown ++ (v.calls client).responses

theorem Advances.refl (u : AtomicObject κ μ ρ σ) : Advances handle u u [] [] where
  order := by simp
  replays := rfl
  calls := by simp
  returns := by simp

theorem Advances.trans {w : AtomicObject κ μ ρ σ} {shown shown' : List (ObjectEvent κ μ ρ)}
    {later later' : List (Operation κ μ ρ)} (h : Advances handle u v shown later)
    (h' : Advances handle v w shown' later') :
    Advances handle u w (shown ++ shown') (later ++ later') where
  order := by rw [h'.order, h.order, List.append_assoc]
  replays := by
    rw [List.map_append, List.map_append]
    exact replay_append h.replays h'.replays
  calls := by
    intro client
    rw [ObjectEvent.calls_append, ← List.append_assoc, h.calls, List.append_assoc, h'.calls,
      List.filter_append, List.map_append, List.append_assoc]
  returns := by
    intro client
    rw [ObjectEvent.returns_append, List.append_assoc, ← h'.returns, List.filter_append,
      List.map_append, ← List.append_assoc, h.returns, List.append_assoc]

theorem Stepped.advances {label : ObjectLabel κ μ} {shown : Option (ObjectEvent κ μ ρ)}
    (h : Stepped handle u label v shown) : ∃ later, Advances handle u v shown.toList later := by
  cases h with
  | call client request hidle =>
    refine ⟨[], by simp, rfl, fun other => ?_, fun other => ?_⟩
    · rcases eq_or_ne other client with rfl | hne
      · simp [hidle, Call.requests]
      · simp [Function.update_of_ne hne, hne.symm]
    · rcases eq_or_ne other client with rfl | hne
      · simp [hidle, Call.responses]
      · simp [Function.update_of_ne hne]
  | point client request service response hpending hhandle =>
    refine ⟨[⟨client, request, response⟩], rfl, by simp [replay, hhandle], fun other => ?_,
      fun other => ?_⟩
    · rcases eq_or_ne other client with rfl | hne
      · simp [hpending, Call.requests]
      · simp [Function.update_of_ne hne, hne.symm]
    · rcases eq_or_ne other client with rfl | hne
      · simp [hpending, Call.responses]
      · simp [Function.update_of_ne hne, hne.symm]
  | ret client response hdone =>
    refine ⟨[], by simp, rfl, fun other => ?_, fun other => ?_⟩
    · rcases eq_or_ne other client with rfl | hne
      · simp [hdone, Call.requests]
      · simp [Function.update_of_ne hne]
    · rcases eq_or_ne other client with rfl | hne
      · simp [hdone, Call.responses]
      · simp [Function.update_of_ne hne, hne.symm]

/-- The run rule: the calls of a run take effect one after the other. -/
theorem advances {labels : List (ObjectLabel κ μ)} (h : exec (step handle) u labels = some v) :
    ∃ later, Advances handle u v (history (step handle) event u labels) later := by
  induction labels generalizing u with
  | nil =>
    cases h
    exact ⟨[], Advances.refl v⟩
  | cons label labels ih =>
    obtain ⟨w, hw, hrest⟩ := Option.bind_eq_some_iff.mp h
    obtain ⟨first, hfirst⟩ := (stepped hw).advances
    obtain ⟨later, hlater⟩ := ih hrest
    rw [history_cons hw]
    exact ⟨first ++ later, hfirst.trans hlater⟩

end AtomicObject
end DpiLibrary
