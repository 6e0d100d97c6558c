import DpiLibrary.Net.ServerRuns

/-!
# The requests of a server

Seen from its clients a server is an atomic object: whatever the clients, the owner and the
thread do, a request takes effect when it is handled, between its being sent and its response
being received, and the requests are handled one after the other.
-/

namespace DpiLibrary

/-- The client whose request the thread is at work on. -/
def ServerPc.client? {κ μ ρ : Type} : ServerPc κ μ ρ → Option κ
  | .handle client _ => some client
  | .send client _ => some client
  | _ => none

/-- A request that does not parse is not handled. -/
def Handler.serve {μ ρ σ : Type} (handler : Handler μ ρ σ) (service : σ) (request : μ) :
    Option (σ × ρ) :=
  if handler.parses request then handler.handle service request else none

namespace ProtoServer

open Schedule

variable {κ μ ρ σ : Type} [DecidableEq κ] {handler : Handler μ ρ σ} {s s' t : ProtoServer κ μ ρ σ}
  {client other : κ} {call : Call μ ρ}

/-- Where a client's call is. A call is lost when its request does not parse or still waits when
the thread ends, and when the closed context refuses its response. -/
inductive Linked (handler : Handler μ ρ σ) (s : ProtoServer κ μ ρ σ) (client : κ) :
    Call μ ρ → Prop
  | idle (waiting : s.waiting client = false) (inbox : s.inbox.filter (·.1 = client) = [])
    (thread : s.thread.client? ≠ some client) (outbox : s.outbox.filter (·.1 = client) = []) :
    Linked handler s client .idle
  | queued (request : μ) (waiting : s.waiting client = true)
    (inbox : s.inbox.filter (·.1 = client) = [(client, request)])
    (thread : s.thread.client? ≠ some client) (outbox : s.outbox.filter (·.1 = client) = []) :
    Linked handler s client (.pending request)
  | handled (request : μ) (waiting : s.waiting client = true)
    (inbox : s.inbox.filter (·.1 = client) = []) (thread : s.thread = .handle client request)
    (parses : handler.parses request = true) (outbox : s.outbox.filter (·.1 = client) = []) :
    Linked handler s client (.pending request)
  | sending (response : ρ) (waiting : s.waiting client = true)
    (inbox : s.inbox.filter (·.1 = client) = []) (thread : s.thread = .send client response)
    (outbox : s.outbox.filter (·.1 = client) = []) : Linked handler s client (.done response)
  | ready (response : ρ) (waiting : s.waiting client = true)
    (inbox : s.inbox.filter (·.1 = client) = []) (thread : s.thread.client? ≠ some client)
    (outbox : s.outbox.filter (·.1 = client) = [(client, response)]) :
    Linked handler s client (.done response)
  | lost (call : Call μ ρ) (waiting : s.waiting client = true)
    (inbox : s.inbox.filter (·.1 = client) = []) (thread : s.thread.client? ≠ some client)
    (outbox : s.outbox.filter (·.1 = client) = []) : Linked handler s client call

/-- A call stays where it is while its messages do. -/
theorem Linked.frame (h : Linked handler s client call)
    (hwaiting : s'.waiting client = s.waiting client)
    (hinbox : s'.inbox.filter (·.1 = client) = s.inbox.filter (·.1 = client))
    (houtbox : s'.outbox.filter (·.1 = client) = s.outbox.filter (·.1 = client))
    (hthread : s'.thread = s.thread ∨
      s.thread.client? ≠ some client ∧ s'.thread.client? ≠ some client) :
    Linked handler s' client call := by
  have hother : s.thread.client? ≠ some client → s'.thread.client? ≠ some client := by
    rcases hthread with hsame | ⟨-, hfree⟩
    · rw [hsame]
      exact id
    · exact fun _ => hfree
  cases h with
  | idle waiting inbox thread outbox =>
    exact .idle (hwaiting.trans waiting) (hinbox.trans inbox) (hother thread)
      (houtbox.trans outbox)
  | queued request waiting inbox thread outbox =>
    exact .queued request (hwaiting.trans waiting) (hinbox.trans inbox) (hother thread)
      (houtbox.trans outbox)
  | handled request waiting inbox thread parses outbox =>
    rcases hthread with hsame | ⟨hfree, -⟩
    · exact .handled request (hwaiting.trans waiting) (hinbox.trans inbox) (hsame.trans thread)
        parses (houtbox.trans outbox)
    · simp [thread, ServerPc.client?] at hfree
  | sending response waiting inbox thread outbox =>
    rcases hthread with hsame | ⟨hfree, -⟩
    · exact .sending response (hwaiting.trans waiting) (hinbox.trans inbox) (hsame.trans thread)
        (houtbox.trans outbox)
    · simp [thread, ServerPc.client?] at hfree
  | ready response waiting inbox thread outbox =>
    exact .ready response (hwaiting.trans waiting) (hinbox.trans inbox) (hother thread)
      (houtbox.trans outbox)
  | lost call waiting inbox thread outbox =>
    exact .lost call (hwaiting.trans waiting) (hinbox.trans inbox) (hother thread)
      (houtbox.trans outbox)

/-- The call of a client with a request in the inbox. -/
theorem Linked.of_inbox (h : Linked handler s client call) (request : μ) (rest : List (κ × μ))
    (hinbox : s.inbox.filter (·.1 = client) = (client, request) :: rest) :
    call = .pending request ∧ rest = [] ∧ s.waiting client = true ∧
      s.outbox.filter (·.1 = client) = [] := by
  cases h with
  | queued queued waiting inbox thread outbox =>
    rw [inbox] at hinbox
    cases hinbox
    exact ⟨rfl, rfl, waiting, outbox⟩
  | idle waiting inbox => simp [inbox] at hinbox
  | handled request waiting inbox => simp [inbox] at hinbox
  | sending response waiting inbox => simp [inbox] at hinbox
  | ready response waiting inbox => simp [inbox] at hinbox
  | lost call waiting inbox => simp [inbox] at hinbox

/-- The call of the client whose request is being handled. -/
theorem Linked.of_handle (h : Linked handler s client call) {request : μ}
    (hthread : s.thread = .handle client request) :
    call = .pending request ∧ handler.parses request = true ∧ s.waiting client = true ∧
      s.inbox.filter (·.1 = client) = [] ∧ s.outbox.filter (·.1 = client) = [] := by
  cases h with
  | handled handled waiting inbox thread parses outbox =>
    rw [thread] at hthread
    cases hthread
    exact ⟨rfl, parses, waiting, inbox, outbox⟩
  | sending response waiting inbox thread => simp [thread] at hthread
  | idle waiting inbox thread => simp [hthread, ServerPc.client?] at thread
  | queued request waiting inbox thread => simp [hthread, ServerPc.client?] at thread
  | ready response waiting inbox thread => simp [hthread, ServerPc.client?] at thread
  | lost call waiting inbox thread => simp [hthread, ServerPc.client?] at thread

/-- The call of the client whose response is being sent. -/
theorem Linked.of_send (h : Linked handler s client call) {response : ρ}
    (hthread : s.thread = .send client response) :
    call = .done response ∧ s.waiting client = true ∧
      s.inbox.filter (·.1 = client) = [] ∧ s.outbox.filter (·.1 = client) = [] := by
  cases h with
  | sending sending waiting inbox thread outbox =>
    rw [thread] at hthread
    cases hthread
    exact ⟨rfl, waiting, inbox, outbox⟩
  | handled request waiting inbox thread => simp [thread] at hthread
  | idle waiting inbox thread => simp [hthread, ServerPc.client?] at thread
  | queued request waiting inbox thread => simp [hthread, ServerPc.client?] at thread
  | ready response waiting inbox thread => simp [hthread, ServerPc.client?] at thread
  | lost call waiting inbox thread => simp [hthread, ServerPc.client?] at thread

/-- The call of a client with a response in the outbox. -/
theorem Linked.of_outbox (h : Linked handler s client call) {entry : κ × ρ} {rest : List (κ × ρ)}
    (houtbox : s.outbox.filter (·.1 = client) = entry :: rest) :
    call = .done entry.2 ∧ rest = [] ∧ s.inbox.filter (·.1 = client) = [] ∧
      s.thread.client? ≠ some client := by
  cases h with
  | ready response waiting inbox thread outbox =>
    rw [outbox] at houtbox
    cases houtbox
    exact ⟨rfl, rfl, inbox, thread⟩
  | idle waiting inbox thread outbox => simp [outbox] at houtbox
  | queued request waiting inbox thread outbox => simp [outbox] at houtbox
  | handled request waiting inbox thread parses outbox => simp [outbox] at houtbox
  | sending response waiting inbox thread outbox => simp [outbox] at houtbox
  | lost call waiting inbox thread outbox => simp [outbox] at houtbox

theorem Linked.of_not_waiting (h : Linked handler s client call)
    (hwaiting : s.waiting client = false) :
    call = .idle ∧ s.inbox.filter (·.1 = client) = [] ∧ s.thread.client? ≠ some client ∧
      s.outbox.filter (·.1 = client) = [] := by
  cases h with
  | idle waiting inbox thread outbox => exact ⟨rfl, inbox, thread, outbox⟩
  | queued request waiting => simp [waiting] at hwaiting
  | handled request waiting => simp [waiting] at hwaiting
  | sending response waiting => simp [waiting] at hwaiting
  | ready response waiting => simp [waiting] at hwaiting
  | lost call waiting => simp [waiting] at hwaiting

/-- The atomic object that the clients see. -/
structure Seen (handler : Handler μ ρ σ) (s : ProtoServer κ μ ρ σ) (u : AtomicObject κ μ ρ σ) :
    Prop where
  lifecycle : s.Lifecycle
  service : u.service = s.service
  order : u.order = s.log
  linked : ∀ client, Linked handler s client (u.calls client)

theorem seen_init (portFree : Bool) (service : σ) :
    Seen handler (init portFree service : ProtoServer κ μ ρ σ) (.start service) where
  lifecycle := lifecycle_init portFree service
  service := rfl
  order := rfl
  linked := fun _ => .idle rfl rfl (by simp [init, ServerPc.client?]) rfl

variable {u : AtomicObject κ μ ρ σ}

/-- Steps that move no message and handle nothing. -/
theorem Seen.frame (h : Seen handler s u) (hlife : s'.Lifecycle) (hservice : s'.service = s.service)
    (hlog : s'.log = s.log) (hwaiting : s'.waiting = s.waiting) (hinbox : s'.inbox = s.inbox)
    (houtbox : s'.outbox = s.outbox)
    (hthread : s'.thread = s.thread ∨ s.thread.client? = none ∧ s'.thread.client? = none) :
    Seen handler s' u where
  lifecycle := hlife
  service := h.service.trans hservice.symm
  order := h.order.trans hlog.symm
  linked := by
    intro client
    apply (h.linked client).frame (congrFun hwaiting client) (by rw [hinbox]) (by rw [houtbox])
    rcases hthread with hsame | ⟨hbefore, hafter⟩
    · exact Or.inl hsame
    · exact Or.inr ⟨by simp [hbefore], by simp [hafter]⟩

theorem Seen.owner_step (h : Seen handler s u) (hlife : s'.Lifecycle)
    (hstep : s.ownerStep = some s') : Seen handler s' u := by
  cases howner : s.owner with
  | created =>
    have hthread := (h.lifecycle.created howner).1
    simp only [ownerStep, howner, Option.some.injEq] at hstep
    subst hstep
    exact h.frame hlife rfl rfl rfl rfl rfl (Or.inr ⟨by simp [hthread, ServerPc.client?], rfl⟩)
  | joining =>
    simp only [ownerStep, howner] at hstep
    split at hstep <;> cases hstep
    exact h.frame hlife rfl rfl rfl rfl rfl (Or.inl rfl)
  | stopped => simp [ownerStep, howner] at hstep
  | _ =>
    simp only [ownerStep, howner] at hstep
    (try split_ifs at hstep) <;> cases hstep <;>
      exact h.frame hlife rfl rfl rfl rfl rfl (Or.inl rfl)

/-- The thread takes the oldest request. -/
theorem Seen.take (h : Seen handler s u) {request : μ} {inbox : List (κ × μ)}
    {thread : ServerPc κ μ ρ} (hreceive : s.thread = .receive)
    (hinbox : s.inbox = (client, request) :: inbox)
    (hthread : handler.parses request = true ∧ thread = .handle client request ∨
      thread.client? = none)
    (hlife : ({ s with inbox, thread } : ProtoServer κ μ ρ σ).Lifecycle) :
    Seen handler { s with inbox, thread } u where
  lifecycle := hlife
  service := h.service
  order := h.order
  linked := by
    intro other
    have hfree : s.thread.client? ≠ some other := by simp [hreceive, ServerPc.client?]
    rcases eq_or_ne client other with rfl | hne
    · obtain ⟨hcall, hrest, hwaiting, houtbox⟩ := (h.linked client).of_inbox request
        (inbox.filter (·.1 = client)) (by simp [hinbox])
      rw [hcall]
      rcases hthread with ⟨hparses, hthread⟩ | hthread
      · exact .handled request hwaiting hrest hthread hparses houtbox
      · exact .lost _ hwaiting hrest (by simp [hthread]) houtbox
    · refine (h.linked other).frame rfl (by simp [hinbox, hne]) rfl (Or.inr ⟨hfree, ?_⟩)
      rcases hthread with ⟨-, hthread⟩ | hthread
      · simp [hthread, ServerPc.client?, hne]
      · simp [hthread]

/-- The request takes effect. -/
theorem Seen.point (h : Seen handler s u) {request : μ} {service : σ} {response : ρ}
    (hthread : s.thread = .handle client request)
    (hhandle : handler.handle s.service request = some (service, response))
    (hlife : ({ s with
      service
      thread := .send client response
      log := s.log ++ [⟨client, request, response⟩] } : ProtoServer κ μ ρ σ).Lifecycle) :
    ∃ u', u.step handler.serve (.point client) = some u' ∧ Seen handler { s with
      service
      thread := .send client response
      log := s.log ++ [⟨client, request, response⟩] } u' := by
  obtain ⟨hcall, hparses, hwaiting, hinbox, houtbox⟩ := (h.linked client).of_handle hthread
  refine ⟨⟨service, Function.update u.calls client (.done response),
    u.order ++ [⟨client, request, response⟩]⟩, ?_, hlife, rfl, by simp [h.order], ?_⟩
  · simp [AtomicObject.step, hcall, Handler.serve, hparses, h.service, hhandle]
  · intro other
    rcases eq_or_ne other client with rfl | hne
    · simp only [Function.update_self]
      exact .sending response hwaiting hinbox rfl houtbox
    · simp only [Function.update_of_ne hne]
      exact (h.linked other).frame rfl rfl rfl
        (Or.inr ⟨by simp [hthread, ServerPc.client?, hne.symm],
          by simp [ServerPc.client?, hne.symm]⟩)

/-- The response is sent, or refused by the closed context. -/
theorem Seen.send (h : Seen handler s u) {response : ρ} {outbox : List (κ × ρ)}
    (hthread : s.thread = .send client response)
    (houtbox : outbox = s.outbox ∨ outbox = s.outbox ++ [(client, response)])
    (hlife : ({ s with outbox, thread := .testKilled } : ProtoServer κ μ ρ σ).Lifecycle) :
    Seen handler { s with outbox, thread := .testKilled } u where
  lifecycle := hlife
  service := h.service
  order := h.order
  linked := by
    intro other
    rcases eq_or_ne client other with rfl | hne
    · obtain ⟨hcall, hwaiting, hinbox, hnone⟩ := (h.linked client).of_send hthread
      rw [hcall]
      rcases houtbox with rfl | rfl
      · exact .lost _ hwaiting hinbox (by simp [ServerPc.client?]) hnone
      · exact .ready response hwaiting hinbox (by simp [ServerPc.client?]) (by simp [hnone])
    · refine (h.linked other).frame rfl rfl ?_
        (Or.inr ⟨by simp [hthread, ServerPc.client?, hne], by simp [ServerPc.client?]⟩)
      rcases houtbox with rfl | rfl
      · rfl
      · simp [hne]

/-- What the atomic object does for a step of the thread. -/
theorem Seen.thread_step (h : Seen handler s u) (hlife : s'.Lifecycle)
    (hstep : s.threadStep handler = some s') :
    Seen handler s' u ∨
      ∃ client u', u.step handler.serve (.point client) = some u' ∧ Seen handler s' u' := by
  cases hthread : s.thread with
  | receive =>
    simp only [threadStep, hthread] at hstep
    split_ifs at hstep with hterminated
    · cases hstep
      left
      unfold receiveTerminated at hlife ⊢
      split_ifs at hlife ⊢
      · exact h.frame hlife rfl rfl rfl rfl rfl (Or.inr ⟨by simp [hthread, ServerPc.client?], rfl⟩)
      · exact h.frame hlife rfl rfl rfl rfl rfl (Or.inr ⟨by simp [hthread, ServerPc.client?], rfl⟩)
    · left
      split at hstep
      · cases hstep
      · next client request inbox hinbox =>
        split_ifs at hstep with hparses <;> cases hstep
        · exact h.take hthread hinbox (Or.inl ⟨hparses, rfl⟩) hlife
        · exact h.take hthread hinbox (Or.inr rfl) hlife
  | handle client request =>
    obtain ⟨service, response, hhandle, rfl⟩ := threadStep_handle hthread hstep
    exact Or.inr ⟨client, h.point hthread hhandle hlife⟩
  | send client response =>
    simp only [threadStep, hthread] at hstep
    left
    split_ifs at hstep <;> cases hstep
    · exact h.send hthread (Or.inl rfl) hlife
    · exact h.send hthread (Or.inr rfl) hlife
  | bind =>
    simp only [threadStep, hthread] at hstep
    left
    split_ifs at hstep <;> cases hstep
    · exact h.frame hlife rfl rfl rfl rfl rfl (Or.inr ⟨by simp [hthread, ServerPc.client?], rfl⟩)
    · exact h.frame hlife rfl rfl rfl rfl rfl (Or.inr ⟨by simp [hthread, ServerPc.client?], rfl⟩)
  | testKilled =>
    simp only [threadStep, hthread] at hstep
    left
    split_ifs at hstep <;> cases hstep
    · exact h.frame hlife rfl rfl rfl rfl rfl (Or.inr ⟨by simp [hthread, ServerPc.client?], rfl⟩)
    · exact h.frame hlife rfl rfl rfl rfl rfl (Or.inr ⟨by simp [hthread, ServerPc.client?], rfl⟩)
  | announce =>
    simp only [threadStep, hthread, Option.some.injEq] at hstep
    subst hstep
    left
    exact h.frame hlife rfl rfl rfl rfl rfl (Or.inr ⟨by simp [hthread, ServerPc.client?], rfl⟩)
  | notStarted => simp [threadStep, hthread] at hstep
  | ended => simp [threadStep, hthread] at hstep

theorem Seen.request_step (h : Seen handler s u) {request : μ} (hlife : s'.Lifecycle)
    (hstep : s.step handler (.request client request) = some s') :
    ∃ u', u.step handler.serve (.call client request) = some u' ∧ Seen handler s' u' := by
  simp only [step] at hstep
  split_ifs at hstep with hwaiting
  cases hstep
  obtain ⟨hcall, hinbox, hthread, houtbox⟩ :=
    (h.linked client).of_not_waiting (by simpa using hwaiting)
  refine ⟨{ u with calls := Function.update u.calls client (.pending request) }, ?_, hlife,
    h.service, h.order, ?_⟩
  · simp [AtomicObject.step, hcall]
  · intro other
    rcases eq_or_ne other client with rfl | hne
    · simp only [Function.update_self]
      exact .queued request (by simp) (by simp [hinbox]) hthread houtbox
    · simp only [Function.update_of_ne hne]
      exact (h.linked other).frame (by simp [hne]) (by simp [hne.symm]) rfl (Or.inl rfl)

theorem Seen.response_step (h : Seen handler s u) (hlife : s'.Lifecycle)
    (hstep : s.step handler (.response client) = some s') :
    ∃ u', u.step handler.serve (.ret client) = some u' ∧ Seen handler s' u' ∧
      u.event (.ret client) = s.event (.response client) := by
  simp only [step] at hstep
  split at hstep
  · cases hstep
  · next entry hentry =>
    cases hstep
    obtain ⟨hentry', before, after, houtbox, hbefore⟩ := List.find?_eq_some_iff_append.mp hentry
    have hclient : entry.1 = client := of_decide_eq_true hentry'
    have hnone : before.filter (·.1 = client) = [] := by
      rw [List.filter_eq_nil_iff]
      intro entry hmem
      simpa using hbefore entry hmem
    have hfilter : s.outbox.filter (·.1 = client) = entry :: after.filter (·.1 = client) := by
      simp [houtbox, hnone, hclient]
    have herase : s.outbox.eraseP (·.1 = client) = before ++ after := by
      rw [houtbox, List.eraseP_append_right _ (by simpa using hbefore)]
      simp [hclient]
    obtain ⟨hcall, hrest, hinbox, hthread⟩ := (h.linked client).of_outbox hfilter
    refine ⟨{ u with calls := Function.update u.calls client .idle }, ?_, ⟨hlife, h.service,
      h.order, ?_⟩, ?_⟩
    · simp [AtomicObject.step, hcall]
    · intro other
      rcases eq_or_ne other client with rfl | hne
      · simp only [Function.update_self]
        refine .idle (by simp) hinbox hthread ?_
        simp only [herase, List.filter_append, hnone, hrest, List.append_nil]
      · simp only [Function.update_of_ne hne]
        refine (h.linked other).frame (by simp [hne]) rfl ?_ (Or.inl rfl)
        simp only [herase]
        simp [houtbox, hclient, hne.symm]
    · simp [AtomicObject.event, hcall, event, hentry]

/-- A server simulates an atomic object. -/
def simulation (handler : Handler μ ρ σ) :
    Simulation (step (κ := κ) handler) event (AtomicObject.step handler.serve)
      AtomicObject.event where
  Matches := Seen handler
  follows := by
    intro s u label s' h hstep
    have hlife := h.lifecycle.step hstep
    cases label with
    | owner => exact ⟨[], u, rfl, h.owner_step hlife hstep, rfl⟩
    | thread =>
      rcases h.thread_step hlife hstep with hseen | ⟨client, u', hpoint, hseen⟩
      · exact ⟨[], u, rfl, hseen, rfl⟩
      · exact ⟨[.point client], u', by simp [hpoint], hseen, by simp [history, hpoint]; rfl⟩
    | request client request =>
      obtain ⟨u', hcall, hseen⟩ := h.request_step hlife hstep
      exact ⟨[.call client request], u', by simp [hcall], hseen, by simp [history, hcall]; rfl⟩
    | response client =>
      obtain ⟨u', hret, hseen, hevent⟩ := h.response_step hlife hstep
      exact ⟨[.ret client], u', by simp [hret], hseen, by simp [history, hret, hevent]⟩

/-- The requests handled between two states are handled one after the other, in one order, and
each client sees its own calls and returns in this order: the responses it receives are those to
its requests, and when it has no call under way in the first state, what it sends is handled after
all that was handled before. One request at most is not handled yet, or one response not
received. -/
def InTurn (handler : Handler μ ρ σ) (s t : ProtoServer κ μ ρ σ)
    (shown : List (ObjectEvent κ μ ρ)) : Prop :=
  ∃ later, t.log = s.log ++ later ∧
    replay handler.serve s.service (later.map (·.request)) =
      some (t.service, later.map (·.response)) ∧
    ∀ client, s.waiting client = false → ∃ requests responses,
      ObjectEvent.calls client shown =
        (later.filter (·.client = client)).map (·.request) ++ requests ∧
      (later.filter (·.client = client)).map (·.response) =
        ObjectEvent.returns client shown ++ responses ∧
      requests.length + responses.length ≤ 1 ∧
      (t.waiting client = false → requests = [] ∧ responses = [])

theorem Seen.inTurn (h : Seen handler s u) {labels : List (ServerLabel κ μ)}
    (hexec : exec (ProtoServer.step handler) s labels = some t) :
    InTurn handler s t (history (ProtoServer.step handler) ProtoServer.event s labels) := by
  obtain ⟨labels', v, hv, hseen, hhistory⟩ := (simulation handler).run h hexec
  obtain ⟨later, hadvances⟩ := AtomicObject.advances hv
  rw [hhistory] at hadvances
  have horder := hadvances.order
  have hreplays := hadvances.replays
  rw [h.order, hseen.order] at horder
  rw [h.service, hseen.service] at hreplays
  refine ⟨later, horder, hreplays, fun client hidle => ?_⟩
  obtain ⟨hcall, -⟩ := (h.linked client).of_not_waiting hidle
  have hcalls := hadvances.calls client
  have hreturns := hadvances.returns client
  rw [hcall] at hcalls hreturns
  refine ⟨(v.calls client).requests, (v.calls client).responses, hcalls, hreturns,
    Call.length_le_one _, fun hdone => ?_⟩
  obtain ⟨hlast, -⟩ := (hseen.linked client).of_not_waiting hdone
  simp [hlast, Call.requests, Call.responses]

/-- Between any two states of any run, whatever the clients, the owner and the thread do. -/
theorem requests_in_turn (portFree : Bool) (service : σ) {before after : List (ServerLabel κ μ)}
    (hs : exec (step handler) (init portFree service) before = some s)
    (ht : exec (step handler) s after = some t) :
    InTurn handler s t (history (step handler) event s after) := by
  obtain ⟨labels, u, -, hseen, -⟩ := (simulation handler).run (seen_init portFree service) hs
  exact hseen.inTurn ht

/-- Two clients of a server that adds up what it is sent; one of them has its response. -/
theorem requests_in_turn_two_clients : ∃ s t : ProtoServer Bool ℕ ℕ ℕ,
    t.log.map (·.response) = [3, 8] ∧ t.outbox = [(false, 8)] ∧
    InTurn ⟨fun _ => true, fun s m => some (s + m, s + m)⟩ s t
      [.call true 3, .call false 5, .ret true 3] :=
  ⟨_, _, rfl, rfl, requests_in_turn (κ := Bool) true 0
    (show exec _ _ [.owner, .thread, .thread, .thread, .owner] = _ from rfl)
    (show exec _ _ [.request true 3, .request false 5, .thread, .thread, .thread, .thread, .thread,
      .response true, .thread, .thread, .thread] = _ from rfl)⟩

end ProtoServer
end DpiLibrary
