import DpiLibrary.Net.ProtoServer

/-!
# Starting and stopping a server

`startServer` reports whether the port could be bound. `stopServer` closes the context and then
waits: it comes back if the thread is about to receive, since the failing receive closes the
socket, and it waits forever if the thread is elsewhere and ends without having closed it.
-/

namespace DpiLibrary

/-- The thread has bound the socket and is in its loop. -/
def ServerPc.Serving {κ μ ρ : Type} : ServerPc κ μ ρ → Prop
  | .notStarted => False
  | .bind => False
  | .ended => False
  | _ => True

/-- A step of the owner or of the thread. -/
def ServerLabel.ofServer {κ μ : Type} : ServerLabel κ μ → Bool
  | .owner => true
  | .thread => true
  | _ => false

namespace ProtoServer

open Schedule

variable {κ μ ρ σ : Type} {handler : Handler μ ρ σ} {s s' t : ProtoServer κ μ ρ σ}

/-- What the owner, the flags and the socket tell of the thread. -/
structure Lifecycle (s : ProtoServer κ μ ρ σ) : Prop where
  created : s.owner = .created → s.thread = .notStarted ∧ s.kill = false
  launched : s.owner ≠ .created → s.thread ≠ .notStarted
  binding : s.thread = .bind → s.owner = .starting ∧ s.kill = false ∧ s.socket = true
  serving : s.thread.Serving → s.isOpen = true ∧ s.socket = true ∧ s.portFree = true
  running : s.running = true → s.portFree = true ∧ s.thread ≠ .notStarted ∧ s.thread ≠ .bind
  failed : s.kill = true → s.owner = .starting → s.thread = .ended ∧ s.portFree = false
  started : ∀ success, s.owner = .started success → success = s.portFree ∧
    s.running = success ∧ (success = false → s.thread = .ended)
  killed : s.owner = .closingContext ∨ s.owner = .waiting ∨ s.owner = .joining → s.kill = true
  closed : s.owner = .waiting → s.terminated = true
  joined : s.owner = .stopped → s.thread = .ended
  idle : s.portFree = false → s.log = []

theorem lifecycle_init (portFree : Bool) (service : σ) :
    (init portFree service : ProtoServer κ μ ρ σ).Lifecycle := by
  constructor <;> simp [init, ServerPc.Serving]

theorem Lifecycle.owner_step (h : s.Lifecycle) (hstep : s.ownerStep = some s') :
    s'.Lifecycle := by
  obtain ⟨hcreated, hlaunched, hbinding, hserving, hrunning, hfailed, hstarted, hkilled, hclosed,
    hjoined, hidle⟩ := h
  unfold ownerStep at hstep
  cases howner : s.owner with
  | created =>
    obtain ⟨hthread, hkill⟩ := hcreated howner
    simp only [howner, Option.some.injEq] at hstep
    subst hstep
    constructor <;> grind -linarith [ServerPc.Serving]
  | starting =>
    simp only [howner] at hstep
    split_ifs at hstep with hup hkill
    · cases hstep
      obtain ⟨hfree, hlaunch, hbind⟩ := hrunning hup
      constructor <;> grind -linarith [ServerPc.Serving]
    · cases hstep
      obtain ⟨hthread, hfree⟩ := hfailed hkill howner
      constructor <;> grind -linarith [ServerPc.Serving]
    · cases hstep
      constructor <;> grind -linarith [ServerPc.Serving]
  | started success =>
    simp only [howner] at hstep
    obtain ⟨hfree, hup, hended⟩ := hstarted success howner
    split_ifs at hstep with hrun
    · cases hstep
      constructor <;> grind -linarith [ServerPc.Serving]
    · cases hstep
      constructor <;> grind -linarith [ServerPc.Serving]
  | clearing =>
    simp only [howner, Option.some.injEq] at hstep
    subst hstep
    constructor <;> grind -linarith [ServerPc.Serving]
  | stopping =>
    simp only [howner, Option.some.injEq] at hstep
    subst hstep
    constructor <;> grind -linarith [ServerPc.Serving]
  | closingContext =>
    simp only [howner, Option.some.injEq] at hstep
    subst hstep
    constructor <;> grind -linarith [ServerPc.Serving]
  | waiting =>
    simp only [howner] at hstep
    split_ifs at hstep with hsocket
    cases hstep
    constructor <;> grind -linarith [ServerPc.Serving]
  | joining =>
    simp only [howner] at hstep
    split at hstep
    · next hended =>
      cases hstep
      constructor <;> grind -linarith [ServerPc.Serving]
    · cases hstep
  | stopped => simp [howner] at hstep

theorem threadStep_handle {client : κ} {request : μ} (hthread : s.thread = .handle client request)
    (hstep : s.threadStep handler = some s') : ∃ service response,
      handler.handle s.service request = some (service, response) ∧ s' = { s with
        service
        thread := .send client response
        log := s.log ++ [⟨client, request, response⟩] } := by
  simp only [threadStep, hthread] at hstep
  obtain ⟨⟨service, response⟩, hhandle, hrest⟩ := Option.bind_eq_some_iff.mp hstep
  cases hrest
  exact ⟨service, response, hhandle, rfl⟩

theorem Lifecycle.thread_step (h : s.Lifecycle) (hstep : s.threadStep handler = some s') :
    s'.Lifecycle := by
  obtain ⟨hcreated, hlaunched, hbinding, hserving, hrunning, hfailed, hstarted, hkilled, hclosed,
    hjoined, hidle⟩ := h
  cases hthread : s.thread with
  | notStarted => simp [threadStep, hthread] at hstep
  | bind =>
    obtain ⟨howner, hkill, hsocket⟩ := hbinding hthread
    simp only [threadStep, hthread] at hstep
    split_ifs at hstep with hfree <;> cases hstep
    · constructor <;> grind -linarith [ServerPc.Serving]
    · constructor <;> grind -linarith [ServerPc.Serving]
  | testKilled =>
    simp only [threadStep, hthread] at hstep
    split_ifs at hstep with hkill <;> cases hstep
    · constructor <;> grind -linarith [ServerPc.Serving]
    · constructor <;> grind -linarith [ServerPc.Serving]
  | announce =>
    simp only [threadStep, hthread, Option.some.injEq] at hstep
    subst hstep
    constructor <;> grind -linarith [ServerPc.Serving]
  | receive =>
    simp only [threadStep, hthread] at hstep
    split_ifs at hstep with hterminated
    · cases hstep
      unfold receiveTerminated
      split_ifs with hopen
      · constructor <;> grind -linarith [ServerPc.Serving]
      · constructor <;> grind -linarith [ServerPc.Serving]
    · split at hstep
      · cases hstep
      · split_ifs at hstep <;> cases hstep
        · constructor <;> grind -linarith [ServerPc.Serving]
        · constructor <;> grind -linarith [ServerPc.Serving]
  | handle client request =>
    obtain ⟨service, response, -, rfl⟩ := threadStep_handle hthread hstep
    constructor <;> grind -linarith [ServerPc.Serving]
  | send client response =>
    simp only [threadStep, hthread] at hstep
    split_ifs at hstep with hterminated <;> cases hstep
    · constructor <;> grind -linarith [ServerPc.Serving]
    · constructor <;> grind -linarith [ServerPc.Serving]
  | ended => simp [threadStep, hthread] at hstep

/-- The thread will receive again, or has closed the socket. -/
def WillClose (s : ProtoServer κ μ ρ σ) : Prop :=
  s.thread = .announce ∨ s.thread = .receive ∨ s.socket = false

/-- The owner waits for a socket that nobody is going to close. -/
structure Hangs (s : ProtoServer κ μ ρ σ) : Prop where
  waiting : s.owner = .waiting
  killed : s.kill = true
  terminated : s.terminated = true
  socket : s.socket = true
  thread : s.thread ≠ .notStarted ∧ s.thread ≠ .bind ∧ s.thread ≠ .announce ∧ s.thread ≠ .receive

/-- A server that waits for its socket hangs, or its thread is about to close the socket. -/
theorem Lifecycle.hangs (h : s.Lifecycle) (howner : s.owner = .waiting) (hclose : ¬ s.WillClose) :
    s.Hangs := by
  have hlaunched := h.launched (by simp [howner])
  have hbinding : s.thread ≠ .bind := by
    intro hbind
    obtain ⟨hstarting, -⟩ := h.binding hbind
    simp [howner] at hstarting
  simp only [WillClose, not_or, Bool.not_eq_false] at hclose
  exact ⟨howner, h.killed (Or.inr (Or.inl howner)), h.closed howner, hclose.2.2,
    hlaunched, hbinding, hclose.1, hclose.2.1⟩

/-- `stopServer` is about to come back. -/
inductive Closes (s : ProtoServer κ μ ρ σ) : Prop
  | receiving (owner : s.owner = .waiting) (terminated : s.terminated = true)
      (thread : s.thread = .announce ∨ s.thread = .receive) (isOpen : s.isOpen = true)
      (socket : s.socket = true)
  | closed (owner : s.owner = .waiting) (thread : s.thread = .ended) (socket : s.socket = false)
  | joining (owner : s.owner = .joining) (thread : s.thread = .ended)
  | stopped (owner : s.owner = .stopped) (thread : s.thread = .ended)

/-- Steps that the owner and the thread have left. -/
def left (s : ProtoServer κ μ ρ σ) : ℕ :=
  (match s.owner with
    | .waiting => 2
    | .joining => 1
    | _ => 0) +
  match s.thread with
    | .announce => 2
    | .receive => 1
    | _ => 0

theorem left_le_four (s : ProtoServer κ μ ρ σ) : s.left ≤ 4 := by
  unfold left
  split <;> split <;> omega

theorem Lifecycle.closes (h : s.Lifecycle) (howner : s.owner = .waiting) (hclose : s.WillClose) :
    s.Closes := by
  rcases hclose with hannounce | hreceive | hsocket
  · have hserving := h.serving (by simp [hannounce, ServerPc.Serving])
    exact .receiving howner (h.closed howner) (Or.inl hannounce) hserving.1 hserving.2.1
  · have hserving := h.serving (by simp [hreceive, ServerPc.Serving])
    exact .receiving howner (h.closed howner) (Or.inr hreceive) hserving.1 hserving.2.1
  · have hlaunched := h.launched (by simp [howner])
    have hbinding := h.binding
    have hserving := h.serving
    refine .closed howner ?_ hsocket
    cases hthread : s.thread with
    | ended => rfl
    | notStarted => exact absurd hthread hlaunched
    | bind => simp [hthread, hsocket] at hbinding
    | testKilled => simp [hthread, hsocket, ServerPc.Serving] at hserving
    | announce => simp [hthread, hsocket, ServerPc.Serving] at hserving
    | receive => simp [hthread, hsocket, ServerPc.Serving] at hserving
    | handle client request => simp [hthread, hsocket, ServerPc.Serving] at hserving
    | send client response => simp [hthread, hsocket, ServerPc.Serving] at hserving

theorem Closes.owner_step (h : s.Closes) (hstep : s.ownerStep = some s') :
    s'.Closes ∧ s'.left + 1 = s.left := by
  cases h with
  | receiving howner hterminated hthread hopen hsocket =>
    simp [ownerStep, howner, hsocket] at hstep
  | closed howner hthread hsocket =>
    simp only [ownerStep, howner, hsocket, Bool.false_eq_true, if_false,
      Option.some.injEq] at hstep
    subst hstep
    exact ⟨.joining rfl hthread, by simp [left, howner, hthread]⟩
  | joining howner hthread =>
    simp only [ownerStep, howner, hthread, Option.some.injEq] at hstep
    subst hstep
    exact ⟨.stopped rfl (by simp), by simp [left, howner, hthread]⟩
  | stopped howner hthread => simp [ownerStep, howner] at hstep

theorem Closes.thread_step (h : s.Closes) (hstep : s.threadStep handler = some s') :
    s'.Closes ∧ s'.left + 1 = s.left := by
  cases h with
  | receiving howner hterminated hthread hopen hsocket =>
    rcases hthread with hannounce | hreceive
    · simp only [threadStep, hannounce, Option.some.injEq] at hstep
      subst hstep
      exact ⟨.receiving howner hterminated (Or.inr rfl) hopen hsocket, by
        simp [left, howner, hannounce]⟩
    · simp only [threadStep, hreceive, hterminated, if_true, receiveTerminated, hopen,
        Option.some.injEq] at hstep
      subst hstep
      exact ⟨.closed howner rfl rfl, by simp [left, howner, hreceive]⟩
  | closed howner hthread hsocket => simp [threadStep, hthread] at hstep
  | joining howner hthread => simp [threadStep, hthread] at hstep
  | stopped howner hthread => simp [threadStep, hthread] at hstep

theorem Closes.stopped_of_stuck (h : s.Closes) (howner : s.ownerStep = none)
    (hthread : s.threadStep handler = none) : s.owner = .stopped := by
  cases h with
  | receiving hwaiting hterminated hat hopen hsocket =>
    rcases hat with hat | hat <;> simp [threadStep, hat, hterminated] at hthread
  | closed hwaiting hended hsocket => simp [ownerStep, hwaiting, hsocket] at howner
  | joining hjoining hended => simp [ownerStep, hjoining, hended] at howner
  | stopped hstopped hended => exact hstopped

variable [DecidableEq κ]

/-- Clients move nothing but their messages. -/
theorem step_client {label : ServerLabel κ μ} (hlabel : label ≠ .owner ∧ label ≠ .thread)
    (hstep : s.step handler label = some s') : ∃ inbox outbox waiting,
      s' = { s with inbox, outbox, waiting } := by
  cases label with
  | owner => exact absurd rfl hlabel.1
  | thread => exact absurd rfl hlabel.2
  | request client request =>
    simp only [step] at hstep
    split_ifs at hstep
    cases hstep
    exact ⟨_, _, _, rfl⟩
  | response client =>
    simp only [step] at hstep
    split at hstep <;> cases hstep
    exact ⟨_, _, _, rfl⟩

theorem Lifecycle.step (h : s.Lifecycle) {label : ServerLabel κ μ}
    (hstep : s.step handler label = some s') : s'.Lifecycle := by
  by_cases hclient : label ≠ .owner ∧ label ≠ .thread
  · obtain ⟨inbox, outbox, waiting, rfl⟩ := step_client hclient hstep
    exact ⟨h.created, h.launched, h.binding, h.serving, h.running, h.failed, h.started, h.killed,
      h.closed, h.joined, h.idle⟩
  · cases label with
    | owner => exact h.owner_step hstep
    | thread => exact h.thread_step hstep
    | request client request => exact absurd ⟨by simp, by simp⟩ hclient
    | response client => exact absurd ⟨by simp, by simp⟩ hclient

theorem Hangs.step (h : s.Hangs) {label : ServerLabel κ μ}
    (hstep : s.step handler label = some s') : s'.Hangs := by
  obtain ⟨hwaiting, hkilled, hterminated, hsocket, hthread⟩ := h
  by_cases hclient : label ≠ .owner ∧ label ≠ .thread
  · obtain ⟨inbox, outbox, waiting, rfl⟩ := step_client hclient hstep
    exact ⟨hwaiting, hkilled, hterminated, hsocket, hthread⟩
  · cases label with
    | owner => simp [ProtoServer.step, ownerStep, hwaiting, hsocket] at hstep
    | thread =>
      cases hat : s.thread with
      | handle client request =>
        obtain ⟨service, response, -, rfl⟩ := threadStep_handle hat hstep
        constructor <;> grind -linarith
      | testKilled =>
        simp only [ProtoServer.step, threadStep, hat, hkilled, if_true, Option.some.injEq] at hstep
        subst hstep
        constructor <;> grind -linarith
      | send client response =>
        simp only [ProtoServer.step, threadStep, hat, hterminated, if_true,
          Option.some.injEq] at hstep
        subst hstep
        constructor <;> grind -linarith
      | ended => simp [ProtoServer.step, threadStep, hat] at hstep
      | notStarted => exact absurd hat hthread.1
      | bind => exact absurd hat hthread.2.1
      | announce => exact absurd hat hthread.2.2.1
      | receive => exact absurd hat hthread.2.2.2
    | request client request => exact absurd ⟨by simp, by simp⟩ hclient
    | response client => exact absurd ⟨by simp, by simp⟩ hclient

theorem Closes.client_step (h : s.Closes) {label : ServerLabel κ μ}
    (hlabel : label ≠ .owner ∧ label ≠ .thread) (hstep : s.step handler label = some s') :
    s'.Closes ∧ s'.left = s.left := by
  obtain ⟨inbox, outbox, waiting, rfl⟩ := step_client hlabel hstep
  refine ⟨?_, by simp [left]⟩
  cases h with
  | receiving howner hterminated hthread hopen hsocket =>
    exact .receiving howner hterminated hthread hopen hsocket
  | closed howner hthread hsocket => exact .closed howner hthread hsocket
  | joining howner hthread => exact .joining howner hthread
  | stopped howner hthread => exact .stopped howner hthread

theorem Closes.step (h : s.Closes) {label : ServerLabel κ μ}
    (hstep : s.step handler label = some s') :
    s'.Closes ∧ s'.left + (if label.ofServer then 1 else 0) = s.left := by
  cases label with
  | owner => exact h.owner_step hstep
  | thread => exact h.thread_step hstep
  | request client request => exact h.client_step ⟨by simp, by simp⟩ hstep
  | response client => exact h.client_step ⟨by simp, by simp⟩ hstep

/-- Clients cannot keep a server from stopping: the owner and the thread have their steps left
whatever the clients do. -/
theorem Closes.run (h : s.Closes) {labels : List (ServerLabel κ μ)}
    (hexec : exec (ProtoServer.step handler) s labels = some t) :
    t.Closes ∧ t.left + labels.countP ServerLabel.ofServer = s.left := by
  induction labels generalizing s with
  | nil =>
    cases hexec
    exact ⟨h, by simp⟩
  | cons label labels ih =>
    obtain ⟨u, hu, hrest⟩ := Option.bind_eq_some_iff.mp hexec
    obtain ⟨hcloses, hleft⟩ := h.step hu
    obtain ⟨hlast, hcount⟩ := ih hcloses hrest
    refine ⟨hlast, ?_⟩
    rw [List.countP_cons]
    omega

theorem Closes.returns (h : s.Closes) :
    ∃ later t, exec (ProtoServer.step handler) s later = some t ∧ t.owner = .stopped := by
  induction hleft : s.left using Nat.strong_induction_on generalizing s with
  | h n ih =>
    by_cases howner : s.ownerStep = none
    · by_cases hthread : s.threadStep handler = none
      · exact ⟨[], s, rfl, h.stopped_of_stuck howner hthread⟩
      · obtain ⟨s', hs'⟩ := Option.ne_none_iff_exists'.mp hthread
        obtain ⟨hcloses, hless⟩ := h.thread_step hs'
        obtain ⟨later, t, hexec, hstopped⟩ := ih s'.left (by omega) hcloses rfl
        exact ⟨.thread :: later, t, by simp [ProtoServer.step, hs', hexec], hstopped⟩
    · obtain ⟨s', hs'⟩ := Option.ne_none_iff_exists'.mp howner
      obtain ⟨hcloses, hless⟩ := h.owner_step hs'
      obtain ⟨later, t, hexec, hstopped⟩ := ih s'.left (by omega) hcloses rfl
      exact ⟨.owner :: later, t, by simp [ProtoServer.step, hs', hexec], hstopped⟩

theorem Hangs.run (h : s.Hangs) {labels : List (ServerLabel κ μ)}
    (hexec : Schedule.exec (ProtoServer.step handler) s labels = some t) : t.Hangs :=
  invariant_exec (fun _ _ _ hs hstep => hs.step hstep) labels s t h hexec

theorem step_portFree {label : ServerLabel κ μ} (hstep : s.step handler label = some s') :
    s'.portFree = s.portFree := by
  cases label with
  | owner =>
    simp only [step, ownerStep] at hstep
    split at hstep <;> grind -linarith
  | thread =>
    cases hthread : s.thread with
    | handle client request =>
      obtain ⟨service, response, -, rfl⟩ := threadStep_handle hthread hstep
      rfl
    | _ =>
      simp only [step, threadStep, hthread, receiveTerminated] at hstep
      grind
  | request client request =>
    obtain ⟨inbox, outbox, waiting, rfl⟩ := step_client (by simp) hstep
    rfl
  | response client =>
    obtain ⟨inbox, outbox, waiting, rfl⟩ := step_client (by simp) hstep
    rfl

/-- `startServer` reports whether the port was free; the thread of a server that did not start has
ended and has not handled a request. -/
theorem startServer_reports (portFree : Bool) (service : σ) (labels : List (ServerLabel κ μ)) :
    Throughout (step handler) (fun s => ∀ success, s.owner = .started success →
      success = portFree ∧ s.running = portFree ∧
      (portFree = false → s.thread = .ended ∧ s.log = [])) (init portFree service) labels := by
  intro pre s hpre hexec success hstarted
  obtain ⟨hlife, hfree⟩ : s.Lifecycle ∧ s.portFree = portFree :=
    invariant_exec (I := fun s : ProtoServer κ μ ρ σ => s.Lifecycle ∧ s.portFree = portFree)
      (fun _ _ _ h hstep => ⟨h.1.step hstep, (step_portFree hstep).trans h.2⟩) pre _ s
      ⟨lifecycle_init portFree service, rfl⟩ hexec
  obtain ⟨hsuccess, hrunning, hended⟩ := hlife.started success hstarted
  subst hfree
  subst hsuccess
  exact ⟨rfl, hrunning, fun hbusy => ⟨hended hbusy, hlife.idle hbusy⟩⟩

/-- While `stopServer` waits for the context: it comes back if the thread will receive once more
or has closed the socket already, and then after at most four steps of the owner and the thread,
whatever the clients do; in any other case it never does. -/
theorem stopServer_returns_iff (portFree : Bool) (service : σ) (labels : List (ServerLabel κ μ)) :
    Throughout (step handler) (fun s => s.owner = .waiting →
      ((∃ later t, exec (step handler) s later = some t ∧ t.owner = .stopped) ↔ s.WillClose) ∧
      (s.WillClose → ∀ later t, exec (step handler) s later = some t →
        later.countP ServerLabel.ofServer ≤ 4 ∧
        (t.ownerStep = none → t.threadStep handler = none → t.owner = .stopped)))
      (init portFree service) labels := by
  intro pre s hpre hexec howner
  have hlife : s.Lifecycle := invariant_exec (fun _ _ _ h hstep => h.step hstep) pre _ s
    (lifecycle_init portFree service) hexec
  constructor
  · constructor
    · rintro ⟨later, t, hlater, hstopped⟩
      by_contra hclose
      have hwaiting := ((hlife.hangs howner hclose).run hlater).waiting
      simp [hstopped] at hwaiting
    · intro hclose
      exact (hlife.closes howner hclose).returns
  · intro hclose later t hlater
    obtain ⟨hcloses, hcount⟩ := (hlife.closes howner hclose).run hlater
    have hfour := s.left_le_four
    exact ⟨by omega, hcloses.stopped_of_stuck⟩

end ProtoServer
end DpiLibrary
