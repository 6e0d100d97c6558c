import Mathlib.Data.List.Count
import DpiLibrary.Foundation.AtomicObject

/-!
# The request server

A `ProtoServer` receives requests on a socket and answers them one after the other in a thread
of its own. Its owner starts and stops it, and clients send requests and wait for the
responses. All of them move statement by statement. What a server does with a request is a
parameter, and the context of the socket behaves as ZeroMQ documents it: once it is being
closed the socket fails, and closing it waits until the socket has been closed. A receive that
fails for another reason is the end of the process.
-/

namespace DpiLibrary

/-- Where the owner is: in `startServer`, between the calls or in `stopServer`. -/
inductive OwnerPc where
  | created
  | starting
  | started (success : Bool)
  | clearing
  | stopping
  | closingContext
  | waiting
  | joining
  | stopped
  deriving DecidableEq, Repr

/-- Where the server's thread is in `run`. -/
inductive ServerPc (κ μ ρ : Type) where
  | notStarted
  | bind
  | testKilled
  | announce
  | receive
  | handle (client : κ) (request : μ)
  | send (client : κ) (response : ρ)
  | ended
  deriving DecidableEq, Repr

/-- What a server makes of its messages: whether one parses, and `handle`, which is `none` for
a request it does not survive. -/
structure Handler (μ ρ σ : Type) where
  parses : μ → Bool
  handle : σ → μ → Option (σ × ρ)

/-- The server with its owner, its socket and its clients. -/
structure ProtoServer (κ μ ρ σ : Type) where
  owner : OwnerPc
  thread : ServerPc κ μ ρ
  /-- Whether the port is free. -/
  portFree : Bool
  running : Bool
  kill : Bool
  isOpen : Bool
  /-- The socket has been made and not been closed. -/
  socket : Bool
  /-- The context is being closed. -/
  terminated : Bool
  service : σ
  inbox : List (κ × μ)
  outbox : List (κ × ρ)
  /-- The client waits for a response. -/
  waiting : κ → Bool
  /-- The requests handled so far. -/
  log : List (Operation κ μ ρ)

inductive ServerLabel (κ μ : Type) where
  | owner
  | thread
  | request (client : κ) (request : μ)
  | response (client : κ)
  deriving DecidableEq, Repr

namespace ProtoServer

variable {κ μ ρ σ : Type} [DecidableEq κ]

def init (portFree : Bool) (service : σ) : ProtoServer κ μ ρ σ where
  owner := .created
  thread := .notStarted
  portFree
  running := false
  kill := false
  isOpen := false
  socket := false
  terminated := false
  service
  inbox := []
  outbox := []
  waiting := fun _ => false
  log := []

/-- `startServer`, then `stopServer`. -/
def ownerStep (s : ProtoServer κ μ ρ σ) : Option (ProtoServer κ μ ρ σ) :=
  match s.owner with
  | .created => some { s with owner := .starting, socket := true, thread := .bind }
  | .starting =>
    if s.running then some { s with owner := .started true }
    else if s.kill then some { s with owner := .started false }
    else some s
  | .started _ =>
    if s.running then some { s with owner := .clearing } else some { s with owner := .stopped }
  | .clearing => some { s with running := false, owner := .stopping }
  | .stopping => some { s with kill := true, owner := .closingContext }
  | .closingContext => some { s with terminated := true, owner := .waiting }
  | .waiting => if s.socket then none else some { s with owner := .joining }
  | .joining =>
    match s.thread with
    | .ended => some { s with owner := .stopped }
    | _ => none
  | .stopped => none

/-- `receive` when the context has been closed: the socket is closed here. -/
def receiveTerminated (s : ProtoServer κ μ ρ σ) : ProtoServer κ μ ρ σ :=
  if s.isOpen then { s with isOpen := false, socket := false, thread := .ended }
  else { s with thread := .ended }

/-- `run`. A response that the closed context refuses is dropped. -/
def threadStep (handler : Handler μ ρ σ) (s : ProtoServer κ μ ρ σ) :
    Option (ProtoServer κ μ ρ σ) :=
  match s.thread with
  | .notStarted => none
  | .bind =>
    if s.portFree then some { s with isOpen := true, thread := .testKilled }
    else some { s with isOpen := false, kill := true, thread := .ended }
  | .testKilled =>
    if s.kill then some { s with thread := .ended } else some { s with thread := .announce }
  | .announce => some { s with running := true, thread := .receive }
  | .receive =>
    if s.terminated then some s.receiveTerminated
    else match s.inbox with
      | [] => none
      | (client, request) :: inbox =>
        if handler.parses request then some { s with inbox, thread := .handle client request }
        else some { s with inbox, thread := .ended }
  | .handle client request => do
    let (service, response) ← handler.handle s.service request
    some { s with
      service
      thread := .send client response
      log := s.log ++ [⟨client, request, response⟩] }
  | .send client response =>
    if s.terminated then some { s with thread := .testKilled }
    else some { s with outbox := s.outbox ++ [(client, response)], thread := .testKilled }
  | .ended => none

/-- One move of a party; a client sends a request and takes the response in `ProtoClient::send`,
so that it has one request under way at most. -/
def step (handler : Handler μ ρ σ) (s : ProtoServer κ μ ρ σ) :
    ServerLabel κ μ → Option (ProtoServer κ μ ρ σ)
  | .owner => s.ownerStep
  | .thread => s.threadStep handler
  | .request client request =>
    if s.waiting client then none
    else some { s with
      inbox := s.inbox ++ [(client, request)]
      waiting := Function.update s.waiting client true }
  | .response client =>
    match s.outbox.find? fun entry => entry.1 = client with
    | none => none
    | some _ => some { s with
        outbox := s.outbox.eraseP fun entry => entry.1 = client
        waiting := Function.update s.waiting client false }

/-- What the clients see of a step. -/
def event (s : ProtoServer κ μ ρ σ) : ServerLabel κ μ → Option (ObjectEvent κ μ ρ)
  | .request client request => some (.call client request)
  | .response client =>
    (s.outbox.find? fun entry => entry.1 = client).map fun entry => .ret client entry.2
  | _ => none

end ProtoServer
end DpiLibrary
