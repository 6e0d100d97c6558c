import Mathlib.Logic.Function.Basic
import DpiLibrary.Foundation.SinceMark

/-!
# The send queues of a client

A client posts its work requests to the queue pairs of the nodes it is connected to
and waits for the completion of a signaled one. One counter for all queue pairs
decides when a signal is forced. A queue pair is created for `RDMA_MAX_WR` requests.
-/

namespace DpiLibrary

/-- `Config::RDMA_MAX_WR`. -/
def rdmaMaxWr : ℕ := 4096

inductive Opcode where
  | write
  | read
  | fetchAndAdd
  | compareAndSwap
  | send
  deriving DecidableEq, Repr

/-- A posted work request; `polled` says that its completion has been polled. -/
structure WorkRequest where
  opcode : Opcode
  signaled : Bool
  polled : Bool
  deriving DecidableEq, Repr

namespace WorkRequest

/-- Requests of a queue pair that are not retired, the oldest one first in the list: neither
they nor a later one is signaled and polled. -/
def unretired : List WorkRequest → ℕ
  | [] => 0
  | request :: later =>
    if (request :: later).any fun r => r.signaled && r.polled then unretired later
    else unretired later + 1

/-- `ibv_poll_cq` returns the oldest completion. -/
def pollCq : List WorkRequest → List WorkRequest
  | [] => []
  | request :: later =>
    if request.signaled && !request.polled then { request with polled := true } :: later
    else request :: pollCq later

end WorkRequest

/-- The queue pairs are known by their connection keys. `waiting` is the one whose completion
queue the running call polls. -/
structure RDMAClient where
  countWR : ℕ
  nodeIDsIBaddr : ℕ → ℕ
  sendQueue : ℕ → List WorkRequest
  waiting : Option ℕ

/-- A call of the client. `writeRC` is `write`, and a call with a connection or an address in
place of the node does the same. `accepted` says whether the device takes the work request: it
may have room for more than a queue pair was created for. -/
inductive ClientCall where
  | write (nodeid : ℕ) (signaled accepted : Bool)
  | read (nodeid : ℕ) (signaled accepted : Bool)
  | fetchAndAdd (nodeid : ℕ) (signaled accepted : Bool)
  | compareAndSwap (nodeid : ℕ) (signaled accepted : Bool)
  | send (nodeid : ℕ) (signaled accepted : Bool)
  deriving DecidableEq, Repr

namespace ClientCall

def opcode : ClientCall → Opcode
  | .write _ _ _ => .write
  | .read _ _ _ => .read
  | .fetchAndAdd _ _ _ => .fetchAndAdd
  | .compareAndSwap _ _ _ => .compareAndSwap
  | .send _ _ _ => .send

def nodeid : ClientCall → ℕ
  | .write nodeid _ _ => nodeid
  | .read nodeid _ _ => nodeid
  | .fetchAndAdd nodeid _ _ => nodeid
  | .compareAndSwap nodeid _ _ => nodeid
  | .send nodeid _ _ => nodeid

def signaled : ClientCall → Bool
  | .write _ signaled _ => signaled
  | .read _ signaled _ => signaled
  | .fetchAndAdd _ signaled _ => signaled
  | .compareAndSwap _ signaled _ => signaled
  | .send _ signaled _ => signaled

def accepted : ClientCall → Bool
  | .write _ _ accepted => accepted
  | .read _ _ accepted => accepted
  | .fetchAndAdd _ _ accepted => accepted
  | .compareAndSwap _ _ accepted => accepted
  | .send _ _ accepted => accepted

end ClientCall

/-- `checkSignaled` on the counter alone. -/
def countSignaled (countWR : ℕ) (signaled : Bool) : ℕ × Bool :=
  if countWR + 1 = rdmaMaxWr then (0, true) else (countWR + 1, signaled)

namespace RDMAClient

def init (nodeIDsIBaddr : ℕ → ℕ) : RDMAClient where
  countWR := 0
  nodeIDsIBaddr
  sendQueue := fun _ => []
  waiting := none

def checkSignaled (s : RDMAClient) (signaled : Bool) : RDMAClient × Bool :=
  ({ s with countWR := (countSignaled s.countWR signaled).1 },
    (countSignaled s.countWR signaled).2)

/-- `RDMAManagerRC::remoteAccess`, `remoteFetchAndAdd`, `remoteCompareAndSwap` and `send` up
to the loop that polls, which only a signaled request enters. A post that is refused ends the
call. -/
def remoteAccess (s : RDMAClient) (opcode : Opcode) (connKey : ℕ) (signaled accepted : Bool) :
    RDMAClient :=
  if accepted then
    { s with
      sendQueue := Function.update s.sendQueue connKey
        (s.sendQueue connKey ++ [⟨opcode, signaled, false⟩])
      waiting := if signaled then some connKey else none }
  else { s with waiting := none }

/-- The body of the calls, which differ in the operation only. -/
def access (s : RDMAClient) (opcode : Opcode) (nodeid : ℕ) (signaled accepted : Bool) :
    RDMAClient :=
  (s.checkSignaled signaled).1.remoteAccess opcode (s.nodeIDsIBaddr nodeid)
    (s.checkSignaled signaled).2 accepted

def write (s : RDMAClient) (nodeid : ℕ) (signaled accepted : Bool) : RDMAClient :=
  s.access .write nodeid signaled accepted

def read (s : RDMAClient) (nodeid : ℕ) (signaled accepted : Bool) : RDMAClient :=
  s.access .read nodeid signaled accepted

def fetchAndAdd (s : RDMAClient) (nodeid : ℕ) (signaled accepted : Bool) : RDMAClient :=
  s.access .fetchAndAdd nodeid signaled accepted

def compareAndSwap (s : RDMAClient) (nodeid : ℕ) (signaled accepted : Bool) : RDMAClient :=
  s.access .compareAndSwap nodeid signaled accepted

def send (s : RDMAClient) (nodeid : ℕ) (signaled accepted : Bool) : RDMAClient :=
  s.access .send nodeid signaled accepted

/-- A call up to its last post. -/
def post (s : RDMAClient) : ClientCall → RDMAClient
  | .write nodeid signaled accepted => s.write nodeid signaled accepted
  | .read nodeid signaled accepted => s.read nodeid signaled accepted
  | .fetchAndAdd nodeid signaled accepted => s.fetchAndAdd nodeid signaled accepted
  | .compareAndSwap nodeid signaled accepted => s.compareAndSwap nodeid signaled accepted
  | .send nodeid signaled accepted => s.send nodeid signaled accepted

/-- The rest of a call: it polls until there is a completion. -/
def poll (s : RDMAClient) : RDMAClient :=
  match s.waiting with
  | none => s
  | some connKey =>
    { s with
      sendQueue := Function.update s.sendQueue connKey (WorkRequest.pollCq (s.sendQueue connKey))
      waiting := none }

/-- The state after a sequence of calls. -/
def run (s : RDMAClient) (calls : List ClientCall) : RDMAClient :=
  calls.foldl (fun s call => (s.post call).poll) s

/-- The states a sequence of calls passes through, those inside calls included. -/
def states : RDMAClient → List ClientCall → List RDMAClient
  | s, [] => [s]
  | s, call :: calls => s :: s.post call :: states (s.post call).poll calls

/-- No queue pair holds more requests than it was created for. -/
def WithinCapacity (s : RDMAClient) : Prop :=
  ∀ connKey, WorkRequest.unretired (s.sendQueue connKey) ≤ rdmaMaxWr

theorem post_eq (s : RDMAClient) (call : ClientCall) :
    s.post call = s.access call.opcode call.nodeid call.signaled call.accepted := by
  cases call <;> rfl

end RDMAClient

/-- The calls as events of queue pairs: a call is signaled on request, and every
`RDMA_MAX_WR`-th call of the client in any case. A refused one counts there as well. -/
def signals (nodeIDsIBaddr : ℕ → ℕ) (calls : List ClientCall) : List (ℕ × Bool) :=
  (calls.zipIdx.filter fun (call, _) => call.accepted).map fun (call, i) =>
    (nodeIDsIBaddr call.nodeid, call.signaled || (i + 1) % rdmaMaxWr == 0)

theorem signals_concat (nodeIDsIBaddr : ℕ → ℕ) (calls : List ClientCall) (call : ClientCall) :
    signals nodeIDsIBaddr (calls ++ [call]) = signals nodeIDsIBaddr calls ++
      if call.accepted then
        [(nodeIDsIBaddr call.nodeid, call.signaled || (calls.length + 1) % rdmaMaxWr == 0)]
      else [] := by
  cases haccepted : call.accepted <;>
    simp [signals, List.zipIdx_append, List.filter_append, haccepted]

namespace WorkRequest

theorem unretired_post (queue : List WorkRequest) (opcode : Opcode) (signaled : Bool) :
    unretired (queue ++ [⟨opcode, signaled, false⟩]) = unretired queue + 1 := by
  induction queue with
  | nil => simp [unretired]
  | cons request queue ih =>
    have hany : ((request :: (queue ++ [⟨opcode, signaled, false⟩])).any fun r =>
        r.signaled && r.polled) = (request :: queue).any fun r => r.signaled && r.polled := by
      simp
    rw [List.cons_append, unretired, hany, ih, unretired]
    split_ifs <;> rfl

theorem unretired_polled (queue : List WorkRequest) (opcode : Opcode) :
    unretired (queue ++ [⟨opcode, true, true⟩]) = 0 := by
  induction queue with
  | nil => simp [unretired]
  | cons request queue ih => simp [unretired, ih]

/-- The completion polled is that of the request just posted. -/
theorem pollCq_post {queue : List WorkRequest} (opcode : Opcode)
    (hpolled : ∀ request ∈ queue, request.signaled = true → request.polled = true) :
    pollCq (queue ++ [⟨opcode, true, false⟩]) = queue ++ [⟨opcode, true, true⟩] := by
  induction queue with
  | nil => rfl
  | cons request queue ih =>
    have hhead : (request.signaled && !request.polled) = false := by
      cases hsignaled : request.signaled with
      | false => rfl
      | true => simp [hpolled request List.mem_cons_self hsignaled]
    have htail := ih fun r hr => hpolled r (List.mem_cons_of_mem request hr)
    simp only [List.cons_append, pollCq, hhead, Bool.false_eq_true, if_false, htail]

end WorkRequest

namespace RDMAClient

variable {nodeIDsIBaddr : ℕ → ℕ} {done calls : List ClientCall} {s : RDMAClient}

/-- Between calls: all completions are polled, and of each queue pair the requests after the
last signaled one are not retired. -/
structure Idle (nodeIDsIBaddr : ℕ → ℕ) (done : List ClientCall) (s : RDMAClient) : Prop where
  addr : s.nodeIDsIBaddr = nodeIDsIBaddr
  countWR : s.countWR = done.length % rdmaMaxWr
  polled : ∀ connKey, ∀ request ∈ s.sendQueue connKey, request.signaled = true →
    request.polled = true
  unretired : ∀ connKey, WorkRequest.unretired (s.sendQueue connKey) =
    sinceMark connKey (signals nodeIDsIBaddr done)

theorem idle_init (nodeIDsIBaddr : ℕ → ℕ) : Idle nodeIDsIBaddr [] (init nodeIDsIBaddr) where
  addr := rfl
  countWR := rfl
  polled _ _ hrequest := absurd hrequest List.not_mem_nil
  unretired _ := rfl

/-- The counter goes through the calls modulo the capacity. -/
theorem Idle.checkSignaled (h : Idle nodeIDsIBaddr done s) (signaled : Bool) :
    s.checkSignaled signaled =
      ({ s with countWR := (done.length + 1) % rdmaMaxWr },
        signaled || (done.length + 1) % rdmaMaxWr == 0) := by
  have hcount := h.countWR
  unfold RDMAClient.checkSignaled countSignaled
  unfold rdmaMaxWr at hcount ⊢
  split_ifs with hlast
  · have hzero : (done.length + 1) % 4096 = 0 := by omega
    simp [hzero]
  · have hsucc : (done.length + 1) % 4096 = s.countWR + 1 := by omega
    simp [hsucc]

theorem Idle.post (h : Idle nodeIDsIBaddr done s) (call : ClientCall) :
    s.post call =
      { s with countWR := (done.length + 1) % rdmaMaxWr }.remoteAccess call.opcode
        (nodeIDsIBaddr call.nodeid)
        (call.signaled || (done.length + 1) % rdmaMaxWr == 0) call.accepted := by
  rw [post_eq, access, h.checkSignaled, h.addr]

/-- Inside a call the queue pair holds one request more, if the device has taken it. -/
theorem Idle.sendQueue_post (h : Idle nodeIDsIBaddr done s) (call : ClientCall) (connKey : ℕ) :
    (s.post call).sendQueue connKey =
      if connKey = nodeIDsIBaddr call.nodeid ∧ call.accepted = true then
        s.sendQueue connKey ++
          [⟨call.opcode, call.signaled || (done.length + 1) % rdmaMaxWr == 0, false⟩]
      else s.sendQueue connKey := by
  rw [h.post, remoteAccess]
  cases call.accepted with
  | false => simp
  | true =>
    by_cases hkey : connKey = nodeIDsIBaddr call.nodeid
    · subst hkey
      simp
    · simp [hkey]

/-- Behind the call a signaled request is polled. -/
theorem Idle.sendQueue_poll (h : Idle nodeIDsIBaddr done s) (call : ClientCall) (connKey : ℕ) :
    (s.post call).poll.sendQueue connKey =
      if connKey = nodeIDsIBaddr call.nodeid ∧ call.accepted = true then
        s.sendQueue connKey ++
          [⟨call.opcode, call.signaled || (done.length + 1) % rdmaMaxWr == 0,
            call.signaled || (done.length + 1) % rdmaMaxWr == 0⟩]
      else s.sendQueue connKey := by
  rw [h.post, remoteAccess, poll]
  have hpoll := WorkRequest.pollCq_post call.opcode (h.polled (nodeIDsIBaddr call.nodeid))
  cases call.accepted with
  | false => simp
  | true =>
    cases (call.signaled || (done.length + 1) % rdmaMaxWr == 0) with
    | false =>
      by_cases hkey : connKey = nodeIDsIBaddr call.nodeid
      · subst hkey
        simp
      · simp [hkey]
    | true =>
      by_cases hkey : connKey = nodeIDsIBaddr call.nodeid
      · subst hkey
        simp [hpoll]
      · simp [hkey]

theorem Idle.unretired_post (h : Idle nodeIDsIBaddr done s) (call : ClientCall) (connKey : ℕ) :
    WorkRequest.unretired ((s.post call).sendQueue connKey) =
      sinceMark connKey (signals nodeIDsIBaddr done) +
        if connKey = nodeIDsIBaddr call.nodeid ∧ call.accepted = true then 1 else 0 := by
  rw [h.sendQueue_post]
  split_ifs
  · rw [WorkRequest.unretired_post, h.unretired]
  · rw [h.unretired, Nat.add_zero]

theorem Idle.call (h : Idle nodeIDsIBaddr done s) (call : ClientCall) :
    Idle nodeIDsIBaddr (done ++ [call]) (s.post call).poll := by
  constructor
  · rw [h.post, remoteAccess, poll]
    cases call.accepted
    · exact h.addr
    · simp only [if_true]
      split <;> exact h.addr
  · rw [h.post, remoteAccess, poll, List.length_append, List.length_singleton]
    cases call.accepted
    · rfl
    · simp only [if_true]
      split <;> rfl
  · intro connKey request hrequest hsignaled
    rw [h.sendQueue_poll] at hrequest
    split_ifs at hrequest
    · rcases List.mem_append.mp hrequest with hold | hnew
      · exact h.polled connKey request hold hsignaled
      · obtain rfl := List.mem_singleton.mp hnew
        exact hsignaled
    · exact h.polled connKey request hrequest hsignaled
  · intro connKey
    rw [h.sendQueue_poll, signals_concat]
    cases call.accepted with
    | false => simpa using h.unretired connKey
    | true =>
      rw [if_pos rfl, sinceMark_concat, ← h.unretired]
      by_cases hkey : connKey = nodeIDsIBaddr call.nodeid
      · rw [if_pos ⟨hkey, rfl⟩, if_pos hkey.symm]
        cases (call.signaled || (done.length + 1) % rdmaMaxWr == 0) with
        | false => exact WorkRequest.unretired_post _ _ _
        | true => exact WorkRequest.unretired_polled _ _
      · rw [if_neg fun hcall => hkey hcall.1, if_neg (Ne.symm hkey)]

theorem Idle.run (h : Idle nodeIDsIBaddr done s) (calls : List ClientCall) :
    Idle nodeIDsIBaddr (done ++ calls) (s.run calls) := by
  induction calls generalizing done s with
  | nil => simpa [RDMAClient.run] using h
  | cons call calls ih =>
    have hcall := ih (h.call call)
    rwa [List.append_assoc, List.singleton_append] at hcall

/-- The states are those between calls and those inside one. -/
theorem mem_states {t : RDMAClient} :
    t ∈ s.states calls ↔
      (∃ done rest, calls = done ++ rest ∧ t = s.run done) ∨
        ∃ done call rest, calls = done ++ call :: rest ∧ t = (s.run done).post call := by
  induction calls generalizing s with
  | nil =>
    constructor
    · intro ht
      exact Or.inl ⟨[], [], rfl, List.mem_singleton.mp ht⟩
    · rintro (⟨done, rest, hsplit, rfl⟩ | ⟨done, call, rest, hsplit, -⟩)
      · obtain ⟨rfl, -⟩ := List.append_eq_nil_iff.mp hsplit.symm
        exact List.mem_singleton_self _
      · simp at hsplit
  | cons call calls ih =>
    rw [states, List.mem_cons, List.mem_cons, ih]
    constructor
    · rintro (rfl | rfl | ⟨done, rest, rfl, rfl⟩ | ⟨done, call', rest, rfl, rfl⟩)
      · exact Or.inl ⟨[], call :: calls, rfl, rfl⟩
      · exact Or.inr ⟨[], call, calls, rfl, rfl⟩
      · exact Or.inl ⟨call :: done, rest, rfl, rfl⟩
      · exact Or.inr ⟨call :: done, call', rest, rfl, rfl⟩
    · rintro (⟨done, rest, hsplit, rfl⟩ | ⟨done, call', rest, hsplit, rfl⟩)
      · cases done with
        | nil => exact Or.inl rfl
        | cons first done =>
          obtain ⟨rfl, rfl⟩ := List.cons.inj hsplit
          exact Or.inr (Or.inr (Or.inl ⟨done, rest, rfl, rfl⟩))
      · cases done with
        | nil =>
          obtain ⟨rfl, -⟩ := List.cons.inj hsplit
          exact Or.inr (Or.inl rfl)
        | cons first done =>
          obtain ⟨rfl, rfl⟩ := List.cons.inj hsplit
          exact Or.inr (Or.inr (Or.inr ⟨done, call', rest, rfl, rfl⟩))

/-- When the device takes a request for a queue pair, those taken for it without a signal in
between are fewer than it has room for. -/
def SignalsInTime (nodeIDsIBaddr : ℕ → ℕ) (calls : List ClientCall) : Prop :=
  ∀ done call rest before stretch, calls = done ++ call :: rest → call.accepted = true →
    signals nodeIDsIBaddr done = before ++ stretch →
    Unmarked (nodeIDsIBaddr call.nodeid) stretch →
    eventsOf (nodeIDsIBaddr call.nodeid) stretch < rdmaMaxWr

theorem signalsInTime_iff :
    SignalsInTime nodeIDsIBaddr calls ↔
      ∀ done call rest, calls = done ++ call :: rest → call.accepted = true →
        sinceMark (nodeIDsIBaddr call.nodeid) (signals nodeIDsIBaddr done) < rdmaMaxWr := by
  constructor
  · intro h done call rest hsplit haccepted
    apply (sinceMark_lt_iff _ _ _).mpr
    intro before stretch
    exact h done call rest before stretch hsplit haccepted
  · intro h done call rest before stretch hsplit haccepted
    exact (sinceMark_lt_iff _ _ _).mp (h done call rest hsplit haccepted) before stretch

/-- Calls that find room leave no more requests than there is room for. -/
theorem sinceMark_signals_le
    (hroom : ∀ done' call rest, done = done' ++ call :: rest → call.accepted = true →
      sinceMark (nodeIDsIBaddr call.nodeid) (signals nodeIDsIBaddr done') < rdmaMaxWr)
    (connKey : ℕ) : sinceMark connKey (signals nodeIDsIBaddr done) ≤ rdmaMaxWr := by
  induction done using List.reverseRecOn with
  | nil => exact Nat.zero_le _
  | append_singleton done call ih =>
    have hold := ih fun done' call' rest hsplit =>
      hroom done' call' (rest ++ [call]) (by rw [hsplit]; simp)
    have hlast := hroom done call [] rfl
    rw [signals_concat]
    cases haccepted : call.accepted with
    | false => simpa using hold
    | true =>
      rw [if_pos rfl, sinceMark_concat]
      split_ifs with hkey
      · exact Nat.zero_le _
      · subst hkey
        exact hlast haccepted
      · exact hold

/-- Send queues: over any sequence of calls no queue pair holds more requests than it has room
for, exactly when the signals requested and forced come in time on each of them. -/
theorem withinCapacity_iff_signalsInTime (nodeIDsIBaddr : ℕ → ℕ) (calls : List ClientCall) :
    (∀ t ∈ (init nodeIDsIBaddr).states calls, t.WithinCapacity) ↔
      SignalsInTime nodeIDsIBaddr calls := by
  have hidle : ∀ done, Idle nodeIDsIBaddr done ((init nodeIDsIBaddr).run done) :=
    fun done => (idle_init nodeIDsIBaddr).run done
  rw [signalsInTime_iff]
  constructor
  · intro h done call rest hsplit haccepted
    have hcapacity := h _ (mem_states.mpr (Or.inr ⟨done, call, rest, hsplit, rfl⟩))
      (nodeIDsIBaddr call.nodeid)
    rw [(hidle done).unretired_post, if_pos ⟨rfl, haccepted⟩] at hcapacity
    exact hcapacity
  · intro h t ht connKey
    have hle : ∀ done rest, calls = done ++ rest →
        sinceMark connKey (signals nodeIDsIBaddr done) ≤ rdmaMaxWr := by
      rintro done rest rfl
      apply sinceMark_signals_le
      intro done' call rest' hsplit
      exact h done' call (rest' ++ rest) (by rw [hsplit]; simp)
    rcases mem_states.mp ht with ⟨done, rest, hsplit, rfl⟩ | ⟨done, call, rest, hsplit, rfl⟩
    · rw [(hidle done).unretired]
      exact hle done rest hsplit
    · rw [(hidle done).unretired_post]
      split_ifs with htaken
      · obtain ⟨rfl, haccepted⟩ := htaken
        exact h done call rest hsplit haccepted
      · exact hle done (call :: rest) hsplit

/-- The counter keeps the bound for a client with one queue pair, if no post is refused: a
refused one may be the one that the signal is forced on. -/
theorem signalsInTime_single {connKey : ℕ}
    (hsingle : ∀ call ∈ calls, nodeIDsIBaddr call.nodeid = connKey ∧ call.accepted = true) :
    SignalsInTime nodeIDsIBaddr calls := by
  have hcount : ∀ done : List ClientCall,
      (∀ call ∈ done, nodeIDsIBaddr call.nodeid = connKey ∧ call.accepted = true) →
      sinceMark connKey (signals nodeIDsIBaddr done) ≤ done.length % rdmaMaxWr := by
    intro done
    induction done using List.reverseRecOn with
    | nil => exact fun _ => Nat.zero_le _
    | append_singleton done call ih =>
      intro hdone
      have hold := ih fun call' hcall => hdone call' (List.mem_append_left _ hcall)
      obtain ⟨hkey, haccepted⟩ := hdone call (by simp)
      rw [signals_concat, if_pos haccepted, sinceMark_concat, if_pos hkey, List.length_append,
        List.length_singleton]
      split_ifs with hsignal
      · exact Nat.zero_le _
      · have hnot : ¬ (done.length + 1) % rdmaMaxWr = 0 := fun hzero => hsignal (by simp [hzero])
        unfold rdmaMaxWr at hold hnot ⊢
        omega
  apply signalsInTime_iff.mpr
  rintro done call rest rfl -
  have hle := hcount done fun call' hcall => hsingle call' (List.mem_append_left _ hcall)
  rw [(hsingle call (by simp)).1]
  exact Nat.lt_of_le_of_lt hle (Nat.mod_lt _ (by decide))

/-- Every forced signal falls on the second node, and the queue pair of the first one
overflows. -/
def spreadCalls : List ClientCall :=
  List.replicate 4095 (.write 0 false true) ++
    [.write 1 false true, .write 0 false true, .write 0 false true]

theorem overflow_of_spread_calls :
    ¬ ∀ t ∈ (init id).states spreadCalls, t.WithinCapacity := by
  intro h
  have hsplit : spreadCalls = (List.replicate 4095 (.write 0 false true) ++
      [.write 1 false true, .write 0 false true]) ++ .write 0 false true :: [] := by
    simp only [spreadCalls, List.append_assoc, List.cons_append, List.nil_append]
  have hcapacity := h _ (mem_states.mpr (Or.inr ⟨_, _, _, hsplit, rfl⟩)) 0
  have hcount : sinceMark 0 (signals id (List.replicate 4095 (.write 0 false true) ++
      [.write 1 false true, .write 0 false true])) = 4096 := by decide +kernel
  have hnode : 0 = id (ClientCall.write 0 false true).nodeid ∧
      (ClientCall.write 0 false true).accepted = true := ⟨rfl, rfl⟩
  rw [((idle_init id).run _).unretired_post, if_pos hnode, List.nil_append, hcount] at hcapacity
  exact absurd hcapacity (by decide)

end RDMAClient

end DpiLibrary
