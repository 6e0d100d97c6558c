import Mathlib.Tactic
import DpiLibrary.Foundation.GrownVector
import DpiLibrary.Foundation.Schedule
import DpiLibrary.Rdma.ConnectRuns
import DpiLibrary.Rdma.Manager

/-!
# Node ids

A client that connects with a node id enters the connection into a vector. Ids that are
skipped get the default address, whose key is zero: the key of the first queue pair.
Some operations look an id up with a check of the vector's size and some without.
-/

namespace DpiLibrary

open Schedule

/-- A call of `connect` with a node id. `resized` says whether there is memory for a larger
vector. -/
structure NodeConnectCall where
  call : ConnectCall
  nodeID : ℕ
  resized : Bool

/-- Operations by node id. What else they are given is handed on to the manager. -/
inductive NodeOperation where
  | write
  | writeRC
  | read
  | fetchAndAdd
  | fetchAndAddValue
  | compareAndSwap
  | send
  | requestRead
  deriving DecidableEq, Repr

/-- The manager is given a key, `at` throws, or nothing is known of what happens. -/
inductive NodeOutcome where
  | handed (connKey : ℕ)
  | throws
  | undefined
  deriving DecidableEq, Repr

/-- The part of an `RDMAClient` that node ids use. `firstQP` says whether `m_qps[0]` holds a
queue pair, and `corrupted` whether something was stored outside the vector. -/
structure NodeClient where
  system : ConnectionSystem
  nodeIDsIBaddr : List ℕ
  firstQP : Bool
  corrupted : Bool

namespace NodeClient

def init : NodeClient := ⟨.init, [], false, false⟩

/-- `resize` to `nodeID + 1`, which is zero for the largest id, and the store behind it. -/
def setNode (c : NodeClient) (nodeID ibAddr : ℕ) : NodeClient :=
  if c.nodeIDsIBaddr.length ≤ nodeID ∧ nodeID + 1 = sizeTBound then
    { c with nodeIDsIBaddr := [], corrupted := true }
  else { c with nodeIDsIBaddr := GrownVector.store c.nodeIDsIBaddr nodeID ibAddr 0 }

/-- What is left of the first queue pair: the call that is given key zero may be unable to
initialise it. -/
def firstEntered (c : NodeClient) (call : ConnectCall) (system : ConnectionSystem) : Bool :=
  if c.system.client.manager.lastConnKey = 0 ∧ system.client.manager.lastConnKey ≠ 0 then
    call.queue.initQP.isCreated
  else c.firstQP

/-- `connect` with a node id, and whether it returns true. A resize that finds no memory
throws and leaves the vector as it is. -/
def connect (c : NodeClient) (x : NodeConnectCall) : Option ℕ × NodeClient :=
  let (ret, system) := c.system.connect x.call
  let c := { c with system, firstQP := c.firstEntered x.call system }
  match ret with
  | none => (none, c)
  | some retIbAddr =>
    if c.nodeIDsIBaddr.length ≤ x.nodeID ∧ x.nodeID + 1 ≠ sizeTBound ∧ x.resized = false then
      (none, c)
    else (some retIbAddr, c.setNode x.nodeID retIbAddr)

/-- `m_nodeIDsIBaddr[nodeid]`. -/
def unchecked (c : NodeClient) (nodeid : ℕ) : NodeOutcome :=
  if c.corrupted then .undefined
  else (c.nodeIDsIBaddr[nodeid]?.map .handed).getD .undefined

/-- `m_nodeIDsIBaddr.at(nodeid)`. -/
def checked (c : NodeClient) (nodeid : ℕ) : NodeOutcome :=
  if c.corrupted then .undefined
  else (c.nodeIDsIBaddr[nodeid]?.map .handed).getD .throws

def write (c : NodeClient) (nodeid : ℕ) : NodeOutcome := c.unchecked nodeid

def writeRC (c : NodeClient) (nodeid : ℕ) : NodeOutcome := c.unchecked nodeid

def read (c : NodeClient) (nodeid : ℕ) : NodeOutcome := c.checked nodeid

def fetchAndAdd (c : NodeClient) (nodeid : ℕ) : NodeOutcome := c.checked nodeid

/-- `fetchAndAdd` with the value to add. -/
def fetchAndAddValue (c : NodeClient) (nodeid : ℕ) : NodeOutcome := c.unchecked nodeid

def compareAndSwap (c : NodeClient) (nodeid : ℕ) : NodeOutcome := c.checked nodeid

def send (c : NodeClient) (nodeid : ℕ) : NodeOutcome := c.checked nodeid

def requestRead (c : NodeClient) (nodeid : ℕ) : NodeOutcome := c.unchecked nodeid

def operate (c : NodeClient) : NodeOperation → ℕ → NodeOutcome
  | .write => c.write
  | .writeRC => c.writeRC
  | .read => c.read
  | .fetchAndAdd => c.fetchAndAdd
  | .fetchAndAddValue => c.fetchAndAddValue
  | .compareAndSwap => c.compareAndSwap
  | .send => c.send
  | .requestRead => c.requestRead

/-- The device takes no work request for a queue pair that is not connected. -/
def Refuses (c : NodeClient) (connKey : ℕ) : Prop :=
  (connKey = 0 → c.firstQP = true) ∧ c.system.client.manager.connected connKey = false

end NodeClient

/-- Operations that check the vector's size. -/
def NodeOperation.checks : NodeOperation → Bool
  | .read | .fetchAndAdd | .compareAndSwap | .send => true
  | .write | .writeRC | .fetchAndAddValue | .requestRead => false

inductive NodeCall where
  | connect (x : NodeConnectCall)
  | operate (operation : NodeOperation) (nodeid : ℕ)

/-- The client during a run, and the key of the latest successful connect of each id. -/
structure NodeRun where
  client : NodeClient
  latest : ℕ → Option ℕ

namespace NodeRun

def start : NodeRun := ⟨.init, fun _ => none⟩

/-- Node ids are 64-bit values. An operation changes nothing that node ids use, and a process
that has ended makes no calls. -/
def step (s : NodeRun) : NodeCall → Option NodeRun
  | .connect x =>
    if x.nodeID < sizeTBound ∧ s.client.system.client.ended = false then
      match s.client.connect x with
      | (none, client) => some { s with client }
      | (some retIbAddr, client) =>
        some ⟨client, Function.update s.latest x.nodeID (some retIbAddr)⟩
    else none
  | .operate _ nodeid =>
    if nodeid < sizeTBound ∧ s.client.system.client.ended = false then some s else none

/-- An operation is handed to the queue pair of the latest successful connect of its id. If
there was none it fails: `at` throws, or the device refuses it. -/
def AddressesOwn (s : NodeRun) : NodeCall → Prop
  | .connect _ => True
  | .operate operation nodeid =>
    match s.latest nodeid with
    | some connKey => s.client.operate operation nodeid = .handed connKey
    | none => s.client.operate operation nodeid = .throws ∨
      ∃ connKey, s.client.operate operation nodeid = .handed connKey ∧ s.client.Refuses connKey

/-- The id was connected, or it lies past the vector and the operation checks, or the first
queue pair takes no work requests. -/
def Guarded (s : NodeRun) : NodeCall → Prop
  | .connect _ => True
  | .operate operation nodeid =>
    s.client.corrupted = false ∧ (s.latest nodeid ≠ none ∨
      s.client.nodeIDsIBaddr.length ≤ nodeid ∧ operation.checks = true ∨
      nodeid < s.client.nodeIDsIBaddr.length ∧ s.client.Refuses 0)

/-- Ids that were connected have their key in the vector, and all others in it are zero. -/
def Inv (s : NodeRun) : Prop :=
  s.client.corrupted = false → ∀ nodeid,
    match s.latest nodeid with
    | some connKey => s.client.nodeIDsIBaddr[nodeid]? = some connKey
    | none => ∀ connKey, s.client.nodeIDsIBaddr[nodeid]? = some connKey → connKey = 0

theorem inv_start : Inv start := by
  intro _ nodeid
  simp [start, NodeClient.init]

end NodeRun

namespace NodeClient

variable {c : NodeClient} {nodeid : ℕ}

/-- An operation by its check alone. -/
theorem operate_eq (operation : NodeOperation) (hc : c.corrupted = false) :
    c.operate operation nodeid = (c.nodeIDsIBaddr[nodeid]?.map NodeOutcome.handed).getD
      (if operation.checks then .throws else .undefined) := by
  cases operation <;>
    simp [operate, write, writeRC, read, fetchAndAdd, fetchAndAddValue, compareAndSwap, send,
      requestRead, checked, unchecked, NodeOperation.checks, hc]

theorem operate_corrupted (operation : NodeOperation) (hc : c.corrupted = true) :
    c.operate operation nodeid = .undefined := by
  cases operation <;>
    simp [operate, write, writeRC, read, fetchAndAdd, fetchAndAddValue, compareAndSwap, send,
      requestRead, checked, unchecked, hc]

end NodeClient

namespace NodeRun

variable {s s' : NodeRun}

theorem addressesOwn_iff (hs : Inv s) (a : NodeCall) : AddressesOwn s a ↔ Guarded s a := by
  cases a with
  | connect x => exact Iff.rfl
  | operate operation nodeid =>
    simp only [AddressesOwn, Guarded]
    cases hc : s.client.corrupted with
    | true =>
      rw [NodeClient.operate_corrupted operation hc]
      cases s.latest nodeid <;> simp
    | false =>
      have hentry := hs hc nodeid
      rw [NodeClient.operate_eq operation hc]
      cases hlatest : s.latest nodeid with
      | some connKey =>
        rw [hlatest] at hentry
        simp [show s.client.nodeIDsIBaddr[nodeid]? = some connKey from hentry]
      | none =>
        rw [hlatest] at hentry
        cases hlook : s.client.nodeIDsIBaddr[nodeid]? with
        | none =>
          -- past the vector only the check is left
          have hle : s.client.nodeIDsIBaddr.length ≤ nodeid := List.getElem?_eq_none_iff.mp hlook
          cases hchecks : operation.checks <;> simp [hle, Nat.not_lt.mpr hle]
        | some connKey =>
          -- a hole: the first queue pair, which refuses or does not
          obtain rfl : connKey = 0 := hentry connKey hlook
          have hlt := (List.getElem?_eq_some_iff.mp hlook).1
          simp [hlt, Nat.not_le.mpr hlt]

theorem inv_setNode {client : NodeClient} {latest : ℕ → Option ℕ} (hs : Inv ⟨client, latest⟩)
    (nodeID ibAddr : ℕ) :
    Inv ⟨client.setNode nodeID ibAddr, Function.update latest nodeID (some ibAddr)⟩ := by
  intro hc nodeid
  unfold NodeClient.setNode at hc ⊢
  split_ifs at hc ⊢ with hwrap
  have hentry := hs hc nodeid
  by_cases heq : nodeid = nodeID
  · subst heq
    simp [GrownVector.getElem?_store_self]
  · simp only [Function.update_of_ne heq] at hentry ⊢
    by_cases hlt : nodeid < client.nodeIDsIBaddr.length
    · simpa only [GrownVector.getElem?_store_of_lt hlt heq] using hentry
    · have hlook : client.nodeIDsIBaddr[nodeid]? = none :=
        List.getElem?_eq_none (Nat.not_lt.mp hlt)
      cases hlatest : latest nodeid with
      | some connKey =>
        simp only [hlatest, hlook] at hentry
        cases hentry
      | none =>
        intro connKey hconnKey
        rcases Nat.lt_or_ge nodeid nodeID with hbetween | hge
        · simp only [GrownVector.getElem?_store_of_between (Nat.not_lt.mp hlt) hbetween,
            Option.some.injEq] at hconnKey
          exact hconnKey.symm
        · have hlength := (List.getElem?_eq_some_iff.mp hconnKey).1
          rw [GrownVector.length_store] at hlength
          omega

theorem inv_step (hs : Inv s) {a : NodeCall} (h : step s a = some s') : Inv s' := by
  cases a with
  | operate operation nodeid =>
    simp only [step] at h
    split_ifs at h
    cases h
    exact hs
  | connect x =>
    simp only [step] at h
    split_ifs at h
    unfold NodeClient.connect at h
    generalize s.client.system.connect x.call = result at h
    obtain ⟨ret, system⟩ := result
    cases ret with
    | none =>
      cases h
      exact hs
    | some retIbAddr =>
      simp only at h
      split_ifs at h
      · cases h
        exact hs
      · cases h
        apply inv_setNode
        exact hs

/-- Everything works. -/
def worksOut : Handshake where
  initQP := .created default
  delivery := .delivered
  serverInitQP := .created default
  serverConnectQP := true
  pastEnd := fun _ => 0
  connectQP := true

def connectsTo (connection : String) (nodeID : ℕ) : NodeCall :=
  .connect ⟨⟨connection, false, true, worksOut, worksOut⟩, nodeID, true⟩

end NodeRun
end DpiLibrary
