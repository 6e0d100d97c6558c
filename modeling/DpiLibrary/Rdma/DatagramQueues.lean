import Mathlib.Tactic
import DpiLibrary.Foundation.GrownVector
import DpiLibrary.Foundation.Schedule
import DpiLibrary.Rdma.QueuePairs

/-!
# Queue pairs of a datagram manager

All data connections share one queue pair, and so do all management connections. The
first call for either creates it, with its connection data; later calls enter both
under a new key. The number in the connection data is read from the data queue pair,
also where the management queue pair is the one being created.
-/

namespace DpiLibrary

open Schedule

/-- What the device and the random generator do in a call that creates a queue pair. The
number of a queue pair stands for the pointer to it. -/
structure UDCreation where
  createCQ : Bool
  createQP : Option ℕ
  lrand48 : ℕ
  modifyQPToInit : Bool
  modifyQPToRTR : Bool
  modifyQPToRTS : Bool
  deriving DecidableEq

/-- The queue pair becomes ready to send. -/
def UDCreation.modified (x : UDCreation) : Bool :=
  x.modifyQPToInit && x.modifyQPToRTR && x.modifyQPToRTS

/-- The connection tables of an `RDMAManagerUD`, and of its resources what is copied into
connection data. -/
structure UDQueues where
  buffer : ℕ
  lid : ℕ
  lastConnKey : ℕ
  qps : List (Option ℕ)
  lconns : List ConnData
  qpNum2connKey : ℕ → ℕ
  udqp : Option ℕ
  udqpConn : ConnData
  udqpMgmt : Option ℕ
  udqpMgmtConn : ConnData

namespace UDQueues

def init (buffer lid : ℕ) : UDQueues where
  buffer
  lid
  lastConnKey := 0
  qps := []
  lconns := []
  qpNum2connKey := fun _ => 0
  udqp := none
  udqpConn := default
  udqpMgmt := none
  udqpMgmtConn := default

/-- The number is read through the pointer; `none` stands for a null pointer. -/
def setQP (m : UDQueues) (connKey : ℕ) (qp : Option ℕ) : Option UDQueues :=
  qp.map fun qpNum =>
    { m with
      qps := GrownVector.store m.qps connKey qp none
      qpNum2connKey := Function.update m.qpNum2connKey qpNum connKey }

def setLocalConnData (m : UDQueues) (connKey : ℕ) (conn : ConnData) : UDQueues :=
  { m with lconns := GrownVector.store m.lconns connKey conn default }

/-- The shared queue pair of a kind and its connection data. -/
def shared (m : UDQueues) (isMgmtQP : Bool) : Option ℕ × ConnData :=
  if isMgmtQP then (m.udqpMgmt, m.udqpMgmtConn) else (m.udqp, m.udqpConn)

def setShared (m : UDQueues) (isMgmtQP : Bool) (qp : Option ℕ) (qpConn : ConnData) : UDQueues :=
  if isMgmtQP then { m with udqpMgmt := qp, udqpMgmtConn := qpConn }
  else { m with udqp := qp, udqpConn := qpConn }

/-- Enter the shared queue pair of a kind under a key. -/
def enter (m : UDQueues) (connKey : ℕ) (isMgmtQP : Bool) : Option UDQueues :=
  (m.setQP connKey (m.shared isMgmtQP).1).map fun entered =>
    entered.setLocalConnData connKey (m.shared isMgmtQP).2

/-- The connection data of a queue pair that has just been created. -/
def localConn (m : UDQueues) (qpConn : ConnData) (qpNum lrand48 : ℕ) : ConnData :=
  { qpConn with
    buffer := m.buffer
    qpNum
    lid := m.lid
    gid := fun _ => 0
    psn := lrand48 % 2 ^ 24 }

def nextConnKey (m : UDQueues) : ℕ × UDQueues :=
  (m.lastConnKey, { m with lastConnKey := m.lastConnKey + 1 })

/-- The key if the call succeeds. The outer `none` is an access through a null pointer. -/
def initQP (m : UDQueues) (isMgmtQP : Bool) (x : UDCreation) : Option (Option ℕ × UDQueues) :=
  let connKey := m.nextConnKey.1
  let m := m.nextConnKey.2
  let qpConn := (m.shared isMgmtQP).2
  if (m.shared isMgmtQP).1.isSome then
    (m.enter connKey isMgmtQP).map fun m => (some connKey, m)
  else if !x.createCQ then some (none, m)
  else if x.createQP.isNone then some (none, m.setShared isMgmtQP none qpConn)
  else
    let m := m.setShared isMgmtQP x.createQP qpConn
    -- `m_udqp` for either kind
    m.udqp.bind fun qpNum =>
      let m := m.setShared isMgmtQP x.createQP (m.localConn qpConn qpNum x.lrand48)
      if !x.modified then some (none, m)
      else (m.enter connKey isMgmtQP).map fun m => (some connKey, m)

def getLocalConnData (m : UDQueues) (connKey : ℕ) : Option ConnData := m.lconns[connKey]?

/-- The number of the queue pair stored under a key. -/
def getQPNum (m : UDQueues) (connKey : ℕ) : Option ℕ := m.qps[connKey]?.join

/-- The connection data under a key names the queue pair under it. -/
def Named (m : UDQueues) (connKey : ℕ) : Prop :=
  ∃ qpNum, m.getQPNum connKey = some qpNum ∧
    ∃ conn, m.getLocalConnData connKey = some conn ∧ conn.qpNum = qpNum

end UDQueues

/-- The manager during a run, the keys it has answered, the numbers of the queue pairs
created so far, and whether a null pointer was followed. -/
structure UDQueueRun where
  queues : UDQueues
  answered : List ℕ
  created : List ℕ
  crashed : Bool

namespace UDQueueRun

def start (buffer lid : ℕ) : UDQueueRun := ⟨.init buffer lid, [], [], false⟩

/-- One call. The device gives a new queue pair a number of its own. -/
def step (s : UDQueueRun) : Bool × UDCreation → Option UDQueueRun
  | (isMgmtQP, x) =>
    if s.crashed = true ∨ ∃ qpNum ∈ x.createQP, qpNum ∈ s.created then none
    else
      let created := x.createQP.toList ++ s.created
      match s.queues.initQP isMgmtQP x with
      | none => some { s with created, crashed := true }
      | some (connKey, queues) =>
        some { queues, answered := connKey.toList ++ s.answered, created, crashed := false }

/-- No null pointer was followed, each key answered is new, and the connection data under it
names the queue pair under it. -/
structure Consistent (s : UDQueueRun) : Prop where
  running : s.crashed = false
  fresh : s.answered.Nodup
  named : ∀ connKey ∈ s.answered, s.queues.Named connKey

/-- A management call finds no management queue pair and gets none ready: the device creates
none, or one that cannot be modified while there is a data queue pair. -/
def Avoids (s : UDQueueRun) : Bool × UDCreation → Prop
  | (isMgmtQP, x) => isMgmtQP = true → s.queues.udqpMgmt = none ∧
    (x.createCQ = false ∨ x.createQP = none ∨ s.queues.udqp ≠ none ∧ x.modified = false)

end UDQueueRun

namespace UDQueues

variable {m : UDQueues} {isMgmtQP : Bool} {x : UDCreation}

/-- The tables with a queue pair and connection data entered under a key. -/
def entered (m : UDQueues) (connKey qpNum : ℕ) (conn : ConnData) : UDQueues :=
  { m with
    qps := GrownVector.store m.qps connKey (some qpNum) none
    lconns := GrownVector.store m.lconns connKey conn default
    qpNum2connKey := Function.update m.qpNum2connKey qpNum connKey }

theorem enter_eq {qpNum : ℕ} {conn : ConnData} (connKey : ℕ)
    (h : m.shared isMgmtQP = (some qpNum, conn)) :
    m.enter connKey isMgmtQP = some (m.entered connKey qpNum conn) := by
  simp [enter, h, setQP, setLocalConnData, entered]

@[simp] theorem shared_setShared (m : UDQueues) (isMgmtQP : Bool) (qp : Option ℕ)
    (conn : ConnData) : (m.setShared isMgmtQP qp conn).shared isMgmtQP = (qp, conn) := by
  cases isMgmtQP <;> rfl

theorem named_entered_self {connKey qpNum : ℕ} {conn : ConnData} :
    (m.entered connKey qpNum conn).Named connKey ↔ conn.qpNum = qpNum := by
  simp [Named, entered, getQPNum, getLocalConnData, eq_comm]

theorem Named.entered {connKey other qpNum : ℕ} {conn : ConnData} (h : m.Named other)
    (hne : other ≠ connKey) : (m.entered connKey qpNum conn).Named other := by
  obtain ⟨qpNum', hqp, conn', hconn, hname⟩ := h
  have hqps : other < m.qps.length := by
    by_contra hge
    simp [getQPNum, List.getElem?_eq_none (Nat.not_lt.mp hge)] at hqp
  have hlconns : other < m.lconns.length := (List.getElem?_eq_some_iff.mp hconn).1
  refine ⟨qpNum', ?_, conn', ?_, hname⟩
  · simpa only [getQPNum, UDQueues.entered, GrownVector.getElem?_store_of_lt hqps hne] using hqp
  · simpa only [getLocalConnData, UDQueues.entered,
      GrownVector.getElem?_store_of_lt hlconns hne] using hconn

/-- The number written into the connection data of a queue pair that has been created. -/
def numberRead (m : UDQueues) (isMgmtQP : Bool) (qpNum : ℕ) : Option ℕ :=
  if isMgmtQP then m.udqp else some qpNum

/-- Everything `initQP` can do. -/
inductive Initialized (m : UDQueues) (isMgmtQP : Bool) (x : UDCreation) :
    Option (Option ℕ × UDQueues) → Prop
  | again (qpNum : ℕ) (hqp : (m.shared isMgmtQP).1 = some qpNum) :
    Initialized m isMgmtQP x (some (some m.lastConnKey,
      m.nextConnKey.2.entered m.lastConnKey qpNum (m.shared isMgmtQP).2))
  | notCreated (hqp : (m.shared isMgmtQP).1 = none)
    (hx : x.createCQ = false ∨ x.createQP = none) :
    Initialized m isMgmtQP x (some (none, m.nextConnKey.2))
  | nullPointer (qpNum : ℕ) (hqp : (m.shared isMgmtQP).1 = none) (hcq : x.createCQ = true)
    (hx : x.createQP = some qpNum) (hnull : m.numberRead isMgmtQP qpNum = none) :
    Initialized m isMgmtQP x none
  | notModified (qpNum number : ℕ) (hqp : (m.shared isMgmtQP).1 = none) (hcq : x.createCQ = true)
    (hx : x.createQP = some qpNum) (hnumber : m.numberRead isMgmtQP qpNum = some number)
    (hmodified : x.modified = false) :
    Initialized m isMgmtQP x (some (none, m.nextConnKey.2.setShared isMgmtQP (some qpNum)
      (m.localConn (m.shared isMgmtQP).2 number x.lrand48)))
  | created (qpNum number : ℕ) (hqp : (m.shared isMgmtQP).1 = none) (hcq : x.createCQ = true)
    (hx : x.createQP = some qpNum) (hnumber : m.numberRead isMgmtQP qpNum = some number)
    (hmodified : x.modified = true) :
    Initialized m isMgmtQP x (some (some m.lastConnKey,
      (m.nextConnKey.2.setShared isMgmtQP (some qpNum)
        (m.localConn (m.shared isMgmtQP).2 number x.lrand48)).entered m.lastConnKey qpNum
          (m.localConn (m.shared isMgmtQP).2 number x.lrand48)))

@[simp] theorem shared_nextConnKey (m : UDQueues) (isMgmtQP : Bool) :
    m.nextConnKey.2.shared isMgmtQP = m.shared isMgmtQP := by
  cases isMgmtQP <;> rfl

@[simp] theorem nextConnKey_fst (m : UDQueues) : m.nextConnKey.1 = m.lastConnKey := rfl

@[simp] theorem setShared_setShared (m : UDQueues) (isMgmtQP : Bool) (qp qp' : Option ℕ)
    (conn conn' : ConnData) :
    (m.setShared isMgmtQP qp conn).setShared isMgmtQP qp' conn' =
      m.setShared isMgmtQP qp' conn' := by
  cases isMgmtQP <;> rfl

@[simp] theorem localConn_setShared (m : UDQueues) (isMgmtQP : Bool) (qp : Option ℕ)
    (conn : ConnData) :
    (m.nextConnKey.2.setShared isMgmtQP qp conn).localConn = m.localConn := by
  cases isMgmtQP <;> rfl

theorem setShared_self (hqp : (m.shared isMgmtQP).1 = none) :
    m.setShared isMgmtQP none (m.shared isMgmtQP).2 = m := by
  cases isMgmtQP <;> simp only [shared] at hqp <;> simp [setShared, shared, ← hqp]

/-- The queue pair whose number is read, once the new one is in place. -/
theorem udqp_setShared (m : UDQueues) (isMgmtQP : Bool) (qpNum : ℕ) (conn : ConnData) :
    (m.nextConnKey.2.setShared isMgmtQP (some qpNum) conn).udqp = m.numberRead isMgmtQP qpNum := by
  cases isMgmtQP <;> rfl

theorem initialized_initQP (m : UDQueues) (isMgmtQP : Bool) (x : UDCreation) :
    Initialized m isMgmtQP x (m.initQP isMgmtQP x) := by
  cases hqp : (m.shared isMgmtQP).1 with
  | some qpNum =>
    have hshared : m.nextConnKey.2.shared isMgmtQP = (some qpNum, (m.shared isMgmtQP).2) := by
      rw [shared_nextConnKey, ← hqp]
    have hinit : m.initQP isMgmtQP x = some (some m.lastConnKey,
        m.nextConnKey.2.entered m.lastConnKey qpNum (m.shared isMgmtQP).2) := by
      simp [initQP, hqp, enter_eq _ hshared]
    rw [hinit]
    exact .again qpNum hqp
  | none =>
    cases hcq : x.createCQ with
    | false =>
      have hinit : m.initQP isMgmtQP x = some (none, m.nextConnKey.2) := by
        simp [initQP, hqp, hcq]
      rw [hinit]
      exact .notCreated hqp (Or.inl hcq)
    | true =>
      cases hx : x.createQP with
      | none =>
        have hnone : (m.nextConnKey.2.shared isMgmtQP).1 = none := by rw [shared_nextConnKey, hqp]
        have hsame := setShared_self hnone
        rw [shared_nextConnKey] at hsame
        have hinit : m.initQP isMgmtQP x = some (none, m.nextConnKey.2) := by
          simp [initQP, hqp, hcq, hx, hsame]
        rw [hinit]
        exact .notCreated hqp (Or.inr hx)
      | some qpNum =>
        cases hnumber : m.numberRead isMgmtQP qpNum with
        | none =>
          have hinit : m.initQP isMgmtQP x = none := by
            simp [initQP, hqp, hcq, hx, udqp_setShared, hnumber]
          rw [hinit]
          exact .nullPointer qpNum hqp hcq hx hnumber
        | some number =>
          cases hmodified : x.modified with
          | false =>
            have hinit : m.initQP isMgmtQP x = some (none,
                m.nextConnKey.2.setShared isMgmtQP (some qpNum)
                  (m.localConn (m.shared isMgmtQP).2 number x.lrand48)) := by
              simp [initQP, hqp, hcq, hx, udqp_setShared, hnumber, hmodified]
            rw [hinit]
            exact .notModified qpNum number hqp hcq hx hnumber hmodified
          | true =>
            have hshared := shared_setShared m.nextConnKey.2 isMgmtQP (some qpNum)
              (m.localConn (m.shared isMgmtQP).2 number x.lrand48)
            have hinit : m.initQP isMgmtQP x = some (some m.lastConnKey,
                (m.nextConnKey.2.setShared isMgmtQP (some qpNum)
                  (m.localConn (m.shared isMgmtQP).2 number x.lrand48)).entered m.lastConnKey qpNum
                    (m.localConn (m.shared isMgmtQP).2 number x.lrand48)) := by
              simp [initQP, hqp, hcq, hx, udqp_setShared, hnumber, hmodified, enter_eq _ hshared]
            rw [hinit]
            exact .created qpNum number hqp hcq hx hnumber hmodified

/-- The connection data of the data queue pair names it. That of the management queue pair
does not. -/
structure SharedFit (m : UDQueues) (created : List ℕ) : Prop where
  data : ∀ qpNum, m.udqp = some qpNum → qpNum ∈ created ∧ m.udqpConn.qpNum = qpNum
  mgmt : ∀ qpNum, m.udqpMgmt = some qpNum → m.udqpMgmtConn.qpNum ≠ qpNum

theorem SharedFit.setShared {created : List ℕ} (hm : m.SharedFit created) {qpNum number : ℕ}
    (hnew : qpNum ∉ created) (hnumber : m.numberRead isMgmtQP qpNum = some number)
    (qpConn : ConnData) (lrand48 : ℕ) :
    (m.nextConnKey.2.setShared isMgmtQP (some qpNum)
      (m.localConn qpConn number lrand48)).SharedFit (qpNum :: created) := by
  cases isMgmtQP with
  | false =>
    cases hnumber
    constructor
    · rintro _ ⟨⟩
      exact ⟨List.mem_cons_self, rfl⟩
    · exact hm.mgmt
  | true =>
    have hdata := hm.data number hnumber
    constructor
    · intro n hn
      exact ⟨List.mem_cons_of_mem _ (hm.data n hn).1, (hm.data n hn).2⟩
    · rintro _ ⟨⟩
      change number ≠ qpNum
      rintro rfl
      exact hnew hdata.1

theorem SharedFit.mono {created created' : List ℕ} (hm : m.SharedFit created)
    (hsub : created ⊆ created') : m.SharedFit created' :=
  ⟨fun qpNum h => ⟨hsub (hm.data qpNum h).1, (hm.data qpNum h).2⟩, hm.mgmt⟩

theorem Initialized.sharedFit {created : List ℕ} {connKey : Option ℕ} {m' : UDQueues}
    (h : Initialized m isMgmtQP x (some (connKey, m'))) (hm : m.SharedFit created)
    (hnew : ∀ qpNum ∈ x.createQP, qpNum ∉ created) :
    m'.SharedFit (x.createQP.toList ++ created) := by
  have hsub : created ⊆ x.createQP.toList ++ created := List.subset_append_right _ _
  cases h with
  | again qpNum hqp => exact ⟨(hm.mono hsub).data, (hm.mono hsub).mgmt⟩
  | notCreated hqp hx => exact ⟨(hm.mono hsub).data, (hm.mono hsub).mgmt⟩
  | notModified qpNum number hqp hcq hx hnumber hmodified =>
    rw [hx]
    exact hm.setShared (hnew qpNum hx) hnumber _ _
  | created qpNum number hqp hcq hx hnumber hmodified =>
    rw [hx]
    have hset := hm.setShared (hnew qpNum hx) hnumber (m.shared isMgmtQP).2 x.lrand48
    exact ⟨hset.data, hset.mgmt⟩

theorem Initialized.lastConnKey {connKey : Option ℕ} {m' : UDQueues}
    (h : Initialized m isMgmtQP x (some (connKey, m'))) :
    m'.lastConnKey = m.lastConnKey + 1 ∧ ∀ k ∈ connKey, k = m.lastConnKey := by
  cases h with
  | again qpNum hqp => exact ⟨rfl, fun k hk => (Option.mem_some_iff.mp hk).symm⟩
  | notCreated hqp hx => exact ⟨rfl, by simp⟩
  | notModified => cases isMgmtQP <;> exact ⟨rfl, by simp⟩
  | created => cases isMgmtQP <;> exact ⟨rfl, fun k hk => (Option.mem_some_iff.mp hk).symm⟩

/-- What is under a key given out before stays there. -/
theorem Initialized.named {connKey : Option ℕ} {m' : UDQueues} {other : ℕ}
    (h : Initialized m isMgmtQP x (some (connKey, m'))) (hother : m.Named other)
    (hne : other ≠ m.lastConnKey) : m'.Named other := by
  have hshared : ∀ qp conn, (m.nextConnKey.2.setShared isMgmtQP qp conn).Named other := by
    intro qp conn
    cases isMgmtQP <;> exact hother
  cases h with
  | again qpNum hqp => exact Named.entered (m := m.nextConnKey.2) hother hne
  | notCreated hqp hx => exact hother
  | notModified => exact hshared _ _
  | created => exact Named.entered (hshared _ _) hne

/-- The key answered is named unless a management queue pair is entered under it. -/
theorem Initialized.named_new_iff {created : List ℕ} {connKey : ℕ} {m' : UDQueues}
    (h : Initialized m isMgmtQP x (some (some connKey, m'))) (hm : m.SharedFit created)
    (hnew : ∀ qpNum ∈ x.createQP, qpNum ∉ created) : m'.Named connKey ↔ isMgmtQP = false := by
  cases h with
  | again qpNum hqp =>
    rw [named_entered_self]
    cases isMgmtQP with
    | false => exact iff_of_true (hm.data qpNum hqp).2 rfl
    | true => exact iff_of_false (hm.mgmt qpNum hqp) (by simp)
  | created qpNum number hqp hcq hx hnumber hmodified =>
    rw [named_entered_self]
    change number = qpNum ↔ _
    cases isMgmtQP with
    | false =>
      cases hnumber
      exact iff_of_true rfl rfl
    | true =>
      have hdata := (hm.data number hnumber).1
      refine iff_of_false ?_ (by simp)
      rintro rfl
      exact hnew number hx hdata

end UDQueues

namespace UDQueueRun

open UDQueues

/-- Keys are answered once, and the shared connection data stand as they were written. -/
structure Inv (s : UDQueueRun) : Prop where
  below : ∀ connKey ∈ s.answered, connKey < s.queues.lastConnKey
  shared : s.queues.SharedFit s.created

theorem inv_start (buffer lid : ℕ) : Inv (start buffer lid) where
  below := by simp [start]
  shared := ⟨by simp [start, UDQueues.init], by simp [start, UDQueues.init]⟩

theorem consistent_start (buffer lid : ℕ) : Consistent (start buffer lid) :=
  ⟨rfl, List.nodup_nil, by simp [start]⟩

variable {s s' : UDQueueRun} {isMgmtQP : Bool} {x : UDCreation}

/-- A step either crashes or leaves what `initQP` answers. -/
theorem step_cases (h : step s (isMgmtQP, x) = some s') :
    (∀ qpNum ∈ x.createQP, qpNum ∉ s.created) ∧
      (s.queues.initQP isMgmtQP x = none ∧
          s' = { s with created := x.createQP.toList ++ s.created, crashed := true } ∨
        ∃ connKey queues, s.queues.initQP isMgmtQP x = some (connKey, queues) ∧
          s' = ⟨queues, connKey.toList ++ s.answered, x.createQP.toList ++ s.created, false⟩) := by
  simp only [step] at h
  split_ifs at h with hblocked
  simp only [not_or, not_exists, not_and] at hblocked
  refine ⟨hblocked.2, ?_⟩
  cases hinit : s.queues.initQP isMgmtQP x with
  | none =>
    rw [hinit] at h
    exact Or.inl ⟨rfl, (Option.some.inj h).symm⟩
  | some answer =>
    obtain ⟨connKey, queues⟩ := answer
    rw [hinit] at h
    exact Or.inr ⟨connKey, queues, rfl, (Option.some.inj h).symm⟩

theorem inv_step (hs : Inv s) (h : step s (isMgmtQP, x) = some s') : Inv s' := by
  have hinit := initialized_initQP s.queues isMgmtQP x
  obtain ⟨hnew, ⟨-, rfl⟩ | ⟨connKey, queues, heq, rfl⟩⟩ := step_cases h
  · exact ⟨hs.below, hs.shared.mono (List.subset_append_right _ _)⟩
  · rw [heq] at hinit
    obtain ⟨hlast, hkey⟩ := hinit.lastConnKey
    refine ⟨fun k hk => ?_, hinit.sharedFit hs.shared hnew⟩
    change k < queues.lastConnKey
    rw [hlast]
    rcases List.mem_append.mp hk with hk | hk
    · rw [hkey k (Option.mem_toList.mp hk)]
      exact Nat.lt_succ_self _
    · exact Nat.lt_succ_of_lt (hs.below k hk)

/-- A call keeps the tables consistent exactly if it does not crash and a key it answers is
that of a data queue. -/
theorem consistent_step_iff (hs : Inv s) (hc : Consistent s)
    (h : step s (isMgmtQP, x) = some s') :
    Consistent s' ↔ ∃ connKey queues, s.queues.initQP isMgmtQP x = some (connKey, queues) ∧
      (connKey = none ∨ isMgmtQP = false) := by
  have hinit := initialized_initQP s.queues isMgmtQP x
  obtain ⟨hnew, ⟨hnull, rfl⟩ | ⟨connKey, queues, heq, rfl⟩⟩ := step_cases h
  · rw [hnull]
    exact iff_of_false (fun hc' => Bool.noConfusion hc'.running) (by simp)
  · rw [heq] at hinit ⊢
    obtain ⟨-, hkey⟩ := hinit.lastConnKey
    have hold : ∀ k ∈ s.answered, queues.Named k := fun k hk =>
      hinit.named (hc.named k hk) (hs.below k hk).ne
    cases connKey with
    | none => exact iff_of_true ⟨rfl, hc.fresh, hold⟩ ⟨none, queues, rfl, Or.inl rfl⟩
    | some k =>
      have hk : k = s.queues.lastConnKey := hkey k rfl
      have hfresh : (k :: s.answered).Nodup := by
        refine List.nodup_cons.mpr ⟨fun hmem => ?_, hc.fresh⟩
        exact (hs.below k hmem).ne hk
      have hnamed := hinit.named_new_iff hs.shared hnew
      constructor
      · intro hc'
        exact ⟨some k, queues, rfl, Or.inr (hnamed.mp (hc'.named k List.mem_cons_self))⟩
      · rintro ⟨_, _, ⟨⟩, hdata⟩
        have hdata := hdata.resolve_left (by simp)
        exact ⟨rfl, hfresh, List.forall_mem_cons.mpr ⟨hnamed.mpr hdata, hold⟩⟩

/-- In terms of what the call finds and of what the device does. -/
theorem avoids_iff : Avoids s (isMgmtQP, x) ↔
    ∃ connKey queues, s.queues.initQP isMgmtQP x = some (connKey, queues) ∧
      (connKey = none ∨ isMgmtQP = false) := by
  have hinit := initialized_initQP s.queues isMgmtQP x
  cases isMgmtQP with
  | false =>
    refine iff_of_true (fun h => Bool.noConfusion h) ?_
    generalize s.queues.initQP false x = answer at hinit ⊢
    cases hinit with
    | nullPointer qpNum hqp hcq hx hnull => cases hnull
    | _ => exact ⟨_, _, rfl, Or.inr rfl⟩
  | true =>
    simp only [Avoids, true_implies]
    generalize s.queues.initQP true x = answer at hinit ⊢
    cases hinit with
    | again qpNum hqp =>
      refine iff_of_false (fun h => ?_) (by simp)
      exact absurd (hqp.symm.trans h.1) (by simp)
    | notCreated hqp hx =>
      exact iff_of_true ⟨hqp, hx.imp_right Or.inl⟩ ⟨_, _, rfl, Or.inl rfl⟩
    | nullPointer qpNum hqp hcq hx hnull =>
      have hnone : s.queues.udqp = none := hnull
      exact iff_of_false (by simp [hcq, hx, hnone]) (by simp)
    | notModified qpNum number hqp hcq hx hnumber hmodified =>
      have hsome : s.queues.udqp = some number := hnumber
      exact iff_of_true ⟨hqp, by simp [hsome, hmodified]⟩ ⟨_, _, rfl, Or.inl rfl⟩
    | created qpNum number hqp hcq hx hnumber hmodified =>
      exact iff_of_false (by simp [hcq, hx, hmodified]) (by simp)

/-- The tables stay consistent, and no null pointer is followed, in exactly the runs in which
no management call enters a queue pair or gets one before there is a data queue pair. -/
theorem consistent_throughout_iff (buffer lid : ℕ) (calls : List (Bool × UDCreation)) :
    Throughout step Consistent (start buffer lid) calls ↔
      EachStep step Avoids (start buffer lid) calls := by
  refine throughout_iff_eachStep (I := Inv) ?_ ?_ calls _ (inv_start buffer lid)
    (consistent_start buffer lid)
  · rintro s ⟨isMgmtQP, x⟩ s' hs h
    exact inv_step hs h
  · rintro s ⟨isMgmtQP, x⟩ s' hs hc h
    rw [consistent_step_iff hs hc h, avoids_iff]

/-- The device creates the queue pair with this number and makes it ready. -/
def creates (qpNum : ℕ) : UDCreation := ⟨true, some qpNum, 0, true, true, true⟩

/-- After a data queue the management queue is announced with the number of the data queue;
before it, a null pointer is followed. -/
theorem mgmt_queue_misnamed :
    ¬ Throughout step Consistent (start 0 0) [(false, creates 7), (true, creates 8)] ∧
      ¬ Throughout step Consistent (start 0 0) [(true, creates 8)] := by
  constructor
  · intro h
    have hentries : (exec step (start 0 0) [(false, creates 7), (true, creates 8)]).map
        (fun s => (s.answered, s.queues.getQPNum 1,
          (s.queues.getLocalConnData 1).map ConnData.qpNum)) =
        some ([1, 0], some 8, some 7) := rfl
    obtain ⟨s, hs, heq⟩ := Option.map_eq_some_iff.mp hentries
    simp only [Prod.mk.injEq] at heq
    obtain ⟨hanswered, hqp, hconn⟩ := heq
    obtain ⟨qpNum, hqp', conn, hconn', hname⟩ := (h _ s (List.prefix_refl _) hs).named 1
      (by simp [hanswered])
    rw [hqp] at hqp'
    rw [hconn', Option.map_some, hname] at hconn
    cases hqp'
    cases hconn
  · intro h
    have hcrash : (exec step (start 0 0) [(true, creates 8)]).map UDQueueRun.crashed =
        some true := rfl
    obtain ⟨s, hs, heq⟩ := Option.map_eq_some_iff.mp hcrash
    exact absurd (h _ s (List.prefix_refl _) hs).running (by simp [heq])

end UDQueueRun
end DpiLibrary
