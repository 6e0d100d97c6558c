import Mathlib.Tactic.Common
import DpiLibrary.Foundation.Schedule
import DpiLibrary.Rdma.SendQueue

/-!
# Calls that wait

The calls on a queue pair share one completion queue. A call that waits takes the first
entry there is, whosever it is, and `requestRead` leaves its entry to a later `pollSend`.
-/

namespace DpiLibrary

open Schedule

structure SendRequest where
  opcode : Opcode
  signaled : Bool
  deriving DecidableEq, Repr

/-- The requests that get an entry in the completion queue, by their position. -/
def completions (posted : List SendRequest) : List ℕ :=
  (posted.zipIdx.filter fun (request, _) => request.signaled).map Prod.snd

section Completions

variable {posted : List SendRequest} {e e' i i' : ℕ}

theorem completions_concat (posted : List SendRequest) (request : SendRequest) :
    completions (posted ++ [request]) =
      completions posted ++ if request.signaled then [posted.length] else [] := by
  cases hsignaled : request.signaled <;>
    simp [completions, List.zipIdx_append, List.filter_append, hsignaled]

theorem length_completions_concat (posted : List SendRequest) (request : SendRequest) :
    (completions (posted ++ [request])).length =
      (completions posted).length + request.signaled.toNat := by
  rw [completions_concat]
  cases request.signaled <;> simp

theorem lt_length_of_mem_completions : i ∈ completions posted → i < posted.length := by
  induction posted using List.reverseRecOn with
  | nil => simp [completions]
  | append_singleton posted request ih =>
    intro hi
    rw [completions_concat, List.mem_append] at hi
    rw [List.length_append, List.length_singleton]
    rcases hi with hold | hnew
    · exact Nat.lt_succ_of_lt (ih hold)
    · split_ifs at hnew
      · rw [List.mem_singleton.mp hnew]
        exact Nat.lt_succ_self _
      · cases hnew

theorem pairwise_completions (posted : List SendRequest) :
    (completions posted).Pairwise (· < ·) := by
  induction posted using List.reverseRecOn with
  | nil => exact List.Pairwise.nil
  | append_singleton posted request ih =>
    rw [completions_concat]
    split_ifs
    · apply List.pairwise_append.mpr
      refine ⟨ih, List.pairwise_singleton _ _, fun i hi j hj => ?_⟩
      rw [List.mem_singleton.mp hj]
      exact lt_length_of_mem_completions hi
    · simpa using ih

/-- Entries come in the order of their requests. -/
theorem completions_le (hi : (completions posted)[e]? = some i)
    (hi' : (completions posted)[e']? = some i') (hle : e ≤ e') : i ≤ i' := by
  obtain ⟨he, rfl⟩ := List.getElem?_eq_some_iff.mp hi
  obtain ⟨he', rfl⟩ := List.getElem?_eq_some_iff.mp hi'
  rcases Nat.eq_or_lt_of_le hle with rfl | hlt
  · exact le_rfl
  · exact (List.pairwise_iff_getElem.mp (pairwise_completions posted) e e' he he' hlt).le

theorem getElem?_completions_concat (request : SendRequest)
    (hi : (completions posted)[e]? = some i) :
    (completions (posted ++ [request]))[e]? = some i := by
  rw [completions_concat, List.getElem?_append_left (List.getElem?_eq_some_iff.mp hi).1]
  exact hi

end Completions

/-- The calls on one queue pair. `accepted` says whether the device takes the work request. -/
inductive QueueCall where
  | access (opcode : Opcode) (signaled accepted : Bool)
  | requestRead (accepted : Bool)
  | pollSend
  deriving DecidableEq, Repr

/-- `waiting` is the work request that the running call is to wait for, and `requested` are
those of `requestRead`: the n-th `pollSend` is for the n-th of them. Requests complete in
order, and `succeeded` are those before the first error. -/
structure QueuePairRun where
  countWR : ℕ
  posted : List SendRequest
  completed : ℕ
  succeeded : ℕ
  taken : ℕ
  waiting : Option ℕ
  requested : List ℕ
  polls : ℕ

/-- A call starts, the device completes a work request, or the running call polls. -/
inductive QueueMove where
  | call (call : QueueCall)
  | complete (success : Bool)
  | poll
  deriving DecidableEq, Repr

namespace QueuePairRun

def start (countWR : ℕ) : QueuePairRun where
  countWR
  posted := []
  completed := 0
  succeeded := 0
  taken := 0
  waiting := none
  requested := []
  polls := 0

/-- `RDMAManagerRC::remoteAccess` up to the loop that polls. -/
def remoteAccess (s : QueuePairRun) (opcode : Opcode) (signaled wait accepted : Bool) :
    QueuePairRun :=
  if accepted then
    { s with
      posted := s.posted ++ [⟨opcode, signaled⟩]
      waiting := if signaled && wait then some s.posted.length else none }
  else s

/-- The calls of the client that go through `checkSignaled`. -/
def access (s : QueuePairRun) (opcode : Opcode) (signaled accepted : Bool) : QueuePairRun :=
  { s with countWR := (countSignaled s.countWR signaled).1 }.remoteAccess opcode
    (countSignaled s.countWR signaled).2 true accepted

def requestRead (s : QueuePairRun) (accepted : Bool) : QueuePairRun :=
  { s.remoteAccess .read true false accepted with
    requested := if accepted then s.requested ++ [s.posted.length] else s.requested }

/-- `pollSend` up to its loop. It is not called without a `requestRead` to poll for. -/
def pollSend (s : QueuePairRun) : Option QueuePairRun :=
  s.requested[s.polls]?.map fun own => { s with waiting := some own, polls := s.polls + 1 }

/-- The request whose entry `ibv_poll_cq` returns. -/
def pollCq (s : QueuePairRun) : Option ℕ :=
  (completions s.posted)[s.taken]?.filter fun request => request < s.completed

def step (s : QueuePairRun) : QueueMove → Option QueuePairRun
  | .call call =>
    match s.waiting, call with
    | some _, _ => none
    | none, .access opcode signaled accepted => some (s.access opcode signaled accepted)
    | none, .requestRead accepted => some (s.requestRead accepted)
    | none, .pollSend => s.pollSend
  | .complete success =>
    if s.completed < s.posted.length ∧ (success = true → s.succeeded = s.completed) then
      some { s with
        completed := s.completed + 1
        succeeded := if success then s.succeeded + 1 else s.succeeded }
    else none
  | .poll =>
    match s.waiting, s.pollCq with
    | none, _ => none
    | some _, none => some s
    | some _, some _ => some { s with taken := s.taken + 1, waiting := none }

/-- A call that returns true has its own work request completed: it returns when there is an
entry, and true if that is a success. -/
def OwnCompleted (s : QueuePairRun) : QueueMove → Prop
  | .poll => ∀ own request, s.waiting = some own → s.pollCq = some request →
      request < s.succeeded → own < s.succeeded
  | _ => True

end QueuePairRun

/-- The calls of a run. -/
def callsOf (moves : List QueueMove) : List QueueCall :=
  moves.filterMap fun
    | .call call => some call
    | _ => none

@[simp] theorem callsOf_append (moves moves' : List QueueMove) :
    callsOf (moves ++ moves') = callsOf moves ++ callsOf moves' :=
  List.filterMap_append

@[simp] theorem callsOf_call (call : QueueCall) (moves : List QueueMove) :
    callsOf (.call call :: moves) = call :: callsOf moves := rfl

@[simp] theorem callsOf_poll (moves : List QueueMove) :
    callsOf (.poll :: moves) = callsOf moves := rfl

@[simp] theorem callsOf_nil : callsOf [] = [] := rfl

@[simp] theorem callsOf_map_call (calls : List QueueCall) :
    callsOf (calls.map .call) = calls := by
  induction calls with
  | nil => rfl
  | cons call calls ih => rw [List.map_cons, callsOf_call, ih]

namespace QueueCall

/-- The counter behind a call. -/
def counted (countWR : ℕ) : QueueCall → ℕ
  | .access _ signaled _ => (countSignaled countWR signaled).1
  | _ => countWR

/-- The call posts a signaled request and waits. -/
def waits (countWR : ℕ) : QueueCall → Bool
  | .access _ signaled accepted => (countSignaled countWR signaled).2 && accepted
  | _ => false

end QueueCall

def requestReads (calls : List QueueCall) : ℕ := calls.count (.requestRead true)

def pollSends (calls : List QueueCall) : ℕ := calls.count .pollSend

/-- Each `pollSend` has a `requestRead` before it. -/
def PollsMatched (calls : List QueueCall) : Prop :=
  ∀ done, done <+: calls → pollSends done ≤ requestReads done

/-- When a call posts a request to wait for it, each `requestRead` before has been polled. -/
def NoneOutstanding (countWR : ℕ) (calls : List QueueCall) : Prop :=
  ∀ done call rest, calls = done ++ call :: rest →
    call.waits (done.foldl QueueCall.counted countWR) = true → requestReads done = pollSends done

namespace QueuePairRun

variable {s t : QueuePairRun} {call : QueueCall} {countWR : ℕ}

/-- An entry that the running call is to take. -/
def pending (s : QueuePairRun) : ℕ := s.waiting.isSome.toNat

theorem pending_of_none (h : s.waiting = none) : s.pending = 0 := by simp [pending, h]

theorem pending_of_some {own : ℕ} (h : s.waiting = some own) : s.pending = 1 := by
  simp [pending, h]

theorem pending_remoteAccess (opcode : Opcode) (signaled wait : Bool) :
    (s.remoteAccess opcode signaled wait true).pending = (signaled && wait).toNat := by
  cases hwait : signaled && wait <;> simp [pending, remoteAccess, hwait]

/-- Each entry is taken, or about to be, or left for a `pollSend` that is still to come. So
the j-th requested read has its entry among the first ones. -/
structure Inv (s : QueuePairRun) : Prop where
  balance : (completions s.posted).length + s.polls =
    s.taken + s.pending + s.requested.length
  requested : ∀ j own, s.requested[j]? = some own →
    ∃ e, (completions s.posted)[e]? = some own ∧ e + s.polls ≤ s.taken + s.pending + j
  polls_le : s.polls ≤ s.requested.length

/-- The entry of the request to wait for is the next one or has been taken. -/
def WaitsForOwn (s : QueuePairRun) : Prop :=
  ∀ own, s.waiting = some own → ∃ e ≤ s.taken, (completions s.posted)[e]? = some own

theorem inv_start : Inv (start countWR) where
  balance := rfl
  requested j own hown := by simp [start] at hown
  polls_le := le_rfl

/-- A post that the running call waits for if it is signaled. -/
theorem Inv.remoteAccess (h : Inv s) (hidle : s.waiting = none) (opcode : Opcode)
    (signaled accepted : Bool) : Inv (s.remoteAccess opcode signaled true accepted) := by
  cases accepted with
  | false => exact h
  | true =>
    have hbalance := h.balance
    have hpending := pending_remoteAccess (s := s) opcode signaled true
    rw [pending_of_none hidle] at hbalance
    rw [Bool.and_true] at hpending
    refine ⟨?_, fun j own hown => ?_, h.polls_le⟩
    · rw [hpending]
      simp only [QueuePairRun.remoteAccess, if_true, length_completions_concat]
      omega
    · obtain ⟨e, he, hle⟩ := h.requested j own hown
      rw [pending_of_none hidle] at hle
      refine ⟨e, getElem?_completions_concat _ he, ?_⟩
      rw [hpending]
      simp only [QueuePairRun.remoteAccess, if_true]
      omega

theorem Inv.access (h : Inv s) (hidle : s.waiting = none) (opcode : Opcode)
    (signaled accepted : Bool) : Inv (s.access opcode signaled accepted) := by
  have hcounted : Inv { s with countWR := (countSignaled s.countWR signaled).1 } :=
    ⟨h.balance, h.requested, h.polls_le⟩
  exact hcounted.remoteAccess hidle opcode (countSignaled s.countWR signaled).2 accepted

theorem Inv.requestRead (h : Inv s) (hidle : s.waiting = none) (accepted : Bool) :
    Inv (s.requestRead accepted) := by
  cases accepted with
  | false => exact ⟨h.balance, h.requested, h.polls_le⟩
  | true =>
    have hbalance := h.balance
    rw [pending_of_none hidle] at hbalance
    have hpending : (s.requestRead true).pending = 0 := rfl
    refine ⟨?_, fun j own hown => ?_, ?_⟩
    · rw [hpending]
      simp only [QueuePairRun.requestRead, QueuePairRun.remoteAccess, if_true,
        length_completions_concat, Bool.toNat_true, List.length_append, List.length_singleton]
      omega
    · simp only [QueuePairRun.requestRead, if_true] at hown
      rw [hpending]
      rcases Nat.lt_or_ge j s.requested.length with hlt | hge
      · rw [List.getElem?_append_left hlt] at hown
        obtain ⟨e, he, hle⟩ := h.requested j own hown
        rw [pending_of_none hidle] at hle
        exact ⟨e, getElem?_completions_concat _ he, hle⟩
      · -- the entry of the new request is the last one
        rw [List.getElem?_append_right hge, List.getElem?_singleton] at hown
        split_ifs at hown
        cases hown
        refine ⟨(completions s.posted).length, ?_, ?_⟩
        · simp [QueuePairRun.requestRead, QueuePairRun.remoteAccess, completions_concat]
        · simp only [QueuePairRun.requestRead, QueuePairRun.remoteAccess, if_true]
          omega
    · simpa [QueuePairRun.requestRead, QueuePairRun.remoteAccess] using
        Nat.le_succ_of_le h.polls_le

/-- A `pollSend` waits for a request whose entry is not behind the next one. -/
theorem Inv.pollSend (h : Inv s) (hidle : s.waiting = none) (hpoll : s.pollSend = some t) :
    Inv t ∧ WaitsForOwn t := by
  obtain ⟨own, hown, rfl⟩ := Option.map_eq_some_iff.mp hpoll
  have hbalance := h.balance
  rw [pending_of_none hidle] at hbalance
  have hlt : s.polls < s.requested.length := (List.getElem?_eq_some_iff.mp hown).1
  constructor
  · refine ⟨?_, fun j own' hown' => ?_, hlt⟩
    · rw [pending_of_some rfl]
      simp only
      omega
    · obtain ⟨e, he, hle⟩ := h.requested j own' hown'
      rw [pending_of_none hidle] at hle
      refine ⟨e, he, ?_⟩
      rw [pending_of_some rfl]
      simp only
      omega
  · intro own' hown'
    cases hown'
    obtain ⟨e, he, hle⟩ := h.requested s.polls own hown
    rw [pending_of_none hidle] at hle
    exact ⟨e, by simp only; omega, he⟩

theorem Inv.poll (h : Inv s) {own : ℕ} (hwaiting : s.waiting = some own) :
    Inv { s with taken := s.taken + 1, waiting := none } := by
  have hbalance := h.balance
  rw [pending_of_some hwaiting] at hbalance
  refine ⟨?_, fun j own' hown' => ?_, h.polls_le⟩
  · rw [pending_of_none rfl]
    simp only
    omega
  · obtain ⟨e, he, hle⟩ := h.requested j own' hown'
    rw [pending_of_some hwaiting] at hle
    exact ⟨e, he, hle⟩

/-- What a move does, the counts of completions left open. -/
inductive Moved (s : QueuePairRun) : QueueMove → QueuePairRun → Prop
  | access (hidle : s.waiting = none) (opcode : Opcode) (signaled accepted : Bool) :
      Moved s (.call (.access opcode signaled accepted)) (s.access opcode signaled accepted)
  | requestRead (hidle : s.waiting = none) (accepted : Bool) :
      Moved s (.call (.requestRead accepted)) (s.requestRead accepted)
  | pollSend {t : QueuePairRun} (hidle : s.waiting = none) (hpoll : s.pollSend = some t) :
      Moved s (.call .pollSend) t
  | complete (success : Bool) (completed succeeded : ℕ) :
      Moved s (.complete success) { s with completed, succeeded }
  | found {own : ℕ} (hwaiting : s.waiting = some own) :
      Moved s .poll { s with taken := s.taken + 1, waiting := none }
  | empty : Moved s .poll s

theorem moved_of_step {move : QueueMove} (h : step s move = some t) : Moved s move t := by
  cases move with
  | call call =>
    simp only [step] at h
    cases hwaiting : s.waiting with
    | some own => simp [hwaiting] at h
    | none =>
      cases call with
      | access opcode signaled accepted =>
        simp only [hwaiting, Option.some.injEq] at h
        subst h
        exact .access hwaiting opcode signaled accepted
      | requestRead accepted =>
        simp only [hwaiting, Option.some.injEq] at h
        subst h
        exact .requestRead hwaiting accepted
      | pollSend =>
        simp only [hwaiting] at h
        exact .pollSend hwaiting h
  | complete success =>
    simp only [step] at h
    split at h
    · cases h
      exact .complete success _ _
    · cases h
  | poll =>
    simp only [step] at h
    split at h
    · cases h
    · cases h
      exact .empty
    · rename_i own _ hwaiting _
      cases h
      exact .found hwaiting

theorem inv_step (hs : Inv s) {move : QueueMove} (h : step s move = some t) : Inv t := by
  cases moved_of_step h with
  | access hidle opcode signaled accepted => exact hs.access hidle opcode signaled accepted
  | requestRead hidle accepted => exact hs.requestRead hidle accepted
  | pollSend hidle hpoll => exact (hs.pollSend hidle hpoll).1
  | complete success completed succeeded => exact ⟨hs.balance, hs.requested, hs.polls_le⟩
  | found hwaiting => exact hs.poll hwaiting
  | empty => exact hs

/-- A call that waits finds all requested reads polled. -/
def Guarded (s : QueuePairRun) : QueueMove → Prop
  | .call call => call.waits s.countWR = true → s.requested.length = s.polls
  | _ => True

theorem WaitsForOwn.access (hs : Inv s) (hidle : s.waiting = none) {opcode : Opcode}
    {signaled accepted : Bool} (hguard : Guarded s (.call (.access opcode signaled accepted))) :
    WaitsForOwn (s.access opcode signaled accepted) := by
  have hbalance := hs.balance
  rw [pending_of_none hidle] at hbalance
  simp only [Guarded, QueueCall.waits] at hguard
  intro own hown
  unfold QueuePairRun.access remoteAccess at hown ⊢
  cases accepted with
  | false =>
    simp only [Bool.false_eq_true, if_false, hidle] at hown
    cases hown
  | true =>
    cases hsignaled : (countSignaled s.countWR signaled).2 with
    | false => simp [hsignaled] at hown
    | true =>
      simp only [hsignaled, if_true, Bool.and_true, Option.some.injEq, forall_const]
        at hown hguard ⊢
      subst hown
      exact ⟨(completions s.posted).length, by omega, by simp [completions_concat]⟩

theorem waitsForOwn_step (hs : Inv s) (hown : WaitsForOwn s) {move : QueueMove}
    (hguard : Guarded s move) (h : step s move = some t) : WaitsForOwn t := by
  cases moved_of_step h with
  | access hidle opcode signaled accepted => exact WaitsForOwn.access hs hidle hguard
  | requestRead hidle accepted =>
    intro own hwaiting
    cases accepted <;> simp [requestRead, remoteAccess, hidle] at hwaiting
  | pollSend hidle hpoll => exact (hs.pollSend hidle hpoll).2
  | complete success completed succeeded => exact hown
  | found hwaiting =>
    intro own' hown'
    cases hown'
  | empty => exact hown

/-- The entry taken is not before that of the request waited for. -/
theorem WaitsForOwn.ownCompleted (hown : WaitsForOwn s) (move : QueueMove) :
    OwnCompleted s move := by
  cases move with
  | call call => trivial
  | complete success => trivial
  | poll =>
    intro own request hwaiting hpoll hsuccess
    obtain ⟨hentry, -⟩ := Option.filter_eq_some_iff.mp hpoll
    obtain ⟨e, hle, he⟩ := hown own hwaiting
    exact lt_of_le_of_lt (completions_le he hentry hle) hsuccess

/-- What the calls between two states have added up to. -/
structure Tallied (s : QueuePairRun) (calls : List QueueCall) (t : QueuePairRun) : Prop where
  countWR : t.countWR = calls.foldl QueueCall.counted s.countWR
  requested : t.requested.length = s.requested.length + requestReads calls
  polls : t.polls = s.polls + pollSends calls

theorem Tallied.refl (s : QueuePairRun) : Tallied s [] s := ⟨rfl, rfl, rfl⟩

theorem Tallied.trans {u : QueuePairRun} {calls calls' : List QueueCall} (h : Tallied s calls t)
    (h' : Tallied t calls' u) : Tallied s (calls ++ calls') u where
  countWR := by rw [h'.countWR, h.countWR, List.foldl_append]
  requested := by
    rw [h'.requested, h.requested, requestReads, requestReads, requestReads, List.count_append,
      Nat.add_assoc]
  polls := by
    rw [h'.polls, h.polls, pollSends, pollSends, pollSends, List.count_append, Nat.add_assoc]

theorem tallied_step {move : QueueMove} (h : step s move = some t) :
    Tallied s (callsOf [move]) t := by
  cases moved_of_step h with
  | access hidle opcode signaled accepted =>
    unfold access remoteAccess
    cases accepted <;> exact ⟨rfl, rfl, rfl⟩
  | requestRead hidle accepted =>
    unfold requestRead remoteAccess
    cases accepted with
    | false => exact ⟨rfl, rfl, rfl⟩
    | true => exact ⟨rfl, List.length_append, rfl⟩
  | pollSend hidle hpoll =>
    obtain ⟨own, hown, rfl⟩ := Option.map_eq_some_iff.mp hpoll
    exact ⟨rfl, rfl, rfl⟩
  | complete success completed succeeded => exact ⟨rfl, rfl, rfl⟩
  | found hwaiting => exact ⟨rfl, rfl, rfl⟩
  | empty => exact ⟨rfl, rfl, rfl⟩

theorem tallied_exec {moves : List QueueMove} (h : exec step s moves = some t) :
    Tallied s (callsOf moves) t := by
  induction moves generalizing s with
  | nil =>
    cases h
    exact Tallied.refl _
  | cons move moves ih =>
    obtain ⟨u, hu, ht⟩ := Option.bind_eq_some_iff.mp h
    rw [← List.singleton_append, callsOf_append]
    exact (tallied_step hu).trans (ih ht)

/-- The condition on the calls is the guard of each of them. -/
theorem guarded_of_noneOutstanding {moves : List QueueMove}
    (h : NoneOutstanding countWR (callsOf moves)) :
    EachStep step Guarded (start countWR) moves := by
  rintro before move t u ⟨behind, hsplit⟩ ht hu
  cases move with
  | complete success => trivial
  | poll => trivial
  | call call =>
    intro hwaits
    have htally := tallied_exec ht
    rw [htally.countWR] at hwaits
    have hcalls : callsOf moves = callsOf before ++ call :: callsOf behind := by
      simp [← hsplit]
    have hequal := h (callsOf before) call (callsOf behind) hcalls hwaits
    rw [htally.requested, htally.polls, hequal]
    rfl

/-- Between calls, with everything completed. -/
structure Settled (s : QueuePairRun) : Prop where
  inv : Inv s
  waiting : s.waiting = none
  completed : s.completed = s.posted.length
  succeeded : s.succeeded = s.posted.length

def completeAll (s : QueuePairRun) : QueuePairRun :=
  { s with completed := s.posted.length, succeeded := s.posted.length }

/-- The device may complete all that is posted. -/
theorem exec_complete (hsucceeded : s.succeeded = s.completed)
    (hle : s.completed ≤ s.posted.length) :
    ∃ moves, callsOf moves = [] ∧ exec step s moves = some s.completeAll := by
  induction hn : s.posted.length - s.completed generalizing s with
  | zero =>
    have heq : s.posted.length = s.completed := by omega
    refine ⟨[], rfl, ?_⟩
    rw [exec_nil, completeAll, heq]
    nth_rewrite 2 [← hsucceeded]
    rfl
  | succ n ih =>
    have hlt : s.completed < s.posted.length := by omega
    have hstep : step s (.complete true) = some { s with
        completed := s.completed + 1
        succeeded := s.succeeded + 1 } := by
      simp [step, hlt, hsucceeded]
    obtain ⟨moves, hcalls, hexec⟩ := @ih { s with
        completed := s.completed + 1
        succeeded := s.succeeded + 1 } (congrArg (· + 1) hsucceeded) hlt
      (by show s.posted.length - (s.completed + 1) = n; omega)
    exact ⟨.complete true :: moves, hcalls, by rw [exec_cons, hstep]; exact hexec⟩

/-- With everything completed there is an entry to take. -/
theorem Inv.exists_entry (h : Inv s) (hcompleted : s.completed = s.posted.length)
    (hleft : s.polls < s.pending + s.requested.length) : ∃ request, s.pollCq = some request := by
  have hbalance := h.balance
  have hlt : s.taken < (completions s.posted).length := by omega
  refine ⟨(completions s.posted)[s.taken], Option.filter_eq_some_iff.mpr ⟨by simp [hlt], ?_⟩⟩
  rw [hcompleted]
  exact decide_eq_true (lt_length_of_mem_completions (List.getElem_mem hlt))

/-- Wherever a run is, it can go on without a call until it is settled. -/
theorem exists_settled (h : Inv s) (hsucceeded : s.succeeded = s.completed)
    (hle : s.completed ≤ s.posted.length) :
    ∃ moves t, callsOf moves = [] ∧ exec step s moves = some t ∧ Settled t := by
  obtain ⟨moves, hcalls, hexec⟩ := exec_complete hsucceeded hle
  have hall : Inv s.completeAll := ⟨h.balance, h.requested, h.polls_le⟩
  cases hwaiting : s.waiting with
  | none => exact ⟨moves, s.completeAll, hcalls, hexec, hall, hwaiting, rfl, rfl⟩
  | some own =>
    have hpending : s.completeAll.pending = 1 := pending_of_some hwaiting
    have hpolls := hall.polls_le
    obtain ⟨request, hrequest⟩ := hall.exists_entry rfl (by omega)
    have hpoll : step s.completeAll .poll =
        some { s.completeAll with taken := s.taken + 1, waiting := none } := by
      simp only [step, hrequest]
      simp [completeAll, hwaiting]
    refine ⟨moves ++ [.poll], { s.completeAll with taken := s.taken + 1, waiting := none },
      ?_, ?_, hall.poll hwaiting, rfl, rfl, rfl⟩
    · simp [hcalls]
    · rw [exec_concat, hexec, Option.bind_some, hpoll]

/-- When all is settled a call can start, and the device can go on behind it. -/
theorem Settled.exists_call (h : Settled s)
    (hpolls : call = .pollSend → s.polls < s.requested.length) :
    ∃ t, step s (.call call) = some t ∧ t.succeeded = t.completed ∧
      t.completed ≤ t.posted.length := by
  have heq : s.succeeded = s.completed := h.succeeded.trans h.completed.symm
  have hle : s.completed ≤ s.posted.length := h.completed.le
  cases call with
  | access opcode signaled accepted =>
    refine ⟨s.access opcode signaled accepted, by simp [step, h.waiting], ?_⟩
    unfold access remoteAccess
    cases accepted with
    | false => exact ⟨heq, hle⟩
    | true => exact ⟨heq, by simpa using Nat.le_succ_of_le hle⟩
  | requestRead accepted =>
    refine ⟨s.requestRead accepted, by simp [step, h.waiting], ?_⟩
    unfold requestRead remoteAccess
    cases accepted with
    | false => exact ⟨heq, hle⟩
    | true => exact ⟨heq, by simpa using Nat.le_succ_of_le hle⟩
  | pollSend =>
    have hlt := hpolls rfl
    refine ⟨{ s with waiting := some s.requested[s.polls], polls := s.polls + 1 }, ?_, heq, hle⟩
    simp [step, h.waiting, pollSend, hlt]

/-- Matched calls can be made one after the other. -/
theorem exists_run (countWR : ℕ) {calls : List QueueCall} (hmatched : PollsMatched calls) :
    ∃ moves t, callsOf moves = calls ∧ exec step (start countWR) moves = some t ∧
      Settled t := by
  induction calls using List.reverseRecOn with
  | nil => exact ⟨[], start countWR, rfl, rfl, inv_start, rfl, rfl, rfl⟩
  | append_singleton calls call ih =>
    obtain ⟨moves, s, hcalls, hexec, hs⟩ :=
      ih fun done hdone => hmatched done (hdone.trans (List.prefix_append calls [call]))
    have htally := tallied_exec hexec
    have hpolls : call = .pollSend → s.polls < s.requested.length := by
      rintro rfl
      have hlast := hmatched _ (List.prefix_refl _)
      rw [hcalls] at htally
      rw [htally.polls, htally.requested]
      simp [pollSends, requestReads, start] at hlast ⊢
      omega
    obtain ⟨t, ht, heq, hle⟩ := hs.exists_call hpolls
    obtain ⟨rest, u, hrest, hu, hsettled⟩ := exists_settled (inv_step hs.inv ht) heq hle
    refine ⟨moves ++ .call call :: rest, u, ?_, ?_, hsettled⟩
    · simp [hcalls, hrest]
    · rw [exec_append, hexec, Option.bind_some, exec_cons, ht, Option.bind_some, hu]

/-- A settled call that waits while a requested read is not polled takes the entry of an
earlier request. -/
theorem Settled.not_ownCompleted (h : Settled s) (hwaits : call.waits s.countWR = true)
    (hleft : s.polls < s.requested.length) :
    ∃ t u, step s (.call call) = some t ∧ step t .poll = some u ∧ ¬ OwnCompleted t .poll := by
  cases call with
  | requestRead accepted => cases hwaits
  | pollSend => cases hwaits
  | access opcode signaled accepted =>
    simp only [QueueCall.waits, Bool.and_eq_true] at hwaits
    obtain ⟨hsignaled, rfl⟩ := hwaits
    obtain ⟨request, hrequest⟩ := h.inv.exists_entry h.completed (by omega)
    obtain ⟨hentry, hlt⟩ := Option.filter_eq_some_iff.mp hrequest
    have hpoll : (s.access opcode signaled true).pollCq = some request := by
      apply Option.filter_eq_some_iff.mpr
      refine ⟨?_, by simpa [access, remoteAccess] using hlt⟩
      simp only [access, remoteAccess, if_true]
      exact getElem?_completions_concat _ hentry
    have hwaiting : (s.access opcode signaled true).waiting = some s.posted.length := by
      simp [access, remoteAccess, hsignaled]
    refine ⟨s.access opcode signaled true,
      { s.access opcode signaled true with
        taken := (s.access opcode signaled true).taken + 1, waiting := none },
      by simp [step, h.waiting], by simp [step, hpoll, hwaiting], fun howns => ?_⟩
    have hsucceeded : (s.access opcode signaled true).succeeded = s.posted.length := by
      simpa [access, remoteAccess] using h.succeeded
    have hown := howns s.posted.length request hwaiting hpoll (by
      rw [hsucceeded, ← h.completed]
      simpa using hlt)
    rw [hsucceeded] at hown
    exact lt_irrefl _ hown

/-- Over all runs of matched calls, those that wait have their own request completed when they
return true exactly if no requested read is left unpolled when one is made. -/
theorem ownCompleted_throughout_iff (countWR : ℕ) {calls : List QueueCall}
    (hmatched : PollsMatched calls) :
    (∀ moves, callsOf moves = calls → EachStep step OwnCompleted (start countWR) moves) ↔
      NoneOutstanding countWR calls := by
  constructor
  · intro h done call rest hsplit hwaits
    by_contra hne
    have hdone : PollsMatched done := fun before hbefore =>
      hmatched before (hbefore.trans ⟨call :: rest, hsplit.symm⟩)
    obtain ⟨moves, s, hcalls, hexec, hs⟩ := exists_run countWR hdone
    have htally := tallied_exec hexec
    rw [hcalls] at htally
    have hle := hs.inv.polls_le
    have hrequested : s.requested.length = requestReads done := by
      simpa [start] using htally.requested
    have hpolls : s.polls = pollSends done := by simpa [start] using htally.polls
    obtain ⟨t, u, ht, hu, hnot⟩ := hs.not_ownCompleted (by rw [htally.countWR]; exact hwaits)
      (by omega)
    apply hnot
    refine h (moves ++ [.call call] ++ [.poll] ++ rest.map .call) ?_
      (moves ++ [.call call]) .poll t u (List.prefix_append _ _) ?_ hu
    · simp [hcalls, hsplit]
    · rw [exec_concat, hexec, Option.bind_some, ht]
  · rintro h moves rfl
    have hguarded := guarded_of_noneOutstanding h
    have hthroughout := EachStep.throughout (I := fun s => Inv s ∧ WaitsForOwn s)
      (fun s move t hs hguard ht => ⟨inv_step hs.1 ht, waitsForOwn_step hs.1 hs.2 hguard ht⟩)
      moves (start countWR) ⟨inv_start, fun own hown => by cases hown⟩ hguarded
    intro before move t u hbefore ht hu
    exact (hthroughout before t ((List.prefix_append _ _).trans hbefore) ht).2.ownCompleted move

theorem ownCompleted_throughout_iff_polled :
    (∀ moves, callsOf moves = [.requestRead true, .pollSend, .access .read true true] →
      EachStep step OwnCompleted (start 0) moves) ↔
      NoneOutstanding 0 [.requestRead true, .pollSend, .access .read true true] :=
  ownCompleted_throughout_iff 0 fun done hdone =>
    (show ∀ done ∈ List.inits _, pollSends done ≤ requestReads done by decide) done
      ((List.mem_inits _ _).mpr hdone)

/-- A signaled read behind a requested one returns with the entry of that one, before it is
completed itself. The `pollSend` comes too late. -/
theorem read_returns_early :
    PollsMatched [.requestRead true, .access .read true true, .pollSend] ∧
      ¬ ∀ moves, callsOf moves = [.requestRead true, .access .read true true, .pollSend] →
        EachStep step OwnCompleted (start 0) moves := by
  constructor
  · intro done hdone
    exact (show ∀ done ∈ List.inits _, pollSends done ≤ requestReads done by decide) done
      ((List.mem_inits _ _).mpr hdone)
  · intro h
    have hruns := h [.call (.requestRead true), .call (.access .read true true),
      .complete true, .poll, .call .pollSend, .complete true, .poll] rfl
    have howns := hruns
      [.call (.requestRead true), .call (.access .read true true), .complete true] .poll _ _
      (by decide) rfl rfl
    exact absurd (howns 1 0 rfl rfl (by decide)) (by decide)

end QueuePairRun
end DpiLibrary
