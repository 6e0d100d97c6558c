import DpiLibrary.Foundation.Schedule
import DpiLibrary.Dpi.RemoteNode

/-!
# Runs of the registry server

What one request does to the registry, case by case, and what holds of the registry
after any number of requests. Two kinds of requests are looked at closely:
registrations that fail, and requests the server does not survive.
-/

namespace DpiLibrary

open Schedule

variable {ν : Type}

/-- The handle a registration starts with. -/
def DPIAppendBufferRequest.bufferHandle (req : DPIAppendBufferRequest) : BufferHandle where
  name := req.name
  nodeId := req.nodeId
  entrySegments := []
  segmentsPerWriter := req.segmentsPerWriter
  numberOfWriters := req.numberAppenders
  segmentSizes := req.segmentSizes
  buffertype := req.buffertype

namespace BufferHandle

/-- `entrySegments.push_back` for each of the segments. -/
def push (h : BufferHandle) (segments : List BufferSegment) : BufferHandle :=
  { h with entrySegments := h.entrySegments ++ segments }

@[simp] theorem push_nil (h : BufferHandle) : h.push [] = h := by simp [push]

@[simp] theorem push_push (h : BufferHandle) (segments segments' : List BufferSegment) :
    (h.push segments).push segments' = h.push (segments ++ segments') := by simp [push]

@[simp] theorem push_name (h : BufferHandle) (segments : List BufferSegment) :
    (h.push segments).name = h.name := rfl

@[simp] theorem push_entrySegments (h : BufferHandle) (segments : List BufferSegment) :
    (h.push segments).entrySegments = h.entrySegments ++ segments := rfl

end BufferHandle

namespace RegistryServer

/-- Response of a create-ring request that succeeds. -/
def ringCreated (name : String) (h : BufferHandle) (segment : BufferSegment) :
    DPICreateRingOnBufferResponse where
  name
  nodeId := h.nodeId
  segment := some segment
  segmentsPerWriter := h.segmentsPerWriter
  segmentSizes := h.segmentSizes
  ret := .noError

variable {nodes : Nodes ν} {r r' : RegistryServer} {node node' : ν} {resp : RegistryResponse}

/-- Everything that the handler can do with a request it answers. -/
inductive Handled (nodes : Nodes ν) (r : RegistryServer) (node : ν) :
    RegistryRequest → RegistryServer → ν → RegistryResponse → Prop
  | createRingFailed (name : String) (hname : r.retrieveBuffer name = none) :
    Handled nodes r node (.createRingOnBuffer name) r node
      (.createRingOnBuffer { ret := .dpiCreateRingOnBufFailed })
  | createRing (name : String) (h : BufferHandle) (node' : ν) (segment : BufferSegment)
    (hname : r.retrieveBuffer name = some h)
    (hring : createRingOnBuffer nodes node h = some (node', some segment)) :
    Handled nodes r node (.createRingOnBuffer name) (r.setHandle name (h.push [segment])) node'
      (.createRingOnBuffer (ringCreated name h segment))
  | retrieveFailed (name : String) (isAppender : Bool) (hname : r.retrieveBuffer name = none) :
    Handled nodes r node (.retrieveBuffer name isAppender) r node
      (.retrieveBuffer { ret := .dpiRtrvBuffhandleFailed })
  | retrieve (name : String) (h : BufferHandle) (hname : r.retrieveBuffer name = some h) :
    Handled nodes r node (.retrieveBuffer name false) r node
      (.retrieveBuffer (retrieved name h h.entrySegments))
  | joinFull (name : String) (h : BufferHandle) (hname : r.retrieveBuffer name = some h)
    (hfull : r.joined name = h.entrySegments.length) :
    Handled nodes r node (.retrieveBuffer name true) (r.setJoined name (r.joined name)) node
      (.retrieveBuffer { ret := .dpiJoinBufferFailed })
  | join (name : String) (h : BufferHandle) (segment : BufferSegment)
    (hname : r.retrieveBuffer name = some h)
    (hsegment : h.entrySegments[r.joined name]? = some segment) :
    Handled nodes r node (.retrieveBuffer name true) (r.setJoined name (r.joined name + 1)) node
      (.retrieveBuffer (retrieved name h [segment]))
  | nameTaken (req : DPIAppendBufferRequest) (hreg : req.register = true)
    (hname : req.name ∈ r.bufferHandles) :
    Handled nodes r node (.appendBuffer req) (r.setJoined req.name 0) node
      (.appendBuffer .dpiRegisterBuffhandleFailed)
  | register (req : DPIAppendBufferRequest) (node' : ν) (h : BufferHandle) (success : Bool)
    (hreg : req.register = true) (hname : req.name ∉ r.bufferHandles)
    (hrings : createRings nodes req.numberAppenders node req.bufferHandle =
      some (node', h, success)) :
    Handled nodes r node (.appendBuffer req)
      (((r.setHandle req.name req.bufferHandle).setHandle req.name h).setJoined req.name 0) node'
      (.appendBuffer (if success then .noError else .dpiRegisterBuffhandleFailed))
  | append (req : DPIAppendBufferRequest) (hreg : req.register = false) :
    Handled nodes r node (.appendBuffer req) (r.appendSegments req.name req.segment).1 node
      (.appendBuffer (if (r.appendSegments req.name req.segment).2 then .noError
        else .dpiAppendBuffhandleFailed))
  | invalid : Handled nodes r node .other r node (.error .invalidMessage)

theorem handled_of_handle {req : RegistryRequest}
    (h : handle nodes r node req = some (r', node', resp)) :
    Handled nodes r node req r' node' resp := by
  cases req with
  | createRingOnBuffer name =>
    obtain ⟨⟨r₁, node₁, resp₁⟩, hcreate, heq⟩ := Option.map_eq_some_iff.mp h
    cases heq
    cases hname : r.retrieveBuffer name with
    | none =>
      simp only [handleCreateRing, hname, Option.some.injEq, Prod.mk.injEq] at hcreate
      obtain ⟨rfl, rfl, rfl⟩ := hcreate
      exact .createRingFailed name hname
    | some buf =>
      simp only [handleCreateRing, hname] at hcreate
      obtain ⟨⟨node₂, segment⟩, hring, hrest⟩ := Option.bind_eq_some_iff.mp hcreate
      obtain ⟨segment', hsome, hrest⟩ := Option.bind_eq_some_iff.mp hrest
      cases hrest
      subst hsome
      exact .createRing name buf _ segment' hname hring
  | retrieveBuffer name isAppender =>
    obtain ⟨⟨r₁, resp₁⟩, hretr, heq⟩ := Option.map_eq_some_iff.mp h
    cases heq
    cases hname : r.retrieveBuffer name with
    | none =>
      simp only [handleRetrieve, hname, Option.some.injEq, Prod.mk.injEq] at hretr
      obtain ⟨rfl, rfl⟩ := hretr
      exact .retrieveFailed name isAppender hname
    | some buf =>
      cases isAppender with
      | false =>
        simp only [handleRetrieve, hname, Bool.false_eq_true, if_false, Option.some.injEq,
          Prod.mk.injEq] at hretr
        obtain ⟨rfl, rfl⟩ := hretr
        exact .retrieve name buf hname
      | true =>
        simp only [handleRetrieve, hname, if_true] at hretr
        split_ifs at hretr with hfull
        · cases hretr
          exact .joinFull name buf hname hfull
        · obtain ⟨segment, hsegment, hretr⟩ := Option.bind_eq_some_iff.mp hretr
          cases hretr
          exact .join name buf segment hname hsegment
  | appendBuffer req =>
    cases hreg : req.register with
    | false =>
      simp only [handle, hreg, Bool.false_eq_true, if_false, Option.some.injEq,
        Prod.mk.injEq] at h
      obtain ⟨rfl, rfl, rfl⟩ := h
      exact .append req hreg
    | true =>
      simp only [handle, hreg, if_true] at h
      obtain ⟨⟨r₁, node₁, ret⟩, hregister, heq⟩ := Option.map_eq_some_iff.mp h
      cases heq
      by_cases hname : req.name ∈ r.bufferHandles
      · simp only [handleRegister, registerBuffer, hname, if_true, Bool.false_eq_true, if_false,
          Option.some.injEq, Prod.mk.injEq] at hregister
        obtain ⟨rfl, rfl, rfl⟩ := hregister
        exact .nameTaken req hreg hname
      · simp only [handleRegister, registerBuffer, hname, if_false, if_true] at hregister
        obtain ⟨⟨node₂, buf, success⟩, hrings, hrest⟩ := Option.bind_eq_some_iff.mp hregister
        cases hrest
        exact .register req _ buf success hreg hname hrings
  | other =>
    cases h
    exact .invalid

/-- The rings a registration creates are added to its handle, all of them if it succeeds. -/
theorem createRings_handle :
    ∀ {numberAppenders : ℕ} {node node' : ν} {h h' : BufferHandle} {success : Bool},
      createRings nodes numberAppenders node h = some (node', h', success) →
      ∃ segments, h' = h.push segments ∧ (success = true → segments.length = numberAppenders) := by
  intro numberAppenders
  induction numberAppenders with
  | zero =>
    intro node node' h h' success hrun
    simp only [createRings, Option.some.injEq, Prod.mk.injEq] at hrun
    obtain ⟨-, rfl, -⟩ := hrun
    exact ⟨[], by simp, fun _ => rfl⟩
  | succ n ih =>
    intro node node' h h' success hrun
    rw [createRings] at hrun
    obtain ⟨⟨node₁, segment⟩, -, hrest⟩ := Option.bind_eq_some_iff.mp hrun
    cases segment with
    | none =>
      simp only [Option.some.injEq, Prod.mk.injEq] at hrest
      obtain ⟨-, rfl, rfl⟩ := hrest
      exact ⟨[], by simp, by simp⟩
    | some segment =>
      obtain ⟨segments, rfl, hlength⟩ := ih hrest
      refine ⟨segment :: segments, by simp [BufferHandle.push], fun hsuccess => ?_⟩
      rw [List.length_cons, hlength hsuccess]

/-- Appended segments go to the named buffer, if there is one, and nowhere else. -/
theorem retrieveBuffer_appendSegments (segments : List BufferSegment) :
    ∀ (r : RegistryServer) (name other : String),
      (r.appendSegments name segments).1.retrieveBuffer other =
        (r.retrieveBuffer other).map fun h => if other = name then h.push segments else h := by
  induction segments with
  | nil =>
    intro r name other
    cases hother : r.retrieveBuffer other <;> simp [appendSegments, hother]
  | cons segment segments ih =>
    intro r name other
    cases hname : r.retrieveBuffer name with
    | none =>
      simp only [appendSegments, appendSegment, hname, Bool.false_eq_true, if_false]
      by_cases heq : other = name
      · rw [heq, hname]
        rfl
      · simp [heq]
    | some h =>
      simp only [appendSegments, appendSegment, hname, if_true]
      rw [ih, retrieveBuffer_setHandle]
      by_cases heq : other = name
      · subst heq
        simp [hname, BufferHandle.push]
      · simp [heq]

theorem joined_appendSegments (segments : List BufferSegment) :
    ∀ (r : RegistryServer) (name other : String),
      (r.appendSegments name segments).1.joined other = r.joined other := by
  induction segments with
  | nil => exact fun r name other => rfl
  | cons segment segments ih =>
    intro r name other
    cases hname : r.retrieveBuffer name with
    | none => simp [appendSegments, appendSegment, hname]
    | some h =>
      simp only [appendSegments, appendSegment, hname, if_true]
      rw [ih, joined_setHandle]

/-- Handles are stored under their own names, and no join counter has passed the end of the
rings. -/
structure WellKept (r : RegistryServer) : Prop where
  named : ∀ name h, r.retrieveBuffer name = some h → h.name = name
  counters : ∀ name h, r.retrieveBuffer name = some h → r.joined name ≤ h.entrySegments.length

theorem wellKept_init : WellKept init where
  named name h hh := by simp [retrieveBuffer, init] at hh
  counters name h hh := by simp [retrieveBuffer, init] at hh

/-- A handle that is stored in the place of one with fewer rings. -/
theorem WellKept.push (hr : WellKept r) {name : String} {h : BufferHandle}
    (hname : r.retrieveBuffer name = some h) (segments : List BufferSegment) :
    WellKept (r.setHandle name (h.push segments)) := by
  refine ⟨fun other h' hh' => ?_, fun other h' hh' => ?_⟩
  · rw [retrieveBuffer_setHandle] at hh'
    split_ifs at hh' with heq
    · cases hh'
      rw [BufferHandle.push_name, hr.named name h hname, heq]
    · exact hr.named other h' hh'
  · rw [retrieveBuffer_setHandle] at hh'
    rw [joined_setHandle]
    split_ifs at hh' with heq
    · cases hh'
      have hle := hr.counters name h hname
      rw [heq, BufferHandle.push_entrySegments, List.length_append]
      omega
    · exact hr.counters other h' hh'

theorem WellKept.setJoined (hr : WellKept r) {name : String} {n : ℕ}
    (hn : ∀ h, r.retrieveBuffer name = some h → n ≤ h.entrySegments.length) :
    WellKept (r.setJoined name n) := by
  refine ⟨hr.named, fun other h' hh' => ?_⟩
  rw [retrieveBuffer_setJoined] at hh'
  rw [joined_setJoined]
  split_ifs with heq
  · rw [heq] at hh'
    exact hn h' hh'
  · exact hr.counters other h' hh'

theorem WellKept.handled {req : RegistryRequest} (hr : WellKept r)
    (h : Handled nodes r node req r' node' resp) : WellKept r' := by
  cases h with
  | createRingFailed => exact hr
  | createRing name h node' segment hname hring => exact hr.push hname [segment]
  | retrieveFailed => exact hr
  | retrieve => exact hr
  | joinFull name h hname hfull => exact hr.setJoined fun h' hh' => hr.counters name h' hh'
  | join name h segment hname hsegment =>
    refine hr.setJoined fun h' hh' => ?_
    cases hname.symm.trans hh'
    exact (List.getElem?_eq_some_iff.mp hsegment).1
  | nameTaken => exact hr.setJoined fun h' hh' => Nat.zero_le _
  | register req node' h success hreg hname hrings =>
    obtain ⟨segments, rfl, -⟩ := createRings_handle hrings
    refine ⟨fun other h' hh' => ?_, fun other h' hh' => ?_⟩
    · simp only [retrieveBuffer_setJoined, retrieveBuffer_setHandle] at hh'
      split_ifs at hh' with heq
      · cases hh'
        exact heq.symm
      · exact hr.named other h' hh'
    · simp only [retrieveBuffer_setJoined, retrieveBuffer_setHandle] at hh'
      simp only [joined_setJoined, joined_setHandle]
      split_ifs at hh' ⊢ with heq
      · exact Nat.zero_le _
      · exact hr.counters other h' hh'
  | append req hreg =>
    refine ⟨fun other h' hh' => ?_, fun other h' hh' => ?_⟩
    · rw [retrieveBuffer_appendSegments] at hh'
      obtain ⟨h, hh, rfl⟩ := Option.map_eq_some_iff.mp hh'
      split_ifs <;> exact hr.named other h hh
    · rw [retrieveBuffer_appendSegments] at hh'
      obtain ⟨h, hh, rfl⟩ := Option.map_eq_some_iff.mp hh'
      rw [joined_appendSegments]
      have hle := hr.counters other h hh
      split_ifs
      · rw [BufferHandle.push_entrySegments, List.length_append]
        omega
      · exact hle
  | invalid => exact hr

/-- The registry and the nodes take a request that is answered. -/
def serve (nodes : Nodes ν) (s : RegistryServer × ν) (req : RegistryRequest) :
    Option (RegistryServer × ν) :=
  (handle nodes s.1 s.2 req).map fun (r, node, _) => (r, node)

theorem wellKept_serve {s s' : RegistryServer × ν} {req : RegistryRequest} (hs : WellKept s.1)
    (h : serve nodes s req = some s') : WellKept s'.1 := by
  obtain ⟨⟨r₁, node₁, resp₁⟩, hhandle, rfl⟩ := Option.map_eq_some_iff.mp h
  exact hs.handled (handled_of_handle hhandle)

theorem wellKept_reachable {start : ν} {s : RegistryServer × ν}
    (h : Reachable (serve nodes) (init, start) s) : WellKept s.1 :=
  h.invariant (I := fun s => WellKept s.1) wellKept_init
    fun _ _ _ hs hstep => wellKept_serve hs hstep

/-- A counter within the rings makes every retrieve and every join find what it returns. -/
theorem WellKept.retrieves (hr : WellKept r) (name : String) (isAppender : Bool) :
    ∃ r' resp, r.handleRetrieve name isAppender = some (r', resp) := by
  unfold handleRetrieve
  cases hname : r.retrieveBuffer name with
  | none => exact ⟨_, _, rfl⟩
  | some h =>
    cases isAppender with
    | false => exact ⟨_, _, rfl⟩
    | true =>
      simp only [if_true]
      split_ifs with hfull
      · exact ⟨_, _, rfl⟩
      · have hlt : r.joined name < h.entrySegments.length := by
          have := hr.counters name h hname
          omega
        rw [List.getElem?_eq_getElem hlt]
        exact ⟨_, _, rfl⟩

/-- In every run the join counters stay within the rings: a counter that differs from their
number is below it, and no join reads past the entry segments. -/
theorem joined_le_throughout (nodes : Nodes ν) (start : ν) (requests : List RegistryRequest) :
    Throughout (serve nodes) (fun s => ∀ name h, s.1.retrieveBuffer name = some h →
      s.1.joined name ≤ h.entrySegments.length ∧
      (s.1.joined name ≠ h.entrySegments.length → s.1.joined name < h.entrySegments.length) ∧
      (s.1.handleRetrieve name true).isSome) (init, start) requests := by
  intro pre s _ hs name h hname
  have hkept : WellKept s.1 := wellKept_reachable ⟨pre, hs⟩
  have hle : s.1.joined name ≤ h.entrySegments.length := hkept.counters name h hname
  obtain ⟨r', resp, hretrieve⟩ := hkept.retrieves name true
  refine ⟨hle, fun hne => lt_of_le_of_ne hle hne, ?_⟩
  rw [hretrieve]
  rfl

end RegistryServer
end DpiLibrary
