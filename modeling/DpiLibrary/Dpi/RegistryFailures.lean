import DpiLibrary.Dpi.RegistryRuns

/-!
# Registry requests that fail

A registration that fails leaves traces, except where the name is taken by a buffer
nobody has joined. A request for a ring that cannot be created ends the server,
except where it is a registration on a node that is not configured.
-/

namespace DpiLibrary

open Schedule

variable {ν : Type}

/-- The error code of a response. -/
def RegistryResponse.ret : RegistryResponse → MessageErrors
  | .createRingOnBuffer resp => resp.ret
  | .retrieveBuffer resp => resp.ret
  | .appendBuffer ret => ret
  | .error ret => ret

namespace RegistryServer

variable {nodes : Nodes ν} {r r' : RegistryServer} {node node' : ν}

/-- Handles and join counters of all names are the same. -/
def SameEntries (r r' : RegistryServer) : Prop :=
  ∀ name, r'.retrieveBuffer name = r.retrieveBuffer name ∧ r'.joined name = r.joined name

/-- A registration that fails changes nothing exactly when the name is that of a buffer
whose join counter is zero. -/
theorem failed_register_unchanged_iff (nodes : Nodes ν) (r r' : RegistryServer) (node node' : ν)
    (req : DPIAppendBufferRequest) (hreg : req.register = true)
    (hhandle : handle nodes r node (.appendBuffer req) =
      some (r', node', .appendBuffer .dpiRegisterBuffhandleFailed)) :
    SameEntries r r' ↔ req.name ∈ r.bufferHandles ∧ r.joined req.name = 0 := by
  generalize hresp : RegistryResponse.appendBuffer .dpiRegisterBuffhandleFailed = resp at hhandle
  cases handled_of_handle hhandle with
  | nameTaken req _ hname =>
    constructor
    · intro hsame
      have hjoined := (hsame req.name).2
      rw [joined_setJoined, if_pos rfl] at hjoined
      exact ⟨hname, hjoined.symm⟩
    · rintro ⟨-, hzero⟩ other
      constructor
      · rfl
      · rw [joined_setJoined]
        split_ifs with heq
        · rw [heq, hzero]
        · rfl
  | register req node' h success _ hname hrings =>
    constructor
    · intro hsame
      have hretr := (hsame req.name).1
      rw [retrieveBuffer_setJoined, retrieveBuffer_setHandle, if_pos rfl] at hretr
      exact absurd (mem_bufferHandles.mpr ⟨h, hretr.symm⟩) hname
    · rintro ⟨htaken, -⟩
      exact absurd htaken hname
  | append req hreg' =>
    rw [hreg] at hreg'
    cases hreg'

/-- Only the first ring of the two asked for fits into the node's memory. -/
def registerTwoRings : DPIAppendBufferRequest where
  name := "buffer"
  nodeId := 1
  segmentsPerWriter := 1
  numberAppenders := 2
  segmentSizes := 16
  register := true

theorem failed_register_unchanged_taken :
    SameEntries (init.setHandle "buffer" registerTwoRings.bufferHandle)
      ((init.setHandle "buffer" registerTwoRings.bufferHandle).setJoined "buffer" 0) :=
  (failed_register_unchanged_iff (RemoteNode.nodes "127.0.0.1:5400") _ _
    (RemoteNode.init 60 (fun _ => 0) []) _ registerTwoRings rfl rfl).mpr ⟨by decide, by decide⟩

/-- A registration that fails at its second ring leaves the buffer registered with one. -/
theorem partial_register_stays :
    ¬ ∀ (r' : RegistryServer) (node' : RemoteNode),
      handle (RemoteNode.nodes "127.0.0.1:5400") init (RemoteNode.init 60 (fun _ => 0) [])
        (.appendBuffer registerTwoRings) =
        some (r', node', .appendBuffer .dpiRegisterBuffhandleFailed) →
      SameEntries init r' := by
  intro h
  have hhandle : (handle (RemoteNode.nodes "127.0.0.1:5400") init
      (RemoteNode.init 60 (fun _ => 0) []) (.appendBuffer registerTwoRings)).map
        (fun served => ((served.1.retrieveBuffer "buffer").map BufferHandle.entrySegments,
          served.2.2)) =
      some (some [⟨0, 16⟩], .appendBuffer .dpiRegisterBuffhandleFailed) := by
    decide
  obtain ⟨⟨r', node', resp⟩, hserved, heq⟩ := Option.map_eq_some_iff.mp hhandle
  simp only [Prod.mk.injEq] at heq
  obtain ⟨hsegments, rfl⟩ := heq
  rw [(h r' node' hserved "buffer").1] at hsegments
  simp [retrieveBuffer, init] at hsegments

/-- A ring the request asks for cannot be created. -/
def RingsRefused (nodes : Nodes ν) (r : RegistryServer) (node : ν) : RegistryRequest → Prop
  | .createRingOnBuffer name => ∀ h, r.retrieveBuffer name = some h →
    ∀ node' segment, createRingOnBuffer nodes node h ≠ some (node', some segment)
  | .appendBuffer req => req.register = true ∧ (req.name ∈ r.bufferHandles ∨
    ∀ node' h, createRings nodes req.numberAppenders node req.bufferHandle ≠ some (node', h, true))
  | _ => False

/-- The request is answered, and with an error code if a ring it asks for is refused. -/
def Answers (nodes : Nodes ν) (r : RegistryServer) (node : ν) (req : RegistryRequest) : Prop :=
  ∃ r' node' resp, handle nodes r node req = some (r', node', resp) ∧
    (RingsRefused nodes r node req → resp.ret ≠ .noError)

/-- A create-ring request for a buffer finds its node configured and memory on it; a
registration that creates rings does not name node zero. -/
def Answerable (nodes : Nodes ν) (r : RegistryServer) (node : ν) : RegistryRequest → Prop
  | .createRingOnBuffer name => ∀ h, r.retrieveBuffer name = some h →
    h.nodeId ≠ 0 ∧ h.nodeId ≤ nodes.dpiNodes.length ∧
      ∀ connection, nodes.getIPFromNodeId h.nodeId = some connection →
        (nodes.remoteAllocSegments node connection h.name h.segmentsPerWriter
          ((h.segmentSizes + segmentHeaderSize) % sizeTBound) h.buffertype).2 ≠ none
  | .appendBuffer req => req.register = true → req.name ∉ r.bufferHandles →
    req.numberAppenders = 0 ∨ req.nodeId ≠ 0
  | _ => True

/-- `getIPFromNodeId` throws for node zero and for ids past the configured nodes. -/
theorem getIPFromNodeId_eq_none_iff (hnodes : nodes.dpiNodes.length < sizeTBound) {nodeId : ℕ}
    (hle : nodeId ≤ nodes.dpiNodes.length) : nodes.getIPFromNodeId nodeId = none ↔ nodeId = 0 := by
  unfold Nodes.getIPFromNodeId
  rw [List.getElem?_eq_none_iff]
  constructor
  · intro hge
    by_contra hne
    have hindex : (nodeId + (sizeTBound - 1)) % sizeTBound = nodeId - 1 := by
      rw [show nodeId + (sizeTBound - 1) = nodeId - 1 + sizeTBound by omega, Nat.add_mod_right,
        Nat.mod_eq_of_lt (by omega)]
    omega
  · rintro rfl
    rw [Nat.zero_add, Nat.mod_eq_of_lt (by omega)]
    omega

theorem createRingOnBuffer_eq_none_iff (hnodes : nodes.dpiNodes.length < sizeTBound)
    {h : BufferHandle} : createRingOnBuffer nodes node h = none ↔ h.nodeId = 0 := by
  unfold createRingOnBuffer
  split_ifs with hid
  · constructor
    · intro hnone
      cases hnone
    · intro hzero
      omega
  · rw [← getIPFromNodeId_eq_none_iff hnodes (Nat.le_of_not_lt hid)]
    cases nodes.getIPFromNodeId h.nodeId <;> simp

theorem createRings_eq_none_iff (hnodes : nodes.dpiNodes.length < sizeTBound) :
    ∀ {numberAppenders : ℕ} {node : ν} {h : BufferHandle},
      createRings nodes numberAppenders node h = none ↔ numberAppenders ≠ 0 ∧ h.nodeId = 0 := by
  intro numberAppenders
  induction numberAppenders with
  | zero => intro node h; simp [createRings]
  | succ n ih =>
    intro node h
    rw [createRings]
    cases hring : createRingOnBuffer nodes node h with
    | none =>
      have hzero := (createRingOnBuffer_eq_none_iff hnodes).mp hring
      simp [hzero]
    | some ring =>
      have hne : h.nodeId ≠ 0 := by
        intro hzero
        rw [(createRingOnBuffer_eq_none_iff hnodes).mpr hzero] at hring
        cases hring
      obtain ⟨node₁, segment⟩ := ring
      cases segment with
      | none => simp [hne]
      | some segment =>
        have hrest : createRings nodes n node₁
            { h with entrySegments := h.entrySegments ++ [segment] } ≠ none := by
          intro hnone
          exact hne (ih.mp hnone).2
        simpa [hne] using hrest

/-- A ring can be created on a configured node that has memory for it. -/
theorem createRingOnBuffer_iff (hnodes : nodes.dpiNodes.length < sizeTBound) {h : BufferHandle} :
    (∃ node' segment, createRingOnBuffer nodes node h = some (node', some segment)) ↔
      h.nodeId ≠ 0 ∧ h.nodeId ≤ nodes.dpiNodes.length ∧
        ∀ connection, nodes.getIPFromNodeId h.nodeId = some connection →
          (nodes.remoteAllocSegments node connection h.name h.segmentsPerWriter
            ((h.segmentSizes + segmentHeaderSize) % sizeTBound) h.buffertype).2 ≠ none := by
  unfold createRingOnBuffer
  split_ifs with hid
  · constructor
    · rintro ⟨node', segment, heq⟩
      cases heq
    · rintro ⟨-, hle, -⟩
      omega
  · have hiff := getIPFromNodeId_eq_none_iff hnodes (Nat.le_of_not_lt hid)
    cases hconn : nodes.getIPFromNodeId h.nodeId with
    | none =>
      constructor
      · rintro ⟨node', segment, heq⟩
        cases heq
      · rintro ⟨hne, -⟩
        exact absurd (hiff.mp hconn) hne
    | some connection =>
      have hne : h.nodeId ≠ 0 := by
        intro hzero
        rw [hiff.mpr hzero] at hconn
        cases hconn
      simp only [Option.bind_some, Option.bind_eq_bind, Option.some.injEq, Prod.mk.injEq,
        forall_eq', ne_eq, hne, not_false_eq_true, Nat.le_of_not_lt hid, true_and]
      cases (nodes.remoteAllocSegments node connection h.name h.segmentsPerWriter
        ((h.segmentSizes + segmentHeaderSize) % sizeTBound) h.buffertype).2 <;> simp

theorem answers_createRing_iff (hnodes : nodes.dpiNodes.length < sizeTBound) {name : String} :
    Answers nodes r node (.createRingOnBuffer name) ↔
      Answerable nodes r node (.createRingOnBuffer name) := by
  cases hname : r.retrieveBuffer name with
  | none =>
    constructor
    · intro _ h hh
      rw [hname] at hh
      cases hh
    · intro _
      refine ⟨r, node, .createRingOnBuffer { ret := .dpiCreateRingOnBufFailed }, ?_, fun _ => ?_⟩
      · simp [handle, handleCreateRing, hname]
      · simp [RegistryResponse.ret]
  | some h =>
    constructor
    · rintro ⟨r', node', resp, hhandle, -⟩ h' hh'
      cases hname.symm.trans hh'
      apply (createRingOnBuffer_iff hnodes).mp
      cases handled_of_handle hhandle with
      | createRingFailed _ hnone =>
        rw [hname] at hnone
        cases hnone
      | createRing _ h' node' segment hname' hring =>
        cases hname.symm.trans hname'
        exact ⟨node', segment, hring⟩
    · intro hanswerable
      obtain ⟨node', segment, hring⟩ := (createRingOnBuffer_iff hnodes).mpr (hanswerable h hname)
      refine ⟨r.setHandle name (h.push [segment]), node',
        .createRingOnBuffer (ringCreated name h segment), ?_, fun hrefused => ?_⟩
      · simp only [handle, handleCreateRing, hname, hring]
        rfl
      · exact absurd hring (hrefused h hname node' segment)

/-- A well kept registry answers every retrieve and every join. -/
theorem WellKept.answers_retrieve (hr : WellKept r) (name : String) (isAppender : Bool) :
    Answers nodes r node (.retrieveBuffer name isAppender) := by
  obtain ⟨r', resp, hretr⟩ := hr.retrieves name isAppender
  refine ⟨r', node, .retrieveBuffer resp, ?_, fun hrefused => hrefused.elim⟩
  simp [handle, hretr]

theorem answers_append_iff (hnodes : nodes.dpiNodes.length < sizeTBound)
    {req : DPIAppendBufferRequest} :
    Answers nodes r node (.appendBuffer req) ↔ Answerable nodes r node (.appendBuffer req) := by
  by_cases hreg : req.register = true
  · by_cases hname : req.name ∈ r.bufferHandles
    · constructor
      · intro _ _ hnot
        exact absurd hname hnot
      · intro _
        refine ⟨r.setJoined req.name 0, node, .appendBuffer .dpiRegisterBuffhandleFailed, ?_,
          fun _ => ?_⟩
        · simp [handle, handleRegister, registerBuffer, hreg, hname]
        · simp [RegistryResponse.ret]
    · have hnone : createRings nodes req.numberAppenders node req.bufferHandle = none ↔
          req.numberAppenders ≠ 0 ∧ req.nodeId = 0 := createRings_eq_none_iff hnodes
      constructor
      · rintro ⟨r', node', resp, hhandle, -⟩ _ _
        by_contra hboth
        push Not at hboth
        cases handled_of_handle hhandle with
        | nameTaken _ _ hname' => exact hname hname'
        | register _ _ h success _ _ hrings =>
          rw [hnone.mpr hboth] at hrings
          cases hrings
        | append _ hreg' =>
          rw [hreg] at hreg'
          cases hreg'
      · intro hanswerable
        have hsome : createRings nodes req.numberAppenders node req.bufferHandle ≠ none := by
          intro hcrash
          obtain ⟨hne, hzero⟩ := hnone.mp hcrash
          exact (hanswerable hreg hname).elim hne fun h => h hzero
        obtain ⟨⟨node', h, success⟩, hrings⟩ := Option.ne_none_iff_exists'.mp hsome
        have hrings' := hrings
        unfold DPIAppendBufferRequest.bufferHandle at hrings
        refine ⟨((r.setHandle req.name req.bufferHandle).setHandle req.name h).setJoined req.name 0,
          node', .appendBuffer (if success then .noError else .dpiRegisterBuffhandleFailed), ?_,
          fun hrefused => ?_⟩
        · simp only [handle, handleRegister, registerBuffer, hreg, hname, if_true, if_false, hrings]
          rfl
        · cases success with
          | false => simp [RegistryResponse.ret]
          | true => exact absurd hrings' (hrefused.2.resolve_left hname node' h)
  · constructor
    · intro _ hreg'
      exact absurd hreg' hreg
    · intro _
      refine ⟨_, node, _, by simp only [handle, if_neg hreg]; rfl, fun hrefused => ?_⟩
      exact absurd hrefused.1 hreg

/-- A reachable registry answers a request exactly when its rings can be created or the
request is a registration on a node other than zero. -/
theorem answers_iff (nodes : Nodes ν) (hnodes : nodes.dpiNodes.length < sizeTBound) (start : ν)
    (s : RegistryServer × ν) (hreach : Reachable (serve nodes) (init, start) s)
    (req : RegistryRequest) : Answers nodes s.1 s.2 req ↔ Answerable nodes s.1 s.2 req := by
  cases req with
  | createRingOnBuffer name => exact answers_createRing_iff hnodes
  | retrieveBuffer name isAppender =>
    exact iff_of_true ((wellKept_reachable hreach).answers_retrieve name isAppender) trivial
  | appendBuffer req => exact answers_append_iff hnodes
  | other => exact iff_of_true ⟨_, _, _, rfl, fun hrefused => hrefused.elim⟩ trivial

/-- Registration of a buffer without rings; any node will do. -/
def registerEmpty (nodeId : ℕ) : DPIAppendBufferRequest where
  name := "buffer"
  nodeId
  segmentsPerWriter := 1
  segmentSizes := 16
  register := true

/-- The registry after such a registration. -/
def withEmptyBuffer (nodeId : ℕ) : RegistryServer :=
  (((init.setHandle "buffer" (registerEmpty nodeId).bufferHandle).setHandle "buffer"
    (registerEmpty nodeId).bufferHandle).setJoined "buffer" 0)

theorem answers_createRing_after_register :
    Answers (RemoteNode.nodes "127.0.0.1:5400") (withEmptyBuffer 1)
      (RemoteNode.init 60 (fun _ => 0) []) (.createRingOnBuffer "buffer") := by
  refine (answers_iff (RemoteNode.nodes "127.0.0.1:5400") (by decide)
    (RemoteNode.init 60 (fun _ => 0) []) (withEmptyBuffer 1, RemoteNode.init 60 (fun _ => 0) [])
    ⟨[.appendBuffer (registerEmpty 1)], rfl⟩ (.createRingOnBuffer "buffer")).mpr ?_
  intro h hh
  obtain rfl : (registerEmpty 1).bufferHandle = h := Option.some.inj hh
  refine ⟨by decide, by decide, fun connection _ => ?_⟩
  rw [← Option.isSome_iff_ne_none]
  show ((RemoteNode.init 60 (fun _ => 0) []).remoteAllocSegments 1 40 .bw).2.isSome = true
  decide

/-- The ring cannot be created on a node that is not configured, and the null segment is
dereferenced. -/
theorem create_ring_unanswered :
    ¬ ∀ s, Reachable (serve (RemoteNode.nodes "127.0.0.1:5400"))
        (init, RemoteNode.init 60 (fun _ => 0) []) s →
      Answers (RemoteNode.nodes "127.0.0.1:5400") s.1 s.2 (.createRingOnBuffer "buffer") := by
  intro h
  have hanswers := h (withEmptyBuffer 2, RemoteNode.init 60 (fun _ => 0) [])
    ⟨[.appendBuffer (registerEmpty 2)], rfl⟩
  obtain ⟨r', node', resp, hhandle, -⟩ := hanswers
  have hnone : handle (RemoteNode.nodes "127.0.0.1:5400") (withEmptyBuffer 2)
      (RemoteNode.init 60 (fun _ => 0) []) (.createRingOnBuffer "buffer") = none := rfl
  rw [hnone] at hhandle
  cases hhandle

end RegistryServer
end DpiLibrary
