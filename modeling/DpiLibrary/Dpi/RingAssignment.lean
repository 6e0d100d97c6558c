import Mathlib.Tactic
import DpiLibrary.Foundation.Schedule
import DpiLibrary.Dpi.RegistryServer

/-!
# Assignment of rings to appenders

A ring goes to an appender by a join, which walks through the entry segments of
the buffer with a counter, or by a create-ring request. A registration creates
the rings the joins are meant for. As long as the joins stay among these, and the
counter is not set back, no ring is handed out twice.
-/

namespace DpiLibrary

open Schedule

variable {ν : Type}

/-- A ring: the connection of its node and the offset of its entry segment. -/
abbrev RingAddr := Option String × ℕ

/-- A successful ring allocation answers an offset not answered before on that node. -/
structure FreshAllocation (nodes : Nodes ν) (issued : ν → Set (String × ℕ)) : Prop where
  grows : ∀ node connection name count size type,
    issued node ⊆ issued (nodes.remoteAllocSegments node connection name count size type).1
  fresh : ∀ node connection name count size type offset,
    (nodes.remoteAllocSegments node connection name count size type).2 = some offset →
      (connection, offset) ∉ issued node
  recorded : ∀ node connection name count size type offset,
    (nodes.remoteAllocSegments node connection name count size type).2 = some offset →
      (connection, offset) ∈
        issued (nodes.remoteAllocSegments node connection name count size type).1

namespace RegistryServer

def ringOf (nodes : Nodes ν) (nodeId : ℕ) (segment : BufferSegment) : RingAddr :=
  (nodes.getIPFromNodeId nodeId, segment.offset)

/-- A ring whose allocation some node has answered. -/
def Issued (issued : ν → Set (String × ℕ)) (node : ν) (ring : RingAddr) : Prop :=
  ∃ connection, ring.1 = some connection ∧ (connection, ring.2) ∈ issued node

theorem createRingOnBuffer_spec {nodes : Nodes ν} {issued : ν → Set (String × ℕ)}
    (hfresh : FreshAllocation nodes issued) {node node' : ν} {h : BufferHandle}
    {segment : Option BufferSegment}
    (hring : createRingOnBuffer nodes node h = some (node', segment)) :
    issued node ⊆ issued node' ∧
      ∀ s, segment = some s → ¬ Issued issued node (ringOf nodes h.nodeId s) ∧
        Issued issued node' (ringOf nodes h.nodeId s) := by
  unfold createRingOnBuffer at hring
  split_ifs at hring with hid
  · cases hring
    exact ⟨subset_rfl, by simp⟩
  · obtain ⟨connection, hconn, hring⟩ := Option.bind_eq_some_iff.mp hring
    simp only [Option.some.injEq, Prod.mk.injEq] at hring
    obtain ⟨rfl, rfl⟩ := hring
    refine ⟨hfresh.grows _ _ _ _ _ _, fun s hs => ?_⟩
    obtain ⟨offset, hoffset, rfl⟩ := Option.map_eq_some_iff.mp hs
    constructor
    · rintro ⟨c, hc, hmem⟩
      have hcc : c = connection := Option.some.inj (hc.symm.trans hconn)
      subst hcc
      exact hfresh.fresh _ _ _ _ _ _ offset hoffset hmem
    · exact ⟨connection, hconn, hfresh.recorded _ _ _ _ _ _ offset hoffset⟩

theorem Issued.mono {issued : ν → Set (String × ℕ)} {node node' : ν} {ring : RingAddr}
    (hsub : issued node ⊆ issued node') (h : Issued issued node ring) :
    Issued issued node' ring := by
  obtain ⟨c, hc, hmem⟩ := h
  exact ⟨c, hc, hsub hmem⟩

/-- The rings of a handle. -/
def rings (nodes : Nodes ν) (h : BufferHandle) : List RingAddr :=
  h.entrySegments.map (ringOf nodes h.nodeId)

/-- The rings a registration adds to a handle are new, distinct and issued. -/
theorem createRings_spec {nodes : Nodes ν} {issued : ν → Set (String × ℕ)}
    (hfresh : FreshAllocation nodes issued) :
    ∀ (numberAppenders : ℕ) (node node' : ν) (h h' : BufferHandle) (success : Bool),
      createRings nodes numberAppenders node h = some (node', h', success) →
      issued node ⊆ issued node' ∧
        ∃ added, rings nodes h' = rings nodes h ++ added ∧ added.Nodup ∧
          ∀ ring ∈ added, ¬ Issued issued node ring ∧ Issued issued node' ring := by
  intro numberAppenders
  induction numberAppenders with
  | zero =>
    intro node node' h h' success hrun
    simp only [createRings, Option.some.injEq, Prod.mk.injEq] at hrun
    obtain ⟨rfl, rfl, rfl⟩ := hrun
    exact ⟨subset_rfl, [], by simp, List.nodup_nil, by simp⟩
  | succ n ih =>
    intro node node' h h' success hrun
    rw [createRings] at hrun
    obtain ⟨⟨node₁, segment⟩, hring, hrest⟩ := Option.bind_eq_some_iff.mp hrun
    obtain ⟨hsub, hnew⟩ := createRingOnBuffer_spec hfresh hring
    cases segment with
    | none =>
      simp only [Option.some.injEq, Prod.mk.injEq] at hrest
      obtain ⟨rfl, rfl, rfl⟩ := hrest
      exact ⟨hsub, [], by simp, List.nodup_nil, by simp⟩
    | some s =>
      obtain ⟨hsub', added, hrings, hnodup, hadded⟩ := ih _ _ _ _ _ hrest
      obtain ⟨hnot, hissued⟩ := hnew s rfl
      have hid : ringOf nodes h.nodeId s ∉ added := fun hmem => (hadded _ hmem).1 hissued
      refine ⟨hsub.trans hsub', ringOf nodes h.nodeId s :: added, ?_, ?_, ?_⟩
      · simpa [rings] using hrings
      · exact List.nodup_cons.mpr ⟨hid, hnodup⟩
      · intro ring hring
        rcases List.mem_cons.mp hring with rfl | hmem
        · exact ⟨hnot, hissued.mono hsub'⟩
        · exact ⟨fun h => (hadded ring hmem).1 (h.mono hsub), (hadded ring hmem).2⟩

end RegistryServer

open RegistryServer

/-- The registry and the nodes during a run, with two records of its history: the
rings handed to appenders so far and how many rings the registration of each name
has created. -/
structure Assignment (ν : Type) where
  registry : RegistryServer
  node : ν
  handed : List RingAddr
  registered : String → ℕ

namespace Assignment

def start (node : ν) : Assignment ν := ⟨.init, node, [], fun _ => 0⟩

/-- The rings a response hands to an appender. -/
def handedRings (nodes : Nodes ν) : RegistryRequest → RegistryResponse → List RingAddr
  | .createRingOnBuffer _, .createRingOnBuffer resp =>
    resp.segment.toList.map (ringOf nodes resp.nodeId)
  | .retrieveBuffer _ true, .retrieveBuffer resp => resp.segment.map (ringOf nodes resp.nodeId)
  | _, _ => []

def countRegistered (before after : RegistryServer) (registered : String → ℕ) :
    RegistryRequest → String → ℕ
  | .appendBuffer req =>
    if req.register = true ∧ req.name ∉ before.bufferHandles then
      Function.update registered req.name
        ((after.retrieveBuffer req.name).elim 0 fun h => h.entrySegments.length)
    else registered
  | _ => registered

def step (nodes : Nodes ν) (s : Assignment ν) (req : RegistryRequest) : Option (Assignment ν) :=
  (handle nodes s.registry s.node req).map fun (registry, node, resp) => {
    registry
    node
    handed := handedRings nodes req resp ++ s.handed
    registered := countRegistered s.registry registry s.registered req }

/-- A registration does not set a counter back that joins have moved, and a join that is
not refused takes one of the rings the registration created. -/
def WithinRegistration (s : Assignment ν) : RegistryRequest → Prop
  | .appendBuffer req =>
    req.register = true → req.name ∉ s.registry.bufferHandles ∨ s.registry.joined req.name = 0
  | .retrieveBuffer name isAppender =>
    isAppender = true → ∀ h ∈ s.registry.retrieveBuffer name,
      s.registry.joined name = h.entrySegments.length ∨
        s.registry.joined name < s.registered name
  | _ => True

instance (s : Assignment ν) : ∀ req, Decidable (s.WithinRegistration req)
  | .appendBuffer req => inferInstanceAs (Decidable (req.register = true →
      req.name ∉ s.registry.bufferHandles ∨ s.registry.joined req.name = 0))
  | .retrieveBuffer name isAppender => inferInstanceAs (Decidable (isAppender = true →
      ∀ h ∈ s.registry.retrieveBuffer name, s.registry.joined name = h.entrySegments.length ∨
        s.registry.joined name < s.registered name))
  | .createRingOnBuffer _ => .isTrue trivial
  | .other => .isTrue trivial

/-- The `i`-th ring created by the registration of `name`. -/
def RegisteredRing (nodes : Nodes ν) (s : Assignment ν) (name : String) (i : ℕ) (ring : RingAddr) :
    Prop :=
  i < s.registered name ∧
    ∃ h, s.registry.retrieveBuffer name = some h ∧ (rings nodes h)[i]? = some ring

/-- Registered rings have been issued and are all different, and those the join counters
have not reached have not been handed out. -/
structure Inv (nodes : Nodes ν) (issued : ν → Set (String × ℕ)) (s : Assignment ν) : Prop where
  counted : ∀ name h, s.registry.retrieveBuffer name = some h →
    s.registered name ≤ h.entrySegments.length
  registered_issued : ∀ name i ring, s.RegisteredRing nodes name i ring →
    Issued issued s.node ring
  registered_inj : ∀ name i name' i' ring, s.RegisteredRing nodes name i ring →
    s.RegisteredRing nodes name' i' ring → name = name' ∧ i = i'
  handed_issued : ∀ ring ∈ s.handed, Issued issued s.node ring
  unreached : ∀ name i ring, s.RegisteredRing nodes name i ring →
    s.registry.joined name ≤ i → ring ∉ s.handed
  nodup : s.handed.Nodup

theorem inv_start (nodes : Nodes ν) (issued : ν → Set (String × ℕ)) (node : ν) :
    Inv nodes issued (start node) where
  counted _ _ _ := Nat.zero_le _
  registered_issued _ i _ h := absurd h.1 (Nat.not_lt_zero i)
  registered_inj _ i _ _ _ h _ := absurd h.1 (Nat.not_lt_zero i)
  handed_issued _ h := absurd h List.not_mem_nil
  unreached _ i _ h _ := absurd h.1 (Nat.not_lt_zero i)
  nodup := List.nodup_nil

end Assignment

/-- Every handle of `after` was there before, and its rings have only been added to. -/
def RegistryServer.Extends (nodes : Nodes ν) (before after : RegistryServer) : Prop :=
  ∀ name h', after.retrieveBuffer name = some h' →
    ∃ h, before.retrieveBuffer name = some h ∧ rings nodes h <+: rings nodes h'

namespace RegistryServer

theorem Extends.refl (nodes : Nodes ν) (r : RegistryServer) : Extends nodes r r :=
  fun _ h hh => ⟨h, hh, List.prefix_refl _⟩

theorem Extends.trans {nodes : Nodes ν} {r₁ r₂ r₃ : RegistryServer} (h₁ : Extends nodes r₁ r₂)
    (h₂ : Extends nodes r₂ r₃) : Extends nodes r₁ r₃ := by
  intro name h₃ hh₃
  obtain ⟨h, hh, hpre⟩ := h₂ name h₃ hh₃
  obtain ⟨h', hh', hpre'⟩ := h₁ name h hh
  exact ⟨h', hh', hpre'.trans hpre⟩

theorem extends_push {nodes : Nodes ν} {r : RegistryServer} {name : String} {h : BufferHandle}
    (hh : r.retrieveBuffer name = some h) (segment : BufferSegment) :
    Extends nodes r
      (r.setHandle name { h with entrySegments := h.entrySegments ++ [segment] }) := by
  intro other h' hh'
  rw [retrieveBuffer_setHandle] at hh'
  split_ifs at hh' with heq
  · cases hh'
    exact ⟨h, by rw [heq, hh], by simp [rings]⟩
  · exact ⟨h', hh', List.prefix_refl _⟩

theorem extends_appendSegments (nodes : Nodes ν) (segments : List BufferSegment) :
    ∀ (r : RegistryServer) (name : String),
      Extends nodes r (r.appendSegments name segments).1 ∧
        (r.appendSegments name segments).1.appendersJoinedBuffer = r.appendersJoinedBuffer := by
  induction segments with
  | nil => exact fun r name => ⟨Extends.refl nodes r, rfl⟩
  | cons segment segments ih =>
    intro r name
    cases hh : r.retrieveBuffer name with
    | none =>
      simp only [appendSegments, appendSegment, hh, Bool.false_eq_true, if_false]
      exact ⟨Extends.refl nodes r, trivial⟩
    | some h =>
      simp only [appendSegments, appendSegment, hh, if_true]
      obtain ⟨hext, hjoin⟩ :=
        ih (r.setHandle name { h with entrySegments := h.entrySegments ++ [segment] }) name
      exact ⟨(extends_push hh segment).trans hext, hjoin⟩

end RegistryServer

namespace Assignment

/-- The common part of all steps but a first registration: registered rings stay what
they were, no counter goes back, and the rings handed out now are neither handed out
before nor among those still to be joined. -/
theorem Inv.extend {nodes : Nodes ν} {issued : ν → Set (String × ℕ)} {s s' : Assignment ν}
    (hs : Inv nodes issued s) (hext : Extends nodes s.registry s'.registry)
    (hreg : s'.registered = s.registered) (hnode : issued s.node ⊆ issued s'.node)
    (hjoined : ∀ name, s.registry.joined name ≤ s'.registry.joined name)
    {new : List RingAddr} (hhanded : s'.handed = new ++ s.handed) (hnodup : new.Nodup)
    (hissued : ∀ ring ∈ new, Issued issued s'.node ring) (hnew : ∀ ring ∈ new, ring ∉ s.handed)
    (hreach : ∀ ring ∈ new, ∀ name i, s.RegisteredRing nodes name i ring →
      i < s'.registry.joined name) : Inv nodes issued s' := by
  have hback : ∀ name i ring, s'.RegisteredRing nodes name i ring →
      s.RegisteredRing nodes name i ring := by
    rintro name i ring ⟨hi, h', hh', hring⟩
    obtain ⟨h, hh, hpre⟩ := hext name h' hh'
    rw [hreg] at hi
    have hlt : i < (rings nodes h).length := by
      have := hs.counted name h hh
      simp only [rings, List.length_map]
      omega
    refine ⟨hi, h, hh, ?_⟩
    obtain ⟨rest, hrest⟩ := hpre
    rwa [← hrest, List.getElem?_append_left hlt] at hring
  refine ⟨?_, ?_, ?_, ?_, ?_, ?_⟩
  · intro name h' hh'
    obtain ⟨h, hh, hpre⟩ := hext name h' hh'
    have hlen := hpre.length_le
    have := hs.counted name h hh
    simp only [rings, List.length_map] at hlen
    rw [hreg]
    omega
  · exact fun name i ring h => (hs.registered_issued name i ring (hback _ _ _ h)).mono hnode
  · exact fun name i name' i' ring h h' =>
      hs.registered_inj name i name' i' ring (hback _ _ _ h) (hback _ _ _ h')
  · intro ring hmem
    rw [hhanded] at hmem
    rcases List.mem_append.mp hmem with hmem | hmem
    · exact hissued ring hmem
    · exact (hs.handed_issued ring hmem).mono hnode
  · intro name i ring h hle hmem
    rw [hhanded] at hmem
    rcases List.mem_append.mp hmem with hmem | hmem
    · have := hreach ring hmem name i (hback _ _ _ h)
      omega
    · exact hs.unreached name i ring (hback _ _ _ h) ((hjoined name).trans hle) hmem
  · rw [hhanded]
    refine List.nodup_append'.mpr ⟨hnodup, hs.nodup, ?_⟩
    exact fun ring hmem hmem' => hnew ring hmem hmem'

theorem inv_createRing {nodes : Nodes ν} {issued : ν → Set (String × ℕ)}
    (hfresh : FreshAllocation nodes issued) {s s' : Assignment ν} {name : String}
    (hs : Inv nodes issued s) (h : s.step nodes (.createRingOnBuffer name) = some s') :
    Inv nodes issued s' := by
  obtain ⟨⟨r, node, resp⟩, hhandle, rfl⟩ := Option.map_eq_some_iff.mp h
  obtain ⟨⟨r', node', resp'⟩, hring, heq⟩ := Option.map_eq_some_iff.mp hhandle
  cases heq
  cases hh : s.registry.retrieveBuffer name with
  | none =>
    simp only [handleCreateRing, hh, Option.some.injEq, Prod.mk.injEq] at hring
    obtain ⟨rfl, rfl, rfl⟩ := hring
    exact hs.extend (Extends.refl _ _) rfl subset_rfl (fun _ => le_rfl)
      (show _ = [] ++ s.handed from rfl) List.nodup_nil (by simp) (by simp) (by simp)
  | some buf =>
    simp only [handleCreateRing, hh] at hring
    obtain ⟨⟨node₁, segment⟩, hcreate, hrest⟩ := Option.bind_eq_some_iff.mp hring
    obtain ⟨seg, rfl, hrest⟩ := Option.bind_eq_some_iff.mp hrest
    simp only [Option.some.injEq, Prod.mk.injEq] at hrest
    obtain ⟨rfl, rfl, rfl⟩ := hrest
    obtain ⟨hsub, hnew⟩ := createRingOnBuffer_spec hfresh hcreate
    obtain ⟨hnot, hissued⟩ := hnew seg rfl
    refine hs.extend (extends_push hh seg) rfl hsub (fun _ => le_rfl)
      (show _ = [ringOf nodes buf.nodeId seg] ++ s.handed from rfl) (List.nodup_singleton _)
      ?_ ?_ ?_
    · exact fun ring hmem => List.mem_singleton.mp hmem ▸ hissued
    · intro ring hmem hhanded
      exact hnot (List.mem_singleton.mp hmem ▸ hs.handed_issued ring hhanded)
    · intro ring hmem name' i hreg
      exact absurd (List.mem_singleton.mp hmem ▸ hs.registered_issued _ _ _ hreg) hnot

theorem inv_retrieve {nodes : Nodes ν} {issued : ν → Set (String × ℕ)} {s s' : Assignment ν}
    {name : String} {isAppender : Bool} (hs : Inv nodes issued s)
    (hwithin : s.WithinRegistration (.retrieveBuffer name isAppender))
    (h : s.step nodes (.retrieveBuffer name isAppender) = some s') : Inv nodes issued s' := by
  obtain ⟨⟨r, node, resp⟩, hhandle, rfl⟩ := Option.map_eq_some_iff.mp h
  obtain ⟨⟨r', resp'⟩, hretr, heq⟩ := Option.map_eq_some_iff.mp hhandle
  cases heq
  cases hh : s.registry.retrieveBuffer name with
  | none =>
    simp only [handleRetrieve, hh, Option.some.injEq, Prod.mk.injEq] at hretr
    obtain ⟨rfl, rfl⟩ := hretr
    exact hs.extend (Extends.refl _ _) rfl subset_rfl (fun _ => le_rfl)
      (show _ = [] ++ s.handed by cases isAppender <;> rfl) List.nodup_nil (by simp) (by simp)
      (by simp)
  | some buf =>
    cases isAppender with
    | false =>
      simp only [handleRetrieve, hh, Bool.false_eq_true, if_false, Option.some.injEq,
        Prod.mk.injEq] at hretr
      obtain ⟨rfl, rfl⟩ := hretr
      exact hs.extend (Extends.refl _ _) rfl subset_rfl (fun _ => le_rfl)
        (show _ = [] ++ s.handed from rfl) List.nodup_nil (by simp) (by simp) (by simp)
    | true =>
      simp only [handleRetrieve, hh, if_true] at hretr
      split_ifs at hretr with hfull
      · cases hretr
        refine hs.extend (Extends.refl _ _) rfl subset_rfl (fun other => ?_)
          (show _ = [] ++ s.handed from rfl) List.nodup_nil (by simp) (by simp) (by simp)
        simp only [joined_setJoined]
        split_ifs with hname
        · rw [hname]
        · exact le_rfl
      · obtain ⟨seg, hseg, hretr⟩ := Option.bind_eq_some_iff.mp hretr
        cases hretr
        have hlt : s.registry.joined name < s.registered name :=
          (hwithin rfl buf hh).resolve_left hfull
        have hreg : s.RegisteredRing nodes name (s.registry.joined name)
            (ringOf nodes buf.nodeId seg) := by
          refine ⟨hlt, buf, hh, ?_⟩
          simp [rings, hseg]
        refine hs.extend (Extends.refl _ _) rfl subset_rfl (fun other => ?_)
          (show _ = [ringOf nodes buf.nodeId seg] ++ s.handed from rfl) (List.nodup_singleton _)
          ?_ ?_ ?_
        · simp only [joined_setJoined]
          split_ifs with hname
          · rw [hname]
            omega
          · exact le_rfl
        · exact fun ring hmem => List.mem_singleton.mp hmem ▸ hs.registered_issued _ _ _ hreg
        · exact fun ring hmem => List.mem_singleton.mp hmem ▸ hs.unreached _ _ _ hreg le_rfl
        · intro ring hmem name' i hreg'
          rw [List.mem_singleton.mp hmem] at hreg'
          obtain ⟨rfl, rfl⟩ := hs.registered_inj _ _ _ _ _ hreg hreg'
          simp

theorem inv_appendSegments {nodes : Nodes ν} {issued : ν → Set (String × ℕ)} {s s' : Assignment ν}
    {req : DPIAppendBufferRequest} (hs : Inv nodes issued s) (hreq : req.register = false)
    (h : s.step nodes (.appendBuffer req) = some s') : Inv nodes issued s' := by
  obtain ⟨⟨r, node, resp⟩, hhandle, rfl⟩ := Option.map_eq_some_iff.mp h
  simp only [handle, hreq, Bool.false_eq_true, if_false, Option.some.injEq,
    Prod.mk.injEq] at hhandle
  obtain ⟨rfl, rfl, rfl⟩ := hhandle
  obtain ⟨hext, hjoin⟩ := extends_appendSegments nodes req.segment s.registry req.name
  refine hs.extend hext (by simp [countRegistered, hreq]) subset_rfl (fun name => ?_)
    (show _ = [] ++ s.handed from rfl) List.nodup_nil (by simp) (by simp) (by simp)
  simp only [joined, hjoin]
  exact le_rfl

/-- A handle whose rings are all fresh is added: they differ from all registered ones and
from all handed out. -/
theorem Inv.addHandle {nodes : Nodes ν} {issued : ν → Set (String × ℕ)} {s s' : Assignment ν}
    (hs : Inv nodes issued s) (name : String) (buf : BufferHandle)
    (hretr : ∀ other, s'.registry.retrieveBuffer other =
      if other = name then some buf else s.registry.retrieveBuffer other)
    (hjoined : ∀ other, other ≠ name → s'.registry.joined other = s.registry.joined other)
    (hreg : s'.registered = Function.update s.registered name buf.entrySegments.length)
    (hhanded : s'.handed = s.handed) (hnode : issued s.node ⊆ issued s'.node)
    (hnodup : (rings nodes buf).Nodup)
    (hfresh : ∀ ring ∈ rings nodes buf,
      ¬ Issued issued s.node ring ∧ Issued issued s'.node ring) : Inv nodes issued s' := by
  have hsplit : ∀ other i ring, s'.RegisteredRing nodes other i ring →
      other = name ∧ (rings nodes buf)[i]? = some ring ∨
        other ≠ name ∧ s.RegisteredRing nodes other i ring := by
    rintro other i ring ⟨hi, h, hh, hring⟩
    rw [hretr] at hh
    rw [hreg] at hi
    by_cases heq : other = name
    · rw [if_pos heq] at hh
      cases hh
      exact Or.inl ⟨heq, hring⟩
    · rw [if_neg heq] at hh
      rw [Function.update_of_ne heq] at hi
      exact Or.inr ⟨heq, hi, h, hh, hring⟩
  refine ⟨?_, ?_, ?_, ?_, ?_, ?_⟩
  · intro other h hh
    rw [hretr] at hh
    rw [hreg]
    by_cases heq : other = name
    · rw [if_pos heq] at hh
      cases hh
      rw [heq, Function.update_self]
    · rw [if_neg heq] at hh
      rw [Function.update_of_ne heq]
      exact hs.counted other h hh
  · intro other i ring h
    rcases hsplit other i ring h with ⟨-, hring⟩ | ⟨-, hold⟩
    · exact (hfresh ring (List.mem_of_getElem? hring)).2
    · exact (hs.registered_issued other i ring hold).mono hnode
  · intro other i other' i' ring h h'
    rcases hsplit other i ring h with ⟨rfl, hring⟩ | ⟨hne, hold⟩ <;>
      rcases hsplit other' i' ring h' with ⟨rfl, hring'⟩ | ⟨hne', hold'⟩
    · have hlt : i < (rings nodes buf).length := (List.getElem?_eq_some_iff.mp hring).1
      exact ⟨rfl, (List.getElem?_inj hlt hnodup).mp (hring.trans hring'.symm)⟩
    · exact absurd (hs.registered_issued _ _ _ hold') (hfresh ring (List.mem_of_getElem? hring)).1
    · exact absurd (hs.registered_issued _ _ _ hold) (hfresh ring (List.mem_of_getElem? hring')).1
    · exact hs.registered_inj _ _ _ _ _ hold hold'
  · intro ring hmem
    rw [hhanded] at hmem
    exact (hs.handed_issued ring hmem).mono hnode
  · intro other i ring h hle hmem
    rw [hhanded] at hmem
    rcases hsplit other i ring h with ⟨-, hring⟩ | ⟨hne, hold⟩
    · exact (hfresh ring (List.mem_of_getElem? hring)).1 (hs.handed_issued ring hmem)
    · rw [hjoined other hne] at hle
      exact hs.unreached _ _ _ hold hle hmem
  · rw [hhanded]
    exact hs.nodup

theorem inv_register {nodes : Nodes ν} {issued : ν → Set (String × ℕ)}
    (hfresh : FreshAllocation nodes issued) {s s' : Assignment ν}
    {req : DPIAppendBufferRequest} (hs : Inv nodes issued s) (hreq : req.register = true)
    (hwithin : s.WithinRegistration (.appendBuffer req))
    (h : s.step nodes (.appendBuffer req) = some s') : Inv nodes issued s' := by
  obtain ⟨⟨r, node, resp⟩, hhandle, rfl⟩ := Option.map_eq_some_iff.mp h
  simp only [handle, hreq, if_true] at hhandle
  obtain ⟨⟨r', node', ret⟩, hregister, heq⟩ := Option.map_eq_some_iff.mp hhandle
  cases heq
  by_cases hname : req.name ∈ s.registry.bufferHandles
  · -- the name is taken: only the counter is written, and it was zero
    have hzero := (hwithin hreq).resolve_left (not_not.mpr hname)
    simp only [handleRegister, registerBuffer, hname, if_true, Bool.false_eq_true, if_false,
      Option.some.injEq, Prod.mk.injEq] at hregister
    obtain ⟨rfl, rfl, rfl⟩ := hregister
    refine hs.extend (Extends.refl _ _) (by simp [countRegistered, hname]) subset_rfl
      (fun other => ?_) (show _ = [] ++ s.handed from rfl) List.nodup_nil (by simp) (by simp)
      (by simp)
    simp only [joined_setJoined]
    split_ifs with heq
    · rw [heq, hzero]
    · exact le_rfl
  · simp only [handleRegister, registerBuffer, hname, if_false, if_true] at hregister
    obtain ⟨⟨node₁, buf, success⟩, hcreate, hrest⟩ := Option.bind_eq_some_iff.mp hregister
    cases hrest
    obtain ⟨hsub, added, hrings, hnodup, hadded⟩ := createRings_spec hfresh _ _ _ _ _ _ hcreate
    have hnew : rings nodes buf = added := by simpa [rings] using hrings
    subst hnew
    refine hs.addHandle req.name buf (fun other => ?_) (fun other hne => ?_) ?_ rfl hsub
      hnodup hadded
    · simp only [retrieveBuffer_setJoined, retrieveBuffer_setHandle]
      split_ifs <;> rfl
    · simp [hne]
    · simp [countRegistered, hreq, hname]

theorem inv_step {nodes : Nodes ν} {issued : ν → Set (String × ℕ)}
    (hfresh : FreshAllocation nodes issued) {s s' : Assignment ν} {req : RegistryRequest}
    (hs : Inv nodes issued s) (hwithin : s.WithinRegistration req)
    (h : s.step nodes req = some s') : Inv nodes issued s' := by
  cases req with
  | createRingOnBuffer name => exact inv_createRing hfresh hs h
  | retrieveBuffer name isAppender => exact inv_retrieve hs hwithin h
  | appendBuffer req =>
    cases hreq : req.register with
    | false => exact inv_appendSegments hs hreq h
    | true => exact inv_register hfresh hs hreq hwithin h
  | other =>
    cases h
    exact hs.extend (Extends.refl _ _) rfl subset_rfl (fun _ => le_rfl)
      (show _ = [] ++ s.handed from rfl) List.nodup_nil (by simp) (by simp) (by simp)

/-- No ring is handed to two appenders in a run whose joins stay within the rings of the
registrations. -/
theorem handed_nodup_throughout {nodes : Nodes ν} {issued : ν → Set (String × ℕ)}
    (hfresh : FreshAllocation nodes issued) (node : ν) (requests : List RegistryRequest)
    (hwithin : EachStep (step nodes) WithinRegistration (start node) requests) :
    Throughout (step nodes) (fun s => s.handed.Nodup) (start node) requests := by
  have hinv : Throughout (step nodes) (Inv nodes issued) (start node) requests :=
    EachStep.throughout (fun s req s' hs hG hstep => inv_step hfresh hs hG hstep) requests _
      (inv_start nodes issued node) hwithin
  exact fun pre s hpre hs => (hinv pre s hpre hs).nodup

/-- One node whose memory is handed out from front to back, as first fit does while
nothing is freed; the state is the first byte not handed out. -/
def frontToBack (memSize : ℕ) : Nodes ℕ where
  dpiNodes := ["127.0.0.1:5400"]
  remoteAllocSegments top _ _ count size type :=
    let counterSize := if type = .lat then 8 else 0
    if 0 < count * size ∧ top + (counterSize + count * size) ≤ memSize then
      (top + (counterSize + count * size), some (top + counterSize))
    else (top, none)

theorem freshAllocation_frontToBack (memSize : ℕ) :
    FreshAllocation (frontToBack memSize) fun top => {ring | ring.2 < top} where
  grows top connection name count size type ring hring := by
    simp only [frontToBack, Set.mem_ofPred_eq] at hring ⊢
    split_ifs <;> simp only <;> omega
  fresh top connection name count size type offset h := by
    simp only [frontToBack] at h
    split_ifs at h <;> simp only [Option.some.injEq] at h <;>
      simp only [Set.mem_ofPred_eq] <;> omega
  recorded top connection name count size type offset h := by
    simp only [frontToBack] at h ⊢
    split_ifs at h ⊢ with hfit <;> simp only [Option.some.injEq] at h <;>
      simp only [Set.mem_ofPred_eq] <;> omega

/-- Registration of a buffer with two appenders on node 1. -/
def registerTwo : RegistryRequest := .appendBuffer {
  name := "buffer"
  nodeId := 1
  segmentsPerWriter := 2
  numberAppenders := 2
  segmentSizes := 100
  register := true }

theorem handed_nodup_two_joins :
    Throughout (step (frontToBack 5000)) (fun s => s.handed.Nodup) (start 0)
      [registerTwo, .retrieveBuffer "buffer" true, .createRingOnBuffer "buffer",
        .retrieveBuffer "buffer" true] :=
  handed_nodup_throughout (freshAllocation_frontToBack 5000) 0 _ (by decide)

/-- A second registration of the name is refused, but sets the join counter back: the
next join gets the first ring again. -/
theorem handed_twice_after_second_register :
    ¬ Throughout (step (frontToBack 5000)) (fun s => s.handed.Nodup) (start 0)
      [registerTwo, .retrieveBuffer "buffer" true, registerTwo,
        .retrieveBuffer "buffer" true] := by
  intro h
  have hhanded : (exec (step (frontToBack 5000)) (start 0)
      [registerTwo, .retrieveBuffer "buffer" true, registerTwo,
        .retrieveBuffer "buffer" true]).map Assignment.handed =
      some [(some "127.0.0.1:5400", 0), (some "127.0.0.1:5400", 0)] := by
    decide
  obtain ⟨s, hs, heq⟩ := Option.map_eq_some_iff.mp hhanded
  have hnodup : s.handed.Nodup := h _ s (List.prefix_refl _) hs
  rw [heq] at hnodup
  simp at hnodup

end Assignment
end DpiLibrary
