import DpiLibrary.Dpi.BufferHandle
import DpiLibrary.Rdma.AllocatorCoverage

/-!
# Clients of one memory server

The server does not know who asks: a live block is found by its offset alone. What
each client was granted and has not released yet is kept beside the server. As long
as no two grants share an offset, the records of the server are the grants, and a
release frees what its client was granted.
-/

namespace DpiLibrary

open Schedule

/-- Values of the type field of a `MemoryResourceRequest`. -/
inductive MessageTypesEnum where
  | memoryResourceRequest
  | memoryResourceRelease
  | other
  deriving DecidableEq, Repr

/-- Fields of `MemoryResourceRequest` that the server reads. -/
structure MemoryResourceRequest where
  size : ℕ := 0
  offset : ℕ := 0
  type : MessageTypesEnum := .memoryResourceRequest
  deriving DecidableEq, Repr

structure MemoryResourceResponse where
  offset : ℕ := 0
  ret : MessageErrors := .noError
  deriving DecidableEq, Repr

namespace RDMAServer

def requestMemoryResource (m : RDMAManager) (size : ℕ) : RDMAManager × ℕ × MessageErrors :=
  let (m, memRes) := m.internalAlloc size
  (m, memRes.offset, if memRes.isnull then .memoryNotAvailable else .noError)

def releaseMemoryResource (m : RDMAManager) (offset : ℕ) : RDMAManager × MessageErrors :=
  let (m, freed) := m.internalFree offset
  (m, if freed then .noError else .memoryReleaseFailed)

/-- The branch of `handle` for a `MemoryResourceRequest`. A request of another type is
answered with an empty response. -/
def handle (m : RDMAManager) (reqMsg : MemoryResourceRequest) :
    RDMAManager × MemoryResourceResponse :=
  match reqMsg.type with
  | .memoryResourceRelease =>
    let (m, ret) := releaseMemoryResource m reqMsg.offset
    (m, { ret, offset := reqMsg.offset })
  | .memoryResourceRequest =>
    let (m, offset, ret) := requestMemoryResource m reqMsg.size
    (m, { ret, offset })
  | .other => (m, {})

end RDMAServer

/-- A block that a client was granted and has not released yet. -/
structure Grant (Client : Type) where
  client : Client
  offset : ℕ
  size : ℕ
  deriving DecidableEq, Repr

namespace Grant

variable {Client : Type}

def span (g : Grant Client) : Span := ⟨g.offset, g.size⟩

/-- What the server records of a grant. -/
def record (g : Grant Client) : RdmaMem := .ofBlock g.size false g.offset

@[simp] theorem record_span (g : Grant Client) : g.record.span = g.span := rfl

end Grant

/-- The server and what its clients hold. -/
structure MemoryClients (Client : Type) where
  manager : RDMAManager
  grants : List (Grant Client)

namespace MemoryClients

variable {Client : Type} [DecidableEq Client]

def init (memSize : ℕ) : MemoryClients Client := ⟨.init memSize, []⟩

/-- The grant is the one that the client releases by naming this offset. -/
def Names (client : Client) (offset : ℕ) (g : Grant Client) : Prop :=
  g.client = client ∧ g.offset = offset

instance (client : Client) (offset : ℕ) (g : Grant Client) : Decidable (Names client offset g) :=
  inferInstanceAs (Decidable (_ ∧ _))

/-- One message of one client. A client releases only what it holds. -/
def step (s : MemoryClients Client) : Client × MemoryResourceRequest → Option (MemoryClients Client)
  | (client, reqMsg) =>
    let (manager, resp) := RDMAServer.handle s.manager reqMsg
    match reqMsg.type with
    | .memoryResourceRequest =>
      some { manager, grants :=
        if resp.ret = .noError then ⟨client, resp.offset, reqMsg.size⟩ :: s.grants else s.grants }
    | .memoryResourceRelease =>
      if ∃ g ∈ s.grants, Names client reqMsg.offset g then
        some { manager, grants := s.grants.eraseP (Names client reqMsg.offset ·) }
      else none
    | .other => some { s with manager }

/-- No byte is granted twice, and no granted byte is handed out again. -/
structure Protected (s : MemoryClients Client) : Prop where
  disjoint : s.grants.Pairwise fun g g' => ∀ x, g.span.Contains x → ¬ g'.span.Contains x
  unavailable : ∀ g ∈ s.grants, ∀ x, g.span.Contains x → ¬ s.manager.Available x

/-- A release succeeds and makes exactly the block of its client available. -/
def FreesExactly (s : MemoryClients Client) : Client × MemoryResourceRequest → Prop
  | (client, reqMsg) =>
    reqMsg.type = .memoryResourceRelease → ∀ g ∈ s.grants, Names client reqMsg.offset g →
      (RDMAServer.handle s.manager reqMsg).2.ret = .noError ∧
        ∀ x, (RDMAServer.handle s.manager reqMsg).1.Available x ↔
          s.manager.Available x ∨ g.span.Contains x

/-- A request is not served from a free block at whose offset a grant is held, and a
release finds a place in the free list. -/
def Guarded (s : MemoryClients Client) : Client × MemoryResourceRequest → Prop
  | (_, reqMsg) =>
    match reqMsg.type with
    | .memoryResourceRequest =>
      ∀ b ∈ s.manager.servedFrom reqMsg.size, ∀ g ∈ s.grants, g.offset ≠ b.offset
    | .memoryResourceRelease => s.manager.FindsPlace (.free reqMsg.offset)
    | .other => True

/-- The server has one record for each grant and covers no address twice. -/
structure Inv (s : MemoryClients Client) : Prop where
  covered : ∀ x, cover s.manager.spans x ≤ 1
  keyed : ∀ offset b, s.manager.usedRdmaMem.lookup offset = some b → b.offset = offset
  records : (s.grants.map Grant.record).Perm s.manager.liveBlocks

omit [DecidableEq Client] in
theorem inv_init (memSize : ℕ) : Inv (init memSize : MemoryClients Client) where
  covered x := by
    simp only [init, RDMAManager.spans_init, cover_cons, cover_nil]
    split_ifs <;> omega
  keyed := by simp [init, RDMAManager.init]
  records := List.Perm.refl _

section
omit [DecidableEq Client]
variable {s : MemoryClients Client}

theorem Inv.lookup (hs : Inv s) {g : Grant Client} (hg : g ∈ s.grants) :
    s.manager.usedRdmaMem.lookup g.offset = some g.record := by
  have hlive : g.record ∈ s.manager.liveBlocks :=
    hs.records.mem_iff.mp (List.mem_map_of_mem hg)
  obtain ⟨offset, hlook⟩ := RDMAManager.mem_liveBlocks.mp hlive
  have hkey := hs.keyed offset g.record hlook
  rw [← hkey] at hlook
  exact hlook

theorem Inv.grant (hs : Inv s) {offset : ℕ} (h : offset ∈ s.manager.usedRdmaMem) :
    ∃ g ∈ s.grants, g.offset = offset := by
  obtain ⟨b, hb⟩ := RDMAManager.lookup_of_mem h
  have hlive : b ∈ s.manager.liveBlocks := RDMAManager.mem_liveBlocks.mpr ⟨offset, hb⟩
  obtain ⟨g, hg, hrecord⟩ := List.mem_map.mp (hs.records.mem_iff.mpr hlive)
  refine ⟨g, hg, ?_⟩
  rw [← hs.keyed offset b hb, ← hrecord]
  rfl

theorem Inv.cover_le (hs : Inv s) (x : ℕ) :
    cover (s.manager.rdmaMem.map RdmaMem.span) x + cover (s.grants.map Grant.span) x ≤ 1 := by
  have hmap : s.grants.map Grant.span = (s.grants.map Grant.record).map RdmaMem.span := by
    simp [Function.comp_def]
  have hle := hs.covered x
  rw [RDMAManager.spans, List.map_append, cover_append,
    ← cover_perm (hs.records.map RdmaMem.span), ← hmap] at hle
  exact hle

theorem Inv.protected (hs : Inv s) : Protected s := by
  constructor
  · have hdisjoint : (s.grants.map Grant.span).Pairwise fun a b =>
        ∀ x, a.Contains x → ¬ b.Contains x := by
      apply disjoint_of_cover
      intro x
      have := hs.cover_le x
      omega
    exact List.pairwise_map.mp hdisjoint
  · intro g hg x hx hfree
    have hgrant : 0 < cover (s.grants.map Grant.span) x :=
      cover_pos.mpr ⟨g.span, List.mem_map_of_mem hg, hx⟩
    have := (s.manager.available_iff x).mp hfree
    have := hs.cover_le x
    omega

end

variable {s s' : MemoryClients Client}

omit [DecidableEq Client] in
theorem freesExactly (hs : Inv s) {client : Client} {reqMsg : MemoryResourceRequest}
    (hG : Guarded s (client, reqMsg)) : FreesExactly s (client, reqMsg) := by
  intro htype g hg hnames
  simp only [Guarded, htype] at hG
  have hlook := hs.lookup hg
  rw [hnames.2] at hlook
  obtain ⟨hfreed, -, hcover⟩ := RDMAManager.free_found hlook hG
  constructor
  · simp [RDMAServer.handle, RDMAServer.releaseMemoryResource, htype, hfreed]
  · intro x
    simp only [RDMAServer.handle, RDMAServer.releaseMemoryResource, htype,
      RDMAManager.available_iff, hcover, cover_cons, Grant.record_span]
    by_cases hx : g.span.Contains x <;> simp [hx]

theorem inv_request (hs : Inv s) {client : Client} {reqMsg : MemoryResourceRequest}
    (htype : reqMsg.type = .memoryResourceRequest) (hG : Guarded s (client, reqMsg))
    (h : step s (client, reqMsg) = some s') : Inv s' := by
  simp only [Guarded, htype] at hG
  simp only [step, htype, RDMAServer.handle, RDMAServer.requestMemoryResource,
    Option.some.injEq] at h
  rcases s.manager.internalAlloc_servedFrom reqMsg.size with
    ⟨-, halloc⟩ | ⟨pre, b, post, hserved, hsplit, -, hle, halloc⟩
  · rw [halloc] at h
    rw [← h]
    exact hs
  · have hfresh : b.offset ∉ s.manager.usedRdmaMem := by
      intro hmem
      obtain ⟨g, hg, hoffset⟩ := hs.grant hmem
      exact hG b hserved g hg hoffset
    rw [halloc] at h
    rw [← h]
    constructor
    · intro x
      exact (RDMAManager.cover_alloc hsplit hle hfresh x).le.trans (hs.covered x)
    · exact RDMAManager.keyed_insert hs.keyed
    · have hlive := RDMAManager.liveBlocks_insert (b := .ofBlock reqMsg.size false b.offset) hfresh
      change (Grant.record ⟨client, b.offset, reqMsg.size⟩ :: s.grants.map Grant.record).Perm
        ((s.manager.usedRdmaMem.insert b.offset _).entries.map Sigma.snd)
      rw [hlive]
      exact hs.records.cons _

theorem inv_release (hs : Inv s) {client : Client} {reqMsg : MemoryResourceRequest}
    (htype : reqMsg.type = .memoryResourceRelease) (hG : Guarded s (client, reqMsg))
    (h : step s (client, reqMsg) = some s') : Inv s' := by
  simp only [Guarded, htype] at hG
  simp only [step, htype, RDMAServer.handle, RDMAServer.releaseMemoryResource] at h
  split_ifs at h with hheld
  cases h
  obtain ⟨g, hg, hnames⟩ := hheld
  obtain ⟨g', l₁, l₂, -, hnames', hgrants, herase⟩ :=
    List.exists_of_eraseP (p := (Names client reqMsg.offset ·)) hg (by simpa using hnames)
  have hoffset : g'.offset = reqMsg.offset := (of_decide_eq_true hnames').2
  have hlook := hs.lookup (g := g') (by simp [hgrants])
  rw [hoffset] at hlook
  obtain ⟨-, hused, hcover⟩ := RDMAManager.free_found hlook hG
  have hperm := RDMAManager.spans_free_perm hlook
  have hlive := RDMAManager.liveBlocks_erase_perm hlook
  constructor
  · intro x
    have hle := hs.covered x
    rw [cover_perm hperm] at hle
    simp only [RDMAManager.spans, RDMAManager.liveBlocks, List.map_append, cover_append, hcover,
      hused, cover_cons] at hle ⊢
    omega
  · simp only [hused]
    exact RDMAManager.keyed_erase hs.keyed
  · have hsplit : (s.grants.map Grant.record).Perm
        (g'.record :: ((l₁ ++ l₂).map Grant.record)) := by
      rw [hgrants]
      exact (List.perm_middle).map Grant.record
    simp only [herase, RDMAManager.liveBlocks, hused]
    exact (hsplit.symm.trans (hs.records.trans hlive)).cons_inv

theorem inv_step (hs : Inv s) {a : Client × MemoryResourceRequest} (hG : Guarded s a)
    (h : step s a = some s') : Inv s' := by
  obtain ⟨client, reqMsg⟩ := a
  cases htype : reqMsg.type with
  | memoryResourceRequest => exact inv_request hs htype hG h
  | memoryResourceRelease => exact inv_release hs htype hG h
  | other =>
    simp only [step, htype, RDMAServer.handle, Option.some.injEq] at h
    rw [← h]
    exact hs

/-- Whatever sizes the clients ask for: as long as no block is served from an offset that is
still held and each release finds its place, grants stay apart and each release frees
exactly the block of its client. -/
theorem grants_protected (memSize : ℕ) (messages : List (Client × MemoryResourceRequest))
    (hG : EachStep step Guarded (init memSize) messages) :
    Throughout step Protected (init memSize : MemoryClients Client) messages ∧
      EachStep step FreesExactly (init memSize) messages := by
  have hinv : Throughout step Inv (init memSize : MemoryClients Client) messages :=
    EachStep.throughout (fun _ _ _ hs hG h => inv_step hs hG h) messages _ (inv_init memSize) hG
  constructor
  · exact fun pre t hpre ht => (hinv pre t hpre ht).protected
  · rintro pre ⟨client, reqMsg⟩ t u hpre ht hu
    have hprefix : pre <+: messages := (List.prefix_append pre _).trans hpre
    exact freesExactly (hinv pre t hprefix ht) (hG pre _ t u hpre ht hu)

instance (m : RDMAManager) (r : RDMAManager.MemRequest) : Decidable (m.FreeReturnsTrue r) :=
  match r with
  | .alloc _ => .isTrue trivial
  | .free _ => inferInstanceAs (Decidable (_ = true))

instance (s : MemoryClients Client) (a : Client × MemoryResourceRequest) :
    Decidable (Guarded s a) :=
  match a with
  | (_, ⟨size, _, .memoryResourceRequest⟩) =>
    inferInstanceAs
      (Decidable (∀ b ∈ s.manager.servedFrom size, ∀ g ∈ s.grants, g.offset ≠ b.offset))
  | (_, ⟨_, offset, .memoryResourceRelease⟩) =>
    decidable_of_iff _ (s.manager.freeReturnsTrue_iff (.free offset))
  | (_, ⟨_, _, .other⟩) => .isTrue trivial

/-- Client 0 gets its first block back as an empty one, which it releases before client 1
is granted that offset. -/
def emptyGrantRun : List (ℕ × MemoryResourceRequest) :=
  [(0, { size := 20 }), (1, { size := 20 }),
    (0, { offset := 0, type := .memoryResourceRelease }), (0, {}),
    (0, { offset := 0, type := .memoryResourceRelease }), (1, { size := 10 })]

theorem grants_protected_emptyGrantRun :
    Throughout step Protected (init 100) emptyGrantRun ∧
      EachStep step FreesExactly (init 100) emptyGrantRun :=
  grants_protected 100 emptyGrantRun (by decide)

/-- Client 0 holds no byte, but the offset that client 1 is granted: its release frees
the block of client 1, which client 2 is then granted as well. -/
def sharedOffsetRun : List (ℕ × MemoryResourceRequest) :=
  [(0, {}), (1, { size := 60 }), (0, { offset := 0, type := .memoryResourceRelease }),
    (2, { size := 60 })]

theorem released_by_empty_grant :
    ¬ (Throughout step Protected (init 100) sharedOffsetRun ∧
      EachStep step FreesExactly (init 100) sharedOffsetRun) := by
  rintro ⟨hprotected, -⟩
  have hgrants : (exec step (init 100) sharedOffsetRun).map MemoryClients.grants =
      some [⟨2, 0, 60⟩, ⟨1, 0, 60⟩] := by decide
  obtain ⟨s, hs, hmap⟩ := Option.map_eq_some_iff.mp hgrants
  have hdisjoint := (hprotected _ s (List.prefix_refl _) hs).disjoint
  rw [hmap] at hdisjoint
  exact (List.pairwise_cons.mp hdisjoint).1 ⟨1, 0, 60⟩ (by simp) 0 (by decide) (by decide)

/-- Every request asks for something, and every release finds its place. -/
def AsksForBytes (s : MemoryClients Client) : Client × MemoryResourceRequest → Prop
  | (_, reqMsg) =>
    match reqMsg.type with
    | .memoryResourceRequest => 0 < reqMsg.size
    | .memoryResourceRelease => s.manager.FindsPlace (.free reqMsg.offset)
    | .other => True

omit [DecidableEq Client] in
theorem guarded_of_asksForBytes (hs : Inv s) (hm : s.manager.Inv)
    {a : Client × MemoryResourceRequest} (h : AsksForBytes s a) : Guarded s a := by
  obtain ⟨client, size, offset, type⟩ := a
  cases type with
  | memoryResourceRequest =>
    intro b hb g hg hoffset
    have hmem : g.offset ∈ s.manager.usedRdmaMem :=
      AList.lookup_isSome.mp (by rw [hs.lookup hg]; rfl)
    rw [hoffset] at hmem
    exact RDMAManager.fresh_key hm (List.mem_of_find?_eq_some hb) hmem
  | memoryResourceRelease => exact h
  | other => trivial

theorem manager_inv_step (hs : Inv s) (hm : s.manager.Inv) {a : Client × MemoryResourceRequest}
    (hG : AsksForBytes s a) (h : step s a = some s') : s'.manager.Inv := by
  obtain ⟨client, size, offset, type⟩ := a
  cases type with
  | memoryResourceRequest =>
    simp only [step, RDMAServer.handle, RDMAServer.requestMemoryResource, Option.some.injEq] at h
    rw [← h]
    exact RDMAManager.inv_alloc hm hG
  | memoryResourceRelease =>
    simp only [step, RDMAServer.handle, RDMAServer.releaseMemoryResource] at h
    split_ifs at h with hheld
    cases h
    obtain ⟨g, hg, hnames⟩ := hheld
    apply RDMAManager.inv_free hm
    rw [← hnames.2]
    exact AList.lookup_isSome.mp (by rw [hs.lookup hg]; rfl)
  | other =>
    simp only [step, RDMAServer.handle, Option.some.injEq] at h
    rw [← h]
    exact hm

/-- Only empty requests can be served from an offset that is still held. -/
theorem eachStep_guarded_of_asksForBytes {memSize : ℕ} (hpos : 0 < memSize)
    (messages : List (Client × MemoryResourceRequest))
    (h : EachStep step AsksForBytes (init memSize) messages) :
    EachStep step Guarded (init memSize) messages := by
  have hinv : Throughout step (fun s => Inv s ∧ s.manager.Inv)
      (init memSize : MemoryClients Client) messages := by
    refine EachStep.throughout ?_ messages _
      ⟨inv_init memSize, RDMAManager.inv_init hpos⟩ h
    rintro s a t ⟨hs, hm⟩ hG hstep
    exact ⟨inv_step hs (guarded_of_asksForBytes hs hm hG) hstep, manager_inv_step hs hm hG hstep⟩
  intro pre a t u hpre ht hu
  obtain ⟨hs, hm⟩ := hinv pre t ((List.prefix_append pre _).trans hpre) ht
  exact guarded_of_asksForBytes hs hm (h pre a t u hpre ht hu)

end MemoryClients
end DpiLibrary
