import DpiLibrary.Dpi.AppendCloseRead
import DpiLibrary.Dpi.DeploymentDelivery

/-!
# Reading a buffer of a deployment

`BufferReader::read` asks the registry for the handle of the buffer and copies ring after ring.
Once the writers of all rings have closed, and as long as no consumer has taken anything, it
finds all that has been appended, among whatever other buffers the node holds.
-/

namespace DpiLibrary

variable {dpiNodes : List String} {connection : String} {memSize : ℕ}

/-- The loop over the rings, when what each ring adds is known. -/
theorem BufferReader.foldlM_readRing {m : Mem} {fuel : ℕ} {bytes : ℕ → List UInt8} :
    ∀ (segments : List BufferSegment) (start : ℕ) (data : List UInt8),
      (∀ j segment, segments[j]? = some segment → ∀ data,
        readRing m false fuel segment.offset data = some (data ++ bytes (start + j))) →
      segments.foldlM (fun data segment => readRing m false fuel segment.offset data) data =
        some (data ++ (List.range' start segments.length).flatMap bytes) := by
  intro segments
  induction segments with
  | nil => intro start data _; simp
  | cons segment segments ih =>
    intro start data hrings
    have hfirst := hrings 0 segment rfl data
    have hrest : ∀ j segment', segments[j]? = some segment' → ∀ data,
        readRing m false fuel segment'.offset data = some (data ++ bytes (start + 1 + j)) := by
      intro j segment' hj data
      rw [Nat.add_assoc, Nat.add_comm 1 j]
      exact hrings (j + 1) segment' hj data
    rw [List.foldlM_cons, hfirst, Option.bind_eq_bind, Option.bind_some, ih (start + 1) _ hrest,
      List.length_cons, List.range'_succ, List.flatMap_cons, List.append_assoc, Nat.add_zero]

namespace Deployment

open Schedule RegistryServer RingSystem BufferWriterBW

/-- `BufferReader::read` without headers. -/
def read (nodes : Nodes RemoteNode) (fuel : ℕ) (d : Deployment) (name : String) (sizeRead : ℕ) :
    Option (Option (List UInt8) × ℕ) := do
  let call := RegistryClient.retrieveBuffer name
  let (_, _, resp) ← d.registry.handle nodes d.node call.request
  let handle ← call.result resp
  BufferReader.read fuel d.mem handle sizeRead false

/-- What the writer with this number has been given to append. -/
def appendedTo (d : Deployment) (name : String) (ring : ℕ) : List UInt8 :=
  (d.writers name ring).elim [] BufferWriter.appendedBytes

/-- Every ring of the buffer has a writer, and it has closed. -/
def AllClosed (d : Deployment) (name : String) (handle : BufferHandle) : Prop :=
  ∀ i < handle.entrySegments.length, ∃ w ∈ d.writers name i, w.Closed

variable {d : Deployment} {name : String} {handle : BufferHandle}

/-- A ring from which nothing has been taken, with a closed writer. -/
theorem Deployed.readRing (hd : d.Deployed memSize) (hconsumer : d.consumers name = none)
    (hhandle : d.registry.retrieveBuffer name = some handle) (htype : handle.buffertype = .bw)
    {i : ℕ} {segment : BufferSegment} (hsegment : handle.entrySegments[i]? = some segment)
    {w : BufferWriter} (hw : d.writers name i = some w) (hclosed : w.Closed) {fuel : ℕ}
    (hfuel : handle.segmentsPerWriter ≤ fuel) (data : List UInt8) :
    BufferReader.readRing d.mem false fuel segment.offset data =
      some (data ++ w.appendedBytes) := by
  obtain ⟨handle', b, a, log, h⟩ := hd.parts name _ _ _
    (.ring i handle segment hhandle hsegment (by simp [hconsumer]))
  obtain rfl : handle = handle' := Option.some.inj (hhandle.symm.trans h.registered)
  obtain ⟨segment', hsegment', hg⟩ := h.covers.ring 0
  cases hsegment.symm.trans hsegment'
  obtain ⟨hreturned, hshows, hwriter⟩ := h.ring
  rw [htype] at hshows
  simp only [hw, htype] at hwriter
  cases w with
  | inr w => cases hwriter.1
  | inl w =>
    obtain ⟨-, program, hinv⟩ := hwriter
    have hfin := hinv.fin_of_closed hclosed
    have hne := hinv.nonempty hfin
    have hreleased : (a.ring 0).released = 0 := by
      have hle := (a.ring 0).released_le
      omega
    have hsent := (a.ring 0).sent_le
    have hcount := hg.segments
    have hread := BufferReader.readRing_shows hshows hreleased hfin fuel 0 data
      (List.length_pos_of_ne_nil hne) (by omega)
    obtain ⟨-, happended, hflatten⟩ := hinv.finished hfin
    rw [RingGeometry.slot_zero, hg.entry, List.drop_zero, hflatten, ← happended] at hread
    exact hread

theorem Deployed.read (hd : d.Deployed memSize) (nodes : Nodes RemoteNode)
    (hconsumer : d.consumers name = none) (hhandle : d.registry.retrieveBuffer name = some handle)
    (htype : handle.buffertype = .bw) (hclosed : d.AllClosed name handle) {fuel : ℕ}
    (hfuel : handle.segmentsPerWriter ≤ fuel) (sizeRead : ℕ) :
    d.read nodes fuel name sizeRead =
      some (if handle.entrySegments = [] then (none, sizeRead)
        else (some ((List.range handle.entrySegments.length).flatMap (d.appendedTo name)),
          ((List.range handle.entrySegments.length).flatMap (d.appendedTo name)).length)) := by
  have hrings : ∀ j segment, handle.entrySegments[j]? = some segment → ∀ data,
      BufferReader.readRing d.mem false fuel segment.offset data =
        some (data ++ d.appendedTo name (0 + j)) := by
    intro j segment hsegment data
    obtain ⟨w, hw, hwclosed⟩ := hclosed j (List.getElem?_eq_some_iff.mp hsegment).1
    rw [hd.readRing hconsumer hhandle htype hsegment hw hwclosed hfuel data, Nat.zero_add,
      appendedTo, hw, Option.elim_some]
  have hread := BufferReader.foldlM_readRing handle.entrySegments 0 [] hrings
  simp only [Deployment.read, RegistryClient.request, RegistryClient.result,
    RegistryServer.handle, handleRetrieve, hhandle, Bool.false_eq_true, if_false,
    Option.map_some, Option.bind_eq_bind, Option.bind_some, RegistryClient.retrieveOrJoinBuffer,
    retrieved, if_true, BufferReader.read, BufferHandle.push_entrySegments,
    BufferHandle.create, List.nil_append, hread, List.range_eq_range']
  split_ifs <;> rfl

/-- Append, close, read among other buffers: in every state of every run, a bandwidth buffer
whose writers have closed and which nobody consumes reads as what they have been given. -/
theorem deployment_read (hsize : memSize < sizeTBound) (buffer : Mem) (exchanges : List Exchange)
    (labels : List DeploymentLabel)
    (hallowed : EachStep (step (RemoteNode.nodesAt dpiNodes connection))
      (Allowed (RemoteNode.nodesAt dpiNodes connection)) (init memSize buffer exchanges) labels) :
    Throughout (step (RemoteNode.nodesAt dpiNodes connection))
      (fun d => ∀ name handle, d.registry.retrieveBuffer name = some handle →
        handle.buffertype = .bw → d.consumers name = none → d.AllClosed name handle →
        ∀ fuel sizeRead, handle.segmentsPerWriter ≤ fuel →
        d.read (RemoteNode.nodesAt dpiNodes connection) fuel name sizeRead =
          some (if handle.entrySegments = [] then (none, sizeRead)
            else (some ((List.range handle.entrySegments.length).flatMap (d.appendedTo name)),
              ((List.range handle.entrySegments.length).flatMap (d.appendedTo name)).length)))
      (init memSize buffer exchanges) labels := by
  have hdeployed := EachStep.throughout (I := Deployed memSize)
    (fun _ _ _ hd hG hstep => hd.step hsize hG hstep) labels _
    (deployed_init memSize buffer exchanges) hallowed
  intro pre d hpre hrun name handle hhandle htype hconsumer hclosed fuel sizeRead hfuel
  exact (hdeployed pre d hpre hrun).read _ hconsumer hhandle htype hclosed hfuel sizeRead

instance (d : Deployment) (name : String) (handle : BufferHandle) :
    Decidable (d.AllClosed name handle) :=
  inferInstanceAs (Decidable (∀ i < handle.entrySegments.length, _))

/-- Steps of a writer from its construction on, each followed by what its queue pair has. -/
def writerLabels (name : String) (ring : ℕ) : List DeploymentLabel :=
  [.writer name ring, .nic name ring] ++ List.replicate 4 (.writer name ring) ++
    [.nic name ring, .writer name ring, .nic name ring, .writer name ring]

/-- A buffer is joined and closed, is given a second ring while another buffer is at work, and
the second ring is joined and closed. -/
def secondRingLabels : List DeploymentLabel :=
  [.request (registerBytes "bw" .bw), .joinBuffer "bw" 4 [⟨[7], [], false⟩]] ++
    writerLabels "bw" 0 ++ meanwhileLabels ++ [.request (.createRingOnBuffer "bw"),
    .joinBuffer "bw" 4 [⟨[9], [], false⟩]] ++ writerLabels "bw" 1

theorem deployment_read_second_ring :
    ∃ d, exec (step oneNode) (init 400 (fun _ => 0) []) secondRingLabels = some d ∧
      d.read oneNode 2 "bw" 0 = some (some [7, 9], 2) := by
  have hruns : (exec (step oneNode) (init 400 (fun _ => 0) []) secondRingLabels).isSome := by
    decide +kernel
  obtain ⟨d, hd⟩ := Option.isSome_iff_exists.mp hruns
  have hbuffer : ∀ d ∈ exec (step oneNode) (init 400 (fun _ => 0) []) secondRingLabels,
      d.registry.retrieveBuffer "bw" = some ⟨"bw", 1, [⟨0, 1⟩, ⟨166, 1⟩], 2, 1, 1, .bw⟩ ∧
        (d.consumers "bw").isNone ∧
        d.AllClosed "bw" ⟨"bw", 1, [⟨0, 1⟩, ⟨166, 1⟩], 2, 1, 1, .bw⟩ ∧
        (List.range 2).flatMap (d.appendedTo "bw") = [7, 9] := by
    decide +kernel
  obtain ⟨hhandle, hconsumer, hclosed, happended⟩ := hbuffer d hd
  have hread := deployment_read (by decide) (fun _ => 0) [] secondRingLabels (by decide +kernel)
    secondRingLabels d (List.prefix_refl _) hd "bw" _ hhandle rfl (Option.isNone_iff_eq_none.mp
      hconsumer) hclosed 2 0 le_rfl
  refine ⟨d, hd, hread.trans ?_⟩
  simp [happended]

end Deployment
end DpiLibrary
