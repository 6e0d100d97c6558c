import DpiLibrary.Dpi.DeploymentRuns

/-!
# Delivery in a deployment

Whatever else goes on in the node, a consumer is given on each ring what the writer that joined
the ring has appended, in order and in full once `has_next` finds nothing more. The data of a
segment that `next` has returned stays as it is until `next` is called on its ring again.
-/

namespace DpiLibrary

variable {k : ℕ} {dpiNodes : List String} {connection : String} {memSize : ℕ}

theorem Span.Outside.mono {block : Span} {start len start' len' : ℕ} (h : block.Outside start len)
    (hlo : start ≤ start') (hhi : start' + len' ≤ start + len) : block.Outside start' len' := by
  unfold Outside at *
  omega

namespace Deployment

open Schedule RegistryServer RingSystem BufferWriterBW

/-- What a consumer has been given on the rings of a buffer. -/
structure Delivered (d : Deployment) (name : String) (handle : BufferHandle) (c : Consumer) :
    Prop where
  unjoined : ∀ r : Fin c.rings, d.writers name r = none → returnedBlocks c.log r = []
  inOrder : ∀ (r : Fin c.rings) (w : BufferWriter), d.writers name r = some w →
    w.FillsSegments handle.segmentSizes → (returnedBlocks c.log r).flatten <+: w.appendedBytes
  complete : .hasNextReturned false ∈ c.log → ∀ r : Fin c.rings, ∃ w,
    d.writers name r = some w ∧ w.Closed ∧
      (w.FillsSegments handle.segmentSizes → (returnedBlocks c.log r).flatten = w.appendedBytes)

variable {d d' : Deployment} {name : String} {c : Consumer} {handle : BufferHandle}

section

variable {index : Fin k → ℕ} {it : BufferIterator k} {calls log : List (RingEvent k)}
  {b : BufferRings k} {a : BufferState b} {r : Fin k} {w : BufferWriter}

theorem Shown.writer (h : d.Shown name index it calls handle b a log)
    (hw : d.writers name (index r) = some w) : w.Inv b.type (a.ring r) d.mem := by
  have hinv := h.refines.1.writer r
  simp only [view, hw] at hinv
  exact hinv

theorem Shown.segmentSize (h : d.Shown name index it calls handle b a log) :
    (b.ring r).segmentSize = handle.segmentSizes := by
  obtain ⟨segment, -, hg⟩ := h.covers.ring r
  exact hg.segmentSize

/-- The blocks returned are those that the protocol has delivered. -/
theorem Shown.returned (h : d.Shown name index it calls handle b a log)
    (hw : d.writers name (index r) = some w) (hfills : w.FillsSegments handle.segmentSizes) :
    returnedBlocks calls r = (a.ring r).delivered := by
  rw [← h.calls, returnedBlocks_calls]
  apply h.refines.2.blocks
  rw [← h.segmentSize (r := r)] at hfills
  exact (h.writer hw).exact hfills

end

theorem Deployed.delivered (hd : d.Deployed memSize) (hc : d.consumers name = some c)
    (hhandle : d.registry.retrieveBuffer name = some handle) : d.Delivered name handle c := by
  obtain ⟨handle', b, a, log, h⟩ := hd.parts name _ _ _ (.consumer c hc)
  obtain rfl : handle = handle' := Option.some.inj (hhandle.symm.trans h.registered)
  refine ⟨fun r hnone => ?_, fun r w hw hfills => ?_, fun hend r => ?_⟩
  · have hempty := h.refines.1.writer r
    simp only [view, hnone] at hempty
    have hcount : (returnedBlocks log r).length = (a.ring r).returned := h.refines.2.count r
    rw [show a.ring r = .empty _ _ from hempty, ← returnedBlocks_calls, h.calls] at hcount
    exact List.length_eq_zero_iff.mp hcount
  · rw [h.returned hw hfills]
    exact ((a.ring r).delivered_isPrefix.flatten).trans (h.writer hw).sent_isPrefix
  · have hmem : .hasNextReturned false ∈ log := by
      rw [← h.calls] at hend
      exact (List.mem_filter.mp hend).1
    obtain ⟨hfin, hreturned⟩ := h.refines.2.exhausted hmem r
    cases hw : d.writers name r with
    | none =>
      have hempty := h.refines.1.writer r
      simp only [view, hw] at hempty
      rw [show a.ring r = .empty _ _ from hempty] at hfin
      cases hfin
    | some w =>
      obtain ⟨hclosed, hsent⟩ := (h.writer hw).finished hfin
      refine ⟨w, rfl, hclosed, fun hfills => ?_⟩
      rw [h.returned hw hfills, (a.ring r).delivered_eq hreturned]
      exact hsent

/-- The moves of one buffer, among those of others. -/
def ofBuffer (name : String) : RingLabel 1 → DeploymentLabel
  | .writer r => .writer name r
  | .nic r => .nic name r
  | .iterator action => .iterator name action

def registerBytes (name : String) (buffertype : Buffertype) : RegistryRequest :=
  .appendBuffer { name, nodeId := 1, segmentsPerWriter := 2, numberAppenders := 1,
                  segmentSizes := 1, register := true, buffertype }

/-- A buffer is registered, joined, retrieved and written, and its consumer is given the first
segment. -/
def lendLabels : List DeploymentLabel :=
  [.request (registerBytes "bw" .bw), .joinBuffer "bw" 4 [⟨[7, 9], [], false⟩],
    .getIterator "bw"] ++ (twoSegmentRun.take 26).map (ofBuffer "bw")

/-- A latency writer appends one message and closes, and the iterator reads to the end. -/
def messageToEnd : List (RingLabel 1) :=
  [.writer 0, .nic 0, .writer 0, .nic 0, .writer 0, .writer 0, .writer 0, .writer 0, .nic 0,
    .writer 0, .writer 0, .nic 0, .writer 0] ++
    RingLabel.call .hasNext 2 ++ RingLabel.call .next 4 ++ RingLabel.call .hasNext 4

/-- Another buffer is set up, written and read to its end, and given a second ring. -/
def meanwhileLabels : List DeploymentLabel :=
  [.request (registerBytes "lat" .lat), .getIterator "lat",
    .joinBuffer "lat" 100 [⟨[5], [], false⟩]] ++ messageToEnd.map (ofBuffer "lat") ++
    [.request (.createRingOnBuffer "lat")]

def twoBufferLabels : List DeploymentLabel :=
  lendLabels ++ meanwhileLabels ++ (twoSegmentRun.drop 26).map (ofBuffer "bw")

def oneNode : Nodes RemoteNode := RemoteNode.nodesAt ["127.0.0.1:5400"] "127.0.0.1:5400"

/-- `next` has returned the segment at `offset` on this ring and has not been called there
again. -/
def Lent (d : Deployment) (name : String) (ring offset : ℕ) : Prop :=
  ∃ c ∈ d.consumers name, ∃ r : Fin c.rings, (r : ℕ) = ring ∧ lentSegment c.log r = some offset

instance (d : Deployment) (name : String) (ring offset : ℕ) : Decidable (d.Lent name ring offset) :=
  inferInstanceAs (Decidable (∃ c ∈ d.consumers name, _))

/-- An operation on the ring itself leaves the data alone that the consumer holds. -/
theorem Shown.nic_lent {index : Fin k → ℕ} {it : BufferIterator k} {calls log : List (RingEvent k)}
    {b : BufferRings k} {a : BufferState b} {r : Fin k}
    (h : d.Shown name index it calls handle b a log)
    (hguard : ∀ v ∈ d.writers name (index r), v.CarriesPosted) {m : Mem} {w : Option BufferWriter}
    {made : Option ℕ}
    (hstep : BufferWriter.machine.option.nic d.mem (d.writers name (index r)) = some (m, w, made))
    (hsent : (a.ring r).released < (a.ring r).sent.length) :
    AgreeOn m d.mem ((b.ring r).dataOffset (a.ring r).released) (b.ring r).segmentSize := by
  obtain ⟨v, hv, hstep⟩ := Option.bind_eq_some_iff.mp hstep
  obtain ⟨⟨m₁, v', made₁⟩, hnic, heq⟩ := Option.map_eq_some_iff.mp hstep
  cases heq
  have hstage := h.refines.1.stage_spec r
  exact (h.writer hv).nic_data (hguard v hv) (h.refines.1.shows r) hstage.1 hstage.2
    (b.counter_fits r) hnic le_rfl hsent

/-- No step of any party changes the data of a segment that is lent. -/
theorem Deployed.lent_step (hsize : memSize < sizeTBound) (hd : d.Deployed memSize)
    {label : DeploymentLabel} (hallowed : d.Allowed (RemoteNode.nodesAt dpiNodes connection) label)
    (hstep : d.step (RemoteNode.nodesAt dpiNodes connection) label = some d')
    (hhandle : d.registry.retrieveBuffer name = some handle) {ring offset : ℕ}
    (hlent : d.Lent name ring offset) :
    AgreeOn d'.mem d.mem (offset + segmentHeaderSize) handle.segmentSizes := by
  obtain ⟨c, hc, r, rfl, hlent⟩ := hlent
  rw [Option.mem_def] at hc
  obtain ⟨handle', b, a, log, h⟩ := hd.parts name _ _ _ (.consumer c hc)
  obtain rfl : handle = handle' := Option.some.inj (hhandle.symm.trans h.registered)
  rw [← h.calls, lentSegment_calls] at hlent
  obtain ⟨hasked, hheld, hoffset⟩ := h.refines.2.lent r offset hlent
  obtain ⟨segment, hsegment, hg⟩ := h.covers.ring r
  have hblock := h.covers.block_eq hsegment
  have hlo := (b.ring r).le_slot (a.ring r).released
  have hhi := (b.ring r).slot_add_fullSize_le (a.ring r).released
  rw [← hoffset] at hlo hhi
  have hwithin : (handle.ringSpan segment).start ≤ offset + segmentHeaderSize ∧
      offset + segmentHeaderSize + handle.segmentSizes ≤
        (handle.ringSpan segment).start + (handle.ringSpan segment).length := by
    have hcounter := b.counter_fits r
    rw [← hblock, ← h.segmentSize (r := r)]
    simp only [RingGeometry.block]
    unfold RingGeometry.fullSize at *
    omega
  -- who writes into other rings leaves this one alone
  have hother : ∀ {name' : String} {i' : ℕ} {handle' : BufferHandle} {segment' : BufferSegment},
      d.registry.retrieveBuffer name' = some handle' → handle'.entrySegments[i']? = some segment' →
      name' ≠ name ∨ i' ≠ r → (handle'.ringSpan segment').Outside (offset + segmentHeaderSize)
        handle.segmentSizes := by
    intro name' i' handle' segment' hhandle' hsegment' hne
    exact (hd.placed.ringSpans_apart hhandle hhandle' hsegment hsegment' hne).symm.outside.mono
      hwithin.1 hwithin.2
  rcases hd.step_cases hsize hallowed hstep with hserved | ⟨_, _, _, -, rfl⟩ |
    ⟨name', i, m, w, made, rfl, hnic, rfl⟩ |
    ⟨name', action, c', m, iterator, events, rfl, hc', hiterator, rfl⟩
  · exact (hserved.memory name handle hhandle segment (List.mem_of_getElem? hsegment)).mono
      hwithin.1 hwithin.2
  · exact AgreeOn.refl _ _ _
  · by_cases hmine : name' = name ∧ i = r
    · obtain ⟨rfl, rfl⟩ := hmine
      have hsent := (a.ring r).returned_le_sent
      have hdata := h.nic_lent hallowed hnic (by omega)
      rw [RingGeometry.dataOffset, ← hoffset, h.segmentSize] at hdata
      exact hdata
    · obtain ⟨handle', segment', hhandle', hsegment', hwrites⟩ := hd.nic_writes hallowed hnic
      apply hwrites
      apply hother hhandle' hsegment'
      by_contra heq
      push Not at heq
      exact hmine heq
  · obtain ⟨stored, hstored, htype⟩ := hd.types name' c' hc'
    by_cases hmine : name' = name
    · subst hmine
      obtain rfl : c = c' := Option.some.inj (hc.symm.trans hc')
      obtain rfl : handle = stored := Option.some.inj (hhandle.symm.trans hstored)
      rw [htype, ← h.covers.type] at hiterator
      apply h.refines.1.iterator_writes hiterator
      intro r' hasked'
      obtain ⟨segment', hsegment', -⟩ := h.covers.ring r'
      rw [h.covers.block_eq hsegment']
      apply hother hstored hsegment'
      right
      intro heq
      rw [Fin.ext heq] at hasked'
      exact hasked hasked'
    · obtain ⟨handle', b', a', log', h'⟩ := hd.parts name' _ _ _ (.consumer c' hc')
      obtain rfl : handle' = stored := Option.some.inj (h'.registered.symm.trans hstored)
      rw [htype, ← h'.covers.type] at hiterator
      apply h'.refines.1.iterator_writes hiterator
      intro r' _
      obtain ⟨segment', hsegment', -⟩ := h'.covers.ring r'
      rw [h'.covers.block_eq hsegment']
      exact hother hstored hsegment' (Or.inl hmine)

end Deployment
end DpiLibrary
