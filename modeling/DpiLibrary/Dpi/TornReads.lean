import DpiLibrary.Dpi.TornIterator
import DpiLibrary.Dpi.LatencySizes

/-!
# What `next` returns among torn writes

A header lies in front of the data of its segment, so the flags of a message are visible
before its payload. An iterator that does not test the flags in between, and reads no
size that the closing header is just replacing, returns the messages as they were
appended.
-/

namespace DpiLibrary

variable {k : ℕ}

open BufferWriterLat RingSystem

/-- Bytes of the size in a segment that come from the closing header. -/
def TornSystem.closedBytes (t : TornSystem k) (h : IterHelper k) : ℕ :=
  if (readHeader t.mem h.iter).isEndSegment then 8
  else if (t.writers h.ring).queue.head? = some (.writeHeader h.iter) then t.visible h.ring
  else 0

/-- When `next` reads the size of a segment, the bytes of the segment size that the closing
header has put there are those of the size of the last message. -/
def TornSystem.SizeReadInTime (b : BufferRings k) (messages : Fin k → List Message)
    (t : TornSystem k) (label : RingLabel k) : Prop :=
  label = .iterator .run → t.iterator.pc = .getRawData →
    ∀ h ∈ t.iterator.segmentIterators.get?, ∀ last ∈ (messages h.ring).getLast?,
      (encodeLE 8 (b.ring h.ring).segmentSize).take (t.closedBytes h) =
        (encodeLE 8 last.data.length).take (t.closedBytes h)

instance (b : BufferRings k) (messages : Fin k → List Message) (t : TornSystem k)
    (label : RingLabel k) : Decidable (t.SizeReadInTime b messages label) :=
  inferInstanceAs (Decidable (_ → _ → _))

/-- From the moment `has_next` returns true, all of the payload that `next` will return is in
memory, and what has been returned are the messages appended. -/
structure TornSystem.ReadsWhole (messages : Fin k → List Message) (t : TornSystem k) : Prop where
  payload : t.iterator.pc = .ready ∨ t.iterator.pc.inNext = true →
    ∀ h ∈ t.iterator.segmentIterators.get?, ∃ message,
      (messages h.ring)[(returnedBlocks t.log h.ring).length]? = some message ∧
        readBytes t.mem (h.iter + segmentHeaderSize) message.data.length = message.data
  blocks : ∀ r, returnedBlocks t.log r <+: (messages r).map Message.data

section

variable {b : BufferRings k} {messages : Fin k → List Message} {t : TornSystem k}
  {s : RingSystem BufferWriterLat k} {a : BufferState b} {r : Fin k} {j start len : ℕ}

/-- The data of a segment that has been sent. -/
theorem Sim.payload (hsim : Sim b t s) (ha : LatencyRefines messages s a) (htype : b.type = .lat)
    (hlo : (a.ring r).released ≤ j) (hsent : j < (a.ring r).sent.length) :
    readBytes t.mem ((b.ring r).slot j + segmentHeaderSize) (a.ring r).sent[j].length =
      (a.ring r).sent[j] := by
  have hshows := ha.1.shows r
  have hlen := hshows.lengths _ (List.getElem_mem hsent)
  have hfull : (b.ring r).fullSize = (b.ring r).segmentSize + segmentHeaderSize := rfl
  have hagree : AgreeOn t.mem s.mem ((b.ring r).slot j + segmentHeaderSize)
      (a.ring r).sent[j].length := by
    refine hsim.agree_slot ha htype hlo hsent (Nat.le_add_right _ _) (by omega) (Or.inr ?_)
    unfold segmentHeaderSize
    omega
  rw [hagree.readBytes]
  exact hshows.data j _ hlo (List.getElem?_eq_getElem hsent)

/-- What `next` reads of a torn size in time is the size of the next message. -/
theorem Sim.counter_of_next (hsim : Sim b t s) (ha : LatencyRefines messages s a)
    (htype : b.type = .lat) (hread : t.SizeReadInTime b messages (.iterator .run))
    {bs as : List (IterHelper k)} {y : IterHelper k}
    (ht : t.iterator = ⟨⟨bs, y :: as⟩, .getRawData⟩)
    (hs : s.iterator = ⟨⟨bs, y :: as⟩, .getRawData⟩) :
    (readHeader t.mem y.iter).counter = (((messages y.ring).map Message.data).getD
      (a.ring y.ring).returned []).length := by
  have hinv := ha.1
  rw [hs] at hinv
  obtain ⟨hhelper, ⟨hrel, hsent⟩, hshows, -⟩ := hinv.current
  have hprogram := (hinv.writer y.ring).sent_program
  have hsize := size_of_next htype ha hs hrel hsent
  have hnext := getD_of_prefix hprogram hsent
  rw [hnext] at hsize ⊢
  have hlength := hshows.lengths _ (List.getElem_mem hsent)
  have hlt := hlength.trans_lt (b.ring y.ring).segmentSize_lt
  have hfull : (b.ring y.ring).fullSize = (b.ring y.ring).segmentSize + 24 := rfl
  have hflags : (readHeader t.mem y.iter).isEndSegment =
      (readHeader s.mem y.iter).isEndSegment := by
    have hagree : AgreeOn t.mem s.mem (y.iter + 16) 8 := by
      rw [hhelper.iter]
      exact hsim.agree_slot ha htype hrel.le hsent (by omega) (by omega) (Or.inr le_rfl)
    unfold SegmentHeader.isEndSegment readHeader
    rw [hagree.readWord]
  -- what comes from the closing header is the same in both sizes
  have hclosed : (a.ring y.ring).returned + 1 = ((messages y.ring).map Message.data).length →
      ∀ i, i < t.closedBytes y →
        (encodeLE 8 (b.ring y.ring).segmentSize)[i]? =
          (encodeLE 8 (a.ring y.ring).sent[(a.ring y.ring).returned].length)[i]? := by
    intro hlast i hi
    have hpos : messages y.ring ≠ [] := by
      intro hnil
      rw [hnil] at hlast
      simp at hlast
    have htake := hread rfl (by rw [ht]) y (by rw [ht]; rfl) _ (List.getLast?_eq_some_getLast hpos)
    rw [List.length_map] at hlast
    have hindex : (messages y.ring).length - 1 = (a.ring y.ring).returned := by omega
    have hdata : ((messages y.ring).getLast hpos).data =
        (a.ring y.ring).sent[(a.ring y.ring).returned] := by
      have hget := hprogram.getElem hsent
      rw [hget, List.getElem_map, List.getLast_eq_getElem]
      simp only [hindex]
    rw [hdata] at htake
    rw [← List.getElem?_take_of_lt hi, htake, List.getElem?_take_of_lt hi]
  apply readWord_of_getElem? hlt
  intro i hi
  rw [hhelper.iter] at hsize hflags ⊢
  rcases hsim.header_byte ha htype hrel.le hsent (show i < 16 by omega) with
    hsame | ⟨hvisible, hlast, hhead, hbyte⟩
  · rw [hsame, ← getElem?_encodeLE_readWord s.mem _ hi]
    rcases hsize with hsize | ⟨hend, hsize, hlast⟩
    · rw [show readWord s.mem _ = _ from hsize]
    · rw [show readWord s.mem _ = _ from hsize]
      refine (hclosed hlast i ?_).symm
      unfold TornSystem.closedBytes
      rw [hhelper.iter, if_pos (hflags.trans hend)]
      exact hi
  · have hcounter := SegmentHeader.getElem?_encode_counter ⟨(b.ring y.ring).segmentSize,
      (b.ring y.ring).slot ((a.ring y.ring).returned + 1), 0b0110⟩ [] hi
    rw [List.append_nil, hbyte] at hcounter
    rw [hcounter]
    refine (hclosed hlast i ?_).symm
    unfold TornSystem.closedBytes
    rw [hhelper.iter]
    split_ifs
    · exact hi
    · exact hvisible

theorem Sim.sizesKept (hsim : Sim b t s) (ha : LatencyRefines messages s a)
    (htype : b.type = .lat) {label : RingLabel k} {t' : TornSystem k}
    (hread : t.SizeReadInTime b messages label) (hkept : SizesKept messages t.toRingSystem)
    (hstep : t.step label = some t') : SizesKept messages t'.toRingSystem := by
  have hcount : ∀ r, (returnedBlocks t.log r).length = (a.ring r).returned := fun r =>
    (hsim.count r).trans (ha.2.count r)
  cases label with
  | writer r =>
    simp only [TornSystem.step, RingSystem.step, Option.map_map] at hstep
    obtain ⟨w, -, rfl⟩ := Option.map_eq_some_iff.mp hstep
    exact hkept.quiet rfl fun _ => rfl
  | nic r =>
    obtain ⟨⟨m, w, v⟩, -, rfl⟩ := Option.map_eq_some_iff.mp hstep
    exact hkept.quiet rfl fun _ => rfl
  | iterator action =>
    simp only [TornSystem.step, RingSystem.step, Option.map_map] at hstep
    obtain ⟨⟨m, it, events⟩, hit, rfl⟩ := Option.map_eq_some_iff.mp hstep
    refine hkept.iterator_step hit (fun bs y as haction hbefore => ?_)
      fun bs y as size hbefore => ?_
    · subst haction
      obtain ⟨pc', hs, hplace⟩ := hsim.iterator_eq hbefore
      cases hplace
      rw [hcount]
      exact hsim.counter_of_next ha htype hread hbefore hs
    · have hsize := hkept.size size (by rw [hbefore]) y (by rw [hbefore]; rfl)
      obtain ⟨pc', hs, hplace⟩ := hsim.iterator_eq hbefore
      obtain ⟨size', rfl⟩ : ∃ size', pc' = .advance size' := by
        cases hplace <;> exact ⟨_, rfl⟩
      have hinv := ha.1
      rw [hs] at hinv
      obtain ⟨hhelper, ⟨hrel, hsent, -⟩, -, -⟩ := hinv.current
      have hprogram := (hinv.writer y.ring).sent_program
      have hnext := getD_of_prefix hprogram hsent
      have hpayload := hsim.payload ha htype hrel.le hsent
      rw [hcount] at hsize ⊢
      rw [hnext] at hsize
      rw [hsize, hhelper.iter, hpayload,
        List.getElem?_eq_getElem (hsent.trans_le hprogram.length_le), hprogram.getElem hsent]

theorem SamePlace.inNext {pc pc' : IteratorPc} (h : SamePlace pc pc')
    (hpc : pc = .ready ∨ pc.inNext = true) : pc' = .ready ∨ pc'.inNext = true := by
  cases h with
  | refl => exact hpc
  | advance size size' => exact Or.inr rfl

/-- From the moment `has_next` returns true there is a segment to take. -/
theorem Phase.returned_lt {type : Buffertype} {g : RingGeometry} {x : RingState g}
    {pc : IteratorPc} (h : Phase type x pc) (hpc : pc = .ready ∨ pc.inNext = true) :
    x.returned < x.sent.length := by
  rcases hpc with rfl | hpc
  · exact h.2
  · cases pc with
    | mark statement inNext =>
      obtain rfl : inNext = true := hpc
      exact h.2.1
    | getRawData => exact h.2
    | advance size => exact h.2.1
    | _ => cases hpc

/-- The segment that `next` will return, or is returning, has all of its payload. -/
theorem Sim.readsWhole (hsim : Sim b t s) (ha : LatencyRefines messages s a)
    (htype : b.type = .lat) (hkept : SizesKept messages t.toRingSystem) :
    t.ReadsWhole messages := by
  refine ⟨fun hpc y hy => ?_, hkept.blocks⟩
  obtain ⟨⟨⟨bs, as⟩, pc⟩, ht⟩ : ∃ it, t.iterator = it := ⟨_, rfl⟩
  obtain ⟨pc', hs, hplace⟩ := hsim.iterator_eq ht
  rw [ht] at hpc hy
  cases as with
  | nil => cases hy
  | cons y' as =>
    cases hy
    have hinv := ha.1
    rw [hs] at hinv
    obtain ⟨hhelper, hphase, -, -⟩ := hinv.current
    have hsent := hphase.returned_lt (hplace.inNext hpc)
    have hprogram := (hinv.writer y.ring).sent_program
    have hlt := hsent.trans_le hprogram.length_le
    rw [List.length_map] at hlt
    have hdata : (a.ring y.ring).sent[(a.ring y.ring).returned] =
        (messages y.ring)[(a.ring y.ring).returned].data := by
      rw [hprogram.getElem hsent, List.getElem_map]
    have hpayload := hsim.payload ha htype (a.ring y.ring).released_le hsent
    refine ⟨_, ?_, by rw [hhelper.iter, ← hdata, hpayload]⟩
    rw [hsim.count, ha.2.count]
    exact List.getElem?_eq_getElem hlt

end

/-- No torn reads: in every run in which the iterator does not test a segment between the
flags and the payload of its message, and reads no size that the closing header has changed,
`has_next` returns true only on whole messages. -/
theorem torn_reads (b : BufferRings k) (htype : b.type = .lat)
    (hsegments : ∀ r, 2 ≤ (b.ring r).segments) (internalBufferSize : Fin k → ℕ)
    (messages : Fin k → List Message) (closing : Fin k → List LatCall)
    (hclosing : ∀ r, closing r = [] ∨ closing r = [.close] ∧ messages r ≠ [])
    (hsizes : ∀ r, ∀ message ∈ messages r, message.data.length ≤ (b.ring r).segmentSize)
    (m : Mem) (schedule : List (RingLabel k))
    (hguarded : Schedule.EachStep TornSystem.step
      (fun t label => t.toRingSystem.Guarded CarriesPosted label)
      (.init b m (b.latencyWriters internalBufferSize messages closing)) schedule)
    (hwhole : Schedule.EachStep TornSystem.step TornSystem.PayloadArrived
      (.init b m (b.latencyWriters internalBufferSize messages closing)) schedule)
    (hread : Schedule.EachStep TornSystem.step (TornSystem.SizeReadInTime b messages)
      (.init b m (b.latencyWriters internalBufferSize messages closing)) schedule) :
    Schedule.Throughout TornSystem.step (TornSystem.ReadsWhole messages)
      (.init b m (b.latencyWriters internalBufferSize messages closing)) schedule := by
  have hkept : Schedule.Throughout TornSystem.step
      (fun t => (∃ s a, Sim b t s ∧ LatencyRefines (b := b) messages s a) ∧
        SizesKept messages t.toRingSystem)
      (.init b m (b.latencyWriters internalBufferSize messages closing)) schedule := by
    refine ((hguarded.and hwhole).and hread).throughout ?_ schedule _ ⟨?_, ?_⟩
    · rintro t label t' ⟨⟨s, a, hsim, ha⟩, hkept⟩ ⟨⟨hguard, hwhole'⟩, hread'⟩ hstep
      exact ⟨hsim.step ha htype hsegments hguard hwhole' hstep,
        hsim.sizesKept ha htype hread' hkept hstep⟩
    · have hstart := latency_refines htype hsegments hclosing hsizes
        (show Schedule.EachStep (RingSystem.step .lat machine) (Guarded CarriesPosted)
          (init b m (b.latencyWriters internalBufferSize messages closing)) [] from
            Schedule.eachStep_nil)
      obtain ⟨a, ha⟩ := hstart [] _ List.nil_prefix rfl
      exact ⟨_, a, sim_init b m _, ha⟩
    · exact ⟨fun r => List.nil_prefix, fun size hpc => by cases hpc⟩
  intro pre t hpre ht
  obtain ⟨⟨s, a, hsim, ha⟩, hsizesKept⟩ := hkept pre t hpre ht
  exact hsim.readsWhole ha htype hsizesKept

/-- `bytes` more bytes of the write under way become visible. -/
def arriveSteps (bytes : ℕ) : List (RingLabel 1) := List.replicate bytes (.nic 0)

/-- Construct the writer and append one message; `bytes` of its write become visible. -/
def tornMessageRun (bytes : ℕ) : List (RingLabel 1) :=
  .writer 0 :: .nic 0 :: .writer 0 :: .nic 0 :: .writer 0 :: .writer 0 :: .writer 0 ::
    .writer 0 :: arriveSteps bytes

/-- The iterator looks in front of the flags, and again when three bytes of the closing header
are visible. -/
def tornCloseRun : List (RingLabel 1) :=
  tornMessageRun 16 ++ RingLabel.call .hasNext 2 ++ arriveSteps 12 ++
    .writer 0 :: .writer 0 :: arriveSteps 3 ++
    .iterator .run :: .iterator .run :: RingLabel.call .next 4 ++ arriveSteps 21 ++
    .writer 0 :: RingLabel.call .hasNext 4

theorem torn_reads_four_bytes :
    ((Schedule.exec TornSystem.step (.init fourByteSegments (fun _ => 0)
      (fourByteSegments.latencyWriters (fun _ => 100) (fun _ => [⟨[7, 8, 9, 5], [], false⟩])
        fun _ => [.close])) tornCloseRun).map fun t =>
          (t.log.getLast?, returnedBlocks t.log 0)) =
      some (some (.hasNextReturned false), [[7, 8, 9, 5]]) ∧
    Schedule.Throughout TornSystem.step
      (TornSystem.ReadsWhole fun _ => [⟨[7, 8, 9, 5], [], false⟩])
      (.init fourByteSegments (fun _ => 0)
        (fourByteSegments.latencyWriters (fun _ => 100) (fun _ => [⟨[7, 8, 9, 5], [], false⟩])
          fun _ => [.close])) tornCloseRun :=
  ⟨by decide +kernel, torn_reads fourByteSegments rfl (fun _ => le_rfl) (fun _ => 100)
    (fun _ => [⟨[7, 8, 9, 5], [], false⟩]) (fun _ => [.close]) (by simp)
    (by simp [fourByteSegments, BufferRings.single]) (fun _ => 0) tornCloseRun
    (by decide +kernel) (by decide +kernel) (by decide +kernel)⟩

/-- Seventeen of the 25 bytes are visible, the flags among them: `has_next` returns true, and
`next` the byte that was there before. -/
theorem flags_before_payload :
    Schedule.EachStep TornSystem.step
      (fun t label => t.toRingSystem.Guarded CarriesPosted label)
      (.init fourByteSegments (fun _ => 0) (fourByteSegments.latencyWriters (fun _ => 100)
        (fun _ => [⟨[7], [], false⟩]) fun _ => []))
      (tornMessageRun 17 ++ RingLabel.call .hasNext 2 ++ RingLabel.call .next 4) ∧
    ¬ Schedule.Throughout TornSystem.step
      (TornSystem.ReadsWhole fun _ => [⟨[7], [], false⟩])
      (.init fourByteSegments (fun _ => 0) (fourByteSegments.latencyWriters (fun _ => 100)
        (fun _ => [⟨[7], [], false⟩]) fun _ => []))
      (tornMessageRun 17 ++ RingLabel.call .hasNext 2 ++ RingLabel.call .next 4) := by
  refine ⟨by decide +kernel, fun h => ?_⟩
  have hrun : ((Schedule.exec TornSystem.step (.init fourByteSegments (fun _ => 0)
      (fourByteSegments.latencyWriters (fun _ => 100) (fun _ => [⟨[7], [], false⟩])
        fun _ => [])) (tornMessageRun 17 ++ RingLabel.call .hasNext 2 ++
          RingLabel.call .next 4)).map fun t => returnedBlocks t.log 0) = some [[0]] := by
    decide +kernel
  obtain ⟨t, ht, hblocks⟩ := Option.map_eq_some_iff.mp hrun
  have hprefix := (h _ t (List.prefix_refl _) ht).blocks 0
  rw [hblocks] at hprefix
  revert hprefix
  decide

end DpiLibrary
