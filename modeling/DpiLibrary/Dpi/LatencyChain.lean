import DpiLibrary.Dpi.AllocatedRing
import DpiLibrary.Dpi.LatencySlots
import DpiLibrary.Dpi.SegmentIterator

/-!
# The writer's arithmetic and the node's chain

The node writes into each header where the next segment is; the latency writer never
reads that and computes offset and index on its own. Both come to the same offsets,
and the headers the writer sends repeat the pointers the node stored, so that an
iterator finds the same way before and after each message.
-/

namespace DpiLibrary

namespace SegmentIterator

/-- Positions of an iterator along the next pointers. -/
theorem currentPosition_iterate (m : Mem) (k : ℕ) (it : SegmentIterator) :
    ((increment m)^[k] it).currentPosition = (nextSegmentAt m)^[k] it.currentPosition := by
  induction k generalizing it with
  | zero => rfl
  | succ k ih =>
    rw [Function.iterate_succ_apply, Function.iterate_succ_apply, ih]
    rfl

/-- The iterator over the ring at `entry` passes the offsets of the chain in `m₀`. -/
def Walks (m₀ m : Mem) (entry : ℕ) : Prop :=
  ∀ k, ((increment m)^[k] (BufferSegment.mk entry 0).beginIterator).currentPosition =
    (nextSegmentAt m₀)^[k] entry

theorem walks_iff {m₀ : Mem} (g : RingGeometry)
    (hnext : ∀ j, nextSegmentAt m₀ (g.slot j) = g.slot (j + 1)) (m : Mem) :
    Walks m₀ m g.entry ↔ ∀ j, nextSegmentAt m (g.slot j) = g.slot (j + 1) := by
  have hchain := g.iterate_nextSegmentAt hnext
  constructor
  · intro hwalks j
    have hj := hwalks j
    have hsucc := hwalks (j + 1)
    rw [currentPosition_iterate, hchain] at hj hsucc
    rw [Function.iterate_succ_apply'] at hsucc
    rw [← hsucc, ← hj]
  · intro hm k
    rw [currentPosition_iterate, hchain]
    exact g.iterate_nextSegmentAt hm k

end SegmentIterator

namespace BufferWriterLat

open Schedule

variable {g : RingGeometry} {w w' : BufferWriterLat} {a : LatMove}

/-- The writer and the messages it has posted. -/
structure Recorded where
  writer : BufferWriterLat
  sent : List LatOp

def Recorded.move (s : Recorded) (a : LatMove) : Option Recorded :=
  (s.writer.move a).map fun w => ⟨w, s.sent ++ (s.writer.posted w).filter LatOp.isWrite⟩

/-- The write of `data` that is append number `k` goes to the segment reached by `k` next pointers
of the chain in `m₀`, and its header repeats the pointer stored there. If the data is no longer
than a segment, the way of an iterator is the same before and after the write. -/
def FollowsChain (m₀ : Mem) (entry segmentSize k : ℕ) (data : List UInt8) (op : LatOp) : Prop :=
  ∃ src header,
    op = .write ((nextSegmentAt m₀)^[k] entry) src (SegmentHeader.encode header ++ data) ∧
    header.counter = data.length ∧
    header.nextSegmentOffset = nextSegmentAt m₀ ((nextSegmentAt m₀)^[k] entry) ∧
    (data.length ≤ segmentSize → ∀ m, SegmentIterator.Walks m₀ m entry → SegmentIterator.Walks m₀
      (writeBytes m ((nextSegmentAt m₀)^[k] entry) (SegmentHeader.encode header ++ data)) entry)

/-- Each append has posted one write, save one that has not come to it yet, and that of append
number `k` follows the chain. -/
structure SentAlong (m₀ : Mem) (entry segmentSize : ℕ) (s : Recorded) : Prop where
  once : s.sent.length = s.writer.written + if s.writer.pc.isWritten then 1 else 0
  follows : ∀ k op, s.sent[k]? = some op → ∃ data, s.writer.appended[k]? = some data ∧
    FollowsChain m₀ entry segmentSize k data op

/-- What lands in one slot and points at the next one leaves all the pointers as they are. -/
theorem walks_writeBytes {m₀ m : Mem} (hnext : ∀ j, nextSegmentAt m₀ (g.slot j) = g.slot (j + 1))
    {p : ℕ} {h : SegmentHeader} (data : List UInt8) (hheader : h.nextSegmentOffset = g.slot (p + 1))
    (hlength : (h.encode ++ data).length ≤ g.fullSize)
    (hwalks : SegmentIterator.Walks m₀ m g.entry) :
    SegmentIterator.Walks m₀ (writeBytes m (g.slot p) (h.encode ++ data)) g.entry := by
  rw [SegmentIterator.walks_iff g hnext] at hwalks ⊢
  exact g.chain_sendHeader hwalks data hheader hlength

/-- The write that the writer posts in a slot follows the chain. -/
theorem InTurn.followsChain {m₀ : Mem}
    (hnext : ∀ j, nextSegmentAt m₀ (g.slot j) = g.slot (j + 1)) (h : InTurn g w)
    (hpc : w.pc.isWritten = false) (message : Message) :
    ∃ op, w.posted (w.writeMessage message) = [op] ∧ op.isWrite = true ∧
      FollowsChain m₀ g.entry g.segmentSize w.written message.data op := by
  have hheader : (w.messageHeader message.data.length).nextSegmentOffset =
      g.slot (w.written + 1) := by
    simp [messageHeader, h.nextSegment hpc]
  have hposted : w.posted (w.writeMessage message) = [.write w.currentSegmentOffset _
      ((w.messageHeader message.data.length).encode ++ message.data)] := List.drop_left
  rw [h.current, ← g.iterate_nextSegmentAt hnext] at hposted
  refine ⟨_, hposted, rfl, _, _, rfl, rfl, ?_, ?_⟩
  · rw [g.iterate_nextSegmentAt hnext, hnext, hheader]
  · intro hdata m hwalks
    rw [g.iterate_nextSegmentAt hnext]
    apply walks_writeBytes hnext _ hheader _ hwalks
    rw [List.length_append, SegmentHeader.length_encode, RingGeometry.fullSize]
    omega

/-- The messages passed are those sent and the one of an append that has not posted yet. -/
structure SentInTurn (m₀ : Mem) (g : RingGeometry) (s : Recorded) : Prop where
  inTurn : InTurn g s.writer
  along : SentAlong m₀ g.entry g.segmentSize s
  passed : ∃ posted, s.writer.appended = posted ++ s.writer.pc.pending ∧
    posted.length = s.sent.length

theorem SentInTurn.move {m₀ : Mem}
    (hnext : ∀ j, nextSegmentAt m₀ (g.slot j) = g.slot (j + 1)) {s s' : Recorded}
    (h : SentInTurn m₀ g s) (hsucceeds : a ≠ .fail) (hmove : s.move a = some s') :
    SentInTurn m₀ g s' := by
  obtain ⟨w', hw, rfl⟩ := Option.map_eq_some_iff.mp hmove
  have hinTurn := h.inTurn.move hsucceeds hw
  have honce := h.along.once
  obtain ⟨posted, hpassed, hposted⟩ := h.passed
  rcases move_cases hw with ⟨message, hpc, ⟨-, rfl⟩ | ⟨hfail, -⟩⟩ | ⟨signaled, hpc, -, rfl⟩ |
    ⟨hstays, -⟩
  · have hidle : s.writer.pc.isWritten = false := by simp [hpc, LatPc.isWritten]
    obtain ⟨op, hop, hwrite, hfollows⟩ := h.inTurn.followsChain hnext hidle message
    have hsent : s.sent.length = s.writer.written := by simpa [hidle] using honce
    have happended : s.writer.appended = posted ++ [message.data] := by
      simpa [hpc, LatPc.pending] using hpassed
    simp only [hop, List.filter_cons, hwrite, if_true, List.filter_nil]
    refine ⟨hinTurn, ⟨?_, fun k op' hk => ?_⟩, ⟨posted ++ [message.data], ?_, ?_⟩⟩
    · simp [writeMessage, hsent, LatPc.isWritten]
    · rcases Nat.lt_or_ge k s.sent.length with hlt | hge
      · rw [List.getElem?_append_left hlt] at hk
        exact h.along.follows k op' hk
      · rw [List.getElem?_append_right hge, List.getElem?_singleton] at hk
        split_ifs at hk with hlast
        have hk' : k = posted.length := by omega
        cases hk
        refine ⟨message.data, ?_, ?_⟩
        · show s.writer.appended[k]? = some message.data
          rw [happended, hk', List.getElem?_concat_length]
        · rwa [hk', hposted, hsent]
    · simpa [writeMessage, LatPc.pending] using happended
    · simp [hposted]
  · exact absurd hfail hsucceeds
  · simp only [posted_advance, List.filter_nil, List.append_nil]
    refine ⟨hinTurn, ⟨?_, h.along.follows⟩, ⟨posted, ?_, hposted⟩⟩
    · simpa [advance, hpc, LatPc.isWritten] using honce
    · simpa [advance, hpc, LatPc.pending] using hpassed
  · have hnone : (s.writer.posted w').filter LatOp.isWrite = [] := by
      rw [List.filter_eq_nil_iff]
      intro op hop
      simp [hstays.noMessage op hop]
    simp only [hnone, List.append_nil]
    have honce' : s.sent.length = w'.written + if w'.pc.isWritten then 1 else 0 := by
      rw [hstays.written, hstays.phase hsucceeds, honce]
    rcases hstays.pending hsucceeds with ⟨happended, hpending⟩ | ⟨data, happended, hpending, hnil⟩
    · refine ⟨hinTurn, ⟨honce', ?_⟩, ⟨posted, ?_, hposted⟩⟩
      · rw [happended]
        exact h.along.follows
      · rw [happended, hpending, hpassed]
    · rw [hnil, List.append_nil] at hpassed
      refine ⟨hinTurn, ⟨honce', fun k op hk => ?_⟩, ⟨posted, ?_, hposted⟩⟩
      · obtain ⟨data', hdata', hfollows⟩ := h.along.follows k op hk
        refine ⟨data', ?_, hfollows⟩
        rw [happended, List.getElem?_append_left (List.getElem?_eq_some_iff.mp hdata').1, hdata']
      · rw [happended, hpending, hpassed]

/-- A node with 200 bytes and nothing allocated. -/
def emptyNode : NodeServer := .init 200 fun _ => 0

/-- Two segments and three appends. The third one finds the counter at 3 and goes to the first
segment again. -/
def aroundMoves : List LatMove :=
  let append : List LatMove := [.step, .step, .step, .nic fun _ => 0, .step]
  constructMoves 2 ++ append ++ append ++
    [.step, .step, .nic fun x => if x = 0 then 3 else 0, .step, .step]

def aroundWriter : Recorded where
  writer := init (emptyNode.handle 2 (16 + 24) .lat).2.1 2 16 64
    [.append ⟨[7], [], false⟩, .append ⟨[8], [], false⟩, .append ⟨[9], [], false⟩]
  sent := []

end BufferWriterLat
end DpiLibrary
