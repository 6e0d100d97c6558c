import DpiLibrary.Foundation.Chunks
import DpiLibrary.Dpi.AllocatedRing
import DpiLibrary.Dpi.AppendCloseRead

/-!
# The ring a writer leaves behind

Without a consumer the memory of a closed ring depends on the bytes appended alone. The
writer cuts them where its segments end, and how they came in calls and in pieces of the
internal buffer leaves no trace: neither in the headers nor in bytes that were not appended.
-/

namespace DpiLibrary

variable {k : ℕ}

namespace BufferWriterBW

variable {g : RingGeometry} {x x' : RingState g} {m m' m₀ : Mem} {w w' : BufferWriterBW}
  {cur : List UInt8} {program : List UInt8} {stage : MarkStep} {made : Option ℕ}

/-- What can be in the queue behind the data writes. -/
inductive Tail (x : RingState g) (w : BufferWriterBW) : List RemoteOp → Prop
  | nil : Tail x w []
  | read (remote : ℕ) : Tail x w [.readHeader remote]
  | flush (hheader : w.header = g.freeHeader x.sent.length) :
    Tail x w [.writeHeader (g.slot x.sent.length)]
  | handOver (next : ℕ) (data : List UInt8) (rest : Option (List UInt8))
    (hpc : w.pc = .handOver next data rest) (hdata : data ≠ []) :
    Tail x w [.writeHeader (g.slot x.sent.length)]
  | close (hpc : w.pc = .closing) (hcalls : w.calls = []) :
    Tail x w [.writeHeader (g.slot x.sent.length)]

theorem State.tail (h : State x m w cur) :
    (∃ tail, Holding x m w cur tail ∧ Tail x w tail) ∨ ∀ op queue, w.queue = op :: queue →
      ∃ remote, op = .readHeader remote := by
  have hnone : w.queue = [] → ∀ op queue, w.queue = op :: queue →
      ∃ remote, op = .readHeader remote := by
    intro hqueue op queue hcons
    rw [hqueue] at hcons
    cases hcons
  unfold State at h
  cases hpc : w.pc with
  | constructing =>
    simp only [hpc] at h
    exact Or.inl ⟨_, h.1, .nil⟩
  | constructed =>
    simp only [hpc] at h
    rcases h with h | h
    · exact Or.inl ⟨_, h.1, .read _⟩
    · exact Or.inl ⟨_, h.toHolding, .nil⟩
  | flush data after =>
    simp only [hpc] at h
    rcases h.2.2 with h | h
    · exact Or.inl ⟨_, h.toHolding, .flush h.header⟩
    · exact Or.inl ⟨_, h.1.toHolding, .nil⟩
  | getNextSegment data rest =>
    simp only [hpc] at h
    exact Or.inl ⟨_, h.1.toHolding, .nil⟩
  | handOver next data rest =>
    simp only [hpc] at h
    rcases h.2 with h' | h'
    · exact Or.inl ⟨_, h'.1, .handOver next data rest hpc h.1⟩
    · exact Or.inr (hnone h'.2)
  | poll next data rest =>
    simp only [hpc] at h
    apply Or.inr
    intro op queue hqueue
    rcases h.2.2 with hread | ⟨hempty, -⟩
    · rw [hread] at hqueue
      exact ⟨next, (List.cons.inj hqueue).1.symm⟩
    · exact hnone hempty op queue hqueue
  | closing =>
    simp only [hpc] at h
    rcases h with h | h
    · exact Or.inl ⟨_, h.1, .close hpc h.2.1⟩
    · exact Or.inr (hnone h.queue)
  | closed =>
    simp only [hpc] at h
    exact Or.inr (hnone h.queue)
  | _ =>
    simp only [hpc] at h
    exact Or.inl ⟨_, h.toHolding, .nil⟩

/-- A data write at the head of the queue lies in the part of the segment that is filled. -/
theorem Holding.head_place {tail : List RemoteOp} (h : Holding x m w cur tail)
    (htail : ∀ remote src len queue, tail ≠ .writeData remote src len :: queue)
    {remote src len : ℕ} {queue : List RemoteOp}
    (hqueue : w.queue = .writeData remote src len :: queue) :
    g.dataOffset x.sent.length ≤ remote ∧
      remote + len ≤ g.dataOffset x.sent.length + cur.length := by
  obtain ⟨landed, rest, ops, hcur, hq, -, hposted⟩ := h.queue
  rw [hqueue] at hq
  cases ops with
  | nil => exact absurd hq.symm (htail remote src len queue)
  | cons op ops =>
    obtain ⟨rfl, -⟩ := List.cons.inj hq
    obtain ⟨rfl, -, rest', rfl, -⟩ := hposted
    have hlen := congrArg List.length hcur
    simp only [List.length_append, length_readBytes] at hlen
    omega

/-- What an executed operation writes: bytes into the part of the segment held that is
filled, one header of the ring, or nothing. -/
inductive Wrote (x : RingState g) (m : Mem) (filled : ℕ) : Mem → Prop
  | data (remote : ℕ) (bytes : List UInt8) (hroom : x.sent.length < x.released + g.segments)
    (hlo : g.dataOffset x.sent.length ≤ remote)
    (hhi : remote + bytes.length ≤ g.dataOffset x.sent.length + filled) :
    Wrote x m filled (writeBytes m remote bytes)
  | header (j : ℕ) (header : SegmentHeader) : Wrote x m filled (writeHeader m (g.slot j) header)
  | none : Wrote x m filled m

theorem Inv.wrote (h : Inv g program x m w) (hstep : w.nic m = some (m', w', made)) :
    ∃ filled, Wrote x m filled m' ∧ (filled ≠ 0 →
      filled ≤ g.segmentSize ∧ x.sent.length * g.segmentSize + filled ≤ w.appended.length) := by
  obtain ⟨cur, happ, hstate⟩ := h.state
  cases hqueue : w.queue with
  | nil => simp [BufferWriterBW.nic, hqueue] at hstep
  | cons op queue =>
    cases op with
    | writeData remote src len =>
      simp only [BufferWriterBW.nic, hqueue, Option.some.injEq, Prod.mk.injEq] at hstep
      obtain ⟨rfl, -, -⟩ := hstep
      rcases hstate.tail with ⟨tail, hhold, htail⟩ | hread
      · obtain ⟨hlo, hhi⟩ := hhold.head_place (by
          intro remote src len queue heq
          cases htail <;> simp at heq) hqueue
        refine ⟨cur.length, .data _ _ hhold.room hlo (by rwa [length_readBytes]), fun _ => ?_⟩
        have hlen := congrArg List.length happ
        simp only [List.length_append,
          length_flatten_of_blocks (h.blocks hhold.unfinished)] at hlen
        exact ⟨hhold.fits, by omega⟩
      · obtain ⟨remote', heq⟩ := hread _ _ hqueue
        cases heq
    | writeHeader remote =>
      simp only [BufferWriterBW.nic, hqueue, Option.some.injEq, Prod.mk.injEq] at hstep
      obtain ⟨rfl, -, -⟩ := hstep
      rcases hstate.tail with ⟨tail, hhold, htail⟩ | hread
      · rcases hhold.head hqueue with ⟨_, _, _, heq, -⟩ | ⟨heq, -⟩
        · cases heq
        · have hremote : remote = g.slot x.sent.length := by
            cases htail <;> simp at heq <;> exact heq.1.symm
          rw [hremote]
          exact ⟨0, .header _ _, fun hne => absurd rfl hne⟩
      · obtain ⟨remote', heq⟩ := hread _ _ hqueue
        cases heq
    | readHeader remote =>
      simp only [BufferWriterBW.nic, hqueue, Option.some.injEq, Prod.mk.injEq] at hstep
      obtain ⟨rfl, -, -⟩ := hstep
      exact ⟨0, .none, fun hne => absurd rfl hne⟩

/-- A consumable header arrives from `getNextSegment`, which has more to write, or from
`close`. -/
theorem Inv.made_some (h : Inv g program x m w) {offset : ℕ}
    (hstep : w.nic m = some (m', w', some offset)) :
    (∃ next data rest, w'.pc = .handOver next data rest ∧ data ≠ []) ∨ w'.Closed := by
  obtain ⟨cur, happ, hstate⟩ := h.state
  cases hqueue : w.queue with
  | nil => simp [BufferWriterBW.nic, hqueue] at hstep
  | cons op queue =>
    cases op with
    | writeData remote src len => simp [BufferWriterBW.nic, hqueue] at hstep
    | readHeader remote => simp [BufferWriterBW.nic, hqueue] at hstep
    | writeHeader remote =>
      simp only [BufferWriterBW.nic, hqueue, Option.some.injEq, Prod.mk.injEq] at hstep
      obtain ⟨-, rfl, hmade⟩ := hstep
      rcases hstate.tail with ⟨tail, hhold, htail⟩ | hread
      · rcases hhold.head hqueue with ⟨_, _, _, heq, -⟩ | ⟨heq, -⟩
        · cases heq
        · cases htail with
          | nil => cases heq
          | read remote => cases heq
          | flush hheader =>
            rw [hheader] at hmade
            simp [RingGeometry.freeHeader, SegmentHeader.isConsumable] at hmade
          | handOver next data rest hpc hdata => exact Or.inl ⟨next, data, rest, hpc, hdata⟩
          | close hpc hcalls =>
            have hempty : queue = [] := by simpa using (List.cons.inj heq).2.symm
            exact Or.inr ⟨Or.inl hpc, hempty, hcalls⟩
      · obtain ⟨remote', heq⟩ := hread _ _ hqueue
        cases heq

/-- What happens outside the ring is not the writer's. -/
theorem Wrote.outside {filled : ℕ} (h : Wrote x m filled m')
    (hfilled : filled ≠ 0 → filled ≤ g.segmentSize) {y : ℕ}
    (hy : y < g.entry ∨ g.entry + g.segments * g.fullSize ≤ y) : m' y = m y := by
  cases h with
  | data remote bytes hroom hlo hhi =>
    have hle := g.le_slot x.sent.length
    have hend := g.slot_add_fullSize_le x.sent.length
    unfold RingGeometry.dataOffset at hlo hhi
    unfold RingGeometry.fullSize at hend hy
    apply writeBytes_of_not_writes (w := (remote, bytes))
    rintro ⟨hfirst, hlast⟩
    simp only at hfirst hlast
    have hsize := hfilled (by omega)
    omega
  | header j header =>
    have hle := g.le_slot j
    have hend := g.slot_add_fullSize_le j
    unfold RingGeometry.fullSize at hend hy
    have hagree : AgreeOn (writeHeader m (g.slot j) header) m y 1 := agreeOn_writeHeader (by omega)
    exact hagree y le_rfl (Nat.lt_succ_self y)
  | none => rfl

/-- Bytes of the ring that nothing has been appended for stay as they are. -/
theorem Wrote.untouched {filled total : ℕ} (h : Wrote x m filled m') (hreleased : x.released = 0)
    (hfilled : filled ≠ 0 → filled ≤ g.segmentSize ∧
      x.sent.length * g.segmentSize + filled ≤ total) {i d : ℕ} (hi : i < g.segments)
    (hd : d < g.segmentSize) (htotal : total ≤ i * g.segmentSize + d) :
    m' (g.dataOffset i + d) = m (g.dataOffset i + d) := by
  cases h with
  | data remote bytes hroom hlo hhi =>
    apply writeBytes_of_not_writes (w := (remote, bytes))
    rintro ⟨hfirst, hlast⟩
    simp only at hfirst hlast
    obtain ⟨hfits, hle⟩ := hfilled (by omega)
    by_cases hslot : i = x.sent.length
    · subst hslot
      omega
    · have hapart := g.slots_apart 0 ⟨Nat.zero_le i, by omega⟩ ⟨Nat.zero_le _, by omega⟩ hslot
      unfold RingGeometry.dataOffset at *
      unfold RingGeometry.fullSize at hapart
      omega
  | header j header =>
    obtain ⟨j', -, hj', hslot⟩ := g.exists_window 0 j
    rw [← hslot]
    have hagree : AgreeOn (writeHeader m (g.slot j') header) m (g.dataOffset i + d) 1 := by
      apply agreeOn_writeHeader
      unfold RingGeometry.dataOffset
      by_cases hij : i = j'
      · rw [hij]
        omega
      · have hapart := g.slots_apart 0 ⟨Nat.zero_le i, by omega⟩ ⟨Nat.zero_le _, hj'⟩ hij
        unfold RingGeometry.fullSize at hapart
        omega
    exact hagree _ le_rfl (Nat.lt_succ_self _)
  | none => rfl

/-- What is on the ring of what has been appended: full segments as long as the writer goes on,
the chunks in the end, and no other byte. -/
structure Filling (g : RingGeometry) (m₀ : Mem) (x : RingState g) (m : Mem) (w : BufferWriterBW) :
    Prop where
  more : x.fin = false → x.sent ≠ [] → x.sent.length * g.segmentSize < w.appended.length
  chunks : x.fin = true → Chunked g.segmentSize x.sent
  untouched : ∀ i < g.segments, ∀ d < g.segmentSize, w.appended.length ≤ i * g.segmentSize + d →
    m (g.dataOffset i + d) = m₀ (g.dataOffset i + d)

theorem Filling.step (h : Filling g m₀ x m w) (happ : w.appended.length ≤ w'.appended.length) :
    Filling g m₀ x m w' where
  more hfin hsent := (h.more hfin hsent).trans_le happ
  chunks := h.chunks
  untouched i hi d hd hle := h.untouched i hi d hd (happ.trans hle)

theorem length_appended_step (h : w.step = some w') :
    w.appended.length ≤ w'.appended.length := by
  have hwrite : ∀ data after, (w.writeToSegment data after).appended = w.appended := by
    intro data after
    unfold BufferWriterBW.writeToSegment
    split_ifs <;> rfl
  have hcall : w.nextCall = some w' → w.appended.length ≤ w'.appended.length := by
    intro hnext
    unfold BufferWriterBW.nextCall at hnext
    split at hnext <;> cases hnext
    · simp
    · exact le_rfl
  unfold BufferWriterBW.step at h
  split at h
  case h_3 => exact hcall h
  case h_11 => exact hcall h
  case h_5 =>
    cases h
    unfold BufferWriterBW.superAppend
    dsimp only
    split_ifs
    · rw [hwrite]
    · exact le_rfl
    · rw [hwrite]
  all_goals
    try split_ifs at h
    all_goals
      cases h
      exact le_rfl

/-- Full blocks and the block that `close` sends. -/
theorem chunked_land (h : Inv g program x m w) (hf : Filling g m₀ x m w) (hfin : x.fin = false)
    (h' : Inv g program x' m' w') (hfin' : x'.fin = true) (happ : w'.appended = w.appended)
    {block : List UInt8} (hsent : x'.sent = x.sent ++ [block])
    (hle : block.length ≤ g.segmentSize) : Chunked g.segmentSize x'.sent := by
  rw [hsent]
  apply Chunked.of_full (h.blocks hfin) hle
  intro hne hnil
  have hmore := hf.more hfin hne
  obtain ⟨-, hprogram, hflatten⟩ := h'.finished hfin'
  have hlen := congrArg List.length hflatten
  rw [← hprogram, happ, hsent, hnil, List.flatten_concat, List.append_nil,
    length_flatten_of_blocks (h.blocks hfin)] at hlen
  omega

theorem Filling.nic (hf : Filling g m₀ x m w) (hsize : 0 < g.segmentSize)
    (hreleased : x.released = 0) (h : Inv g program x m w)
    (hstep : w.nic m = some (m', w', made)) (hmove : NicMove x made x')
    (h' : Inv g program x' m' w') (hshows : g.Shows .bw x' stage m') : Filling g m₀ x' m' w' := by
  obtain ⟨op, queue, header, hqueue, hw'⟩ := nic_eq hstep
  have happ : w'.appended = w.appended := by rw [hw']
  obtain ⟨filled, hwrote, hfilled⟩ := h.wrote hstep
  have huntouched : ∀ i < g.segments, ∀ d < g.segmentSize,
      w'.appended.length ≤ i * g.segmentSize + d →
        m' (g.dataOffset i + d) = m₀ (g.dataOffset i + d) := by
    intro i hi d hd hle
    rw [happ] at hle
    rw [hwrote.untouched hreleased hfilled hi hd hle]
    exact hf.untouched i hi d hd hle
  cases hmove with
  | stutter => exact ⟨by rw [happ]; exact hf.more, hf.chunks, huntouched⟩
  | land block last hroom hfin =>
    refine ⟨fun hfin' _ => ?_, fun hfin' => ?_, huntouched⟩
    · -- the writer goes on: it has something left for the next segment
      rcases h.made_some hstep with ⟨next, data, rest, hpc, hdata⟩ | hclosed
      · obtain ⟨cur', happ', -⟩ := h'.state
        have hlen := congrArg List.length happ'
        have hpos := List.length_pos_of_ne_nil hdata
        simp only [hpc, WriterPc.pending, List.length_append,
          length_flatten_of_blocks (h'.blocks hfin')] at hlen
        omega
      · rw [h'.fin_of_closed hclosed] at hfin'
        cases hfin'
    · apply chunked_land h hf hfin h' hfin' happ rfl
      exact hshows.lengths block (by simp)
  | finish hfin hsent =>
    refine ⟨fun hfin' => Bool.noConfusion hfin', fun _ => ?_, huntouched⟩
    have hblocks := h.blocks hfin
    rw [LaggedRing.finish_sent, ← List.dropLast_append_getLast hsent]
    apply Chunked.of_full fun c hc => hblocks c (List.dropLast_subset _ hc)
    · exact (hblocks _ (List.getLast_mem hsent)).le
    · intro _ hnil
      have hlast := hblocks _ (List.getLast_mem hsent)
      rw [hnil, List.length_nil] at hlast
      omega

end BufferWriterBW
/-- Header of segment `i` of a closed ring with `total` bytes. -/
def RingGeometry.layoutHeader (g : RingGeometry) (total i : ℕ) : SegmentHeader :=
  if i < chunkCount g.segmentSize total then
    ⟨min g.segmentSize (total - i * g.segmentSize), g.slot (i + 1),
      if i + 1 = chunkCount g.segmentSize total then 0b0110 else 0b0010⟩
  else g.freeHeader i

/-- Every byte of a closed ring: the headers, the bytes appended one after the other, and
behind them what was there before. -/
structure LaidOut (g : RingGeometry) (m₀ : Mem) (bytes : List UInt8) (m : Mem) : Prop where
  header : ∀ i < g.segments, readHeader m (g.slot i) = g.layoutHeader bytes.length i
  data : ∀ i < g.segments, ∀ d < g.segmentSize,
    m (g.dataOffset i + d) =
      bytes.getD (i * g.segmentSize + d) (m₀ (g.dataOffset i + d))

open BufferWriterBW

section

variable {g : RingGeometry} {x : RingState g} {m m' m₀ : Mem} {w : BufferWriterBW}
  {program bytes : List UInt8}

theorem Chunked.length_getElem {size : ℕ} {chunks : List (List UInt8)} (h : Chunked size chunks)
    {i : ℕ} (hi : i < chunks.length) :
    (chunks[i]).length = min size (chunks.flatten.length - i * size) := by
  rw [h.getElem_eq i hi, List.length_take, List.length_drop]

theorem sentHeader_of_chunked (hchunks : Chunked g.segmentSize x.sent) (hfin : x.fin = true)
    {i : ℕ} (hi : i < x.sent.length) :
    g.sentHeader .bw x i =
      ⟨min g.segmentSize (x.sent.flatten.length - i * g.segmentSize), g.slot (i + 1),
        if i + 1 = x.sent.length then 0b0110 else 0b0010⟩ := by
  have hlength := hchunks.length_getElem hi
  have hget : x.sent.getD i [] = x.sent[i] := by
    rw [List.getD_eq_getElem?_getD, List.getElem?_eq_getElem hi, Option.getD_some]
  unfold RingGeometry.sentHeader
  simp only [hfin, true_and, hget, hlength, RingGeometry.sentFlags]
  split_ifs <;> rfl

/-- A byte of a block sent is the byte appended at its place. -/
theorem byte_of_chunked (hchunks : Chunked g.segmentSize x.sent)
    (hshows : g.Shows .bw x .checkEnd m) (hreleased : x.released = 0) {i d : ℕ}
    (hd : d < g.segmentSize) (hi : i < x.sent.length)
    (hin : i * g.segmentSize + d < x.sent.flatten.length) :
    m (g.dataOffset i + d) = x.sent.flatten[i * g.segmentSize + d] := by
  have hread := hshows.data i _ (by omega) (List.getElem?_eq_getElem hi)
  have hlength := hchunks.length_getElem hi
  have hbyte := congrArg (fun bytes : List UInt8 => bytes[d]?) hread
  have hplace := congrArg (fun bytes : List UInt8 => bytes[d]?) (hchunks.getElem_eq i hi)
  rw [getElem?_readBytes _ _ _ _ (by omega), hplace, List.getElem?_take_of_lt hd,
    List.getElem?_drop, List.getElem?_eq_getElem hin] at hbyte
  exact Option.some.inj hbyte

theorem laidOut_of_closed (h : Inv g program x m w) (hf : Filling g m₀ x m w)
    (hshows : g.Shows .bw x .checkEnd m) (hreleased : x.released = 0) (hsize : 0 < g.segmentSize)
    (hfin : x.fin = true) : LaidOut g m₀ program m := by
  have hchunks := hf.chunks hfin
  obtain ⟨-, happ, hflatten⟩ := h.finished hfin
  have hcount := hchunks.length_eq hsize
  have hsent := x.sent_le
  subst hflatten
  constructor
  · intro i hi
    rw [hshows.header i (by omega) (by omega), RingGeometry.expectedHeader,
      RingGeometry.layoutHeader, ← hcount]
    by_cases hlt : i < x.sent.length
    · rw [if_pos hlt, if_pos hlt, ← sentHeader_of_chunked hchunks hfin hlt]
      exact ite_self _
    · rw [if_neg hlt, if_neg hlt]
  · intro i hi d hd
    by_cases hin : i * g.segmentSize + d < x.sent.flatten.length
    · have hlt : i < x.sent.length := by
        have hle := hchunks.length_flatten_le
        exact Nat.lt_of_mul_lt_mul_right (show i * g.segmentSize < _ by omega)
      rw [byte_of_chunked hchunks hshows hreleased hd hlt hin, List.getD_eq_getElem?_getD,
        List.getElem?_eq_getElem hin, Option.getD_some]
    · rw [hf.untouched i hi d hd (by rw [happ]; omega), List.getD_eq_getElem?_getD,
        List.getElem?_eq_none (by omega), Option.getD_none]

/-- A closed ring in terms of its segments. -/
structure RingLayout (g : RingGeometry) (m₀ : Mem) (bytes : List UInt8) (m : Mem) : Prop where
  walk : ∀ i, (nextSegmentAt m)^[i] g.entry = g.slot i
  count : chunkCount g.segmentSize bytes.length ≤ g.segments
  counter : ∀ i < chunkCount g.segmentSize bytes.length, (readHeader m (g.slot i)).counter =
    min ((i + 1) * g.segmentSize) bytes.length - i * g.segmentSize
  data : ∀ i < chunkCount g.segmentSize bytes.length,
    readBytes m (g.dataOffset i) (readHeader m (g.slot i)).counter =
      (bytes.drop (i * g.segmentSize)).take (readHeader m (g.slot i)).counter
  flags : ∀ i < chunkCount g.segmentSize bytes.length,
    (readHeader m (g.slot i)).isConsumable = true ∧
    (readHeader m (g.slot i)).isWriteable = false ∧
    ((readHeader m (g.slot i)).isEndSegment = true ↔
      i + 1 = chunkCount g.segmentSize bytes.length)
  rest : ∀ i, chunkCount g.segmentSize bytes.length ≤ i → i < g.segments →
    readHeader m (g.slot i) = readHeader m₀ (g.slot i)

theorem LaidOut.walk (h : LaidOut g m₀ bytes m) (i : ℕ) :
    (nextSegmentAt m)^[i] g.entry = g.slot i := by
  apply g.iterate_nextSegmentAt
  intro j
  have hlt := Nat.mod_lt j g.segments_pos
  rw [nextSegmentAt, ← g.slot_mod j, h.header _ hlt, RingGeometry.layoutHeader]
  have hnext : g.slot (j % g.segments + 1) = g.slot (j + 1) := by simp [RingGeometry.slot]
  split_ifs <;> exact hnext

theorem LaidOut.ringLayout (h : LaidOut g m₀ bytes m) (hsize : 0 < g.segmentSize)
    (hfits : bytes.length ≤ g.segments * g.segmentSize)
    (hfresh : ∀ i, readHeader m₀ (g.slot i) = g.freeHeader i) : RingLayout g m₀ bytes m := by
  have hcount : chunkCount g.segmentSize bytes.length ≤ g.segments :=
    chunkCount_le hsize g.segments_pos hfits
  have hheader : ∀ i < chunkCount g.segmentSize bytes.length, readHeader m (g.slot i) =
      ⟨min g.segmentSize (bytes.length - i * g.segmentSize), g.slot (i + 1),
        if i + 1 = chunkCount g.segmentSize bytes.length then 0b0110 else 0b0010⟩ := by
    intro i hi
    rw [h.header i (by omega), RingGeometry.layoutHeader, if_pos hi]
  refine ⟨h.walk, hcount, fun i hi => ?_, fun i hi => ?_, fun i hi => ?_, fun i hi hlt => ?_⟩
  · rw [hheader i hi, Nat.succ_mul]
    simp only
    omega
  · rw [hheader i hi]
    simp only
    apply List.ext_getElem?
    intro d
    by_cases hd : d < min g.segmentSize (bytes.length - i * g.segmentSize)
    · rw [getElem?_readBytes _ _ _ _ hd, List.getElem?_take_of_lt hd, List.getElem?_drop,
        h.data i (by omega) d (by omega), List.getD_eq_getElem?_getD,
        List.getElem?_eq_getElem (by omega), Option.getD_some]
    · rw [List.getElem?_eq_none (by
        rw [length_readBytes]
        omega), List.getElem?_eq_none (by
        rw [List.length_take, List.length_drop]
        omega)]
  · rw [hheader i hi]
    by_cases hlast : i + 1 = chunkCount g.segmentSize bytes.length
    · rw [if_pos hlast]
      exact ⟨by simp [SegmentHeader.isConsumable], by simp [SegmentHeader.isWriteable],
        iff_of_true (by simp [SegmentHeader.isEndSegment]) hlast⟩
    · rw [if_neg hlast]
      exact ⟨by simp [SegmentHeader.isConsumable], by simp [SegmentHeader.isWriteable],
        iff_of_false (by simp [SegmentHeader.isEndSegment]) hlast⟩
  · rw [h.header i hlt, RingGeometry.layoutHeader, if_neg (by omega), hfresh]

/-- A header is its bytes. -/
theorem agreeOn_of_readHeader {offset : ℕ} (h : readHeader m offset = readHeader m' offset) :
    AgreeOn m m' offset segmentHeaderSize := by
  intro y hlo hhi
  have hbytes : readBytes m offset 24 = readBytes m' offset 24 := by
    have hcounter := congrArg SegmentHeader.counter h
    have hnext := congrArg SegmentHeader.nextSegmentOffset h
    have hflags := congrArg SegmentHeader.segmentFlags h
    simp only [readHeader] at hcounter hnext hflags
    rw [readBytes_add _ _ 16 8, readBytes_add _ _ 8 8, readBytes_add _ _ 16 8,
      readBytes_add _ _ 8 8]
    simp only [readBytes_eq_encodeLE, hcounter, hnext, hflags]
  have hbyte := congrArg (fun bytes : List UInt8 => bytes[y - offset]?) hbytes
  unfold segmentHeaderSize at hhi
  rw [getElem?_readBytes _ _ _ _ (by omega), getElem?_readBytes _ _ _ _ (by omega),
    Nat.add_sub_cancel' hlo] at hbyte
  exact Option.some.inj hbyte

/-- The bytes appended and what was there before determine the memory of the ring. -/
theorem LaidOut.unique (h : LaidOut g m₀ bytes m) (h' : LaidOut g m₀ bytes m') :
    AgreeOn m m' g.entry (g.segments * g.fullSize) := by
  have hpos : 0 < g.fullSize := by
    unfold RingGeometry.fullSize segmentHeaderSize
    omega
  intro y hlo hhi
  obtain ⟨p, rfl⟩ := Nat.exists_eq_add_of_le hlo
  have hi : p / g.fullSize < g.segments :=
    (Nat.div_lt_iff_lt_mul hpos).mpr (by omega)
  have hdiv := Nat.div_add_mod p g.fullSize
  have hmod := Nat.mod_lt p hpos
  have hslot : g.slot (p / g.fullSize) + p % g.fullSize = g.entry + p := by
    rw [RingGeometry.slot, Nat.mod_eq_of_lt hi, Nat.mul_comm, Nat.add_assoc, hdiv]
  rw [← hslot]
  by_cases hheader : p % g.fullSize < segmentHeaderSize
  · have hsame := agreeOn_of_readHeader ((h.header _ hi).trans (h'.header _ hi).symm)
    exact hsame _ (Nat.le_add_right _ _) (by omega)
  · obtain ⟨d, hd⟩ := Nat.exists_eq_add_of_le (Nat.le_of_not_lt hheader)
    rw [hd, ← Nat.add_assoc]
    have hsize : d < g.segmentSize := by
      unfold RingGeometry.fullSize at hmod hd
      omega
    have hdata := h.data _ hi d hsize
    have hdata' := h'.data _ hi d hsize
    unfold RingGeometry.dataOffset at hdata hdata'
    rw [hdata, hdata']

end

variable {b : BufferRings k} {appends : Fin k → List (List UInt8)}

/-- States of a run without a consumer, with what is on each ring. -/
structure Filled (b : BufferRings k) (appends : Fin k → List (List UInt8)) (m₀ : Mem)
    (a : BufferState b) (s : RingSystem BufferWriterBW k) : Prop
    extends Unconsumed b appends a s where
  filling : ∀ r, Filling (b.ring r) m₀ (a.ring r) s.mem (s.writers r)

/-- An operation on one ring leaves what is on the others. -/
theorem BufferWriterBW.Filling.frame {r r' : Fin k} (hr : r' ≠ r) {m m' m₀ : Mem}
    {x : RingState (b.ring r')}
    {w : BufferWriterBW} (h : Filling (b.ring r') m₀ x m w)
    (hout : ∀ y, y < (b.ring r).entry ∨
      (b.ring r).entry + (b.ring r).segments * (b.ring r).fullSize ≤ y → m' y = m y) :
    Filling (b.ring r') m₀ x m' w := by
  refine ⟨h.more, h.chunks, fun i hi d hd hle => ?_⟩
  rw [hout _ ?_]
  · exact h.untouched i hi d hd hle
  · have hap := b.apart r' r hr
    have hc := b.counter_fits r
    have hc' := b.counter_fits r'
    have hlo := (b.ring r').le_slot i
    have hhi := (b.ring r').slot_add_fullSize_le i
    simp only [Span.Apart, RingGeometry.block] at hap
    unfold RingGeometry.dataOffset
    unfold RingGeometry.fullSize at hhi hap ⊢
    omega

theorem Filled.step (htype : b.type = .bw) (hsize : ∀ r, 0 < (b.ring r).segmentSize) {m₀ : Mem}
    {a : BufferState b} {s s' : RingSystem BufferWriterBW k} {label : RingLabel k}
    (hlabel : label.OfWriter) (h : Filled b appends m₀ a s)
    (hstep : RingSystem.step .bw machine s label = some s') :
    ∃ a', Filled b appends m₀ a' s' := by
  cases label with
  | writer r =>
    obtain ⟨w, hw, rfl⟩ := Option.map_eq_some_iff.mp hstep
    refine ⟨a, h.writer_step htype hw, fun r' => ?_⟩
    by_cases hr : r' = r
    · subst hr
      simp only [Function.update_self]
      exact (h.filling r').step (length_appended_step hw)
    · simp only [Function.update_of_ne hr]
      exact h.filling r'
  | nic r =>
    obtain ⟨⟨m', w, made⟩, hnic, rfl⟩ := Option.map_eq_some_iff.mp hstep
    obtain ⟨x, hmove, hnext⟩ := h.nic_step htype hnic (s.log ++ made.toList.map .madeConsumable)
    refine ⟨a.set r x, hnext, fun r' => ?_⟩
    by_cases hr : r' = r
    · subst hr
      have hwriter := hnext.sys.writer r'
      have hshows := hnext.shows htype r'
      simp only [BufferState.set_ring_self, Function.update_self] at hwriter hshows ⊢
      exact (h.filling r').nic (hsize r') (h.released r') (h.sys.writer r') hnic hmove hwriter
        hshows
    · simp only [BufferState.set_ring_of_ne _ hr, Function.update_of_ne hr]
      obtain ⟨filled, hwrote, hfilled⟩ := (h.sys.writer r).wrote hnic
      exact (h.filling r').frame hr fun y hy => hwrote.outside (fun hne => (hfilled hne).1) hy
  | iterator action => exact hlabel.elim

theorem Filled.exec (htype : b.type = .bw) (hsize : ∀ r, 0 < (b.ring r).segmentSize) {m₀ : Mem} :
    ∀ (schedule : List (RingLabel k)) (a : BufferState b) (s s' : RingSystem BufferWriterBW k),
      (∀ label ∈ schedule, label.OfWriter) → Filled b appends m₀ a s →
      Schedule.exec (RingSystem.step .bw machine) s schedule = some s' →
        ∃ a', Filled b appends m₀ a' s' := by
  intro schedule
  induction schedule with
  | nil =>
    intro a s s' _ h hrun
    cases hrun
    exact ⟨a, h⟩
  | cons label schedule ih =>
    intro a s s' hlabels h hrun
    obtain ⟨hlabel, hrest⟩ := List.forall_mem_cons.mp hlabels
    obtain ⟨t, ht, hrun⟩ := Option.bind_eq_some_iff.mp hrun
    obtain ⟨a', h'⟩ := h.step htype hsize hlabel ht
    exact ih a' t s' hrest h' hrun

/-- A state that the writers of a buffer reach alone, each with a buffer of at least one byte
and a program that fits into its ring. -/
structure ReachedAlone (b : BufferRings k) (m : Mem) (internalBufferSize : Fin k → ℕ)
    (appends : Fin k → List (List UInt8)) (s : RingSystem BufferWriterBW k) : Prop where
  buffer : ∀ r, 1 ≤ internalBufferSize r
  fits : ∀ r, (appends r).flatten.length ≤ (b.ring r).segments * (b.ring r).segmentSize
  run : ∃ schedule : List (RingLabel k), (∀ label ∈ schedule, label.OfWriter) ∧
    Schedule.exec (RingSystem.step .bw machine)
      (RingSystem.init b m (b.bandwidthWriters internalBufferSize appends)) schedule = some s

theorem ReachedAlone.filled (htype : b.type = .bw) (hsize : ∀ r, 1 ≤ (b.ring r).segmentSize)
    {m : Mem} {internalBufferSize : Fin k → ℕ} {s : RingSystem BufferWriterBW k}
    (h : ReachedAlone b m internalBufferSize appends s) :
    ∃ a, Filled b appends (b.initMem m) a s := by
  obtain ⟨schedule, hlabels, hrun⟩ := h.run
  have hstart : Filled b appends (b.initMem m) (.start b)
      (RingSystem.init b m (b.bandwidthWriters internalBufferSize appends)) := by
    refine ⟨⟨(RingSystem.refines_init m _ fun r => inv_init _ _ _ _ (spare_of_fits h.fits r)).1,
      rfl, fun _ => rfl, h.buffer⟩, fun r => ⟨fun _ hne => absurd rfl hne, ?_, ?_⟩⟩
    · exact fun hfin => Bool.noConfusion hfin
    · exact fun _ _ _ _ _ => rfl
  exact Filled.exec htype hsize schedule _ _ s hlabels hstart hrun

theorem ReachedAlone.laidOut (htype : b.type = .bw) (hsize : ∀ r, 1 ≤ (b.ring r).segmentSize)
    {m : Mem} {internalBufferSize : Fin k → ℕ} {s : RingSystem BufferWriterBW k}
    (h : ReachedAlone b m internalBufferSize appends s) {r : Fin k}
    (hclosed : (s.writers r).Closed) :
    LaidOut (b.ring r) (b.initMem m) (appends r).flatten s.mem := by
  obtain ⟨a, ha⟩ := h.filled htype hsize
  exact laidOut_of_closed (ha.sys.writer r) (ha.filling r) (ha.shows htype r) (ha.released r)
    (hsize r) ((ha.sys.writer r).fin_of_closed hclosed)

/-- Without a consumer the writers finish, each ring then holds what was appended, cut at the
ends of its segments, and any other calls and internal buffers for the same bytes leave the
same ring. -/
theorem ring_layout (b : BufferRings k) (htype : b.type = .bw)
    (hsize : ∀ r, 1 ≤ (b.ring r).segmentSize) (m : Mem) (internalBufferSize : Fin k → ℕ)
    (appends : Fin k → List (List UInt8)) (s : RingSystem BufferWriterBW k)
    (hrun : ReachedAlone b m internalBufferSize appends s) :
    ((∀ schedule s', (∀ label ∈ schedule, label.OfWriter) →
        Schedule.exec (RingSystem.step .bw machine) s schedule = some s' →
        schedule.length ≤ s.work) ∧
      ((∀ label, label.OfWriter → RingSystem.step .bw machine s label = none) →
        ∀ r, (s.writers r).Closed)) ∧
    (∀ r, (s.writers r).Closed →
      RingLayout (b.ring r) (b.initMem m) (appends r).flatten s.mem) ∧
    ∀ internalBufferSize' appends' s', ReachedAlone b m internalBufferSize' appends' s' →
      ∀ r, (s.writers r).Closed → (s'.writers r).Closed →
        (appends r).flatten = (appends' r).flatten →
        AgreeOn s.mem s'.mem (b.ring r).entry ((b.ring r).segments * (b.ring r).fullSize) := by
  obtain ⟨a, ha⟩ := hrun.filled htype hsize
  refine ⟨⟨fun schedule s' hlabels hexec => ?_, ha.closed_of_stopped⟩, fun r hclosed => ?_,
    fun internalBufferSize' appends' s' hrun' r hclosed hclosed' heq => ?_⟩
  · have hlength := (Schedule.length_add_measure_le RingSystem.work
      (fun s label s' hs hlabel hstep => Unconsumed.step htype hsize hrun.fits hlabel hs hstep)
      schedule s s' hlabels ⟨a, ha.toUnconsumed⟩ hexec).2
    omega
  · exact (hrun.laidOut htype hsize hclosed).ringLayout (hsize r) (hrun.fits r)
      (b.readHeader_initMem m r)
  · have hlaid := hrun'.laidOut htype hsize hclosed'
    rw [← heq] at hlaid
    exact (hrun.laidOut htype hsize hclosed).unique hlaid

/-- The writer fills two segments of one byte and closes. -/
def twoBlockRun : List (RingLabel 1) :=
  [.writer 0, .nic 0] ++ List.replicate 4 (.writer 0) ++
    [.nic 0, .writer 0, .nic 0, .writer 0, .nic 0, .writer 0, .writer 0, .nic 0, .writer 0, .nic 0]

theorem ring_layout_two_segments :
    ∃ s, ReachedAlone (byteSegments 2 (by decide) (by decide)) (fun _ => 0) (fun _ => 4)
        (fun _ => [[7, 9]]) s ∧
      RingLayout ((byteSegments 2 (by decide) (by decide)).ring 0)
        ((byteSegments 2 (by decide) (by decide)).initMem fun _ => 0) [7, 9] s.mem := by
  have hrun : ((Schedule.exec (RingSystem.step .bw machine)
      (RingSystem.init (byteSegments 2 (by decide) (by decide)) (fun _ => 0)
        ((byteSegments 2 (by decide) (by decide)).bandwidthWriters (fun _ => 4)
          fun _ => [[7, 9]])) twoBlockRun).map fun s =>
        ((s.writers 0).pc, (s.writers 0).queue, (s.writers 0).calls)) =
      some (.closing, [], []) := by decide +kernel
  obtain ⟨s, hs, heq⟩ := Option.map_eq_some_iff.mp hrun
  simp only [Prod.mk.injEq] at heq
  have halone : ReachedAlone (byteSegments 2 (by decide) (by decide)) (fun _ => 0) (fun _ => 4)
      (fun _ => [[7, 9]]) s :=
    ⟨fun _ => by decide, fun _ => le_rfl, twoBlockRun, by simp [twoBlockRun, RingLabel.OfWriter],
      hs⟩
  obtain ⟨-, hlayout, -⟩ := ring_layout (byteSegments 2 (by decide) (by decide)) rfl
    (fun _ => le_rfl) (fun _ => 0) (fun _ => 4) (fun _ => [[7, 9]]) s halone
  exact ⟨s, halone, hlayout 0 ⟨Or.inl heq.1, heq.2.1, heq.2.2⟩⟩

end DpiLibrary
