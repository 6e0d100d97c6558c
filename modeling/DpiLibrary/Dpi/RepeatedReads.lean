import DpiLibrary.Dpi.ReaderBounds
import DpiLibrary.Rdma.AllocatorCoverage

/-!
# Reading the same buffer again and again

Each call of `read` takes one block of the reader's local memory for the data and one for
a header, and gives neither back. Nothing looks at the pointers: the call that finds no
room goes on with a null pointer. Up to that call the blocks lie one behind the other,
so every result keeps its bytes.
-/

namespace DpiLibrary

/-- Offset of the block taken, nothing for a null pointer. -/
def RDMAManager.localAlloc (m : RDMAManager) (size : ℕ) : RDMAManager × Option ℕ :=
  let (m, memRes) := m.internalAlloc size
  (m, if memRes.isnull then none else some memRes.offset)

namespace RDMAManager

/-- The free memory is what lies behind the first `used` bytes. -/
structure FreeFrom (m : RDMAManager) (used : ℕ) : Prop where
  le : used ≤ m.memSize
  free : m.rdmaMem = [.ofBlock (m.memSize - used) true used] ∨ used = m.memSize ∧ m.rdmaMem = []

variable {m : RDMAManager} {used size : ℕ}

theorem freeFrom_init (memSize : ℕ) : FreeFrom (init memSize) 0 := ⟨Nat.zero_le _, Or.inl rfl⟩

/-- A block is taken from the front of the free memory, if it is long enough. -/
theorem FreeFrom.localAlloc (h : m.FreeFrom used) (size : ℕ) :
    (m.localAlloc size).2 = none ∧ (used < m.memSize → m.memSize < used + size) ∨
      used + size ≤ m.memSize ∧ (m.localAlloc size).2 = some used ∧
        (m.localAlloc size).1.FreeFrom (used + size) ∧
        (m.localAlloc size).1.memSize = m.memSize := by
  have hle := h.le
  rcases m.internalAlloc_servedFrom size with
    ⟨hnone, heq⟩ | ⟨pre, b, post, -, hsplit, -, hsize, heq⟩
  · refine Or.inl ⟨by rw [RDMAManager.localAlloc, heq]; rfl, fun hroom => ?_⟩
    have hfree := h.free.resolve_right fun hnone => hroom.ne hnone.1
    rw [servedFrom, hfree] at hnone
    simp only [RdmaMem.ofBlock, List.find?_singleton, Bool.true_and, decide_eq_true_eq,
      ite_eq_right_iff, reduceCtorEq, imp_false] at hnone
    omega
  · have hfree := h.free.resolve_right fun hnone => by simp [hnone.2] at hsplit
    rw [hfree, List.singleton_eq_append_iff] at hsplit
    rcases hsplit with ⟨rfl, hcons⟩ | ⟨-, hcons⟩
    · obtain ⟨rfl, rfl⟩ := List.cons.inj hcons
      have hfits : used + size ≤ m.memSize := by
        simp only [RdmaMem.ofBlock] at hsize
        omega
      have hrest : remainder (RdmaMem.ofBlock (m.memSize - used) true used) size =
          if size < m.memSize - used then
            [.ofBlock (m.memSize - used - size) true (used + size)] else [] := rfl
      rw [RDMAManager.localAlloc, heq, hrest]
      refine Or.inr ⟨hfits, rfl, ⟨hfits, ?_⟩, rfl⟩
      simp only [List.nil_append, List.append_nil]
      split_ifs with hlt
      · exact Or.inl (by rw [Nat.sub_sub])
      · exact Or.inr ⟨by omega, rfl⟩
    · cases hcons

end RDMAManager

/-- What the memory manager of an RDMA client holds: the blocks and the registered memory. -/
structure LocalMemory where
  manager : RDMAManager
  buffer : Mem

namespace BufferReader

/-- What a call comes to. `usesNull` is a remote read into a null pointer. -/
inductive ReadResult where
  | returned (data sizeRead : ℕ)
  | nullptr
  | usesNull
  deriving DecidableEq, Repr

/-- The loop over the segments of a ring, with the local blocks for the data and the header. The
state is the local memory and `writeoffset`. -/
def fetchRing (m : Mem) (withHeader : Bool) (data header : ℕ) :
    ℕ → ℕ → Mem × ℕ → Option (Mem × ℕ)
  | 0, _, _ => none
  | fuel + 1, currentSegmentOffset, (buffer, writeoffset) =>
    let buffer := writeBytes buffer header (readBytes m currentSegmentOffset segmentHeaderSize)
    let segmentDataSize := (readHeader buffer header).counter
    let (buffer, writeoffset) :=
      if withHeader then
        (writeBytes buffer (data + writeoffset)
          (readBytes m currentSegmentOffset (segmentDataSize + segmentHeaderSize)),
          writeoffset + (segmentDataSize + segmentHeaderSize))
      else
        (writeBytes buffer (data + writeoffset)
          (readBytes m (currentSegmentOffset + segmentHeaderSize) segmentDataSize),
          writeoffset + segmentDataSize)
    let currentSegmentOffset := (readHeader buffer header).nextSegmentOffset
    if (readHeader buffer header).isEndSegment then some (buffer, writeoffset)
    else fetchRing m withHeader data header fuel currentSegmentOffset (buffer, writeoffset)

/-- One call of `read`. -/
def call (fuel : ℕ) (m : Mem) (handle : BufferHandle) (withHeader : Bool) (s : LocalMemory) :
    Option (ReadResult × LocalMemory) :=
  if handle.entrySegments = [] then some (.nullptr, s)
  else
    let (manager, data) := s.manager.localAlloc (dataSize handle withHeader)
    let (manager, header) := manager.localAlloc segmentHeaderSize
    match data, header with
    | some data, some header =>
      (handle.entrySegments.foldlM
        (fun state segment => fetchRing m withHeader data header fuel segment.offset state)
        (s.buffer, 0)).map
          fun (buffer, writeoffset) => (.returned data writeoffset, ⟨manager, buffer⟩)
    | _, _ => some (.usesNull, ⟨manager, s.buffer⟩)

/-- The results of so many calls on one reader, the last one first. -/
def calls (fuel : ℕ) (m : Mem) (handle : BufferHandle) (withHeader : Bool) (memSize : ℕ)
    (buffer : Mem) : ℕ → Option (List ReadResult × LocalMemory)
  | 0 => some ([], ⟨.init memSize, buffer⟩)
  | count + 1 =>
    (calls fuel m handle withHeader memSize buffer count).bind fun (results, s) =>
      (call fuel m handle withHeader s).map fun (result, s) => (result :: results, s)

/-- The block of memory behind the pointer returned. -/
def ReadResult.span : ReadResult → Span
  | .returned data sizeRead => ⟨data, sizeRead⟩
  | _ => ⟨0, 0⟩

/-- Bytes and size of a result, as the memory is now. -/
def ReadResult.bytes (buffer : Mem) : ReadResult → Option (List UInt8)
  | .returned data sizeRead => some (readBytes buffer data sizeRead)
  | _ => none

/-- Calls that can all be told apart from none: no null pointer is used, all results that are data
are the same bytes still, and no two of them share memory. -/
structure Repeats (results : List ReadResult) (buffer : Mem) : Prop where
  pointers : .usesNull ∉ results
  same : ∀ x ∈ results, ∀ y ∈ results,
    x = .nullptr ∨ y = .nullptr ∨ x.bytes buffer = y.bytes buffer
  apart : results.Pairwise fun x y => x.span.Apart y.span

variable {m : Mem} {withHeader : Bool} {data header limit : ℕ}

theorem readRing_length_le {fuel offset : ℕ} {bytes bytes' : List UInt8}
    (h : readRing m withHeader fuel offset bytes = some bytes') :
    bytes.length ≤ bytes'.length := by
  induction fuel generalizing offset bytes with
  | zero => cases h
  | succ fuel ih =>
    simp only [readRing] at h
    split_ifs at h with hend
    · cases h
      rw [List.length_append]
      exact Nat.le_add_right _ _
    · have hle := ih h
      rw [List.length_append] at hle
      omega

theorem readRings_length_le {fuel : ℕ} {segments : List BufferSegment} {bytes bytes' : List UInt8}
    (h : segments.foldlM (fun bytes segment =>
      readRing m withHeader fuel segment.offset bytes) bytes = some bytes') :
    bytes.length ≤ bytes'.length := by
  induction segments generalizing bytes with
  | nil =>
    cases h
    exact le_rfl
  | cons segment segments ih =>
    rw [List.foldlM_cons] at h
    obtain ⟨bytes₁, hhead, htail⟩ := Option.bind_eq_some_iff.mp h
    exact (readRing_length_le hhead).trans (ih htail)

/-- The local memory after some rings: the bytes are in the data block, and memory outside the two
blocks is as it was. -/
structure Fetched (data header limit : ℕ) (buffer buffer' : Mem) (bytes : List UInt8) : Prop where
  bytes : readBytes buffer' data bytes.length = bytes
  frame : ∀ start len, (Span.mk start len).Apart ⟨data, limit⟩ →
    (Span.mk start len).Apart ⟨header, segmentHeaderSize⟩ → AgreeOn buffer' buffer start len

theorem Fetched.trans {buffer₁ buffer₂ buffer₃ : Mem} {bytes bytes' : List UInt8}
    (h : Fetched data header limit buffer₁ buffer₂ bytes)
    (h' : Fetched data header limit buffer₂ buffer₃ bytes') :
    Fetched data header limit buffer₁ buffer₃ bytes' :=
  ⟨h'.bytes, fun start len hdata hheader =>
    (h'.frame start len hdata hheader).trans (h.frame start len hdata hheader)⟩

/-- What one pass of the loop leaves in local memory. -/
def afterPass (m : Mem) (withHeader : Bool) (data header offset : ℕ) (buffer : Mem)
    (writeoffset : ℕ) : Mem :=
  writeBytes (writeBytes buffer header (readBytes m offset segmentHeaderSize)) (data + writeoffset)
    (segmentBytes m withHeader offset)

theorem fetched_afterPass (hapart : (Span.mk data limit).Apart ⟨header, segmentHeaderSize⟩)
    {offset : ℕ} {bytes : List UInt8} {buffer : Mem}
    (hbytes : readBytes buffer data bytes.length = bytes)
    (hfits : (bytes ++ segmentBytes m withHeader offset).length ≤ limit) :
    Fetched data header limit buffer
        (afterPass m withHeader data header offset buffer bytes.length)
        (bytes ++ segmentBytes m withHeader offset) ∧
      readHeader (afterPass m withHeader data header offset buffer bytes.length) header =
        readHeader m offset := by
  rw [List.length_append] at hfits
  simp only [Span.Apart] at hapart
  refine ⟨⟨?_, fun start len hdata hheader => ?_⟩, ?_⟩
  · have hold : AgreeOn (afterPass m withHeader data header offset buffer bytes.length) buffer data
        bytes.length := by
      apply (agreeOn_writeBytes (by omega)).trans
      apply agreeOn_writeBytes
      rw [length_readBytes]
      omega
    rw [List.length_append, readBytes_add, hold.readBytes, hbytes, afterPass, readBytes_writeBytes]
  · simp only [Span.Apart] at hdata hheader
    apply (agreeOn_writeBytes (by omega)).trans
    apply agreeOn_writeBytes
    rw [length_readBytes]
    omega
  · have hkept : AgreeOn (afterPass m withHeader data header offset buffer bytes.length)
        (writeBytes buffer header (readBytes m offset segmentHeaderSize)) header
        segmentHeaderSize := by
      apply agreeOn_writeBytes
      omega
    rw [hkept.readHeader, readHeader_copy]

theorem fetchRing_succ (fuel offset writeoffset : ℕ) (buffer : Mem)
    (hheader : readHeader (afterPass m withHeader data header offset buffer writeoffset) header =
      readHeader m offset) :
    fetchRing m withHeader data header (fuel + 1) offset (buffer, writeoffset) =
      if (readHeader m offset).isEndSegment then
        some (afterPass m withHeader data header offset buffer writeoffset,
          writeoffset + (segmentBytes m withHeader offset).length)
      else fetchRing m withHeader data header fuel (readHeader m offset).nextSegmentOffset
        (afterPass m withHeader data header offset buffer writeoffset,
          writeoffset + (segmentBytes m withHeader offset).length) := by
  cases withHeader with
  | true =>
    simp only [afterPass, segmentBytes, if_true] at hheader
    simp only [fetchRing, readHeader_copy, if_true, hheader, afterPass, segmentBytes,
      length_readBytes]
  | false =>
    simp only [afterPass, segmentBytes, Bool.false_eq_true, if_false] at hheader
    simp only [fetchRing, readHeader_copy, Bool.false_eq_true, if_false, hheader, afterPass,
      segmentBytes, length_readBytes]

/-- In local memory the loop does what `readRing` says. -/
theorem fetchRing_eq (hapart : (Span.mk data limit).Apart ⟨header, segmentHeaderSize⟩) {fuel : ℕ} :
    ∀ {offset : ℕ} {bytes bytes' : List UInt8} {buffer : Mem},
      readBytes buffer data bytes.length = bytes →
      readRing m withHeader fuel offset bytes = some bytes' → bytes'.length ≤ limit →
      ∃ buffer', Fetched data header limit buffer buffer' bytes' ∧
        fetchRing m withHeader data header fuel offset (buffer, bytes.length) =
          some (buffer', bytes'.length) := by
  induction fuel with
  | zero =>
    intro offset bytes bytes' buffer _ hread
    cases hread
  | succ fuel ih =>
    intro offset bytes bytes' buffer hbytes hread hlimit
    simp only [readRing] at hread
    have hfits : (bytes ++ segmentBytes m withHeader offset).length ≤ limit := by
      split_ifs at hread
      · cases hread
        exact hlimit
      · exact (readRing_length_le hread).trans hlimit
    obtain ⟨hpass, hheader⟩ := fetched_afterPass hapart hbytes hfits
    rw [fetchRing_succ fuel offset bytes.length buffer hheader, ← List.length_append]
    split_ifs at hread ⊢ with hend
    · cases hread
      exact ⟨_, hpass, rfl⟩
    · obtain ⟨buffer', hfetched, hrest⟩ := ih hpass.bytes hread hlimit
      exact ⟨buffer', hpass.trans hfetched, hrest⟩

theorem fetchRings_eq (hapart : (Span.mk data limit).Apart ⟨header, segmentHeaderSize⟩) {fuel : ℕ}
    {segments : List BufferSegment} :
    ∀ {bytes bytes' : List UInt8} {buffer : Mem}, readBytes buffer data bytes.length = bytes →
      segments.foldlM (fun bytes segment => readRing m withHeader fuel segment.offset bytes) bytes =
        some bytes' → bytes'.length ≤ limit →
      ∃ buffer', Fetched data header limit buffer buffer' bytes' ∧
        segments.foldlM (fun state segment =>
          fetchRing m withHeader data header fuel segment.offset state) (buffer, bytes.length) =
          some (buffer', bytes'.length) := by
  induction segments with
  | nil =>
    intro bytes bytes' buffer hbytes hread _
    cases hread
    exact ⟨buffer, ⟨hbytes, fun start len _ _ => .refl _ _ _⟩, rfl⟩
  | cons segment segments ih =>
    intro bytes bytes' buffer hbytes hread hlimit
    rw [List.foldlM_cons] at hread
    obtain ⟨bytes₁, hhead, htail⟩ := Option.bind_eq_some_iff.mp hread
    obtain ⟨buffer₁, hfetched₁, hfetch₁⟩ := fetchRing_eq hapart hbytes hhead
      ((readRings_length_le htail).trans hlimit)
    obtain ⟨buffer₂, hfetched₂, hfetch₂⟩ := ih hfetched₁.bytes htail hlimit
    refine ⟨buffer₂, hfetched₁.trans hfetched₂, ?_⟩
    rw [List.foldlM_cons, hfetch₁]
    exact hfetch₂

variable {handle : BufferHandle} {fuel memSize used : ℕ} {bytes : List UInt8} {s : LocalMemory}

/-- A buffer that can be read: with segments, and with no more bytes than `dataSize` says. -/
structure Readable (fuel : ℕ) (m : Mem) (handle : BufferHandle) (withHeader : Bool)
    (bytes : List UInt8) : Prop where
  entries : handle.entrySegments ≠ []
  read : handle.entrySegments.foldlM (fun bytes segment =>
    readRing m withHeader fuel segment.offset bytes) [] = some bytes
  fits : bytes.length ≤ dataSize handle withHeader

/-- Bytes of local memory that a call takes. -/
def callSize (handle : BufferHandle) (withHeader : Bool) : ℕ :=
  dataSize handle withHeader + segmentHeaderSize

/-- With room for both blocks a call returns the bytes, in the first of them. -/
theorem Readable.call (h : Readable fuel m handle withHeader bytes)
    (hfree : s.manager.FreeFrom used)
    (hroom : used + callSize handle withHeader ≤ s.manager.memSize) :
    ∃ s', call fuel m handle withHeader s = some (.returned used bytes.length, s') ∧
      s'.manager.FreeFrom (used + callSize handle withHeader) ∧
      s'.manager.memSize = s.manager.memSize ∧
      Fetched used (used + dataSize handle withHeader) (dataSize handle withHeader) s.buffer
        s'.buffer bytes := by
  unfold callSize at *
  have hpos : 0 < segmentHeaderSize := by decide
  obtain ⟨-, hdata, hfree₁, hsize₁⟩ :=
    (hfree.localAlloc (dataSize handle withHeader)).resolve_left (by omega)
  obtain ⟨-, hheader, hfree₂, hsize₂⟩ :=
    (hfree₁.localAlloc segmentHeaderSize).resolve_left (by omega)
  obtain ⟨buffer', hfetched, hfetch⟩ := fetchRings_eq
    (show (Span.mk used (dataSize handle withHeader)).Apart
      ⟨used + dataSize handle withHeader, segmentHeaderSize⟩ from Or.inl le_rfl)
      (readBytes_zero s.buffer used) h.read h.fits
  refine ⟨⟨_, buffer'⟩, ?_, ?_, hsize₂.trans hsize₁, hfetched⟩
  · simp only [BufferReader.call, if_neg h.entries, hdata, hheader]
    rw [List.length_nil] at hfetch
    rw [hfetch, Option.map_some]
  · rw [Nat.add_assoc] at hfree₂
    exact hfree₂

/-- Without room for both a call uses a null pointer. -/
theorem call_full (fuel : ℕ) (m : Mem) (hentries : handle.entrySegments ≠ [])
    (hfree : s.manager.FreeFrom used)
    (hfull : s.manager.memSize < used + callSize handle withHeader) :
    ∃ s', call fuel m handle withHeader s = some (.usesNull, s') := by
  unfold callSize at hfull
  simp only [call, if_neg hentries]
  rcases hfree.localAlloc (dataSize handle withHeader) with
    ⟨hnone, -⟩ | ⟨-, hsome, hfree₁, hsize₁⟩
  · rw [hnone]
    exact ⟨_, rfl⟩
  · rcases hfree₁.localAlloc segmentHeaderSize with ⟨hnone, -⟩ | ⟨hfits, -⟩
    · rw [hsome, hnone]
      exact ⟨_, rfl⟩
    · omega

/-- The results of calls that all find room, the last one first: the blocks lie one behind the
other. -/
def resultsOf (stride size : ℕ) : ℕ → List ReadResult
  | 0 => []
  | count + 1 => .returned (count * stride) size :: resultsOf stride size count

theorem mem_resultsOf {stride size count : ℕ} {x : ReadResult}
    (h : x ∈ resultsOf stride size count) : ∃ i < count, x = .returned (i * stride) size := by
  induction count with
  | zero => cases h
  | succ count ih =>
    rcases List.mem_cons.mp h with rfl | hmem
    · exact ⟨count, Nat.lt_succ_self _, rfl⟩
    · obtain ⟨i, hi, rfl⟩ := ih hmem
      exact ⟨i, by omega, rfl⟩

theorem add_mul_le {i count : ℕ} (hi : i < count) (stride : ℕ) :
    i * stride + stride ≤ count * stride := by
  rw [← Nat.succ_mul]
  exact Nat.mul_le_mul_right _ hi

theorem pairwise_resultsOf {stride size : ℕ} (hsize : size ≤ stride) (count : ℕ) :
    (resultsOf stride size count).Pairwise fun x y => x.span.Apart y.span := by
  induction count with
  | zero => exact List.Pairwise.nil
  | succ count ih =>
    refine List.pairwise_cons.mpr ⟨fun y hy => ?_, ih⟩
    obtain ⟨i, hi, rfl⟩ := mem_resultsOf hy
    have hle := add_mul_le hi stride
    right
    simp only [ReadResult.span]
    omega

/-- After so many calls with room for all of them every result still has the bytes. -/
structure CallsDone (fuel : ℕ) (m : Mem) (handle : BufferHandle) (withHeader : Bool)
    (memSize : ℕ) (buffer : Mem) (bytes : List UInt8) (count : ℕ) (s : LocalMemory) : Prop where
  run : calls fuel m handle withHeader memSize buffer count =
    some (resultsOf (callSize handle withHeader) bytes.length count, s)
  free : s.manager.FreeFrom (count * callSize handle withHeader)
  memSize : s.manager.memSize = memSize
  held : ∀ i < count,
    readBytes s.buffer (i * callSize handle withHeader) bytes.length = bytes

theorem Readable.calls (h : Readable fuel m handle withHeader bytes) (buffer : Mem) {count : ℕ}
    (hroom : count * callSize handle withHeader ≤ memSize) :
    ∃ s, CallsDone fuel m handle withHeader memSize buffer bytes count s := by
  induction count with
  | zero =>
    refine ⟨_, rfl, ?_, rfl, fun i hi => absurd hi (Nat.not_lt_zero i)⟩
    rw [Nat.zero_mul]
    exact RDMAManager.freeFrom_init memSize
  | succ count ih =>
    rw [Nat.succ_mul] at hroom
    obtain ⟨s, hs⟩ := ih (by omega)
    obtain ⟨s', hcall, hfree, hsize, hfetched⟩ := h.call hs.free (by rw [hs.memSize]; exact hroom)
    refine ⟨s', ?_, ?_, hsize.trans hs.memSize, fun i hi => ?_⟩
    · rw [BufferReader.calls, hs.run, Option.bind_some]
      simp only [hcall, Option.map_some, resultsOf]
    · rw [Nat.succ_mul]
      exact hfree
    · rcases Nat.lt_succ_iff_lt_or_eq.mp hi with hlt | rfl
      · have hle := add_mul_le hlt (callSize handle withHeader)
        have hfits := h.fits
        have hsame : AgreeOn s'.buffer s.buffer (i * callSize handle withHeader)
            bytes.length := by
          apply hfetched.frame
          · left
            simp only
            unfold callSize at *
            omega
          · left
            simp only
            unfold callSize at *
            omega
        rw [hsame.readBytes]
        exact hs.held i hlt
      · exact hfetched.bytes

theorem CallsDone.repeats {buffer : Mem} {count : ℕ}
    (h : CallsDone fuel m handle withHeader memSize buffer bytes count s)
    (hfits : bytes.length ≤ dataSize handle withHeader) :
    Repeats (resultsOf (callSize handle withHeader) bytes.length count) s.buffer := by
  refine ⟨fun hnull => ?_, fun x hx y hy => Or.inr (Or.inr ?_),
    pairwise_resultsOf (hfits.trans (Nat.le_add_right _ _)) count⟩
  · obtain ⟨i, -, heq⟩ := mem_resultsOf hnull
    cases heq
  · obtain ⟨i, hi, rfl⟩ := mem_resultsOf hx
    obtain ⟨j, hj, rfl⟩ := mem_resultsOf hy
    simp only [ReadResult.bytes, h.held i hi, h.held j hj]

/-- Without room for all calls one of them uses a null pointer. -/
theorem Readable.usesNull (h : Readable fuel m handle withHeader bytes) (buffer : Mem) {count : ℕ}
    (hfull : memSize < count * callSize handle withHeader) {results : List ReadResult}
    (hrun : BufferReader.calls fuel m handle withHeader memSize buffer count = some (results, s)) :
    .usesNull ∈ results := by
  induction count generalizing results s with
  | zero => omega
  | succ count ih =>
    obtain ⟨⟨earlier, s₀⟩, hearlier, hlast⟩ := Option.bind_eq_some_iff.mp hrun
    obtain ⟨⟨result, s₁⟩, hcall, heq⟩ := Option.map_eq_some_iff.mp hlast
    cases heq
    by_cases hroom : memSize < count * callSize handle withHeader
    · exact List.mem_cons_of_mem _ (ih hroom hearlier)
    · obtain ⟨s', hs⟩ := h.calls buffer (Nat.le_of_not_lt hroom)
      rw [hs.run] at hearlier
      cases hearlier
      rw [Nat.succ_mul] at hfull
      obtain ⟨s'', hnull⟩ := call_full fuel m h.entries hs.free
        (by rw [hs.memSize]; exact hfull)
      rw [hnull] at hcall
      cases hcall
      exact List.mem_cons_self ..

/-- A handle without segments gives a null pointer each time. -/
theorem calls_no_entries (hentries : handle.entrySegments = []) (buffer : Mem) (count : ℕ) :
    BufferReader.calls fuel m handle withHeader memSize buffer count =
      some (List.replicate count .nullptr, ⟨.init memSize, buffer⟩) := by
  induction count with
  | zero => rfl
  | succ count ih =>
    rw [BufferReader.calls, ih, Option.bind_some]
    simp only [call, if_pos hentries, Option.map_some, List.replicate_succ]

end BufferReader

open BufferReader BufferWriterBW

variable {k : ℕ} {b : BufferRings k}

theorem RingEnds.readable {segments segmentSize : ℕ} (hk : k ≠ 0)
    (hsegments : ∀ r, (b.ring r).segments = segments)
    (hsegmentSize : ∀ r, (b.ring r).segmentSize = segmentSize) {m : Mem}
    (hends : ∀ r, RingEnds (b.ring r) m) (name : String) (nodeId : ℕ) (withHeader : Bool)
    {fuel : ℕ} (hfuel : segments ≤ fuel) :
    ∃ bytes, Readable fuel m (b.handle name nodeId segments segmentSize) withHeader bytes := by
  have hentries : (b.handle name nodeId segments segmentSize).entrySegments ≠ [] := by
    simpa [BufferRings.handle, List.finRange_eq_nil_iff] using hk
  obtain ⟨data, size, hread, hlength⟩ := read_ringEnds hsegments hsegmentSize hends name nodeId 0
    withHeader hfuel
  rw [BufferReader.read, if_neg hentries] at hread
  obtain ⟨bytes, hbytes, heq⟩ := Option.map_eq_some_iff.mp hread
  cases heq
  exact ⟨bytes, hentries, hbytes, hlength⟩

/-- A reader of a closed buffer can be called as often as its local memory has room for the two
blocks of a call: the results are then the same bytes in separate blocks, and no null pointer is
used. -/
theorem reads_repeat_iff (b : BufferRings k) (segments segmentSize : ℕ)
    (hsegments : ∀ r, (b.ring r).segments = segments)
    (hsegmentSize : ∀ r, (b.ring r).segmentSize = segmentSize) (m : Mem)
    (hends : ∀ r, RingEnds (b.ring r) m) (name : String) (nodeId : ℕ) (withHeader : Bool)
    (fuel : ℕ) (hfuel : segments ≤ fuel) (memSize : ℕ) (buffer : Mem) (count : ℕ) :
    (∃ results s, calls fuel m (b.handle name nodeId segments segmentSize) withHeader memSize
        buffer count = some (results, s) ∧ Repeats results s.buffer) ↔
      k = 0 ∨ count * (dataSize (b.handle name nodeId segments segmentSize) withHeader +
        segmentHeaderSize) ≤ memSize := by
  by_cases hk : k = 0
  · refine iff_of_true ?_ (Or.inl hk)
    have hentries : (b.handle name nodeId segments segmentSize).entrySegments = [] := by
      subst hk
      rfl
    refine ⟨_, _, calls_no_entries hentries buffer count, fun hnull => ?_, fun x hx y hy => ?_, ?_⟩
    · cases List.eq_of_mem_replicate hnull
    · exact Or.inl (List.eq_of_mem_replicate hx)
    · exact List.pairwise_replicate.mpr (Or.inr (Or.inl le_rfl))
  · obtain ⟨bytes, hreadable⟩ := RingEnds.readable hk hsegments hsegmentSize hends name nodeId
      withHeader hfuel
    constructor
    · rintro ⟨results, s, hrun, hrepeats⟩
      by_contra hnot
      obtain ⟨-, hfull⟩ := not_or.mp hnot
      exact hrepeats.pointers (hreadable.usesNull buffer (Nat.lt_of_not_le hfull) hrun)
    · intro hroom
      obtain ⟨s, hs⟩ := hreadable.calls buffer (hroom.resolve_left hk)
      exact ⟨_, s, hs.run, hs.repeats hreadable.fits⟩

/-- A closed ring, two calls, and room for both. -/
theorem reads_repeat_closed_ring :
    ∃ s, Schedule.exec (RingSystem.step .bw machine)
        (RingSystem.init (byteSegments 2 (by decide) (by decide)) (fun _ => 0)
          ((byteSegments 2 (by decide) (by decide)).bandwidthWriters (fun _ => 4)
            fun _ => [[7]])) closedRun = some s ∧
      ∃ results t, calls 2 s.mem ((byteSegments 2 (by decide) (by decide)).handle "buffer" 1 2 1)
        false 52 (fun _ => 0) 2 = some (results, t) ∧ Repeats results t.buffer := by
  have hrun : ((Schedule.exec (RingSystem.step .bw machine)
      (RingSystem.init (byteSegments 2 (by decide) (by decide)) (fun _ => 0)
        ((byteSegments 2 (by decide) (by decide)).bandwidthWriters (fun _ => 4)
          fun _ => [[7]])) closedRun).map fun s =>
        ((s.writers 0).pc, (s.writers 0).queue, (s.writers 0).calls)) =
      some (.closing, [], []) := by decide +kernel
  obtain ⟨s, hs, heq⟩ := Option.map_eq_some_iff.mp hrun
  simp only [Prod.mk.injEq] at heq
  refine ⟨s, hs, (reads_repeat_iff (byteSegments 2 (by decide) (by decide)) 2 1 (fun _ => rfl)
    (fun _ => rfl) s.mem (fun r => ?_) "buffer" 1 false 2 le_rfl 52 (fun _ => 0) 2).mpr
      (Or.inr (by decide))⟩
  rw [Subsingleton.elim r 0]
  exact ringEnds_of_closed (endMarked_of_run (b := byteSegments 2 (by decide) (by decide)) rfl
    (by simp [closedRun, openRun, RingLabel.OfWriter]) hs 0) ⟨Or.inl heq.1, heq.2.1, heq.2.2⟩

/-- The same ring with less local memory: the second call reads into a null pointer. -/
theorem second_read_uses_null :
    ((Schedule.exec (RingSystem.step .bw machine)
        (RingSystem.init (byteSegments 2 (by decide) (by decide)) (fun _ => 0)
          ((byteSegments 2 (by decide) (by decide)).bandwidthWriters (fun _ => 4)
            fun _ => [[7]])) closedRun).bind fun s =>
      (calls 2 s.mem ((byteSegments 2 (by decide) (by decide)).handle "buffer" 1 2 1) false 51
        (fun _ => 0) 2).map Prod.fst) = some [.usesNull, .returned 0 1] := by decide +kernel

end DpiLibrary
