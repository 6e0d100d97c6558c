import DpiLibrary.Foundation.ByteMemory
import DpiLibrary.Dpi.BufferHandle

/-!
# Segment headers

A header is three 64-bit words in front of the data of a segment: the number of
data bytes, the offset of the next segment of the ring and the flags. The remote
side moves a header as a whole; the local side changes single fields.
-/

namespace DpiLibrary

/-- `DPI_SEGMENT_HEADER_t`. -/
structure SegmentHeader where
  counter : ℕ
  nextSegmentOffset : ℕ
  segmentFlags : ℕ
  deriving DecidableEq, Repr

namespace SegmentHeader

def isWriteable (h : SegmentHeader) : Bool := h.segmentFlags &&& 0b0001 ≠ 0

def isConsumable (h : SegmentHeader) : Bool := h.segmentFlags &&& 0b0010 ≠ 0

def isEndSegment (h : SegmentHeader) : Bool := h.segmentFlags &&& 0b0100 ≠ 0

def setWriteable (h : SegmentHeader) (writeable : Bool) : SegmentHeader :=
  { h with segmentFlags :=
      if writeable then h.segmentFlags ||| 0b0001 else h.segmentFlags &&& 0b1110 }

def setConsumable (h : SegmentHeader) (consumable : Bool) : SegmentHeader :=
  { h with segmentFlags :=
      if consumable then h.segmentFlags ||| 0b0010 else h.segmentFlags &&& 0b1101 }

def markEndSegment (h : SegmentHeader) (endSegment : Bool := true) : SegmentHeader :=
  { h with segmentFlags :=
      if endSegment then h.segmentFlags ||| 0b0100 else h.segmentFlags &&& 0b1011 }

@[simp] theorem isEndSegment_setWriteable (h : SegmentHeader) :
    (h.setWriteable true).isEndSegment = h.isEndSegment := by
  simp [setWriteable, isEndSegment, Nat.and_or_distrib_right]

@[simp] theorem isEndSegment_setConsumable (h : SegmentHeader) :
    (h.setConsumable false).isEndSegment = h.isEndSegment := by
  simp [setConsumable, isEndSegment, Nat.and_assoc]

@[simp] theorem isEndSegment_markEndSegment (h : SegmentHeader) :
    h.markEndSegment.isEndSegment = true := by
  simp [markEndSegment, isEndSegment, Nat.and_or_distrib_right]

@[simp] theorem isWriteable_counter (h : SegmentHeader) (counter : ℕ) :
    ({ h with counter } : SegmentHeader).isWriteable = h.isWriteable := rfl

@[simp] theorem isWriteable_setWriteable_false (h : SegmentHeader) :
    (h.setWriteable false).isWriteable = false := by
  simp [setWriteable, isWriteable]

@[simp] theorem isWriteable_setConsumable (h : SegmentHeader) (consumable : Bool) :
    (h.setConsumable consumable).isWriteable = h.isWriteable := by
  cases consumable <;> simp [setConsumable, isWriteable]

@[simp] theorem isWriteable_markEndSegment (h : SegmentHeader) :
    h.markEndSegment.isWriteable = h.isWriteable := by
  simp [markEndSegment, isWriteable]

@[simp] theorem isConsumable_setConsumable (h : SegmentHeader) :
    (h.setConsumable false).isConsumable = false := by
  simp [setConsumable, isConsumable, Nat.and_assoc]

@[simp] theorem isConsumable_setWriteable (h : SegmentHeader) :
    (h.setWriteable true).isConsumable = h.isConsumable := by
  simp [setWriteable, isConsumable, Nat.and_or_distrib_right]

/-- The flags of the header that `close` sends are among the flags there are. -/
theorem segmentFlags_closing_lt (h : SegmentHeader) :
    ((h.setWriteable false).setConsumable true).markEndSegment.segmentFlags < sizeTBound := by
  apply Nat.or_lt_two_pow _ (by decide)
  apply Nat.or_lt_two_pow _ (by decide)
  apply lt_of_le_of_lt Nat.and_le_right
  decide

/-- Making the header of `close` of one that has been made so changes nothing. -/
theorem closing_again (h : SegmentHeader) (counter : ℕ) :
    ((({ (({ h with counter }.setWriteable false).setConsumable true).markEndSegment with
      counter }).setWriteable false).setConsumable true).markEndSegment =
      (({ h with counter }.setWriteable false).setConsumable true).markEndSegment := by
  have hagain : h.segmentFlags &&& 14 &&& 14 = h.segmentFlags &&& 14 := by
    rw [Nat.and_assoc, Nat.and_self]
  simp [setWriteable, setConsumable, markEndSegment, Nat.and_or_distrib_right, Nat.or_assoc,
    hagain]

/-- Every field fits its word. -/
def Fits (h : SegmentHeader) : Prop :=
  h.counter < sizeTBound ∧ h.nextSegmentOffset < sizeTBound ∧ h.segmentFlags < sizeTBound

def encode (h : SegmentHeader) : List UInt8 :=
  encodeLE 8 h.counter ++ encodeLE 8 h.nextSegmentOffset ++ encodeLE 8 h.segmentFlags

@[simp] theorem length_encode (h : SegmentHeader) : h.encode.length = segmentHeaderSize := by
  simp [encode, segmentHeaderSize]

/-- The bytes of the size. -/
theorem getElem?_encode_counter (h : SegmentHeader) (data : List UInt8) {i : ℕ} (hi : i < 8) :
    (h.encode ++ data)[i]? = (encodeLE 8 h.counter)[i]? := by
  rw [List.getElem?_append_left (by rw [length_encode, segmentHeaderSize]; omega), encode,
    List.getElem?_append_left (by simp only [List.length_append, length_encodeLE]; omega),
    List.getElem?_append_left (by rw [length_encodeLE]; exact hi)]

/-- The bytes of the offset of the next segment. -/
theorem getElem?_encode_next (h : SegmentHeader) (data : List UInt8) {i : ℕ} (hi : i < 8) :
    (h.encode ++ data)[8 + i]? = (encodeLE 8 h.nextSegmentOffset)[i]? := by
  rw [List.getElem?_append_left (by rw [length_encode, segmentHeaderSize]; omega), encode,
    List.getElem?_append_left (by simp only [List.length_append, length_encodeLE]; omega),
    List.getElem?_append_right (by rw [length_encodeLE]; omega), length_encodeLE,
    Nat.add_sub_cancel_left]

/-- All flags are in the first byte of their word. -/
theorem getElem?_encode_flags {h : SegmentHeader} (hflags : h.segmentFlags < 256)
    (data : List UInt8) {i : ℕ} (hpos : 17 ≤ i) (hi : i < 24) :
    (h.encode ++ data)[i]? = some 0 := by
  have hlen : (encodeLE 8 h.counter ++ encodeLE 8 h.nextSegmentOffset).length = 16 := by simp
  rw [List.getElem?_append_left (by rw [length_encode, segmentHeaderSize]; exact hi), encode,
    List.getElem?_append_right (by omega), hlen]
  exact getElem?_encodeLE_of_lt hflags (by omega) (by omega)

end SegmentHeader

def readHeader (m : Mem) (off : ℕ) : SegmentHeader :=
  ⟨readWord m off, readWord m (off + 8), readWord m (off + 16)⟩

def writeHeader (m : Mem) (off : ℕ) (h : SegmentHeader) : Mem := writeBytes m off h.encode

/-- `header->counter = counter` in place. -/
def setCounterAt (m : Mem) (off counter : ℕ) : Mem := writeWord m off counter

/-- A change of the flags in place. -/
def modifyFlagsAt (m : Mem) (off : ℕ) (f : SegmentHeader → SegmentHeader) : Mem :=
  writeWord m (off + 16) (f (readHeader m off)).segmentFlags

theorem AgreeOn.readHeader {m m' : Mem} {off : ℕ} (h : AgreeOn m m' off segmentHeaderSize) :
    readHeader m off = readHeader m' off := by
  unfold segmentHeaderSize at h
  have h0 : AgreeOn m m' off 8 := h.mono le_rfl (by omega)
  have h8 : AgreeOn m m' (off + 8) 8 := h.mono (by omega) (by omega)
  have h16 : AgreeOn m m' (off + 16) 8 := h.mono (by omega) (by omega)
  rw [DpiLibrary.readHeader, DpiLibrary.readHeader, h0.readWord, h8.readWord, h16.readWord]

theorem agreeOn_writeHeader {m : Mem} {off off' len : ℕ} {h : SegmentHeader}
    (hout : off' + len ≤ off ∨ off + segmentHeaderSize ≤ off') :
    AgreeOn (writeHeader m off h) m off' len :=
  agreeOn_writeBytes (by simpa using hout)

theorem readHeader_writeBytes (m : Mem) (off : ℕ) {h : SegmentHeader} (data : List UInt8)
    (hfits : h.Fits) : readHeader (writeBytes m off (h.encode ++ data)) off = h := by
  obtain ⟨hc, hn, hf⟩ := hfits
  unfold sizeTBound at hc hn hf
  have hlen : (h.encode ++ data).length = 24 + data.length := by
    rw [List.length_append, h.length_encode]
    rfl
  have hword : ∀ i x rest, x < 2 ^ 64 → i + 8 ≤ 24 →
      (h.encode ++ data).drop i = encodeLE 8 x ++ rest →
      readWord (writeBytes m off (h.encode ++ data)) (off + i) = x := by
    intro i x rest hx hi hdrop
    rw [readWord, readBytes_writeBytes_within _ _ _ _ _ (by omega), hdrop,
      List.take_append_of_le_length (by simp), List.take_of_length_le (by simp),
      decodeLE_encodeLE _ _ (lt_of_lt_of_le hx (by norm_num))]
  have h0 : readWord (writeBytes m off (h.encode ++ data)) off = h.counter :=
    hword 0 h.counter (encodeLE 8 h.nextSegmentOffset ++ encodeLE 8 h.segmentFlags ++ data) hc
      (by omega) (by simp [SegmentHeader.encode])
  have h8 := hword 8 h.nextSegmentOffset (encodeLE 8 h.segmentFlags ++ data) hn (by omega)
    (by simp [SegmentHeader.encode])
  have h16 := hword 16 h.segmentFlags data hf (by omega)
    (by simp [SegmentHeader.encode, List.drop_append])
  rw [readHeader, h0, h8, h16]

theorem readHeader_writeHeader (m : Mem) (off : ℕ) {h : SegmentHeader} (hfits : h.Fits) :
    readHeader (writeHeader m off h) off = h := by
  have hread := readHeader_writeBytes m off [] hfits
  rwa [List.append_nil] at hread

theorem encode_readHeader (m : Mem) (off : ℕ) : (readHeader m off).encode = readBytes m off 24 := by
  simp only [SegmentHeader.encode, readHeader, ← readBytes_eq_encodeLE]
  rw [readBytes_add m off 16 8, readBytes_add m off 8 8]

theorem fits_readHeader (m : Mem) (off : ℕ) : (readHeader m off).Fits :=
  ⟨readWord_lt m off, readWord_lt m (off + 8), readWord_lt m (off + 16)⟩

/-- Writing a header back changes nothing. -/
theorem writeHeader_readHeader (m : Mem) (off : ℕ) : writeHeader m off (readHeader m off) = m := by
  rw [writeHeader, encode_readHeader, writeBytes_readBytes]

/-- A header that is copied byte by byte is the same header. -/
theorem readHeader_copy (m m' : Mem) (off off' : ℕ) :
    readHeader (writeBytes m' off' (readBytes m off segmentHeaderSize)) off' =
      readHeader m off := by
  rw [segmentHeaderSize, ← encode_readHeader]
  exact readHeader_writeHeader m' off' (fits_readHeader m off)

theorem readHeader_setCounterAt (m : Mem) (off : ℕ) {counter : ℕ} (h : counter < sizeTBound) :
    readHeader (setCounterAt m off counter) off = { readHeader m off with counter } := by
  unfold setCounterAt
  rw [readHeader, readWord_writeWord _ _ _ h,
    (agreeOn_writeWord (Or.inr (by omega))).readWord,
    (agreeOn_writeWord (Or.inr (by omega))).readWord]
  rfl

theorem readHeader_modifyFlagsAt (m : Mem) (off : ℕ) {f : SegmentHeader → SegmentHeader}
    (h : (f (readHeader m off)).segmentFlags < sizeTBound) :
    readHeader (modifyFlagsAt m off f) off =
      { readHeader m off with segmentFlags := (f (readHeader m off)).segmentFlags } := by
  unfold modifyFlagsAt
  rw [readHeader, readWord_writeWord _ _ _ h,
    (agreeOn_writeWord (Or.inl (by omega))).readWord,
    (agreeOn_writeWord (Or.inl (by omega))).readWord]
  rfl

end DpiLibrary
