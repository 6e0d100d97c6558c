import DpiLibrary.Dpi.ReaderBounds
import DpiLibrary.Dpi.RingWalk

/-!
# A bandwidth writer that is closed twice

A bandwidth writer only changes headers that carry the writeable flag, and the iterator only
resets headers that do not carry it. So the header of `close` meets no reset on its way, for
any number of segments; it then stays as it is, and a second `close` writes it once more.
-/

namespace DpiLibrary

namespace BufferWriterBW

variable {g : RingGeometry} {p : ℕ} {m m' : Mem} {w w' : BufferWriterBW} {made : Option ℕ}

theorem ownedSegment_of_works (h : w.pc.Works) : w.ownedSegment = some w.segmentOffset := by
  unfold ownedSegment
  cases hpc : w.pc <;> simp_all [WriterPc.Works]

/-- Closing makes the same header of the header that it has made. -/
theorem closedHeader_again (hsize : w'.sizeUsed = w.sizeUsed)
    (hheader : w'.header = w.closedHeader) : w'.closedHeader = w.closedHeader := by
  rw [closedHeader, hheader, hsize]
  exact SegmentHeader.closing_again w.header w.sizeUsed

theorem isWriteable_closedHeader (w : BufferWriterBW) : w.closedHeader.isWriteable = false := by
  simp [closedHeader]

theorem isWriteable_consumableHeader (w : BufferWriterBW) :
    w.consumableHeader.isWriteable = false := by
  simp [consumableHeader, SegmentHeader.isWriteable, SegmentHeader.setConsumable,
    SegmentHeader.setWriteable]

/-- The header of the first `close` has arrived. -/
def Sealed (w : BufferWriterBW) : Prop := w.pc.Closes ∧ (w.queue = [] ∨ w.calls = [])

/-- The header at hand may be written to the segment acquired without handing it over. -/
def Acquired (h : SegmentHeader) : Prop := h.isWriteable = true ∧ h.isConsumable = false

/-- What the header at hand is good for. -/
def HeaderFlags (m : Mem) (w : BufferWriterBW) : Prop :=
  match w.pc with
  | .constructed => w.queue = [] → Acquired w.header
  | .handOver _ _ _ => w.header.isWriteable = false
  | .poll next _ _ => w.queue = [] → w.header.isWriteable = true →
    Acquired w.header ∧ (readHeader m next).isWriteable = true
  | .constructing | .closing | .closed => True
  | _ => Acquired w.header

theorem headerFlags_of_works (h : w.pc.Works) : HeaderFlags m w ↔ Acquired w.header := by
  unfold HeaderFlags
  cases hpc : w.pc <;> simp_all [WriterPc.Works]

theorem not_sealed (h : ¬ w.pc.Closes) : ¬ w.Sealed := fun hsealed => h hsealed.1

/-- A writer with two calls of `close` at its end, and the headers of its ring. -/
structure Reclosing (g : RingGeometry) (m : Mem) (w : BufferWriterBW) : Prop where
  place : ∃ p, AtSegment g p w
  chain : Chain g m
  fits : w.header.Fits
  free : ∀ j, (readHeader m (g.slot j)).isWriteable = true →
    (readHeader m (g.slot j)).isConsumable = false ∧
      (readHeader m (g.slot j)).isEndSegment = false
  flags : HeaderFlags m w
  opened : ¬ w.pc.Closes → w.header.isEndSegment = false ∧
    ∃ appends : List (List UInt8), w.calls = appends.map WriterCall.append ++ [.close, .close]
  unended : ¬ w.Sealed → ∀ j, (readHeader m (g.slot j)).isEndSegment = false
  held : ¬ w.Sealed → ∀ off ∈ w.ownedSegment, (readHeader m off).isWriteable = true
  closes : w.pc.Closes → w.header = w.closedHeader ∧ (w.calls = [.close] ∨
    w.calls = [] ∧ (w.queue = [] ∨ w.queue = [.writeHeader w.segmentOffset]))
  shown : w.Sealed → readHeader m w.segmentOffset = w.header

/-- A step that stays away from `close`. -/
theorem Reclosing.stays_open (h : Reclosing g m w) (hopen : ¬ w.pc.Closes)
    (hopen' : ¬ w'.pc.Closes) (hplace : ∃ p, AtSegment g p w') (hfits : w'.header.Fits)
    (hend : w'.header.isEndSegment = w.header.isEndSegment) (hflags : HeaderFlags m w')
    (hcalls : w'.calls = w.calls ∨ ∃ data, w.calls = .append data :: w'.calls)
    (howned : ∀ off ∈ w'.ownedSegment, (readHeader m off).isWriteable = true) :
    Reclosing g m w' := by
  obtain ⟨hnot, appends, happends⟩ := h.opened hopen
  refine ⟨hplace, h.chain, hfits, h.free, hflags, fun _ => ⟨hend.trans hnot, ?_⟩,
    fun _ => h.unended (not_sealed hopen), fun _ => howned, fun hcloses => absurd hcloses hopen',
    fun hsealed => absurd hsealed.1 hopen'⟩
  rcases hcalls with heq | ⟨data, heq⟩
  · exact ⟨appends, heq.trans happends⟩
  · cases appends with
    | nil => simp [heq] at happends
    | cons data' appends =>
      rw [heq, List.map_cons, List.cons_append, List.cons.injEq] at happends
      exact ⟨appends, happends.2⟩

/-- What `close` leaves, up to what depends on the calls before it. -/
theorem Reclosing.fits_close (h : Reclosing g m w) {calls : List WriterCall}
    (hw' : w' = post { w with calls, header := w.closedHeader } (.writeHeader w.segmentOffset)
      .closing) : w'.header.Fits ∧ w'.header = w'.closedHeader := by
  obtain ⟨p, hw⟩ := h.place
  have hsize : w'.sizeUsed = w.sizeUsed := by rw [hw']; rfl
  have hheader : w'.header = w.closedHeader := by rw [hw']; rfl
  have hlt : w.sizeUsed < sizeTBound := hw.used.trans_lt g.segmentSize_lt
  rw [closedHeader_again hsize hheader, hheader]
  exact ⟨⟨hlt, h.fits.2.1, flags_closedHeader_lt w⟩, rfl⟩

theorem Reclosing.first_close (h : Reclosing g m w) {calls : List WriterCall} (hpc : w.pc = .idle)
    (hcalls : w.calls = .close :: calls) (hplace : ∃ p, AtSegment g p w')
    (hw' : w' = post { w with calls, header := w.closedHeader } (.writeHeader w.segmentOffset)
      .closing) : Reclosing g m w' := by
  obtain ⟨hfits, hagain⟩ := h.fits_close hw'
  have hopen : ¬ w.pc.Closes := by simp [hpc, WriterPc.Closes]
  obtain ⟨-, appends, happends⟩ := h.opened hopen
  have hone : calls = [.close] := by
    cases appends with
    | nil => simpa [hcalls] using happends
    | cons data appends => simp [hcalls] at happends
  have hcloses : w'.pc.Closes := by rw [hw']; exact Or.inl rfl
  have hpc' : w'.pc = .closing := by rw [hw']; rfl
  have hcalls' : w'.calls = calls := by rw [hw']; rfl
  have hoffset : w'.segmentOffset = w.segmentOffset := by rw [hw']; rfl
  have hqueue' : w'.queue = w.queue ++ [.writeHeader w.segmentOffset] := by rw [hw']; rfl
  have hnot : ¬ w'.Sealed := by
    rintro ⟨-, hnil | hnil⟩
    · simp [hqueue'] at hnil
    · simp [hcalls', hone] at hnil
  refine ⟨hplace, h.chain, hfits, h.free, by simp only [HeaderFlags, hpc'],
    fun hopen' => absurd hcloses hopen', fun _ => h.unended (not_sealed hopen),
    fun _ off hoff => ?_,
    fun _ => ⟨hagain, Or.inl (hcalls'.trans hone)⟩, fun hsealed => absurd hsealed hnot⟩
  apply h.held (not_sealed hopen)
  simp only [ownedSegment, hpc', hoffset] at hoff
  simp only [ownedSegment, hpc]
  split_ifs at hoff
  · cases hoff
  · exact hoff

/-- The second call finds the header of the first one in memory. -/
theorem Reclosing.second_close (h : Reclosing g m w) {calls : List WriterCall}
    (hpc : w.pc = .closed) (hcalls : w.calls = .close :: calls) (hplace : ∃ p, AtSegment g p w')
    (hw' : w' = post { w with calls, header := w.closedHeader } (.writeHeader w.segmentOffset)
      .closing) : Reclosing g m w' := by
  obtain ⟨p, hw⟩ := h.place
  have hchain := hw.chain
  simp only [OnChain, hpc] at hchain
  obtain ⟨hfits, hagain⟩ := h.fits_close hw'
  obtain ⟨hsame, hone⟩ := h.closes (Or.inr hpc)
  have hnone : calls = [] := by
    rcases hone with hone | ⟨hnil, -⟩
    · rw [hcalls, List.cons.injEq] at hone
      exact hone.2
    · simp [hcalls] at hnil
  have hcloses : w'.pc.Closes := by rw [hw']; exact Or.inl rfl
  have hpc' : w'.pc = .closing := by rw [hw']; rfl
  have hcalls' : w'.calls = [] := by rw [hw']; exact hnone
  have hheader : w'.header = w.closedHeader := by rw [hw']; rfl
  have hoffset : w'.segmentOffset = w.segmentOffset := by rw [hw']; rfl
  have hqueue' : w'.queue = [.writeHeader w.segmentOffset] := by
    rw [hw', post, hchain.1, List.nil_append]
  have hsealed : w'.Sealed := ⟨hcloses, Or.inr hcalls'⟩
  refine ⟨hplace, h.chain, hfits, h.free, by simp only [HeaderFlags, hpc'],
    fun hopen' => absurd hcloses hopen', fun hnot => absurd hsealed hnot,
    fun hnot => absurd hsealed hnot, fun _ => ⟨hagain, Or.inr ⟨hcalls', Or.inr ?_⟩⟩, fun _ => ?_⟩
  · rw [hqueue', hoffset]
  · rw [hoffset, hheader, ← hsame]
    exact h.shown ⟨Or.inr hpc, Or.inl hchain.1⟩

theorem Reclosing.step (h : Reclosing g m w) (hstep : w.step = some w') : Reclosing g m w' := by
  obtain ⟨p, hw⟩ := h.place
  have hplace := hw.step hstep
  cases segmentStep hstep with
  | constructs hpc hpc' hqueue' hoffset hheader hcalls =>
    have hopen : ¬ w.pc.Closes := by simp [hpc, WriterPc.Closes]
    apply h.stays_open hopen (by simp [hpc', WriterPc.Closes]) hplace (hheader ▸ h.fits)
      (by rw [hheader]) _ (Or.inl hcalls)
    · have howned : w'.ownedSegment = w.ownedSegment := by simp [ownedSegment, hpc, hpc', hoffset]
      rw [howned]
      exact h.held (not_sealed hopen)
    · simp only [HeaderFlags, hpc']
      exact fun hnil => absurd hnil hqueue'
  | works hpc hpc' hoffset hheader hcalls =>
    have hopen : ¬ w.pc.Closes := by
      rcases hpc with hpc | ⟨hpc, -⟩
      · exact hpc.not_closes
      · simp [hpc, WriterPc.Closes]
    have hacquired : Acquired w.header := by
      rcases hpc with hpc | ⟨hpc, hqueue⟩
      · exact (headerFlags_of_works hpc).mp h.flags
      · have hflags := h.flags
        simp only [HeaderFlags, hpc] at hflags
        exact hflags hqueue
    have howned : w'.ownedSegment = w.ownedSegment := by
      rw [ownedSegment_of_works hpc', hoffset]
      rcases hpc with hpc | ⟨hpc, -⟩
      · rw [ownedSegment_of_works hpc]
      · simp [ownedSegment, hpc]
    apply h.stays_open hopen hpc'.not_closes hplace (hheader ▸ h.fits) (by rw [hheader]) _ hcalls
    · rw [howned]
      exact h.held (not_sealed hopen)
    · rw [headerFlags_of_works hpc', hheader]
      exact hacquired
  | handsOver next data rest hpc hpc' hoffset hheader hcalls =>
    have hopen := hpc.not_closes
    have hfits : w'.header.Fits := by
      have hlt : w.sizeUsed < sizeTBound := hw.used.trans_lt g.segmentSize_lt
      rw [hheader]
      exact ⟨hlt, h.fits.2.1, flags_consumableHeader_lt w⟩
    apply h.stays_open hopen (by simp [hpc', WriterPc.Closes]) hplace hfits
      (by rw [hheader, isEndSegment_consumableHeader]) _ (Or.inl hcalls)
    · intro off hoff
      apply h.held (not_sealed hopen)
      rw [ownedSegment_of_works hpc]
      simp only [ownedSegment, hpc', hoffset] at hoff
      split_ifs at hoff
      · cases hoff
      · exact hoff
    · simp only [HeaderFlags, hpc', hheader]
      exact isWriteable_consumableHeader w
  | polls next data rest hopen hpc' hqueue' hheader hcalls =>
    apply h.stays_open hopen (by simp [hpc', WriterPc.Closes]) hplace (hheader ▸ h.fits)
      (by rw [hheader]) _ (Or.inl hcalls)
    · simp [ownedSegment, hpc']
    · simp only [HeaderFlags, hpc']
      exact fun hnil => absurd hnil hqueue'
  | acquires next data rest hpc hqueue hwriteable hpc' hoffset hheader hcalls =>
    have hflags := h.flags
    simp only [HeaderFlags, hpc] at hflags
    obtain ⟨hacquired, hnext⟩ := hflags hqueue hwriteable
    apply h.stays_open (by simp [hpc, WriterPc.Closes]) hpc'.not_closes hplace (hheader ▸ h.fits)
      (by rw [hheader]) _ (Or.inl hcalls)
    · rw [ownedSegment_of_works hpc', hoffset]
      intro off hoff
      cases hoff
      exact hnext
    · rw [headerFlags_of_works hpc', hheader]
      exact hacquired
  | closes calls hpc hcalls hw' =>
    rcases hpc with hpc | hpc
    · exact h.first_close hpc hcalls hplace hw'
    · exact h.second_close hpc hcalls hplace hw'
  | resumes hpc data hcalls =>
    obtain ⟨-, hone | ⟨hnil, -⟩⟩ := h.closes (Or.inr hpc)
    · simp [hcalls] at hone
    · simp [hcalls] at hnil
  | closed hpc hqueue hw' =>
    subst hw'
    obtain ⟨hsame, hcalls⟩ := h.closes (Or.inl hpc)
    have hsealed : w.Sealed := ⟨Or.inl hpc, Or.inl hqueue⟩
    have hcloses : WriterPc.Closes .closed := Or.inr rfl
    exact ⟨hplace, h.chain, h.fits, h.free, trivial, fun hopen' => absurd hcloses hopen',
      fun hnot => absurd ⟨hcloses, Or.inl hqueue⟩ hnot, fun hnot => absurd ⟨hcloses, Or.inl hqueue⟩
        hnot, fun _ => ⟨hsame, hcalls⟩, fun _ => h.shown hsealed⟩

/-- Headers without the writeable flag stay as they are. -/
def KeepsTaken (g : RingGeometry) (m m' : Mem) : Prop :=
  ∀ j, (readHeader m (g.slot j)).isWriteable = false →
    readHeader m' (g.slot j) = readHeader m (g.slot j)

theorem Reclosing.calls_ne_nil (h : Reclosing g m w) (hnot : ¬ w.Sealed) : w.calls ≠ [] := by
  intro hnil
  by_cases hcloses : w.pc.Closes
  · exact hnot ⟨hcloses, Or.inr hnil⟩
  · obtain ⟨-, appends, happends⟩ := h.opened hcloses
    simp [hnil] at happends

/-- What arrives of a second `close` is there already. -/
theorem Reclosing.nic_sealed (h : Reclosing g m w) (hsealed : w.Sealed)
    (hnic : w.nic m = some (m', w', made)) : m' = m ∧ Reclosing g m w' := by
  obtain ⟨p, hw⟩ := h.place
  have hplace := hw.nic h.chain hnic
  obtain ⟨hcloses, hdone⟩ := hsealed
  obtain ⟨op, queue, header, hqueue, -⟩ := nic_eq hnic
  have hbusy : w.queue ≠ [] := by simp [hqueue]
  obtain ⟨hsame, hcalls⟩ := h.closes hcloses
  have hnil := hdone.resolve_left hbusy
  have hone : w.queue = [.writeHeader w.segmentOffset] := by
    rcases hcalls with hone | ⟨-, hempty | hone⟩
    · simp [hnil] at hone
    · exact absurd hempty hbusy
    · exact hone
  have hshown := h.shown ⟨hcloses, hdone⟩
  simp only [BufferWriterBW.nic, hone, Option.some.injEq, Prod.mk.injEq] at hnic
  obtain ⟨hm, rfl, -⟩ := hnic
  rw [← hshown, writeHeader_readHeader] at hm
  refine ⟨hm.symm, ⟨p, hplace⟩, h.chain, h.fits, h.free, ?_, fun hopen => absurd hcloses hopen,
    fun hnot => absurd ⟨hcloses, Or.inl rfl⟩ hnot, fun hnot => absurd ⟨hcloses, Or.inl rfl⟩ hnot,
    fun _ => ⟨hsame, Or.inr ⟨hnil, Or.inl rfl⟩⟩, fun _ => hshown⟩
  rcases hcloses with hpc | hpc <;> simp only [HeaderFlags, hpc]

/-- A writer that works, hands over or closes may send the header at hand. -/
theorem Reclosing.nic_header (h : Reclosing g m w) (hnot : ¬ w.Sealed) (hw : AtSegment g p w)
    (howned : w.ownedSegment = some (g.slot p)) (hqueue : w.queue = [.writeHeader (g.slot p)])
    (hw' : w' = { w with queue := [] }) (hplace : AtSegment g p w')
    (hchain : Chain g (writeHeader m (g.slot p) w.header)) :
    Reclosing g (writeHeader m (g.slot p) w.header) w' := by
  have hpc' : w'.pc = w.pc := by rw [hw']
  have hqueue' : w'.queue = [] := by rw [hw']
  have hheader' : w'.header = w.header := by rw [hw']
  have hcalls' : w'.calls = w.calls := by rw [hw']
  have hclosed' : w'.closedHeader = w.closedHeader := by rw [hw']; rfl
  have hfits' : w'.header.Fits := hheader' ▸ h.fits
  have hheaders := readHeader_writeHeader_slot g m (p := p) h.fits
  have hread : readHeader (writeHeader m (g.slot p) w.header) (g.slot p) = w.header :=
    readHeader_writeHeader m _ h.fits
  have hfree : ∀ header : SegmentHeader, header = w.header → (header.isWriteable = true →
      header.isConsumable = false ∧ header.isEndSegment = false) → ∀ j,
      (readHeader (writeHeader m (g.slot p) w.header) (g.slot j)).isWriteable = true →
        (readHeader (writeHeader m (g.slot p) w.header) (g.slot j)).isConsumable = false ∧
          (readHeader (writeHeader m (g.slot p) w.header) (g.slot j)).isEndSegment = false := by
    rintro header rfl hheader j
    rw [hheaders]
    split_ifs
    · exact hheader
    · exact h.free j
  have hunended : w.header.isEndSegment = false → ∀ j,
      (readHeader (writeHeader m (g.slot p) w.header) (g.slot j)).isEndSegment = false := by
    intro hend j
    rw [hheaders]
    split_ifs
    · exact hend
    · exact h.unended hnot j
  by_cases hworks : w.pc.Works
  · have hworks' : w'.pc.Works := hpc' ▸ hworks
    have hacquired := (headerFlags_of_works hworks).mp h.flags
    have hopened := h.opened hworks.not_closes
    refine ⟨⟨p, hplace⟩, hchain, hfits', hfree _ rfl fun _ => ⟨hacquired.2, hopened.1⟩, ?_,
      fun _ => ?_, fun _ => hunended hopened.1, fun _ off hoff => ?_,
      fun hcloses => absurd hcloses hworks'.not_closes,
      fun hsealed => absurd hsealed.1 hworks'.not_closes⟩
    · rw [headerFlags_of_works hworks', hheader']
      exact hacquired
    · rw [hheader', hcalls']
      exact hopened
    · rw [ownedSegment_of_works hworks', hplace.offset, Option.mem_some_iff] at hoff
      rw [← hoff, hread]
      exact hacquired.1
  · have honchain := hw.chain
    cases hpc : w.pc with
    | constructing => simp [OnChain, hpc, hqueue] at honchain
    | constructed => simp [OnChain, hpc, hqueue] at honchain
    | poll next data rest => simp [ownedSegment, hpc] at howned
    | closed => simp [ownedSegment, hpc] at howned
    | handOver next data rest =>
      rw [hpc] at hpc'
      have hopen' : ¬ w'.pc.Closes := by simp [hpc', WriterPc.Closes]
      have hopened := h.opened (by simp [hpc, WriterPc.Closes])
      have hflags := h.flags
      simp only [HeaderFlags, hpc] at hflags
      refine ⟨⟨p, hplace⟩, hchain, hfits', hfree _ rfl fun hwriteable => ?_, ?_, fun _ => ?_,
        fun _ => hunended hopened.1, fun _ off hoff => ?_, fun hcloses => absurd hcloses hopen',
        fun hsealed => absurd hsealed.1 hopen'⟩
      · simp [hflags] at hwriteable
      · simp only [HeaderFlags, hpc', hheader']
        exact hflags
      · rw [hheader', hcalls']
        exact hopened
      · simp [ownedSegment, hpc', hqueue'] at hoff
    | closing =>
      rw [hpc] at hpc'
      have hcloses' : w'.pc.Closes := Or.inl hpc'
      obtain ⟨hsame, hcalls⟩ := h.closes (Or.inl hpc)
      have hone : w'.calls = [.close] :=
        hcalls'.trans (hcalls.resolve_right fun hnil => h.calls_ne_nil hnot hnil.1)
      have hsealed : w'.Sealed := ⟨hcloses', Or.inl hqueue'⟩
      refine ⟨⟨p, hplace⟩, hchain, hfits', hfree _ rfl fun hwriteable => ?_, ?_,
        fun hopen => absurd hcloses' hopen, fun hnot => absurd hsealed hnot,
        fun hnot => absurd hsealed hnot, fun _ => ⟨?_, Or.inl hone⟩, fun _ => ?_⟩
      · rw [hsame, isWriteable_closedHeader] at hwriteable
        cases hwriteable
      · simp only [HeaderFlags, hpc']
      · rw [hheader', hclosed', ← hsame]
      · rw [hplace.offset, hread, hheader']
    | _ => exact absurd (by rw [hpc]; trivial) hworks

theorem owned_of_executed (hpc : w'.pc = w.pc) (hoffset : w'.segmentOffset = w.segmentOffset)
    (hbusy : w.queue ≠ []) {off : ℕ} (hoff : off ∈ w'.ownedSegment) : off ∈ w.ownedSegment := by
  unfold ownedSegment at hoff ⊢
  rw [hpc, hoffset] at hoff
  cases hpc : w.pc <;> simp only [hpc, if_neg hbusy] at hoff ⊢ <;> first | exact hoff | skip
  all_goals
    split_ifs at hoff
    · cases hoff
    · exact hoff

/-- Headers are read for the first segment and for the next one. -/
theorem reads_of_head (hw : AtSegment g p w) {q : ℕ} {queue : List RemoteOp}
    (hqueue : w.queue = .readHeader (g.slot q) :: queue) :
    (w.pc = .constructed ∧ g.slot q = g.slot p) ∨
      ∃ next data rest, w.pc = .poll next data rest ∧ next = g.slot q := by
  have hsending : ¬ Sending g p w := by
    rintro ⟨_ | ⟨op, ops⟩, hops, hsend | ⟨hnil, hempty⟩⟩
    · simp [hqueue] at hsend
    · simp [hqueue] at hempty
    · rw [hqueue, List.cons_append, List.cons.injEq] at hsend
      obtain ⟨rfl, -⟩ := hsend
      obtain ⟨remote, src, len, heq, -⟩ := hops.data _ List.mem_cons_self
      cases heq
    · cases hnil
  have hwriting : ¬ Writing g p w := by
    intro hwriting
    obtain ⟨remote, src, len, heq, -⟩ := hwriting.data _ (by rw [hqueue]; exact List.mem_cons_self)
    cases heq
  have honchain := hw.chain
  unfold OnChain at honchain
  cases hpc : w.pc with
  | constructing => simp [hpc, hqueue] at honchain
  | constructed =>
    simp only [hpc, hqueue] at honchain
    rcases honchain with hread | ⟨hempty, -⟩
    · simp only [List.cons.injEq, RemoteOp.readHeader.injEq] at hread
      exact Or.inl ⟨rfl, hread.1⟩
    · cases hempty
  | poll next data rest =>
    simp only [hpc, hqueue] at honchain
    obtain ⟨-, hread | ⟨hempty, -⟩⟩ := honchain
    · simp only [List.cons.injEq, RemoteOp.readHeader.injEq] at hread
      exact Or.inr ⟨next, data, rest, rfl, hread.1.symm⟩
    · cases hempty
  | flush data after =>
    simp only [hpc] at honchain
    exact absurd honchain.1 hsending
  | handOver next data rest =>
    simp only [hpc] at honchain
    exact absurd honchain.1 hsending
  | closing =>
    simp only [hpc] at honchain
    exact absurd honchain hsending
  | closed => simp [hpc, hqueue] at honchain
  | _ =>
    simp only [hpc] at honchain
    exact absurd honchain hwriting

/-- Everything else that is queued leaves the headers alone. -/
theorem Reclosing.nic_keeps (h : Reclosing g m w) (hnot : ¬ w.Sealed) (hnot' : ¬ w'.Sealed)
    (hplace : ∃ p, AtSegment g p w') (hpc' : w'.pc = w.pc) (hfits : w'.header.Fits)
    (hsame : ∀ j, readHeader m' (g.slot j) = readHeader m (g.slot j))
    (hcalls' : w'.calls = w.calls) (hflags : HeaderFlags m' w')
    (hopened : ¬ w.pc.Closes → w'.header.isEndSegment = false)
    (hcloses : w.pc.Closes → w'.header = w'.closedHeader)
    (howned : ∀ off ∈ w'.ownedSegment, (readHeader m' off).isWriteable = true) :
    Reclosing g m' w' := by
  refine ⟨hplace, fun j => ?_, hfits, fun j => ?_, hflags, fun hopen => ?_, fun _ j => ?_,
    fun _ => howned, fun hcloses' => ?_, fun hsealed => absurd hsealed hnot'⟩
  · rw [nextSegmentAt, hsame]
    exact h.chain j
  · rw [hsame]
    exact h.free j
  · rw [hpc'] at hopen
    rw [hcalls']
    exact ⟨hopened hopen, (h.opened hopen).2⟩
  · rw [hsame]
    exact h.unended hnot j
  · rw [hpc'] at hcloses'
    rw [hcalls']
    exact ⟨hcloses hcloses', Or.inl ((h.closes hcloses').2.resolve_right
      fun hnil => h.calls_ne_nil hnot hnil.1)⟩

theorem Reclosing.nic (h : Reclosing g m w) (hnic : w.nic m = some (m', w', made)) :
    Reclosing g m' w' ∧ KeepsTaken g m m' ∧ (w.calls = [] → m' = m) := by
  by_cases hsealed : w.Sealed
  · obtain ⟨rfl, h'⟩ := h.nic_sealed hsealed hnic
    exact ⟨h', fun _ _ => rfl, fun _ => rfl⟩
  obtain ⟨p, hw⟩ := h.place
  obtain ⟨op, queue, header, hqueue, heq⟩ := nic_eq hnic
  have hhead := hw.head hqueue
  have hplace := hw.nic h.chain hnic
  have hchain := hhead.keeps_chain h.chain hqueue hnic
  have honchain := hw.chain
  have hcalls := h.calls_ne_nil hsealed
  have hpc' : w'.pc = w.pc := by rw [heq]
  have hqueue' : w'.queue = queue := by rw [heq]
  have hcalls' : w'.calls = w.calls := by rw [heq]
  have hnotclosed : w.pc ≠ .closed := by
    intro hpc
    simp [OnChain, hpc, hqueue] at honchain
  cases hhead with
  | @data remote src len _ howned hlo hhi hclosing =>
    simp only [BufferWriterBW.nic, hqueue, Option.some.injEq, Prod.mk.injEq] at hnic
    obtain ⟨rfl, rfl, -⟩ := hnic
    have hsame := readHeader_writeBytes_data g m (readBytes w.internalBuffer src len) hlo
      (by rw [length_readBytes]; exact hhi)
    have hnot' : ¬ Sealed { w with queue } := by
      rintro ⟨hpc | hpc, hnil | hnil⟩
      · exact hclosing hpc hnil
      · exact hcalls hnil
      · exact hnotclosed hpc
      · exact hcalls hnil
    refine ⟨h.nic_keeps hsealed hnot' ⟨p, hplace⟩ rfl h.fits hsame rfl ?_
      (fun hopen => (h.opened hopen).1) (fun hcloses => (h.closes hcloses).1) ?_,
      fun j _ => hsame j, fun hnil => absurd hnil hcalls⟩
    · have hflags := h.flags
      unfold HeaderFlags at hflags ⊢
      cases hpc : w.pc with
      | constructed => simp [OnChain, hpc, hqueue] at honchain
      | poll next data rest => simp [ownedSegment, hpc] at howned
      | _ => rwa [hpc] at hflags
    · intro off hoff
      have hbusy : w.queue ≠ [] := by simp [hqueue]
      have hown : off ∈ w.ownedSegment := by
        apply owned_of_executed ?_ ?_ hbusy hoff <;> rfl
      rw [howned, Option.mem_some_iff] at hown
      rw [← hown, hsame]
      exact h.held hsealed _ howned
  | header howned hnext =>
    simp only [BufferWriterBW.nic, hqueue, Option.some.injEq, Prod.mk.injEq] at hnic
    obtain ⟨rfl, hw', -⟩ := hnic
    refine ⟨h.nic_header hsealed hw howned hqueue hw'.symm hplace hchain, fun j hj => ?_,
      fun hnil => absurd hnil hcalls⟩
    rw [readHeader_writeHeader_slot g m h.fits, if_neg]
    intro hslot
    rw [hslot, h.held hsealed _ howned] at hj
    cases hj
  | read q hopen =>
    simp only [BufferWriterBW.nic, hqueue, Option.some.injEq, Prod.mk.injEq] at hnic
    obtain ⟨rfl, hw', -⟩ := hnic
    have hopen' : ¬ w.pc.Closes := fun hcloses => hcloses.elim hopen.1 hopen.2
    have hheader' : w'.header = readHeader m (g.slot q) := by rw [← hw']
    refine ⟨h.nic_keeps hsealed (not_sealed (hpc' ▸ hopen')) ⟨p, hplace⟩ hpc'
      (hheader' ▸ fits_readHeader m _) (fun _ => rfl) hcalls' ?_
      (fun _ => hheader' ▸ h.unended hsealed q) (fun hcloses => absurd hcloses hopen') ?_,
      fun _ _ => rfl, fun hnil => absurd hnil hcalls⟩
    · rcases reads_of_head hw hqueue with ⟨hpc, hq⟩ | ⟨next, data, rest, hpc, rfl⟩
      · have hown := h.held hsealed (g.slot q) (by simp [ownedSegment, hpc, hw.offset, hq])
        rw [hpc] at hpc'
        simp only [HeaderFlags, hpc', hheader']
        exact fun _ => ⟨hown, (h.free q hown).1⟩
      · rw [hpc] at hpc'
        simp only [HeaderFlags, hpc', hheader']
        exact fun _ hwriteable => ⟨⟨hwriteable, (h.free q hwriteable).1⟩, hwriteable⟩
    · intro off hoff
      exact h.held hsealed off
        (owned_of_executed hpc' (by rw [heq]) (by simp [hqueue]) hoff)

theorem owned_eq {off : ℕ} (hoff : off ∈ w.ownedSegment) : off = w.segmentOffset := by
  unfold ownedSegment at hoff
  split at hoff
  · split_ifs at hoff <;> simp_all
  · cases hoff
  · split_ifs at hoff <;> simp_all
  · cases hoff
  · exact (Option.mem_some_iff.mp hoff).symm

/-- Other headers in memory that the writer cannot tell from the ones it knows. -/
theorem Reclosing.headers (h : Reclosing g m w)
    (hnext : ∀ j, nextSegmentAt m' (g.slot j) = nextSegmentAt m (g.slot j))
    (hfree : ∀ j, (readHeader m' (g.slot j)).isWriteable = true →
      (readHeader m' (g.slot j)).isConsumable = false ∧
        (readHeader m' (g.slot j)).isEndSegment = false)
    (hkept : ∀ j, (readHeader m (g.slot j)).isWriteable = true →
      (readHeader m' (g.slot j)).isWriteable = true)
    (hends : ∀ j, (readHeader m' (g.slot j)).isEndSegment =
      (readHeader m (g.slot j)).isEndSegment)
    (hfinal : ∀ j, (readHeader m (g.slot j)).isEndSegment = true →
      readHeader m' (g.slot j) = readHeader m (g.slot j)) : Reclosing g m' w := by
  obtain ⟨p, hw⟩ := h.place
  refine ⟨h.place, fun j => (hnext j).trans (h.chain j), h.fits, hfree, ?_, h.opened,
    fun hnot j => ?_, fun hnot off hoff => ?_, h.closes, fun hsealed => ?_⟩
  · have hflags := h.flags
    have honchain := hw.chain
    unfold HeaderFlags at hflags ⊢
    cases hpc : w.pc with
    | poll next data rest =>
      simp only [OnChain, hpc] at honchain hflags ⊢
      intro hqueue hwriteable
      obtain ⟨hacquired, hfound⟩ := hflags hqueue hwriteable
      rw [honchain.1] at hfound ⊢
      exact ⟨hacquired, hkept _ hfound⟩
    | _ => rwa [hpc] at hflags
  · rw [hends]
    exact h.unended hnot j
  · have hheld := h.held hnot off hoff
    rw [owned_eq hoff, hw.offset] at hheld ⊢
    exact hkept p hheld
  · have hshown := h.shown hsealed
    rw [hw.offset] at hshown ⊢
    rw [hfinal p, hshown]
    rw [hshown, (h.closes hsealed.1).1]
    exact isEndSegment_closedHeader w

theorem Reclosing.frame (h : Reclosing g m w)
    (hsame : ∀ j, readHeader m' (g.slot j) = readHeader m (g.slot j)) : Reclosing g m' w := by
  apply h.headers
  · intro j
    rw [nextSegmentAt, hsame, nextSegmentAt]
  · intro j
    rw [hsame]
    exact h.free j
  · intro j
    rw [hsame]
    exact id
  · intro j
    rw [hsame]
  · exact fun j _ => hsame j

/-- A store of the iterator to a header that is neither writeable nor the final one. -/
theorem Reclosing.reset {q : ℕ} {f : SegmentHeader → SegmentHeader} (h : Reclosing g m w)
    (hchange : g.ChangesHeader q f m m')
    (htaken : (readHeader m (g.slot q)).isWriteable = false)
    (hend : (readHeader m (g.slot q)).isEndSegment = false)
    (hnext : ∀ y, (f y).nextSegmentOffset = y.nextSegmentOffset)
    (hkeeps : ∀ y, (f y).isEndSegment = y.isEndSegment)
    (hfree : (f (readHeader m (g.slot q))).isWriteable = true →
      (f (readHeader m (g.slot q))).isConsumable = false) : Reclosing g m' w := by
  have hother : ∀ j (flag : SegmentHeader → Bool), flag (readHeader m (g.slot q)) = false →
      flag (readHeader m (g.slot j)) = true →
      readHeader m' (g.slot j) = readHeader m (g.slot j) := by
    intro j flag hq hj
    rw [hchange, if_neg]
    intro hslot
    rw [hslot, hq] at hj
    cases hj
  apply h.headers
  · intro j
    rw [nextSegmentAt, hchange]
    split_ifs with hslot
    · rw [hnext, hslot, nextSegmentAt]
    · rfl
  · intro j
    rw [hchange]
    split_ifs
    · rw [hkeeps]
      exact fun hwriteable => ⟨hfree hwriteable, hend⟩
    · exact h.free j
  · intro j hj
    rwa [hother j _ htaken hj]
  · intro j
    rw [hchange]
    split_ifs with hslot
    · rw [hkeeps, hslot]
    · rfl
  · exact fun j hj => hother j _ hend hj

/-- What is executed does not reach beyond the ring. -/
theorem Reclosing.nic_outside (h : Reclosing g m w) (hnic : w.nic m = some (m', w', made))
    {start len : ℕ}
    (hout : start + len ≤ g.entry ∨ g.entry + g.segments * g.fullSize ≤ start) :
    AgreeOn m' m start len := by
  obtain ⟨p, hw⟩ := h.place
  obtain ⟨op, queue, header, hqueue, -⟩ := nic_eq hnic
  have hlo := g.le_slot p
  have hhi := g.slot_add_fullSize_le p
  apply (hw.head hqueue).outside hqueue hnic
  omega

/-- A writer just constructed on a ring just built. -/
theorem reclosing_init (hfree : ∀ j, readHeader m (g.slot j) = g.freeHeader j)
    (internalBufferSize : ℕ) (appends : List (List UInt8)) :
    Reclosing g m (init g.entry g.segmentSize internalBufferSize
      (appends.map WriterCall.append ++ [.close, .close])) := by
  have hopen : ¬ WriterPc.Closes .constructing := by simp [WriterPc.Closes]
  have hend : ∀ j, (readHeader m (g.slot j)).isEndSegment = false := by
    intro j
    rw [hfree]
    simp [RingGeometry.freeHeader, SegmentHeader.isEndSegment]
  refine ⟨⟨0, rfl, g.slot_zero.symm, Nat.zero_le _, rfl⟩, fun j => ?_,
    ⟨Nat.two_pow_pos 64, Nat.two_pow_pos 64, Nat.two_pow_pos 64⟩, fun j _ => ⟨?_, hend j⟩, trivial,
    fun _ => ⟨by simp [init, SegmentHeader.isEndSegment], appends, rfl⟩, fun _ => hend,
    fun _ off hoff => ?_, fun hcloses => absurd hcloses hopen,
    fun hsealed => absurd hsealed.1 hopen⟩
  · rw [nextSegmentAt, hfree]
    rfl
  · rw [hfree]
    simp [RingGeometry.freeHeader, SegmentHeader.isConsumable]
  · obtain rfl : g.entry = off := Option.mem_some_iff.mp hoff
    rw [← g.slot_zero, hfree]
    simp [RingGeometry.freeHeader, SegmentHeader.isWriteable]

end BufferWriterBW
end DpiLibrary
