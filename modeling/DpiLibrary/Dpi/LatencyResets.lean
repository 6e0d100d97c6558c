import DpiLibrary.Dpi.LatencyReclose

/-!
# What the iterator resets in a latency ring

`mark_prev_segment` of the latency iterator looks at two flags before it changes anything. A
segment that passes both carries no end flag then, and it stays without one while it is reset
as long as the header of `close` does not arrive in between.
-/

namespace DpiLibrary

variable {k : ℕ} {g : RingGeometry} {m m' : Mem} {h h' : IterHelper k} {pc : IteratorPc}

/-- The statements of `mark_prev_segment` that change a header. -/
def IteratorPc.Resets : IteratorPc → Prop
  | .mark .counter _ | .mark .consumable _ | .mark .writeable _ => True
  | _ => False

instance : DecidablePred IteratorPc.Resets := fun pc => by
  unfold IteratorPc.Resets
  split <;> infer_instance

/-- The segment whose header the iterator is changing. -/
def BufferIterator.resetting (it : BufferIterator k) : Option ℕ :=
  if it.pc.Resets then it.segmentIterators.get?.bind IterHelper.prev else none

/-- The segment behind the helper is not the final one. -/
def OpenBehind (m : Mem) (h : IterHelper k) : Prop :=
  ∀ off ∈ h.prev, (readHeader m off).isEndSegment = false

/-- What the end flags of a ring look like at each statement of the iterator. -/
def ClearPhase (m : Mem) (h : IterHelper k) : IteratorPc → Prop
  | .mark .checkEnd false => ∃ off ∈ h.prev, (readHeader m off).isEndSegment = true
  | .mark _ false => False
  | .mark .counter true | .mark .consumable true | .mark .writeable true => OpenBehind m h
  | _ => True

namespace BufferWriterLat

variable {w : BufferWriterLat}

/-- Other headers in memory that the writer cannot tell from the ones it knows. -/
theorem Reclosing.headers (h : Reclosing g m w)
    (hnext : ∀ j, nextSegmentAt m' (g.slot j) = nextSegmentAt m (g.slot j))
    (hfree : ∀ j, (readHeader m' (g.slot j)).isWriteable = true →
      (readHeader m' (g.slot j)).isEndSegment = false)
    (hends : ∀ j, (readHeader m' (g.slot j)).isEndSegment =
      (readHeader m (g.slot j)).isEndSegment)
    (hfinal : ∀ j, (readHeader m (g.slot j)).isEndSegment = true →
      readHeader m' (g.slot j) = readHeader m (g.slot j)) : Reclosing g m' w := by
  refine ⟨h.turn, fun j => (hnext j).trans (h.chain j), h.queue, h.fresh, h.fits, h.next, h.short,
    hfree, h.opened, fun hnot j => ?_, h.closes, fun hsealed => ?_⟩
  · rw [hends]
    exact h.unended hnot j
  · have hshown := h.shown hsealed
    obtain ⟨hne, hsame, -⟩ := h.closes hsealed.1
    rw [h.turn.last hne] at hshown ⊢
    rw [hfinal _, hshown]
    rw [hshown, hsame]
    exact isEndSegment_closedHeader w

theorem Reclosing.frame (h : Reclosing g m w)
    (hsame : ∀ j, readHeader m' (g.slot j) = readHeader m (g.slot j)) : Reclosing g m' w := by
  apply h.headers
  · intro j
    rw [nextSegmentAt, hsame, nextSegmentAt]
  · intro j
    rw [hsame]
    exact h.free j
  · intro j
    rw [hsame]
  · exact fun j _ => hsame j

/-- A store of the iterator to a header that is not the final one. -/
theorem Reclosing.reset {q : ℕ} {f : SegmentHeader → SegmentHeader} (h : Reclosing g m w)
    (hchange : g.ChangesHeader q f m m')
    (hend : (readHeader m (g.slot q)).isEndSegment = false)
    (hnext : ∀ y, (f y).nextSegmentOffset = y.nextSegmentOffset)
    (hkeeps : ∀ y, (f y).isEndSegment = y.isEndSegment) : Reclosing g m' w := by
  apply h.headers
  · intro j
    rw [nextSegmentAt, hchange]
    split_ifs with hslot
    · rw [hnext, hslot, nextSegmentAt]
    · rfl
  · intro j
    rw [hchange]
    split_ifs
    · rw [hkeeps]
      exact fun _ => hend
    · exact h.free j
  · intro j
    rw [hchange]
    split_ifs with hslot
    · rw [hkeeps, hslot]
    · rfl
  · intro j hj
    rw [hchange, if_neg]
    intro hslot
    rw [hslot, hend] at hj
    cases hj

end BufferWriterLat

open BufferWriterLat

variable {w : BufferWriterLat} {f : SegmentHeader → SegmentHeader}

/-- What the iterator relies on holds on, if no end flag goes and none comes to the segment that
is being reset. -/
theorem ClearPhase.keeps (hphase : ClearPhase m h pc) (hw : Walker .lat g h)
    (hfinal : ∀ j, (readHeader m (g.slot j)).isEndSegment = true →
      (readHeader m' (g.slot j)).isEndSegment = true)
    (hopened : pc.Resets → ∀ j, h.prev = some (g.slot j) →
      (readHeader m (g.slot j)).isEndSegment = false →
      (readHeader m' (g.slot j)).isEndSegment = false) : ClearPhase m' h pc := by
  have hopen : pc.Resets → OpenBehind m h → OpenBehind m' h := by
    intro hresets hbehind off hoff
    have hend := hbehind off hoff
    obtain ⟨q, rfl, -⟩ := hw.prev_slot hoff
    exact hopened hresets q hoff hend
  cases pc with
  | mark step inNext =>
    cases inNext with
    | true =>
      cases step with
      | checkEnd => trivial
      | checkWriteable => trivial
      | counter => exact hopen trivial hphase
      | consumable => exact hopen trivial hphase
      | writeable => exact hopen trivial hphase
      | credit => trivial
    | false =>
      cases step with
      | checkEnd =>
        obtain ⟨off, hoff, hend⟩ := hphase
        refine ⟨off, hoff, ?_⟩
        obtain ⟨q, rfl, -⟩ := hw.prev_slot hoff
        exact hfinal q hend
      | _ => exact hphase
  | _ => trivial

/-- A statement of `mark_prev_segment`, as the ring sees it. -/
structure ClearStep (g : RingGeometry) (w : BufferWriterLat) (m m' : Mem) (h h' : IterHelper k) :
    Prop where
  ring : h'.ring = h.ring
  writer : Reclosing g m' w
  walker : Walker .lat g h'
  outside : ∀ start len, start + len ≤ g.entry - 8 ∨ g.entry + g.segments * g.fullSize ≤ start →
    AgreeOn m' m start len

theorem ClearStep.of_prevWrite (hK : Reclosing g m w) (hw : Walker .lat g h)
    (hopen : OpenBehind m h) (hwrite : PrevWrite m m' h h' f)
    (hnext : ∀ y, (f y).nextSegmentOffset = y.nextSegmentOffset)
    (hends : ∀ y, (f y).isEndSegment = y.isEndSegment) :
    ClearStep g w m m' h h' ∧ OpenBehind m' h' := by
  obtain ⟨hring, hprev, -, hw'⟩ := hw.prevWrite hwrite hends
  cases hp : h.prev with
  | none =>
    obtain ⟨rfl, -⟩ := hwrite.none hp
    refine ⟨⟨hring, hK, hw', fun _ _ _ => AgreeOn.refl _ _ _⟩, fun off hoff => ?_⟩
    rw [hprev, hp] at hoff
    cases hoff
  | some off =>
    obtain ⟨q, rfl, -⟩ := hw.prev_slot hp
    obtain ⟨-, hread, hout⟩ := hwrite.some _ hp
    have hend := hopen _ hp
    refine ⟨⟨hring, hK.reset (hwrite.changes hp) hend hnext hends, hw', fun start len hside => ?_⟩,
      fun off hoff => ?_⟩
    · have hlo := g.le_slot q
      have hhi := g.slot_add_fullSize_le q
      apply hout
      unfold RingGeometry.fullSize at hhi hside
      omega
    · rw [hprev, hp, Option.mem_some_iff] at hoff
      subst hoff
      rw [hread, hends]
      exact hend

/-- The counter is in front of the headers. -/
theorem ClearStep.credit (hcounter : 8 ≤ g.entry) (hK : Reclosing g m w) (hw : Walker .lat g h)
    (x : ℕ) : ClearStep g w m (writeWord m h.counterOffset x) h h := by
  rw [hw.counterOffset rfl]
  refine ⟨rfl, hK.frame fun j => ?_, hw, fun start len hside => ?_⟩
  · have hlo := g.le_slot j
    apply AgreeOn.readHeader
    exact agreeOn_writeWord (by omega)
  · exact agreeOn_writeWord (by omega)

theorem ClearStep.refl (hK : Reclosing g m w) (hw : Walker .lat g h) : ClearStep g w m m h h :=
  ⟨rfl, hK, hw, fun _ _ _ => AgreeOn.refl _ _ _⟩

/-- `mark_prev_segment` on a latency ring, statement by statement. -/
theorem markStep_clears {bs as : List (IterHelper k)} {step : MarkStep} {inNext : Bool}
    (hcounter : 8 ≤ g.entry) (hK : Reclosing g m w) (hw : Walker .lat g h)
    (hphase : ClearPhase m h (.mark step inNext))
    (hrun : BufferIterator.markStep .lat m ⟨⟨bs, h :: as⟩, .mark step inNext⟩ h inNext step =
      (m', ⟨⟨bs, h' :: as⟩, pc⟩)) :
    ClearStep g w m m' h h' ∧ ClearPhase m' h' pc := by
  have hquiet : m' = m → h' = h → ClearPhase m h pc →
      ClearStep g w m m' h h' ∧ ClearPhase m' h' pc := by
    rintro rfl rfl hnew
    exact ⟨.refl hK hw, hnew⟩
  cases inNext with
  | false =>
    cases step with
    | checkEnd =>
      obtain ⟨off, hoff, hend⟩ := hphase
      have hprev : (h.prevHeader m).isEndSegment = true := by
        rw [IterHelper.prevHeader, Option.mem_def.mp hoff]
        exact hend
      simp only [BufferIterator.markStep, hprev, if_true, BufferIterator.afterMark,
        Bool.false_eq_true, if_false, Prod.mk.injEq, BufferIterator.mk.injEq, Cursor.mk.injEq,
        List.cons.injEq] at hrun
      obtain ⟨rfl, ⟨-, rfl, -⟩, rfl⟩ := hrun
      exact hquiet rfl rfl trivial
    | _ => exact hphase.elim
  | true =>
    cases step with
    | checkEnd =>
      simp only [BufferIterator.markStep] at hrun
      split_ifs at hrun <;> simp only [Prod.mk.injEq, BufferIterator.mk.injEq, Cursor.mk.injEq,
        List.cons.injEq] at hrun <;> obtain ⟨rfl, ⟨-, rfl, -⟩, rfl⟩ := hrun <;>
        exact hquiet rfl rfl trivial
    | checkWriteable =>
      simp only [BufferIterator.markStep] at hrun
      split_ifs at hrun with hwriteable <;> simp only [Prod.mk.injEq, BufferIterator.mk.injEq,
        Cursor.mk.injEq, List.cons.injEq] at hrun <;> obtain ⟨rfl, ⟨-, rfl, -⟩, rfl⟩ := hrun
      · refine hquiet rfl rfl fun off hoff => ?_
        rw [IterHelper.prevHeader, Option.mem_def.mp hoff] at hwriteable
        obtain ⟨q, rfl, -⟩ := hw.prev_slot hoff
        exact hK.free q hwriteable
      · exact hquiet rfl rfl trivial
    | counter =>
      have hclear := ClearStep.of_prevWrite hK hw hphase (prevWrite_setPrevCounter m h)
        (fun _ => rfl) fun _ => rfl
      simp only [BufferIterator.markStep, BufferIterator.put, Cursor.modify_cons, Prod.mk.injEq,
        BufferIterator.mk.injEq, Cursor.mk.injEq, List.cons.injEq] at hrun
      obtain ⟨rfl, ⟨-, rfl, -⟩, rfl⟩ := hrun
      exact hclear
    | consumable =>
      have hwrite := prevWrite_modifyPrevFlags m h (SegmentHeader.setConsumable · false)
        (fun _ => rfl) fun off _ => (flags_modify_lt m off).1
      have hclear := ClearStep.of_prevWrite hK hw hphase hwrite (fun _ => rfl)
        SegmentHeader.isEndSegment_setConsumable
      simp only [BufferIterator.markStep, BufferIterator.put, Cursor.modify_cons, Prod.mk.injEq,
        BufferIterator.mk.injEq, Cursor.mk.injEq, List.cons.injEq] at hrun
      obtain ⟨rfl, ⟨-, rfl, -⟩, rfl⟩ := hrun
      exact hclear
    | writeable =>
      have hwrite := prevWrite_modifyPrevFlags m h (SegmentHeader.setWriteable · true)
        (fun _ => rfl) fun off _ => (flags_modify_lt m off).2
      have hclear := ClearStep.of_prevWrite hK hw hphase hwrite (fun _ => rfl)
        SegmentHeader.isEndSegment_setWriteable
      simp only [BufferIterator.markStep, BufferIterator.put, Cursor.modify_cons, Prod.mk.injEq,
        BufferIterator.mk.injEq, Cursor.mk.injEq, List.cons.injEq] at hrun
      obtain ⟨rfl, ⟨-, rfl, -⟩, rfl⟩ := hrun
      exact ⟨hclear.1, trivial⟩
    | credit =>
      simp only [BufferIterator.markStep, BufferIterator.afterMark, if_true, Prod.mk.injEq,
        BufferIterator.mk.injEq, Cursor.mk.injEq, List.cons.injEq] at hrun
      obtain ⟨rfl, ⟨-, rfl, -⟩, rfl⟩ := hrun
      exact ⟨.credit hcounter hK hw _, trivial⟩

/-- A helper of a latency buffer at a place in the program. -/
def ClearsOwn (b : BufferRings k) (m : Mem) (h : IterHelper k) (pc : IteratorPc) : Prop :=
  Walker .lat (b.ring h.ring) h ∧ ClearPhase m h pc

theorem clearRules (b : BufferRings k) (htype : b.type = .lat)
    (writers : Fin k → BufferWriterLat) :
    RingRules .lat b (fun r m => Reclosing (b.ring r) m (writers r)) (ClearsOwn b) where
  frame r m m' hagree hK := by
    have hsame := RingGeometry.readHeader_of_agree (b.counter_fits r) hagree
    refine ⟨hK.frame hsame, ?_⟩
    rintro h pc rfl ⟨hw, hphase⟩
    refine ⟨hw, hphase.keeps hw (fun j => ?_) fun _ j _ => ?_⟩
    · rw [hsame]
      exact id
    · rw [hsame]
      exact id
  leave m h := Iff.rfl
  again m h := fun ⟨hw, _⟩ => ⟨hw, trivial⟩
  loop m h _ := by
    rintro ⟨hw, -⟩
    refine ⟨hw, ?_⟩
    split_ifs with hend
    · cases hprev : h.prev with
      | none =>
        rw [IterHelper.prevHeader, hprev, hw.sentinel] at hend
        cases hend
      | some off =>
        rw [IterHelper.prevHeader, hprev] at hend
        exact ⟨off, hprev, hend⟩
    · trivial
  test m h _ := by
    rintro ⟨hw, -⟩
    refine ⟨hw, ?_⟩
    split_ifs <;> trivial
  next m h _ := fun ⟨hw, _⟩ => ⟨hw, trivial⟩
  mark m h step inNext bs as m' h' pc' hK := by
    rintro ⟨hw, hphase⟩ hrun
    have hentry := b.counter_le h.ring htype
    obtain ⟨hclear, hphase'⟩ := markStep_clears hentry hK hw hphase hrun
    refine ⟨hclear.ring, hclear.writer, ⟨?_, hphase'⟩, fun r hr => b.agreeOn_other hr
      fun start len hside => hclear.outside start len ?_⟩
    · rw [hclear.ring]
      exact hclear.walker
    · simp only [RingGeometry.block, htype, NodeServer.counterSize] at hside
      omega
  size m h size := fun ⟨hw, _⟩ => ⟨hw, trivial⟩
  advance m h size hK := by
    rintro ⟨hw, -⟩
    exact ⟨hw.advance hK.chain, trivial⟩

end DpiLibrary
