import DpiLibrary.Dpi.TornWrites

/-!
# Torn writes simulate whole ones

A system with torn writes is followed by one with whole writes. Memories differ in the
bytes that are visible of writes without effect yet, writers in writes that have had
theirs and are not done, and the iterators in a size that was read while the closing
header was arriving.
-/

namespace DpiLibrary

variable {k : ℕ}

open BufferWriterLat RingSystem

/-- A write that has had its effect; the bytes to come are those of the flags' word, all
zero. -/
structure Late (g : RingGeometry) (w : BufferWriterLat) (remote : ℕ) (bytes : List UInt8)
    (v : ℕ) : Prop where
  place : ∃ j, remote = g.slot j
  length : bytes.length = segmentHeaderSize
  lt : v < bytes.length
  zero : ∀ i, 17 ≤ i → i < 24 → bytes[i]? = some 0
  waits : ∀ remote queue, w.queue = .writeHeader remote :: queue → w.step = none

/-- Two places of the iterator that differ in the size read at most. -/
inductive SamePlace : IteratorPc → IteratorPc → Prop
  | refl (pc : IteratorPc) : SamePlace pc pc
  | advance (size size' : ℕ) : SamePlace (.advance size) (.advance size')

def TornSystem.pending (t : TornSystem k) (r : Fin k) : ℕ × List UInt8 :=
  (t.writers r).pending (t.visible r)

/-- The system with torn writes and the one with whole writes that follows it. -/
structure Sim (b : BufferRings k) (t : TornSystem k) (s : RingSystem BufferWriterLat k) :
    Prop where
  writers : ∀ r, s.writers r = (t.writers r).settled (t.visible r)
  resting : ∀ r, (t.writers r).underWay = none → t.visible r = 0
  late : ∀ r remote bytes, (t.writers r).underWay = some (remote, bytes) →
    landing bytes ≤ t.visible r → Late (b.ring r) (t.writers r) remote bytes (t.visible r)
  mem : PartlyWritten t.pending t.mem s.mem
  cursor : t.iterator.segmentIterators = s.iterator.segmentIterators
  pc : SamePlace t.iterator.pc s.iterator.pc
  count : ∀ r, (returnedBlocks t.log r).length = (returnedBlocks s.log r).length

theorem sim_init (b : BufferRings k) (m : Mem) (writers : Fin k → BufferWriterLat) :
    Sim b (.init b m writers) (.init b m writers) where
  writers r := (settled_zero _).symm
  resting r _ := rfl
  late r remote bytes _ hle := by
    have hpos := landing_pos bytes
    have hzero : (TornSystem.init b m writers).visible r = 0 := rfl
    omega
  mem := .refl _ fun r => pending_zero _
  cursor := rfl
  pc := .refl _
  count r := rfl

/-- An address of a ring, its counter included, is in no other ring. -/
theorem BufferRings.ring_eq (b : BufferRings k) (htype : b.type = .lat) {r r' : Fin k} {x : ℕ}
    (hlo : (b.ring r).entry - 8 ≤ x)
    (hhi : x < (b.ring r).entry + (b.ring r).segments * (b.ring r).fullSize)
    (hlo' : (b.ring r').entry ≤ x)
    (hhi' : x < (b.ring r').entry + (b.ring r').segments * (b.ring r').fullSize) : r = r' := by
  by_contra hne
  have hap := b.apart r r' hne
  have h8 := b.counter_le r htype
  have h8' := b.counter_le r' htype
  simp only [Span.Apart, RingGeometry.block, htype, NodeServer.counterSize] at hap
  omega

section

variable {b : BufferRings k} {messages : Fin k → List Message} {t : TornSystem k}
  {s : RingSystem BufferWriterLat k} {a : BufferState b} {r : Fin k} {remote : ℕ}
  {bytes : List UInt8}

/-- The iterators stand at the same helper. -/
theorem Sim.iterator_eq (hsim : Sim b t s) {c : Cursor (IterHelper k)} {pc : IteratorPc}
    (hit : t.iterator = ⟨c, pc⟩) : ∃ pc', s.iterator = ⟨c, pc'⟩ ∧ SamePlace pc pc' := by
  have hcursor := hsim.cursor
  have hplace := hsim.pc
  rw [hit] at hcursor hplace
  exact ⟨s.iterator.pc, by rw [show c = _ from hcursor], hplace⟩

theorem Sim.arriving (hsim : Sim b t s) (ha : LatencyRefines messages s a)
    (hunder : (t.writers r).underWay = some (remote, bytes)) (hlt : t.visible r < landing bytes) :
    Arriving (b.ring r) (a.ring r) (t.writers r) remote bytes := by
  have hinv := ha.1.writer r
  rw [hsim.writers r, settled_of_lt hunder hlt] at hinv
  cases hqueue : (t.writers r).queue with
  | nil => simp [underWay, hqueue] at hunder
  | cons op queue =>
    rcases hinv.head hqueue with ⟨remote', bytes', hunder', harriving⟩ | ⟨hnone, -⟩
    · cases hunder.symm.trans hunder'
      exact harriving
    · cases hunder.symm.trans hnone

/-- What is visible of a write without effect lies in its ring. -/
theorem Sim.pending_inside (hsim : Sim b t s) (ha : LatencyRefines messages s a) {x : ℕ}
    (hx : Writes (t.pending r) x) : (b.ring r).entry ≤ x ∧
      x < (b.ring r).entry + (b.ring r).segments * (b.ring r).fullSize := by
  obtain ⟨remote, bytes, hunder, hlt, hlo, hhi⟩ := writes_pending hx
  obtain ⟨hlen, -, hentry, hend⟩ := (hsim.arriving ha hunder hlt).bounds
  have hlanding := landing_le hlen
  omega

/-- What is visible early in the other rings leaves this one alone. -/
theorem Sim.not_writes (hsim : Sim b t s) (ha : LatencyRefines messages s a)
    (htype : b.type = .lat) {x : ℕ} (hlo : (b.ring r).entry - 8 ≤ x)
    (hhi : x < (b.ring r).entry + (b.ring r).segments * (b.ring r).fullSize) (r' : Fin k)
    (hr : r' ≠ r) : ¬ Writes (t.pending r') x := by
  intro hx
  obtain ⟨hlo', hhi'⟩ := hsim.pending_inside ha hx
  exact hr (b.ring_eq htype hlo hhi hlo' hhi').symm

/-- The memories agree on what is in a ring and not visible too early. -/
theorem Sim.agree (hsim : Sim b t s) (ha : LatencyRefines messages s a) (htype : b.type = .lat)
    {start len : ℕ} (hlo : (b.ring r).entry - 8 ≤ start)
    (hhi : start + len ≤ (b.ring r).entry + (b.ring r).segments * (b.ring r).fullSize)
    (hown : ∀ x, Writes (t.pending r) x → start + len ≤ x ∨ x < start) :
    AgreeOn t.mem s.mem start len := by
  apply hsim.mem.agreeOn
  intro r' x hx
  by_cases hr : r' = r
  · subst hr
    exact hown x hx
  · by_contra hin
    exact hsim.not_writes ha htype (by omega) (by omega) r' hr hx

/-- A change of one ring's writer and of the memory. -/
theorem Sim.set (hsim : Sim b t s) (r : Fin k) (w : BufferWriterLat) (v : ℕ)
    (events : List (RingEvent k)) {m m' : Mem} (hresting : w.underWay = none → v = 0)
    (hlate : ∀ remote bytes, w.underWay = some (remote, bytes) → landing bytes ≤ v →
      Late (b.ring r) w remote bytes v)
    (hmem : PartlyWritten (Function.update t.pending r (w.pending v)) m m')
    (hevents : ∀ r', returnedBlocks events r' = []) :
    Sim b ⟨⟨m, Function.update t.writers r w, t.iterator, t.log⟩, Function.update t.visible r v⟩
      ⟨m', Function.update s.writers r (w.settled v), s.iterator, s.log ++ events⟩ := by
  refine ⟨fun r' => ?_, fun r' hnone => ?_, fun r' remote bytes hunder hge => ?_, ?_, hsim.cursor,
    hsim.pc, fun r' => ?_⟩
  · by_cases hr : r' = r
    · subst hr
      simp
    · simp [Function.update_of_ne hr, hsim.writers r']
  · by_cases hr : r' = r
    · subst hr
      simp only [Function.update_self] at hnone ⊢
      exact hresting hnone
    · simp only [Function.update_of_ne hr] at hnone ⊢
      exact hsim.resting r' hnone
  · by_cases hr : r' = r
    · subst hr
      simp only [Function.update_self] at hunder hge ⊢
      exact hlate remote bytes hunder hge
    · simp only [Function.update_of_ne hr] at hunder hge ⊢
      exact hsim.late r' remote bytes hunder hge
  · refine hmem.congr fun r' => Or.inl ?_
    by_cases hr : r' = r
    · subst hr
      simp only [TornSystem.pending, Function.update_self]
    · simp only [TornSystem.pending, Function.update_of_ne hr]
  · rw [returnedBlocks_append, hevents, List.append_nil]
    exact hsim.count r'

/-- The same, with nothing visible of the next write. -/
theorem Sim.setResting (hsim : Sim b t s) (r : Fin k) (w : BufferWriterLat)
    (events : List (RingEvent k)) {m m' : Mem}
    (hmem : PartlyWritten (Function.update t.pending r (w.pending 0)) m m')
    (hevents : ∀ r', returnedBlocks events r' = []) :
    Sim b ⟨⟨m, Function.update t.writers r w, t.iterator, t.log⟩, Function.update t.visible r 0⟩
      ⟨m', Function.update s.writers r w, s.iterator, s.log ++ events⟩ := by
  have hset := hsim.set r w 0 events (fun _ => rfl) ?_ hmem hevents
  · rwa [settled_zero] at hset
  · intro remote bytes _ hle
    have hpos := landing_pos bytes
    omega

/-- A writer whose closing header is under way does not step. -/
theorem Sim.waits (hsim : Sim b t s) (ha : LatencyRefines messages s a) (r : Fin k)
    (remote : ℕ) (queue : List LatOp)
    (hqueue : (t.writers r).queue = .writeHeader remote :: queue) :
    (t.writers r).step = none := by
  have hunder : (t.writers r).underWay = some (remote, (t.writers r).header.encode) := by
    simp only [underWay, hqueue]
  rcases Nat.lt_or_ge (t.visible r) (landing (t.writers r).header.encode) with hlt | hge
  · have hinv := ha.1.writer r
    rw [hsim.writers r, settled_of_lt hunder hlt] at hinv
    exact hinv.step_writeHeader hqueue
  · exact (hsim.late r _ _ hunder hge).waits remote queue hqueue

/-- Writers take the same steps. -/
theorem Sim.writer_step (hsim : Sim b t s) (ha : LatencyRefines messages s a)
    {t' : TornSystem k} (hstep : t.step (.writer r) = some t') :
    ∃ s', s.step .lat machine (.writer r) = some s' ∧ Sim b t' s' := by
  simp only [TornSystem.step, RingSystem.step, Option.map_map] at hstep
  obtain ⟨w', hw', rfl⟩ := Option.map_eq_some_iff.mp hstep
  obtain ⟨hsettled, hkeep⟩ := settled_step (hsim.resting r) (hsim.waits ha r) hw'
  rw [← hsim.writers r] at hsettled
  refine ⟨⟨s.mem, Function.update s.writers r (w'.settled (t.visible r)), s.iterator, s.log⟩,
    ?_, ?_⟩
  · simp only [RingSystem.step]
    rw [show machine.step (s.writers r) = _ from hsettled]
    rfl
  have hmem : PartlyWritten (Function.update t.pending r (w'.pending (t.visible r))) t.mem
      s.mem := ?_
  have hset := hsim.set r w' (t.visible r) [] ?_ ?_ hmem fun _ => rfl
  · rw [Function.update_eq_self, List.append_nil] at hset
    exact hset
  · intro hnone
    rcases hkeep with ⟨hunder, -⟩ | hzero
    · exact hsim.resting r (hunder ▸ hnone)
    · exact hzero
  · intro remote bytes hunder hge
    have hpos := landing_pos bytes
    obtain ⟨hsame, hhead⟩ := hkeep.resolve_right (by omega)
    have hlate := hsim.late r remote bytes (hsame ▸ hunder) hge
    refine ⟨hlate.place, hlate.length, hlate.lt, hlate.zero, fun remote' queue hqueue => ?_⟩
    rw [hqueue, List.head?_cons] at hhead
    obtain ⟨queue', hqueue'⟩ := List.head?_eq_some_iff.mp hhead.symm
    cases (hlate.waits remote' queue' hqueue').symm.trans hw'
  · refine hsim.mem.update r ?_
    rcases hkeep with ⟨hunder, -⟩ | hzero
    · apply Or.inl
      unfold TornSystem.pending pending
      rw [hunder]
    · rw [hzero, TornSystem.pending, hzero]
      exact Or.inr ⟨pending_zero _, pending_zero _⟩

/-- A read of the queue pair finds the same bytes in both memories. -/
theorem Sim.nic_read (hsim : Sim b t s) (ha : LatencyRefines messages s a) (htype : b.type = .lat)
    (hunder : (t.writers r).underWay = none) {m : Mem} {w : BufferWriterLat} {made : Option ℕ}
    (hnic : (t.writers r).nic t.mem = some (m, w, made)) :
    ∃ s', s.step .lat machine (.nic r) = some s' ∧
      Sim b ⟨⟨m, Function.update t.writers r w, t.iterator, t.log⟩, t.visible⟩ s' := by
  have hzero := hsim.resting r hunder
  have hsame : s.writers r = t.writers r := (hsim.writers r).trans (settled_of_none hunder)
  have hnone : (t.pending r).2 = [] := pending_of_none hunder
  have hagree : ∀ {start len}, (b.ring r).entry - 8 ≤ start →
      start + len ≤ (b.ring r).entry + (b.ring r).segments * (b.ring r).fullSize →
      AgreeOn t.mem s.mem start len := fun hlo hhi =>
    hsim.agree ha htype hlo hhi fun x hx => absurd hx (not_writes_of_nil hnone x)
  have h8 := b.counter_le r htype
  have hfirst := (b.ring r).slot_add_fullSize_le 0
  have hheader : segmentHeaderSize ≤ (b.ring r).fullSize := Nat.le_add_left _ _
  have hboth : m = t.mem ∧ made = none ∧ (t.writers r).nic s.mem = some (s.mem, w, none) := by
    have hinv := ha.1.writer r
    rw [hsame] at hinv
    cases hqueue : (t.writers r).queue with
    | nil => simp [BufferWriterLat.nic, hqueue] at hnic
    | cons op queue =>
      rcases hinv.head hqueue with ⟨remote, bytes, hsome, -⟩ | ⟨-, rfl | rfl⟩
      · cases hunder.symm.trans hsome
      · have hread : readHeader t.mem ((b.ring r).slot 0) = readHeader s.mem ((b.ring r).slot 0) :=
          (hagree (by rw [RingGeometry.slot_zero]; omega) (by omega)).readHeader
        simp only [BufferWriterLat.nic, hqueue, hread, Option.some.injEq, Prod.mk.injEq] at hnic ⊢
        obtain ⟨rfl, hw, rfl⟩ := hnic
        exact ⟨rfl, rfl, trivial, hw, trivial⟩
      · have hread : readWord t.mem ((b.ring r).entry - 8) =
            readWord s.mem ((b.ring r).entry - 8) :=
          (hagree le_rfl (by omega)).readWord
        simp only [BufferWriterLat.nic, hqueue, hread, Option.some.injEq, Prod.mk.injEq] at hnic ⊢
        obtain ⟨rfl, hw, rfl⟩ := hnic
        exact ⟨rfl, rfl, trivial, hw, trivial⟩
  obtain ⟨rfl, -, hnic'⟩ := hboth
  refine ⟨⟨s.mem, Function.update s.writers r w, s.iterator, s.log ++ []⟩, ?_, ?_⟩
  · simp only [RingSystem.step, hsame]
    rw [show machine.nic s.mem (t.writers r) = _ from hnic']
    rfl
  have hset := hsim.setResting r w [] (hsim.mem.update r (Or.inr ⟨pending_zero w, hnone⟩))
    fun _ => rfl
  rwa [← hzero, Function.update_eq_self] at hset

/-- The next byte of a write without effect arrives. -/
theorem Sim.grown (hsim : Sim b t s) (ha : LatencyRefines messages s a) (htype : b.type = .lat)
    (hunder : (t.writers r).underWay = some (remote, bytes)) (hlt : t.visible r < landing bytes) :
    PartlyWritten (Function.update t.pending r (remote, bytes.take (t.visible r + 1)))
      (writeBytes t.mem (remote + t.visible r) bytes[t.visible r]?.toList) s.mem := by
  obtain ⟨hlen, -, hentry, hend⟩ := (hsim.arriving ha hunder hlt).bounds
  have hlanding := landing_le hlen
  have hv : t.visible r < bytes.length := by omega
  rw [List.getElem?_eq_getElem hv]
  refine hsim.mem.grow (pending_of_lt hunder hlt) (List.getElem?_eq_getElem hv)
    (fun r' hr => ⟨Function.update_of_ne hr _ _, ?_⟩) (Function.update_self ..)
  exact hsim.not_writes ha htype (by omega) (by omega) r' hr

/-- A write has its effect. What is not visible of it are zeros in the word of the flags. -/
theorem Sim.landed (hsim : Sim b t s) (ha : LatencyRefines messages s a) (htype : b.type = .lat)
    (hunder : (t.writers r).underWay = some (remote, bytes)) (hlt : t.visible r < landing bytes)
    (hlast : t.visible r + 1 = landing bytes) {w : ℕ × List UInt8} (hw : w.2 = []) :
    PartlyWritten (Function.update t.pending r w)
      (writeBytes t.mem (remote + t.visible r) bytes[t.visible r]?.toList)
      (writeBytes s.mem remote bytes) := by
  have hgrown := hsim.grown ha htype hunder hlt
  have harriving := hsim.arriving ha hunder hlt
  obtain ⟨hlen, -, hentry, hend⟩ := harriving.bounds
  refine hgrown.land (Function.update_self ..) (fun i hi hi' => ?_) (fun r' hr => ?_)
    (by rw [Function.update_self, hw])
  · obtain ⟨j, header, data, rfl, -, -, rfl, -, -, hflags⟩ := harriving.place
    rcases landing_cases hlen with hall | ⟨hheader, hshort⟩
    · omega
    · have hword : readWord s.mem ((b.ring r).slot j + 16) < 256 :=
        lt_trans ((ha.1.shows r).segmentFlags_lt j) (by norm_num)
      have hzero := byte_eq_zero_of_readWord_lt hword (show 0 < i - 16 by omega) (by omega)
      rw [SegmentHeader.getElem?_encode_flags hflags data (by omega) (by omega), ← hzero]
      congr 2
      omega
  · rw [Function.update_of_ne hr, Function.update_of_ne hr]
    refine ⟨rfl, fun x hx hin => ?_⟩
    obtain ⟨hlo, hhi⟩ := hin
    simp only at hlo hhi
    exact hsim.not_writes ha htype (by omega) (by omega) r' hr hx

/-- A byte arrives of a write without effect, which may give it its effect. -/
theorem Sim.nic_early (hsim : Sim b t s) (ha : LatencyRefines messages s a)
    (htype : b.type = .lat) (hunder : (t.writers r).underWay = some (remote, bytes))
    (hlt : t.visible r < landing bytes) (hguard : (t.writers r).CarriesPosted) {m : Mem}
    {w : BufferWriterLat} {v : ℕ}
    (hnic : (t.writers r).tornNic t.mem (t.visible r) = some (m, w, v)) :
    Sim b ⟨⟨m, Function.update t.writers r w, t.iterator, t.log⟩, Function.update t.visible r v⟩ s ∨
      ∃ s', s.step .lat machine (.nic r) = some s' ∧ (s.writers r).CarriesPosted ∧
        Sim b ⟨⟨m, Function.update t.writers r w, t.iterator, t.log⟩,
          Function.update t.visible r v⟩ s' := by
  have hsame : s.writers r = t.writers r := (hsim.writers r).trans (settled_of_lt hunder hlt)
  have hlanding := landing_cases (hsim.arriving ha hunder hlt).bounds.1
  rw [tornNic_of_underWay hunder hguard] at hnic
  by_cases hlast : t.visible r + 1 = landing bytes
  · obtain ⟨made, hwhole⟩ := nic_of_underWay hunder hguard s.mem
    have hstep : s.step .lat machine (.nic r) = some ⟨writeBytes s.mem remote bytes,
        Function.update s.writers r { t.writers r with queue := (t.writers r).queue.tail },
        s.iterator, s.log ++ made.toList.map RingEvent.madeConsumable⟩ := by
      simp only [RingSystem.step, hsame]
      rw [show machine.nic s.mem (t.writers r) = _ from hwhole]
      rfl
    have hevents : ∀ r' : Fin k,
        returnedBlocks (made.toList.map RingEvent.madeConsumable) r' = [] := by
      cases made <;> exact fun _ => rfl
    refine Or.inr ⟨_, hstep, hsame ▸ hguard, ?_⟩
    rcases hlanding with hall | ⟨hheader, hshort⟩
    · rw [if_neg (by omega)] at hnic
      cases hnic
      exact hsim.setResting r _ _ (hsim.landed ha htype hunder hlt hlast (pending_zero _)) hevents
    · rw [if_pos (by omega)] at hnic
      cases hnic
      have hmem := hsim.landed ha htype hunder hlt hlast (pending_of_le hunder hlast.ge)
      have hset := hsim.set r _ (t.visible r + 1) _ ?_ ?_ hmem hevents
      · rwa [settled_of_le hunder hlast.ge] at hset
      · intro hnone
        cases hnone.symm.trans hunder
      · intro remote' bytes' hunder' _
        cases hunder.symm.trans hunder'
        obtain ⟨j, header, data, rfl, -, -, rfl, -, -, hflags⟩ :=
          (hsim.arriving ha hunder hlt).place
        exact ⟨⟨j, rfl⟩, hshort, by omega,
          fun i hi hi' => SegmentHeader.getElem?_encode_flags hflags data hi hi', hsim.waits ha r⟩
  · apply Or.inl
    rw [if_pos (by omega)] at hnic
    cases hnic
    have hmem := hsim.grown ha htype hunder hlt
    rw [← pending_of_lt hunder (show t.visible r + 1 < landing bytes by omega)] at hmem
    have hset := hsim.set r (t.writers r) (t.visible r + 1) [] ?_ ?_ hmem fun _ => rfl
    · rw [settled_of_lt hunder (by omega), ← hsame, Function.update_eq_self,
        List.append_nil] at hset
      rwa [← hsame]
    · intro hnone
      cases hnone.symm.trans hunder
    · intro remote' bytes' hunder' hle
      cases hunder.symm.trans hunder'
      omega

/-- The last bytes of a write that has had its effect change nothing. -/
theorem Sim.nic_late (hsim : Sim b t s) (ha : LatencyRefines messages s a)
    (htype : b.type = .lat) (hunder : (t.writers r).underWay = some (remote, bytes))
    (hge : landing bytes ≤ t.visible r) (hguard : (t.writers r).CarriesPosted) {m : Mem}
    {w : BufferWriterLat} {v : ℕ}
    (hnic : (t.writers r).tornNic t.mem (t.visible r) = some (m, w, v)) :
    Sim b ⟨⟨m, Function.update t.writers r w, t.iterator, t.log⟩,
      Function.update t.visible r v⟩ s := by
  have hlate := hsim.late r remote bytes hunder hge
  have hsame : s.writers r = { t.writers r with queue := (t.writers r).queue.tail } :=
    (hsim.writers r).trans (settled_of_le hunder hge)
  have hnone : (t.pending r).2 = [] := pending_of_le hunder hge
  obtain ⟨j, rfl⟩ := hlate.place
  have hlength := hlate.length
  have hlt := hlate.lt
  unfold segmentHeaderSize at hlength
  have hfrom : 17 ≤ t.visible r := by
    unfold landing segmentHeaderSize at hge
    rwa [if_pos (by omega)] at hge
  have hsilent : writeBytes t.mem ((b.ring r).slot j + t.visible r) bytes[t.visible r]?.toList =
      t.mem := by
    have hle := (b.ring r).le_slot j
    have hend := (b.ring r).slot_add_fullSize_le j
    have hfull : (b.ring r).fullSize = (b.ring r).segmentSize + 24 := rfl
    have hagree : AgreeOn t.mem s.mem ((b.ring r).slot j + 16) 8 :=
      hsim.agree ha htype (by omega) (by omega) fun x hx => absurd hx (not_writes_of_nil hnone x)
    have hword : readWord t.mem ((b.ring r).slot j + 16) < 256 := by
      rw [hagree.readWord]
      exact lt_trans ((ha.1.shows r).segmentFlags_lt j) (by norm_num)
    have hzero := byte_eq_zero_of_readWord_lt hword (show 0 < t.visible r - 16 by omega) (by omega)
    rw [show (b.ring r).slot j + 16 + (t.visible r - 16) = (b.ring r).slot j + t.visible r by
      omega] at hzero
    have hkeep := writeBytes_readBytes t.mem ((b.ring r).slot j + t.visible r) 1
    rw [hlate.zero _ hfrom (by omega), Option.toList_some]
    rwa [readBytes, readBytes_zero, hzero] at hkeep
  rw [tornNic_of_underWay hunder hguard, hsilent] at hnic
  have hmem : ∀ {w : ℕ × List UInt8}, w.2 = [] →
      PartlyWritten (Function.update t.pending r w) t.mem s.mem :=
    fun hw => hsim.mem.update r (Or.inr ⟨hw, hnone⟩)
  by_cases hmore : t.visible r + 1 < bytes.length
  · rw [if_pos hmore] at hnic
    cases hnic
    have hge' : landing bytes ≤ t.visible r + 1 := by omega
    have hset := hsim.set r (t.writers r) (t.visible r + 1) [] ?_ ?_
      (hmem (pending_of_le hunder hge')) fun _ => rfl
    · rw [settled_of_le hunder hge', ← hsame, Function.update_eq_self (f := s.writers),
        List.append_nil] at hset
      exact hset
    · intro hnone'
      cases hnone'.symm.trans hunder
    · intro remote' bytes' hunder' _
      cases hunder.symm.trans hunder'
      exact ⟨⟨j, rfl⟩, hlate.length, hmore, hlate.zero, hlate.waits⟩
  · rw [if_neg hmore] at hnic
    cases hnic
    have hset := hsim.setResting r { t.writers r with queue := (t.writers r).queue.tail } []
      (hmem (pending_zero _)) fun _ => rfl
    rw [← hsame, Function.update_eq_self (f := s.writers), List.append_nil] at hset
    rwa [← hsame]

/-- The queue pairs: bytes that arrive give a write its effect or change nothing that the
system with whole writes sees. -/
theorem Sim.nic_step (hsim : Sim b t s) (ha : LatencyRefines messages s a)
    (htype : b.type = .lat) (hguard : (t.writers r).CarriesPosted) {t' : TornSystem k}
    (hstep : t.step (.nic r) = some t') :
    Sim b t' s ∨ ∃ s', s.step .lat machine (.nic r) = some s' ∧ (s.writers r).CarriesPosted ∧
      Sim b t' s' := by
  obtain ⟨⟨m, w, v⟩, hnic, rfl⟩ := Option.map_eq_some_iff.mp hstep
  cases hunder : (t.writers r).underWay with
  | some p =>
    obtain ⟨remote, bytes⟩ := p
    rcases Nat.lt_or_ge (t.visible r) (landing bytes) with hlt | hge
    · exact hsim.nic_early ha htype hunder hlt hguard hnic
    · exact Or.inl (hsim.nic_late ha htype hunder hge hguard hnic)
  | none =>
    have hsame : s.writers r = t.writers r := (hsim.writers r).trans (settled_of_none hunder)
    simp only [tornNic, hguard.writing, hunder] at hnic
    obtain ⟨⟨m', w', made⟩, hread, hresult⟩ := Option.map_eq_some_iff.mp hnic
    cases hresult
    obtain ⟨s', hs', hsim'⟩ := hsim.nic_read ha htype hunder hread
    refine Or.inr ⟨s', hs', hsame ▸ hguard, ?_⟩
    rwa [← Function.update_eq_self r t.visible] at hsim'

end

end DpiLibrary
