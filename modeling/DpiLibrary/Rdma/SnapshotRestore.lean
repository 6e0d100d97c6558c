import DpiLibrary.Foundation.Gaps
import DpiLibrary.Rdma.AllocatorCoverage

/-!
# Restoring the memory state from a snapshot

The free list is rebuilt from the live blocks in three pieces that share one loop
index: the room before the first block, the room between neighbours, the room
behind the last block. The first piece advances the index as well, so the pair it
stands at is never looked at; the last piece ends at the configured memory size
and not at the size of this manager.
-/

namespace DpiLibrary
namespace RDMAManager

/-- The loop over neighbours, from the index it has reached. -/
def restoreBetween (used : UsedMem) : List ℕ → Option (List RdmaMem)
  | off :: next :: rest => do
    let mem ← used.lookup off
    let free := sizeTSub next (off + mem.size)
    let later ← restoreBetween used (next :: rest)
    some (if 0 < free then .ofBlock free true (off + mem.size) :: later else later)
  | _ => some []

/-- The room behind the last block. `rdmaMemsize` is `Config::RDMA_MEMSIZE`. -/
def restoreLast (rdmaMemsize : ℕ) (used : UsedMem) (back : ℕ) : Option (List RdmaMem) := do
  let mem ← used.lookup back
  if back + mem.size ≠ rdmaMemsize then
    some [.ofBlock (sizeTSub rdmaMemsize (back + mem.size)) true (back + mem.size)]
  else some []

/-- `none` stands for `at` without a record and for the front of no offsets. -/
def restoreMemStateSnapShot (rdmaMemsize : ℕ) (m : RDMAManager) (usedMemory : UsedMem) :
    List ℕ → Option (RDMAManager × Bool)
  | [] => none
  | front :: rest => do
    let usedRdmaMem := m.usedRdmaMem ∪ usedMemory
    let firstFree := if front ≠ 0 then [RdmaMem.ofBlock front true 0] else []
    let between ← restoreBetween usedRdmaMem (if front ≠ 0 then rest else front :: rest)
    let last ← restoreLast rdmaMemsize usedRdmaMem ((front :: rest).getLast (by simp))
    some ({ m with rdmaMem := firstFree ++ between ++ last, usedRdmaMem }, true)

/-- What a caller hands over: blocks stored under their own offsets, apart and inside the
memory, at least one of them, and their offsets in order. -/
structure Snapshot (memSize : ℕ) (usedMemory : UsedMem) (sortedOffsets : List ℕ) : Prop where
  nonempty : sortedOffsets ≠ []
  sorted : sortedOffsets.Pairwise (· ≤ ·)
  offsets : sortedOffsets.Perm usedMemory.keys
  keyed : ∀ offset b, usedMemory.lookup offset = some b → b.offset = offset
  apart : ∀ o b o' b', usedMemory.lookup o = some b → usedMemory.lookup o' = some b' → o ≠ o' →
    b.span.Apart b'.span
  inside : ∀ offset b, usedMemory.lookup offset = some b → b.span.Inside memSize

/-- An address of the memory that no block takes. -/
def FreeByte (memSize : ℕ) (usedMemory : UsedMem) (x : ℕ) : Prop :=
  x < memSize ∧ ∀ offset b, usedMemory.lookup offset = some b → ¬ b.span.Contains x

/-- A fresh manager gets a merged free list of exactly the free addresses, and the blocks. -/
def RestoresSnapshot (rdmaMemsize memSize : ℕ) (usedMemory : UsedMem)
    (sortedOffsets : List ℕ) : Prop :=
  ∃ m, restoreMemStateSnapShot rdmaMemsize (init memSize) usedMemory sortedOffsets =
      some (m, true) ∧
    Merged (m.rdmaMem.map RdmaMem.span) ∧
    (∀ b ∈ m.rdmaMem, b.free = true ∧ b.isnull = false) ∧
    (∀ x, m.Available x ↔ FreeByte memSize usedMemory x) ∧
    m.usedRdmaMem = usedMemory

/-- When the three pieces are the gaps of the blocks: the sizes agree, the pair that the index
skips leaves no room, and no empty block stands in free memory. -/
structure Restorable (rdmaMemsize memSize : ℕ) (usedMemory : UsedMem)
    (sortedOffsets : List ℕ) : Prop where
  memsize : memSize = rdmaMemsize
  leading : ∀ first second rest, sortedOffsets = first :: second :: rest → first ≠ 0 →
    ∀ b, usedMemory.lookup first = some b → first + b.size = second
  uncut : ∀ offset b, usedMemory.lookup offset = some b → b.size = 0 → 0 < offset →
    FreeByte memSize usedMemory (offset - 1) → ¬ FreeByte memSize usedMemory offset

/-- The blocks of the offsets, in their order. -/
def blocksAt (used : UsedMem) (offsets : List ℕ) : List Span :=
  offsets.map fun off => ⟨off, ((used.lookup off).getD .null).size⟩

/-- The block of one offset ends here. -/
def endAt (used : UsedMem) (off : ℕ) : ℕ := off + ((used.lookup off).getD .null).size

theorem endAt_eq {used : UsedMem} {off : ℕ} {mem : RdmaMem} (h : used.lookup off = some mem) :
    endAt used off = off + mem.size := by
  simp [endAt, h]

section Pieces

variable {used : UsedMem}

theorem lastEnd_blocksAt (rest : List ℕ) : ∀ off : ℕ,
    lastEnd (endAt used off) (blocksAt used rest) =
      endAt used ((off :: rest).getLast (by simp)) := by
  induction rest with
  | nil =>
    intro off
    rfl
  | cons next rest ih =>
    intro off
    exact ih next

/-- A loop over ascending blocks yields the gaps after its first block, up to the end of its
last one. -/
theorem restoreBetween_spans {limit : ℕ} (hlimit : limit < sizeTBound) (rest : List ℕ) :
    ∀ off : ℕ, (∀ o ∈ off :: rest, o ∈ used) →
      Ascending (endAt used off) (blocksAt used rest) limit →
      ∃ between, restoreBetween used (off :: rest) = some between ∧
        (∀ b ∈ between, b.free = true ∧ b.isnull = false) ∧
        ∀ top, between.map RdmaMem.span ++
            room (lastEnd (endAt used off) (blocksAt used rest)) top =
          gaps (endAt used off) (blocksAt used rest) top := by
  induction rest with
  | nil =>
    intro off _ _
    exact ⟨[], rfl, by simp, fun top => rfl⟩
  | cons next rest ih =>
    intro off hused hasc
    obtain ⟨mem, hmem⟩ := Option.isSome_iff_exists.mp
      (AList.lookup_isSome.mpr (hused off List.mem_cons_self))
    obtain ⟨hle, htail⟩ := hasc
    obtain ⟨later, hlater, hflags, hspans⟩ :=
      ih next (fun o ho => hused o (List.mem_cons_of_mem off ho)) htail
    have hnext : next ≤ limit := by
      have hend := htail.le
      simp only at hend
      omega
    have hend := endAt_eq hmem
    have hsub : sizeTSub next (off + mem.size) = next - endAt used off := by
      rw [← hend]
      exact sizeTSub_of_le hle (by omega)
    refine ⟨if 0 < next - endAt used off then
      .ofBlock (next - endAt used off) true (endAt used off) :: later else later, ?_, ?_, ?_⟩
    · simp [restoreBetween, hmem, hlater, hsub, hend]
    · split_ifs
      · simpa [RdmaMem.ofBlock] using hflags
      · exact hflags
    · intro top
      have hgaps : gaps (endAt used off) (blocksAt used (next :: rest)) top =
          room (endAt used off) next ++ gaps (endAt used next) (blocksAt used rest) top := rfl
      have hlast : lastEnd (endAt used off) (blocksAt used (next :: rest)) =
          lastEnd (endAt used next) (blocksAt used rest) := rfl
      rw [hgaps, hlast, ← hspans top]
      unfold room
      split_ifs <;> first | omega | simp [RdmaMem.span, RdmaMem.ofBlock]

/-- The last piece is the room behind the blocks, unless they end above the configured size. -/
theorem restoreLast_spans {rdmaMemsize back : ℕ} (hback : back ∈ used)
    (hsize : rdmaMemsize < sizeTBound) (hend : endAt used back < sizeTBound) :
    ∃ last, restoreLast rdmaMemsize used back = some last ∧
      (∀ b ∈ last, b.free = true ∧ b.isnull = false) ∧
      (endAt used back ≤ rdmaMemsize →
        last.map RdmaMem.span = room (endAt used back) rdmaMemsize) ∧
      (rdmaMemsize < endAt used back →
        last.map RdmaMem.span =
          [⟨endAt used back, rdmaMemsize + sizeTBound - endAt used back⟩]) := by
  obtain ⟨mem, hmem⟩ := Option.isSome_iff_exists.mp (AList.lookup_isSome.mpr hback)
  rw [endAt_eq hmem] at hend ⊢
  by_cases heq : back + mem.size = rdmaMemsize
  · refine ⟨[], by simp [restoreLast, hmem, heq], by simp, ?_, by omega⟩
    intro _
    simp [room, heq]
  · refine ⟨[.ofBlock (sizeTSub rdmaMemsize (back + mem.size)) true (back + mem.size)],
      by simp [restoreLast, hmem, heq], by simp [RdmaMem.ofBlock], ?_, ?_⟩
    · intro hle
      rw [sizeTSub_of_le hle hsize, room, if_pos (by omega)]
      rfl
    · intro hlt
      rw [sizeTSub_of_lt hlt hend]
      rfl

end Pieces

/-- The offset whose block the loop starts behind, and the offsets after it. -/
def loopStart (front : ℕ) : List ℕ → ℕ × List ℕ
  | [] => (front, [])
  | second :: rest => if front = 0 then (front, second :: rest) else (second, rest)

theorem restoreBetween_loopStart (used : UsedMem) (front : ℕ) (rest : List ℕ) :
    restoreBetween used (if front ≠ 0 then rest else front :: rest) =
      restoreBetween used ((loopStart front rest).1 :: (loopStart front rest).2) := by
  cases rest with
  | nil =>
    by_cases h : front = 0 <;> simp [loopStart, h, restoreBetween]
  | cons second rest =>
    by_cases h : front = 0 <;> simp [loopStart, h]

namespace Snapshot

variable {memSize : ℕ} {usedMemory : UsedMem} {sortedOffsets : List ℕ}

theorem mem_used (h : Snapshot memSize usedMemory sortedOffsets) {offset : ℕ} :
    offset ∈ sortedOffsets ↔ offset ∈ usedMemory := by
  rw [h.offsets.mem_iff]
  exact AList.mem_keys.symm

theorem lookup_of_mem (h : Snapshot memSize usedMemory sortedOffsets) {offset : ℕ}
    (ho : offset ∈ sortedOffsets) :
    ∃ b, usedMemory.lookup offset = some b ∧ b.span = ⟨offset, b.size⟩ := by
  obtain ⟨b, hb⟩ := Option.isSome_iff_exists.mp (AList.lookup_isSome.mpr (h.mem_used.mp ho))
  have hoffset := h.keyed offset b hb
  exact ⟨b, hb, by rw [RdmaMem.span, hoffset]⟩

theorem ascending (h : Snapshot memSize usedMemory sortedOffsets) :
    Ascending 0 (blocksAt usedMemory sortedOffsets) memSize := by
  have hnodup : sortedOffsets.Nodup := h.offsets.nodup_iff.mpr usedMemory.keys_nodup
  apply ascending_of_pairwise (Nat.zero_le _)
  · simp
  · rw [blocksAt, List.pairwise_map]
    refine (h.sorted.and hnodup).imp_of_mem ?_
    rintro a b ha hb ⟨hle, hne⟩
    obtain ⟨mem, hmem, hspan⟩ := h.lookup_of_mem ha
    obtain ⟨mem', hmem', hspan'⟩ := h.lookup_of_mem hb
    have hapart := h.apart a mem b mem' hmem hmem' hne
    rw [hspan, hspan'] at hapart
    simp only [hmem, Option.getD_some]
    rcases hapart with hapart | hapart <;> simp only at hapart <;> omega
  · intro b hb
    obtain ⟨o, ho, rfl⟩ := List.mem_map.mp hb
    obtain ⟨mem, hmem, hspan⟩ := h.lookup_of_mem ho
    have hinside := h.inside o mem hmem
    rw [hspan] at hinside
    simpa [hmem, Span.Inside] using hinside

theorem vacant_iff (h : Snapshot memSize usedMemory sortedOffsets) (x : ℕ) :
    Vacant 0 (blocksAt usedMemory sortedOffsets) memSize x ↔ FreeByte memSize usedMemory x := by
  simp only [Vacant, FreeByte, Nat.zero_le, true_and]
  apply and_congr_right
  intro _
  constructor
  · intro hfree offset b hb
    have hmem : offset ∈ sortedOffsets := h.mem_used.mpr (AList.lookup_isSome.mp (by simp [hb]))
    have hspan : b.span = ⟨offset, b.size⟩ := by rw [RdmaMem.span, h.keyed offset b hb]
    rw [hspan]
    exact hfree _ (List.mem_map.mpr ⟨offset, hmem, by simp [hb]⟩)
  · intro hfree a ha
    obtain ⟨o, ho, rfl⟩ := List.mem_map.mp ha
    obtain ⟨mem, hmem, hspan⟩ := h.lookup_of_mem ho
    have := hfree o mem hmem
    rw [hspan] at this
    simpa [hmem] using this

/-- The condition on empty blocks is the one under which gaps are merged. -/
theorem noneCut_iff (h : Snapshot memSize usedMemory sortedOffsets) :
    NoneCut 0 (blocksAt usedMemory sortedOffsets) memSize ↔
      ∀ offset b, usedMemory.lookup offset = some b → b.size = 0 → 0 < offset →
        FreeByte memSize usedMemory (offset - 1) → ¬ FreeByte memSize usedMemory offset := by
  simp only [NoneCut, h.vacant_iff]
  constructor
  · intro hcut offset b hb hzero
    have hmem : offset ∈ sortedOffsets := h.mem_used.mpr (AList.lookup_isSome.mp (by simp [hb]))
    exact hcut ⟨offset, b.size⟩ (List.mem_map.mpr ⟨offset, hmem, by simp [hb]⟩) hzero
  · intro hcut a ha hzero
    obtain ⟨o, ho, rfl⟩ := List.mem_map.mp ha
    obtain ⟨mem, hmem, -⟩ := h.lookup_of_mem ho
    exact hcut o mem hmem (by simpa [hmem] using hzero)

/-- The loop starts behind the first block or behind the second one. -/
theorem loopStart_blocks {front : ℕ} {rest : List ℕ}
    (h : Snapshot memSize usedMemory (front :: rest)) :
    (∀ o ∈ (loopStart front rest).1 :: (loopStart front rest).2, o ∈ usedMemory) ∧
      Ascending (endAt usedMemory (loopStart front rest).1)
        (blocksAt usedMemory (loopStart front rest).2) memSize ∧
      lastEnd (endAt usedMemory (loopStart front rest).1)
        (blocksAt usedMemory (loopStart front rest).2) =
          lastEnd 0 (blocksAt usedMemory (front :: rest)) := by
  have hused : ∀ o ∈ front :: rest, o ∈ usedMemory := fun o ho => h.mem_used.mp ho
  have hasc := h.ascending
  cases rest with
  | nil => exact ⟨hused, hasc.2, rfl⟩
  | cons second rest =>
    by_cases hfront : front = 0
    · simp only [loopStart, hfront, if_true]
      rw [hfront] at hused hasc
      exact ⟨hused, hasc.2, rfl⟩
    · simp only [loopStart, hfront, if_false]
      exact ⟨fun o ho => hused o (List.mem_cons_of_mem front ho), hasc.2.2, rfl⟩

theorem loopStart_ascending {front top : ℕ} {rest : List ℕ}
    (h : Snapshot memSize usedMemory (front :: rest))
    (htop : lastEnd 0 (blocksAt usedMemory (front :: rest)) ≤ top) :
    Ascending (endAt usedMemory (loopStart front rest).1)
      (blocksAt usedMemory (loopStart front rest).2) top := by
  obtain ⟨-, hasc, hlast⟩ := h.loopStart_blocks
  rw [ascending_iff, hlast] at hasc ⊢
  exact ⟨hasc.1, htop⟩

/-- The three pieces, as spans: before, between and behind the blocks. -/
theorem restored {rdmaMemsize front : ℕ} {rest : List ℕ}
    (h : Snapshot memSize usedMemory (front :: rest)) (hmem : memSize < sizeTBound)
    (hsize : rdmaMemsize < sizeTBound) :
    ∃ m between last,
      restoreMemStateSnapShot rdmaMemsize (init memSize) usedMemory (front :: rest) =
        some (m, true) ∧
      (∀ b ∈ m.rdmaMem, b.free = true ∧ b.isnull = false) ∧ m.usedRdmaMem = usedMemory ∧
      m.rdmaMem.map RdmaMem.span = room 0 front ++ between ++ last ∧
      (∀ top, between ++ room (lastEnd 0 (blocksAt usedMemory (front :: rest))) top =
        gaps (endAt usedMemory (loopStart front rest).1)
          (blocksAt usedMemory (loopStart front rest).2) top) ∧
      (lastEnd 0 (blocksAt usedMemory (front :: rest)) ≤ rdmaMemsize →
        last = room (lastEnd 0 (blocksAt usedMemory (front :: rest))) rdmaMemsize) ∧
      (rdmaMemsize < lastEnd 0 (blocksAt usedMemory (front :: rest)) →
        last = [⟨lastEnd 0 (blocksAt usedMemory (front :: rest)), rdmaMemsize + sizeTBound -
          lastEnd 0 (blocksAt usedMemory (front :: rest))⟩]) := by
  have hasc := h.ascending
  have hend : lastEnd 0 (blocksAt usedMemory (front :: rest)) =
      endAt usedMemory ((front :: rest).getLast (by simp)) := lastEnd_blocksAt rest front
  have hbelow : lastEnd 0 (blocksAt usedMemory (front :: rest)) ≤ memSize :=
    (ascending_iff.mp hasc).2
  have hused : ∀ o ∈ front :: rest, o ∈ usedMemory := fun o ho => h.mem_used.mp ho
  have hloop := h.loopStart_blocks
  obtain ⟨between, hbetween, hbetweenFlags, hbetweenSpans⟩ :=
    restoreBetween_spans hmem _ _ hloop.1 hloop.2.1
  obtain ⟨last, hlast, hlastFlags, hlastRoom, hlastWrapped⟩ :=
    restoreLast_spans (hused _ (List.getLast_mem (by simp))) hsize (by rw [← hend]; omega)
  rw [← hend] at hlastRoom hlastWrapped
  rw [hloop.2.2] at hbetweenSpans
  refine ⟨⟨memSize, (if front ≠ 0 then [.ofBlock front true 0] else []) ++ between ++ last,
    usedMemory⟩, between.map RdmaMem.span, last.map RdmaMem.span, ?_, ?_, rfl, ?_,
    hbetweenSpans, hlastRoom, hlastWrapped⟩
  · simp only [restoreMemStateSnapShot, init, AList.empty_union, restoreBetween_loopStart,
      hbetween, hlast, Option.bind_eq_bind, Option.bind_some]
  · intro b hb
    simp only [List.mem_append] at hb
    rcases hb with (hb | hb) | hb
    · split_ifs at hb
      · rw [List.mem_singleton.mp hb]
        exact ⟨rfl, rfl⟩
      · cases hb
    · exact hbetweenFlags b hb
    · exact hlastFlags b hb
  · simp only [List.map_append]
    congr 2
    unfold room
    by_cases hfront : front = 0
    · simp [hfront]
    · simp [hfront, Nat.pos_of_ne_zero hfront, RdmaMem.span, RdmaMem.ofBlock]

end Snapshot

theorem available_iff_spans (m : RDMAManager) (x : ℕ) :
    m.Available x ↔ ∃ a ∈ m.rdmaMem.map RdmaMem.span, a.Contains x := by
  simp [Available]

/-- The pieces are the gaps wherever the skipped pair leaves no room. -/
theorem gaps_loopStart {used : UsedMem} {front : ℕ} {rest : List ℕ}
    (hlead : ∀ second tail, rest = second :: tail → front ≠ 0 → endAt used front = second)
    (top : ℕ) :
    gaps (endAt used (loopStart front rest).1) (blocksAt used (loopStart front rest).2) top =
      gaps (endAt used front) (blocksAt used rest) top := by
  cases rest with
  | nil => rfl
  | cons second tail =>
    by_cases hfront : front = 0
    · simp [loopStart, hfront]
    · have htouch := hlead second tail rfl hfront
      simp only [loopStart, hfront, if_false]
      have hgaps : gaps (endAt used front) (blocksAt used (second :: tail)) top =
          room (endAt used front) second ++ gaps (endAt used second) (blocksAt used tail) top :=
        rfl
      rw [hgaps, htouch]
      simp [room]

/-- With another size configured, an address behind the blocks is free and not listed, or
listed and not free. -/
theorem memsize_of_restores {rdmaMemsize memSize front : ℕ} {usedMemory : UsedMem}
    {rest : List ℕ} (h : Snapshot memSize usedMemory (front :: rest))
    (hmem : memSize < sizeTBound) (hsize : rdmaMemsize < sizeTBound)
    (hrestores : RestoresSnapshot rdmaMemsize memSize usedMemory (front :: rest)) :
    memSize = rdmaMemsize := by
  obtain ⟨m, between, last, hrun, -, -, hspans, hbetween, hlast, hwrapped⟩ :=
    h.restored hmem hsize
  obtain ⟨m', hrun', -, -, havailable, -⟩ := hrestores
  cases hrun.symm.trans hrun'
  simp only [available_iff_spans, hspans] at havailable
  have hasc := h.ascending
  have hends := hasc.end_le
  have hbelow := (ascending_iff.mp hasc).2
  set back := lastEnd 0 (blocksAt usedMemory (front :: rest)) with hback
  have hbeyond : ¬ ∃ a ∈ last, a.Contains memSize := by
    rintro ⟨a, ha, hx⟩
    have hfree := (havailable memSize).mp ⟨a, by simp [ha], hx⟩
    exact absurd hfree.1 (lt_irrefl _)
  rcases Nat.lt_or_ge rdmaMemsize back with hlt | hge
  · apply absurd _ hbeyond
    rw [hwrapped hlt]
    refine ⟨_, List.mem_singleton_self _, hbelow, ?_⟩
    simp only
    omega
  · rw [hlast hge, room_contains] at hbeyond
    by_contra hne
    have hshort : rdmaMemsize < memSize := by omega
    -- the byte at the configured size is behind every block and behind every gap
    have hfree : FreeByte memSize usedMemory rdmaMemsize := by
      rw [← h.vacant_iff]
      refine ⟨Nat.zero_le _, hshort, fun b hb hin => ?_⟩
      have hend := hends b hb
      simp only [Span.Contains] at hin
      omega
    obtain ⟨a, ha, hin⟩ := (havailable rdmaMemsize).mpr hfree
    rw [List.append_assoc, hlast hge, hbetween, List.mem_append] at ha
    rcases ha with ha | ha
    · have hfront := (room_contains.mp ⟨a, ha, hin⟩).2
      have hfirst := hends ⟨front, _⟩ List.mem_cons_self
      simp only at hfirst
      omega
    · exact absurd ((gaps_contains (h.loopStart_ascending hge) _).mp ⟨a, ha, hin⟩).2.1
        (lt_irrefl _)

/-- Room that the index skips is in no gap. -/
theorem leading_of_restores {memSize front : ℕ} {usedMemory : UsedMem} {rest : List ℕ}
    (h : Snapshot memSize usedMemory (front :: rest)) (hmem : memSize < sizeTBound)
    (hrestores : RestoresSnapshot memSize memSize usedMemory (front :: rest)) {second : ℕ}
    {tail : List ℕ} (hrest : rest = second :: tail) (hfront : front ≠ 0) :
    endAt usedMemory front = second := by
  obtain ⟨m, between, last, hrun, -, -, hspans, hbetween, hlast, -⟩ := h.restored hmem hmem
  obtain ⟨m', hrun', -, -, havailable, -⟩ := hrestores
  cases hrun.symm.trans hrun'
  simp only [available_iff_spans, hspans] at havailable
  have hasc := h.ascending
  have hbelow := (ascending_iff.mp hasc).2
  have hloop := h.loopStart_ascending hbelow
  subst hrest
  have hpair : endAt usedMemory front ≤ second ∧
      Ascending (endAt usedMemory second) (blocksAt usedMemory tail) memSize := hasc.2
  by_contra hne
  have hfree : FreeByte memSize usedMemory (endAt usedMemory front) := by
    have hvacant : Vacant (endAt usedMemory front) (blocksAt usedMemory (second :: tail)) memSize
        (endAt usedMemory front) :=
      (vacant_cons hasc.2).mpr (Or.inl ⟨le_rfl, by simp only; omega⟩)
    rw [← h.vacant_iff]
    exact (vacant_cons hasc).mpr (Or.inr hvacant)
  obtain ⟨a, ha, hin⟩ := (havailable _).mpr hfree
  rw [List.append_assoc, hlast hbelow, hbetween, List.mem_append] at ha
  simp only [loopStart, hfront, if_false] at ha hloop
  rcases ha with ha | ha
  · have hbefore := (room_contains.mp ⟨a, ha, hin⟩).2
    simp only [endAt] at hbefore
    omega
  · have hafter := ((gaps_contains hloop _).mp ⟨a, ha, hin⟩).1
    simp only [endAt] at hafter hpair hne
    omega

/-- Without skipped room and with its own size the manager gets the gaps of the blocks, and
those are merged when no empty block cuts them. -/
theorem restores_iff_noneCut {memSize front : ℕ} {usedMemory : UsedMem} {rest : List ℕ}
    (h : Snapshot memSize usedMemory (front :: rest)) (hmem : memSize < sizeTBound)
    (hlead : ∀ second tail, rest = second :: tail → front ≠ 0 →
      endAt usedMemory front = second) :
    RestoresSnapshot memSize memSize usedMemory (front :: rest) ↔
      NoneCut 0 (blocksAt usedMemory (front :: rest)) memSize := by
  obtain ⟨m, between, last, hrun, hflags, hused, hspans, hbetween, hlast, -⟩ :=
    h.restored hmem hmem
  have hasc := h.ascending
  have hgaps : m.rdmaMem.map RdmaMem.span =
      gaps 0 (blocksAt usedMemory (front :: rest)) memSize := by
    rw [hspans, hlast (ascending_iff.mp hasc).2, List.append_assoc, hbetween,
      gaps_loopStart hlead]
    rfl
  rw [← gaps_merged_iff hasc, ← hgaps]
  constructor
  · rintro ⟨m', hrun', hmerged, -⟩
    cases hrun.symm.trans hrun'
    exact hmerged
  · intro hmerged
    refine ⟨m, hrun, hmerged, hflags, fun x => ?_, hused⟩
    rw [available_iff_spans, hgaps, gaps_contains hasc, h.vacant_iff]

/-- Restoring rebuilds the free list exactly when the configured size is the manager's, the
pair of blocks that the index skips touches, and no empty block stands in free memory. -/
theorem restoreMemStateSnapShot_iff {rdmaMemsize memSize : ℕ} {usedMemory : UsedMem}
    {sortedOffsets : List ℕ} (hmem : memSize < sizeTBound) (hsize : rdmaMemsize < sizeTBound)
    (h : Snapshot memSize usedMemory sortedOffsets) :
    RestoresSnapshot rdmaMemsize memSize usedMemory sortedOffsets ↔
      Restorable rdmaMemsize memSize usedMemory sortedOffsets := by
  cases sortedOffsets with
  | nil => exact absurd rfl h.nonempty
  | cons front rest =>
    constructor
    · intro hrestores
      have heq := memsize_of_restores h hmem hsize hrestores
      subst heq
      have hlead : ∀ second tail, rest = second :: tail → front ≠ 0 →
          endAt usedMemory front = second :=
        fun second tail hrest hfront => leading_of_restores h hmem hrestores hrest hfront
      refine ⟨rfl, ?_, h.noneCut_iff.mp ((restores_iff_noneCut h hmem hlead).mp hrestores)⟩
      intro first second tail hcons hfirst b hb
      obtain ⟨rfl, hrest⟩ := List.cons.inj hcons
      rw [← endAt_eq hb]
      exact hlead second tail hrest hfirst
    · rintro ⟨rfl, hleading, huncut⟩
      refine (restores_iff_noneCut h hmem ?_).mpr (h.noneCut_iff.mpr huncut)
      intro second tail hrest hfront
      obtain ⟨b, hb, -⟩ := h.lookup_of_mem (show front ∈ front :: rest by simp)
      rw [endAt_eq hb]
      exact hleading front second tail (by rw [hrest]) hfront b hb

theorem forall_lookup_iff {used : UsedMem} {P : ℕ → RdmaMem → Prop} :
    (∀ offset b, used.lookup offset = some b → P offset b) ↔
      ∀ e ∈ used.entries, P e.1 e.2 := by
  constructor
  · intro h e he
    exact h e.1 e.2 (AList.mem_lookup_iff.mpr he)
  · intro h offset b hb
    exact h ⟨offset, b⟩ (AList.mem_lookup_iff.mp hb)

/-- One block with room on both sides. -/
def oneBlock : UsedMem := (∅ : UsedMem).insert 10 (.ofBlock 10 false 10)

theorem snapshot_oneBlock : Snapshot 100 oneBlock [10] where
  nonempty := by simp
  sorted := by simp
  offsets := by decide
  keyed := forall_lookup_iff.mpr (by decide)
  apart := by
    intro o b o' b' hb hb' hne
    have hkey : ∀ o b, oneBlock.lookup o = some b → o = 10 := forall_lookup_iff.mpr (by decide)
    exact absurd ((hkey o b hb).trans (hkey o' b' hb').symm) hne
  inside := forall_lookup_iff.mpr (by decide)

/-- The room on both sides of a single block comes back. -/
theorem restores_oneBlock : RestoresSnapshot 100 100 oneBlock [10] :=
  (restoreMemStateSnapShot_iff (by decide) (by decide) snapshot_oneBlock).mpr
    { memsize := rfl
      leading := by simp
      uncut := fun offset b hb hzero => absurd hzero
        ((forall_lookup_iff (P := fun _ b => b.size ≠ 0)).mpr (by decide) offset b hb) }

/-- Two blocks of ten bytes with room before, between and behind them. -/
def spacedBlocks : UsedMem :=
  ((∅ : UsedMem).insert 40 (.ofBlock 10 false 40)).insert 10 (.ofBlock 10 false 10)

theorem snapshot_spacedBlocks : Snapshot 100 spacedBlocks [10, 40] where
  nonempty := by simp
  sorted := by simp
  offsets := by decide
  keyed := forall_lookup_iff.mpr (by decide)
  apart := by
    intro o b o' b' hb hb' hne
    have hkey : ∀ o b, spacedBlocks.lookup o = some b →
        (o = 10 ∨ o = 40) ∧ b.span = ⟨o, 10⟩ := forall_lookup_iff.mpr (by decide)
    obtain ⟨ho, hspan⟩ := hkey o b hb
    obtain ⟨ho', hspan'⟩ := hkey o' b' hb'
    rw [hspan, hspan']
    simp only [Span.Apart]
    omega
  inside := forall_lookup_iff.mpr (by decide)

/-- The index has moved past the room between the two blocks: thirty free bytes are lost. -/
theorem room_after_first_block_lost :
    Snapshot 100 spacedBlocks [10, 40] ∧ ¬ RestoresSnapshot 100 100 spacedBlocks [10, 40] := by
  refine ⟨snapshot_spacedBlocks, fun hrestores => ?_⟩
  have htouch := leading_of_restores snapshot_spacedBlocks (by decide) hrestores rfl (by decide)
  exact absurd htouch (by decide)

end RDMAManager
end DpiLibrary
