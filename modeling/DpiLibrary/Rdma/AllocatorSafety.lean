import DpiLibrary.Foundation.Schedule
import DpiLibrary.Rdma.AllocatorSpec

/-!
# Allocator safety

Free and live blocks always form a packing of the registered memory, whatever
order they are freed in: this needs no fact about the order of the free list.
The order itself survives a free exactly when the search stops at the first free
block past the freed one, and the only way to miss that block is a wrap of the
running bound.
-/

namespace DpiLibrary
namespace RDMAManager

open Schedule

/-- Free and live blocks are non-empty, apart and inside the memory; the free ones
are marked free and each live record is stored under its own offset. -/
structure Inv (m : RDMAManager) : Prop where
  packing : Packing m.memSize m.spans
  allFree : ∀ b ∈ m.rdmaMem, b.free = true
  keyed : ∀ offset b, m.usedRdmaMem.lookup offset = some b → b.offset = offset

/-- The values of a map, with the one stored under a key in front. -/
theorem entries_erase_perm {κ β : Type} [DecidableEq κ] {used : AList fun _ : κ => β} {k : κ}
    {b : β} (h : used.lookup k = some b) :
    (used.entries.map Sigma.snd).Perm (b :: (used.erase k).entries.map Sigma.snd) := by
  have hmem : k ∈ used.entries.keys := AList.lookup_isSome.mp (by simp [h])
  obtain ⟨b', l₁, l₂, hnot, hentries, herase⟩ := List.exists_of_kerase hmem
  have hb : b' = b := by
    have hin : (⟨k, b'⟩ : Sigma fun _ : κ => β) ∈ used.entries := by simp [hentries]
    have hlook : b' ∈ used.lookup k := AList.mem_lookup_iff.mpr hin
    exact Option.some.inj (hlook.symm.trans h)
  subst hb
  have he : (used.erase k).entries = l₁ ++ l₂ := herase
  rw [hentries, he]
  simp only [List.map_append, List.map_cons]
  exact List.perm_middle

theorem liveBlocks_erase_perm {m : RDMAManager} {offset : ℕ} {b : RdmaMem}
    (h : m.usedRdmaMem.lookup offset = some b) :
    m.liveBlocks.Perm (b :: (m.usedRdmaMem.erase offset).entries.map Sigma.snd) :=
  entries_erase_perm h

theorem mem_liveBlocks {m : RDMAManager} {b : RdmaMem} :
    b ∈ m.liveBlocks ↔ ∃ offset, m.usedRdmaMem.lookup offset = some b := by
  constructor
  · intro h
    obtain ⟨⟨offset, b'⟩, hentry, rfl⟩ := List.mem_map.mp h
    exact ⟨offset, Option.mem_def.mp (AList.mem_lookup_iff.mpr hentry)⟩
  · rintro ⟨offset, h⟩
    exact List.mem_map.mpr ⟨_, AList.mem_lookup_iff.mp (Option.mem_def.mpr h), rfl⟩

theorem spans_init (memSize : ℕ) : (init memSize).spans = [⟨0, memSize⟩] := rfl

theorem inv_init {memSize : ℕ} (h : 0 < memSize) : Inv (init memSize) where
  packing := by
    rw [spans_init]
    exact Packing.cons_iff.mpr
      ⟨h, by simp [Span.Inside, init], by simp, ⟨by simp, by simp, by simp⟩⟩
  allFree := by simp [init, RdmaMem.ofBlock]
  keyed := by simp [init]

/-- Taking the front of a block and keeping the remainder is a split. -/
theorem packing_take {limit size : ℕ} {b : RdmaMem} {l : List Span} (hpos : 0 < size)
    (hle : size ≤ b.size) (h : Packing limit (b.span :: l)) :
    Packing limit ((RdmaMem.ofBlock size false b.offset).span ::
      ((remainder b size).map RdmaMem.span ++ l)) := by
  rcases hle.eq_or_lt with heq | hlt
  · simpa [remainder, RdmaMem.span, RdmaMem.ofBlock, heq] using h
  · have hsplit : Packing limit (⟨b.offset, size + (b.size - size)⟩ :: l) := by
      rw [Nat.add_sub_cancel' hle]
      exact h
    simpa [remainder, hlt, RdmaMem.span, RdmaMem.ofBlock] using
      Packing.split hpos (by omega) hsplit

theorem totalLength_take {size : ℕ} {b : RdmaMem} (hle : size ≤ b.size) :
    size + totalLength ((remainder b size).map RdmaMem.span) = b.size := by
  rcases hle.eq_or_lt with heq | hlt
  · simp [remainder, heq]
  · simp only [remainder, hlt, if_true, List.map_cons, List.map_nil, totalLength_cons,
      RdmaMem.span_length, RdmaMem.ofBlock, totalLength_nil]
    omega

/-- The spans around one free block, brought to the front. -/
theorem spans_perm_of_split {m : RDMAManager} {pre post : List RdmaMem} {b : RdmaMem}
    (h : m.rdmaMem = pre ++ b :: post) :
    m.spans.Perm (b.span :: (pre ++ post ++ m.liveBlocks).map RdmaMem.span) := by
  have hl : (m.rdmaMem ++ m.liveBlocks).Perm (b :: (pre ++ post ++ m.liveBlocks)) := by
    rw [h]
    simp only [List.append_assoc, List.cons_append]
    exact List.perm_middle
  simpa [spans] using hl.map RdmaMem.span

theorem fresh_key {m : RDMAManager} (hm : Inv m) {b : RdmaMem} (hb : b ∈ m.rdmaMem) :
    b.offset ∉ m.usedRdmaMem := by
  intro hmem
  obtain ⟨c, hc⟩ := Option.isSome_iff_exists.mp (AList.lookup_isSome.mpr hmem)
  obtain ⟨pre, post, hsplit⟩ := List.append_of_mem hb
  have hlive : c ∈ m.liveBlocks := mem_liveBlocks.mpr ⟨b.offset, hc⟩
  have hpack := hm.packing.perm (spans_perm_of_split hsplit)
  have hne := hpack.start_ne (b := c.span)
    (List.mem_map_of_mem (List.mem_append_right _ hlive))
  exact hne (by simp [hm.keyed _ _ hc])

theorem liveBlocks_insert {m : RDMAManager} {offset : ℕ} {b : RdmaMem}
    (h : offset ∉ m.usedRdmaMem) :
    (m.usedRdmaMem.insert offset b).entries.map Sigma.snd = b :: m.liveBlocks := by
  rw [AList.entries_insert_of_notMem h]
  rfl

/-- After a successful allocation: the spans are the old ones with one block cut. -/
theorem spans_alloc_perm {m : RDMAManager} {size : ℕ} {pre post : List RdmaMem} {b : RdmaMem}
    (hfresh : b.offset ∉ m.usedRdmaMem) :
    (spans { m with
        rdmaMem := pre ++ remainder b size ++ post
        usedRdmaMem := m.usedRdmaMem.insert b.offset (.ofBlock size false b.offset) }).Perm
      ((RdmaMem.ofBlock size false b.offset).span ::
        ((remainder b size).map RdmaMem.span ++
          (pre ++ post ++ m.liveBlocks).map RdmaMem.span)) := by
  have hl : (pre ++ remainder b size ++ post ++
      RdmaMem.ofBlock size false b.offset :: m.liveBlocks).Perm
      (RdmaMem.ofBlock size false b.offset ::
        (remainder b size ++ (pre ++ post ++ m.liveBlocks))) := by
    refine List.perm_middle.trans (List.Perm.cons _ ?_)
    simp only [← List.append_assoc]
    exact ((List.perm_append_comm.append_right post).append_right m.liveBlocks)
  have hmap := hl.map RdmaMem.span
  rw [← liveBlocks_insert hfresh] at hmap
  simpa only [spans, liveBlocks, List.map_cons, List.map_append, List.append_assoc] using hmap

/-- Replacing what stands between free blocks only changes those spans. -/
theorem spans_free_perm {m : RDMAManager} {offset : ℕ} {b : RdmaMem}
    (h : m.usedRdmaMem.lookup offset = some b) :
    m.spans.Perm (b.span :: spans { m with usedRdmaMem := m.usedRdmaMem.erase offset }) := by
  have hl : (m.rdmaMem ++ m.liveBlocks).Perm
      (b :: (m.rdmaMem ++ (m.usedRdmaMem.erase offset).entries.map Sigma.snd)) :=
    ((liveBlocks_erase_perm h).append_left m.rdmaMem).trans List.perm_middle
  simpa only [spans, liveBlocks, List.map_cons] using hl.map RdmaMem.span

theorem freedBlock_eq {m : RDMAManager} {offset : ℕ} {b : RdmaMem}
    (h : m.usedRdmaMem.lookup offset = some b) : m.freedBlock offset = { b with free := true } := by
  simp [freedBlock, h]

/-- A relation between lists of blocks that keeps packings and the space covered. -/
structure Rearranges (l l' : List RdmaMem) : Prop where
  packing : ∀ {limit : ℕ} {rest : List Span}, Packing limit (l.map RdmaMem.span ++ rest) →
    Packing limit (l'.map RdmaMem.span ++ rest)
  total : totalLength (l'.map RdmaMem.span) = totalLength (l.map RdmaMem.span)
  allFree : (∀ b ∈ l, b.free = true) → ∀ b ∈ l', b.free = true

theorem Rearranges.refl (l : List RdmaMem) : Rearranges l l := ⟨id, rfl, id⟩

theorem Rearranges.trans {l₁ l₂ l₃ : List RdmaMem} (h₁ : Rearranges l₁ l₂)
    (h₂ : Rearranges l₂ l₃) : Rearranges l₁ l₃ :=
  ⟨fun h => h₂.packing (h₁.packing h), h₂.total.trans h₁.total, fun h => h₂.allFree (h₁.allFree h)⟩

theorem Rearranges.append_left (pre : List RdmaMem) {l l' : List RdmaMem} (h : Rearranges l l') :
    Rearranges (pre ++ l) (pre ++ l') where
  packing {limit rest} hp := by
    have hmove : Packing limit (l.map RdmaMem.span ++ (pre.map RdmaMem.span ++ rest)) := by
      refine hp.perm ?_
      simp only [List.map_append, ← List.append_assoc]
      exact List.perm_append_comm.append_right rest
    refine (h.packing hmove).perm ?_
    simp only [List.map_append, ← List.append_assoc]
    exact List.perm_append_comm.append_right rest
  total := by simp [h.total]
  allFree hall b hb := by
    rcases List.mem_append.mp hb with hb | hb
    · exact hall b (by simp [hb])
    · exact h.allFree (fun c hc => hall c (by simp [hc])) b hb

/-- Gluing two touching neighbours. -/
theorem rearranges_join {x y : RdmaMem} {post : List RdmaMem} (h : x.offset + x.size = y.offset) :
    Rearranges (x :: y :: post) ({ x with size := x.size + y.size } :: post) where
  packing {limit rest} hp := by
    have hjoin : Packing limit (⟨x.offset, x.size⟩ :: ⟨x.offset + x.size, y.size⟩ ::
        (post.map RdmaMem.span ++ rest)) := by
      rw [h]
      exact hp
    exact hjoin.join
  total := by simp; omega
  allFree hall b hb := by
    rcases List.mem_cons.mp hb with rfl | hb
    · exact hall x (by simp)
    · exact hall b (by simp [hb])

theorem rearranges_absorbNext (x : RdmaMem) (post : List RdmaMem) :
    Rearranges (x :: post) (absorbNext x post) := by
  cases post with
  | nil => exact Rearranges.refl _
  | cons n post =>
    by_cases h : x.offset + x.size = n.offset
    · simpa [absorbNext, h] using rearranges_join h
    · simpa [absorbNext, h] using Rearranges.refl (x :: n :: post)

/-- `mergeFreeMem` only glues touching neighbours, wherever the iterator stands. -/
theorem rearranges_mergeFreeMem (x : RdmaMem) (bs as : List RdmaMem) :
    Rearranges (bs.reverse ++ x :: as) (mergeFreeMem ⟨bs, x :: as⟩).toList := by
  rw [mergeFreeMem_toList]
  cases bs with
  | nil => simpa using rearranges_absorbNext x as
  | cons p ps =>
    by_cases h : p.offset + p.size = x.offset
    · have hglue : Rearranges (p :: x :: as) ({ p with size := x.size + p.size } :: as) := by
        rw [Nat.add_comm x.size]
        exact rearranges_join h
      simpa [h] using (hglue.trans (rearranges_absorbNext _ as)).append_left ps.reverse
    · simpa [h] using (rearranges_absorbNext x as).append_left (ps.reverse ++ [p])

theorem lookup_of_mem {m : RDMAManager} {offset : ℕ} (h : offset ∈ m.usedRdmaMem) :
    ∃ b, m.usedRdmaMem.lookup offset = some b :=
  Option.isSome_iff_exists.mp (AList.lookup_isSome.mpr h)

theorem keyed_insert {used : UsedMem} (h : ∀ o b, used.lookup o = some b → b.offset = o)
    {size offset : ℕ} : ∀ o b,
      (used.insert offset (.ofBlock size false offset)).lookup o = some b → b.offset = o := by
  intro o b hb
  by_cases ho : o = offset
  · subst ho
    rw [AList.lookup_insert] at hb
    cases hb
    rfl
  · rw [AList.lookup_insert_ne ho] at hb
    exact h o b hb

theorem keyed_erase {used : UsedMem} (h : ∀ o b, used.lookup o = some b → b.offset = o)
    {offset : ℕ} : ∀ o b, (used.erase offset).lookup o = some b → b.offset = o := by
  intro o b hb
  by_cases ho : o = offset
  · subst ho
    simp at hb
  · rw [AList.lookup_erase_ne ho] at hb
    exact h o b hb

theorem inv_alloc {m : RDMAManager} (hm : Inv m) {size : ℕ} (hpos : 0 < size) :
    Inv (m.internalAlloc size).1 := by
  rcases m.internalAlloc_cases size with h | ⟨pre, b, post, hsplit, hfree, hle, h⟩
  · rw [h]
    exact hm
  · rw [h]
    have hfront := hm.packing.perm (spans_perm_of_split hsplit)
    have hfresh : b.offset ∉ m.usedRdmaMem := fresh_key hm (by simp [hsplit])
    refine ⟨?_, ?_, keyed_insert hm.keyed⟩
    · exact (packing_take hpos hle hfront).perm (spans_alloc_perm hfresh).symm
    · intro c hc
      simp only [List.mem_append] at hc
      rcases hc with (hc | hc) | hc
      · exact hm.allFree c (by simp [hsplit, hc])
      · unfold remainder at hc
        split_ifs at hc
        · rw [List.mem_singleton.mp hc]
          rfl
        · cases hc
      · exact hm.allFree c (by simp [hsplit, hc])

/-- Putting the freed record back somewhere in the free list, merged or not. -/
theorem inv_putBack {m : RDMAManager} (hm : Inv m) {offset : ℕ} {b : RdmaMem}
    (hb : m.usedRdmaMem.lookup offset = some b) {pre post l : List RdmaMem}
    (hsplit : m.rdmaMem = pre ++ post)
    (hl : Rearranges (pre ++ { b with free := true } :: post) l) :
    Inv { m with rdmaMem := l, usedRdmaMem := m.usedRdmaMem.erase offset } := by
  refine ⟨?_, ?_, keyed_erase hm.keyed⟩
  · have hmove : (b.span :: spans { m with usedRdmaMem := m.usedRdmaMem.erase offset }).Perm
        ((pre ++ { b with free := true } :: post).map RdmaMem.span ++
          ((m.usedRdmaMem.erase offset).entries.map Sigma.snd).map RdmaMem.span) := by
      simp only [spans, liveBlocks, hsplit, List.map_append, List.map_cons, List.append_assoc,
        List.cons_append]
      exact List.perm_middle.symm
    have hp := hl.packing ((hm.packing.perm (spans_free_perm hb)).perm hmove)
    simpa only [spans, liveBlocks, List.map_append] using hp
  · refine hl.allFree fun c hc => ?_
    rcases List.mem_append.mp hc with hc | hc
    · exact hm.allFree c (by simp [hsplit, hc])
    · rcases List.mem_cons.mp hc with rfl | hc
      · rfl
      · exact hm.allFree c (by simp [hsplit, hc])

theorem inv_free {m : RDMAManager} (hm : Inv m) {offset : ℕ} (hlive : offset ∈ m.usedRdmaMem) :
    Inv (m.internalFree offset).1 := by
  obtain ⟨b, hb⟩ := lookup_of_mem hlive
  rcases m.internalFree_cases offset with ⟨hnil, h⟩ | ⟨-, -, h⟩ | ⟨pre, f, post, hsplit, -, -, h⟩
  · rw [h, freedBlock_eq hb]
    exact inv_putBack hm hb (show m.rdmaMem = [] ++ [] by simp [hnil]) (Rearranges.refl _)
  · -- the record is gone from the map and the free list is as before
    rw [h]
    exact ⟨(hm.packing.perm (spans_free_perm hb)).tail, hm.allFree, keyed_erase hm.keyed⟩
  · rw [h, freedBlock_eq hb]
    refine inv_putBack hm hb hsplit ?_
    simpa using rearranges_mergeFreeMem { b with free := true } pre.reverse (f :: post)

theorem inv_step {m m' : RDMAManager} {r : MemRequest} (hm : Inv m) (h : m.step r = some m') :
    Inv m' := by
  cases r with
  | alloc size =>
    simp only [step] at h
    split_ifs at h with hpos
    cases h
    exact inv_alloc hm hpos
  | free offset =>
    simp only [step] at h
    split_ifs at h with hlive
    cases h
    exact inv_free hm hlive

/-- What the allocator promises of every state. -/
structure Safe (m : RDMAManager) : Prop where
  apart : m.spans.Pairwise Span.Apart
  inside : ∀ a ∈ m.spans, a.Inside m.memSize
  sorted : m.rdmaMem.Pairwise fun a b => a.offset < b.offset
  unmerged : m.rdmaMem.Pairwise fun a b => a.offset + a.size ≠ b.offset

/-- Later free blocks start strictly after the end of earlier ones. -/
def Gap (a b : RdmaMem) : Prop := a.offset + a.size < b.offset

theorem Inv.apart_of_split {m : RDMAManager} (hm : Inv m) {offset : ℕ} {x : RdmaMem}
    (hx : m.usedRdmaMem.lookup offset = some x) {b : RdmaMem} (hb : b ∈ m.rdmaMem) :
    x.span.Apart b.span := by
  have hp := hm.packing.perm (spans_free_perm hx)
  refine (Packing.cons_iff.mp hp).2.2.1 b.span ?_
  exact List.mem_map_of_mem (List.mem_append_left _ hb)

theorem gaps_of_safe {m : RDMAManager} (hs : Safe m) : m.rdmaMem.Pairwise Gap := by
  have hfree : m.rdmaMem.Pairwise fun a b => a.span.Apart b.span := by
    have := hs.apart.sublist ((List.sublist_append_left m.rdmaMem m.liveBlocks).map RdmaMem.span)
    exact List.pairwise_map.mp this
  refine ((hfree.and hs.sorted).and hs.unmerged).imp ?_
  rintro a b ⟨⟨hap, hlt⟩, hne⟩
  simp only [Span.Apart, RdmaMem.span_start, RdmaMem.span_length] at hap
  unfold Gap
  omega

theorem safe_of_gaps {m : RDMAManager} (hm : Inv m) (h : m.rdmaMem.Pairwise Gap) : Safe m where
  apart := hm.packing.apart
  inside := hm.packing.inside
  sorted := h.imp fun hab => by unfold Gap at hab; omega
  unmerged := h.imp fun hab => by unfold Gap at hab; omega

theorem gaps_alloc {m : RDMAManager} {size : ℕ} (h : m.rdmaMem.Pairwise Gap) :
    (m.internalAlloc size).1.rdmaMem.Pairwise Gap := by
  rcases m.internalAlloc_cases size with hnull | ⟨pre, b, post, hsplit, -, hle, halloc⟩
  · rw [hnull]
    exact h
  · rw [halloc]
    rw [hsplit, List.pairwise_append, List.pairwise_cons] at h
    obtain ⟨hpre, ⟨hb, hpost⟩, hcross⟩ := h
    have hrem : ∀ c ∈ remainder b size,
        b.offset ≤ c.offset ∧ c.offset + c.size = b.offset + b.size := by
      intro c hc
      unfold remainder at hc
      split_ifs at hc with hlt
      · rw [List.mem_singleton.mp hc]
        simp only [RdmaMem.ofBlock]
        omega
      · cases hc
    have hone : (remainder b size).Pairwise Gap := by
      unfold remainder
      split_ifs <;> simp
    simp only [List.pairwise_append]
    refine ⟨⟨hpre, hone, fun a ha c hc => ?_⟩, hpost, fun a ha c hc => ?_⟩
    · have := hcross a ha b (by simp)
      have := hrem c hc
      unfold Gap at *
      omega
    · rcases List.mem_append.mp ha with ha | ha
      · exact hcross a ha c (by simp [hc])
      · have := hb c hc
        have := hrem a ha
        unfold Gap at *
        omega

theorem gaps_absorbNext {x : RdmaMem} {post : List RdmaMem} (hpost : post.Pairwise Gap)
    (hx : ∀ q ∈ post, x.offset + x.size ≤ q.offset) :
    (absorbNext x post).Pairwise Gap ∧ ∀ c ∈ absorbNext x post, x.offset ≤ c.offset := by
  cases post with
  | nil => simp [absorbNext]
  | cons n post =>
    obtain ⟨hn, hrest⟩ := List.pairwise_cons.mp hpost
    have hxn := hx n (by simp)
    by_cases h : x.offset + x.size = n.offset
    · simp only [absorbNext, h, if_true]
      constructor
      · refine List.pairwise_cons.mpr ⟨fun q hq => ?_, hrest⟩
        have := hn q hq
        unfold Gap at *
        simp only
        omega
      · intro c hc
        rcases List.mem_cons.mp hc with rfl | hc
        · exact le_rfl
        · have := hx c (by simp [hc])
          omega
    · simp only [absorbNext, h, if_false]
      constructor
      · refine List.pairwise_cons.mpr ⟨fun q hq => ?_, hpost⟩
        rcases List.mem_cons.mp hq with rfl | hq
        · unfold Gap
          omega
        · have := hn q hq
          unfold Gap at *
          omega
      · intro c hc
        rcases List.mem_cons.mp hc with rfl | hc
        · exact le_rfl
        · have := hx c hc
          omega

/-- An insertion between the blocks before and the blocks after the freed one keeps the gaps. -/
theorem gaps_mergeFreeMem {x : RdmaMem} {bs as : List RdmaMem}
    (h : (bs.reverse ++ as).Pairwise Gap) (hbs : ∀ p ∈ bs, p.offset + p.size ≤ x.offset)
    (has : ∀ q ∈ as, x.offset + x.size ≤ q.offset) :
    (mergeFreeMem ⟨bs, x :: as⟩).toList.Pairwise Gap := by
  rw [mergeFreeMem_toList]
  rw [List.pairwise_append] at h
  obtain ⟨hpre, hpost, -⟩ := h
  cases bs with
  | nil => exact (gaps_absorbNext hpost has).1
  | cons p ps =>
    rw [List.reverse_cons, List.pairwise_append] at hpre
    obtain ⟨hps, -, hp⟩ := hpre
    have hpx := hbs p (by simp)
    by_cases htouch : p.offset + p.size = x.offset
    · simp only [htouch, if_true]
      have hy := gaps_absorbNext (x := { p with size := x.size + p.size }) hpost
        (fun q hq => by have := has q hq; simp only; omega)
      refine List.pairwise_append.mpr ⟨hps, hy.1, fun a ha c hc => ?_⟩
      have hap := hp a ha p (by simp)
      have hpc := hy.2 c hc
      unfold Gap at *
      simp only at hpc
      omega
    · simp only [htouch, if_false]
      have hx := gaps_absorbNext hpost has
      refine List.pairwise_append.mpr ⟨hps, List.pairwise_cons.mpr ⟨fun c hc => ?_, hx.1⟩, ?_⟩
      · have := hx.2 c hc
        unfold Gap
        omega
      · intro a ha c hc
        have hap := hp a ha p (by simp)
        rcases List.mem_cons.mp hc with rfl | hc
        · exact hap
        · have := hx.2 c hc
          unfold Gap at *
          omega

theorem head_absorbNext (x : RdmaMem) (post : List RdmaMem) :
    ∃ y l, absorbNext x post = y :: l ∧ y.offset = x.offset := by
  cases post with
  | nil => exact ⟨x, [], rfl, rfl⟩
  | cons n post =>
    by_cases h : x.offset + x.size = n.offset
    · exact ⟨{ x with size := x.size + n.size }, post, by simp [absorbNext, h], rfl⟩
    · exact ⟨x, n :: post, by simp [absorbNext, h], rfl⟩

/-- An insertion behind a block that starts later leaves the list out of order. -/
theorem not_sorted_mergeFreeMem {x p : RdmaMem} (ps as : List RdmaMem)
    (h : x.offset < p.offset) :
    ¬ (mergeFreeMem ⟨p :: ps, x :: as⟩).toList.Pairwise fun a b => a.offset < b.offset := by
  intro hsorted
  rw [mergeFreeMem_toList] at hsorted
  have htouch : p.offset + p.size ≠ x.offset := by omega
  obtain ⟨y, l, hy, hyx⟩ := head_absorbNext x as
  simp only [htouch, if_false, hy] at hsorted
  have hpy := (List.pairwise_append.mp hsorted).2.1
  have := (List.pairwise_cons.mp hpy).1 y (by simp)
  omega

/-- The running bound lets the search stop at the first free block past the freed
offset, or nowhere. It fails only when the sum of the offsets passed wraps. -/
def BoundInOrder (m : RDMAManager) : MemRequest → Prop
  | .alloc _ => True
  | .free offset =>
    runningBound (m.rdmaMem.filter fun b => b.offset < offset) ≤ offset ∨
      ∀ pre f post, m.rdmaMem = pre ++ f :: post → offset < f.offset → offset < runningBound pre

theorem filter_below {pre post : List RdmaMem} {f : RdmaMem} {offset : ℕ}
    (hsorted : (pre ++ f :: post).Pairwise fun a b => a.offset < b.offset)
    (hpre : ∀ p ∈ pre, p.offset < offset) (hf : offset < f.offset) :
    (pre ++ f :: post).filter (fun b => b.offset < offset) = pre := by
  have hpost : ∀ q ∈ f :: post, ¬ q.offset < offset := by
    intro q hq
    rcases List.mem_cons.mp hq with rfl | hq
    · omega
    · have := (List.pairwise_cons.mp (List.pairwise_append.mp hsorted).2.1).1 q hq
      omega
  rw [List.filter_append, List.filter_eq_self.mpr (by simpa using hpre),
    List.filter_eq_nil_iff.mpr (by simpa using hpost), List.append_nil]

theorem below_or_first_above {m : RDMAManager} (hm : Inv m) {offset : ℕ} {x : RdmaMem}
    (hx : m.usedRdmaMem.lookup offset = some x) {pre post : List RdmaMem}
    (hsplit : m.rdmaMem = pre ++ post) :
    (∀ p ∈ pre, p.offset < offset) ∨
      ∃ low g rest, pre = low ++ g :: rest ∧ offset < g.offset ∧ ∀ p ∈ low, p.offset < offset := by
  cases hfind : pre.find? fun p => !decide (p.offset < offset) with
  | none => exact Or.inl (by simpa using hfind)
  | some g =>
    obtain ⟨hg, low, rest, hpre, hlow⟩ := List.find?_eq_some_iff_append.mp hfind
    refine Or.inr ⟨low, g, rest, hpre, ?_, by simpa using hlow⟩
    have hmem : g ∈ m.rdmaMem := by simp [hsplit, hpre]
    have hp := hm.packing.perm (spans_free_perm hx)
    have hne := hp.start_ne (b := g.span)
      (List.mem_map_of_mem (List.mem_append_left _ hmem))
    simp only [RdmaMem.span_start, hm.keyed _ _ hx] at hne
    simp only [Bool.not_eq_true', decide_eq_false_iff_not, not_lt] at hg
    omega

theorem safe_free_iff {m : RDMAManager} (hm : Inv m) (hs : Safe m) {offset : ℕ}
    (hlive : offset ∈ m.usedRdmaMem) :
    Safe (m.internalFree offset).1 ↔ m.BoundInOrder (.free offset) := by
  have hinv := inv_free hm hlive
  have hgaps := gaps_of_safe hs
  obtain ⟨x, hx⟩ := lookup_of_mem hlive
  have hkey := hm.keyed _ _ hx
  rcases m.internalFree_cases offset with
    ⟨hnil, h⟩ | ⟨-, hall, h⟩ | ⟨pre, f, post, hsplit, hadm, hfst, h⟩
  · refine iff_of_true (safe_of_gaps hinv (by simp [h])) (Or.inr ?_)
    intro pre f post hsplit
    simp [hnil] at hsplit
  · refine iff_of_true (safe_of_gaps hinv (by simpa [h] using hgaps)) (Or.inr ?_)
    intro pre f post hsplit hf
    by_contra hle
    exact hall pre f post hsplit ⟨by omega, hf⟩
  · rcases below_or_first_above hm hx hsplit with hbelow | ⟨low, g, rest, hpre, hg, hlow⟩
    · refine iff_of_true (safe_of_gaps hinv ?_) (Or.inl ?_)
      · rw [h, freedBlock_eq hx]
        refine gaps_mergeFreeMem (by simpa [← hsplit] using hgaps) ?_ ?_
        · intro p hp
          have hap := hm.apart_of_split hx (b := p) (by simp [hsplit, List.mem_reverse.mp hp])
          have := hbelow p (List.mem_reverse.mp hp)
          have hpos := hm.packing.pos x.span
            ((spans_free_perm hx).symm.mem_iff.mp (by simp))
          simp only [Span.Apart, RdmaMem.span_start, RdmaMem.span_length] at hap hpos ⊢
          omega
        · intro q hq
          have hap := hm.apart_of_split hx (b := q)
            (by rw [hsplit]; exact List.mem_append_right _ hq)
          have hqf : f.offset ≤ q.offset := by
            rcases List.mem_cons.mp hq with rfl | hq
            · exact le_rfl
            · have hsorted := hs.sorted
              rw [hsplit] at hsorted
              exact ((List.pairwise_cons.mp (List.pairwise_append.mp hsorted).2.1).1 q hq).le
          have hf := hadm.2
          simp only [Span.Apart, RdmaMem.span_start, RdmaMem.span_length] at hap ⊢
          omega
      · have hsorted := hs.sorted
        rw [hsplit] at hsorted
        rw [hsplit, filter_below hsorted hbelow hadm.2]
        exact hadm.1
    · -- the search passed `g`, which starts after the freed offset
      refine iff_of_false (fun hsafe => ?_) ?_
      · have hne : pre.reverse ≠ [] := by simp [hpre]
        obtain ⟨p, ps, hrev⟩ := List.exists_cons_of_ne_nil hne
        have hlast : pre = ps.reverse ++ [p] := by
          rw [← List.reverse_reverse pre, hrev, List.reverse_cons]
        have hp : offset < p.offset := by
          have hgmem : g ∈ ps.reverse ++ [p] := by rw [← hlast, hpre]; simp
          have hsorted := hs.sorted
          rw [hsplit, hlast, List.append_assoc] at hsorted
          rcases List.mem_append.mp hgmem with hgp | hgp
          · exact hg.trans ((List.pairwise_append.mp hsorted).2.2 g hgp p (by simp))
          · rwa [List.mem_singleton.mp hgp] at hg
        refine not_sorted_mergeFreeMem (x := { x with free := true }) (p := p) ps (f :: post)
          (by simpa [hkey] using hp) ?_
        have hsorted' := hsafe.sorted
        rw [h, freedBlock_eq hx, hrev] at hsorted'
        exact hsorted'
      · rintro (hle | hall)
        · have hsorted := hs.sorted
          have hwhole : m.rdmaMem = low ++ g :: (rest ++ f :: post) := by
            rw [hsplit, hpre, List.append_assoc, List.cons_append]
          rw [hwhole] at hsorted
          rw [hwhole, filter_below hsorted hlow hg] at hle
          exact hfst low g _ hwhole (by simp [hpre]) ⟨hle, hg⟩
        · have := hall pre f post hsplit hadm.2
          have := hadm.1
          omega

theorem safe_step_iff {m m' : RDMAManager} {r : MemRequest} (hm : Inv m) (hs : Safe m)
    (h : m.step r = some m') : Safe m' ↔ m.BoundInOrder r := by
  have hinv := inv_step hm h
  cases r with
  | alloc size =>
    simp only [step] at h
    split_ifs at h
    cases h
    exact iff_of_true (safe_of_gaps hinv (gaps_alloc (gaps_of_safe hs))) trivial
  | free offset =>
    simp only [step] at h
    split_ifs at h with hlive
    cases h
    exact safe_free_iff hm hs hlive

theorem safe_init (memSize : ℕ) : Safe (init memSize) where
  apart := by simp [spans_init]
  inside := by
    intro a ha
    rw [spans_init] at ha
    rw [List.mem_singleton.mp ha]
    simp [Span.Inside, init]
  sorted := by simp [init]
  unmerged := by simp [init]

/-- An allocation returns the null record or a block of the size asked for, which it
records as live. -/
def ReturnsRequested (m : RDMAManager) : MemRequest → Prop
  | .alloc size =>
    (m.internalAlloc size).2.isnull = true ∨
      (m.internalAlloc size).2.size = size ∧
        (m.internalAlloc size).1.usedRdmaMem.lookup (m.internalAlloc size).2.offset =
          some (m.internalAlloc size).2
  | .free _ => True

theorem returnsRequested (m : RDMAManager) (r : MemRequest) : m.ReturnsRequested r := by
  cases r with
  | alloc size =>
    unfold ReturnsRequested
    rcases m.internalAlloc_cases size with h | ⟨pre, b, post, -, -, -, h⟩
    · exact Or.inl (by rw [h]; rfl)
    · refine Or.inr ?_
      rw [h]
      exact ⟨rfl, AList.lookup_insert _⟩
  | free offset => trivial

/-- A manager without memory never changes. -/
theorem step_init_zero {m' : RDMAManager} {r : MemRequest} (h : (init 0).step r = some m') :
    m' = init 0 := by
  cases r with
  | alloc size =>
    simp only [step] at h
    split_ifs at h with hpos
    cases h
    have hfit : ¬ size ≤ 0 := by omega
    simp [internalAlloc, init, firstFit, RdmaMem.ofBlock, hfit]
  | free offset => simp [step, init] at h

/-- Blocks stay apart and inside the memory, allocations return what was asked for, and
the free list stays sorted and merged: in a run, exactly when each free meets
`BoundInOrder`. -/
theorem throughout_safe_iff (memSize : ℕ) (requests : List MemRequest) :
    Throughout step Safe (init memSize) requests ∧
        EachStep step ReturnsRequested (init memSize) requests ↔
      EachStep step BoundInOrder (init memSize) requests := by
  have hret : EachStep step ReturnsRequested (init memSize) requests :=
    fun _ r m _ _ _ _ => returnsRequested m r
  rw [and_iff_left hret]
  rcases Nat.eq_zero_or_pos memSize with rfl | hpos
  · refine throughout_iff_eachStep (I := fun m => m = init 0) ?_ ?_ requests (init 0) rfl
      (safe_init 0)
    · rintro _ r m' rfl h
      exact step_init_zero h
    · rintro _ r m' rfl hs h
      rw [step_init_zero h]
      refine iff_of_true hs ?_
      cases r with
      | alloc size => trivial
      | free offset => simp [step, init] at h
  · exact throughout_iff_eachStep (fun _ _ _ hm h => inv_step hm h)
      (fun _ _ _ hm hs h => safe_step_iff hm hs h) requests _ (inv_init hpos) (safe_init memSize)

theorem internalAlloc_of_tail {m : RDMAManager} {size rest offset : ℕ} (hsize : size < rest)
    (h : m.rdmaMem = [.ofBlock rest true offset]) :
    (m.internalAlloc size).1 =
      { m with
        rdmaMem := [.ofBlock (rest - size) true (offset + size)]
        usedRdmaMem := m.usedRdmaMem.insert offset (.ofBlock size false offset) } := by
  simp [internalAlloc, firstFit, h, RdmaMem.ofBlock, hsize, hsize.le, Cursor.start]

/-- A block freed below every free block, and touching none of them, becomes the first. -/
theorem internalFree_front {m : RDMAManager} {offset : ℕ} {b f : RdmaMem} {post : List RdmaMem}
    (h : m.rdmaMem = f :: post) (hb : m.usedRdmaMem.lookup offset = some b)
    (hf : offset < f.offset) (hgap : b.offset + b.size ≠ f.offset) :
    (m.internalFree offset).1 =
      { m with
        rdmaMem := { b with free := true } :: f :: post
        usedRdmaMem := m.usedRdmaMem.erase offset } := by
  have hmerge := mergeFreeMem_toList { b with free := true } [] (f :: post)
  simp only [absorbNext, hgap, if_false] at hmerge
  simp [internalFree, h, hb, findFreePos, hf, Cursor.start, Cursor.insert, Cursor.prev, hmerge]

/-- Live blocks of one byte lie one behind the other from `base` on, up to the free tail. -/
structure Filled (limit base count : ℕ) (m : RDMAManager) : Prop where
  tail : m.rdmaMem = [.ofBlock (limit - (base + count)) true (base + count)]
  live : ∀ i < count, m.usedRdmaMem.lookup (base + i) = some (.ofBlock 1 false (base + i))

theorem Filled.alloc {limit base count : ℕ} {m : RDMAManager} (h : Filled limit base count m)
    (hroom : base + count + 1 < limit) :
    Filled limit base (count + 1) (m.internalAlloc 1).1 := by
  rw [internalAlloc_of_tail (by omega) h.tail]
  constructor
  · simp only [← Nat.add_assoc, Nat.sub_sub]
  · intro i hi
    by_cases hlast : i = count
    · subst hlast
      exact AList.lookup_insert _
    · have hne : base + i ≠ base + count := by omega
      rw [AList.lookup_insert_ne hne]
      exact h.live i (by omega)

theorem Filled.run {limit base : ℕ} (k : ℕ) : ∀ {count : ℕ} {m : RDMAManager},
    Filled limit base count m → base + count + k < limit →
      ∃ m', exec step m (List.replicate k (.alloc 1)) = some m' ∧
        Filled limit base (count + k) m' := by
  induction k with
  | zero => exact fun {_ m} h _ => ⟨m, rfl, h⟩
  | succ k ih =>
    intro count m h hroom
    obtain ⟨m', hrun, hfilled⟩ := ih (h.alloc (by omega)) (by omega)
    refine ⟨m', ?_, by rwa [Nat.add_right_comm] at hfilled⟩
    simpa [List.replicate_succ, step] using hrun

/-- Of `2 * count` one-byte blocks from `base` on every other one is free again, those from
the pair number `start` on. -/
structure Holed (base count start : ℕ) (m : RDMAManager) : Prop where
  holes : ∃ tail, tail.offset = base + 2 * count ∧ m.rdmaMem =
    (List.range' start (count - start)).map (fun i => .ofBlock 1 true (base + 2 * i)) ++ [tail]
  live : ∀ i < 2 * count, i % 2 = 1 ∨ i < 2 * start →
    m.usedRdmaMem.lookup (base + i) = some (.ofBlock 1 false (base + i))

theorem Filled.holed {limit base count : ℕ} {m : RDMAManager}
    (h : Filled limit base (2 * count) m) : Holed base count count m where
  holes := ⟨_, rfl, by simpa using h.tail⟩
  live i hi _ := h.live i hi

/-- The first free block of a `Holed` state starts behind the pairs not freed yet. -/
theorem Holed.first {base count start : ℕ} {m : RDMAManager} (h : Holed base count start m)
    (hle : start ≤ count) : ∃ f post, m.rdmaMem = f :: post ∧ f.offset = base + 2 * start := by
  obtain ⟨tail, htail, hmem⟩ := h.holes
  rcases hle.eq_or_lt with rfl | hlt
  · exact ⟨tail, [], by simpa using hmem, htail⟩
  · rw [show count - start = count - (start + 1) + 1 by omega, List.range'_succ] at hmem
    exact ⟨_, _, hmem, rfl⟩

theorem Holed.free {base count start : ℕ} {m : RDMAManager} (h : Holed base count (start + 1) m)
    (hlt : start < count) : Holed base count start (m.internalFree (base + 2 * start)).1 := by
  obtain ⟨f, post, hmem, hf⟩ := h.first (by omega)
  have hlook := h.live (2 * start) (by omega) (Or.inr (by omega))
  have hgap : base + 2 * start + 1 ≠ f.offset := by omega
  rw [internalFree_front hmem hlook (by omega) hgap]
  constructor
  · obtain ⟨tail, htail, hholes⟩ := h.holes
    refine ⟨tail, htail, ?_⟩
    rw [show count - start = count - (start + 1) + 1 by omega, List.range'_succ]
    simp [← hmem, hholes, RdmaMem.ofBlock]
  · intro i hi hodd
    have hne : base + i ≠ base + 2 * start := by omega
    rw [AList.lookup_erase_ne hne]
    exact h.live i hi (by omega)

theorem Holed.run {base count : ℕ} (start : ℕ) : ∀ {m : RDMAManager},
    Holed base count start m → start ≤ count →
      ∃ m', exec step m ((List.range start).reverse.map fun i => .free (base + 2 * i)) = some m' ∧
        Holed base count 0 m' := by
  induction start with
  | zero => exact fun {m} h _ => ⟨m, rfl, h⟩
  | succ start ih =>
    intro m h hle
    obtain ⟨m', hrun, hholed⟩ := ih (h.free (by omega)) (by omega)
    have hlive : base + 2 * start ∈ m.usedRdmaMem :=
      AList.lookup_isSome.mp (by simp [h.live (2 * start) (by omega) (Or.inr (by omega))])
    exact ⟨m', by simpa [List.range_succ, step, hlive] using hrun, hholed⟩

theorem sum_holes (base count : ℕ) :
    ((List.range count).map fun i => base + 2 * i).sum + count = count * (base + count) := by
  induction count with
  | zero => simp
  | succ count ih =>
    rw [List.range_succ, List.map_append, List.sum_append]
    simp only [List.map_cons, List.map_nil, List.sum_cons, List.sum_nil]
    linarith [ih, show (count + 1) * (base + (count + 1)) =
      count * (base + count) + (base + 2 * count + 1) by ring]

/-- When the offsets of the holes add up to `2 ^ 64`, the search for the place of a block
between them passes them all and stops at the tail. -/
theorem Holed.not_boundInOrder {base count : ℕ} {m : RDMAManager} (h : Holed base count 0 m)
    (hcount : 2 ≤ count) (hbase : 1 < base ∧ 2 * base + 2 < sizeTBound)
    (hsum : count * (base + count) = sizeTBound + count) :
    ¬ m.BoundInOrder (.free (base + 3)) := by
  obtain ⟨tail, htail, hmem⟩ := h.holes
  rw [Nat.sub_zero] at hmem
  rintro (hle | hall)
  · -- below the freed offset lie the first two holes
    obtain ⟨k, rfl⟩ := Nat.exists_eq_add_of_le' hcount
    have hrest : ∀ b ∈ (List.range' 2 k).map (fun i => RdmaMem.ofBlock 1 true (base + 2 * i)) ++
        [tail], ¬ b.offset < base + 3 := by
      intro b hb
      rcases List.mem_append.mp hb with hb | hb
      · obtain ⟨i, hi, rfl⟩ := List.mem_map.mp hb
        have := (List.mem_range'_1.mp hi).1
        simp only [RdmaMem.ofBlock]
        omega
      · rw [List.mem_singleton.mp hb]
        omega
    have hbelow : m.rdmaMem.filter (fun b => b.offset < base + 3) =
        [.ofBlock 1 true base, .ofBlock 1 true (base + 2)] := by
      rw [hmem, List.range'_succ, List.range'_succ, List.map_cons, List.map_cons, List.cons_append,
        List.cons_append, List.filter_cons_of_pos (by simp [RdmaMem.ofBlock]),
        List.filter_cons_of_pos (by simp [RdmaMem.ofBlock]),
        List.filter_eq_nil_iff.mpr (by simpa using hrest), Nat.mul_zero, Nat.add_zero]
    rw [hbelow] at hle
    simp only [runningBound, RdmaMem.ofBlock, List.map_cons, List.map_nil, List.sum_cons,
      List.sum_nil] at hle
    rw [Nat.mod_eq_of_lt (by omega)] at hle
    omega
  · have hbound := hall _ tail [] hmem (by omega)
    have hzero := sum_holes base count
    rw [hsum, Nat.add_right_cancel_iff] at hzero
    rw [runningBound, List.map_map, ← List.range_eq_range'] at hbound
    have hwrap : ((List.range count).map
        (RdmaMem.offset ∘ fun i => RdmaMem.ofBlock 1 true (base + 2 * i))).sum = sizeTBound := hzero
    rw [hwrap, Nat.mod_self] at hbound
    omega

/-- A large block, `2 * count` blocks of one byte, every other one of them freed again from
the back to the front, and last a free between two of the holes. -/
def wrapRequests (base count : ℕ) : List MemRequest :=
  .alloc base :: (List.replicate (2 * count) (.alloc 1) ++
    (((List.range count).reverse.map fun i => .free (base + 2 * i)) ++ [.free (base + 3)]))

theorem holed_wrapRequests {limit base count : ℕ} (hbase : 0 < base)
    (hroom : base + 2 * count < limit) :
    ∃ m, exec step (init limit) (.alloc base :: (List.replicate (2 * count) (.alloc 1) ++
      ((List.range count).reverse.map fun i => .free (base + 2 * i)))) = some m ∧
        Holed base count 0 m := by
  have hfirst : Filled limit base 0 ((init limit).internalAlloc base).1 := by
    rw [internalAlloc_of_tail (by omega) rfl]
    exact ⟨by simp, by simp⟩
  obtain ⟨m₁, hrun₁, hfilled⟩ := hfirst.run (2 * count) (by omega)
  rw [Nat.zero_add] at hfilled
  obtain ⟨m₂, hrun₂, hholed⟩ := hfilled.holed.run count le_rfl
  refine ⟨m₂, ?_, hholed⟩
  rw [exec_cons, step, if_pos hbase, Option.bind_some, exec_append, hrun₁, Option.bind_some, hrun₂]

/-- Once the offsets of the holes add up to `2 ^ 64`, a block freed between two of them is
put behind them all. -/
theorem not_safe_wrapRequests {limit base count : ℕ} (hroom : base + 2 * count < limit)
    (hcount : 2 ≤ count) (hbase : 1 < base ∧ 2 * base + 2 < sizeTBound)
    (hsum : count * (base + count) = sizeTBound + count) :
    ¬ Throughout step Safe (init limit) (wrapRequests base count) := by
  intro hsafe
  obtain ⟨m, hrun, hholed⟩ := holed_wrapRequests (by omega) hroom
  have hassoc : wrapRequests base count = (.alloc base :: (List.replicate (2 * count) (.alloc 1) ++
      ((List.range count).reverse.map fun i => .free (base + 2 * i)))) ++ [.free (base + 3)] := by
    simp [wrapRequests]
  have hlook := hholed.live 3 (by omega) (Or.inl rfl)
  have hlive : base + 3 ∈ m.usedRdmaMem := AList.lookup_isSome.mp (by simp [hlook])
  have hlast : exec step (init limit) (wrapRequests base count) =
      some (m.internalFree (base + 3)).1 := by
    rw [hassoc, exec_concat, hrun]
    simp [step, hlive]
  have hinv : Inv m := invariant_exec (fun _ _ _ hm h => inv_step hm h) _ _ _
    (inv_init (by omega)) hrun
  have hpre : Safe m := hsafe _ m (hassoc ▸ List.prefix_append _ _) hrun
  have hpost : Safe (m.internalFree (base + 3)).1 := hsafe _ _ (List.prefix_refl _) hlast
  exact hholed.not_boundInOrder hcount hbase hsum ((safe_free_iff hinv hpre hlive).mp hpost)

/-- A terabyte of memory, its first half taken but for `2 ^ 25 - 1` bytes. -/
theorem unsorted_after_wrap : ¬ Throughout step Safe (init (2 ^ 40))
    (wrapRequests (2 ^ 39 - 2 ^ 25 + 1) (2 ^ 25)) :=
  not_safe_wrapRequests (by norm_num) (by norm_num) (by norm_num [sizeTBound])
    (by norm_num [sizeTBound])

end RDMAManager
end DpiLibrary
