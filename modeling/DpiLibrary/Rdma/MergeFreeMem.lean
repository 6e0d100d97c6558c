import DpiLibrary.Rdma.AllocatorCoverage

/-!
# Merging of free blocks

`mergeFreeMem` looks at the neighbours of one element. In a free list whose other
elements leave a gap between them this merges everything that can be merged: with
a predecessor or a successor that touches, with both, or with none, at either end
of the list and inside it.
-/

namespace DpiLibrary
namespace RDMAManager

/-- A block starts with the byte after the last one of another block. -/
def Touches (a b : RdmaMem) : Prop := a.offset + a.size = b.offset ∨ b.offset + b.size = a.offset

/-- Non-empty blocks by ascending offset, no byte in two of them. -/
structure FreeList (l : List RdmaMem) : Prop where
  pos : ∀ b ∈ l, 0 < b.size
  sorted : l.Pairwise fun a b => a.offset < b.offset
  disjoint : l.Pairwise fun a b => ∀ x, a.span.Contains x → ¬ b.span.Contains x

/-- Each block ends before the ones behind it start. -/
theorem FreeList.ends_le {l : List RdmaMem} (h : FreeList l) :
    l.Pairwise fun a b => a.offset + a.size ≤ b.offset := by
  have hboth := h.sorted.and h.disjoint
  refine hboth.imp_of_mem ?_
  rintro a b ha hb ⟨hlt, hdisjoint⟩
  have hapart : a.span.Apart b.span := Span.apart_of_disjoint (h.pos a ha) (h.pos b hb) hdisjoint
  simp only [Span.Apart, RdmaMem.span_start, RdmaMem.span_length] at hapart
  omega

/-- Non-empty blocks, each ending before the ones behind it start, form a free list. -/
theorem freeList_of_ends_le {l : List RdmaMem} (hpos : ∀ b ∈ l, 0 < b.size)
    (hends : l.Pairwise fun a b => a.offset + a.size ≤ b.offset) : FreeList l where
  pos := hpos
  sorted := by
    refine hends.imp_of_mem fun {a b} ha _ hle => ?_
    have hpa := hpos a ha
    omega
  disjoint := by
    refine hends.imp fun hle x hx => ?_
    simp only [Span.Contains, RdmaMem.span_start, RdmaMem.span_length] at hx ⊢
    omega

/-- Blocks with a gap between them do not touch. -/
theorem not_touches_of_gaps {l : List RdmaMem} (hgaps : l.Pairwise Gap) :
    l.Pairwise fun a b => ¬ Touches a b := by
  apply hgaps.imp
  intro a b hgap
  unfold Gap at hgap
  unfold Touches
  omega

/-- In a free list, blocks that do not touch leave a gap. -/
theorem gaps_of_freeList {l : List RdmaMem}
    (hends : l.Pairwise fun a b => a.offset + a.size ≤ b.offset)
    (hmerged : l.Pairwise fun a b => ¬ Touches a b) : l.Pairwise Gap := by
  refine (hends.and hmerged).imp ?_
  rintro a b ⟨hle, htouch⟩
  unfold Touches at htouch
  unfold Gap
  omega

/-- Where no two of the other elements touch, merging at the iterator leaves a free list
in which none touch, with the same bytes. -/
theorem mergeFreeMem_exact (iter : Cursor RdmaMem) (helement : iter.after ≠ [])
    (hlist : FreeList iter.toList)
    (hothers : iter.erase.toList.Pairwise fun a b => ¬ Touches a b) :
    FreeList (mergeFreeMem iter).toList ∧
      (mergeFreeMem iter).toList.Pairwise (fun a b => ¬ Touches a b) ∧
      ∀ x, (∃ b ∈ (mergeFreeMem iter).toList, b.span.Contains x) ↔
        ∃ b ∈ iter.toList, b.span.Contains x := by
  obtain ⟨bs, as⟩ := iter
  obtain ⟨el, as, rfl⟩ := List.exists_cons_of_ne_nil helement
  rw [Cursor.erase_cons, Cursor.toList_mk] at hothers
  rw [Cursor.toList_mk] at hlist
  have hends := hlist.ends_le
  have hsub : (bs.reverse ++ as).Sublist (bs.reverse ++ el :: as) :=
    (List.sublist_cons_self el as).append_left bs.reverse
  have hgaps : (bs.reverse ++ as).Pairwise Gap := gaps_of_freeList (hends.sublist hsub) hothers
  obtain ⟨-, hafter, hbefore⟩ := List.pairwise_append.mp hends
  have hmerged : (mergeFreeMem ⟨bs, el :: as⟩).toList.Pairwise Gap := by
    apply gaps_mergeFreeMem hgaps
    · intro p hp
      exact hbefore p (List.mem_reverse.mpr hp) el List.mem_cons_self
    · exact (List.pairwise_cons.mp hafter).1
  have hpos : ∀ b ∈ (mergeFreeMem ⟨bs, el :: as⟩).toList, 0 < b.size := by
    refine forall_mergeFreeMem ?_ hlist.pos
    intro a b _ ha _
    exact Nat.add_pos_left ha _
  refine ⟨freeList_of_ends_le hpos (hmerged.imp fun hgap => Nat.le_of_lt hgap),
    not_touches_of_gaps hmerged, fun x => ?_⟩
  rw [exists_contains_iff, exists_contains_iff, cover_mergeFreeMem, Cursor.toList_mk]

/-- Both neighbours touch, in the middle of a list of five. -/
theorem mergeFreeMem_exact_between :
    FreeList (mergeFreeMem ⟨[.ofBlock 4 true 10, .ofBlock 3 true 0],
      [.ofBlock 2 true 14, .ofBlock 5 true 16, .ofBlock 1 true 30]⟩).toList := by
  refine (mergeFreeMem_exact _ (by simp) (freeList_of_ends_le ?_ ?_) ?_).1
  · simp [RdmaMem.ofBlock]
  · simp [RdmaMem.ofBlock]
  · simp [RdmaMem.ofBlock, Cursor.erase, Touches]

end RDMAManager
end DpiLibrary
