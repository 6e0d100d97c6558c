import Mathlib.Tactic
import DpiLibrary.Rdma.Manager

/-!
# What the allocator operations do

One specification lemma for each function of the manager's memory management.
Later modules use these and never unfold the functions again.
-/

namespace DpiLibrary
namespace RDMAManager

/-- What first fit leaves of a block after `size` bytes have been taken from its front. -/
def remainder (b : RdmaMem) (size : ℕ) : List RdmaMem :=
  if size < b.size then [.ofBlock (b.size - size) true (b.offset + size)] else []

theorem firstFit_spec (size : ℕ) :
    ∀ (l bs : List RdmaMem) (b : RdmaMem) (l' : List RdmaMem),
      firstFit size ⟨bs, l⟩ l = some (b, l') →
      ∃ pre post, l = pre ++ b :: post ∧ b.free = true ∧ size ≤ b.size ∧
        l' = bs.reverse ++ (pre ++ remainder b size ++ post) := by
  intro l
  induction l with
  | nil => intro bs b l' h; simp [firstFit] at h
  | cons memRes rest ih =>
    intro bs b l' h
    by_cases hfit : (memRes.free && decide (size ≤ memRes.size)) = true
    · simp only [firstFit, hfit, if_true, Option.some.injEq, Prod.mk.injEq] at h
      obtain ⟨rfl, rfl⟩ := h
      simp only [Bool.and_eq_true, decide_eq_true_eq] at hfit
      refine ⟨[], rest, rfl, hfit.1, hfit.2, ?_⟩
      by_cases hlt : size < memRes.size <;> simp [remainder, hlt]
    · rw [firstFit, if_neg hfit] at h
      obtain ⟨pre, post, hrest, hfree, hle, hl'⟩ := ih (memRes :: bs) b l' h
      exact ⟨memRes :: pre, post, by simp [hrest], hfree, hle, by simp [hl']⟩

/-- An allocation either finds no block and changes nothing, or takes the front
of one free block and records it as live. -/
theorem internalAlloc_cases (m : RDMAManager) (size : ℕ) :
    m.internalAlloc size = (m, .null) ∨
      ∃ pre b post, m.rdmaMem = pre ++ b :: post ∧ b.free = true ∧ size ≤ b.size ∧
        m.internalAlloc size =
          ({ m with
              rdmaMem := pre ++ remainder b size ++ post
              usedRdmaMem := m.usedRdmaMem.insert b.offset (.ofBlock size false b.offset) },
            .ofBlock size false b.offset) := by
  unfold internalAlloc
  cases h : firstFit size (.start m.rdmaMem) m.rdmaMem with
  | none => exact Or.inl rfl
  | some found =>
    obtain ⟨b, l'⟩ := found
    obtain ⟨pre, post, hl, hfree, hle, hl'⟩ := firstFit_spec size m.rdmaMem [] b l' h
    exact Or.inr ⟨pre, b, post, hl, hfree, hle, by simp [hl']⟩

/-- The block `x` in front of `post`, joined to the first block of `post` if the two touch. -/
def absorbNext (x : RdmaMem) : List RdmaMem → List RdmaMem
  | [] => [x]
  | n :: post =>
    if x.offset + x.size = n.offset then { x with size := x.size + n.size } :: post
    else x :: n :: post

theorem mergeNext_toList (y : RdmaMem) (bs as : List RdmaMem) (offset size : ℕ)
    (hend : y.offset + y.size = offset + size) :
    (mergeNext ⟨bs, y :: as⟩ offset size y.size).toList = bs.reverse ++ absorbNext y as := by
  cases as with
  | nil => simp [mergeNext, absorbNext]
  | cons n as =>
    by_cases h : offset + size = n.offset
    · simp [mergeNext, absorbNext, hend, h]
    · simp [mergeNext, absorbNext, hend, h]

/-- `mergeFreeMem` on the block `x`: absorbed by a predecessor that touches it, and
absorbing a successor that touches it. -/
theorem mergeFreeMem_toList (x : RdmaMem) (bs as : List RdmaMem) :
    (mergeFreeMem ⟨bs, x :: as⟩).toList =
      match bs with
      | [] => absorbNext x as
      | p :: ps =>
        if p.offset + p.size = x.offset then
          ps.reverse ++ absorbNext { p with size := x.size + p.size } as
        else ps.reverse ++ p :: absorbNext x as := by
  cases bs with
  | nil =>
    have h := mergeNext_toList x [] as x.offset x.size rfl
    simpa [mergeFreeMem, mergePrev] using h
  | cons p ps =>
    by_cases htouch : p.offset + p.size = x.offset
    · have h := mergeNext_toList { p with size := x.size + p.size } ps as x.offset x.size
        (by simp only; omega)
      simpa [mergeFreeMem, mergePrev, htouch] using h
    · have h := mergeNext_toList x (p :: ps) as x.offset x.size rfl
      simpa [mergeFreeMem, mergePrev, htouch] using h

/-- What gluing two touching blocks keeps, absorbing the next block keeps. -/
theorem forall_absorbNext {P : RdmaMem → Prop} {x : RdmaMem} {post : List RdmaMem}
    (hjoin : ∀ a b, a.offset + a.size = b.offset → P a → P b → P { a with size := a.size + b.size })
    (h : ∀ b ∈ x :: post, P b) : ∀ b ∈ absorbNext x post, P b := by
  cases post with
  | nil => exact h
  | cons n post =>
    by_cases htouch : x.offset + x.size = n.offset
    · obtain ⟨hx, hn, hpost⟩ := List.forall_mem_cons.mp h |>.imp_right List.forall_mem_cons.mp
      simp only [absorbNext, htouch, if_true]
      exact List.forall_mem_cons.mpr ⟨hjoin x n htouch hx hn, hpost⟩
    · simpa only [absorbNext, htouch, if_false] using h

/-- What gluing two touching blocks keeps, `mergeFreeMem` keeps. -/
theorem forall_mergeFreeMem {P : RdmaMem → Prop} {x : RdmaMem} {bs as : List RdmaMem}
    (hjoin : ∀ a b, a.offset + a.size = b.offset → P a → P b → P { a with size := a.size + b.size })
    (h : ∀ b ∈ bs.reverse ++ x :: as, P b) : ∀ b ∈ (mergeFreeMem ⟨bs, x :: as⟩).toList, P b := by
  rw [mergeFreeMem_toList]
  obtain ⟨hbs, hxas⟩ := List.forall_mem_append.mp h
  cases bs with
  | nil => exact forall_absorbNext hjoin hxas
  | cons p ps =>
    have hp : P p := hbs p (by simp)
    have hps : ∀ b ∈ ps.reverse, P b := fun b hb => hbs b (by simp [List.mem_reverse.mp hb])
    obtain ⟨hx, has⟩ := List.forall_mem_cons.mp hxas
    by_cases htouch : p.offset + p.size = x.offset
    · simp only [htouch, if_true]
      have hy := hjoin p x htouch hp hx
      rw [Nat.add_comm] at hy
      exact List.forall_mem_append.mpr
        ⟨hps, forall_absorbNext hjoin (List.forall_mem_cons.mpr ⟨hy, has⟩)⟩
    · simp only [htouch, if_false]
      exact List.forall_mem_append.mpr
        ⟨hps, List.forall_mem_cons.mpr ⟨hp, forall_absorbNext hjoin hxas⟩⟩

/-- The sum of the offsets passed, as `lastOffset` accumulates it. -/
def runningBound (passed : List RdmaMem) : ℕ := (passed.map RdmaMem.offset).sum % sizeTBound

/-- The free block at which the search of `internalFree` may stop. -/
def Admits (offset : ℕ) (pre : List RdmaMem) (f : RdmaMem) : Prop :=
  runningBound pre ≤ offset ∧ offset < f.offset

theorem runningBound_concat (pre : List RdmaMem) (b : RdmaMem) :
    (runningBound pre + b.offset) % sizeTBound = runningBound (pre ++ [b]) := by
  simp [runningBound]

theorem findFreePos_aux (offset : ℕ) :
    ∀ l pre, findFreePos offset (runningBound pre) ⟨pre.reverse, l⟩ l = none ∧
        (∀ mid f post, l = mid ++ f :: post → ¬ Admits offset (pre ++ mid) f) ∨
      ∃ mid f post, l = mid ++ f :: post ∧ Admits offset (pre ++ mid) f ∧
        findFreePos offset (runningBound pre) ⟨pre.reverse, l⟩ l =
          some ⟨(pre ++ mid).reverse, f :: post⟩ ∧
        ∀ mid' f' post', l = mid' ++ f' :: post' → mid'.length < mid.length →
          ¬ Admits offset (pre ++ mid') f' := by
  intro l
  induction l with
  | nil =>
    intro pre
    exact Or.inl ⟨rfl, by simp⟩
  | cons memRes rest ih =>
    intro pre
    by_cases hstop : runningBound pre ≤ offset ∧ offset < memRes.offset
    · refine Or.inr ⟨[], memRes, rest, rfl, by simpa [Admits] using hstop, ?_, by simp⟩
      simp [findFreePos, hstop]
    · have hgo : findFreePos offset (runningBound pre) ⟨pre.reverse, memRes :: rest⟩
          (memRes :: rest) = findFreePos offset (runningBound (pre ++ [memRes]))
            ⟨(pre ++ [memRes]).reverse, rest⟩ rest := by
        rw [findFreePos, if_neg hstop, runningBound_concat]
        simp
      rcases ih (pre ++ [memRes]) with ⟨hnone, hall⟩ | ⟨mid, f, post, hl, hadm, hfind, hleast⟩
      · refine Or.inl ⟨hgo.trans hnone, fun mid f post hl => ?_⟩
        cases mid with
        | nil =>
          obtain ⟨rfl, rfl⟩ := List.cons.inj hl
          simpa [Admits] using hstop
        | cons b mid =>
          obtain ⟨rfl, hrest⟩ := List.cons.inj hl
          simpa using hall mid f post hrest
      · refine Or.inr ⟨memRes :: mid, f, post, by simp [hl], by simpa using hadm, ?_, ?_⟩
        · rw [hgo, hfind]
          simp
        · intro mid' f' post' hl' hlt
          cases mid' with
          | nil =>
            obtain ⟨rfl, rfl⟩ := List.cons.inj hl'
            simpa [Admits] using hstop
          | cons b mid' =>
            obtain ⟨rfl, hrest⟩ := List.cons.inj hl'
            simpa using hleast mid' f' post' hrest (by simpa using hlt)

/-- The search stops at the first free block that is admitted, if any is. -/
theorem findFreePos_spec (offset : ℕ) (l : List RdmaMem) :
    findFreePos offset 0 (.start l) l = none ∧
        (∀ pre f post, l = pre ++ f :: post → ¬ Admits offset pre f) ∨
      ∃ pre f post, l = pre ++ f :: post ∧ Admits offset pre f ∧
        findFreePos offset 0 (.start l) l = some ⟨pre.reverse, f :: post⟩ ∧
        ∀ pre' f' post', l = pre' ++ f' :: post' → pre'.length < pre.length →
          ¬ Admits offset pre' f' := by
  simpa [runningBound, Cursor.start] using findFreePos_aux offset l []

/-- The record `internalFree` puts back. -/
def freedBlock (m : RDMAManager) (offset : ℕ) : RdmaMem :=
  { (m.usedRdmaMem.lookup offset).getD .null with free := true }

/-- A free into an empty list, a free whose search fails and loses the block, or
an insertion in front of the block the search stops at. -/
theorem internalFree_cases (m : RDMAManager) (offset : ℕ) :
    (m.rdmaMem = [] ∧ m.internalFree offset =
        ({ m with
            rdmaMem := [m.freedBlock offset]
            usedRdmaMem := m.usedRdmaMem.erase offset }, true)) ∨
      (m.rdmaMem ≠ [] ∧ (∀ pre f post, m.rdmaMem = pre ++ f :: post → ¬ Admits offset pre f) ∧
        m.internalFree offset =
          ({ m with usedRdmaMem := m.usedRdmaMem.erase offset }, false)) ∨
      ∃ pre f post, m.rdmaMem = pre ++ f :: post ∧ Admits offset pre f ∧
        (∀ pre' f' post', m.rdmaMem = pre' ++ f' :: post' → pre'.length < pre.length →
          ¬ Admits offset pre' f') ∧
        m.internalFree offset =
          ({ m with
              rdmaMem := (mergeFreeMem ⟨pre.reverse, m.freedBlock offset :: f :: post⟩).toList
              usedRdmaMem := m.usedRdmaMem.erase offset }, true) := by
  by_cases hnil : m.rdmaMem = []
  · exact Or.inl ⟨hnil, by simp [internalFree, freedBlock, hnil]⟩
  · refine Or.inr ?_
    rcases findFreePos_spec offset m.rdmaMem with
      ⟨hnone, hall⟩ | ⟨pre, f, post, hl, hadm, hfind, hfst⟩
    · exact Or.inl ⟨hnil, hall, by simp [internalFree, hnil, hnone]⟩
    · exact Or.inr ⟨pre, f, post, hl, hadm, hfst, by simp [internalFree, freedBlock, hnil, hfind]⟩

end RDMAManager
end DpiLibrary
