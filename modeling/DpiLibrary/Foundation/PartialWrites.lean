import DpiLibrary.Foundation.ByteMemory

/-!
# Block writes that are visible in part

Of some block writes the first bytes are in memory already, while a second memory has
none of them. The relation says where the two agree, and what it takes to keep it: one
more byte of a write, a write that is completed, and a write to both memories elsewhere.
-/

namespace DpiLibrary

variable {ι : Type*} {p p' : ι → ℕ × List UInt8} {m m' : Mem}

/-- `m` is `m'` with the block writes `p`, none of which has arrived in `m'`. -/
structure PartlyWritten (p : ι → ℕ × List UInt8) (m m' : Mem) : Prop where
  arrived : ∀ i a, Writes (p i) a → (p i).2[a - (p i).1]? = some (m a)
  rest : ∀ a, (∀ i, ¬ Writes (p i) a) → m a = m' a

theorem not_writes_of_nil {w : ℕ × List UInt8} (h : w.2 = []) (a : ℕ) : ¬ Writes w a := by
  rintro ⟨hlo, hhi⟩
  rw [h, List.length_nil] at hhi
  omega

namespace PartlyWritten

theorem refl (m : Mem) (h : ∀ i, (p i).2 = []) : PartlyWritten p m m where
  arrived i a ha := absurd ha (not_writes_of_nil (h i) a)
  rest _ _ := rfl

theorem congr (h : PartlyWritten p m m')
    (hp : ∀ i, p' i = p i ∨ (p' i).2 = [] ∧ (p i).2 = []) : PartlyWritten p' m m' := by
  constructor
  · intro i a ha
    rcases hp i with heq | ⟨hnil, -⟩
    · rw [heq] at ha ⊢
      exact h.arrived i a ha
    · exact absurd ha (not_writes_of_nil hnil a)
  · intro a ha
    apply h.rest a
    intro i hi
    rcases hp i with heq | ⟨-, hnil⟩
    · exact ha i (heq ▸ hi)
    · exact not_writes_of_nil hnil a hi

/-- A write that stays as it is, or is not visible in part before and after. -/
theorem update [DecidableEq ι] (h : PartlyWritten p m m') (i : ι) {w : ℕ × List UInt8}
    (hw : w = p i ∨ w.2 = [] ∧ (p i).2 = []) : PartlyWritten (Function.update p i w) m m' := by
  apply h.congr
  intro i'
  by_cases hi : i' = i
  · subst hi
    rwa [Function.update_self]
  · rw [Function.update_of_ne hi]
    exact Or.inl rfl

theorem agreeOn (h : PartlyWritten p m m') {start len : ℕ}
    (hout : ∀ i a, Writes (p i) a → start + len ≤ a ∨ a < start) : AgreeOn m m' start len := by
  intro a ha ha'
  apply h.rest a
  intro i hi
  have := hout i a hi
  omega

variable {i : ι} {remote v : ℕ} {bytes : List UInt8}

/-- One more byte of a write arrives. -/
theorem grow (h : PartlyWritten p m m') (hi : p i = (remote, bytes.take v)) {c : UInt8}
    (hc : bytes[v]? = some c) (hothers : ∀ i', i' ≠ i → p' i' = p i' ∧ ¬ Writes (p i') (remote + v))
    (hi' : p' i = (remote, bytes.take (v + 1))) :
    PartlyWritten p' (writeBytes m (remote + v) [c]) m' := by
  have hlt : v < bytes.length := (List.getElem?_eq_some_iff.mp hc).1
  have hbyte : writeBytes m (remote + v) [c] (remote + v) = c := by simp [writeBytes]
  have hkeep : ∀ a, a ≠ remote + v → writeBytes m (remote + v) [c] a = m a := by
    intro a ha
    refine writeBytes_of_not_writes (w := (remote + v, [c])) ?_
    rintro ⟨hlo, hhi⟩
    simp only [List.length_singleton] at hlo hhi
    omega
  constructor
  · intro i' a ha
    by_cases heq : i' = i
    · subst heq
      rw [hi'] at ha ⊢
      obtain ⟨hlo, hhi⟩ := ha
      simp only [List.length_take] at hlo hhi ⊢
      rw [List.getElem?_take_of_lt (by omega)]
      by_cases hav : a = remote + v
      · rw [hav, hbyte, Nat.add_sub_cancel_left, hc]
      · rw [hkeep a hav]
        have hold := h.arrived i' a (by
          rw [hi]
          exact ⟨hlo, by simp only [List.length_take]; omega⟩)
        rw [hi] at hold
        simp only at hold
        rwa [List.getElem?_take_of_lt (by omega)] at hold
    · obtain ⟨hsame, hout⟩ := hothers i' heq
      rw [hsame] at ha ⊢
      rw [hkeep a (by rintro rfl; exact hout ha)]
      exact h.arrived i' a ha
  · intro a ha
    have hav : a ≠ remote + v := by
      rintro rfl
      refine ha i ?_
      rw [hi']
      exact ⟨Nat.le_add_right _ _, by simp only [List.length_take]; omega⟩
    rw [hkeep a hav]
    apply h.rest a
    intro i' hw
    by_cases heq : i' = i
    · subst heq
      refine ha i' ?_
      rw [hi] at hw
      rw [hi']
      obtain ⟨hlo, hhi⟩ := hw
      simp only [List.length_take] at hlo hhi
      exact ⟨hlo, by simp only [List.length_take]; omega⟩
    · exact ha i' ((hothers i' heq).1 ▸ hw)

/-- A write is completed in the second memory. What is not visible of it in the first one is
there already. -/
theorem land (h : PartlyWritten p m m') (hi : p i = (remote, bytes.take v))
    (hmore : ∀ j, v ≤ j → j < bytes.length → bytes[j]? = some (m' (remote + j)))
    (hothers : ∀ i', i' ≠ i → p' i' = p i' ∧ ∀ a, Writes (p i') a → ¬ Writes (remote, bytes) a)
    (hi' : (p' i).2 = []) : PartlyWritten p' m (writeBytes m' remote bytes) := by
  constructor
  · intro i' a ha
    by_cases heq : i' = i
    · subst heq
      exact absurd ha (not_writes_of_nil hi' a)
    · rw [(hothers i' heq).1] at ha ⊢
      exact h.arrived i' a ha
  · intro a ha
    have hout : ∀ i', i' ≠ i → ¬ Writes (p i') a := fun i' heq hw =>
      ha i' ((hothers i' heq).1 ▸ hw)
    by_cases hw : Writes (remote, bytes) a
    · obtain ⟨hlo, hhi⟩ := hw
      simp only at hlo hhi
      have hj : a - remote < bytes.length := by omega
      have hwritten : some (writeBytes m' remote bytes a) = bytes[a - remote]? := by
        simp [writeBytes, hlo, hj]
      refine Option.some.inj (Eq.trans ?_ hwritten.symm)
      by_cases hav : a - remote < v
      · have hold := h.arrived i a (by
          rw [hi]
          exact ⟨hlo, by simp only [List.length_take]; omega⟩)
        rw [hi] at hold
        simp only at hold
        rw [List.getElem?_take_of_lt hav] at hold
        exact hold.symm
      · rw [hmore _ (Nat.not_lt.mp hav) hj, Nat.add_sub_cancel' hlo]
        refine congrArg some (h.rest a fun i' hw' => ?_)
        by_cases heq : i' = i
        · subst heq
          rw [hi] at hw'
          obtain ⟨-, hhi'⟩ := hw'
          simp only [List.length_take] at hhi'
          omega
        · exact hout i' heq hw'
    · rw [writeBytes_of_not_writes (w := (remote, bytes)) hw]
      apply h.rest a
      intro i' hw'
      by_cases heq : i' = i
      · subst heq
        rw [hi] at hw'
        obtain ⟨hlo, hhi⟩ := hw'
        simp only [List.length_take] at hlo hhi
        exact hw ⟨hlo, by simp only; omega⟩
      · exact hout i' heq hw'

/-- Both memories are written, away from what is visible early. -/
theorem write (h : PartlyWritten p m m') (w : ℕ × List UInt8)
    (hout : ∀ i a, Writes (p i) a → ¬ Writes w a) :
    PartlyWritten p (writeBytes m w.1 w.2) (writeBytes m' w.1 w.2) := by
  constructor
  · intro i a ha
    rw [writeBytes_of_not_writes (hout i a ha)]
    exact h.arrived i a ha
  · intro a ha
    exact writeBytes_congr (Or.inl (h.rest a ha))

end PartlyWritten
end DpiLibrary
