import Mathlib.Data.List.Infix
import Mathlib.Data.Option.Basic

/-!
# Schedules of partial step functions

A system is a partial step function: the label names the party that moves (or
the request that is handled) and `none` says that this move is not enabled. A
schedule is a list of labels, so one interleaving is one list. The invariant
rule and the two rules about whole runs are proved once, here.
-/

namespace DpiLibrary
namespace Schedule

variable {σ α : Type*} (step : σ → α → Option σ)

/-- Execute a schedule; `none` as soon as a label is not enabled. -/
def exec : σ → List α → Option σ
  | s, [] => some s
  | s, a :: as => (step s a).bind fun t => exec t as

@[simp] theorem exec_nil (s : σ) : exec step s [] = some s := rfl

@[simp] theorem exec_cons (s : σ) (a : α) (as : List α) :
    exec step s (a :: as) = (step s a).bind fun t => exec step t as := rfl

theorem exec_append (s : σ) (as bs : List α) :
    exec step s (as ++ bs) = (exec step s as).bind fun t => exec step t bs := by
  induction as generalizing s with
  | nil => rfl
  | cons a as ih =>
    cases h : step s a with
    | none => simp [h]
    | some t => simp [h, ih]

theorem exec_concat (s : σ) (as : List α) (a : α) :
    exec step s (as ++ [a]) = (exec step s as).bind fun t => step t a := by
  rw [exec_append]
  cases h : exec step s as with
  | none => rfl
  | some t => cases ha : step t a <;> simp [ha]

/-- States some schedule leads to. -/
def Reachable (s t : σ) : Prop := ∃ as, exec step s as = some t

variable {step}

theorem Reachable.refl (s : σ) : Reachable step s s := ⟨[], rfl⟩

theorem Reachable.tail {s t u : σ} {a : α} (h : Reachable step s t) (hstep : step t a = some u) :
    Reachable step s u := by
  obtain ⟨as, has⟩ := h
  exact ⟨as ++ [a], by simp [exec_concat, has, hstep]⟩

theorem Reachable.trans {s t u : σ} (hst : Reachable step s t) (htu : Reachable step t u) :
    Reachable step s u := by
  obtain ⟨as, has⟩ := hst
  obtain ⟨bs, hbs⟩ := htu
  exact ⟨as ++ bs, by simp [exec_append, has, hbs]⟩

theorem Reachable.single {s t : σ} {a : α} (h : step s a = some t) : Reachable step s t :=
  (Reachable.refl s).tail h

/-- What holds at the start and is kept by every enabled step holds along every schedule. -/
theorem invariant_exec {I : σ → Prop} (hstep : ∀ s a t, I s → step s a = some t → I t) :
    ∀ as s t, I s → exec step s as = some t → I t := by
  intro as
  induction as with
  | nil =>
    intro s t hs h
    cases h
    exact hs
  | cons a as ih =>
    intro s t hs h
    obtain ⟨u, hu, ht⟩ := Option.bind_eq_some_iff.mp h
    exact ih u t (hstep s a u hs hu) ht

theorem Reachable.invariant {I : σ → Prop} {s t : σ} (h : Reachable step s t) (hs : I s)
    (hstep : ∀ s a t, I s → step s a = some t → I t) : I t := by
  obtain ⟨as, has⟩ := h
  exact invariant_exec hstep as s t hs has

/-- Induction along a reachable state, remembering that the states passed are reachable. -/
theorem Reachable.induction {I : σ → Prop} {s t : σ} (h : Reachable step s t) (hs : I s)
    (hstep : ∀ u a v, Reachable step s u → I u → step u a = some v → I v) : I t := by
  have hboth : Reachable step s t ∧ I t := by
    refine h.invariant (I := fun u => Reachable step s u ∧ I u) ⟨Reachable.refl s, hs⟩ ?_
    rintro u a v ⟨hu, hI⟩ huv
    exact ⟨hu.tail huv, hstep u a v hu hI huv⟩
  exact hboth.2

/-- When every step with a label in `L` lowers a measure, the measure bounds the length of
a schedule of such labels. -/
theorem length_add_measure_le {I : σ → Prop} {L : α → Prop} (measure : σ → ℕ)
    (hstep : ∀ s a t, I s → L a → step s a = some t → I t ∧ measure t < measure s) :
    ∀ as s t, (∀ a ∈ as, L a) → I s → exec step s as = some t →
      I t ∧ as.length + measure t ≤ measure s := by
  intro as
  induction as with
  | nil =>
    intro s t _ hs h
    cases h
    exact ⟨hs, (Nat.zero_add _).le⟩
  | cons a as ih =>
    intro s t hL hs h
    obtain ⟨u, hu, ht⟩ := Option.bind_eq_some_iff.mp h
    obtain ⟨hu', hlt⟩ := hstep s a u hs (hL a List.mem_cons_self) hu
    obtain ⟨ht', hle⟩ := ih u t (fun b hb => hL b (List.mem_cons_of_mem a hb)) hu' ht
    refine ⟨ht', ?_⟩
    rw [List.length_cons]
    omega

variable (step)

/-- `Q` holds in every state a schedule passes through, the first and the last included. -/
def Throughout (Q : σ → Prop) (s : σ) (as : List α) : Prop :=
  ∀ pre t, pre <+: as → exec step s pre = some t → Q t

/-- `G` holds of every step a schedule executes, stated on the state before it. -/
def EachStep (G : σ → α → Prop) (s : σ) (as : List α) : Prop :=
  ∀ pre a t u, pre ++ [a] <+: as → exec step s pre = some t → step t a = some u → G t a

variable {step}

theorem throughout_nil {Q : σ → Prop} {s : σ} : Throughout step Q s [] ↔ Q s := by
  constructor
  · intro h
    exact h [] s (List.prefix_refl _) rfl
  · intro hQ pre t hpre ht
    rw [List.prefix_nil.mp hpre] at ht
    cases ht
    exact hQ

theorem throughout_cons {Q : σ → Prop} {s : σ} {a : α} {as : List α} :
    Throughout step Q s (a :: as) ↔ Q s ∧ ∀ t, step s a = some t → Throughout step Q t as := by
  constructor
  · intro h
    refine ⟨h [] s (List.nil_prefix) rfl, fun t ht pre u hpre hu => ?_⟩
    exact h (a :: pre) u ((List.prefix_cons_inj a).mpr hpre) (by simp [ht, hu])
  · rintro ⟨hs, h⟩ pre t hpre ht
    cases pre with
    | nil => cases ht; exact hs
    | cons b pre =>
      obtain ⟨rfl, htail⟩ := List.cons_prefix_cons.mp hpre
      obtain ⟨u, hu, hut⟩ := Option.bind_eq_some_iff.mp ht
      exact h u hu pre t htail hut

theorem eachStep_nil {G : σ → α → Prop} {s : σ} : EachStep step G s [] := by
  intro pre a t u hpre
  simp at hpre

theorem eachStep_cons {G : σ → α → Prop} {s : σ} {a : α} {as : List α} :
    EachStep step G s (a :: as) ↔
      ∀ t, step s a = some t → G s a ∧ EachStep step G t as := by
  constructor
  · intro h t ht
    refine ⟨h [] a s t (by simp) rfl ht, fun pre b u v hpre hu hv => ?_⟩
    exact h (a :: pre) b u v (by simpa using hpre) (by simp [ht, hu]) hv
  · intro h pre b t u hpre ht hu
    cases pre with
    | nil =>
      cases ht
      obtain ⟨rfl, -⟩ := List.cons_prefix_cons.mp hpre
      exact (h u hu).1
    | cons c pre =>
      obtain ⟨rfl, htail⟩ := List.cons_prefix_cons.mp hpre
      obtain ⟨v, hv, hvt⟩ := Option.bind_eq_some_iff.mp ht
      exact (h v hv).2 pre b t u htail hvt hu

/-- A condition on the labels alone. -/
theorem eachStep_of_forall {L : α → Prop} {s : σ} {as : List α} (h : ∀ a ∈ as, L a) :
    EachStep step (fun _ a => L a) s as := by
  intro pre a t u hpre _ _
  exact h a (hpre.subset (by simp))

theorem EachStep.and {G H : σ → α → Prop} {s : σ} {as : List α} (hG : EachStep step G s as)
    (hH : EachStep step H s as) : EachStep step (fun s a => G s a ∧ H s a) s as :=
  fun pre a t u hpre ht hu => ⟨hG pre a t u hpre ht hu, hH pre a t u hpre ht hu⟩

instance decidableEachStep {G : σ → α → Prop} [∀ s a, Decidable (G s a)] :
    ∀ (s : σ) (as : List α), Decidable (EachStep step G s as)
  | _, [] => .isTrue eachStep_nil
  | s, a :: as =>
    match h : step s a with
    | none => .isTrue (eachStep_cons.mpr (by simp [h]))
    | some t =>
      haveI : Decidable (EachStep step G t as) := decidableEachStep t as
      decidable_of_iff (G s a ∧ EachStep step G t as) (by simp [eachStep_cons, h])

/-- Runs all of whose steps meet `G` keep an invariant that steps meeting `G` keep. -/
theorem EachStep.throughout {G : σ → α → Prop} {I : σ → Prop}
    (hstep : ∀ s a t, I s → G s a → step s a = some t → I t) :
    ∀ as s, I s → EachStep step G s as → Throughout step I s as := by
  intro as
  induction as with
  | nil => intro s hs _; exact throughout_nil.mpr hs
  | cons a as ih =>
    intro s hs hG
    refine throughout_cons.mpr ⟨hs, fun t ht => ?_⟩
    obtain ⟨hGs, hGt⟩ := eachStep_cons.mp hG t ht
    exact ih t (hstep s a t hs hGs ht) hGt

/-- Where each step of an `I`-run keeps `Q` exactly when it meets `G`, the run keeps `Q`
exactly when all its steps meet `G`. -/
theorem throughout_iff_eachStep {G : σ → α → Prop} {I Q : σ → Prop}
    (hI : ∀ s a t, I s → step s a = some t → I t)
    (hG : ∀ s a t, I s → Q s → step s a = some t → (Q t ↔ G s a)) :
    ∀ as s, I s → Q s → (Throughout step Q s as ↔ EachStep step G s as) := by
  intro as
  induction as with
  | nil => intro s _ hQ; exact iff_of_true (throughout_nil.mpr hQ) eachStep_nil
  | cons a as ih =>
    intro s hs hQ
    rw [throughout_cons, eachStep_cons]
    constructor
    · rintro ⟨_, h⟩ t ht
      have hQt : Q t := h t ht [] t List.nil_prefix rfl
      exact ⟨(hG s a t hs hQ ht).mp hQt, (ih t (hI s a t hs ht) hQt).mp (h t ht)⟩
    · intro h
      refine ⟨hQ, fun t ht => ?_⟩
      obtain ⟨hGs, hrest⟩ := h t ht
      have hQt : Q t := (hG s a t hs hQ ht).mpr hGs
      exact (ih t (hI s a t hs ht) hQt).mpr hrest

/-- Two properties of a step that agree wherever an invariant holds, the invariant being kept
by the steps that have the first one: a run has both at each step or neither. -/
theorem eachStep_congr_of_forall {P G : σ → α → Prop} {I : σ → Prop} {L : α → Prop}
    (hI : ∀ s a t, I s → L a → P s a → step s a = some t → I t)
    (hPG : ∀ s a t, I s → L a → step s a = some t → (P s a ↔ G s a)) :
    ∀ as s, (∀ a ∈ as, L a) → I s → (EachStep step P s as ↔ EachStep step G s as) := by
  intro as
  induction as with
  | nil => intro s _ _; exact iff_of_true eachStep_nil eachStep_nil
  | cons a as ih =>
    intro s hL hs
    obtain ⟨ha, has⟩ := List.forall_mem_cons.mp hL
    rw [eachStep_cons, eachStep_cons]
    constructor
    · intro h t ht
      obtain ⟨hP, hrest⟩ := h t ht
      exact ⟨(hPG s a t hs ha ht).mp hP, (ih t has (hI s a t hs ha hP ht)).mp hrest⟩
    · intro h t ht
      obtain ⟨hG, hrest⟩ := h t ht
      have hP : P s a := (hPG s a t hs ha ht).mpr hG
      exact ⟨hP, (ih t has (hI s a t hs ha hP ht)).mpr hrest⟩

/-- A property of each step that follows from an invariant. -/
theorem eachStep_of_invariant {G : σ → α → Prop} {I : σ → Prop} {L : α → Prop}
    (hI : ∀ s a t, I s → L a → step s a = some t → I t)
    (hG : ∀ s a t, I s → L a → step s a = some t → G s a) (as : List α) (s : σ)
    (hL : ∀ a ∈ as, L a) (hs : I s) : EachStep step G s as := by
  apply (eachStep_congr_of_forall (P := fun _ _ => True) (fun s a t h ha _ => hI s a t h ha)
    (fun s a t h ha hstep => (iff_of_true trivial (hG s a t h ha hstep))) as s hL hs).mp
  exact fun _ _ _ _ _ _ _ => trivial

theorem eachStep_congr {P G : σ → α → Prop} {I : σ → Prop}
    (hI : ∀ s a t, I s → P s a → step s a = some t → I t)
    (hPG : ∀ s a t, I s → step s a = some t → (P s a ↔ G s a)) (as : List α) (s : σ) (hs : I s) :
    EachStep step P s as ↔ EachStep step G s as :=
  eachStep_congr_of_forall (L := fun _ => True) (fun s a t h _ => hI s a t h)
    (fun s a t h _ => hPG s a t h) as s (fun _ _ => trivial) hs

end Schedule
end DpiLibrary
