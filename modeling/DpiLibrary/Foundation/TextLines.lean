import Mathlib.Data.List.DropRight

/-!
# Lines, tokens and blanks

What `getline`, `strtok` and the trimming of blanks make of a text, and how a text has to be put
together for them to take it apart again.
-/

namespace DpiLibrary
namespace TextLines

variable {α : Type*} {sep blank : α}

theorem mem_intercalate {ws : List (List α)} {c : α} (h : c ∈ [sep].intercalate ws) :
    c = sep ∨ ∃ w ∈ ws, c ∈ w := by
  induction ws with
  | nil => simp [List.intercalate_nil] at h
  | cons w ws ih =>
    cases ws with
    | nil => exact .inr ⟨w, List.mem_cons_self, by simpa using h⟩
    | cons w' ws =>
      rw [List.intercalate_cons_cons, List.mem_append, List.mem_append,
        List.mem_singleton] at h
      rcases h with (hc | hc) | hc
      · exact .inr ⟨w, List.mem_cons_self, hc⟩
      · exact .inl hc
      · rcases ih hc with heq | ⟨w'', hw, hc⟩
        · exact .inl heq
        · exact .inr ⟨w'', List.mem_cons_of_mem w hw, hc⟩

variable [DecidableEq α]

/-- `getline` until it fails: what stands behind the last separator is a line unless it is
empty. -/
def lines (sep : α) (text : List α) : List (List α) :=
  let parts := text.splitOn sep
  if parts.getLast? = some [] then parts.dropLast else parts

/-- `strtok` until it fails: empty tokens are passed over. -/
def tokens (sep : α) (text : List α) : List (List α) :=
  (text.splitOn sep).filter (! List.isEmpty ·)

/-- The text without the blanks at its ends. -/
def trim (blank : α) (text : List α) : List α :=
  (text.dropWhile (· = blank)).rdropWhile (· = blank)

/-- No blank at either end. -/
def Trimmed (blank : α) (text : List α) : Prop :=
  text.head? ≠ some blank ∧ text.getLast? ≠ some blank

instance (blank : α) (text : List α) : Decidable (Trimmed blank text) :=
  inferInstanceAs (Decidable (_ ∧ _))

theorem splitOn_flatMap {ls : List (List α)} (h : ∀ l ∈ ls, sep ∉ l) (rest : List α) :
    (ls.flatMap (· ++ [sep]) ++ rest).splitOn sep = ls ++ rest.splitOn sep := by
  induction ls with
  | nil => rfl
  | cons l ls ih =>
    obtain ⟨hl, hls⟩ := List.forall_mem_cons.mp h
    have hsplit : (l :: ls).flatMap (· ++ [sep]) ++ rest =
        l ++ sep :: (ls.flatMap (· ++ [sep]) ++ rest) := by simp
    rw [hsplit, List.splitOn_append_cons_self_of_not_mem hl, ih hls, List.cons_append]

/-- Lines that all end with a separator. -/
theorem lines_flatMap {ls : List (List α)} (h : ∀ l ∈ ls, sep ∉ l) :
    lines sep (ls.flatMap (· ++ [sep])) = ls := by
  have hsplit := splitOn_flatMap h ([] : List α)
  rw [List.append_nil, List.splitOn_nil] at hsplit
  simp [lines, hsplit]

/-- The last line need not end with a separator. -/
theorem lines_flatMap_append {ls : List (List α)} {last : List α} (h : ∀ l ∈ ls, sep ∉ l)
    (hlast : sep ∉ last) (hne : last ≠ []) : lines sep (ls.flatMap (· ++ [sep]) ++ last) =
      ls ++ [last] := by
  have hsplit := splitOn_flatMap h last
  rw [List.splitOn_eq_singleton hlast] at hsplit
  simp [lines, hsplit, hne]

theorem tokens_intercalate {ws : List (List α)} (h : ∀ w ∈ ws, w ≠ [] ∧ sep ∉ w) :
    tokens sep ([sep].intercalate ws) = ws := by
  cases ws with
  | nil => simp [tokens, List.intercalate_nil]
  | cons w ws =>
    rw [tokens, List.splitOn_intercalate sep (fun w hw => (h w hw).2) (by simp),
      List.filter_eq_self.mpr]
    intro w hw
    simpa using (h w hw).1

theorem dropWhile_replicate_append (m : ℕ) (text : List α) :
    (List.replicate m blank ++ text).dropWhile (· = blank) = text.dropWhile (· = blank) := by
  induction m with
  | zero => rfl
  | succ m ih => simp [List.replicate_succ, ih]

theorem rdropWhile_append_replicate (text : List α) (n : ℕ) :
    (text ++ List.replicate n blank).rdropWhile (· = blank) = text.rdropWhile (· = blank) := by
  induction n with
  | zero => rw [List.replicate_zero, List.append_nil]
  | succ n ih =>
    rw [List.replicate_succ', ← List.append_assoc, List.rdropWhile_concat_pos _ _ _ (by simp), ih]

/-- Blanks around a trimmed text are taken away. -/
theorem trim_pad {text : List α} (h : Trimmed blank text) (m n : ℕ) :
    trim blank (List.replicate m blank ++ text ++ List.replicate n blank) = text := by
  rw [trim, List.append_assoc, dropWhile_replicate_append]
  cases text with
  | nil =>
    rw [List.nil_append]
    simp
  | cons c text =>
    have hhead : c ≠ blank := fun heq => h.1 (by rw [heq, List.head?_cons])
    rw [List.cons_append, List.dropWhile_cons_of_neg (by simpa using hhead), ← List.cons_append,
      rdropWhile_append_replicate, List.rdropWhile_eq_self_iff]
    intro hne hlast
    apply h.2
    rw [List.getLast?_eq_some_getLast hne]
    simpa using hlast

end TextLines
end DpiLibrary
