import DpiLibrary.Utils.ConfigSettings

/-!
# Configuration files

A configuration can be written to a file in many ways: in any order, with blanks, comments,
empty lines and keys that nothing knows, and with values that a later line replaces. All of them
are read back as the configuration, whatever was set before.
-/

namespace DpiLibrary

open Numerals TextLines

/-- An assignment as it is laid out in a line. -/
structure ConfigAssignment where
  key : List Char
  value : List Char
  blanksBefore : ℕ
  blanksBehindKey : ℕ
  blanksBeforeValue : ℕ
  blanksBehind : ℕ
  key_trimmed : Trimmed ' ' key
  value_trimmed : Trimmed ' ' value
  key_one_line : '\n' ∉ key
  value_one_line : '\n' ∉ value
  key_equals : '=' ∉ key
  /-- Behind a blank the key may begin like a comment. -/
  key_comment : blanksBefore = 0 → key.head? ≠ some '#' ∧ key.head? ≠ some ';'

inductive ConfigLine where
  | empty
  | comment (mark : Char) (text : List Char) (hmark : mark = '#' ∨ mark = ';')
      (htext : '\n' ∉ text)
  | assignment (a : ConfigAssignment)

namespace ConfigAssignment

/-- What stands before the equals sign. -/
def left (a : ConfigAssignment) : List Char :=
  List.replicate a.blanksBefore ' ' ++ a.key ++ List.replicate a.blanksBehindKey ' '

def right (a : ConfigAssignment) : List Char :=
  List.replicate a.blanksBeforeValue ' ' ++ a.value ++ List.replicate a.blanksBehind ' '

def line (a : ConfigAssignment) : List Char := a.left ++ '=' :: a.right

theorem trim_left (a : ConfigAssignment) : Config.trim a.left = a.key :=
  trim_pad a.key_trimmed _ _

theorem trim_right (a : ConfigAssignment) : Config.trim a.right = a.value :=
  trim_pad a.value_trimmed _ _

theorem equals_not_mem_left (a : ConfigAssignment) : '=' ∉ a.left := by
  simp [left, a.key_equals, List.mem_replicate]

theorem one_line (a : ConfigAssignment) : '\n' ∉ a.line := by
  simp [line, left, right, a.key_one_line, a.value_one_line, List.mem_replicate]

theorem splitLine_line (a : ConfigAssignment) : Config.splitLine a.line = (a.left, a.right) := by
  have hleft : ∀ c ∈ a.left, (decide (c ≠ '=')) = true := fun c hc =>
    decide_eq_true fun heq => a.equals_not_mem_left (heq ▸ hc)
  rw [Config.splitLine, if_pos (by simp [line]), line, List.takeWhile_append_of_pos hleft,
    List.dropWhile_append_of_pos hleft]
  simp

/-- The line is not taken for a comment. -/
theorem head_line (a : ConfigAssignment) :
    a.line.head?.all (fun c => c = '#' || c = ';') = false := by
  cases hblanks : a.blanksBefore with
  | succ n => simp [line, left, hblanks, List.replicate_succ]
  | zero =>
    obtain ⟨hhash, hsemicolon⟩ := a.key_comment hblanks
    cases hkey : a.key with
    | nil =>
      cases hbehind : a.blanksBehindKey with
      | zero => simp [line, left, hblanks, hkey, hbehind]
      | succ n => simp [line, left, hblanks, hkey, hbehind, List.replicate_succ]
    | cons c key =>
      rw [hkey, List.head?_cons, Ne, Option.some.injEq] at hhash hsemicolon
      simp [line, left, hblanks, hkey, hhash, hsemicolon]

end ConfigAssignment

namespace ConfigLine

def render : ConfigLine → List Char
  | empty => []
  | comment mark text _ _ => mark :: text
  | assignment a => a.line

/-- What the line is there for. -/
def assigned : ConfigLine → Option (Setting × List Char)
  | empty => none
  | comment .. => none
  | assignment a => (Setting.ofKey (String.ofList a.key)).map fun s => (s, a.value)

theorem one_line (l : ConfigLine) : '\n' ∉ l.render := by
  cases l with
  | empty => exact List.not_mem_nil
  | comment mark text hmark htext =>
    rcases hmark with rfl | rfl <;> simp [render, htext]
  | assignment a => exact a.one_line

theorem lineAssignment_render (l : ConfigLine) : Config.lineAssignment l.render = l.assigned := by
  cases l with
  | empty => rfl
  | comment mark text hmark htext =>
    rcases hmark with rfl | rfl <;> rfl
  | assignment a =>
    rw [render, Config.lineAssignment, a.head_line, a.splitLine_line, a.trim_left, a.trim_right]
    rfl

end ConfigLine

namespace Config

/-- A file of whole lines and of what stands behind the last of them, if anything does. -/
def fileText (ls : List ConfigLine) (last : ConfigLine) : List Char :=
  (ls.map ConfigLine.render).flatMap (· ++ ['\n']) ++ last.render

theorem assignments_fileText (ls : List ConfigLine) (last : ConfigLine) :
    assignments (fileText ls last) = (ls ++ [last]).filterMap ConfigLine.assigned := by
  have hlines : ∀ l ∈ ls.map ConfigLine.render, '\n' ∉ l := by
    intro l hl
    obtain ⟨line, -, rfl⟩ := List.mem_map.mp hl
    exact line.one_line
  have hread : ∀ ls : List ConfigLine, (ls.map ConfigLine.render).filterMap lineAssignment =
      ls.filterMap ConfigLine.assigned := by
    intro ls
    rw [List.filterMap_map]
    exact List.filterMap_congr fun l _ => l.lineAssignment_render
  rw [assignments, fileText, List.filterMap_append, ← hread ls]
  by_cases hlast : last.render = []
  · have hnone : last.assigned = none := by
      rw [← last.lineAssignment_render, hlast]
      rfl
    rw [hlast, List.append_nil, lines_flatMap hlines]
    simp [hnone]
  · rw [lines_flatMap_append hlines last.one_line hlast, List.filterMap_append, ← hread [last]]
    rfl

/-- The value that a setting is given in a file. A number that is too large for `stoi` is written
as the negative one that wraps around to it. -/
def write (c : Config) : Setting → List Char
  | .rdmaPort => decimal c.rdmaPort.toInt32.toInt
  | .rdmaMemsize => Nat.toDigits 10 c.rdmaMemsize.toNat
  | .rdmaNumaregion => decimal c.rdmaNumaregion.toInt32.toInt
  | .rdmaDevice => decimal c.rdmaDevice.toInt32.toInt
  | .rdmaIbport => decimal c.rdmaIbport.toInt32.toInt
  | .threadCpus => [','].intercalate (c.threadCpus.map fun n => decimal n.toInt)
  | .dpiRegistryServer => c.dpiRegistryServer
  | .dpiRegistryPort => decimal c.dpiRegistryPort.toInt32.toInt
  | .dpiNodes => [','].intercalate c.dpiNodes
  | .loggingLevel => decimal c.loggingLevel.toInt

/-- The texts of the configuration have a form in a file. -/
structure Writable (c : Config) : Prop where
  server : '\x00' ∉ c.dpiRegistryServer
  nodes : ∀ node ∈ c.dpiNodes, node ≠ [] ∧ ',' ∉ node ∧ '\x00' ∉ node

theorem cString_of_not_mem {str : List Char} (h : '\x00' ∉ str) : cString str = str := by
  rw [cString, List.takeWhile_eq_self_iff]
  exact fun c hc => decide_eq_true fun heq => h (heq ▸ hc)

theorem initStrings_intercalate {ws : List (List Char)}
    (h : ∀ w ∈ ws, w ≠ [] ∧ ',' ∉ w ∧ '\x00' ∉ w) : initStrings ([','].intercalate ws) = ws := by
  have hzero : '\x00' ∉ [','].intercalate ws := by
    intro hmem
    rcases mem_intercalate hmem with hc | ⟨w, hw, hc⟩
    · cases hc
    · exact (h w hw).2.2 hc
  rw [initStrings, cString_of_not_mem hzero]
  exact tokens_intercalate fun w hw => ⟨(h w hw).1, (h w hw).2.1⟩

theorem stoi_toInt (n : Int32) : stoi (decimal n.toInt) = some n.toInt := by
  have hread := stoi_decimal n.le_toInt n.toInt_lt [] rfl
  rwa [List.append_nil] at hread

theorem initIntegers_intercalate (ns : List Int32) :
    initIntegers ([','].intercalate (ns.map fun n => decimal n.toInt)) = some ns := by
  have hwords : ∀ w ∈ ns.map (fun n => decimal n.toInt), w ≠ [] ∧ ',' ∉ w ∧ '\x00' ∉ w := by
    intro w hw
    obtain ⟨n, -, rfl⟩ := List.mem_map.mp hw
    refine ⟨decimal_ne_nil _, fun hc => ?_, fun hc => ?_⟩ <;>
      simpa [Char.isDigit] using mem_decimal hc
  have htokens : tokens ',' (cString ([','].intercalate (ns.map fun n => decimal n.toInt))) =
      ns.map fun n => decimal n.toInt := initStrings_intercalate hwords
  rw [initIntegers, htokens, List.mapM_map]
  have hread : ∀ n : Int32, (stoi (decimal n.toInt)).map Int32.ofInt = some n := fun n => by
    rw [stoi_toInt, Option.map_some, Int32.ofInt_toInt]
  calc ns.mapM ((fun token => (stoi token).map Int32.ofInt) ∘ fun n => decimal n.toInt)
      = ns.mapM fun n => pure (id n) := congrArg ns.mapM (funext hread)
    _ = pure (ns.map id) := List.mapM_pure
    _ = some ns := by rw [List.map_id]; rfl

theorem ofInt_toInt32 (n : UInt32) : UInt32.ofInt n.toInt32.toInt = n := by
  have hlt := n.toNat_lt
  have hbits : n.toBitVec.toNat = n.toNat := rfl
  apply UInt32.toNat_inj.mp
  rw [UInt32.ofInt, UInt32.toNat_ofNat', ← Int32.toInt_toBitVec, UInt32.toBitVec_toInt32,
    BitVec.toInt_eq_toNat_bmod, hbits, Int.bmod]
  split_ifs <;> omega

theorem read_write_unsigned (n : UInt32) :
    (stoi (decimal n.toInt32.toInt)).map (fun z => SettingValue.unsigned (UInt32.ofInt z)) =
      some (.unsigned n) := by
  rw [stoi_toInt, Option.map_some, ofInt_toInt32]

theorem read_write {c : Config} (h : c.Writable) (s : Setting) :
    s.read (c.write s) = some (c.setting s) := by
  cases s with
  | rdmaPort => exact read_write_unsigned c.rdmaPort
  | rdmaNumaregion => exact read_write_unsigned c.rdmaNumaregion
  | rdmaDevice => exact read_write_unsigned c.rdmaDevice
  | rdmaIbport => exact read_write_unsigned c.rdmaIbport
  | dpiRegistryPort => exact read_write_unsigned c.dpiRegistryPort
  | rdmaMemsize =>
    have hdigits : '\x00' ∉ Nat.toDigits 10 c.rdmaMemsize.toNat := fun hc => by
      have hdigit := Nat.isDigit_of_mem_toDigits (by decide) (by decide) hc
      simp [Char.isDigit] at hdigit
    simp only [Setting.read, write, setting, cString_of_not_mem hdigits,
      strtoul_toDigits c.rdmaMemsize.toNat_lt, UInt64.ofNat_toNat]
  | loggingLevel => simp [Setting.read, write, setting, stoi_toInt]
  | threadCpus => simp [Setting.read, write, setting, initIntegers_intercalate]
  | dpiRegistryServer => simp [Setting.read, write, setting, cString_of_not_mem h.server]
  | dpiNodes => simp [Setting.read, write, setting, initStrings_intercalate h.nodes]

/-- The line that gives a setting its default. -/
def defaultLine (s : Setting) : ConfigLine :=
  .assignment
    { key := s.key.toList
      value := default.write s
      blanksBefore := 0
      blanksBehindKey := 1
      blanksBeforeValue := 1
      blanksBehind := 0
      key_trimmed := by cases s <;> decide
      value_trimmed := by cases s <;> decide
      key_one_line := by cases s <;> decide
      value_one_line := by cases s <;> decide
      key_equals := by cases s <;> decide
      key_comment := by cases s <;> decide }

/-- The defaults behind a comment and an empty line, from the last to the first. -/
def defaultLines : List ConfigLine :=
  .comment '#' " defaults".toList (by decide) (by decide) :: .empty ::
    Setting.all.reverse.map defaultLine

end Config
end DpiLibrary
