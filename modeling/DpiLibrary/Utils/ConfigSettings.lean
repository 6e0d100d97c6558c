import Mathlib.Tactic
import DpiLibrary.Foundation.Assignments
import DpiLibrary.Utils.Config

/-!
# Settings

A configuration file is a list of assignments, and a configuration is a record of ten settings.
What a file makes of a configuration is read off the last assignment to each of them.
-/

namespace DpiLibrary

open Numerals TextLines

inductive Setting where
  | rdmaPort
  | rdmaMemsize
  | rdmaNumaregion
  | rdmaDevice
  | rdmaIbport
  | threadCpus
  | dpiRegistryServer
  | dpiRegistryPort
  | dpiNodes
  | loggingLevel
  deriving DecidableEq, Repr

/-- What a setting holds. -/
inductive SettingValue where
  | unsigned (n : UInt32)
  | size (n : UInt64)
  | integer (n : Int32)
  | integers (ns : List Int32)
  | text (cs : List Char)
  | texts (css : List (List Char))
  deriving DecidableEq

namespace Setting

/-- The key of a configuration file. -/
def key : Setting → String
  | rdmaPort => "RDMA_PORT"
  | rdmaMemsize => "RDMA_MEMSIZE"
  | rdmaNumaregion => "RDMA_NUMAREGION"
  | rdmaDevice => "RDMA_DEVICE"
  | rdmaIbport => "RDMA_IBPORT"
  | threadCpus => "THREAD_CPUS"
  | dpiRegistryServer => "DPI_REGISTRY_SERVER"
  | dpiRegistryPort => "DPI_REGISTRY_PORT"
  | dpiNodes => "DPI_NODES"
  | loggingLevel => "LOGGING_LEVEL"

def all : List Setting :=
  [rdmaPort, rdmaMemsize, rdmaNumaregion, rdmaDevice, rdmaIbport, threadCpus, dpiRegistryServer,
    dpiRegistryPort, dpiNodes, loggingLevel]

/-- The setting that has a key. -/
def ofKey (k : String) : Option Setting := all.find? (·.key = k)

theorem ofKey_key (s : Setting) : ofKey s.key = some s := by cases s <;> decide

theorem key_of_ofKey {k : String} {s : Setting} (h : ofKey k = some s) : s.key = k := by
  have hkey := List.find?_some h
  simpa using hkey

/-- What is read from a value. -/
def read : Setting → List Char → Option SettingValue
  | rdmaPort, value | rdmaNumaregion, value | rdmaDevice, value | rdmaIbport, value
  | dpiRegistryPort, value => (stoi value).map fun n => .unsigned (UInt32.ofInt n)
  | rdmaMemsize, value => some (.size (UInt64.ofNat (strtoul (Config.cString value))))
  | loggingLevel, value => (stoi value).map fun n => .integer (Int32.ofInt n)
  | threadCpus, value => (Config.initIntegers value).map .integers
  | dpiRegistryServer, value => some (.text (Config.cString value))
  | dpiNodes, value => some (.texts (Config.initStrings value))

end Setting

namespace Config

def setting (c : Config) : Setting → SettingValue
  | .rdmaPort => .unsigned c.rdmaPort
  | .rdmaMemsize => .size c.rdmaMemsize
  | .rdmaNumaregion => .unsigned c.rdmaNumaregion
  | .rdmaDevice => .unsigned c.rdmaDevice
  | .rdmaIbport => .unsigned c.rdmaIbport
  | .threadCpus => .integers c.threadCpus
  | .dpiRegistryServer => .text c.dpiRegistryServer
  | .dpiRegistryPort => .unsigned c.dpiRegistryPort
  | .dpiNodes => .texts c.dpiNodes
  | .loggingLevel => .integer c.loggingLevel

theorem ext_setting {c c' : Config} (h : ∀ s, c.setting s = c'.setting s) : c = c' := by
  cases c
  cases c'
  have hport := h .rdmaPort
  have hmemsize := h .rdmaMemsize
  have hnumaregion := h .rdmaNumaregion
  have hdevice := h .rdmaDevice
  have hibport := h .rdmaIbport
  have hcpus := h .threadCpus
  have hserver := h .dpiRegistryServer
  have hregistry := h .dpiRegistryPort
  have hnodes := h .dpiNodes
  have hlevel := h .loggingLevel
  simp only [setting, SettingValue.unsigned.injEq, SettingValue.size.injEq,
    SettingValue.integer.injEq, SettingValue.integers.injEq, SettingValue.text.injEq,
    SettingValue.texts.injEq] at *
  subst_vars
  rfl

theorem set_eq_none (c : Config) (s : Setting) (value : List Char) :
    c.set s.key value = none ↔ s.read value = none := by
  cases s <;> simp [set, Setting.key, Setting.read]

theorem setting_set {c c' : Config} {s : Setting} {value : List Char}
    (h : c.set s.key value = some c') (s' : Setting) :
    some (c'.setting s') = if s' = s then s.read value else some (c.setting s') := by
  cases s <;> simp only [set, Setting.key, Setting.read, String.reduceEq, if_true, if_false,
    Option.map_eq_some_iff, Option.some.injEq] at h ⊢
  all_goals first
    | obtain ⟨n, hn, rfl⟩ := h
      cases s' <;> simp [setting, hn]
    | subst h
      cases s' <;> simp [setting]

/-- Keys that are not known are passed over. -/
theorem set_of_ofKey_none {c : Config} {k : String} {value : List Char}
    (h : Setting.ofKey k = none) : c.set k value = some c := by
  simp only [Setting.ofKey, List.find?_eq_none, decide_eq_true_eq] at h
  simp only [Setting.all, List.mem_cons, List.not_mem_nil, or_false, forall_eq_or_imp, forall_eq,
    Setting.key] at h
  obtain ⟨h₁, h₂, h₃, h₄, h₅, h₆, h₇, h₈, h₉, h₁₀⟩ := h
  simp only [set, Ne.symm h₁, Ne.symm h₂, Ne.symm h₃, Ne.symm h₄, Ne.symm h₅, Ne.symm h₆,
    Ne.symm h₇, Ne.symm h₈, Ne.symm h₉, Ne.symm h₁₀, if_false]

/-- A configuration as a record. -/
def record : Record Config Setting (List Char) SettingValue where
  part := setting
  read := Setting.read
  assign := fun c s value => c.set s.key value
  assign_eq_none := set_eq_none
  part_assign := setting_set
  ext := ext_setting

/-- The assignment of a line: a line that is empty, that is a comment or whose key is not known
assigns nothing. -/
def lineAssignment (line : List Char) : Option (Setting × List Char) :=
  if line.head?.all (fun c => c = '#' || c = ';') then none
  else (Setting.ofKey (String.ofList (trim (splitLine line).1))).map
    fun s => (s, trim (splitLine line).2)

def assignments (text : List Char) : List (Setting × List Char) :=
  (lines '\n' text).filterMap lineAssignment

theorem loadLine_eq (c : Config) (line : List Char) :
    c.loadLine line = ((lineAssignment line).map fun x => c.set x.1.key x.2).getD (some c) := by
  cases line with
  | nil => rfl
  | cons first line =>
    by_cases hcomment : first = '#' ∨ first = ';'
    · rcases hcomment with rfl | rfl <;> simp [loadLine, lineAssignment]
    · obtain ⟨hhash, hsemicolon⟩ := not_or.mp hcomment
      simp only [loadLine, lineAssignment, List.length_cons, Nat.succ_ne_zero, List.head?_cons,
        Option.some.injEq, Option.all_some, hhash, hsemicolon, decide_false, Bool.or_self,
        Bool.false_eq_true, if_false]
      cases hkey : Setting.ofKey (String.ofList (trim (splitLine (first :: line)).1)) with
      | none => exact set_of_ofKey_none hkey
      | some s => simp [Setting.key_of_ofKey hkey]

theorem foldlM_loadLine (ls : List (List Char)) (c : Config) :
    ls.foldlM loadLine c = record.assignAll (ls.filterMap lineAssignment) c := by
  induction ls generalizing c with
  | nil => rfl
  | cons line ls ih =>
    rw [List.foldlM_cons, loadLine_eq, List.filterMap_cons]
    cases lineAssignment line with
    | none => exact ih c
    | some x =>
      rw [record.assignAll_cons]
      exact congrArg _ (funext ih)

theorem load_eq_assignAll (files : List Char → Option (List Char)) (prog_name : List Char)
    (c : Config) : load files prog_name c =
      record.assignAll (assignments ((files (confFile prog_name)).getD [])) c :=
  foldlM_loadLine _ c

/-- Loading a file succeeds when every number that it assigns can be read, and then each setting
has the value of its last assignment, wherever that stands in the file, or the one that it had. -/
theorem load_eq_some_iff (files : List Char → Option (List Char)) (prog_name : List Char)
    (c c' : Config) : load files prog_name c = some c' ↔
      let found := assignments ((files (confFile prog_name)).getD [])
      (∀ x ∈ found, x.1.read x.2 ≠ none) ∧
        ∀ s, some (c'.setting s) = (Record.lastValue s found).elim (some (c.setting s)) s.read := by
  rw [load_eq_assignAll]
  exact record.assignAll_eq_some_iff _ c c'

end Config
end DpiLibrary
