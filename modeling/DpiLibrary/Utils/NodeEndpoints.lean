import DpiLibrary.Utils.ConfigFormat
import DpiLibrary.Utils.Network

/-!
# Endpoints of nodes

A node id is looked up in the configuration, and the connection that is found there is taken
apart. For a file that lists connections this gives back what they were put together from.
-/

namespace DpiLibrary

open Numerals

namespace Network

theorem getAddressOfConnection_getConnection {address : List Char} (h : ':' ∉ address)
    (port : Int32) : getAddressOfConnection (getConnection address port) = some address := by
  have haddress : ∀ c ∈ address, (decide (c ≠ ':')) = true := fun c hc =>
    decide_eq_true fun heq => h (heq ▸ hc)
  rw [getAddressOfConnection, getConnection, if_pos (by simp),
    List.takeWhile_append_of_pos haddress]
  simp

theorem getPortOfConnection_getConnection {address : List Char} (h : ':' ∉ address)
    (port : Int32) :
    getPortOfConnection (getConnection address port) = some (UInt64.ofInt port.toInt) := by
  have haddress : ∀ c ∈ address, (decide (c ≠ ':')) = true := fun c hc =>
    decide_eq_true fun heq => h (heq ▸ hc)
  rw [getPortOfConnection, getConnection, if_pos (by simp),
    List.dropWhile_append_of_pos haddress]
  simp [Config.stoi_toInt]

end Network

/-- A node as it is listed in a configuration file. -/
structure ListedNode where
  address : List Char
  port : Int32
  address_colon : ':' ∉ address
  address_comma : ',' ∉ address
  address_zero : '\x00' ∉ address

namespace ListedNode

def connection (n : ListedNode) : List Char := Network.getConnection n.address n.port

/-- The value of `DPI_NODES`. -/
def listed (nodes : List ListedNode) : List Char := [','].intercalate (nodes.map connection)

theorem connection_token (n : ListedNode) :
    n.connection ≠ [] ∧ ',' ∉ n.connection ∧ '\x00' ∉ n.connection := by
  have hport : ∀ c ∈ decimal n.port.toInt, c = '-' ∨ c.isDigit = true := fun c => mem_decimal
  refine ⟨by simp [connection, Network.getConnection], fun hc => ?_, fun hc => ?_⟩
  · rcases List.mem_append.mp hc with hc | hc
    · exact n.address_comma hc
    · rcases List.mem_cons.mp hc with hc | hc
      · cases hc
      · simpa [Char.isDigit] using hport _ hc
  · rcases List.mem_append.mp hc with hc | hc
    · exact n.address_zero hc
    · rcases List.mem_cons.mp hc with hc | hc
      · cases hc
      · simpa [Char.isDigit] using hport _ hc

end ListedNode

namespace Config

/-- Where a node is reached: the connection of its id, taken apart. -/
def endpoint (c : Config) (node_id : UInt64) : Option (List Char × UInt64) := do
  let conn ← c.getIPFromNodeId node_id
  let ipAddr ← Network.getAddressOfConnection conn
  let ipPort ← Network.getPortOfConnection conn
  return (ipAddr, ipPort)

/-- Once a file is loaded, each id leads to the node that stands in its place in the file's last
list, and an id without a place in it throws. -/
theorem endpoint_listed {files : List Char → Option (List Char)} {prog_name : List Char}
    {before c : Config} (hload : load files prog_name before = some c) (nodes : List ListedNode)
    (hnodes : Record.lastValue .dpiNodes (assignments ((files (confFile prog_name)).getD [])) =
      some (ListedNode.listed nodes)) (node_id : UInt64) :
    c.endpoint node_id = (nodes[(node_id - 1).toNat]?).map
      fun n => (n.address, UInt64.ofInt n.port.toInt) := by
  rw [load_eq_assignAll] at hload
  have hsetting := record.part_assignAll hload .dpiNodes
  rw [hnodes] at hsetting
  have htokens : initStrings (ListedNode.listed nodes) = nodes.map ListedNode.connection := by
    apply initStrings_intercalate
    intro w hw
    obtain ⟨n, -, rfl⟩ := List.mem_map.mp hw
    exact n.connection_token
  have hlist : c.dpiNodes = nodes.map ListedNode.connection := by
    simpa [record, setting, Setting.read, htokens] using hsetting
  rw [endpoint, getIPFromNodeId, hlist, List.getElem?_map]
  cases nodes[(node_id - 1).toNat]? with
  | none => rfl
  | some n =>
    simp [ListedNode.connection,
      Network.getAddressOfConnection_getConnection n.address_colon,
      Network.getPortOfConnection_getConnection n.address_colon]

theorem endpoint_listed_two_nodes :
    ({ default with
      dpiNodes := ["10.0.0.1:5400".toList, "10.0.0.2:5401".toList] } : Config).endpoint 2 =
      some ("10.0.0.2".toList, 5401) := by
  have hload : load (fun _ => some "#\nDPI_NODES = 10.0.0.1:5400,10.0.0.2:5401".toList) [] default =
      some { default with dpiNodes := ["10.0.0.1:5400".toList, "10.0.0.2:5401".toList] } := by
    decide
  exact endpoint_listed hload [⟨"10.0.0.1".toList, 5400, by decide, by decide, by decide⟩,
    ⟨"10.0.0.2".toList, 5401, by decide, by decide, by decide⟩] (by decide) 2

end Config
end DpiLibrary
