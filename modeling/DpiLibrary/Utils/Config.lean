import DpiLibrary.Foundation.Numerals
import DpiLibrary.Foundation.TextLines

/-!
# Configuration

`Config` holds what every part of the library starts from. The values that it has from the start
are replaced by the assignments of a configuration file, which are read line by line. A number
that cannot be read throws out of `load`.
-/

namespace DpiLibrary

open Numerals TextLines

/-- What a configuration file can set. -/
structure Config where
  dpiRegistryServer : List Char
  dpiRegistryPort : UInt32
  dpiNodes : List (List Char)
  rdmaMemsize : UInt64
  rdmaPort : UInt32
  rdmaNumaregion : UInt32
  rdmaDevice : UInt32
  rdmaIbport : UInt32
  threadCpus : List Int32
  loggingLevel : Int32
  deriving DecidableEq

namespace Config

def default : Config where
  dpiRegistryServer := "10.116.60.16".toList
  dpiRegistryPort := 5300
  dpiNodes := ["10.116.60.16:5400".toList]
  rdmaMemsize := 1024 * 1024 * 1024 * 5
  rdmaPort := 5200
  rdmaNumaregion := 1
  rdmaDevice := 1
  rdmaIbport := 1
  threadCpus := [10, 11, 12, 13, 14, 15, 16, 17, 18, 19, 30, 31, 32, 33, 34, 35, 36, 37, 38, 39]
  loggingLevel := 0

/-- `DPI_NODES.at(node_id - 1)`; the difference of an id that is zero wraps around. -/
def getIPFromNodeId (c : Config) (node_id : UInt64) : Option (List Char) :=
  c.dpiNodes[(node_id - 1).toNat]?

def trim (str : List Char) : List Char := TextLines.trim ' ' str

/-- `c_str`, as it is read: up to the first zero byte. -/
def cString (str : List Char) : List Char := str.takeWhile (· ≠ '\x00')

/-- `init_vector` of strings. -/
def initStrings (csv_list : List Char) : List (List Char) := tokens ',' (cString csv_list)

/-- `init_vector` of integers. -/
def initIntegers (csv_list : List Char) : Option (List Int32) :=
  (tokens ',' (cString csv_list)).mapM fun token => (stoi token).map Int32.ofInt

/-- `none` when `stoi` throws. -/
def set (c : Config) (key : String) (value : List Char) : Option Config :=
  if key = "RDMA_PORT" then
    (stoi value).map fun n => { c with rdmaPort := UInt32.ofInt n }
  else if key = "RDMA_MEMSIZE" then
    some { c with rdmaMemsize := UInt64.ofNat (strtoul (cString value)) }
  else if key = "RDMA_NUMAREGION" then
    (stoi value).map fun n => { c with rdmaNumaregion := UInt32.ofInt n }
  else if key = "RDMA_DEVICE" then
    (stoi value).map fun n => { c with rdmaDevice := UInt32.ofInt n }
  else if key = "RDMA_IBPORT" then
    (stoi value).map fun n => { c with rdmaIbport := UInt32.ofInt n }
  else if key = "THREAD_CPUS" then
    (initIntegers value).map fun values => { c with threadCpus := values }
  else if key = "DPI_REGISTRY_SERVER" then
    some { c with dpiRegistryServer := cString value }
  else if key = "DPI_REGISTRY_PORT" then
    (stoi value).map fun n => { c with dpiRegistryPort := UInt32.ofInt n }
  else if key = "DPI_NODES" then
    some { c with dpiNodes := initStrings value }
  else if key = "LOGGING_LEVEL" then
    (stoi value).map fun n => { c with loggingLevel := Int32.ofInt n }
  else some c

/-- The name of the configuration file, which lies in a directory beside the program. -/
def confFile (prog_name : List Char) : List Char :=
  (if '/' ∈ prog_name then (prog_name.rdropWhile (· ≠ '/')).dropLast else ['.']) ++
    "/conf/DPI.conf".toList

/-- What stands before and behind the first equals sign. Without one `find` gives `npos`, which is
minus one as an `int`, and both are the whole line. -/
def splitLine (line : List Char) : List Char × List Char :=
  if '=' ∈ line then (line.takeWhile (· ≠ '='), (line.dropWhile (· ≠ '=')).tail)
  else (line, line)

/-- The body of the loop of `load`. -/
def loadLine (c : Config) (line : List Char) : Option Config :=
  if line.length = 0 then some c
  else if line.head? = some '#' then some c
  else if line.head? = some ';' then some c
  else
    let (key, value) := splitLine line
    c.set (String.ofList (trim key)) (trim value)

/-- `load`, given the files that can be opened. `getline` finds no line in a file that could not be
opened. -/
def load (files : List Char → Option (List Char)) (prog_name : List Char) (c : Config) :
    Option Config :=
  (lines '\n' ((files (confFile prog_name)).getD [])).foldlM loadLine c

end Config
end DpiLibrary
