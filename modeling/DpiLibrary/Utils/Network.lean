import DpiLibrary.Foundation.Numerals

/-!
# Connections

A connection is an address and a port with a colon between them.
-/

namespace DpiLibrary
namespace Network

open Numerals

def getConnection (address : List Char) (port : Int32) : List Char :=
  address ++ ':' :: decimal port.toInt

/-- `none` when it throws. -/
def getAddressOfConnection (conn : List Char) : Option (List Char) :=
  if ':' ∈ conn then some (conn.takeWhile (· ≠ ':')) else none

/-- `none` when it throws, by itself or out of `stoi`. A negative `int` wraps around in the
result. -/
def getPortOfConnection (conn : List Char) : Option UInt64 :=
  if ':' ∈ conn then (stoi (conn.dropWhile (· ≠ ':')).tail).map UInt64.ofInt else none

end Network
end DpiLibrary
