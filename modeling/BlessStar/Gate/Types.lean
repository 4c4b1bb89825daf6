import BlessStar.Lib.ByteString

/-!
# Gate nodes

`bs_gate_node_t` and `bs_gate_chain_t` of `gate_chain_types.h`, and the C
library's numbers.
-/

namespace BlessStar.Gate

open Lib.ByteString

/-- What the gate code uses of `double`: `strtod` with the number of bytes it
read, `%g`, and the comparisons. -/
structure CDouble (ν : Type) where
  strtod : Bytes → ν × Nat
  formatG : ν → Bytes
  lt : ν → ν → Bool
  le : ν → ν → Bool

def gateLayerDefault : Int := 0

/-- The fields of `bs_gate_node_t` other than its edges; `none` is `NULL`. -/
structure GateScalars where
  type : Option Bytes := none
  id : Option Bytes := none
  fieldKey : Option Bytes := none
  op : Option Bytes := none
  value : Option Bytes := none
  stableKey : Option Bytes := none
  layer : Int := gateLayerDefault
  subCategory : Option Bytes := none
  domain : Option Bytes := none
  entity : Option Bytes := none

inductive GateNode
  | mk (scalars : GateScalars) (children doNodes : List GateNode)

namespace GateNode

def scalars : GateNode → GateScalars
  | mk s _ _ => s

def children : GateNode → List GateNode
  | mk _ cs _ => cs

def doNodes : GateNode → List GateNode
  | mk _ _ ds => ds

def create (type : Bytes) (id : Option Bytes) : GateNode := mk { type := some type, id := id } [] []

/-- `bs_gate_node_link_child`; a null child is refused. -/
def linkChild (n : GateNode) (child : Option GateNode) : GateNode :=
  mk n.scalars (n.children ++ child.toList) n.doNodes

def linkDo (n : GateNode) (doNode : Option GateNode) : GateNode :=
  mk n.scalars n.children (n.doNodes ++ doNode.toList)

end GateNode

/-- `bs_gate_chain_t` without its map; `bs_gate_chain_create` sets the version. -/
structure GateChain where
  root : Option GateNode := none
  version : Option Bytes := some (ascii "1.0")

end BlessStar.Gate
