import ConfigOverlay.Merge.Basic
import ConfigOverlay.Merge.Sweep

set_option autoImplicit false

namespace ConfigOverlay

structure Layers where
  merged : Option Element
  count : Nat
  deriving DecidableEq

namespace Layers

def empty : Layers := ⟨none, 0⟩

/-- Adds a layer. It may not remove the root. -/
def push (layers : Layers) (layer : Element) : Except MergeError Layers :=
  match layers.merged with
  | none => .ok ⟨some layer, layers.count + 1⟩
  | some below =>
    match merge (some below) layer with
    | .error e => .error e
    | .ok none => .error (.rootRemoved (layers.count + 1) layer.tag)
    | .ok (some merged) => .ok ⟨some merged, layers.count + 1⟩

def pushAll (layers : Layers) : List Element → Except MergeError Layers
  | [] => .ok layers
  | layer :: rest =>
    match layers.push layer with
    | .error e => .error e
    | .ok layers => pushAll layers rest

def finish (layers : Layers) : Except MergeError Element :=
  match layers.merged with
  | none => .error .noInput
  | some root => root.sweep

end Layers

def mergeLayers (layers : List Element) : Except MergeError Element :=
  match Layers.empty.pushAll layers with
  | .error e => .error e
  | .ok layers => layers.finish

end ConfigOverlay
