import ConfigOverlay.Tree.Basic

set_option autoImplicit false

namespace ConfigOverlay

variable {m : Type → Type} [Monad m]

def traverseEntries (f : String → m String) : List (String × String) → m (List (String × String))
  | [] => pure []
  | (name, value) :: rest => do
    let value ← f value
    let rest ← traverseEntries f rest
    pure ((name, value) :: rest)

def Attributes.traverse (f : String → m String) (attrs : Attributes) : m Attributes := do
  let entries ← traverseEntries f attrs.entries
  pure ⟨entries⟩

mutual
/-- Puts the result of `f` in the place of each string, in order. -/
def Element.traverse (f : String → m String) : Element → m Element
  | ⟨tag, attrs, children⟩ => do
    let attrs ← attrs.traverse f
    let children ← Node.traverseList f children
    pure ⟨tag, attrs, children⟩

def Node.traverse (f : String → m String) : Node → m Node
  | .element e => do
    let e ← e.traverse f
    pure (.element e)
  | .text content => do
    let content ← f content
    pure (.text content)
  | .comment content => pure (.comment content)

def Node.traverseList (f : String → m String) : List Node → m (List Node)
  | [] => pure []
  | node :: rest => do
    let node ← node.traverse f
    let rest ← Node.traverseList f rest
    pure (node :: rest)
end

end ConfigOverlay
