import ConfigOverlay.Tree.Basic

/-!
The children of an element as siblings: each child element with the layout that stands directly
before it, and the nodes that belong to no element.
-/

set_option autoImplicit false

namespace ConfigOverlay

structure Key where
  tag : String
  id : Option String
  deriving DecidableEq, Repr

def Element.key (e : Element) : Key := ⟨e.tag, e.id?⟩

structure Sibling where
  leading : List Node
  element : Element

def Sibling.key (s : Sibling) : Key := s.element.key

/-- Stray nodes are texts that are not blank and layout with no element after it, in their order. -/
structure Siblings where
  elements : List Sibling
  stray : List Node

namespace Siblings

def empty : Siblings := ⟨[], []⟩

def consElement (leading : List Node) (e : Element) (s : Siblings) : Siblings :=
  ⟨⟨leading, e⟩ :: s.elements, s.stray⟩

def consStray (nodes : List Node) (s : Siblings) : Siblings := ⟨s.elements, nodes ++ s.stray⟩

/-- Groups nodes behind a run of layout of which it is not yet known what it belongs to. -/
def group : List Node → List Node → Siblings
  | pending, [] => ⟨[], pending⟩
  | pending, .element e :: rest => (group [] rest).consElement pending e
  | pending, .text content :: rest =>
    if (Node.text content).isLayout then group (pending ++ [.text content]) rest
    else (group [] rest).consStray (pending ++ [.text content])
  | pending, .comment content :: rest => group (pending ++ [.comment content]) rest

def ofNodes (nodes : List Node) : Siblings := group [] nodes

def hasText (s : Siblings) : Bool := s.stray.any fun node => node.isText && !node.isLayout

def hasBlankText (s : Siblings) : Bool := s.stray.any fun node => node.isText && node.isLayout

theorem element_mem_of_mem_group {pending nodes : List Node} {s : Sibling}
    (h : s ∈ (group pending nodes).elements) : Node.element s.element ∈ nodes := by
  induction nodes generalizing pending with
  | nil => simp [group] at h
  | cons node rest ih =>
    cases node with
    | element e =>
      simp only [group, consElement, List.mem_cons] at h
      rcases h with rfl | h
      · simp
      · exact List.mem_cons_of_mem _ (ih h)
    | text content =>
      simp only [group] at h
      split at h
      · exact List.mem_cons_of_mem _ (ih h)
      · exact List.mem_cons_of_mem _ (ih h)
    | comment content => exact List.mem_cons_of_mem _ (ih h)

theorem element_mem_of_mem {nodes : List Node} {s : Sibling} (h : s ∈ (ofNodes nodes).elements) :
    Node.element s.element ∈ nodes :=
  element_mem_of_mem_group h

end Siblings

end ConfigOverlay
