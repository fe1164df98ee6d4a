import ConfigOverlay.Text.Basic
import ConfigOverlay.Tree.Attributes

/-!
Configuration trees. An element has a tag, attributes and a list of child nodes; texts and comments
are leaves. Nothing is normalised: adjacent and empty texts are nodes of their own.
-/

set_option autoImplicit false

namespace ConfigOverlay

mutual
structure Element where
  tag : String
  attrs : Attributes
  children : List Node

inductive Node where
  | element (e : Element)
  | text (content : String)
  | comment (content : String)
end

mutual
def Element.decEq : (a b : Element) → Decidable (a = b)
  | ⟨tag, attrs, children⟩, ⟨tag', attrs', children'⟩ =>
    if h : tag = tag' ∧ attrs = attrs' then
      match Node.decEqList children children' with
      | isTrue hc => isTrue (by rw [h.1, h.2, hc])
      | isFalse hc => isFalse fun h => hc (by injection h)
    else isFalse fun h' => h (by injection h' with h₁ h₂; exact ⟨h₁, h₂⟩)

def Node.decEq : (a b : Node) → Decidable (a = b)
  | .element a, .element b =>
    match Element.decEq a b with
    | isTrue h => isTrue (by rw [h])
    | isFalse h => isFalse fun h' => h (by injection h')
  | .text a, .text b =>
    if h : a = b then isTrue (by rw [h]) else isFalse fun h' => h (by injection h')
  | .comment a, .comment b =>
    if h : a = b then isTrue (by rw [h]) else isFalse fun h' => h (by injection h')
  | .element _, .text _ | .element _, .comment _ | .text _, .element _
  | .text _, .comment _ | .comment _, .element _ | .comment _, .text _ =>
    isFalse (by simp)

def Node.decEqList : (as bs : List Node) → Decidable (as = bs)
  | [], [] => isTrue rfl
  | [], _ :: _ | _ :: _, [] => isFalse (by simp)
  | a :: as, b :: bs =>
    match Node.decEq a b, Node.decEqList as bs with
    | isTrue h, isTrue hs => isTrue (by rw [h, hs])
    | isFalse h, _ => isFalse fun h' => h (by injection h')
    | _, isFalse hs => isFalse fun h' => hs (by injection h')
end

instance : DecidableEq Element := Element.decEq

instance : DecidableEq Node := Node.decEq

instance : Inhabited Element := ⟨⟨"", .empty, []⟩⟩

instance : Inhabited Node := ⟨.text ""⟩

/-- Comments and blank texts: layout, which rides along with the element it stands before. -/
def Node.isLayout : Node → Bool
  | .element _ => false
  | .text content => Text.isBlankText content
  | .comment _ => true

def Node.isText : Node → Bool
  | .text _ => true
  | _ => false

def Node.element? : Node → Option Element
  | .element e => some e
  | _ => none

def Element.elements (e : Element) : List Element := e.children.filterMap Node.element?

def Element.mapElements (f : Element → Element) (e : Element) : Element :=
  { e with
    children := e.children.map fun
      | .element child => .element (f child)
      | node => node }

def Element.addChild (e : Element) (node : Node) : Element :=
  { e with children := e.children ++ [node] }

def Element.id? (e : Element) : Option String := e.attrs.get? "id"

mutual
def Element.valueSize : Element → Nat
  | ⟨_, attrs, children⟩ => attrs.valueSize + Node.valueSizes children

def Node.valueSize : Node → Nat
  | .element e => e.valueSize
  | .text content => content.length + 1
  | .comment _ => 0

def Node.valueSizes : List Node → Nat
  | [] => 0
  | node :: rest => node.valueSize + Node.valueSizes rest
end

mutual
/-- How many turns it takes to go into an element, through all that is below it, and come back. -/
def Element.turns : Element → Nat
  | ⟨_, _, children⟩ => Node.turnsList children + 2

def Node.turns : Node → Nat
  | .element e => e.turns
  | .text _ => 1
  | .comment _ => 1

def Node.turnsList : List Node → Nat
  | [] => 0
  | node :: rest => node.turns + Node.turnsList rest
end

/-- Puts the texts in lists of nodes behind `out`, in document order. The lists wait on a stack, the
innermost one on top. -/
def Node.gather (out : String) : List (List Node) → String
  | [] => out
  | [] :: below => gather out below
  | (.element ⟨_, _, children⟩ :: rest) :: below => gather out (children :: rest :: below)
  | (.text content :: rest) :: below => gather (out ++ content) (rest :: below)
  | (.comment _ :: rest) :: below => gather out (rest :: below)
termination_by stack => (stack.map fun nodes => turnsList nodes + 1).foldr (· + ·) 0
decreasing_by
  all_goals simp only [List.map_cons, List.foldr_cons, turnsList, turns, Element.turns]
  all_goals omega

def Node.contents (nodes : List Node) : String := gather "" [nodes]

def Element.content (e : Element) : String := Node.contents e.children

def Node.content : Node → String
  | .element e => e.content
  | .text content => content
  | .comment _ => ""

namespace Node

theorem gather_append (before out : String) (stack : List (List Node)) :
    gather (before ++ out) stack = before ++ gather out stack := by
  induction out, stack using gather.induct with
  | case1 out => simp only [gather]
  | case2 out below ih => simpa only [gather] using ih
  | case3 out tag attrs children rest below ih => simpa only [gather] using ih
  | case4 out content rest below ih => simpa only [gather, String.append_assoc] using ih
  | case5 out content rest below ih => simpa only [gather] using ih

theorem gather_stack_append (out : String) (above below : List (List Node)) :
    gather out (above ++ below) = gather (gather out above) below := by
  induction out, above using gather.induct with
  | case1 out => simp only [gather, List.nil_append]
  | case2 out above ih => simpa only [gather, List.cons_append] using ih
  | case3 out tag attrs children rest above ih => simpa only [gather, List.cons_append] using ih
  | case4 out content rest above ih => simpa only [gather, List.cons_append] using ih
  | case5 out content rest above ih => simpa only [gather, List.cons_append] using ih

theorem contents_nil : contents [] = "" := by
  rw [contents, gather, gather]

theorem contents_cons (node : Node) (rest : List Node) :
    contents (node :: rest) = node.content ++ contents rest := by
  have hrest (out : String) : gather out [rest] = out ++ contents rest := by
    rw [contents, ← gather_append, String.append_empty]
  cases node with
  | element e =>
    obtain ⟨tag, attrs, children⟩ := e
    rw [contents, gather, ← List.singleton_append, gather_stack_append, hrest]
    rfl
  | text content => rw [contents, gather, hrest, String.empty_append, Node.content]
  | comment content => rw [contents, gather, hrest, Node.content]

end Node

theorem Element.sizeOf_child_lt {e child : Element} (h : .element child ∈ e.children) :
    sizeOf child < sizeOf e := by
  cases e with
  | mk tag attrs children =>
    have := List.sizeOf_lt_of_mem h
    simp only [Node.element.sizeOf_spec, Element.mk.sizeOf_spec] at *
    omega

end ConfigOverlay
