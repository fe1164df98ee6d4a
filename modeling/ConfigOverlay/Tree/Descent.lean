import ConfigOverlay.Tree.Basic

/-!
Changing a tree from its root downwards. The elements that are under way wait on a stack, so no call
stands within another one, however deep the tree is.
-/

set_option autoImplicit false

namespace ConfigOverlay

variable {ε : Type}

/-- What happens to an element when it is met: its attributes from then on, and the children that it
keeps, last one first, in which the descent then goes on. There are no more of them than before. -/
structure Visit (ε : Type) where
  run : Element → Except ε (Attributes × List Node)
  turnsList_le {e : Element} {attrs : Attributes} {kept : List Node} :
    run e = .ok (attrs, kept) → Node.turnsList kept ≤ Node.turnsList e.children

structure DescentFrame where
  tag : String
  attrs : Attributes
  /-- The children in which the descent has not been, last one first. -/
  ahead : List Node
  done : List Node

inductive Descending (ε : Type) where
  | ended (result : Except ε Element)
  | running (top : DescentFrame) (below : List DescentFrame)

namespace Descending

variable (visit : Visit ε)

def enter (e : Element) (below : List DescentFrame) : Descending ε :=
  match visit.run e with
  | .error fault => .ended (.error fault)
  | .ok (attrs, kept) => .running ⟨e.tag, attrs, kept, []⟩ below

def close (e : Element) : List DescentFrame → Descending ε
  | [] => .ended (.ok e)
  | parent :: below => .running { parent with done := .element e :: parent.done } below

def next : Descending ε → Descending ε
  | .ended result => .ended result
  | .running ⟨tag, attrs, ahead, done⟩ below =>
    match ahead with
    | [] => close ⟨tag, attrs, done⟩ below
    | .element e :: rest => enter visit e (⟨tag, attrs, rest, done⟩ :: below)
    | .text content :: rest => .running ⟨tag, attrs, rest, .text content :: done⟩ below
    | .comment content :: rest => .running ⟨tag, attrs, rest, .comment content :: done⟩ below

end Descending

def DescentFrame.work (frame : DescentFrame) : Nat := Node.turnsList frame.ahead + 1

namespace Descending

def work : Descending ε → Nat
  | .ended _ => 0
  | .running top below => ((top :: below).map DescentFrame.work).foldr (· + ·) 0

variable (visit : Visit ε)

theorem work_enter_lt (e : Element) (below : List DescentFrame) :
    (enter visit e below).work < e.turns + (below.map DescentFrame.work).foldr (· + ·) 0 := by
  obtain ⟨tag, attrs, children⟩ := e
  rw [enter, Element.turns]
  split
  · simp only [work]
    omega
  · next attrs' kept hrun =>
    have := visit.turnsList_le hrun
    simp only [work, List.map_cons, List.foldr_cons, DescentFrame.work] at this ⊢
    omega

theorem work_next_lt (top : DescentFrame) (below : List DescentFrame) :
    (next visit (.running top below)).work < (running top below : Descending ε).work := by
  obtain ⟨tag, attrs, ahead, done⟩ := top
  cases ahead with
  | nil =>
    cases below with
    | nil => simp [next, close, work, DescentFrame.work]
    | cons parent below =>
      simp only [next, close, work, List.map_cons, List.foldr_cons, DescentFrame.work]
      omega
  | cons node rest =>
    cases node with
    | element e =>
      have := work_enter_lt visit e (⟨tag, attrs, rest, done⟩ :: below)
      simp only [next, work, List.map_cons, List.foldr_cons, DescentFrame.work, Node.turnsList,
        Node.turns] at this ⊢
      omega
    | text content =>
      simp only [next, work, List.map_cons, List.foldr_cons, DescentFrame.work, Node.turnsList,
        Node.turns]
      omega
    | comment content =>
      simp only [next, work, List.map_cons, List.foldr_cons, DescentFrame.work, Node.turnsList,
        Node.turns]
      omega

def result : Descending ε → Except ε Element
  | .ended result => result
  | .running top below => (next visit (.running top below)).result
termination_by descending => descending.work
decreasing_by exact work_next_lt visit top below

end Descending

def Element.descend (visit : Visit ε) (e : Element) : Except ε Element :=
  (Descending.enter visit e []).result visit

theorem Node.turnsList_append (nodes others : List Node) :
    turnsList (nodes ++ others) = turnsList nodes + turnsList others := by
  induction nodes with
  | nil => simp [turnsList]
  | cons node rest ih => rw [List.cons_append, turnsList, turnsList, ih, Nat.add_assoc]

theorem Node.turnsList_reverse (nodes : List Node) :
    turnsList nodes.reverse = turnsList nodes := by
  induction nodes with
  | nil => rfl
  | cons node rest ih =>
    rw [List.reverse_cons, turnsList_append, ih]
    simp only [turnsList]
    omega

def Visit.ofAttributes (f : Attributes → Attributes) : Visit ε where
  run e := .ok (f e.attrs, e.children.reverse)
  turnsList_le {e attrs kept} h := by
    cases h
    exact Nat.le_of_eq (Node.turnsList_reverse e.children)

end ConfigOverlay
