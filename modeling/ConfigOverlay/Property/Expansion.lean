import ConfigOverlay.Property.Resolve
import ConfigOverlay.Tree.Traversal

/-!
Expanding a tree: the placeholders of each attribute value and each text are expanded, in document
order, up to the first one that fails. What comes after it is left alone. The elements that an
expansion is in wait on a stack, the innermost one on top, so it needs no room for calls within
calls.
-/

set_option autoImplicit false

namespace ConfigOverlay

variable {η σ : Type}

structure ExpansionState (σ : Type) where
  session : Session σ
  stop : Option Stop

/-- Replaces a string, unless there has been a failure. -/
def expandStep (expand : String → Lookup σ String) (text : String) :
    StateM (ExpansionState σ) String := fun state =>
  match state.stop with
  | some _ => (text, state)
  | none =>
    match Lookup.fresh (expand text) state.session with
    | .ok value session => (value, ⟨session, none⟩)
    | .error stop session => (text, ⟨session, some stop⟩)

structure ExpansionFrame where
  tag : String
  attrs : Attributes
  /-- The children that are done, last one first. -/
  done : List Node
  ahead : List Node

def ExpansionFrame.attach (frame : ExpansionFrame) (node : Node) : ExpansionFrame :=
  { frame with done := node :: frame.done }

def ExpansionFrame.element (frame : ExpansionFrame) : Element :=
  ⟨frame.tag, frame.attrs, frame.done.reverse ++ frame.ahead⟩

inductive Expanding (σ : Type) where
  | ended (tree : Element) (state : ExpansionState σ)
  | running (session : Session σ) (top : ExpansionFrame) (below : List ExpansionFrame)

namespace Expanding

def whole (e : Element) : List ExpansionFrame → Element
  | [] => e
  | frame :: below => whole (frame.attach (.element e)).element below

def push (tag : String) (attrs : Attributes) (children : List Node) (state : ExpansionState σ)
    (below : List ExpansionFrame) : Expanding σ :=
  match state.stop with
  | none => .running state.session ⟨tag, attrs, [], children⟩ below
  | some _ => .ended (whole ⟨tag, attrs, children⟩ below) state

def enter (expand : String → Lookup σ String) (e : Element) (session : Session σ)
    (below : List ExpansionFrame) : Expanding σ :=
  let visited := (e.attrs.traverse (expandStep expand)).run ⟨session, none⟩
  push e.tag visited.1 e.children visited.2 below

def pass (frame : ExpansionFrame) (content : String) (state : ExpansionState σ)
    (below : List ExpansionFrame) : Expanding σ :=
  match state.stop with
  | none => .running state.session (frame.attach (.text content)) below
  | some _ => .ended (whole (frame.attach (.text content)).element below) state

def close (e : Element) (session : Session σ) : List ExpansionFrame → Expanding σ
  | [] => .ended e ⟨session, none⟩
  | parent :: below => .running session (parent.attach (.element e)) below

def next (expand : String → Lookup σ String) : Expanding σ → Expanding σ
  | .ended tree state => .ended tree state
  | .running session ⟨tag, attrs, done, ahead⟩ below =>
    match ahead with
    | [] => close ⟨tag, attrs, done.reverse⟩ session below
    | .element e :: rest => enter expand e session (⟨tag, attrs, done, rest⟩ :: below)
    | .text content :: rest =>
      let visited := (expandStep expand content).run ⟨session, none⟩
      pass ⟨tag, attrs, done, rest⟩ visited.1 visited.2 below
    | .comment content :: rest => .running session ⟨tag, attrs, .comment content :: done, rest⟩ below

end Expanding

def ExpansionFrame.work (frame : ExpansionFrame) : Nat := Node.turnsList frame.ahead + 1

namespace Expanding

def work : Expanding σ → Nat
  | .ended _ _ => 0
  | .running _ top below => ((top :: below).map ExpansionFrame.work).foldr (· + ·) 0

theorem work_push_le (tag : String) (attrs : Attributes) (children : List Node)
    (state : ExpansionState σ) (below : List ExpansionFrame) :
    (push tag attrs children state below).work ≤
      Node.turnsList children + 1 + (below.map ExpansionFrame.work).foldr (· + ·) 0 := by
  rw [push]
  split <;> simp [work, ExpansionFrame.work]

theorem work_pass_le (frame : ExpansionFrame) (content : String) (state : ExpansionState σ)
    (below : List ExpansionFrame) :
    (pass frame content state below).work ≤
      frame.work + (below.map ExpansionFrame.work).foldr (· + ·) 0 := by
  rw [pass]
  split <;> simp [work, ExpansionFrame.work, ExpansionFrame.attach]

theorem work_next_lt (expand : String → Lookup σ String) (session : Session σ)
    (top : ExpansionFrame) (below : List ExpansionFrame) :
    (next expand (.running session top below)).work < (running session top below).work := by
  obtain ⟨tag, attrs, done, ahead⟩ := top
  cases ahead with
  | nil => cases below <;> simp [next, close, work, ExpansionFrame.work, ExpansionFrame.attach]
  | cons node rest =>
    cases node with
    | element e =>
      obtain ⟨tag', attrs', children⟩ := e
      have hpush := work_push_le tag' ((attrs'.traverse (expandStep expand)).run ⟨session, none⟩).1
        children ((attrs'.traverse (expandStep expand)).run ⟨session, none⟩).2
        (⟨tag, attrs, done, rest⟩ :: below)
      simp only [next, enter, work, List.map_cons, List.foldr_cons, ExpansionFrame.work,
        Node.turnsList, Node.turns, Element.turns] at hpush ⊢
      omega
    | text content =>
      have hpass := work_pass_le ⟨tag, attrs, done, rest⟩
        ((expandStep expand content).run ⟨session, none⟩).1
        ((expandStep expand content).run ⟨session, none⟩).2 below
      simp only [next, work, List.map_cons, List.foldr_cons, ExpansionFrame.work, Node.turnsList,
        Node.turns] at hpass ⊢
      omega
    | comment content =>
      simp only [next, work, List.map_cons, List.foldr_cons, ExpansionFrame.work, Node.turnsList,
        Node.turns]
      omega

def result (expand : String → Lookup σ String) : Expanding σ → Element × ExpansionState σ
  | .ended tree state => (tree, state)
  | .running session top below => (next expand (.running session top below)).result expand
termination_by expanding => expanding.work
decreasing_by exact work_next_lt expand session top below

end Expanding

def Element.expandWith (expand : String → Lookup σ String) (e : Element) (session : Session σ) :
    Element × ExpansionState σ :=
  (Expanding.enter expand e session []).result expand

def Element.expand (around : Surroundings η σ) (chain : Resolver η) (e : Element)
    (session : Session σ) : Element × ExpansionState σ :=
  e.expandWith (chain.expandSized around (chain.valueSize around.environment)) session

end ConfigOverlay
