import ConfigOverlay.Markup.CharacterData
import ConfigOverlay.Tree.Basic

set_option autoImplicit false

namespace ConfigOverlay.Markup

/-- Here and below, what is written stands in front of `tail`. -/
def writeAttribute (name value : String) (tail : List Char) : List Char :=
  ' ' :: name.toList ++ '=' :: '"' :: encode value.toList ++ '"' :: tail

def writeEntries : List (String × String) → List Char → List Char
  | [], tail => tail
  | (name, value) :: rest, tail => writeAttribute name value (writeEntries rest tail)

inductive WriteStep where
  | enter (e : Element)
  | text (content : String)
  | comment (content : String)
  | close (tag : String)

namespace WriteStep

def ofNode : Node → WriteStep
  | .element e => .enter e
  | .text content => .text content
  | .comment content => .comment content

def event : WriteStep → List Char
  | .enter ⟨tag, attrs, []⟩ => '<' :: tag.toList ++ writeEntries attrs.entries ['/', '>']
  | .enter ⟨tag, attrs, _ :: _⟩ => '<' :: tag.toList ++ writeEntries attrs.entries ['>']
  | .text content => encode content.toList
  | .comment content => '<' :: '!' :: '-' :: '-' :: content.toList ++ ['-', '-', '>']
  | .close tag => '<' :: '/' :: tag.toList ++ ['>']

def opened : WriteStep → List WriteStep
  | .enter ⟨tag, _, node :: rest⟩ => (node :: rest).map ofNode ++ [.close tag]
  | _ => []

/-- How many turns the step takes, with all that comes of it, before another `n`. -/
def work : WriteStep → Nat → Nat
  | .enter e, n => e.turns + n
  | .text _, n | .comment _, n | .close _, n => n + 1

theorem foldr_work_ofNode (nodes : List Node) (n : Nat) :
    (nodes.map ofNode).foldr work n = Node.turnsList nodes + n := by
  induction nodes with
  | nil => exact (Nat.zero_add n).symm
  | cons node rest ih =>
    rw [List.map_cons, List.foldr_cons, ih, Node.turnsList]
    cases node <;> simp only [ofNode, work, Node.turns] <;> omega

theorem foldr_work_opened_lt (step : WriteStep) (n : Nat) :
    step.opened.foldr work n < step.work n := by
  cases step with
  | enter e =>
    obtain ⟨tag, attrs, children⟩ := e
    cases children with
    | nil =>
      simp only [opened, work, Element.turns, List.foldr_nil]
      omega
    | cons node rest =>
      rw [opened, List.foldr_append, foldr_work_ofNode]
      simp only [work, Element.turns, List.foldr_cons, List.foldr_nil]
      omega
  | text content => exact Nat.lt_succ_self n
  | comment content => exact Nat.lt_succ_self n
  | close tag => exact Nat.lt_succ_self n

end WriteStep

def writeSteps (out : String) : List WriteStep → String
  | [] => out
  | step :: below => writeSteps (out ++ String.ofList step.event) (step.opened ++ below)
termination_by stack => stack.foldr WriteStep.work 0
decreasing_by
  rw [List.foldr_append]
  exact step.foldr_work_opened_lt _

end ConfigOverlay.Markup

namespace ConfigOverlay

def Element.toMarkup (e : Element) : String := Markup.writeSteps "" [.enter e]

end ConfigOverlay
