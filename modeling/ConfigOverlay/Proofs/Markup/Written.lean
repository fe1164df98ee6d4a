import ConfigOverlay.Markup.Writer

set_option autoImplicit false

namespace ConfigOverlay.Markup

mutual
/-- What is written for the element stands in front of `tail`. -/
def writeElement : Element → List Char → List Char
  | ⟨tag, attrs, []⟩, tail => '<' :: tag.toList ++ writeEntries attrs.entries ('/' :: '>' :: tail)
  | ⟨tag, attrs, node :: rest⟩, tail =>
    '<' :: tag.toList ++ writeEntries attrs.entries
      ('>' :: writeNode node (writeNodes rest ('<' :: '/' :: tag.toList ++ '>' :: tail)))

def writeNode : Node → List Char → List Char
  | .element e, tail => writeElement e tail
  | .text content, tail => encode content.toList ++ tail
  | .comment content, tail =>
    '<' :: '!' :: '-' :: '-' :: content.toList ++ '-' :: '-' :: '>' :: tail

def writeNodes : List Node → List Char → List Char
  | [], tail => tail
  | node :: rest, tail => writeNode node (writeNodes rest tail)
end

theorem writeEntries_append (entries : List (String × String)) (tail others : List Char) :
    writeEntries entries (tail ++ others) = writeEntries entries tail ++ others := by
  induction entries with
  | nil => rfl
  | cons entry rest ih => simp [writeEntries, writeAttribute, ih]

namespace WriteStep

def write : WriteStep → List Char → List Char
  | .enter e, tail => writeElement e tail
  | .text content, tail => writeNode (.text content) tail
  | .comment content, tail => writeNode (.comment content) tail
  | .close tag, tail => '<' :: '/' :: tag.toList ++ '>' :: tail

theorem write_ofNode (node : Node) (tail : List Char) :
    (ofNode node).write tail = writeNode node tail := by
  cases node with
  | element e => rw [ofNode, write, writeNode]
  | text content => rfl
  | comment content => rfl

theorem foldr_write_ofNode (nodes : List Node) (tail : List Char) :
    (nodes.map ofNode).foldr write tail = writeNodes nodes tail := by
  induction nodes with
  | nil => rfl
  | cons node rest ih => rw [List.map_cons, List.foldr_cons, ih, write_ofNode, writeNodes]

theorem event_append_opened (step : WriteStep) (tail : List Char) :
    step.event ++ step.opened.foldr write tail = step.write tail := by
  cases step with
  | enter e =>
    obtain ⟨tag, attrs, children⟩ := e
    cases children with
    | nil => simp [event, opened, write, writeElement, ← writeEntries_append]
    | cons node rest =>
      rw [opened, List.foldr_append, foldr_write_ofNode]
      simp [event, write, writeElement, writeNodes, ← writeEntries_append]
  | text content => simp [event, opened, write, writeNode]
  | comment content => simp [event, opened, write, writeNode]
  | close tag => simp [event, opened, write]

end WriteStep

theorem writeSteps_eq (out : String) (stack : List WriteStep) :
    writeSteps out stack = out ++ String.ofList (stack.foldr WriteStep.write []) := by
  induction out, stack using writeSteps.induct with
  | case1 out => simp [writeSteps]
  | case2 out step below ih =>
    rw [writeSteps, ih, List.foldr_append, String.append_assoc, ← String.ofList_append,
      WriteStep.event_append_opened, List.foldr_cons]

end ConfigOverlay.Markup

theorem ConfigOverlay.Element.toMarkup_eq (e : Element) :
    e.toMarkup = String.ofList (Markup.writeElement e []) := by
  rw [toMarkup, Markup.writeSteps_eq, String.empty_append]
  rfl
