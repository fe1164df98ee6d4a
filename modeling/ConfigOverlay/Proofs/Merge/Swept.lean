import ConfigOverlay.Merge.Sweep
import ConfigOverlay.Proofs.Tree.Descent
import Mathlib.Data.List.DropRight

/-!
What a sweep comes to. A child goes if it is a skeleton, or layout with nothing but layout between
it and one; all others stay in their order, and the same is done below them. A turn of the sweep
does not change what its stack comes to.
-/

set_option autoImplicit false

namespace ConfigOverlay

def Element.isSkeleton (e : Element) : Bool := e.Declares .defaults

def leadsToSkeleton : List Node → Bool
  | [] => false
  | .element e :: _ => e.isSkeleton
  | node :: rest => node.isLayout && leadsToSkeleton rest

mutual
def Element.swept : Element → Element
  | ⟨tag, attrs, children⟩ => ⟨tag, attrs, Node.sweptList children⟩

def Node.sweptList : List Node → List Node
  | [] => []
  | .element e :: rest =>
    if e.isSkeleton then Node.sweptList rest else .element e.swept :: Node.sweptList rest
  | .text content :: rest =>
    if (Node.text content).isLayout && leadsToSkeleton rest then Node.sweptList rest
    else .text content :: Node.sweptList rest
  | .comment content :: rest =>
    if leadsToSkeleton rest then Node.sweptList rest
    else .comment content :: Node.sweptList rest
end

def Element.selfFault? (e : Element) : Option MergeError :=
  match e.selfPolicy with
  | .error fault => some fault
  | .ok _ => none

def Node.selfFault? (nodes : List Node) : Option MergeError :=
  nodes.findSome? fun node => node.element?.bind Element.selfFault?

mutual
/-- The fault that a sweep meets first. It reads the children's policies in their order, and then
those below the children that stay, the last child first. -/
def Element.sweepFault? : Element → Option MergeError
  | ⟨_, _, children⟩ => (Node.selfFault? children).orElse fun _ => Node.sweepFaultBelow? children

def Node.sweepFaultBelow? : List Node → Option MergeError
  | [] => none
  | .element e :: rest =>
    (Node.sweepFaultBelow? rest).orElse fun _ => if e.isSkeleton then none else e.sweepFault?
  | .text _ :: rest => Node.sweepFaultBelow? rest
  | .comment _ :: rest => Node.sweepFaultBelow? rest
end

def Node.staying : List Node → List Node
  | [] => []
  | .element e :: rest => if e.isSkeleton then staying rest else .element e :: staying rest
  | .text content :: rest =>
    if (Node.text content).isLayout && leadsToSkeleton rest then staying rest
    else .text content :: staying rest
  | .comment content :: rest =>
    if leadsToSkeleton rest then staying rest else .comment content :: staying rest

def Node.swept : Node → Node
  | .element e => .element e.swept
  | .text content => .text content
  | .comment content => .comment content

def Node.sweepFault? (node : Node) : Option MergeError := node.element?.bind Element.sweepFault?

namespace Node

theorem sweptList_eq (nodes : List Node) : sweptList nodes = (staying nodes).map swept := by
  induction nodes with
  | nil => rfl
  | cons node rest ih =>
    cases node with
    | element e => cases h : e.isSkeleton <;> simp [sweptList, staying, h, ih, swept]
    | text content =>
      rw [sweptList, staying, ih]
      split <;> rfl
    | comment content =>
      rw [sweptList, staying, ih]
      split <;> rfl

theorem findSome?_staying (nodes : List Node) :
    (staying nodes).reverse.findSome? sweepFault? = sweepFaultBelow? nodes := by
  induction nodes with
  | nil => rfl
  | cons node rest ih =>
    cases node with
    | element e =>
      rw [staying, sweepFaultBelow?, Option.orElse_eq_or, ← ih]
      cases h : e.isSkeleton with
      | true => simp
      | false => simp [List.findSome?_append, sweepFault?, element?]
    | text content =>
      rw [staying, sweepFaultBelow?, ← ih]
      split
      · rfl
      · simp [List.findSome?_append, sweepFault?, element?]
    | comment content =>
      rw [staying, sweepFaultBelow?, ← ih]
      split
      · rfl
      · simp [List.findSome?_append, sweepFault?, element?]

theorem selfFault?_cons (node : Node) (rest : List Node) :
    selfFault? (node :: rest) = (node.element?.bind Element.selfFault?).or (selfFault? rest) := by
  rw [selfFault?, List.findSome?_cons]
  cases node.element?.bind Element.selfFault? <;> rfl

/-- What is kept of a list comes on top of what was kept before, of which the layout is taken away
if it turns out to stand before a skeleton. -/
theorem keep_eq (kept nodes : List Node) :
    keep kept nodes =
      match selfFault? nodes with
      | some fault => .error fault
      | none => .ok ((staying nodes).reverse ++
          if leadsToSkeleton nodes then kept.dropWhile isLayout else kept) := by
  induction nodes generalizing kept with
  | nil => rfl
  | cons node rest ih =>
    rw [selfFault?_cons]
    cases node with
    | element e =>
      simp only [keep, element?, Option.bind_some, Element.selfFault?]
      cases hpolicy : e.selfPolicy with
      | error fault => rfl
      | ok policy =>
        have hskeleton : e.isSkeleton = decide (policy = some .defaults) := by
          simp [Element.isSkeleton, Element.Declares, hpolicy]
        simp only [Option.none_or, ih, staying, leadsToSkeleton, hskeleton, decide_eq_true_eq]
        by_cases hdefaults : policy = some .defaults
        · simp only [if_pos hdefaults, List.dropWhile_idempotent, ite_self]
        · simp [if_neg hdefaults, isLayout]
    | text content =>
      simp only [keep, element?, Option.bind_none, Option.none_or, ih, staying, leadsToSkeleton]
      cases selfFault? rest with
      | some fault => rfl
      | none =>
        simp only [List.dropWhile_cons]
        by_cases hlayout : (Node.text content).isLayout <;>
          by_cases hleads : leadsToSkeleton rest <;> simp [hlayout, hleads]
    | comment content =>
      simp only [keep, element?, Option.bind_none, Option.none_or, ih, staying, leadsToSkeleton]
      cases selfFault? rest with
      | some fault => rfl
      | none =>
        simp only [List.dropWhile_cons, isLayout, Bool.true_and]
        by_cases hleads : leadsToSkeleton rest <;> simp [hleads]

end Node

def Element.sweepAnswer (e : Element) : Except MergeError Element :=
  match e.sweepFault? with
  | some fault => .error fault
  | none => .ok e.swept

theorem Node.lowerAll_sweepAnswer (nodes done : List Node) :
    lowerAll Element.sweepAnswer nodes done =
      match nodes.findSome? sweepFault? with
      | some fault => .error fault
      | none => .ok ((nodes.map swept).reverse ++ done) := by
  induction nodes generalizing done with
  | nil => rfl
  | cons node rest ih =>
    cases node with
    | element e =>
      rw [lowerAll, Element.sweepAnswer, List.findSome?_cons, sweepFault?, element?,
        Option.bind_some]
      cases e.sweepFault? with
      | some fault => rfl
      | none => simp [ih, swept]
    | text content => simp [lowerAll, ih, List.findSome?_cons, sweepFault?, element?, swept]
    | comment content => simp [lowerAll, ih, List.findSome?_cons, sweepFault?, element?, swept]

theorem Element.sweepAnswer_eq (e : Element) : e.sweepAnswer = sweepVisit.through sweepAnswer e := by
  obtain ⟨tag, attrs, children⟩ := e
  simp only [sweepAnswer, Visit.through, sweepVisit, Node.keep_eq, sweepFault?,
    Option.orElse_eq_or]
  cases Node.selfFault? children with
  | some fault => rfl
  | none =>
    simp only [List.dropWhile_nil, ite_self, List.append_nil, Node.lowerAll_sweepAnswer,
      Node.findSome?_staying, Option.none_or]
    cases Node.sweepFaultBelow? children with
    | some fault => rfl
    | none => simp [swept, Node.sweptList_eq]

/-- A sweep ends with the first fault it meets, or with the element without skeletons. -/
theorem Element.sweep_eq (e : Element) :
    e.sweep =
      match e.sweepFault? with
      | some fault => .error fault
      | none => .ok e.swept :=
  descend_eq sweepAnswer_eq e

end ConfigOverlay
