import ConfigOverlay.Merge.Policy

set_option autoImplicit false

namespace ConfigOverlay

variable {ε : Type}

/-- Changes the elements among the nodes by `lower`, and puts what comes of them in front of `done`,
the first one behind the others. -/
def Node.lowerAll (lower : Element → Except ε Element) : List Node → List Node →
    Except ε (List Node)
  | [], done => .ok done
  | .element e :: rest, done =>
    match lower e with
    | .error fault => .error fault
    | .ok e => lowerAll lower rest (.element e :: done)
  | .text content :: rest, done => lowerAll lower rest (.text content :: done)
  | .comment content :: rest, done => lowerAll lower rest (.comment content :: done)

def Visit.through (visit : Visit ε) (lower : Element → Except ε Element) (e : Element) :
    Except ε Element :=
  match visit.run e with
  | .error fault => .error fault
  | .ok (attrs, kept) =>
    match Node.lowerAll lower kept [] with
    | .error fault => .error fault
    | .ok children => .ok ⟨e.tag, attrs, children⟩

section

variable (lower : Element → Except ε Element)

def DescentFrame.answer (frame : DescentFrame) : Except ε Element :=
  match Node.lowerAll lower frame.ahead frame.done with
  | .error fault => .error fault
  | .ok children => .ok ⟨frame.tag, frame.attrs, children⟩

namespace Descending

def resume (e : Element) : List DescentFrame → Except ε Element
  | [] => .ok e
  | frame :: below =>
    match DescentFrame.answer lower { frame with done := .element e :: frame.done } with
    | .error fault => .error fault
    | .ok parent => resume parent below

def answer : Descending ε → Except ε Element
  | .ended result => result
  | .running top below =>
    match top.answer lower with
    | .error fault => .error fault
    | .ok e => resume lower e below

end Descending

variable {lower} {visit : Visit ε} (hlower : ∀ e, lower e = visit.through lower e)

include hlower

namespace Descending

theorem answer_enter (e : Element) (below : List DescentFrame) :
    (enter visit e below).answer lower =
      match lower e with
      | .error fault => .error fault
      | .ok e => resume lower e below := by
  rw [hlower e, enter, Visit.through]
  cases visit.run e with
  | error fault => rfl
  | ok visited => simp only [answer, DescentFrame.answer]

/-- A turn does not change what a descent comes to. -/
theorem answer_next (descending : Descending ε) :
    (descending.next visit).answer lower = descending.answer lower := by
  cases descending with
  | ended result => rfl
  | running top below =>
    obtain ⟨tag, attrs, ahead, done⟩ := top
    cases ahead with
    | nil => cases below <;> rfl
    | cons node rest =>
      cases node with
      | element e =>
        rw [next, answer_enter hlower, answer, DescentFrame.answer, Node.lowerAll]
        cases lower e <;> rfl
      | text content => rfl
      | comment content => rfl

theorem result_eq_answer (descending : Descending ε) :
    descending.result visit = descending.answer lower := by
  induction hwork : descending.work using Nat.strongRecOn generalizing descending with
  | ind work ih =>
    cases descending with
    | ended outcome =>
      rw [result]
      rfl
    | running top below =>
      rw [result, ih _ (hwork ▸ work_next_lt visit top below) _ rfl, answer_next hlower]

end Descending

theorem Element.descend_eq (e : Element) : e.descend visit = lower e := by
  rw [descend, Descending.result_eq_answer hlower, Descending.answer_enter hlower]
  cases lower e <;> rfl

end

mutual
def Element.mapAttributes (f : Attributes → Attributes) : Element → Element
  | ⟨tag, attrs, children⟩ => ⟨tag, f attrs, Node.mapAttributesList f children⟩

def Node.mapAttributes (f : Attributes → Attributes) : Node → Node
  | .element e => .element (e.mapAttributes f)
  | .text content => .text content
  | .comment content => .comment content

def Node.mapAttributesList (f : Attributes → Attributes) : List Node → List Node
  | [] => []
  | node :: rest => node.mapAttributes f :: Node.mapAttributesList f rest
end

theorem Node.mapAttributesList_eq_map (f : Attributes → Attributes) (nodes : List Node) :
    mapAttributesList f nodes = nodes.map (mapAttributes f) := by
  induction nodes with
  | nil => rfl
  | cons node rest ih => rw [mapAttributesList, ih, List.map_cons]

theorem Node.lowerAll_mapAttributes (f : Attributes → Attributes) (nodes done : List Node) :
    lowerAll (fun e => (.ok (e.mapAttributes f) : Except ε Element)) nodes done =
      .ok ((nodes.map (mapAttributes f)).reverse ++ done) := by
  induction nodes generalizing done with
  | nil => rfl
  | cons node rest ih => cases node <;> simp [lowerAll, ih, mapAttributes]

theorem Element.descend_ofAttributes (f : Attributes → Attributes) (e : Element) :
    e.descend (.ofAttributes f : Visit ε) = .ok (e.mapAttributes f) := by
  have hthrough (e : Element) : (.ok (e.mapAttributes f) : Except ε Element) =
      (Visit.ofAttributes f).through (fun e => .ok (e.mapAttributes f)) e := by
    obtain ⟨tag, attrs, children⟩ := e
    simp [Visit.through, Visit.ofAttributes, Node.lowerAll_mapAttributes, mapAttributes,
      Node.mapAttributesList_eq_map]
  exact descend_eq hthrough e

theorem Element.withoutPolicies_eq (e : Element) :
    e.withoutPolicies = e.mapAttributes fun attrs =>
      (attrs.erase SelfPolicy.attributeName).erase ChildrenPolicy.attributeName := by
  rw [withoutPolicies]
  simp only [descend_ofAttributes]

end ConfigOverlay
