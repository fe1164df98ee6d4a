import ConfigOverlay.Proofs.Json.RoundTrip
import ConfigOverlay.Tree.Json

/-!
A tree is read back from its JSON form, as long as the form is not nested deeper than the reader
enters. The reader counts how many arrays and objects it may still enter; for what has been written
for a tree this number and the depth of the form are all that decides.
-/

set_option autoImplicit false

namespace ConfigOverlay

namespace Json

mutual
def depth : Json → Nat
  | .array items => depthOfItems items + 1
  | .object members => depthOfMembers members + 1
  | _ => 0

def depthOfItems : List Json → Nat
  | [] => 0
  | item :: items => max item.depth (depthOfItems items)

def depthOfMembers : List (Option String × Json) → Nat
  | [] => 0
  | (_, value) :: members => max value.depth (depthOfMembers members)
end

theorem textual_ofAttributes (attrs : Attributes) : (ofAttributes attrs).Textual := by
  refine .array fun item hitem => ?_
  obtain ⟨⟨name, value⟩, -, rfl⟩ := List.mem_map.1 hitem
  refine .array fun item hitem => ?_
  simp only [List.mem_cons, List.not_mem_nil, or_false] at hitem
  rcases hitem with rfl | rfl
  · exact .string _
  · exact .string _

mutual
theorem textual_ofElement : (e : Element) → (ofElement e).Textual
  | ⟨tag, attrs, children⟩ => by
    refine .object fun member hmember => ?_
    simp only [List.mem_cons, List.not_mem_nil, or_false] at hmember
    rcases hmember with rfl | rfl | rfl
    · exact .string _
    · exact textual_ofAttributes attrs
    · exact .array (textual_ofNodes children)

theorem textual_ofNode : (node : Node) → (ofNode node).Textual
  | .element e => .object (by simpa using textual_ofElement e)
  | .text content => .object (by simpa using .string _)
  | .comment content => .object (by simpa using .string _)

theorem textual_ofNodes : (nodes : List Node) → ∀ item ∈ ofNodes nodes, item.Textual
  | [], item, hitem => by simp [ofNodes] at hitem
  | node :: rest, item, hitem => by
    rcases List.mem_cons.1 hitem with rfl | hitem
    · exact textual_ofNode node
    · exact textual_ofNodes rest item hitem
end

variable {room : Nat}

theorem mapM_pair?_ofAttribute (entries : List (String × String)) :
    (entries.map fun (name, value) => ofAttribute name value).mapM pair? = some entries := by
  induction entries with
  | nil => rfl
  | cons entry entries ih =>
    rw [List.map_cons, List.mapM_cons, ih]
    rfl

theorem depthOfItems_ofAttribute (entry : String × String) (entries : List (String × String)) :
    depthOfItems ((entry :: entries).map fun (name, value) => ofAttribute name value) = 1 := by
  induction entries generalizing entry with
  | nil => simp [depthOfItems, ofAttribute, depth]
  | cons other entries ih =>
    rw [List.map_cons, depthOfItems, ih]
    simp [ofAttribute, depth, depthOfItems]

theorem attributes?_ofAttributes (attrs : Attributes) : attributes? room (ofAttributes attrs) =
    if (ofAttributes attrs).depth ≤ room then some attrs else none := by
  obtain ⟨entries⟩ := attrs
  cases entries with
  | nil =>
    match room with
    | 0 => rfl
    | 1 => rfl
    | room + 2 => simp [attributes?, ofAttributes, depth, depthOfItems]
  | cons entry entries =>
    rw [ofAttributes, depth, depthOfItems_ofAttribute]
    match room with
    | 0 => rfl
    | 1 => rfl
    | room + 2 =>
      rw [attributes?, mapM_pair?_ofAttribute]
      simp

theorem depth_ofElement_le {tag : String} {attrs : Attributes} {children : List Node} :
    (ofElement ⟨tag, attrs, children⟩).depth ≤ room + 1 ↔
      (ofAttributes attrs).depth ≤ room ∧ depthOfItems (ofNodes children) + 1 ≤ room := by
  simp only [ofElement, depth, depthOfMembers]
  omega

mutual
theorem element?_ofElement (room : Nat) : (e : Element) → element? room (ofElement e) =
    if (ofElement e).depth ≤ room then some e else none
  | ⟨tag, attrs, children⟩ => by
    cases room with
    | zero => simp [ofElement, element?, depth]
    | succ room =>
      simp only [depth_ofElement_le]
      simp only [ofElement, element?, elementFields?, text?, attributes?_ofAttributes,
        children?_ofNodes room children]
      by_cases hattrs : (ofAttributes attrs).depth ≤ room
      · by_cases hchildren : depthOfItems (ofNodes children) + 1 ≤ room
        · simp [ElementFields.element?, hattrs, hchildren]
        · simp [hchildren]
      · simp [hattrs]

theorem node?_ofNode (room : Nat) : (node : Node) → node? room (ofNode node) =
    if (ofNode node).depth ≤ room then some node else none
  | .element e => by
    cases room with
    | zero => simp [ofNode, node?, depth]
    | succ room =>
      by_cases he : (ofElement e).depth ≤ room
      · simp [ofNode, node?, element?_ofElement room e, depth, depthOfMembers, he]
      · simp [ofNode, node?, element?_ofElement room e, depth, depthOfMembers, he]
  | .text content => by
    cases room <;> simp [ofNode, node?, text?, depth, depthOfMembers]
  | .comment content => by
    cases room <;> simp [ofNode, node?, text?, depth, depthOfMembers]

theorem nodes?_ofNodes (room : Nat) : (nodes : List Node) → nodes? room (ofNodes nodes) =
    if depthOfItems (ofNodes nodes) ≤ room then some nodes else none
  | [] => by simp [ofNodes, nodes?, depthOfItems]
  | node :: rest => by
    rw [ofNodes, nodes?, node?_ofNode room node, nodes?_ofNodes room rest, depthOfItems]
    simp only [Nat.max_le]
    by_cases hnode : (ofNode node).depth ≤ room
    · by_cases hrest : depthOfItems (ofNodes rest) ≤ room
      · simp [hnode, hrest]
      · simp [hnode, hrest]
    · simp [hnode]

theorem children?_ofNodes (room : Nat) (nodes : List Node) :
    children? room (.array (ofNodes nodes)) =
      if depthOfItems (ofNodes nodes) + 1 ≤ room then some nodes else none := by
  cases room with
  | zero => simp [children?]
  | succ room => simp [children?, nodes?_ofNodes room nodes]
end

end Json

/-- The JSON form of an element is read as the element, or as nothing if it is nested deeper than
the reader enters. -/
theorem json_form_reads_back (e : Element) : Element.ofJson? e.toJson =
    if (Json.ofElement e).depth ≤ Element.jsonDepth then some e else none := by
  rw [Element.ofJson?, Element.toJson, String.toList_ofList,
    Json.read_write (Json.textual_ofElement e), Option.bind_some, Json.element?_ofElement]

end ConfigOverlay
