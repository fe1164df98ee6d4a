import ConfigOverlay.Json.Reader
import ConfigOverlay.Tree.Basic

set_option autoImplicit false

namespace ConfigOverlay

namespace Json

def ofAttribute (name value : String) : Json := .array [.string (some name), .string (some value)]

def ofAttributes (attrs : Attributes) : Json :=
  .array (attrs.entries.map fun (name, value) => ofAttribute name value)

mutual
def ofElement : Element → Json
  | ⟨tag, attrs, children⟩ =>
    .object [(some "tag", .string (some tag)), (some "attrs", ofAttributes attrs),
      (some "children", .array (ofNodes children))]

def ofNode : Node → Json
  | .element e => .object [(some "Element", ofElement e)]
  | .text content => .object [(some "Text", .string (some content))]
  | .comment content => .object [(some "Comment", .string (some content))]

def ofNodes : List Node → List Json
  | [] => []
  | node :: rest => ofNode node :: ofNodes rest
end

def text? : Json → Option String
  | .string text => text
  | _ => none

def pair? : Json → Option (String × String)
  | .array [name, value] => name.text?.bind fun name => value.text?.map fun value => (name, value)
  | _ => none

/-- Here and below the number says how many arrays and objects may still be entered, one inside the
other. The pairs are kept as they come, also if they repeat a name. -/
def attributes? : Nat → Json → Option Attributes
  | 1, .array [] => some .empty
  | _ + 2, .array pairs => (pairs.mapM pair?).map (⟨·⟩)
  | _, _ => none

structure ElementFields where
  tag : Option String
  attrs : Option Attributes
  children : Option (List Node)

def ElementFields.element? : ElementFields → Option Element
  | ⟨some tag, some attrs, some children⟩ => some ⟨tag, attrs, children⟩
  | _ => none

mutual
def element? : Nat → Json → Option Element
  | room + 1, .object members => (elementFields? room members).bind ElementFields.element?
  | room + 1, .array [tag, attrs, children] =>
    ElementFields.element? ⟨tag.text?, attributes? room attrs, children? room children⟩
  | _, _ => none

def elementFields? (room : Nat) : List (Option String × Json) → Option ElementFields
  | [] => some ⟨none, none, none⟩
  | (none, _) :: _ => none
  | (some name, value) :: rest =>
    (elementFields? room rest).bind fun fields =>
      if name = "tag" then
        if fields.tag.isSome then none
        else value.text?.map fun tag => { fields with tag := some tag }
      else if name = "attrs" then
        if fields.attrs.isSome then none
        else (attributes? room value).map fun attrs => { fields with attrs := some attrs }
      else if name = "children" then
        if fields.children.isSome then none
        else (children? room value).map fun children => { fields with children := some children }
      else some fields

def children? : Nat → Json → Option (List Node)
  | room + 1, .array items => nodes? room items
  | _, _ => none

def nodes? (room : Nat) : List Json → Option (List Node)
  | [] => some []
  | item :: items => (node? room item).bind fun node => (nodes? room items).map (node :: ·)

def node? : Nat → Json → Option Node
  | room + 1, .object [(some kind, value)] =>
    if kind = "Element" then (element? room value).map .element
    else if kind = "Text" then value.text?.map .text
    else if kind = "Comment" then value.text?.map .comment
    else none
  | _, _ => none
end

end Json

def Element.jsonDepth : Nat := 127

def Element.ofJson? (s : String) : Option Element :=
  (Json.read s.toList).bind (Json.element? jsonDepth)

def Element.toJson (e : Element) : String := String.ofList (Json.write (Json.ofElement e) [])

end ConfigOverlay
