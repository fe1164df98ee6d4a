import ConfigOverlay.Tree.Descent

set_option autoImplicit false

namespace ConfigOverlay

inductive MergeError where
  /-- An element of this tag has a policy attribute, named second, with a value that is none. -/
  | invalidPolicy (tag policy value : String)
  | noInput
  | rootRemoved (layer : Nat) (tag : String)
  deriving DecidableEq, Repr

def MergeError.message : MergeError → String
  | .invalidPolicy tag policy value =>
    "Invalid value '" ++ value ++ "' for attribute '" ++ policy ++ "' on element <" ++ tag ++ ">"
  | .noInput => "No configuration layers were combined"
  | .rootRemoved layer tag =>
    "Layer " ++ toString layer ++ " removed the root element <" ++ tag ++ ">"

inductive SelfPolicy where
  | merge
  | remove
  | override
  /-- The element gives defaults, and disappears unless a later layer has a counterpart. -/
  | defaults
  /-- A counterpart in a later layer replaces the element. -/
  | overridable
  /-- A sibling of the same tag in a later layer drops the element. -/
  | overridableByTag
  deriving DecidableEq, Repr

inductive ChildrenPolicy where
  | merge
  | append
  deriving DecidableEq, Repr

namespace SelfPolicy

def attributeName : String := "combine.self"

def text : SelfPolicy → String
  | .merge => "MERGE"
  | .remove => "REMOVE"
  | .override => "OVERRIDE"
  | .defaults => "DEFAULTS"
  | .overridable => "OVERRIDABLE"
  | .overridableByTag => "OVERRIDABLE_BY_TAG"

def all : List SelfPolicy := [merge, remove, override, defaults, overridable, overridableByTag]

end SelfPolicy

namespace ChildrenPolicy

def attributeName : String := "combine.children"

def text : ChildrenPolicy → String
  | .merge => "MERGE"
  | .append => "APPEND"

def all : List ChildrenPolicy := [merge, append]

end ChildrenPolicy

def policyText (value : String) : String :=
  String.ofList (Text.upperCase (Text.trim value.toList))

def SelfPolicy.ofText? (value : String) : Option SelfPolicy :=
  SelfPolicy.all.find? fun policy => policy.text = policyText value

def ChildrenPolicy.ofText? (value : String) : Option ChildrenPolicy :=
  ChildrenPolicy.all.find? fun policy => policy.text = policyText value

namespace Element

def declared {α : Type} (e : Element) (name : String) (ofText? : String → Option α) :
    Except MergeError (Option α) :=
  match e.attrs.get? name with
  | none => .ok none
  | some value =>
    match ofText? value with
    | some policy => .ok (some policy)
    | none => .error (.invalidPolicy e.tag name value)

def selfPolicy (e : Element) : Except MergeError (Option SelfPolicy) :=
  e.declared SelfPolicy.attributeName SelfPolicy.ofText?

def childrenPolicy (e : Element) : Except MergeError (Option ChildrenPolicy) :=
  e.declared ChildrenPolicy.attributeName ChildrenPolicy.ofText?

/-- The element declares this policy, with a value that is recognised. -/
def Declares (e : Element) (policy : SelfPolicy) : Prop := e.selfPolicy = .ok (some policy)

instance (e : Element) (policy : SelfPolicy) : Decidable (e.Declares policy) :=
  match h : e.selfPolicy with
  | .ok declared =>
    if hp : declared = some policy then isTrue (by rw [Declares, h, hp])
    else isFalse (by rw [Declares, h]; exact fun h' => hp (by injection h'))
  | .error _ => isFalse (by rw [Declares, h]; exact nofun)

def withoutPolicies (e : Element) : Element :=
  let visit : Visit Empty := .ofAttributes fun attrs =>
    (attrs.erase SelfPolicy.attributeName).erase ChildrenPolicy.attributeName
  match e.descend visit with
  | .ok stripped => stripped

end Element

end ConfigOverlay
