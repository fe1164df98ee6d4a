import ConfigOverlay.Markup.Token
import ConfigOverlay.Tree.Attributes

set_option autoImplicit false

namespace ConfigOverlay.Markup

abbrev Scope := List (String × String)

def xmlNamespace : String := "http://www.w3.org/XML/1998/namespace"

def xmlnsNamespace : String := "http://www.w3.org/2000/xmlns/"

structure Declared where
  bindings : Scope
  attributes : List (QName × String)
  deriving Repr

/-- A declaration may bind `xml` to its own namespace only, and nothing else to that namespace or
to the one of declarations; a tag binds a qualifier once. -/
def Declared.bind (d : Declared) (qualifier space : String) : Option Declared :=
  if space = xmlnsNamespace then none
  else if qualifier = "xml" then if space = xmlNamespace then some d else none
  else if space = xmlNamespace || d.bindings.any (·.1 = qualifier) then none
  else some { d with bindings := d.bindings ++ [(qualifier, space)] }

def Declared.add (d : Declared) (a : RawAttribute) : Option Declared :=
  (decodeValue a.value).bind fun decoded =>
    let value := String.ofList decoded
    if a.name.qualifier = "xmlns" then d.bind a.name.localName value
    else if a.name.localName = "xmlns" then
      if value = xmlNamespace || value = xmlnsNamespace then none else some d
    else some { d with attributes := d.attributes ++ [(a.name, value)] }

def Declared.ofTag (attributes : List RawAttribute) : Option Declared :=
  attributes.foldlM Declared.add ⟨[], []⟩

def Scope.attributeName? (scope : Scope) (name : QName) : Option (Option String × String) :=
  if name.qualifier = "" then some (none, name.localName)
  else if name.qualifier = "xml" then some (some xmlNamespace, name.localName)
  else (scope.lookup name.qualifier).map fun space => (some space, name.localName)

/-- A tag may use a qualifier that is bound, but never `xmlns`. As no binding of `xml` counts, it
may not use that one either. -/
def Scope.admits (scope : Scope) (qualifier : String) : Bool :=
  qualifier != "xmlns" && (qualifier == "" || (scope.lookup qualifier).isSome)

/-- The attributes under their local names, if no two share namespace and local name. Where local
names alone coincide, the later value takes the earlier one's place. -/
def Scope.resolve (scope : Scope) (attributes : List (QName × String)) : Option Attributes :=
  (attributes.mapM fun a => scope.attributeName? a.1).bind fun names =>
    if names.Nodup then some (.ofPairs (attributes.map fun a => (a.1.localName, a.2))) else none

end ConfigOverlay.Markup
