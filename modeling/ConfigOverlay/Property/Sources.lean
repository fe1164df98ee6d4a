import ConfigOverlay.Tree.Basic

set_option autoImplicit false

namespace ConfigOverlay

structure Table where
  entries : Attributes
  deriving DecidableEq, Repr

namespace Table

def empty : Table := ⟨.empty⟩

def get? (table : Table) (name : String) : Option String := table.entries.get? name

def insert (table : Table) (name value : String) : Table := ⟨table.entries.set name value⟩

def size (table : Table) : Nat := table.entries.size

def ofPairs (pairs : List (String × String)) : Table := ⟨.ofPairs pairs⟩

/-- Each child element of a section is a property with its tag as the name and its content as the
value. -/
def ofSection (e : Element) : Table :=
  ofPairs (e.elements.map fun child => (child.tag, child.content))

end Table

def Element.onlyChild? (e : Element) (tag : String) : Option Element :=
  match e.elements.filter (·.tag = tag) with
  | [child] => some child
  | _ => none

def pathSegments (path : String) : List (List Char) := Text.segments '.' path.toList

/-- The value at a path below an element. At its end, also behind a dot, it is the content. -/
def Element.valueAt (e : Element) : List (List Char) → Option String
  | [] | [[]] => some e.content
  | segment :: rest =>
    match e.attrs.get? (String.ofList (Text.joined '.' (segment :: rest))) with
    | some value => some value
    | none => (e.onlyChild? (String.ofList segment)).bind fun child => child.valueAt rest

def Element.lookup (root : Element) (matchRoot : Bool) (path : String) : Option String :=
  if matchRoot then
    ((pathSegments root.tag).isPrefixOf? (pathSegments path)).bind root.valueAt
  else root.valueAt (pathSegments path)

structure Variable where
  name : String
  /-- What the variable holds, unless that is no text. -/
  value : Option String
  deriving DecidableEq, Repr

def Variable.valueOf? (v : Variable) (name : String) : Option String :=
  v.value.bind fun value => Text.stripLead (name ++ "=") (v.name ++ "=" ++ value)

structure Environment where
  lines : List Variable
  deriving DecidableEq, Repr

namespace Environment

def empty : Environment := ⟨[]⟩

def setVariable (v : Variable) : List Variable → List Variable
  | [] => [v]
  | w :: rest => if w.name = v.name then v :: rest else w :: setVariable v rest

def set (env : Environment) (name : String) (value : Option String) : Environment :=
  ⟨setVariable ⟨name, value⟩ env.lines⟩

/-- No variable has an empty name or one with a NUL. -/
def get? (env : Environment) (name : String) : Option String :=
  if name.isEmpty || name.toList.contains '\x00' then none
  else env.lines.findSome? (·.valueOf? name)

end Environment

end ConfigOverlay
