/-!
The attributes of an element: an ordered list of names with values. `set` keeps names unique; a
list that was built otherwise may repeat a name, and then the first entry is the one that counts.
-/

set_option autoImplicit false

namespace ConfigOverlay

structure Attributes where
  entries : List (String × String)
  deriving DecidableEq, Repr, Inhabited

namespace Attributes

def empty : Attributes := ⟨[]⟩

/-- The value of the first entry with this name. -/
def get? (attrs : Attributes) (name : String) : Option String := attrs.entries.lookup name

def contains (attrs : Attributes) (name : String) : Bool := attrs.entries.any (·.1 = name)

def size (attrs : Attributes) : Nat := attrs.entries.length

def setEntry (name value : String) : List (String × String) → List (String × String)
  | [] => [(name, value)]
  | (n, v) :: rest => if n = name then (n, value) :: rest else (n, v) :: setEntry name value rest

def set (attrs : Attributes) (name value : String) : Attributes :=
  ⟨setEntry name value attrs.entries⟩

def erase (attrs : Attributes) (name : String) : Attributes :=
  ⟨attrs.entries.eraseP (·.1 = name)⟩

def overlay (lower upper : Attributes) : Attributes :=
  upper.entries.foldl (fun attrs (name, value) => attrs.set name value) lower

def ofPairs (pairs : List (String × String)) : Attributes := empty.overlay ⟨pairs⟩

def mapValues (f : String → String) (attrs : Attributes) : Attributes :=
  ⟨attrs.entries.map fun (name, value) => (name, f value)⟩

def valueSize (attrs : Attributes) : Nat :=
  attrs.entries.foldr (fun entry size => entry.2.length + 1 + size) 0

def Unique (attrs : Attributes) : Prop := (attrs.entries.map (·.1)).Nodup

end Attributes

end ConfigOverlay
