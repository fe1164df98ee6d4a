import ConfigOverlay.Json.Quoted

/-!
JSON values, as a text writes them, and how they are written. Members keep their order and may
repeat a name, and numbers are kept as written.
-/

set_option autoImplicit false

namespace ConfigOverlay

/-- A string may hold escapes that stand for no character, halves of a surrogate pair without the
other half. It is well formed then but has no text, and is `none`. -/
inductive Json where
  | null
  | bool (value : Bool)
  | number (literal : List Char)
  | string (text : Option String)
  | array (items : List Json)
  | object (members : List (Option String × Json))

namespace Json

def writeString : Option String → List Char
  | some text => quote text
  | none => ['"', '\\', 'u', 'd', '8', '0', '0', '"']

mutual
def write : Json → List Char → List Char
  | .null, tail => 'n' :: 'u' :: 'l' :: 'l' :: tail
  | .bool true, tail => 't' :: 'r' :: 'u' :: 'e' :: tail
  | .bool false, tail => 'f' :: 'a' :: 'l' :: 's' :: 'e' :: tail
  | .number literal, tail => literal ++ tail
  | .string text, tail => writeString text ++ tail
  | .array [], tail => '[' :: ']' :: tail
  | .array (item :: items), tail => '[' :: write item (writeItems items (']' :: tail))
  | .object [], tail => '{' :: '}' :: tail
  | .object ((name, value) :: members), tail =>
    '{' :: writeString name ++ ':' :: write value (writeMembers members ('}' :: tail))

def writeItems : List Json → List Char → List Char
  | [], tail => tail
  | item :: items, tail => ',' :: write item (writeItems items tail)

def writeMembers : List (Option String × Json) → List Char → List Char
  | [], tail => tail
  | (name, value) :: members, tail =>
    ',' :: writeString name ++ ':' :: write value (writeMembers members tail)
end

end Json

end ConfigOverlay
