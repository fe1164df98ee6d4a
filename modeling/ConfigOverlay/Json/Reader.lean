import ConfigOverlay.Json.Token

set_option autoImplicit false

namespace ConfigOverlay.Json

def tokens (s : List Char) : Option (List Token) :=
  if (s.dropWhile isSpace).isEmpty then some []
  else match h : Token.read (s.dropWhile isSpace) with
    | none => none
    | some (t, rest) =>
      have := Token.length_lt_of_read h
      have := (List.dropWhile_sublist isSpace (l := s)).length_le
      (tokens rest).map (t :: ·)
termination_by s.length

/-- An array or an object whose end has not been read, with its finished parts, last one first. The
value that is being read belongs to the member of that name. -/
inductive Frame where
  | array (items : List Json)
  | object (members : List (Option String × Json)) (name : Option String)

inductive Expected where
  | value
  | valueOrEnd
  | name (members : List (Option String × Json))
  | nameOrEnd
  | colon (members : List (Option String × Json)) (name : Option String)
  | afterValue (value : Json)

structure Progress where
  expected : Expected
  outer : List Frame

def Progress.accept (value : Json) (outer : List Frame) : Progress := ⟨.afterValue value, outer⟩

def Progress.begin? (outer : List Frame) : Token → Option Progress
  | .scalar value => some (.accept value outer)
  | .string text => some (.accept (.string text) outer)
  | .openArray => some ⟨.valueOrEnd, outer⟩
  | .openObject => some ⟨.nameOrEnd, outer⟩
  | _ => none

def Progress.next : Progress → Token → Option Progress
  | ⟨.value, outer⟩, t => Progress.begin? outer t
  | ⟨.valueOrEnd, outer⟩, .closeArray => some (.accept (.array []) outer)
  | ⟨.valueOrEnd, outer⟩, t => Progress.begin? (.array [] :: outer) t
  | ⟨.nameOrEnd, outer⟩, .closeObject => some (.accept (.object []) outer)
  | ⟨.nameOrEnd, outer⟩, .string name => some ⟨.colon [] name, outer⟩
  | ⟨.name members, outer⟩, .string name => some ⟨.colon members name, outer⟩
  | ⟨.colon members name, outer⟩, .colon => some ⟨.value, .object members name :: outer⟩
  | ⟨.afterValue value, .array items :: outer⟩, .comma =>
    some ⟨.value, .array (value :: items) :: outer⟩
  | ⟨.afterValue value, .array items :: outer⟩, .closeArray =>
    some (.accept (.array (value :: items).reverse) outer)
  | ⟨.afterValue value, .object members name :: outer⟩, .comma =>
    some ⟨.name ((name, value) :: members), outer⟩
  | ⟨.afterValue value, .object members name :: outer⟩, .closeObject =>
    some (.accept (.object ((name, value) :: members).reverse) outer)
  | _, _ => none

def Progress.value? : Progress → Option Json
  | ⟨.afterValue value, []⟩ => some value
  | _ => none

def read (s : List Char) : Option Json :=
  (tokens s).bind fun ts => (ts.foldlM Progress.next ⟨.value, []⟩).bind Progress.value?

end ConfigOverlay.Json
