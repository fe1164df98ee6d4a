import ConfigOverlay.Json.Basic

set_option autoImplicit false

namespace ConfigOverlay.Json

inductive Token where
  | openArray
  | closeArray
  | openObject
  | closeObject
  | comma
  | colon
  | string (text : Option String)
  | scalar (value : Json)

def isSpace (c : Char) : Bool := c == ' ' || c == '\t' || c == '\n' || c == '\r'

def isNumberChar (c : Char) : Bool :=
  c.isDigit || c == '-' || c == '+' || c == '.' || c == 'e' || c == 'E'

def areDigits (s : List Char) : Bool := !s.isEmpty && s.all Char.isDigit

def isExponent : List Char → Bool
  | [] => true
  | 'e' :: '+' :: digits | 'e' :: '-' :: digits | 'e' :: digits
  | 'E' :: '+' :: digits | 'E' :: '-' :: digits | 'E' :: digits => areDigits digits
  | _ => false

def isFraction : List Char → Bool
  | '.' :: rest =>
    !(rest.takeWhile Char.isDigit).isEmpty && isExponent (rest.dropWhile Char.isDigit)
  | rest => isExponent rest

/-- No zero stands before another digit. -/
def isUnsigned : List Char → Bool
  | '0' :: rest => isFraction rest
  | s => !(s.takeWhile Char.isDigit).isEmpty && isFraction (s.dropWhile Char.isDigit)

def isNumber : List Char → Bool
  | '-' :: rest => isUnsigned rest
  | s => isUnsigned s

def word? : List Char → Option Json
  | ['n', 'u', 'l', 'l'] => some .null
  | ['t', 'r', 'u', 'e'] => some (.bool true)
  | ['f', 'a', 'l', 's', 'e'] => some (.bool false)
  | _ => none

def Token.read : List Char → Option (Token × List Char)
  | [] => none
  | '[' :: rest => some (.openArray, rest)
  | ']' :: rest => some (.closeArray, rest)
  | '{' :: rest => some (.openObject, rest)
  | '}' :: rest => some (.closeObject, rest)
  | ',' :: rest => some (.comma, rest)
  | ':' :: rest => some (.colon, rest)
  | '"' :: rest => (readQuotedText rest).map fun (text, rest) => (.string text, rest)
  | c :: rest =>
    if c == '-' || c.isDigit then
      let literal := c :: rest.takeWhile isNumberChar
      if isNumber literal then some (.scalar (.number literal), rest.dropWhile isNumberChar)
      else none
    else (word? (c :: rest.takeWhile Char.isAlpha)).map fun value =>
      (.scalar value, rest.dropWhile Char.isAlpha)

theorem length_le_of_readQuotedText {s rest : List Char} {text : Option String}
    (h : readQuotedText s = some (text, rest)) : rest.length ≤ s.length := by
  simp only [readQuotedText, Option.map_eq_some_iff, Prod.mk.injEq, Prod.exists] at h
  obtain ⟨_, _, hread, _, rfl⟩ := h
  exact length_le_of_readPieces hread

theorem Token.length_lt_of_read {s rest : List Char} {t : Token}
    (h : Token.read s = some (t, rest)) : rest.length < s.length := by
  unfold Token.read at h
  split at h
  · simp at h
  iterate 6
    · simp only [Option.some.injEq, Prod.mk.injEq] at h
      obtain ⟨_, rfl⟩ := h
      simp
  · simp only [Option.map_eq_some_iff, Prod.mk.injEq, Prod.exists] at h
    obtain ⟨_, _, hread, _, rfl⟩ := h
    have := length_le_of_readQuotedText hread
    simp only [List.length_cons]
    omega
  · next c s _ _ _ _ _ _ _ =>
    have hn := (List.dropWhile_sublist isNumberChar (l := s)).length_le
    have ha := (List.dropWhile_sublist Char.isAlpha (l := s)).length_le
    simp only [List.length_cons]
    split at h
    · simp only at h
      split at h
      · simp only [Option.some.injEq, Prod.mk.injEq] at h
        obtain ⟨_, rfl⟩ := h
        omega
      · simp at h
    · simp only [Option.map_eq_some_iff, Prod.mk.injEq] at h
      obtain ⟨_, _, _, rfl⟩ := h
      omega

end ConfigOverlay.Json
