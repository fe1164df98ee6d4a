import ConfigOverlay.Text.Basic

/-!
The character classes of XML 1.0, and character data as it is written and as it is meant: references
stand for single characters, which are taken as they are, and line ends and tabs that are written
out are normalised.
-/

set_option autoImplicit false

namespace ConfigOverlay.Markup

def isSpace (c : Char) : Bool := c == ' ' || c == '\t' || c == '\n' || c == '\r'

/-- The characters a document may hold: no control character but tab and the line ends, and
neither of the two noncharacters U+FFFE and U+FFFF. -/
def isLegal (c : Char) : Bool :=
  if c.toNat < 0x20 then isSpace c else c.toNat != 0xFFFE && c.toNat != 0xFFFF

def isWideNameStart (n : Nat) : Bool :=
  (0xC0 ≤ n && n ≤ 0xD6) || (0xD8 ≤ n && n ≤ 0xF6) || (0xF8 ≤ n && n ≤ 0x2FF) ||
    (0x370 ≤ n && n ≤ 0x37D) || (0x37F ≤ n && n ≤ 0x1FFF) || (0x200C ≤ n && n ≤ 0x200D) ||
    (0x2070 ≤ n && n ≤ 0x218F) || (0x2C00 ≤ n && n ≤ 0x2FEF) || (0x3001 ≤ n && n ≤ 0xD7FF) ||
    (0xF900 ≤ n && n ≤ 0xFDCF) || (0xFDF0 ≤ n && n ≤ 0xFFFD) || (0x10000 ≤ n && n ≤ 0xEFFFF)

def isNameStart (c : Char) : Bool :=
  c.isAlpha || c == ':' || c == '_' || isWideNameStart c.toNat

def isNameChar (c : Char) : Bool :=
  let n := c.toNat
  isNameStart c || c.isDigit || c == '-' || c == '.' || n == 0xB7 ||
    (0x300 ≤ n && n ≤ 0x36F) || (0x203F ≤ n && n ≤ 0x2040)

/-- The character with this number. A number of 32 bits that is no character gives U+FFFD. -/
def numbered (n : Nat) : Option Char :=
  if n < 0x100000000 then
    let c := if n.isValidChar then Char.ofNat n else '\uFFFD'
    if isLegal c then some c else none
  else none

def referent? : List Char → Option Char
  | ['q', 'u', 'o', 't'] => some '"'
  | ['a', 'm', 'p'] => some '&'
  | ['a', 'p', 'o', 's'] => some '\''
  | ['l', 't'] => some '<'
  | ['g', 't'] => some '>'
  | '#' :: 'x' :: d :: ds => (Text.digitsValue 16 Text.hexDigit? 0 (d :: ds)).bind numbered
  | '#' :: d :: ds => (Text.digitsValue 10 Text.decimalDigit? 0 (d :: ds)).bind numbered
  | _ => none

inductive Datum where
  | written (c : Char)
  | referenced (c : Char)
  deriving DecidableEq, Repr

/-- Cuts character data into its characters. The first argument holds the body of a reference that
has been begun, last character first. -/
def readData : Option (List Char) → List Char → Option (List Datum)
  | none, [] => some []
  | some _, [] => none
  | some body, ';' :: rest =>
    (referent? body.reverse).bind fun c => (readData none rest).map (.referenced c :: ·)
  | some body, c :: rest => readData (some (c :: body)) rest
  | none, '&' :: rest => readData (some []) rest
  | none, c :: rest => (readData none rest).map (.written c :: ·)

namespace Datum

/-- The characters that a text has. A written carriage return, alone or before a written line feed,
is a line feed. It stays what it is directly before a reference, and also between a reference and
the end. The first argument says whether a reference stands directly before. -/
def text : Bool → List Datum → List Char
  | _, [] => []
  | _, .referenced c :: rest => c :: text true rest
  | behindReference, [.written '\r'] => [if behindReference then '\r' else '\n']
  | _, .written '\r' :: .referenced c :: rest => '\r' :: c :: text true rest
  | _, .written '\r' :: .written '\n' :: rest => '\n' :: text false rest
  | _, .written '\r' :: rest => '\n' :: text false rest
  | _, .written c :: rest => c :: text false rest

/-- The characters that an attribute value has. Each written line end and each written tab is a
space. -/
def value : List Datum → List Char
  | [] => []
  | .referenced c :: rest => c :: value rest
  | .written '\r' :: .written '\n' :: rest => ' ' :: value rest
  | .written c :: rest => (if c == '\r' || c == '\n' || c == '\t' then ' ' else c) :: value rest

end Datum

def decodeText (s : List Char) : Option (List Char) := (readData none s).map (Datum.text false)

def decodeValue (s : List Char) : Option (List Char) := (readData none s).map Datum.value

def decodeSection (s : List Char) : List Char := Datum.text false (s.map .written)

def encodeChar : Char → List Char
  | '<' => ['&', 'l', 't', ';']
  | '>' => ['&', 'g', 't', ';']
  | '&' => ['&', 'a', 'm', 'p', ';']
  | '\'' => ['&', 'a', 'p', 'o', 's', ';']
  | '"' => ['&', 'q', 'u', 'o', 't', ';']
  | c => [c]

def encode (s : List Char) : List Char := s.flatMap encodeChar

end ConfigOverlay.Markup
