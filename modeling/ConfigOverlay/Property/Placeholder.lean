import ConfigOverlay.Text.Basic

/-!
Placeholders in text. `${` opens a level and the brace that closes it ends it, so a placeholder may
stand in the name of another one. A level that is never closed makes the rest of the text literal.
-/

set_option autoImplicit false

namespace ConfigOverlay

inductive Part where
  | literal (text : String)
  | placeholder (name : String)
  deriving DecidableEq, Repr

/-- Where a scan stands. What has been seen is kept last character first. -/
inductive Scan where
  | literal (seen : List Char)
  | name (before : List Char) (depth : Nat) (seen : List Char)

namespace Part

def flush (seen : List Char) : List Part :=
  if seen.isEmpty then [] else [.literal (String.ofList seen.reverse)]

def scan : Scan → List Char → List Part
  | .literal seen, [] => flush seen
  | .literal seen, '$' :: '{' :: rest => scan (.name seen 0 []) rest
  | .literal seen, c :: rest => scan (.literal (c :: seen)) rest
  | .name before _ seen, [] =>
    flush before ++ [.literal (String.ofList ('$' :: '{' :: seen.reverse))]
  | .name before depth seen, '$' :: '{' :: rest =>
    scan (.name before (depth + 1) ('{' :: '$' :: seen)) rest
  | .name before 0 seen, '}' :: rest =>
    flush before ++ .placeholder (String.ofList seen.reverse) :: scan (.literal []) rest
  | .name before (depth + 1) seen, '}' :: rest => scan (.name before depth ('}' :: seen)) rest
  | .name before depth seen, c :: rest => scan (.name before depth (c :: seen)) rest

def ofText (text : String) : List Part := scan (.literal []) text.toList

def written : Part → List Char
  | .literal text => text.toList
  | .placeholder name => '$' :: '{' :: name.toList ++ ['}']

end Part

def opensPlaceholder : List Char → Bool
  | [] => false
  | '$' :: '{' :: _ => true
  | _ :: rest => opensPlaceholder rest

def hasPlaceholders (text : String) : Bool := opensPlaceholder text.toList

def Part.ofPiece (piece : List Char) : List Part :=
  if piece.isEmpty then [] else [.literal (String.ofList piece)]

/-- Puts lists side by side, the last of the first ones and the first of the others as one. -/
def spliced {α : Type} : List (List α) → List (List α) → List (List α)
  | [], others => others
  | [last], [] => [last]
  | [last], first :: others => (last ++ first) :: others
  | piece :: pieces, others => piece :: spliced pieces others

def alternatives : List Part → List (List Part)
  | [] => [[]]
  | .placeholder name :: rest => spliced [[.placeholder name]] (alternatives rest)
  | .literal text :: rest =>
    spliced ((Text.segments ',' text.toList).map Part.ofPiece) (alternatives rest)

end ConfigOverlay
