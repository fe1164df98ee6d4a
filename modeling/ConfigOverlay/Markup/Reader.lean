import ConfigOverlay.Markup.Namespace
import ConfigOverlay.Tree.Basic

/-!
Reading a document into a tree. The text is cut into tokens, and the tokens are folded over the
elements that are still open. Comments are kept, instructions are dropped.
-/

set_option autoImplicit false

namespace ConfigOverlay.Markup

def tokens (s : List Char) : Option (List Token) :=
  if s.isEmpty then some []
  else match h : Token.read s with
    | none => none
    | some (t, rest) =>
      have := Token.length_lt_of_read h
      (tokens rest).map (t :: ·)
termination_by s.length

structure OpenElement where
  name : QName
  scope : Scope
  attrs : Attributes
  children : List Node
  /-- The text that is being read. Character data and CDATA sections side by side are one text. -/
  text : Option (List Char)

namespace OpenElement

def addText (e : OpenElement) (s : List Char) : OpenElement :=
  { e with text := some (e.text.getD [] ++ s) }

def endText (e : OpenElement) : OpenElement :=
  match e.text with
  | none => e
  | some s => { e with text := none, children := .text (String.ofList s) :: e.children }

def addChild (e : OpenElement) (node : Node) : OpenElement :=
  { e.endText with children := node :: e.endText.children }

def close (e : OpenElement) : Element :=
  ⟨e.name.localName, e.attrs, e.endText.children.reverse⟩

def ofTag (scope : Scope) (name : QName) (attributes : List RawAttribute) : Option OpenElement :=
  (Declared.ofTag attributes).bind fun declared =>
    let inner := declared.bindings ++ scope
    if inner.admits name.qualifier then
      (inner.resolve declared.attributes).map fun attrs => ⟨name, inner, attrs, [], none⟩
    else none

end OpenElement

/-- Where the reading of a document stands: before the root, inside it with the open elements
innermost first, or after it. -/
inductive Progress where
  | before
  | inside (current : OpenElement) (outer : List OpenElement)
  | after (root : Element)

def Progress.finish (e : Element) : List OpenElement → Progress
  | [] => .after e
  | parent :: outer => .inside (parent.addChild (.element e)) outer

def Progress.start (outer : List OpenElement) (name : QName) (attributes : List RawAttribute)
    (closed : Bool) : Option Progress :=
  let scope := (outer.head?.map (·.scope)).getD []
  (OpenElement.ofTag scope name attributes).map fun e =>
    if closed then .finish e.close outer else .inside e outer

def Progress.next : Progress → Token → Option Progress
  | .before, .startTag name attributes closed => Progress.start [] name attributes closed
  | .inside e outer, .startTag name attributes closed =>
    Progress.start (e :: outer) name attributes closed
  | .after _, .startTag .. => none
  | .inside e outer, .endTag name => if name = e.name then some (.finish e.close outer) else none
  | .before, .endTag _ => none
  | .after _, .endTag _ => none
  | .inside e outer, .text raw =>
    (decodeText raw).map fun s => .inside (e.addText s) outer
  | .before, .text raw => if raw.all isSpace then some .before else none
  | .after root, .text raw => if raw.all isSpace then some (.after root) else none
  | .inside e outer, .cdata content => some (.inside (e.addText (decodeSection content)) outer)
  | .before, .cdata _ => none
  | .after _, .cdata _ => none
  | .inside e outer, .comment content =>
    some (.inside (e.addChild (.comment (String.ofList content))) outer)
  | .inside e outer, .instruction => some (.inside e.endText outer)
  | .before, .comment _ => some .before
  | .before, .instruction => some .before
  | .after root, .comment _ => some (.after root)
  | .after root, .instruction => some (.after root)

def Progress.root? : Progress → Option Element
  | .after root => some root
  | .before | .inside .. => none

def readDeclarationPart (name s : List Char) : Option (List Char) :=
  if name.isPrefixOf s then
    (RawAttribute.read s).bind fun (_, rest) =>
      if (rest.head?.map isSpace).getD false || ['?', '>'].isPrefixOf rest then
        some (rest.dropWhile isSpace)
      else none
  else some s

def readDeclaration (s : List Char) : Option (List Char) :=
  let version := s.dropWhile isSpace
  if ['v', 'e', 'r', 's', 'i', 'o', 'n'].isPrefixOf version then
    ((readDeclarationPart ['v', 'e', 'r', 's', 'i', 'o', 'n'] version).bind
      (readDeclarationPart ['e', 'n', 'c', 'o', 'd', 'i', 'n', 'g'])).bind
      (readDeclarationPart ['s', 't', 'a', 'n', 'd', 'a', 'l', 'o', 'n', 'e']) |>.bind
      (['?', '>'].isPrefixOf? ·)
  else none

def readOpening (s : List Char) : Option (List Char) :=
  let s := (['\uFEFF'].isPrefixOf? s).getD s
  match ['<', '?', 'x', 'm', 'l', ' '].isPrefixOf? s with
  | some rest => readDeclaration rest
  | none => some s

def readDocument (s : List Char) : Option Element := do
  let tokens ← tokens (← readOpening s)
  (← tokens.foldlM Progress.next .before).root?

end ConfigOverlay.Markup

namespace ConfigOverlay

def Element.ofMarkup? (s : String) : Option Element := Markup.readDocument s.toList

end ConfigOverlay
