import ConfigOverlay.Markup.Reader
import ConfigOverlay.Merge.Layers
import ConfigOverlay.Options
import ConfigOverlay.Property.Expansion

/-!
Configurations: layers, options and further resolvers, from which one tree is built. The layers are
merged, the policies removed, and the placeholders expanded with the standard chain over the merged
tree.
-/

set_option autoImplicit false

namespace ConfigOverlay

inductive FileFault where
  | missing
  | notText
  deriving DecidableEq, Repr

def FileFault.message : FileFault → String
  | .missing => "No such file or directory (os error 2)"
  | .notText => "stream did not contain valid UTF-8"

inductive ConfigurationError where
  | markup
  | options
  | file (path : String) (fault : FileFault)
  | merge (error : MergeError)
  | property (error : PropertyError)
  | exhausted
  deriving DecidableEq, Repr

def ConfigurationError.message : ConfigurationError → String
  | .markup => "Reading layer failed: not a well-formed document"
  | .options => "Invalid options"
  | .file path fault =>
    "I/O error: Failed to read layer from '" ++ path ++ "': " ++ fault.message
  | .merge error => "Merging layers failed: " ++ error.message
  | .property error => "Resolving placeholders failed: " ++ error.message
  | .exhausted => "Resolving placeholders failed: nested too deep"

def readLayer (text : String) : Except ConfigurationError Element :=
  match Element.ofMarkup? text with
  | some layer => .ok layer
  | none => .error .markup

def readFileLayer (path : String) (content : Option ByteArray) :
    Except ConfigurationError Element :=
  match content with
  | none => .error (.file path .missing)
  | some bytes =>
    match String.fromUTF8? bytes with
    | none => .error (.file path .notText)
    | some text => readLayer text

def readOptions (text : String) : Except ConfigurationError Options :=
  match Options.ofJson? text with
  | some options => .ok options
  | none => .error .options

/-- The layers come in ascending priority. -/
structure Configuration (η : Type) where
  layers : List Element
  resolvers : List (Resolver η)
  options : Options

variable {η σ : Type}

def Options.section? (options : Options) (root : Element) : Option Element :=
  options.propertiesSection.bind fun tag => root.elements.find? (·.tag = tag)

/-- Further resolvers, alternatives, the properties section, environment variables and paths into
the tree, in this order. Alternatives come before the expanding resolvers, which would expand the
placeholders in them. -/
def standardChain (resolvers : List (Resolver η)) (options : Options) (root : Element) :
    Resolver η :=
  .firstOf
    (resolvers ++ [.oneOf] ++
      ((options.section? root).map fun e => Resolver.expanding (.table (.ofSection e))).toList ++
      (if options.environment then [.expanding .environmentVariables] else []) ++
      [.expanding (.document root options.matchRoot)])

def Configuration.expandMerged (c : Configuration η) (around : Surroundings η σ) (root : Element)
    (session : Session σ) : Except ConfigurationError Element × Session σ :=
  let (tree, state) := root.expand around (standardChain c.resolvers c.options root) session
  match state.stop with
  | none => (.ok tree, state.session)
  | some (.failed error) => (.error (.property error), state.session)
  | some .exhausted => (.error .exhausted, state.session)

def Configuration.build (c : Configuration η) (around : Surroundings η σ) (session : Session σ) :
    Except ConfigurationError Element × Session σ :=
  match mergeLayers c.layers with
  | .error error => (.error (.merge error), session)
  | .ok merged =>
    let root := if c.options.stripPolicies then merged.withoutPolicies else merged
    if c.options.expand then c.expandMerged around root session else (.ok root, session)

end ConfigOverlay
