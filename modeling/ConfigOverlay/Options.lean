import ConfigOverlay.Json.Reader

set_option autoImplicit false

namespace ConfigOverlay

structure Options where
  /-- Paths into the document begin with the tag of its root. -/
  matchRoot : Bool
  environment : Bool
  /-- The tag of the child of the root that defines properties. -/
  propertiesSection : Option String
  stripPolicies : Bool
  expand : Bool
  deriving DecidableEq, Repr

namespace Options

def standard : Options := ⟨true, true, some "properties", true, true⟩

def bool? : Json → Option Bool
  | .bool value => some value
  | _ => none

def sectionTag? : Json → Option (Option String)
  | .null => some none
  | .string (some tag) => some (some tag)
  | _ => none

def fieldNames : List String :=
  ["match_root", "environment", "properties_section", "strip_merge_attributes", "filter"]

def setField (options : Options) (name : String) (value : Json) : Option Options :=
  match name with
  | "match_root" => (bool? value).map fun b => { options with matchRoot := b }
  | "environment" => (bool? value).map fun b => { options with environment := b }
  | "properties_section" =>
    (sectionTag? value).map fun tag => { options with propertiesSection := tag }
  | "strip_merge_attributes" => (bool? value).map fun b => { options with stripPolicies := b }
  | "filter" => (bool? value).map fun b => { options with expand := b }
  | _ => none

def setMember (options : Options) : Option String × Json → Option Options
  | (some name, value) => options.setField name value
  | (none, _) => none

def ofValue? : Json → Option Options
  | .object members =>
    if (members.map (·.1)).Nodup then members.foldlM setMember standard else none
  | .array values =>
    if values.length ≤ fieldNames.length then
      (fieldNames.zip values).foldlM (fun options (name, value) => options.setField name value)
        standard
    else none
  | _ => none

def ofJson? (s : String) : Option Options := (Json.read s.toList).bind ofValue?

end Options

end ConfigOverlay
