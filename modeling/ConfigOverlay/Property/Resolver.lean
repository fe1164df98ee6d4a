import ConfigOverlay.Property.Sources

/-!
Resolvers of property names and how they are put together. A chain is a resolver that other ones
are part of; placeholders in names and values are resolved by the whole chain again.
-/

set_option autoImplicit false

namespace ConfigOverlay

/-- A resolver. `η` is the type of the sources that a host brings along; a chain of this library's
resolvers alone is a `Resolver Empty`. -/
inductive Resolver (η : Type) where
  | table (entries : Table)
  | document (root : Element) (matchRoot : Bool)
  | environment
  /-- Knows the names that begin with `lead` and asks for the rest of them. -/
  | under (lead : String) (inner : Resolver η)
  | expanding (inner : Resolver η)
  | firstOf (members : List (Resolver η))
  | oneOf
  /-- Makes a note of each name that it is asked for, and asks. -/
  | noted (label : String) (lead : Option String) (inner : Resolver η)
  | host (source : η)

namespace Resolver

variable {η : Type}

/-- Induction over a chain, where all members of a list count as smaller than the list. -/
@[elab_as_elim]
theorem induction {motive : Resolver η → Prop}
    (table : ∀ entries, motive (.table entries))
    (document : ∀ root matchRoot, motive (.document root matchRoot))
    (environment : motive .environment)
    (under : ∀ lead inner, motive inner → motive (.under lead inner))
    (expanding : ∀ inner, motive inner → motive (.expanding inner))
    (firstOf : ∀ members, (∀ member ∈ members, motive member) → motive (.firstOf members))
    (oneOf : motive .oneOf)
    (noted : ∀ label lead inner, motive inner → motive (.noted label lead inner))
    (host : ∀ source, motive (.host source)) (r : Resolver η) : motive r :=
  @Resolver.rec η motive (fun members => ∀ member ∈ members, motive member)
    table document environment under expanding firstOf oneOf noted host
    (fun _ h => absurd h List.not_mem_nil)
    (fun _ _ hfirst hrest member hmem =>
      (List.mem_cons.1 hmem).elim (fun h => h ▸ hfirst) (hrest member)) r

/-- Built of this library's resolvers alone, without sources of a host and without notes. -/
inductive IsOwn : Resolver η → Prop where
  | table (entries : Table) : IsOwn (.table entries)
  | document (root : Element) (matchRoot : Bool) : IsOwn (.document root matchRoot)
  | environment : IsOwn .environment
  | oneOf : IsOwn .oneOf
  | under {inner : Resolver η} (lead : String) : IsOwn inner → IsOwn (.under lead inner)
  | expanding {inner : Resolver η} : IsOwn inner → IsOwn (.expanding inner)
  | firstOf {members : List (Resolver η)} :
    (∀ member ∈ members, IsOwn member) → IsOwn (.firstOf members)

def oneOfLead : String := "oneof:"

def environmentLead : String := "env."

def environmentVariables : Resolver η := .under environmentLead .environment

def lead? : Resolver η → Option String
  | .under lead _ => some lead
  | .oneOf => some oneOfLead
  | .noted _ lead inner => match lead with
    | some lead => some lead
    | none => inner.lead?
  | .table _ | .document .. | .environment | .expanding _ | .firstOf _ | .host _ => none

def mayKnow (r : Resolver η) (name : String) : Bool :=
  match r.lead? with
  | some lead => (Text.stripLead lead name).isSome
  | none => true

end Resolver

end ConfigOverlay
