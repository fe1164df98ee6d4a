import ConfigOverlay.Property.Placeholder
import ConfigOverlay.Property.Resolver
import ConfigOverlay.Property.Session

/-!
Resolving names and expanding texts with a chain. One pass asks a resolver and what it is made of;
where a placeholder has to be resolved, the pass is given a way to begin at the top of the chain
again. The chain itself is that way, within a bound on how deep resolutions may be nested.
-/

set_option autoImplicit false

namespace ConfigOverlay

structure Surroundings (η σ : Type) where
  environment : Environment
  askHost : η → String → σ → Except PropertyError (Option String) × σ

variable {η σ : Type}

abbrev Resolution (σ : Type) : Type := String → Lookup σ (Option String)

namespace Part

def expandAll (resolve : Resolution σ) : List Part → Lookup σ String
  | [] => pure ""
  | .literal text :: rest => do
    let others ← expandAll resolve rest
    pure (text ++ others)
  | .placeholder name :: rest => do
    match ← resolve name with
    | none => Lookup.fail (.notFound name)
    | some value =>
      let others ← expandAll resolve rest
      pure (value ++ others)

def expandAll? (resolve : Resolution σ) : List Part → Lookup σ (Option String)
  | [] => pure (some "")
  | .literal text :: rest => do
    let others ← expandAll? resolve rest
    pure (others.map (text ++ ·))
  | .placeholder name :: rest => do
    match ← Lookup.orAbsent (resolve name) with
    | none => pure none
    | some value =>
      let others ← expandAll? resolve rest
      pure (others.map (value ++ ·))

def expandFirst? (resolve : Resolution σ) : List (List Part) → Lookup σ (Option String)
  | [] => pure none
  | parts :: others => do
    match ← expandAll? resolve parts with
    | some value => pure (some value)
    | none => expandFirst? resolve others

end Part

def expandText (resolve : Resolution σ) (text : String) : Lookup σ String :=
  if hasPlaceholders text then Part.expandAll resolve (Part.ofText text) else pure text

def expandValue (resolve inner : Resolution σ) (name : String) : Lookup σ (Option String) := do
  match ← inner name with
  | none => pure none
  | some value =>
    let expanded ← expandText resolve value
    pure (some expanded)

/-- What is done around the resolution of a name that may ask for the same name again. -/
abbrev Guard (σ : Type) : Type := String → Lookup σ (Option String) → Lookup σ (Option String)

/-- Expands a name, asks for what it has become, and expands the value. Both names are guarded
meanwhile. -/
def expandAround (guard : Guard σ) (resolve inner : Resolution σ) (name : String) :
    Lookup σ (Option String) :=
  guard name do
    let expanded ← expandText resolve name
    if expanded = name then expandValue resolve inner name
    else guard expanded (expandValue resolve inner expanded)

def noteName (label name : String) : Lookup σ Unit := fun s =>
  .ok () { s with notes := (label, name) :: s.notes }

def askHost (around : Surroundings η σ) (source : η) (name : String) : Lookup σ (Option String) :=
  fun s =>
    match around.askHost source name s.host with
    | (.ok value, host) => .ok value { s with host := host }
    | (.error e, host) => .error (.failed e) { s with host := host }

mutual
/-- One pass through a resolver, where `resolve` begins at the top of the chain. -/
def Resolver.ask (around : Surroundings η σ) (guard : Guard σ) (resolve : Resolution σ) :
    Resolver η → Resolution σ
  | .table entries => fun name => pure (entries.get? name)
  | .document root matchRoot => fun name => pure (root.lookup matchRoot name)
  | .environment => fun name => pure (around.environment.get? name)
  | .under lead inner => fun name =>
    match Text.stripLead lead name with
    | some rest => inner.ask around guard resolve rest
    | none => pure none
  | .expanding inner => expandAround guard resolve (inner.ask around guard resolve)
  | .firstOf members => Resolver.askFirst around guard resolve members
  | .oneOf => fun name =>
    match Text.stripLead Resolver.oneOfLead name with
    | some body => Part.expandFirst? resolve (alternatives (Part.ofText body))
    | none => pure none
  | .noted label _ inner => fun name => do
    noteName label name
    inner.ask around guard resolve name
  | .host source => askHost around source

def Resolver.askFirst (around : Surroundings η σ) (guard : Guard σ) (resolve : Resolution σ) :
    List (Resolver η) → Resolution σ
  | [] => fun _ => pure none
  | member :: members => fun name => do
    if member.mayKnow name then
      match ← member.ask around guard resolve name with
      | some value => pure (some value)
      | none => askFirst around guard resolve members name
    else askFirst around guard resolve members name
end

namespace Resolver

def resolveWithin (around : Surroundings η σ) (guard : Guard σ) (chain : Resolver η) :
    Nat → Resolution σ
  | 0 => fun _ s => .error .exhausted s
  | depth + 1 => chain.ask around guard (resolveWithin around guard chain depth)

def expandWithin (around : Surroundings η σ) (guard : Guard σ) (chain : Resolver η) (depth : Nat)
    (text : String) : Lookup σ String :=
  expandText (chain.resolveWithin around guard depth) text

mutual
/-- The number of characters in the texts that the values of a chain of this library's resolvers are
pieces of, and of the texts. -/
def valueSize (environment : Environment) : Resolver η → Nat
  | .table entries => entries.entries.valueSize
  | .document root _ => root.valueSize + 1
  | .environment =>
    environment.lines.foldr (fun v size => v.name.length + (v.value.getD "").length + 2 + size) 0
  | .under _ inner => inner.valueSize environment
  | .expanding inner => inner.valueSize environment
  | .firstOf members => valueSizes environment members
  | .oneOf => 0
  | .noted _ _ inner => inner.valueSize environment
  | .host _ => 0

def valueSizes (environment : Environment) : List (Resolver η) → Nat
  | [] => 0
  | member :: members => member.valueSize environment + valueSizes environment members
end

/-- How deep resolutions may be nested. A name that is resolved on the way is a part of the text or
of a value; on the way it is marked, of which there are no more than pairs of places in these, or it
is shorter than the name before it. -/
def depthBound (size : Nat) (text : String) : Nat := Nat.pow (size + text.length + 64) 3

def resolve (around : Surroundings η σ) (chain : Resolver η) : Resolution σ := fun name =>
  chain.resolveWithin around Lookup.guarded
    (depthBound (chain.valueSize around.environment) name) name

def expandSized (around : Surroundings η σ) (chain : Resolver η) (size : Nat) (text : String) :
    Lookup σ String :=
  chain.expandWithin around Lookup.guarded (depthBound size text) text

def expand (around : Surroundings η σ) (chain : Resolver η) (text : String) : Lookup σ String :=
  chain.expandSized around (chain.valueSize around.environment) text

end Resolver

end ConfigOverlay
