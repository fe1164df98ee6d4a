import ConfigOverlay.Property.Resolve

set_option autoImplicit false

namespace ConfigOverlay

variable {η σ : Type}

/-- Lookups made of related lookups are related. -/
structure Lookup.Congruence (R : {α : Type} → Lookup σ α → Lookup σ α → Prop) : Prop where
  pure : ∀ {α : Type} (a : α), R (pure a) (pure a)
  bind : ∀ {α β : Type} {x y : Lookup σ α} {f g : α → Lookup σ β}, R x y → (∀ a, R (f a) (g a)) →
    R (x >>= f) (y >>= g)
  notFound : ∀ {α : Type} (name : String), R (α := α) (fail (.notFound name)) (fail (.notFound name))
  orAbsent : ∀ {α : Type} {x y : Lookup σ (Option α)}, R x y → R x.orAbsent y.orAbsent

namespace Lookup.Congruence

variable {R : {α : Type} → Lookup σ α → Lookup σ α → Prop} (hR : Congruence R)
  {resolve resolve' inner inner' : Resolution σ}

include hR

theorem expandAll {parts : List Part}
    (h : ∀ name, .placeholder name ∈ parts → R (resolve name) (resolve' name)) :
    R (Part.expandAll resolve parts) (Part.expandAll resolve' parts) := by
  induction parts with
  | nil => exact hR.pure ""
  | cons part rest ih =>
    have hrest := ih fun name hn => h name (List.mem_cons_of_mem part hn)
    cases part with
    | literal text => exact hR.bind hrest fun others => hR.pure _
    | placeholder name =>
      refine hR.bind (h name List.mem_cons_self) fun value => ?_
      cases value with
      | none => exact hR.notFound name
      | some value => exact hR.bind hrest fun others => hR.pure _

theorem expandAll? {parts : List Part}
    (h : ∀ name, .placeholder name ∈ parts → R (resolve name) (resolve' name)) :
    R (Part.expandAll? resolve parts) (Part.expandAll? resolve' parts) := by
  induction parts with
  | nil => exact hR.pure _
  | cons part rest ih =>
    have hrest := ih fun name hn => h name (List.mem_cons_of_mem part hn)
    cases part with
    | literal text => exact hR.bind hrest fun others => hR.pure _
    | placeholder name =>
      refine hR.bind (hR.orAbsent (h name List.mem_cons_self)) fun value => ?_
      cases value with
      | none => exact hR.pure none
      | some value => exact hR.bind hrest fun others => hR.pure _

theorem expandFirst? {alternatives : List (List Part)}
    (h : ∀ parts ∈ alternatives, ∀ name, .placeholder name ∈ parts →
      R (resolve name) (resolve' name)) :
    R (Part.expandFirst? resolve alternatives) (Part.expandFirst? resolve' alternatives) := by
  induction alternatives with
  | nil => exact hR.pure none
  | cons parts others ih =>
    refine hR.bind (hR.expandAll? (h parts List.mem_cons_self)) fun value => ?_
    cases value with
    | none => exact ih fun parts' hparts => h parts' (List.mem_cons_of_mem parts hparts)
    | some value => exact hR.pure _

theorem expandText {text : String}
    (h : ∀ name, .placeholder name ∈ Part.ofText text → R (resolve name) (resolve' name)) :
    R (ConfigOverlay.expandText resolve text) (ConfigOverlay.expandText resolve' text) := by
  unfold ConfigOverlay.expandText
  split
  · exact hR.expandAll h
  · exact hR.pure text

theorem expandValue {name : String} (hinner : R (inner name) (inner' name))
    (h : ∀ value, R (ConfigOverlay.expandText resolve value)
      (ConfigOverlay.expandText resolve' value)) :
    R (ConfigOverlay.expandValue resolve inner name)
      (ConfigOverlay.expandValue resolve' inner' name) := by
  refine hR.bind hinner fun value => ?_
  cases value with
  | none => exact hR.pure none
  | some value => exact hR.bind (h value) fun expanded => hR.pure _

end Lookup.Congruence

variable {R : {α : Type} → Lookup σ α → Lookup σ α → Prop}

def GuardsRelate (R : {α : Type} → Lookup σ α → Lookup σ α → Prop) (guard guard' : Guard σ) :
    Prop :=
  ∀ name x y, R x y → R (guard name x) (guard' name y)

structure HostRelates (R : {α : Type} → Lookup σ α → Lookup σ α → Prop)
    (around : Surroundings η σ) : Prop where
  noted : ∀ label name, R (noteName label name) (noteName label name)
  asked : ∀ source name, R (askHost around source name) (askHost around source name)

section

variable (hR : Lookup.Congruence R) {around : Surroundings η σ} {guard guard' : Guard σ}
  {resolve resolve' inner inner' : Resolution σ}

include hR

theorem Lookup.Congruence.expandAround (hguard : GuardsRelate R guard guard')
    (hresolve : ∀ name, R (resolve name) (resolve' name))
    (hinner : ∀ name, R (inner name) (inner' name)) (name : String) :
    R (ConfigOverlay.expandAround guard resolve inner name)
      (ConfigOverlay.expandAround guard' resolve' inner' name) := by
  have htext : ∀ text, R (ConfigOverlay.expandText resolve text)
      (ConfigOverlay.expandText resolve' text) :=
    fun text => hR.expandText fun name _ => hresolve name
  refine hguard name _ _ (hR.bind (htext name) fun expanded => ?_)
  split
  · exact hR.expandValue (hinner name) htext
  · exact hguard expanded _ _ (hR.expandValue (hinner expanded) htext)

theorem Lookup.Congruence.askFirst {members : List (Resolver η)} {name : String}
    (h : ∀ member ∈ members, R (member.ask around guard resolve name)
      (member.ask around guard' resolve' name)) :
    R (Resolver.askFirst around guard resolve members name)
      (Resolver.askFirst around guard' resolve' members name) := by
  induction members with
  | nil => exact hR.pure none
  | cons member members ih =>
    have hrest := ih fun other hother => h other (List.mem_cons_of_mem member hother)
    simp only [Resolver.askFirst]
    split
    · refine hR.bind (h member List.mem_cons_self) fun value => ?_
      cases value with
      | none => exact hrest
      | some value => exact hR.pure _
    · exact hrest

theorem Lookup.Congruence.ask {r : Resolver η} (hhost : ¬ r.IsOwn → HostRelates R around)
    (hguard : GuardsRelate R guard guard') (hresolve : ∀ name, R (resolve name) (resolve' name))
    (name : String) :
    R (r.ask around guard resolve name) (r.ask around guard' resolve' name) := by
  induction r using Resolver.induction generalizing name with
  | table entries => exact hR.pure _
  | document root matchRoot => exact hR.pure _
  | environment => exact hR.pure _
  | under lead inner ih =>
    simp only [Resolver.ask]
    split
    · exact ih (fun h => hhost fun how => h (by cases how; assumption)) _
    · exact hR.pure none
  | expanding inner ih =>
    refine hR.expandAround hguard hresolve (ih fun h => hhost fun how => h ?_) name
    cases how
    assumption
  | firstOf members ih =>
    refine hR.askFirst fun member hmember => ih member hmember (fun h => hhost fun how => h ?_) name
    cases how with
    | firstOf hmembers => exact hmembers member hmember
  | oneOf =>
    simp only [Resolver.ask]
    split
    · exact hR.expandFirst? fun _ _ name _ => hresolve name
    · exact hR.pure none
  | noted label lead inner ih =>
    have hrelates := hhost fun how => nomatch how
    exact hR.bind (hrelates.noted label name) fun _ => ih (fun _ => hrelates) name
  | host source => exact (hhost fun how => nomatch how).asked source name

section

variable {chain : Resolver η} (hhost : ¬ chain.IsOwn → HostRelates R around)
  (hguard : GuardsRelate R guard guard')
  (hexhausted : R (fun s => .error .exhausted s : Lookup σ (Option String)) fun s =>
    .error .exhausted s)

include hhost hguard hexhausted

/-- So does resolving a name, if the relation holds where the bound is reached. -/
theorem Lookup.Congruence.resolveWithin (depth : Nat) (name : String) :
    R (chain.resolveWithin around guard depth name)
      (chain.resolveWithin around guard' depth name) := by
  induction depth generalizing name with
  | zero => exact hexhausted
  | succ depth ih => exact hR.ask hhost hguard ih name

theorem Lookup.Congruence.expandWithin (depth : Nat) (text : String) :
    R (chain.expandWithin around guard depth text)
      (chain.expandWithin around guard' depth text) :=
  hR.expandText fun name _ => hR.resolveWithin hhost hguard hexhausted depth name

end

end

end ConfigOverlay
