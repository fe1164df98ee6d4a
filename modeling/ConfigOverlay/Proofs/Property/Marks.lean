import ConfigOverlay.Proofs.Property.Congruence

set_option autoImplicit false

namespace ConfigOverlay

variable {η σ α β : Type}

/-- Begun with these names in progress, the lookup ends with them, and stops only for a reason that
is allowed. -/
def Lookup.Keeps (marked : List String) (Allowed : Stop → Prop) (x : Lookup σ α) : Prop :=
  ∀ s, s.inProgress = marked →
    match x s with
    | .ok _ t => t.inProgress = marked
    | .error stop t => t.inProgress = marked ∧ Allowed stop

section

variable {marked : List String} {Allowed : Stop → Prop}

namespace Lookup

theorem keeps_pure (a : α) : Keeps marked Allowed (pure a : Lookup σ α) := fun _ hs => hs

theorem Keeps.bind {x : Lookup σ α} {f : α → Lookup σ β} (hx : Keeps marked Allowed x)
    (hf : ∀ a, Keeps marked Allowed (f a)) : Keeps marked Allowed (x >>= f) := by
  intro s hs
  have hxs := hx s hs
  simp only [Bind.bind, EStateM.bind]
  cases h : x s with
  | ok a t =>
    rw [h] at hxs
    exact hf a t hxs
  | error stop t =>
    rw [h] at hxs
    exact hxs

theorem keeps_fail {error : PropertyError} (h : Allowed (.failed error)) :
    Keeps marked Allowed (fail error : Lookup σ α) := fun _ hs => ⟨hs, h⟩

theorem Keeps.orAbsent {body : Lookup σ (Option α)} (h : Keeps marked Allowed body) :
    Keeps marked Allowed body.orAbsent := by
  intro s hs
  have hbody := h s hs
  simp only [Lookup.orAbsent]
  cases hr : body s with
  | ok a t =>
    rw [hr] at hbody
    exact hbody
  | error stop t =>
    rw [hr] at hbody
    match stop with
    | .failed (.notFound _) => exact hbody.1
    | .failed (.circular _) | .exhausted => exact hbody

theorem Keeps.guarded {name : String} {body : Lookup σ α}
    (hcircular : Allowed (.failed (.circular name)))
    (h : name ∉ marked → Keeps (name :: marked) Allowed body) :
    Keeps marked Allowed (body.guarded name) := by
  intro s hs
  by_cases hn : name ∈ marked
  · rw [guarded_of_mem body (hs ▸ hn)]
    exact ⟨hs, hcircular⟩
  · have hbody := h hn (s.enter name) (by rw [Session.enter, hs])
    rw [guarded_of_not_mem body (hs ▸ hn)]
    cases hr : body (s.enter name) with
    | ok a t =>
      rw [hr] at hbody
      exact Session.inProgress_leave hbody hn
    | error stop t =>
      rw [hr] at hbody
      exact ⟨Session.inProgress_leave hbody.1 hn, hbody.2⟩

end Lookup

open Lookup

theorem keeps_congruence (hnotFound : ∀ name, Allowed (.failed (.notFound name))) :
    Congruence (σ := σ) fun x _ => Keeps marked Allowed x where
  pure := keeps_pure
  bind := Keeps.bind
  notFound name := keeps_fail (hnotFound name)
  orAbsent := Keeps.orAbsent

variable {around : Surroundings η σ} {guard : Guard σ} {resolve : Resolution σ}
  (hnotFound : ∀ name, Allowed (.failed (.notFound name)))

include hnotFound

theorem keeps_expandText {text : String}
    (h : ∀ name, .placeholder name ∈ Part.ofText text → Keeps marked Allowed (resolve name)) :
    Keeps marked Allowed (expandText resolve text) :=
  @Congruence.expandText σ _ (keeps_congruence hnotFound) resolve resolve text h

theorem keeps_expandFirst? {alternatives : List (List Part)}
    (h : ∀ parts ∈ alternatives, ∀ name, .placeholder name ∈ parts →
      Keeps marked Allowed (resolve name)) :
    Keeps marked Allowed (Part.expandFirst? resolve alternatives) :=
  @Congruence.expandFirst? σ _ (keeps_congruence hnotFound) resolve resolve alternatives h

theorem keeps_askFirst {members : List (Resolver η)} {name : String}
    (h : ∀ member ∈ members, Keeps marked Allowed (member.ask around guard resolve name)) :
    Keeps marked Allowed (Resolver.askFirst around guard resolve members name) :=
  @Congruence.askFirst η σ _ (keeps_congruence hnotFound) around guard guard resolve resolve members
    name h

end

end ConfigOverlay
