import ConfigOverlay.Proofs.Property.Sources
import ConfigOverlay.Proofs.Property.Unguarded

set_option autoImplicit false

namespace ConfigOverlay

variable {η σ : Type}

def knownValue? (environment : Environment) (sources : List (Resolver η)) (name : String) :
    Option String :=
  sources.findSome? (·.plainValue? environment name)

structure Admits (guard : Guard σ) (name : String) (t inside : Session σ)
    (after : Session σ → Session σ) : Prop where
  run : ∀ body, guard name body t =
    match body inside with
    | .ok a u => .ok a (after u)
    | .error stop u => .error stop (after u)
  back : after inside = t

theorem admits_unguarded (name : String) (t : Session σ) :
    Admits Lookup.unguarded name t t id where
  run body := by
    rw [Lookup.unguarded]
    cases body t <;> rfl
  back := rfl

theorem admits_guarded {name : String} {t : Session σ} (h : name ∉ t.inProgress) :
    Admits Lookup.guarded name t (t.enter name) (·.leave name) where
  run body := by
    rw [Lookup.guarded_of_not_mem body h]
    cases body (t.enter name) <;> rfl
  back := Session.leave_enter h

def expandKnown (resolve : Resolution σ) (value : String) : Lookup σ (Option String) := do
  let expanded ← expandText resolve value
  pure (some expanded)

def expandKnownAround (guard : Guard σ) (resolve : Resolution σ) (name expanded value : String) :
    Lookup σ (Option String) :=
  guard name
    (if expanded = name then expandKnown resolve value
    else guard expanded (expandKnown resolve value))

section

variable {around : Surroundings η σ} {guard : Guard σ} {resolve : Resolution σ}
  {name expanded : String} {t inside : Session σ} {after : Session σ → Session σ}
  (hname : Admits guard name t inside after)

include hname

theorem expandKnownAround_ne_none
    (hexpanded : expanded ≠ name → ∃ inner after', Admits guard expanded inside inner after')
    (value : String) (u : Session σ) :
    expandKnownAround guard resolve name expanded value t ≠ .ok none u := by
  have hknown : ∀ s u, expandKnown resolve value s ≠ .ok none u := by
    intro s u
    simp only [expandKnown, bind, EStateM.bind]
    cases expandText resolve value s with
    | ok a v => exact fun h => nomatch h
    | error stop v => exact fun h => nomatch h
  rw [expandKnownAround, hname.run]
  split_ifs with heq
  · cases h : expandKnown resolve value inside with
    | ok a v =>
      cases a with
      | none => exact absurd h (hknown inside v)
      | some a => exact fun h => nomatch h
    | error stop v => exact fun h => nomatch h
  · obtain ⟨inner, after', hadmits⟩ := hexpanded heq
    rw [hadmits.run]
    cases h : expandKnown resolve value inner with
    | ok a v =>
      cases a with
      | none => exact absurd h (hknown inner v)
      | some a => exact fun h => nomatch h
    | error stop v => exact fun h => nomatch h

theorem ask_expanding {r : Resolver η} (hplain : r.IsPlain)
    (hexpanded : expanded ≠ name → ∃ inner after', Admits guard expanded inside inner after')
    (htext : expandText resolve name inside = .ok expanded inside) :
    (Resolver.expanding r).ask around guard resolve name t =
      match r.plainValue? around.environment expanded with
      | none => .ok none t
      | some value => expandKnownAround guard resolve name expanded value t := by
  have hvalue : ∀ asked, expandValue resolve (r.ask around guard resolve) asked =
      match r.plainValue? around.environment asked with
      | none => pure none
      | some value => expandKnown resolve value := by
    intro asked
    rw [expandValue, hplain.ask_eq asked, pure_bind]
    cases r.plainValue? around.environment asked <;> rfl
  simp only [Resolver.ask, expandAround, expandKnownAround, hname.run, bind, EStateM.bind, htext]
  by_cases heq : expanded = name
  · subst heq
    rw [if_pos rfl, hvalue]
    cases r.plainValue? around.environment expanded with
    | none => simp [pure, EStateM.pure, hname.back]
    | some value => simp
  · obtain ⟨inner, after', hadmits⟩ := hexpanded heq
    rw [if_neg heq, hvalue]
    cases r.plainValue? around.environment expanded with
    | none => simp [pure, EStateM.pure, hadmits.run, hadmits.back, hname.back]
    | some value => simp [heq]

theorem askFirst_expanding {sources : List (Resolver η)} (hplain : ∀ r ∈ sources, r.IsPlain)
    (hexpanded : expanded ≠ name → ∃ inner after', Admits guard expanded inside inner after')
    (htext : expandText resolve name inside = .ok expanded inside) :
    Resolver.askFirst around guard resolve (sources.map .expanding) name t =
      match knownValue? around.environment sources expanded with
      | none => .ok none t
      | some value => expandKnownAround guard resolve name expanded value t := by
  induction sources with
  | nil => rfl
  | cons r rest ih =>
    have hrest := ih fun other hother => hplain other (List.mem_cons_of_mem r hother)
    have hask : (Resolver.expanding r).ask around guard resolve name t = _ :=
      ask_expanding hname (hplain r List.mem_cons_self) hexpanded htext
    have hmay : (Resolver.expanding r).mayKnow name = true := rfl
    simp only [List.map_cons, Resolver.askFirst, hmay, if_true, bind, EStateM.bind]
    rw [hask, knownValue?, List.findSome?_cons]
    cases r.plainValue? around.environment expanded with
    | none => exact hrest
    | some value =>
      have hne : ∀ u, expandKnownAround guard resolve name expanded value t ≠ .ok none u :=
        expandKnownAround_ne_none hname hexpanded value
      cases h : expandKnownAround guard resolve name expanded value t with
      | ok a u =>
        cases a with
        | none => exact absurd h (hne u)
        | some a =>
          simp only [h]
          rfl
      | error stop u => simp only [h]

theorem askFirst_expanding_error {sources : List (Resolver η)} (hne : sources ≠ []) {stop : Stop}
    {u : Session σ} (htext : expandText resolve name inside = .error stop u) :
    Resolver.askFirst around guard resolve (sources.map .expanding) name t =
      .error stop (after u) := by
  cases sources with
  | nil => exact absurd rfl hne
  | cons r rest =>
    have hmay : (Resolver.expanding r).mayKnow name = true := rfl
    simp only [List.map_cons, Resolver.askFirst, hmay, if_true, Resolver.ask, expandAround, bind,
      EStateM.bind, hname.run, htext]

end

end ConfigOverlay
