import ConfigOverlay.Proofs.Property.Clean
import ConfigOverlay.Proofs.Property.Comparison

/-!
Resolving without marks. Nothing is in progress then, so a cycle goes on until the bound is reached,
and what comes of a name has nothing to do with the session. Of clean texts come values without
dollar signs.
-/

set_option autoImplicit false

namespace ConfigOverlay

variable {η σ α β : Type}

def Lookup.unguarded : Guard σ := fun _ body => body

theorem unguarded_mono (P : Session σ → Session σ → Prop) (Open : Stop → Prop) :
    GuardsRelate (Lookup.Follows P Open) Lookup.unguarded Lookup.unguarded := fun _ _ _ hxy => hxy

structure Session.SameBesideMarks (s t : Session σ) : Prop where
  notes : s.notes = t.notes
  host : s.host = t.host

theorem Session.carried_sameBesideMarks : @Session.Carried σ Session.SameBesideMarks where
  host_eq h := h.host
  noted _ h := ⟨by rw [h.notes], h.host⟩
  asked _ h := ⟨h.notes, rfl⟩

def Stop.isInner : Stop → Prop
  | .exhausted | .failed (.circular _) => True
  | .failed (.notFound _) => False

theorem guarded_follows_unguarded :
    GuardsRelate (σ := σ) (Lookup.Follows Session.SameBesideMarks Stop.isInner) Lookup.guarded
      Lookup.unguarded := by
  intro name x y hxy s t hst
  by_cases hname : name ∈ s.inProgress
  · rw [Lookup.guarded_of_mem x hname]
    exact .inl trivial
  · have hbody := hxy (s.enter name) t ⟨hst.notes, hst.host⟩
    rw [Lookup.guarded_of_not_mem x hname]
    cases hx : x (s.enter name) with
    | ok a s' =>
      rw [hx] at hbody
      obtain ⟨t', hy, ht'⟩ := hbody
      exact ⟨t', hy, ⟨ht'.notes, ht'.host⟩⟩
    | error stop s' =>
      rw [hx] at hbody
      rcases hbody with hinner | ⟨t', hy, ht'⟩
      · exact .inl hinner
      · exact .inr ⟨t', hy, ⟨ht'.notes, ht'.host⟩⟩

/-- What a chain answers with marks it answers without them, whatever chain it is. -/
theorem Resolver.expandWithin_follows_unguarded (around : Surroundings η σ) (chain : Resolver η)
    (depth : Nat) (text : String) :
    (chain.expandWithin around Lookup.guarded depth text).Follows Session.SameBesideMarks
      Stop.isInner (chain.expandWithin around Lookup.unguarded depth text) := by
  refine (follows_congruence fun _ => id).expandText fun name _ => ?_
  refine resolveWithin_follows around (fun _ => Session.carried_sameBesideMarks) ?_ trivial
    guarded_follows_unguarded depth 0 name
  exact fun _ h => h

def Lookup.ofExcept (result : Except Stop α) : Lookup σ α := fun s =>
  match result with
  | .ok a => .ok a s
  | .error stop => .error stop s

@[simp]
theorem Lookup.outcome_ofExcept (result : Except Stop α) (s : Session σ) :
    (ofExcept result).outcome s = result := by
  cases result <;> rfl

/-- Wherever it is begun, it ends in the same way, and does nothing to the session. -/
def Lookup.Steady (x : Lookup σ α) : Prop :=
  ∀ s₀ t₀, Lookup.Follows (fun s t => s = s₀ ∧ t = t₀) (fun _ => False) x x

theorem Lookup.Steady.exists_eq {x : Lookup σ α} (h : Steady x) (s : Session σ) :
    ∃ result, x = ofExcept result := by
  cases hx : x s with
  | ok a s' =>
    refine ⟨.ok a, funext fun t => ?_⟩
    have ht := h s t s t ⟨rfl, rfl⟩
    rw [hx] at ht
    obtain ⟨t', hxt, -, rfl⟩ := ht
    exact hxt
  | error stop s' =>
    refine ⟨.error stop, funext fun t => ?_⟩
    have ht := h s t s t ⟨rfl, rfl⟩
    rw [hx] at ht
    obtain ⟨t', hxt, -, rfl⟩ := ht.resolve_left id
    exact hxt

theorem Lookup.Follows.eq_ofExcept {result : Except Stop α} {y : Lookup σ α}
    (h : Follows Eq (· = .exhausted) (ofExcept result) y) (hresult : result ≠ .error .exhausted) :
    y = ofExcept result := by
  funext s
  have hs := h s s rfl
  cases result with
  | ok a =>
    obtain ⟨_, hy, rfl⟩ := hs
    exact hy
  | error stop =>
    rcases hs with rfl | ⟨_, hy, rfl⟩
    · exact absurd rfl hresult
    · exact hy

variable {around : Surroundings η σ} {chain : Resolver η}

theorem Resolver.IsOwn.steady_resolveWithin (h : chain.IsOwn) (depth : Nat) (name : String) :
    (chain.resolveWithin around Lookup.unguarded depth name).Steady := by
  intro s₀ t₀
  exact (follows_congruence fun _ => id).resolveWithin (fun hn => absurd h hn) (unguarded_mono _ _)
    (fun _ t hst => .inr ⟨t, rfl, hst⟩) depth name

theorem Resolver.IsPlain.isOwn {r : Resolver η} (h : r.IsPlain) : r.IsOwn := by
  induction h with
  | table entries => exact .table entries
  | document root matchRoot => exact .document root matchRoot
  | environment => exact .environment
  | under lead _ ih => exact .under lead ih
  | firstOf _ ih => exact .firstOf ih

def Lookup.Gives (Value : α → Prop) (Allowed : Stop → Prop) (x : Lookup σ α) : Prop :=
  ∀ s, match x s with
    | .ok a _ => Value a
    | .error stop _ => Allowed stop

section

variable {Value : α → Prop} {Allowed : Stop → Prop}

namespace Lookup

theorem gives_pure {a : α} (h : Value a) : Gives Value Allowed (pure a : Lookup σ α) := fun _ => h

theorem gives_fail {error : PropertyError} (h : Allowed (.failed error)) :
    Gives Value Allowed (fail error : Lookup σ α) := fun _ => h

theorem Gives.bind {Result : β → Prop} {x : Lookup σ α} {f : α → Lookup σ β}
    (hx : Gives Value Allowed x) (hf : ∀ a, Value a → Gives Result Allowed (f a)) :
    Gives Result Allowed (x >>= f) := by
  intro s
  have hs := hx s
  simp only [Bind.bind, EStateM.bind]
  cases h : x s with
  | ok a t =>
    rw [h] at hs
    exact hf a hs t
  | error stop t =>
    rw [h] at hs
    exact hs

theorem Gives.orAbsent {Value : Option α → Prop} {x : Lookup σ (Option α)} (hnone : Value none)
    (hx : Gives Value Allowed x) : Gives Value Allowed x.orAbsent := by
  intro s
  have hs := hx s
  simp only [Lookup.orAbsent]
  cases h : x s with
  | ok a t =>
    rw [h] at hs
    exact hs
  | error stop t =>
    rw [h] at hs
    cases stop with
    | failed error =>
      cases error with
      | notFound name => exact hnone
      | circular name => exact hs
    | exhausted => exact hs

theorem Gives.of_outcome {x : Lookup σ α} {s : Session σ} {stop : Stop}
    (h : Gives Value Allowed x) (hx : x.outcome s = .error stop) : Allowed stop := by
  have hs := h s
  simp only [outcome] at hx
  cases hr : x s with
  | ok a t =>
    rw [hr] at hx
    cases hx
  | error stop' t =>
    rw [hr] at hs hx
    cases hx
    exact hs

end Lookup

def Text.IsLiteral (text : String) : Prop := '$' ∉ text.toList

theorem Text.IsLiteral.append {a b : String} (ha : IsLiteral a) (hb : IsLiteral b) :
    IsLiteral (a ++ b) := by
  intro h
  rw [String.toList_append] at h
  rcases List.mem_append.1 h with h | h
  · exact ha h
  · exact hb h

def Text.IsLiteralIfAny (value : Option String) : Prop := ∀ text ∈ value, IsLiteral text

theorem Text.isLiteralIfAny_none : IsLiteralIfAny none := by
  simp [IsLiteralIfAny]

open Lookup Text

variable {resolve : Resolution σ}
  (hresolve : ∀ name : String, isClean name.toList → Gives IsLiteralIfAny Allowed (resolve name))

include hresolve

namespace Part

theorem gives_expandAll {parts : List Part} (hnotFound : ∀ name, Allowed (.failed (.notFound name)))
    (hparts : ∀ part ∈ parts, part.IsClean) :
    Gives IsLiteral Allowed (expandAll resolve parts) := by
  induction parts with
  | nil => exact gives_pure List.not_mem_nil
  | cons part rest ih =>
    have hpart := hparts part List.mem_cons_self
    have hrest := ih fun other hother => hparts other (List.mem_cons_of_mem part hother)
    cases part with
    | literal text => exact hrest.bind fun others hothers => gives_pure (.append hpart hothers)
    | placeholder name =>
      refine (hresolve name hpart).bind fun value hvalue => ?_
      cases value with
      | none => exact gives_fail (hnotFound name)
      | some value =>
        exact hrest.bind fun others hothers => gives_pure (.append (hvalue value rfl) hothers)

theorem gives_expandAll? {parts : List Part} (hparts : ∀ part ∈ parts, part.IsClean) :
    Gives IsLiteralIfAny Allowed (expandAll? resolve parts) := by
  have hmap : ∀ {text : String} {others : Option String}, IsLiteral text → IsLiteralIfAny others →
      IsLiteralIfAny (others.map (text ++ ·)) := by
    intro text others htext hothers whole hwhole
    obtain ⟨other, hother, rfl⟩ := Option.map_eq_some_iff.1 hwhole
    exact htext.append (hothers other hother)
  induction parts with
  | nil => exact gives_pure fun text htext => by cases htext; exact List.not_mem_nil
  | cons part rest ih =>
    have hpart := hparts part List.mem_cons_self
    have hrest := ih fun other hother => hparts other (List.mem_cons_of_mem part hother)
    cases part with
    | literal text => exact hrest.bind fun others hothers => gives_pure (hmap hpart hothers)
    | placeholder name =>
      refine ((hresolve name hpart).orAbsent isLiteralIfAny_none).bind fun value hvalue => ?_
      cases value with
      | none => exact gives_pure isLiteralIfAny_none
      | some value =>
        exact hrest.bind fun others hothers => gives_pure (hmap (hvalue value rfl) hothers)

theorem gives_expandFirst? {alternatives : List (List Part)}
    (h : ∀ parts ∈ alternatives, ∀ part ∈ parts, part.IsClean) :
    Gives IsLiteralIfAny Allowed (expandFirst? resolve alternatives) := by
  induction alternatives with
  | nil => exact gives_pure isLiteralIfAny_none
  | cons parts others ih =>
    refine (gives_expandAll? hresolve (h parts List.mem_cons_self)).bind fun value hvalue => ?_
    cases value with
    | none => exact ih fun parts' hparts => h parts' (List.mem_cons_of_mem parts hparts)
    | some value => exact gives_pure hvalue

end Part

theorem gives_expandText {text : String} (hnotFound : ∀ name, Allowed (.failed (.notFound name)))
    (htext : isClean text.toList) : Gives IsLiteral Allowed (expandText resolve text) := by
  unfold expandText
  split
  · exact Part.gives_expandAll hresolve hnotFound (Part.isClean_of_mem_ofText htext)
  · next hopens =>
    exact gives_pure (not_mem_of_isClean htext (Bool.eq_false_iff.2 hopens))

end

end ConfigOverlay
