import ConfigOverlay.Proofs.Property.Requests

set_option autoImplicit false

namespace ConfigOverlay

variable {η σ : Type}

mutual
/-- One pass as `Resolver.ask` makes it, but no list passes over a member. -/
def Resolver.askThoroughly (around : Surroundings η σ) (guard : Guard σ) (resolve : Resolution σ) :
    Resolver η → Resolution σ
  | .table entries => (Resolver.table entries).ask around guard resolve
  | .document root matchRoot => (Resolver.document root matchRoot).ask around guard resolve
  | .environment => Resolver.environment.ask around guard resolve
  | .under lead inner => fun name =>
    match Text.stripLead lead name with
    | some rest => inner.askThoroughly around guard resolve rest
    | none => pure none
  | .expanding inner => expandAround guard resolve (inner.askThoroughly around guard resolve)
  | .firstOf members => Resolver.askEach around guard resolve members
  | .oneOf => Resolver.oneOf.ask around guard resolve
  | .noted label _ inner => fun name => do
    noteName label name
    inner.askThoroughly around guard resolve name
  | .host source => (Resolver.host source).ask around guard resolve

def Resolver.askEach (around : Surroundings η σ) (guard : Guard σ) (resolve : Resolution σ) :
    List (Resolver η) → Resolution σ
  | [] => fun _ => pure none
  | member :: members => fun name => do
    match ← member.askThoroughly around guard resolve name with
    | some value => pure (some value)
    | none => askEach around guard resolve members name
end

def Resolver.resolveThoroughly (around : Surroundings η σ) (guard : Guard σ) (chain : Resolver η) :
    Nat → Resolution σ
  | 0 => fun _ s => .error .exhausted s
  | depth + 1 => chain.askThoroughly around guard (resolveThoroughly around guard chain depth)

def Request.thoroughly (around : Surroundings η σ) (chain : Resolver η) :
    Request → Nat → Lookup σ (Option String)
  | .resolve name, depth => chain.resolveThoroughly around Lookup.guarded depth name
  | .expand text, depth => do
    let value ← expandText (chain.resolveThoroughly around Lookup.guarded depth) text
    pure (some value)

section

variable {around : Surroundings η σ} {guard : Guard σ} {resolve : Resolution σ} {r : Resolver η}

theorem Resolver.IsOwn.ask_of_not_mayKnow (h : r.IsOwn) {name : String}
    (hname : r.mayKnow name = false) : r.ask around guard resolve name = pure none := by
  have hlead : ∀ lead, r.lead? = some lead → Text.stripLead lead name = none := fun lead hlead => by
    simpa [mayKnow, hlead] using hname
  cases h with
  | under lead _ => simp only [ask, hlead lead rfl]
  | oneOf => simp only [ask, hlead oneOfLead rfl]
  | table | document | environment | expanding | firstOf => simp [mayKnow, lead?] at hname

theorem Resolver.askFirst_eq_askEach {members : List (Resolver η)}
    (hown : ∀ member ∈ members, member.IsOwn)
    (hask : ∀ member ∈ members,
      member.ask around guard resolve = member.askThoroughly around guard resolve) :
    askFirst around guard resolve members = askEach around guard resolve members := by
  induction members with
  | nil => rfl
  | cons member members ih =>
    have hrest := ih (fun other hother => hown other (List.mem_cons_of_mem member hother))
      fun other hother => hask other (List.mem_cons_of_mem member hother)
    funext name
    simp only [askFirst, askEach, ← hask member List.mem_cons_self, hrest]
    cases hname : member.mayKnow name with
    | true => rfl
    | false =>
      have habsent : member.ask around guard resolve name = pure none :=
        (hown member List.mem_cons_self).ask_of_not_mayKnow hname
      rw [habsent, if_neg Bool.false_ne_true]
      rfl

theorem Resolver.IsOwn.ask_eq_askThoroughly (h : r.IsOwn) :
    r.ask around guard resolve = r.askThoroughly around guard resolve := by
  induction h with
  | table | document | environment | oneOf => rfl
  | under lead _ ih =>
    funext name
    cases hrest : Text.stripLead lead name with
    | none => simp only [ask, askThoroughly, hrest]
    | some rest => simp only [ask, askThoroughly, hrest, ih]
  | expanding _ ih => rw [ask, askThoroughly, ih]
  | firstOf hmembers ih =>
    rw [ask, askThoroughly]
    exact Resolver.askFirst_eq_askEach hmembers ih

end

variable {chain : Resolver η}

theorem Resolver.IsOwn.resolveWithin_eq_resolveThoroughly (h : chain.IsOwn)
    (around : Surroundings η σ) (guard : Guard σ) (depth : Nat) :
    chain.resolveWithin around guard depth = chain.resolveThoroughly around guard depth := by
  induction depth with
  | zero => rfl
  | succ depth ih => rw [resolveWithin, resolveThoroughly, ih, h.ask_eq_askThoroughly]

theorem Resolver.IsOwn.within_eq_thoroughly (h : chain.IsOwn) (around : Surroundings η σ)
    (request : Request) (depth : Nat) :
    request.within around chain depth = request.thoroughly around chain depth := by
  have hresolve := h.resolveWithin_eq_resolveThoroughly around Lookup.guarded depth
  cases request with
  | resolve name => rw [Request.within, Request.thoroughly, hresolve]
  | expand text => rw [Request.within, Request.thoroughly, Resolver.expandWithin, hresolve]

/-- Passing over members changes nothing: with all members asked, at the top of the chain and
wherever it is begun again, a request ends in the same way and leaves the same session, with the
same names in progress. -/
theorem skipping_changes_nothing {chain : Resolver η} (h : chain.IsOwn) (around : Surroundings η σ)
    (request : Request) (s : Session σ) :
    (∀ depth, request.within around chain depth s = request.thoroughly around chain depth s) ∧
      request.run around chain s =
        request.thoroughly around chain (request.bound around chain) s := by
  refine ⟨fun depth => ?_, ?_⟩
  · rw [h.within_eq_thoroughly around request depth]
  · rw [request.run_eq, h.within_eq_thoroughly]

def siteSettings : Resolver Empty :=
  .firstOf [
    .under "site." (.expanding (.table (.ofPairs [("url", "http://${site.host}/${home}")]))),
    .firstOf [.oneOf, .expanding .environmentVariables],
    .expanding (.table (.ofPairs [("home", "${oneof:${env.HOME},root}"), ("site.host", "h")]))]

theorem skipping_changes_nothing_siteSettings :
    siteSettings.IsOwn ∧
    ((Request.expand "${site.url}").thoroughly (noHost .empty) siteSettings 8).outcome
      ⟨["user"], [], ()⟩ = .ok (some "http://h/root") := by
  have hown : siteSettings.IsOwn := by
    refine .firstOf fun member hmember => ?_
    simp only [List.mem_cons, List.not_mem_nil, or_false] at hmember
    rcases hmember with rfl | rfl | rfl
    · exact .under _ (.expanding (.table _))
    · refine .firstOf fun member hmember => ?_
      simp only [List.mem_cons, List.not_mem_nil, or_false] at hmember
      rcases hmember with rfl | rfl
      · exact .oneOf
      · exact .expanding (.under _ .environment)
    · exact .expanding (.table _)
  have hsame := (skipping_changes_nothing hown (noHost .empty) (.expand "${site.url}")
    ⟨["user"], [], ()⟩).1 8
  refine ⟨hown, (Lookup.outcome_congr hsame).symm.trans ?_⟩
  decide +kernel

end ConfigOverlay
