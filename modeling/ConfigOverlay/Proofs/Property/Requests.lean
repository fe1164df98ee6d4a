import ConfigOverlay.Proofs.Property.Termination
import ConfigOverlay.Proofs.Property.Unguarded

/-!
Requests to a chain, made one after another in one session. A chain of this library's resolvers
leaves a session as it was, for every way out of a resolution takes away the marks that were made on
the way in. So a request does not tell which ones came before it. Nor does it tell for which others
it is made: names in progress make a difference where one of them is asked for again, and such a
cycle is not taken for a name without a value, so it ends the request.
-/

set_option autoImplicit false

namespace ConfigOverlay

variable {η σ α β : Type}

def Lookup.Alike (x y : Lookup σ α) : Prop :=
  ∀ s t : Session σ, s.inProgress = t.inProgress →
    ∃ result, x s = ofExcept result s ∧ y t = ofExcept result t

namespace Lookup

theorem Alike.bind {x y : Lookup σ α} {f g : α → Lookup σ β} (hxy : Alike x y)
    (hfg : ∀ a, Alike (f a) (g a)) : Alike (x >>= f) (y >>= g) := by
  intro s t hst
  obtain ⟨result, hx, hy⟩ := hxy s t hst
  simp only [Bind.bind, EStateM.bind, hx, hy]
  cases result with
  | ok a => exact hfg a s t hst
  | error stop => exact ⟨.error stop, rfl, rfl⟩

theorem Alike.orAbsent {x y : Lookup σ (Option α)} (hxy : Alike x y) :
    Alike x.orAbsent y.orAbsent := by
  intro s t hst
  obtain ⟨result, hx, hy⟩ := hxy s t hst
  simp only [Lookup.orAbsent, hx, hy]
  cases result with
  | ok a => exact ⟨.ok a, rfl, rfl⟩
  | error stop =>
    cases stop with
    | failed error =>
      cases error with
      | notFound name => exact ⟨.ok none, rfl, rfl⟩
      | circular name => exact ⟨.error (.failed (.circular name)), rfl, rfl⟩
    | exhausted => exact ⟨.error .exhausted, rfl, rfl⟩

theorem alike_congruence : Congruence (σ := σ) Alike where
  pure a _ _ _ := ⟨.ok a, rfl, rfl⟩
  bind := Alike.bind
  notFound name _ _ _ := ⟨.error (.failed (.notFound name)), rfl, rfl⟩
  orAbsent := Alike.orAbsent

theorem guarded_alike : GuardsRelate (σ := σ) Alike guarded guarded := by
  intro name x y hxy s t hst
  by_cases hname : name ∈ s.inProgress
  · exact ⟨.error (.failed (.circular name)), guarded_of_mem x hname,
      guarded_of_mem y (hst ▸ hname)⟩
  · have hname' : name ∉ t.inProgress := hst ▸ hname
    obtain ⟨result, hx, hy⟩ := hxy (s.enter name) (t.enter name) (congrArg (name :: ·) hst)
    refine ⟨result, ?_, ?_⟩
    · rw [guarded_of_not_mem x hname, hx]
      cases result <;> simp only [ofExcept, Session.leave_enter hname]
    · rw [guarded_of_not_mem y hname', hy]
      cases result <;> simp only [ofExcept, Session.leave_enter hname']

def after (x : Lookup σ α) (s : Session σ) : Session σ :=
  match x s with
  | .ok _ t => t
  | .error _ t => t

@[simp] theorem after_ofExcept (result : Except Stop α) (s : Session σ) :
    (ofExcept result).after s = s := by
  cases result <;> rfl

section

variable {x : Lookup σ α} (h : Alike x x)

include h

theorem Alike.eq_ofExcept {s t : Session σ} (hst : s.inProgress = t.inProgress) :
    x t = ofExcept (x.outcome s) t := by
  obtain ⟨result, hs, ht⟩ := h s t hst
  rw [ht, outcome, hs]
  cases result <;> rfl

theorem Alike.after_eq (s : Session σ) : x.after s = s := by
  have hs := h.eq_ofExcept (rfl : s.inProgress = s.inProgress)
  rw [after, hs]
  exact after_ofExcept _ s

theorem Alike.outcome_eq {s t : Session σ} (hst : s.inProgress = t.inProgress) :
    x.outcome t = x.outcome s := by
  rw [outcome, h.eq_ofExcept hst]
  exact outcome_ofExcept _ t

end

end Lookup

open Lookup

/-- What a chain is asked for: the value of a name, or a text with its placeholders expanded. -/
inductive Request where
  | resolve (name : String)
  | expand (text : String)

section

variable (around : Surroundings η σ) (chain : Resolver η)

def Request.run : Request → Lookup σ (Option String)
  | .resolve name => chain.resolve around name
  | .expand text => do
    let value ← chain.expand around text
    pure (some value)

def Request.within : Request → Nat → Lookup σ (Option String)
  | .resolve name, depth => chain.resolveWithin around Lookup.guarded depth name
  | .expand text, depth => do
    let value ← chain.expandWithin around Lookup.guarded depth text
    pure (some value)

def Request.bound : Request → Nat
  | .resolve text | .expand text => Resolver.depthBound (chain.valueSize around.environment) text

theorem Request.run_eq (request : Request) :
    request.run around chain = request.within around chain (request.bound around chain) := by
  cases request <;> rfl

/-- The answers to requests made one after another. -/
def answersFrom : Session σ → List Request → List (Except Stop (Option String))
  | _, [] => []
  | s, request :: requests =>
    (request.run around chain).outcome s ::
      answersFrom ((request.run around chain).after s) requests

/-- Made one after another, the requests end with these answers, however deep resolutions have to be
nested for that. -/
inductive Answered : Session σ → List Request → List (Except Stop (Option String)) → Prop where
  | nil (s : Session σ) : Answered s [] []
  | cons {s t : Session σ} {request : Request} {requests : List Request}
    {answer : Except Stop (Option String)} {answers : List (Except Stop (Option String))} :
    Returns (request.within around chain) s (ofExcept answer t) →
      Answered t requests answers → Answered s (request :: requests) (answer :: answers)

end

section

variable {chain : Resolver η} (h : chain.IsOwn) (around : Surroundings η σ)

include h

theorem Lookup.Congruence.within {R : {α : Type} → Lookup σ α → Lookup σ α → Prop}
    (hR : Congruence R) (hguard : GuardsRelate R guarded guarded)
    (hexhausted : R (fun s => .error .exhausted s : Lookup σ (Option String)) fun s =>
      .error .exhausted s)
    (depth : Nat) (request : Request) :
    R (request.within around chain depth) (request.within around chain depth) := by
  have hhost : ¬ chain.IsOwn → HostRelates R around := fun hn => absurd h hn
  cases request with
  | resolve name => exact hR.resolveWithin hhost hguard hexhausted depth name
  | expand text =>
    exact hR.bind (hR.expandWithin hhost hguard hexhausted depth text) fun value =>
      hR.pure (some value)

theorem Resolver.IsOwn.alike_within (depth : Nat) (request : Request) :
    Alike (request.within around chain depth) (request.within around chain depth) :=
  alike_congruence.within h around guarded_alike (fun _ _ _ => ⟨.error .exhausted, rfl, rfl⟩) depth
    request

theorem Resolver.IsOwn.alike_run (request : Request) :
    Alike (request.run around chain) (request.run around chain) := by
  rw [request.run_eq]
  exact h.alike_within around _ request

theorem Resolver.IsOwn.returns_congr {s t : Session σ} (hst : s.inProgress = t.inProgress)
    {request : Request} {answer : Except Stop (Option String)} {u : Session σ}
    (hs : Returns (request.within around chain) s (ofExcept answer u)) :
    u = s ∧ Returns (request.within around chain) t (ofExcept answer t) := by
  obtain ⟨hne, depth, hdeeper⟩ := hs
  have hends : ∀ deeper, depth ≤ deeper →
      (request.within around chain deeper).outcome s = answer := by
    intro deeper hle
    rw [outcome, hdeeper deeper hle]
    exact outcome_ofExcept answer u
  refine ⟨?_, fun v hv => ?_, depth, fun deeper hle => ?_⟩
  · have hafter := (h.alike_within around depth request).after_eq s
    rw [after, hdeeper depth (Nat.le_refl depth)] at hafter
    rw [← hafter]
    exact (after_ofExcept answer u).symm
  · cases answer with
    | ok value => cases hv
    | error stop =>
      cases hv
      exact hne u rfl
  · rw [(h.alike_within around deeper request).eq_ofExcept hst, hends deeper hle]

theorem Resolver.IsOwn.answered_iff (requests : List Request)
    (answers : List (Except Stop (Option String))) {s t : Session σ}
    (hst : s.inProgress = t.inProgress) :
    Answered around chain s requests answers ↔
      List.Forall₂ (fun request answer => Answered around chain t [request] [answer]) requests
        answers := by
  constructor
  · intro hs
    induction hs with
    | nil s => exact .nil
    | cons hfirst _ ih =>
      obtain ⟨rfl, hreturns⟩ := h.returns_congr around hst hfirst
      exact .cons (.cons hreturns (.nil t)) (ih hst)
  · intro ht
    induction ht with
    | nil => exact .nil s
    | cons hfirst _ ih =>
      cases hfirst with
      | cons hreturns _ => exact .cons (h.returns_congr around hst.symm hreturns).2 ih

theorem Resolver.IsOwn.answersFrom_eq (requests : List Request) {s t : Session σ}
    (hst : s.inProgress = t.inProgress) :
    answersFrom around chain s requests =
      requests.map fun request => (request.run around chain).outcome t := by
  induction requests with
  | nil => rfl
  | cons request requests ih =>
    have halike := h.alike_run around request
    rw [answersFrom, halike.after_eq, ih, List.map_cons, halike.outcome_eq hst]

end

def Session.Relaxed (outer inner : Session σ) : Prop := inner.inProgress ⊆ outer.inProgress

theorem guarded_relaxed :
    GuardsRelate (σ := σ) (Follows Session.Relaxed Stop.isInner) guarded guarded := by
  refine guarded_follows (fun _ _ => .inl trivial) (fun hst hs ht => hs (hst ht)) ?_ ?_
  · exact fun hst => List.cons_subset_cons _ hst
  · exact fun hst => List.filter_subset _ hst

section

variable {chain : Resolver η} (h : chain.IsOwn) (around : Surroundings η σ)
  {outer inner : Session σ} (hmarks : Session.Relaxed outer inner) {request : Request}
  {answer : Except Stop (Option String)} (hanswer : ∀ stop, answer = .error stop → ¬ stop.isInner)

include h hmarks hanswer

/-- Neither the bound nor a mark has stopped the request, so it takes the same way with fewer
marks. -/
theorem Resolver.IsOwn.outcome_within_relaxed {depth : Nat}
    (houter : (request.within around chain depth).outcome outer = answer) :
    (request.within around chain depth).outcome inner = answer := by
  have hfollows := (follows_congruence fun _ => id).within h around guarded_relaxed
    (fun _ _ _ => .inl trivial) depth request
  subst houter
  exact hfollows.outcome_eq hmarks hanswer

theorem Resolver.IsOwn.outcome_run_relaxed
    (houter : (request.run around chain).outcome outer = answer) :
    (request.run around chain).outcome inner = answer := by
  rw [request.run_eq] at houter ⊢
  exact h.outcome_within_relaxed around hmarks hanswer houter

theorem Resolver.IsOwn.returns_relaxed
    (houter : Returns (request.within around chain) outer (ofExcept answer outer)) :
    Returns (request.within around chain) inner (ofExcept answer inner) := by
  obtain ⟨-, depth, hdeeper⟩ := houter
  refine ⟨fun t ht => ?_, depth, fun deeper hle => ?_⟩
  · cases answer with
    | ok value => cases ht
    | error stop =>
      cases ht
      exact hanswer .exhausted rfl trivial
  · have houter : (request.within around chain deeper).outcome outer = answer := by
      rw [outcome, hdeeper deeper hle]
      exact outcome_ofExcept answer outer
    rw [(h.alike_within around deeper request).eq_ofExcept rfl,
      h.outcome_within_relaxed around hmarks hanswer houter]

end

/-- A request leaves the session as it was, with the names in progress that there were, whether it
ends with a value, without one or with a failure. So requests made one after another, with no name
in progress at first, end as each of them does alone. -/
theorem marks_never_leak {chain : Resolver η} (h : chain.IsOwn) (around : Surroundings η σ) :
    (∀ (request : Request) (s : Session σ), (request.run around chain).after s = s ∧
      ∀ depth, (request.within around chain depth).after s = s) ∧
    ∀ s fresh : Session σ, s.inProgress = [] → fresh.inProgress = [] → ∀ requests,
      answersFrom around chain s requests =
        requests.map (fun request => (request.run around chain).outcome fresh) ∧
      ∀ answers, Answered around chain s requests answers ↔
        List.Forall₂ (fun request answer => Answered around chain fresh [request] [answer])
          requests answers := by
  refine ⟨fun request s => ⟨(h.alike_run around request).after_eq s, fun depth => ?_⟩, ?_⟩
  · exact (h.alike_within around depth request).after_eq s
  · intro s fresh hs hfresh requests
    have hmarks : s.inProgress = fresh.inProgress := hs.trans hfresh.symm
    exact ⟨h.answersFrom_eq around requests hmarks,
      fun answers => h.answered_iff around requests answers hmarks⟩

def computedNames : Resolver Empty :=
  .expanding (.table (.ofPairs [("n", "a"), ("a", "${${n}}"), ("b", "c")]))

theorem marks_never_leak_computedNames :
    computedNames.IsOwn ∧
    answersFrom (noHost .empty) computedNames (Session.start ())
        [.expand "${${n}}", .expand "${b}", .resolve "b"] =
      [.error (.failed (.circular "${n}")), .ok (some "c"), .ok (some "c")] := by
  have hown : computedNames.IsOwn := .expanding (.table _)
  have halone := ((marks_never_leak hown (noHost .empty)).2 (Session.start ()) (Session.start ())
    rfl rfl [.expand "${${n}}", .expand "${b}", .resolve "b"]).1
  exact ⟨hown, halone.trans (by decide +kernel)⟩

/-- A request that ends with a value, without one or with a name that is not found, ends in the same
way with fewer names in progress. So a name that is resolved inside the resolution of others has the
answer that it has alone, unless a cycle is told. -/
theorem fewer_marks_same_answer {chain : Resolver η} (h : chain.IsOwn) (around : Surroundings η σ)
    {outer inner : Session σ} (hmarks : inner.inProgress ⊆ outer.inProgress) (request : Request)
    {answer : Except Stop (Option String)}
    (hanswer : ∀ name, answer ≠ .error (.failed (.circular name))) :
    (Returns (request.within around chain) outer (ofExcept answer outer) →
      Returns (request.within around chain) inner (ofExcept answer inner)) ∧
    (answer ≠ .error .exhausted → (request.run around chain).outcome outer = answer →
      (request.run around chain).outcome inner = answer) := by
  have houtside : answer ≠ .error .exhausted → ∀ stop, answer = .error stop → ¬ stop.isInner := by
    rintro hne stop rfl hinner
    match stop with
    | .exhausted => exact hne rfl
    | .failed (.circular name) => exact hanswer name rfl
    | .failed (.notFound _) => exact hinner
  constructor
  · intro houter
    refine h.returns_relaxed around hmarks (houtside ?_) houter
    rintro rfl
    exact houter.1 outer rfl
  · intro hne houter
    exact h.outcome_run_relaxed around hmarks (houtside hne) houter

def ratedProperties : Resolver Empty :=
  .firstOf [.oneOf, .expanding (.table (.ofPairs
    [("url", "${host}:${oneof:${port},${rate}0}"), ("host", "h"), ("rate", "8")]))]

theorem fewer_marks_same_answer_ratedProperties :
    ratedProperties.IsOwn ∧
    (Request.run (noHost .empty) ratedProperties (.expand "${url}")).outcome
      ⟨["path", "user"], [], ()⟩ = .ok (some "h:80") ∧
    (Request.run (noHost .empty) ratedProperties (.expand "${url}")).outcome
      ⟨["user"], [], ()⟩ = .ok (some "h:80") := by
  have hown : ratedProperties.IsOwn := by
    refine .firstOf fun member hmember => ?_
    simp only [List.mem_cons, List.not_mem_nil, or_false] at hmember
    rcases hmember with rfl | rfl
    · exact .oneOf
    · exact .expanding (.table _)
  have houter : (Request.run (noHost .empty) ratedProperties (.expand "${url}")).outcome
      ⟨["path", "user"], [], ()⟩ = .ok (some "h:80") := by decide +kernel
  exact ⟨hown, houter, (fewer_marks_same_answer hown (noHost .empty) (by decide) (.expand "${url}")
    (by simp)).2 (by simp) houter⟩

end ConfigOverlay
