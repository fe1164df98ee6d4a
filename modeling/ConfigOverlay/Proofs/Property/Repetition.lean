import ConfigOverlay.Proofs.Property.Requests

/-!
Names that are resolved inside their own resolution. All expanding resolvers of a chain mark names
in one session, each of them the name that it is asked for itself. So a name may be repeated though
no property depends on itself: under a lead the inner resolver is asked for the rest of a name,
which may be a name at the top as well, and an expanding resolver around another one asks it for the
name that it has marked.
-/

set_option autoImplicit false

namespace ConfigOverlay

variable {η σ α β : Type}

open Lookup

def Session.noting (s : Session σ) (names : List String) : Session σ :=
  { s with notes := (names.map ("again", ·)).reverse ++ s.notes }

theorem Session.noting_append (s : Session σ) (names others : List String) :
    (s.noting names).noting others = s.noting (names ++ others) := by
  simp [noting]

/-- Stops nothing. A name that is being resolved already is noted, and resolved again. -/
def Lookup.watched : Guard σ := fun name body s =>
  let noted := if s.isInProgress name then s.noting [name] else s
  match body (noted.enter name) with
  | .ok a t => .ok a { t with inProgress := s.inProgress }
  | .error stop t => .error stop { t with inProgress := s.inProgress }

section

variable {name : String} {body : Lookup σ (Option String)} {s : Session σ}
  {result : Except Stop (Option String)} {repeated : List String}

theorem watched_of_mem (h : name ∈ s.inProgress)
    (hbody : body ((s.noting [name]).enter name) =
      ofExcept result (((s.noting [name]).enter name).noting repeated)) :
    watched name body s = ofExcept result (s.noting (name :: repeated)) := by
  have hmarked : s.isInProgress name = true := by simpa [Session.isInProgress] using h
  have hnotes := s.noting_append [name] repeated
  simp only [watched, hmarked, if_true, hbody]
  cases result with
  | ok a => exact congrArg (EStateM.Result.ok a) hnotes
  | error stop => exact congrArg (EStateM.Result.error stop) hnotes

theorem watched_of_not_mem (h : name ∉ s.inProgress)
    (hbody : body (s.enter name) = ofExcept result ((s.enter name).noting repeated)) :
    watched name body s = ofExcept result (s.noting repeated) := by
  have hfree : s.isInProgress name = false := by simpa [Session.isInProgress] using h
  simp only [watched, hfree, Bool.false_eq_true, if_false, hbody]
  cases result <;> rfl

end

/-- The end of a lookup that is stopped by the first of these names, if there is one. -/
def stoppedBy (repeated : List String) (result : Except Stop α) : Except Stop α :=
  match repeated with
  | [] => result
  | name :: _ => .error (.failed (.circular name))

/-- The first lookup does nothing to the session but note names, and the second one, begun with the
same names in progress, ends as the first one does unless it is stopped by the first of these. -/
def Lookup.Watches (x y : Lookup σ α) : Prop :=
  ∀ s t : Session σ, s.inProgress = t.inProgress → ∃ result repeated,
    x s = ofExcept result (s.noting repeated) ∧ y t = ofExcept (stoppedBy repeated result) t

namespace Lookup

theorem Watches.bind {x y : Lookup σ α} {f g : α → Lookup σ β} (hxy : Watches x y)
    (hfg : ∀ a, Watches (f a) (g a)) : Watches (x >>= f) (y >>= g) := by
  intro s t hst
  obtain ⟨result, repeated, hx, hy⟩ := hxy s t hst
  simp only [Bind.bind, EStateM.bind, hx, hy]
  cases result with
  | error stop => exact ⟨.error stop, repeated, rfl, by cases repeated <;> rfl⟩
  | ok a =>
    obtain ⟨result', others, hf, hg⟩ := hfg a (s.noting repeated) t hst
    refine ⟨result', repeated ++ others, hf.trans (by rw [s.noting_append]), ?_⟩
    cases repeated with
    | nil => exact hg
    | cons name rest => rfl

theorem Watches.orAbsent {x y : Lookup σ (Option α)} (hxy : Watches x y) :
    Watches x.orAbsent y.orAbsent := by
  intro s t hst
  obtain ⟨result, repeated, hx, hy⟩ := hxy s t hst
  simp only [Lookup.orAbsent, hx, hy]
  cases result with
  | ok a => exact ⟨.ok a, repeated, rfl, by cases repeated <;> rfl⟩
  | error fault =>
    cases fault with
    | exhausted => exact ⟨.error .exhausted, repeated, rfl, by cases repeated <;> rfl⟩
    | failed e =>
      cases e with
      | notFound name => exact ⟨.ok none, repeated, rfl, by cases repeated <;> rfl⟩
      | circular name =>
        exact ⟨.error (.failed (.circular name)), repeated, rfl, by cases repeated <;> rfl⟩

theorem watches_congruence : Congruence (σ := σ) Watches where
  pure a _ _ _ := ⟨.ok a, [], rfl, rfl⟩
  bind := Watches.bind
  notFound name _ _ _ := ⟨.error (.failed (.notFound name)), [], rfl, rfl⟩
  orAbsent := Watches.orAbsent

theorem watched_watches : GuardsRelate (σ := σ) Watches watched guarded := by
  intro name x y hxy s t hst
  by_cases hname : name ∈ s.inProgress
  · obtain ⟨result, repeated, hx, -⟩ := hxy ((s.noting [name]).enter name) _ rfl
    exact ⟨result, name :: repeated, watched_of_mem hname hx, guarded_of_mem y (hst ▸ hname)⟩
  · have hname' : name ∉ t.inProgress := hst ▸ hname
    obtain ⟨result, repeated, hx, hy⟩ := hxy (s.enter name) (t.enter name)
      (congrArg (name :: ·) hst)
    refine ⟨result, repeated, watched_of_not_mem hname hx, ?_⟩
    rw [guarded_of_not_mem y hname', hy]
    cases stoppedBy repeated result <;> simp only [ofExcept, Session.leave_enter hname']

theorem watched_follows_unguarded :
    GuardsRelate (σ := σ) (Follows (fun _ _ => True) fun _ => False) watched unguarded := by
  intro name x y hxy s t _
  have hbody := hxy ((if s.isInProgress name then s.noting [name] else s).enter name) t trivial
  simp only [watched]
  cases hx : x ((if s.isInProgress name then s.noting [name] else s).enter name) with
  | ok a u =>
    rw [hx] at hbody
    exact hbody
  | error stop u =>
    rw [hx] at hbody
    exact hbody

end Lookup

section

variable {chain : Resolver η} (h : chain.IsOwn) (around : Surroundings η σ)

include h

theorem Resolver.IsOwn.watches_expandWithin (depth : Nat) (text : String) :
    Watches (chain.expandWithin around watched depth text)
      (chain.expandWithin around guarded depth text) :=
  watches_congruence.expandWithin (fun hn => absurd h hn) watched_watches
    (fun _ _ _ => ⟨.error .exhausted, [], rfl, rfl⟩) depth text

theorem Resolver.IsOwn.outcome_watched (depth : Nat) (text : String) (s : Session σ) :
    (chain.expandWithin around watched depth text).outcome s =
      (chain.expandWithin around unguarded depth text).outcome s := by
  have hfollows : Follows (fun _ _ => True) (fun _ => False)
      (chain.expandWithin around watched depth text)
      (chain.expandWithin around unguarded depth text) :=
    (follows_congruence fun _ => id).expandWithin (fun hn => absurd h hn) watched_follows_unguarded
      (fun _ t _ => .inr ⟨t, rfl, trivial⟩) depth text
  exact (hfollows.outcome_eq (s := s) (t := s) trivial fun _ _ => id).symm

end

theorem stoppedBy_ne_exhausted (repeated : List String) (value : α) :
    stoppedBy repeated (.ok value) ≠ .error .exhausted := by
  cases repeated <;> exact nofun

/-- A text that comes to a value without marks comes to it with marks, too, unless a name is
repeated on the way. In that case the first such name is told as a cycle. -/
theorem cycles_are_repetitions {chain : Resolver η} (h : chain.IsOwn) (around : Surroundings η σ)
    {s : Session σ} {text value : String} {depth : Nat}
    (hvalue : (chain.expandWithin around unguarded depth text).outcome s = .ok value) :
    ∃ repeated : List String,
      chain.expandWithin around watched depth text s = .ok value (s.noting repeated) ∧
      Returns (fun depth => chain.expandWithin around guarded depth text) s
        (ofExcept (stoppedBy repeated (.ok value)) s) ∧
      ((chain.expand around text).outcome s ≠ .error .exhausted →
        (chain.expand around text).outcome s = stoppedBy repeated (.ok value)) := by
  obtain ⟨result, repeated, hwatched, hguarded⟩ := h.watches_expandWithin around depth text s s rfl
  have hresult : result = .ok value := by
    rw [← hvalue, ← h.outcome_watched around depth text s, outcome, hwatched]
    cases result <;> rfl
  subst hresult
  have hmono : ∀ depth extra, (chain.expandWithin around guarded depth text).Follows Eq
      (· = .exhausted) (chain.expandWithin around guarded (depth + extra) text) :=
    fun depth extra => chain.expandWithin_mono around (guarded_mono _) depth extra text
  have hends := stoppedBy_ne_exhausted repeated value
  have hreturns : Returns (fun depth => chain.expandWithin around guarded depth text) s
      (ofExcept (stoppedBy repeated (.ok value)) s) := by
    rw [← hguarded]
    refine returns_of_ne (hmono depth) fun t ht => hends ?_
    rw [← outcome_ofExcept (stoppedBy repeated (.ok value)) s, outcome, ← hguarded, ht]
  refine ⟨repeated, hwatched, hreturns, fun hne => ?_⟩
  have heq := hreturns.outcome_eq (hmono _) hne
  exact heq.symm.trans (outcome_ofExcept _ s)

def productNames : Resolver Empty :=
  .firstOf [.under "app." (.expanding (.table (.ofPairs [("name", "${name} app")]))),
    .expanding (.table (.ofPairs [("name", "demo")]))]

theorem productNames_isOwn : productNames.IsOwn := by
  refine .firstOf fun member hmember => ?_
  simp only [List.mem_cons, List.not_mem_nil, or_false] at hmember
  rcases hmember with rfl | rfl
  · exact .under _ (.expanding (.table _))
  · exact .expanding (.table _)

theorem cycles_are_repetitions_productNames :
    productNames.IsOwn ∧
    (productNames.expandWithin (noHost .empty) unguarded 2 "${app.name}").outcome
      (Session.start ()) = .ok "demo app" ∧
    Returns (fun depth => productNames.expandWithin (noHost .empty) guarded depth "${app.name}")
      (Session.start ()) (.error (.failed (.circular "name")) (Session.start ())) := by
  have hvalue : (productNames.expandWithin (noHost .empty) unguarded 2 "${app.name}").outcome
      (Session.start ()) = .ok "demo app" := by decide +kernel
  have hcycle : (productNames.expand (noHost .empty) "${app.name}").outcome (Session.start ()) =
      .error (.failed (.circular "name")) := by decide +kernel
  obtain ⟨repeated, -, hreturns, hexpand⟩ :=
    cycles_are_repetitions productNames_isOwn (noHost .empty) hvalue
  have hstopped := hexpand (by rw [hcycle]; exact nofun)
  rw [← hstopped, hcycle] at hreturns
  exact ⟨productNames_isOwn, hvalue, hreturns⟩

/-- The name of the product has a value, but it is told as a cycle because the resolver of the
application's names is asked for the same name. -/
theorem shared_name_is_told_as_cycle :
    (productNames.expandWithin (noHost .empty) unguarded 2 "${app.name}").outcome
      (Session.start ()) = .ok "demo app" ∧
    (productNames.expand (noHost .empty) "${app.name}").outcome (Session.start ()) =
      .error (.failed (.circular "name")) := by
  decide +kernel

end ConfigOverlay
