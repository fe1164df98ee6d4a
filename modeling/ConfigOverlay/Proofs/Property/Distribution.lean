import ConfigOverlay.Proofs.Property.Concatenation
import ConfigOverlay.Proofs.Property.DocumentOrder
import ConfigOverlay.Proofs.Property.Requests

/-!
What is asked for when a text is expanded. The placeholders of a text are resolved in their order,
up to the first one without a value. So two texts one behind the other, if no level reaches from one
into the other, are expanded as each of them is alone: first come the placeholders of one, then
those of the other. A text without placeholders asks for nothing, whether or not a level is opened
in it.
-/

set_option autoImplicit false

namespace ConfigOverlay

open Lookup

variable {η σ : Type}

namespace Part

def name? : Part → Option String
  | .literal _ => none
  | .placeholder name => some name

def names (parts : List Part) : List String := parts.filterMap name?

end Part

def placeholders (text : String) : List String := Part.names (Part.ofText text)

def Session.withAsked (s : Session σ) (names : List String) : Session (List String × σ) :=
  ⟨s.inProgress, s.notes, (names, s.host)⟩

/-- Resolves names and puts down each one that is asked for, whatever comes of it. -/
def recorded (resolve : Resolution σ) : Resolution (List String × σ) := fun name s =>
  match resolve name ⟨s.inProgress, s.notes, s.host.2⟩ with
  | .ok value t => .ok value (t.withAsked (s.host.1 ++ [name]))
  | .error stop t => .error stop (t.withAsked (s.host.1 ++ [name]))

/-- The names that are put down when a text is expanded. -/
def asked (resolve : Resolution σ) (text : String) (s : Session σ) : List String :=
  ((expandText (recorded resolve) text).after (s.withAsked [])).host.1

section

variable (resolve : Resolution σ)

theorem Part.expandAll_recorded (parts : List Part) (s : Session σ) :
    ∃ asked, asked <+: names parts ∧ ∀ before,
      match expandAll resolve parts s with
      | .ok value t => asked = names parts ∧
        expandAll (recorded resolve) parts (s.withAsked before) =
          .ok value (t.withAsked (before ++ asked))
      | .error stop t => expandAll (recorded resolve) parts (s.withAsked before) =
          .error stop (t.withAsked (before ++ asked)) := by
  induction parts generalizing s with
  | nil => exact ⟨[], List.nil_prefix, fun before => ⟨rfl, by rw [List.append_nil]; rfl⟩⟩
  | cons part rest ih =>
    cases part with
    | literal text =>
      obtain ⟨asked, hasked, hrest⟩ := ih s
      refine ⟨asked, hasked, fun before => ?_⟩
      have hrun := hrest before
      simp only [expandAll, bind, EStateM.bind]
      cases hr : expandAll resolve rest s with
      | ok value t =>
        rw [hr] at hrun
        rw [hrun.2]
        exact ⟨hrun.1, rfl⟩
      | error stop t =>
        rw [hr] at hrun
        rw [hrun]
    | placeholder name =>
      have hname (before : List String) : recorded resolve name (s.withAsked before) =
          match resolve name s with
          | .ok value t => .ok value (t.withAsked (before ++ [name]))
          | .error stop t => .error stop (t.withAsked (before ++ [name])) := rfl
      have hnames : names (.placeholder name :: rest) = [name] ++ names rest := rfl
      simp only [expandAll, bind, EStateM.bind, hname]
      cases resolve name s with
      | error stop t => exact ⟨[name], List.prefix_append _ _, fun before => rfl⟩
      | ok found t =>
        cases found with
        | none => exact ⟨[name], List.prefix_append _ _, fun before => rfl⟩
        | some found =>
          obtain ⟨asked, hasked, hrest⟩ := ih t
          refine ⟨[name] ++ asked, (List.prefix_append_right_inj _).2 hasked, fun before => ?_⟩
          have hrun := hrest (before ++ [name])
          simp only [EStateM.bind, ← List.append_assoc]
          cases hr : expandAll resolve rest t with
          | ok value u =>
            rw [hr] at hrun
            rw [hrun.2, hrun.1]
            exact ⟨hnames.symm, rfl⟩
          | error stop u =>
            rw [hr] at hrun
            rw [hrun]

theorem expandText_recorded (text : String) (s : Session σ) :
    asked resolve text s <+: placeholders text ∧ ∀ before,
      match expandText resolve text s with
      | .ok value t => asked resolve text s = placeholders text ∧
        expandText (recorded resolve) text (s.withAsked before) =
          .ok value (t.withAsked (before ++ asked resolve text s))
      | .error stop t => expandText (recorded resolve) text (s.withAsked before) =
          .error stop (t.withAsked (before ++ asked resolve text s)) := by
  obtain ⟨names, hnames, hruns⟩ := Part.expandAll_recorded resolve (Part.ofText text) s
  simp only [← expandText_eq] at hruns
  have hasked : asked resolve text s = names := by
    have hrun := hruns []
    rw [asked, after]
    cases hr : expandText resolve text s with
    | ok value t =>
      rw [hr] at hrun
      rw [hrun.2]
      rfl
    | error stop t =>
      rw [hr] at hrun
      rw [hrun]
      rfl
  rw [hasked]
  exact ⟨hnames, hruns⟩

end

theorem Resolver.keeps_expandWithin (around : Surroundings η σ) (chain : Resolver η) (depth : Nat)
    (text : String) (marked : List String) :
    (chain.expandWithin around guarded depth text).Keeps marked fun _ => True := by
  have hcongr : Congruence (σ := σ) fun x _ => ∀ marked, x.Keeps marked fun _ => True :=
    { pure := fun a marked => keeps_pure a
      bind := fun hx hf marked => (hx marked).bind fun a => hf a marked
      notFound := fun name marked => keeps_fail trivial
      orAbsent := fun hx marked => (hx marked).orAbsent }
  have hhost : HostRelates (fun x _ => ∀ marked, x.Keeps marked fun _ => True) around :=
    { noted := fun _ _ _ _ hs => hs
      asked := fun source name marked s hs => by
        simp only [askHost]
        rcases around.askHost source name s.host with ⟨answer, host⟩
        cases answer with
        | ok value => exact hs
        | error e => exact ⟨hs, trivial⟩ }
  have hguard : GuardsRelate (σ := σ) (fun x _ => ∀ marked, x.Keeps marked fun _ => True) guarded
      guarded := fun _ _ _ hx marked => Keeps.guarded trivial fun _ => hx _
  exact hcongr.expandWithin (fun _ => hhost) hguard (fun marked s hs => ⟨hs, trivial⟩) depth text
    marked

theorem Lookup.outcome_append {x y : Lookup σ String} {s : Session σ}
    (hx : x.Keeps s.inProgress fun _ => True)
    (hy : ∀ t, s.inProgress = t.inProgress → y.outcome t = y.outcome s) :
    (do let first ← x; let second ← y; pure (first ++ second) : Lookup σ String).outcome s =
      (do let first ← x.outcome s; let second ← y.outcome s; pure (first ++ second)) := by
  have hmarks := hx s rfl
  simp only [outcome, bind, EStateM.bind]
  cases hfirst : x s with
  | error stop t => rfl
  | ok first t =>
    rw [hfirst] at hmarks
    have hsecond := hy t hmarks.symm
    simp only [outcome] at hsecond
    rw [← hsecond]
    simp only [Except.bind]
    cases y t <;> rfl

theorem Resolver.outcome_expandWithin_of_le (around : Surroundings η σ) (chain : Resolver η)
    {depth deeper : Nat} (hle : depth ≤ deeper) {text : String} {s : Session σ}
    (h : (chain.expandWithin around guarded depth text).outcome s ≠ .error .exhausted) :
    (chain.expandWithin around guarded deeper text).outcome s =
      (chain.expandWithin around guarded depth text).outcome s := by
  obtain ⟨extra, rfl⟩ := Nat.le.dest hle
  exact (chain.expandWithin_mono around (guarded_mono _) depth extra text).outcome_eq rfl
    fun stop hstop hexhausted => h (hexhausted ▸ hstop)

def known : Resolution σ := fun _ => pure (some "")

theorem exists_expandText_known (text : String) (s : Session σ) :
    ∃ value, expandText known text s = .ok value s := by
  have hparts (parts : List Part) : ∃ value, Part.expandAll known parts s = .ok value s := by
    induction parts with
    | nil => exact ⟨"", rfl⟩
    | cons part rest ih =>
      obtain ⟨value, hrest⟩ := ih
      cases part with
      | literal text =>
        refine ⟨text ++ value, ?_⟩
        simp only [Part.expandAll, bind, EStateM.bind, hrest]
        rfl
      | placeholder name =>
        refine ⟨"" ++ value, ?_⟩
        simp only [Part.expandAll, known, bind, EStateM.bind, pure, EStateM.pure] at hrest ⊢
        rw [hrest]
  rw [expandText_eq]
  exact hparts _

theorem asked_known (text : String) (s : Session σ) : asked known text s = placeholders text := by
  obtain ⟨value, hvalue⟩ := exists_expandText_known text s
  have hrun := (expandText_recorded known text s).2 []
  rw [hvalue] at hrun
  exact hrun.1

section

variable {a b : String} (hlevels : ∀ part ∈ Part.ofText a, part.isOpen = false)
  (hseam : Part.Closed a.toList b.toList)

include hlevels hseam

/-- The placeholders of the first text are asked for, and if they all have values, those of the
second. -/
theorem asked_append (resolve : Resolution σ) (s : Session σ) :
    asked resolve (a ++ b) s =
      match expandText resolve a s with
      | .ok _ t => placeholders a ++ asked resolve b t
      | .error _ _ => asked resolve a s := by
  have hfirst := (expandText_recorded resolve a s).2 []
  rw [asked, after, expandText_append (recorded resolve) hlevels hseam]
  simp only [bind, EStateM.bind]
  cases ha : expandText resolve a s with
  | error stop t =>
    rw [ha] at hfirst
    rw [hfirst]
    rfl
  | ok first t =>
    rw [ha] at hfirst
    rw [hfirst.2, hfirst.1, List.nil_append]
    have hsecond := (expandText_recorded resolve b t).2 (placeholders a)
    simp only
    cases hb : expandText resolve b t with
    | ok second u =>
      rw [hb] at hsecond
      rw [hsecond.2]
      rfl
    | error stop u =>
      rw [hb] at hsecond
      rw [hsecond]
      rfl

theorem placeholders_append : placeholders (a ++ b) = placeholders a ++ placeholders b := by
  have hasked := asked_append hlevels hseam known (Session.start ())
  obtain ⟨first, ha⟩ := exists_expandText_known a (Session.start ())
  simpa only [ha, asked_known] using hasked

theorem outcome_expandWithin_append {around : Surroundings η σ} {chain : Resolver η}
    (hhost : ¬ chain.IsOwn → around.IsStateless) (s : Session σ) (depth : Nat) :
    (chain.expandWithin around guarded depth (a ++ b)).outcome s = (do
      let first ← (chain.expandWithin around guarded depth a).outcome s
      let second ← (chain.expandWithin around guarded depth b).outcome s
      pure (first ++ second)) := by
  rw [Resolver.expandWithin, expandText_append _ hlevels hseam]
  exact Lookup.outcome_append (chain.keeps_expandWithin around depth a s.inProgress)
    fun t hst => Resolver.outcome_expandWithin_congr hhost hst depth b

theorem outcome_expand_append {around : Surroundings η σ} {chain : Resolver η}
    (hhost : ¬ chain.IsOwn → around.IsStateless) {s : Session σ}
    (ha : (chain.expand around a).outcome s ≠ .error .exhausted)
    (hb : (chain.expand around b).outcome s ≠ .error .exhausted) :
    (chain.expand around (a ++ b)).outcome s = (do
      let first ← (chain.expand around a).outcome s
      let second ← (chain.expand around b).outcome s
      pure (first ++ second)) := by
  have hbound (text : String) (h : text.length ≤ (a ++ b).length) (size : Nat) :
      Resolver.depthBound size text ≤ Resolver.depthBound size (a ++ b) :=
    Nat.pow_le_pow_left (by omega) 3
  have hfirst := chain.outcome_expandWithin_of_le around (hbound a (by simp) _) ha
  have hsecond := chain.outcome_expandWithin_of_le around (hbound b (by simp) _) hb
  refine (outcome_expandWithin_append hlevels hseam hhost s _).trans ?_
  rw [hfirst, hsecond]
  rfl

end

theorem Part.expandAll_of_names_eq_nil {parts : List Part} (h : names parts = [])
    (resolve : Resolution σ) :
    expandAll resolve parts = pure (String.ofList (parts.flatMap written)) := by
  induction parts with
  | nil => rfl
  | cons part rest ih =>
    cases part with
    | literal text =>
      rw [expandAll, ih h, pure_bind]
      simp [written]
    | placeholder name => cases h

/-- Two texts one behind the other are expanded as each of them is alone, if in the first one no
level is left open, not even by a dollar sign that the second one goes on with a brace. The
placeholders of the first are asked for, and then those of the second; with resolvers that keep no
state, both values are put together, and the first text that has none gives the error. A text
without placeholders is left alone, and nothing is asked for, with or without a look for levels
before it is cut into parts. -/
theorem expansion_distributes :
    (∀ a b : String, (∀ part ∈ Part.ofText a, part.isOpen = false) →
      ¬ (a.toList.getLast? = some '$' ∧ b.toList.head? = some '{') →
      placeholders (a ++ b) = placeholders a ++ placeholders b ∧
      (∀ (resolve : Resolution σ) (s : Session σ),
        expandText resolve (a ++ b) s = (do
          let first ← expandText resolve a
          let second ← expandText resolve b
          pure (first ++ second) : Lookup σ String) s ∧
        (asked resolve (a ++ b) s =
          match expandText resolve a s with
          | .ok _ t => placeholders a ++ asked resolve b t
          | .error _ _ => asked resolve a s) ∧
        asked resolve (a ++ b) s <+: placeholders a ++ placeholders b ∧
        ∀ value t, expandText resolve (a ++ b) s = .ok value t →
          asked resolve (a ++ b) s = placeholders a ++ placeholders b) ∧
      ∀ (around : Surroundings η σ) (chain : Resolver η), (¬ chain.IsOwn → around.IsStateless) →
        ∀ s : Session σ,
          (∀ depth, (chain.expandWithin around guarded depth (a ++ b)).outcome s = (do
            let first ← (chain.expandWithin around guarded depth a).outcome s
            let second ← (chain.expandWithin around guarded depth b).outcome s
            pure (first ++ second))) ∧
          ((∀ text ∈ [a, b], (chain.expand around text).outcome s ≠ .error .exhausted) →
            (chain.expand around (a ++ b)).outcome s = (do
              let first ← (chain.expand around a).outcome s
              let second ← (chain.expand around b).outcome s
              pure (first ++ second)))) ∧
    ∀ text : String, placeholders text = [] → ∀ resolve : Resolution σ,
      expandText resolve text = pure text ∧
        Part.expandAll resolve (Part.ofText text) = pure text ∧
        ∀ s, asked resolve text s = [] := by
  refine ⟨fun a b hlevels hseam => ?_, fun text htext resolve => ?_⟩
  · have hclosed : Part.Closed a.toList b.toList := fun hlast hhead => hseam ⟨hlast, hhead⟩
    have hnames := placeholders_append hlevels hclosed
    refine ⟨hnames, fun resolve s => ⟨?_, asked_append hlevels hclosed resolve s, ?_, ?_⟩, ?_⟩
    · rw [expandText_append resolve hlevels hclosed]
    · exact hnames ▸ (expandText_recorded resolve (a ++ b) s).1
    · intro value t hvalue
      have hrun := (expandText_recorded resolve (a ++ b) s).2 []
      rw [hvalue] at hrun
      exact hrun.1.trans hnames
    · intro around chain hhost s
      refine ⟨outcome_expandWithin_append hlevels hclosed hhost s, fun hbounds => ?_⟩
      exact outcome_expand_append hlevels hclosed hhost (hbounds a (by simp)) (hbounds b (by simp))
  · have hparts := Part.expandAll_of_names_eq_nil htext resolve
    rw [Part.flatMap_written_ofText, String.ofList_toList] at hparts
    refine ⟨(expandText_eq resolve text).trans hparts, hparts, fun s => ?_⟩
    exact List.prefix_nil.1 (htext ▸ (expandText_recorded resolve text s).1)

theorem expansion_distributes_listener :
    (∀ part ∈ Part.ofText "*:${port}$", part.isOpen = false) ∧ countingSource.IsStateless ∧
    placeholders ("*:${port}$" ++ "${port}/$\x7b") = ["port", "port"] ∧
    (Resolver.expand countingSource (.host ()) ("*:${port}$" ++ "${port}/$\x7b")).outcome
      (.start 3) = .ok "*:80$80/$\x7b" := by
  have hlevels : ∀ part ∈ Part.ofText "*:${port}$", part.isOpen = false := by decide
  have hstateless : countingSource.IsStateless := fun _ _ _ _ => rfl
  obtain ⟨hnames, -, hchain⟩ := (@expansion_distributes Unit Nat).1 "*:${port}$" "${port}/$\x7b"
    hlevels (by decide)
  have hvalue := (hchain countingSource (.host ()) (fun _ => hstateless) (.start 3)).2
    (by decide +kernel)
  refine ⟨hlevels, hstateless, hnames.trans (by decide), hvalue.trans ?_⟩
  decide +kernel

end ConfigOverlay
