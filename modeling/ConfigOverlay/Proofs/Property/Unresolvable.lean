import ConfigOverlay.Proofs.Property.Alternatives
import ConfigOverlay.Proofs.Property.Cycles
import ConfigOverlay.Proofs.Property.Decomposition

set_option autoImplicit false

namespace ConfigOverlay

variable {η σ : Type}

namespace Part

section

variable {resolve : Resolution σ} {parts : List Part} {s t u : Session σ} {name value : String}
  {stop : Stop}

theorem Reaches.expandAll_eq (h : Reaches resolve parts s name t)
    (hname : expandAll resolve [.placeholder name] t = .error stop u) :
    expandAll resolve parts s = .error stop u := by
  induction h with
  | here name rest s =>
    simp only [expandAll, bind, EStateM.bind] at hname ⊢
    cases hfound : resolve name s with
    | error stop v => simpa [hfound] using hname
    | ok found v =>
      cases found with
      | none => simpa [hfound] using hname
      | some found => simp [hfound, pure, EStateM.pure, EStateM.bind] at hname
  | literal text _ ih => simp only [expandAll, bind, EStateM.bind, ih hname]
  | placeholder first _ ih => simp only [expandAll, bind, EStateM.bind, first, ih hname]

theorem expandAll_placeholder_of_ok (h : resolve name s = .ok (some value) t) :
    expandAll resolve [.placeholder name] s = .ok value t := by
  simp only [expandAll, bind, EStateM.bind, h, pure, EStateM.pure, String.append_empty]

theorem expandAll_placeholder_of_error (h : resolve name s = .error stop t) :
    expandAll resolve [.placeholder name] s = .error stop t := by
  simp only [expandAll, bind, EStateM.bind, h]

/-- The placeholder that an alternative is passed over for is reported as not found. -/
theorem PassedOver.exists_notFound (h : PassedOver resolve parts s u) :
    ∃ name t missing, Reaches resolve parts s name t ∧
      expandAll resolve [.placeholder name] t = .error (.failed (.notFound missing)) u := by
  obtain ⟨name, t, hreaches, hname⟩ := h
  rcases hname with hname | ⟨missing, hname⟩
  · exact ⟨name, t, name, hreaches, by simp [expandAll, bind, EStateM.bind, hname, Lookup.fail]⟩
  · exact ⟨name, t, missing, hreaches, expandAll_placeholder_of_error hname⟩

theorem Reaches.exists_append (h : Reaches resolve parts s name t) :
    ∃ before after, parts = before ++ .placeholder name :: after ∧
      ∀ other, .placeholder other ∈ before →
        ∃ found u v, resolve other u = .ok (some found) v := by
  induction h with
  | here name rest s => exact ⟨[], rest, rfl, by simp⟩
  | literal text _ ih =>
    obtain ⟨before, after, rfl, hbefore⟩ := ih
    exact ⟨.literal text :: before, after, rfl, by simpa using hbefore⟩
  | @placeholder _ other _ _ _ _ _ first _ ih =>
    obtain ⟨before, after, rfl, hbefore⟩ := ih
    refine ⟨.placeholder other :: before, after, rfl, fun asked hasked => ?_⟩
    rcases List.mem_cons.1 hasked with hasked | hasked
    · cases hasked
      exact ⟨_, _, _, first⟩
    · exact hbefore asked hasked

theorem Reaches.of_ofPiece_append {piece : List Char}
    (h : Reaches resolve (ofPiece piece ++ parts) s name t) : Reaches resolve parts s name t := by
  simp only [ofPiece] at h
  split at h
  · exact h
  · cases h
    assumption

theorem not_reaches_ofPiece {piece : List Char} : ¬ Reaches resolve (ofPiece piece) s name t := by
  intro h
  have hmem := h.mem
  simp only [ofPiece] at hmem
  split at hmem <;> simp at hmem

theorem Reaches.of_alternatives {first : List Part} {others : List (List Part)}
    (h : Reaches resolve first s name t) (hfirst : alternatives parts = first :: others) :
    Reaches resolve parts s name t := by
  induction parts generalizing first others s with
  | nil =>
    cases hfirst
    cases h
  | cons part rest ih =>
    cases hrest : alternatives rest with
    | nil => exact absurd hrest (alternatives_ne_nil rest)
    | cons next more =>
      cases part with
      | placeholder other =>
        rw [alternatives, hrest] at hfirst
        cases hfirst
        cases h with
        | here => exact .here _ _ _
        | placeholder hother h => exact .placeholder hother (ih h hrest)
      | literal text =>
        rw [alternatives, hrest] at hfirst
        refine .literal text ?_
        generalize Text.segments ',' text.toList = pieces at hfirst
        cases pieces with
        | nil =>
          cases hfirst
          exact ih h hrest
        | cons piece pieces =>
          cases pieces with
          | nil =>
            cases hfirst
            exact ih h.of_ofPiece_append hrest
          | cons after pieces =>
            rw [List.map_cons, spliced_cons (by simp)] at hfirst
            cases hfirst
            exact absurd h not_reaches_ofPiece

/-- If all alternatives are passed over, the first one has a first placeholder that is reported as
not found, and if every part has to have a value, the same is reported. -/
theorem AllPassedOver.exists_first (h : AllPassedOver resolve (alternatives parts) s u) :
    ∃ before name after others t missing v,
      alternatives parts = (before ++ .placeholder name :: after) :: others ∧
      (∀ other, .placeholder other ∈ before → ∃ found u v, resolve other u = .ok (some found) v) ∧
      expandAll resolve [.placeholder name] t = .error (.failed (.notFound missing)) v ∧
      expandAll resolve parts s = .error (.failed (.notFound missing)) v := by
  obtain ⟨first, others, hlisted⟩ := List.exists_cons_of_ne_nil (alternatives_ne_nil parts)
  rw [hlisted] at h
  obtain _ | ⟨hfirst, -⟩ := h
  obtain ⟨name, t, missing, hreaches, hname⟩ := hfirst.exists_notFound
  have hparts := (hreaches.of_alternatives hlisted).expandAll_eq hname
  obtain ⟨before, after, rfl, hbefore⟩ := hreaches.exists_append
  exact ⟨before, name, after, others, t, missing, _, hlisted, hbefore, hname, hparts⟩

end

def asText (part : Part) : String := String.ofList part.written

theorem ofText_asText {name : String} (h : Text.Balanced name.toList) :
    ofText (placeholder name).asText = [.placeholder name] := by
  have hscan := scan_placeholder h [] []
  simpa [ofText, asText, written, flush, scan] using hscan

theorem isClean_asText {name : String} (h : Text.Balanced name.toList)
    (hname : Text.isClean name.toList) : Text.isClean (placeholder name).asText.toList := by
  have hcloses : Text.closes 0 (name.toList ++ ['}']) := by
    rw [h.closes_append 0 (by simp)]
    rfl
  have hrest : Text.isClean (name.toList ++ ['}']) := Text.isClean_append hname rfl
  simp [asText, written, Text.isClean_open, hcloses, hrest]

end Part

theorem Text.Balanced.of_isClean {text : String} (h : isClean text.toList)
    (hbraces : ∀ literal, .literal literal ∈ Part.ofText text → '}' ∉ literal.toList) :
    Balanced text.toList := by
  rw [Part.balanced_iff]
  intro part hpart
  cases part with
  | placeholder name => trivial
  | literal literal =>
    have hclean := Part.isClean_of_mem_ofText h _ hpart
    exact ⟨hbraces literal hpart, Text.opensPlaceholder_of_not_mem hclean⟩

theorem Text.Balanced.oneOf {body : String} (h : Balanced body.toList) :
    Balanced (Resolver.oneOfLead ++ body).toList := by
  rw [String.toList_append, Part.balanced_literal_append_iff (by decide)]
  · exact ⟨by decide, h⟩
  · simp [Part.Closed, Resolver.oneOfLead]

section

variable {around : Surroundings η σ} {sources : List (Resolver η)}

theorem outcome_expand_asText (h : CleanSources around.environment sources) {s : Session σ}
    (hs : s.inProgress = []) {name : String} (hbalanced : Text.Balanced name.toList)
    (hname : Text.isClean name.toList) (depth : Nat) (t : Session σ) {result : Except Stop String}
    (hrun : (Part.expandAll
      ((Resolver.overSources sources).resolveWithin around Lookup.unguarded depth)
      [.placeholder name]).outcome t = result) (hresult : result ≠ .error .exhausted) :
    ((Resolver.overSources sources).expand around (Part.placeholder name).asText).outcome s =
      result := by
  have hwithin : (Resolver.overSources sources).expandWithin around Lookup.unguarded depth
      (Part.placeholder name).asText = Part.expandAll
        ((Resolver.overSources sources).resolveWithin around Lookup.unguarded depth)
        [.placeholder name] := by
    rw [Resolver.expandWithin, expandText_eq, Part.ofText_asText hbalanced]
  have hoften : ((Resolver.overSources sources).expandWithin around Lookup.unguarded depth
      (Part.placeholder name).asText).outcome s = result := by
    rw [expandWithin_eq_outcome h t, Lookup.outcome_ofExcept, hwithin, hrun]
  rw [← hoften] at hresult ⊢
  exact outcome_expand_eq h hs (Part.isClean_asText hbalanced hname) hresult

theorem resolveWithin_of_passedOver (h : CleanSources around.environment sources) {depth : Nat}
    {body : String} {s u v : Session σ} {stop : Stop}
    (hpassed : (Resolver.oneOf : Resolver η).ask around Lookup.unguarded
      ((Resolver.overSources sources).resolveWithin around Lookup.unguarded depth)
      (Resolver.oneOfLead ++ body) s = .ok none u)
    (hbody : (Resolver.overSources sources).expandWithin around Lookup.unguarded depth body s =
      .error stop v) :
    ∃ w, (Resolver.overSources sources).resolveWithin around Lookup.unguarded (depth + 1)
      (Resolver.oneOfLead ++ body) s = .error stop w := by
  have hmay : (Resolver.oneOf : Resolver η).mayKnow (Resolver.oneOfLead ++ body) = true := by
    simp [Resolver.mayKnow, Resolver.lead?, Text.stripLead_append]
  have hafter : (Resolver.overSources sources).expandWithin around Lookup.unguarded depth body u =
      .error stop u := by
    rw [expandWithin_eq_outcome h s, Lookup.outcome, hbody]
    rfl
  have hname : expandText
      ((Resolver.overSources sources).resolveWithin around Lookup.unguarded depth)
      (Resolver.oneOfLead ++ body) u = .error stop u := by
    rw [expandText_append_of_isClean _ body (by decide),
      expandText_of_not_hasPlaceholders (by decide), pure_bind]
    simp only [Resolver.expandWithin] at hafter
    simp only [bind, EStateM.bind, hafter]
  refine ⟨u, ?_⟩
  rw [resolveWithin_overSources]
  simp only [hmay, if_true, bind, EStateM.bind, hpassed]
  exact askFirst_expanding_error (admits_unguarded _ u) h.ne_nil hname

theorem ask_oneOf_of_guarded (chain : Resolver η) {depth : Nat} {body : String} {s : Session σ}
    (hnone : (Resolver.oneOf.ask around Lookup.guarded
      (chain.resolveWithin around Lookup.guarded depth) (Resolver.oneOfLead ++ body)).outcome s =
        .ok none) :
    ∃ u, Resolver.oneOf.ask around Lookup.unguarded
      (chain.resolveWithin around Lookup.unguarded depth) (Resolver.oneOfLead ++ body) s =
        .ok none u := by
  have hresolve : ∀ name, (chain.resolveWithin around Lookup.guarded depth name).Follows
      Session.SameBesideMarks Stop.isInner
      (chain.resolveWithin around Lookup.unguarded depth name) :=
    resolveWithin_follows around (fun _ => Session.carried_sameBesideMarks) (fun _ => id) trivial
      guarded_follows_unguarded depth 0
  rw [ask_oneOf] at hnone ⊢
  have hask := (follows_congruence fun _ => id).expandFirst? fun parts
    (_ : parts ∈ alternatives (Part.ofText body)) name _ => hresolve name
  exact Lookup.exists_of_outcome ((hask.outcome_eq ⟨rfl, rfl⟩ (by simp [hnone])).trans hnone)

end

/-- On a standard chain over a clean tree and a clean environment, a name that lists alternatives of
which none can be resolved is reported as not found: under the name that the first placeholder
without a value in the first alternative is reported under on its own. -/
theorem unresolvable_alternatives_report_the_first (options : Options) {root : Element}
    (hroot : root.isClean) (around : Surroundings η σ) (henvironment : around.environment.isClean)
    {s : Session σ} (hs : s.inProgress = []) {body : String} (hbody : Text.isClean body.toList)
    (hbraces : ∀ literal, .literal literal ∈ Part.ofText body → '}' ∉ literal.toList) {depth : Nat}
    (hnone : (Resolver.oneOf.ask around Lookup.guarded
      ((standardChain [] options root).resolveWithin around Lookup.guarded depth)
      (Resolver.oneOfLead ++ body)).outcome s = .ok none) :
    let chain : Resolver η := standardChain [] options root
    let expanded := fun name => (chain.expand around (Part.placeholder name).asText).outcome s
    ∃ before name after others missing,
      alternatives (Part.ofText body) = (before ++ .placeholder name :: after) :: others ∧
      (∀ other, .placeholder other ∈ before → ∃ value, expanded other = .ok value) ∧
      expanded name = .error (.failed (.notFound missing)) ∧
      expanded (Resolver.oneOfLead ++ body) = .error (.failed (.notFound missing)) := by
  have h : CleanSources around.environment (options.sources root : List (Resolver η)) :=
    cleanSources_sources options hroot henvironment
  have hchain : (standardChain [] options root : Resolver η) =
      Resolver.overSources (options.sources root) := standardChain_nil options root
  rw [hchain] at hnone ⊢
  intro chain expanded
  -- without marks, being asked for again inside its own name makes no difference to a placeholder
  obtain ⟨u, hpassed⟩ := ask_oneOf_of_guarded chain hnone
  have hall := hpassed
  rw [ask_oneOf, Part.expandFirst?_eq_none_iff] at hall
  obtain ⟨before, name, after, others, t, missing, v, hlisted, hbefore, hname, hparts⟩ :=
    hall.exists_first
  have hplaceholder : ∀ other, .placeholder other ∈ before ++ .placeholder name :: after →
      Text.Balanced other.toList ∧ Text.isClean other.toList := by
    intro other hother
    have hpart : .placeholder other ∈ Part.ofText body :=
      placeholder_mem_of_alternatives (hlisted ▸ List.mem_cons_self) hother
    exact ⟨(Part.regular_scan body.toList).balanced other hpart,
      Part.isClean_of_mem_ofText hbody _ hpart⟩
  refine ⟨before, name, after, others, missing, hlisted, fun other hother => ?_, ?_, ?_⟩
  · obtain ⟨found, v, w, hfound⟩ := hbefore other hother
    obtain ⟨hbalanced, hclean⟩ := hplaceholder other (List.mem_append_left _ hother)
    refine ⟨found, outcome_expand_asText h hs hbalanced hclean depth v ?_ (by simp)⟩
    rw [Lookup.outcome, Part.expandAll_placeholder_of_ok hfound]
  · obtain ⟨hbalanced, hclean⟩ := hplaceholder name (by simp)
    refine outcome_expand_asText h hs hbalanced hclean depth t ?_ (by simp)
    rw [Lookup.outcome, hname]
  · obtain ⟨w, hasked⟩ :=
      resolveWithin_of_passedOver h hpassed ((congrFun (expandText_eq _ body) s).trans hparts)
    have hbalanced := (Text.Balanced.of_isClean hbody hbraces).oneOf
    have hclean : Text.isClean (Resolver.oneOfLead ++ body).toList := by
      rw [String.toList_append]
      exact Text.isClean_append (by decide) hbody
    refine outcome_expand_asText h hs hbalanced hclean (depth + 1) s ?_ (by simp)
    rw [Lookup.outcome, Part.expandAll_placeholder_of_error hasked]

def portSettings : Element := ⟨"service", ⟨[("port", "80${offset}")]⟩, []⟩

theorem unresolvable_port_reported :
    let options := { Options.standard with matchRoot := false }
    let chain : Resolver Empty := standardChain [] options portSettings
    let expanded := fun text => (chain.expand (noHost .empty) text).outcome (Session.start ())
    expanded "${port}" = .error (.failed (.notFound "offset")) ∧
      expanded "${oneof:${port},${host}}" = expanded "${port}" := by
  intro options chain expanded
  have hparts : Part.ofText "${port},${host}" =
      [.placeholder "port", .literal ",", .placeholder "host"] := by decide
  have hnone : (Resolver.oneOf.ask (noHost .empty) Lookup.guarded
      (chain.resolveWithin (noHost .empty) Lookup.guarded 3)
      (Resolver.oneOfLead ++ "${port},${host}")).outcome (Session.start ()) = .ok none := by
    decide +kernel
  obtain ⟨before, name, after, others, missing, hlisted, -, hname, hall⟩ :=
    unresolvable_alternatives_report_the_first options rfl (noHost .empty) rfl rfl rfl
      (by simp [hparts]) hnone
  have hfirst : alternatives (Part.ofText "${port},${host}") =
      [[.placeholder "port"], [.placeholder "host"]] := by decide
  rw [hfirst] at hlisted
  obtain ⟨rfl, rfl⟩ : before = [] ∧ name = "port" := by
    cases before <;> simp_all
  refine ⟨?_, hall.trans hname.symm⟩
  decide +kernel

end ConfigOverlay
