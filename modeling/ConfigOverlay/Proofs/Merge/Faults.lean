import ConfigOverlay.Proofs.Merge.Distinct
import ConfigOverlay.Proofs.Merge.Reading

set_option autoImplicit false

namespace ConfigOverlay

variable {recessive : Option Element} {dominant : Element} {fault : MergeError}

/-- An element of this tag in one of the layers has the policy attribute of this name with this
value, which is no policy. -/
def Misdeclared (layers : List Element) (tag name value : String) : Prop :=
  ∃ layer ∈ layers, ∃ x : Element, x.Within layer ∧ x.tag = tag ∧ x.Misdeclares name value

theorem Misdeclared.mono {layers layers' : List Element} (hsub : layers ⊆ layers')
    {tag name value : String} (h : Misdeclared layers tag name value) :
    Misdeclared layers' tag name value := by
  obtain ⟨layer, hlayer, hx⟩ := h
  exact ⟨layer, hsub hlayer, hx⟩

def MergeError.Quotes (fault : MergeError) (layers : List Element) : Prop :=
  ∃ tag name value, fault = .invalidPolicy tag name value ∧ Misdeclared layers tag name value

theorem MergeError.Quotes.misdeclared {layers : List Element} {tag name value : String}
    (h : (invalidPolicy tag name value).Quotes layers) : Misdeclared layers tag name value := by
  obtain ⟨tag', name', value', hfault, hmisdeclared⟩ := h
  cases hfault
  exact hmisdeclared

/-- What the element misdeclares stands in one of the layers, under its tag. -/
structure Element.Attested (layers : List Element) (e : Element) : Prop where
  unique : e.attrs.Unique
  misdeclared : ∀ name value, e.Misdeclares name value → Misdeclared layers e.tag name value

theorem Element.Causes.quotes {layers : List Element} {x : Element} {name : String}
    (h : x.Causes name fault) (hx : x.Attested layers) : fault.Quotes layers := by
  obtain ⟨value, hvalue, hfault⟩ := h
  exact ⟨_, _, _, hfault, hx.misdeclared name value hvalue⟩

theorem attested_of_layer {layers : List Element} {layer : Element} (hlayer : layer ∈ layers)
    (hunique : layer.Throughout (·.attrs.Unique)) : layer.Throughout (·.Attested layers) := by
  refine Element.throughout_iff.2 fun x hx => ⟨Element.throughout_iff.1 hunique x hx, ?_⟩
  exact fun name value h => ⟨layer, hlayer, x, hx, rfl, h⟩

/-- Attributes that are merged show policies which are recognised. -/
theorem not_misdeclares_mergedAttributes {tag : String} {children : List Node} {shell : Element}
    {steps : List Step} {policy : Option SelfPolicy} {name value : String}
    (hunder : ∀ lower ∈ recessive, lower.attrs.Unique) (habove : dominant.attrs.Unique)
    (hopen : openPair recessive dominant = .ok (.pending shell steps)) :
    ¬ Element.Misdeclares ⟨tag, mergedAttributes recessive dominant policy, children⟩
      name value := by
  have shares := shares_of_pending (opens_of_openPair hopen)
  rintro ⟨hvalue, ⟨rfl, hself⟩ | ⟨rfl, hchildren⟩⟩
  · have hdeclared := @selfPolicy_mergedAttributes recessive dominant tag children policy
    rw [Element.selfPolicy_eq_error_iff.2 ⟨value, ⟨hvalue, .inl ⟨rfl, hself⟩⟩, rfl⟩] at hdeclared
    cases hdeclared
  · have hvalue' := hvalue
    rw [get?_mergedAttributes_eq_or (by decide) hunder habove, Option.or_eq_some_iff] at hvalue'
    rcases hvalue' with hdominant | ⟨hnone, hrecessive⟩
    · have hread : ReadAt recessive dominant dominant _ := .childrenAbove shares
      exact hread.not_causes hopen ⟨value, ⟨hdominant, .inr ⟨rfl, hchildren⟩⟩, rfl⟩
    · obtain ⟨lower, hlower, hget⟩ := Option.bind_eq_some_iff.1 hrecessive
      have hread : ReadAt recessive dominant lower _ := .childrenUnder shares hnone hlower
      exact hread.not_causes hopen ⟨value, ⟨hget, .inr ⟨rfl, hchildren⟩⟩, rfl⟩

theorem Element.Attested.withoutSelfPolicy {layers : List Element} {e : Element}
    (h : e.Attested layers) : e.withoutSelfPolicy.Attested layers := by
  refine ⟨Attributes.unique_erase h.unique, fun name value hvalue => h.misdeclared name value ?_⟩
  obtain ⟨hget, hunrecognised⟩ := hvalue
  refine ⟨?_, hunrecognised⟩
  rcases hunrecognised with ⟨rfl, -⟩ | ⟨rfl, -⟩
  · rw [Element.withoutSelfPolicy, Attributes.get?_erase h.unique] at hget
    cases hget
  · rwa [Element.withoutSelfPolicy, Attributes.get?_erase_of_ne (by decide)] at hget

theorem attested_of_merge {layers : List Element} {e : Element}
    (hunder : ∀ lower ∈ recessive, lower.Throughout (·.Attested layers))
    (habove : dominant.Throughout (·.Attested layers))
    (h : merge recessive dominant = .ok (some e)) : e.Attested layers := by
  rcases settled_or_pending_of_merge h with hopen | ⟨shell, steps, nodes, hopen, -, heq⟩
  · cases opens_of_openPair hopen with
    | replaced => exact habove.here.withoutSelfPolicy
    | appended => exact habove.here
  · cases opens_of_openPair hopen with
    | merged =>
      cases heq
      refine ⟨unique_mergedAttributes _, fun name value hvalue => absurd hvalue ?_⟩
      exact not_misdeclares_mergedAttributes
        (fun lower hlower => (hunder lower hlower).here.unique) habove.here.unique hopen

/-- A fault of a merge quotes a layer, if whatever the two sides misdeclare stands in one. -/
theorem quotes_of_merge {layers : List Element}
    (hunder : ∀ lower ∈ recessive, lower.Throughout (·.Attested layers))
    (habove : dominant.Throughout (·.Attested layers))
    (h : merge recessive dominant = .error fault) : fault.Quotes layers := by
  obtain ⟨x, name, hread, hcause⟩ := merge_eq_error h
  rcases hread.within with hx | ⟨lower, hlower, hx⟩
  · exact hcause.quotes (Element.throughout_iff.1 habove x hx)
  · exact hcause.quotes (Element.throughout_iff.1 (hunder lower hlower) x hx)

theorem quotes_of_sweep {layers : List Element} {e : Element}
    (he : e.Throughout (·.Attested layers)) (h : e.sweep = .error fault) :
    fault.Quotes layers := by
  obtain ⟨x, hx, hcause⟩ := Element.exists_sweeps_of_sweepFault? (Element.sweep_eq_error_iff.1 h)
  exact hcause.quotes (Element.throughout_iff.1 he x hx.within)

namespace Layers

variable {layers : List Element} {tag name value : String}

theorem attested_of_pushEach {before : List Element} (hsub : before ⊆ layers)
    (hunique : ∀ layer ∈ layers, layer.Throughout (·.attrs.Unique)) :
    ∀ root ∈ (empty.pushEach before).merged, root.Throughout (·.Attested layers) :=
  throughout_of_pushEach attested_of_merge (by simp [empty]) fun layer hlayer =>
    attested_of_layer (hsub hlayer) (hunique layer (hsub hlayer))

theorem misdeclared_of_push {before : List Element} {layer : Element}
    (hunique : ∀ x ∈ before ++ [layer], x.Throughout (·.attrs.Unique))
    (h : (empty.pushEach before).push layer = .error (.invalidPolicy tag name value)) :
    Misdeclared (before ++ [layer]) tag name value := by
  have hlast : layer ∈ before ++ [layer] := List.mem_append_right before List.mem_cons_self
  obtain ⟨below, hbelow, hmerge | hroot⟩ := push_eq_error h
  · have hunder : ∀ lower ∈ some below, lower.Throughout (·.Attested (before ++ [layer])) := by
      rintro lower ⟨⟩
      exact attested_of_pushEach (List.subset_append_left before [layer]) hunique below hbelow
    have habove := attested_of_layer hlast (hunique layer hlast)
    exact (quotes_of_merge hunder habove hmerge).misdeclared
  · cases hroot

theorem misdeclared_of_finish (hunique : ∀ layer ∈ layers, layer.Throughout (·.attrs.Unique))
    (h : (empty.pushEach layers).finish = .error (.invalidPolicy tag name value)) :
    Misdeclared layers tag name value := by
  rcases finish_eq_error h with hnone | ⟨root, hroot, hsweep⟩
  · cases hnone
  · have hattested := attested_of_pushEach (List.Subset.refl layers) hunique root hroot
    exact (quotes_of_sweep hattested hsweep).misdeclared

end Layers

/-- The fault of a policy that is not recognised names a tag, an attribute and a value that an
element of one of the layers has: when layers are merged at once, when a layer is added to those
before it, whether or not some of these failed, and when the skeletons are removed in the end. -/
theorem faults_stand_in_layers {layers : List Element}
    (hunique : ∀ layer ∈ layers, layer.Throughout (·.attrs.Unique)) (tag name value : String) :
    (mergeLayers layers = .error (.invalidPolicy tag name value) →
      Misdeclared layers tag name value) ∧
    (∀ before layer after, layers = before ++ layer :: after →
      (Layers.empty.pushEach before).push layer = .error (.invalidPolicy tag name value) →
        Misdeclared (before ++ [layer]) tag name value) ∧
    ((Layers.empty.pushEach layers).finish = .error (.invalidPolicy tag name value) →
      Misdeclared layers tag name value) := by
  have hpush : ∀ before layer after, layers = before ++ layer :: after →
      (Layers.empty.pushEach before).push layer = .error (.invalidPolicy tag name value) →
        Misdeclared (before ++ [layer]) tag name value := by
    rintro before layer after rfl h
    refine Layers.misdeclared_of_push (fun x hx => hunique x ?_) h
    rw [List.append_cons]
    exact List.mem_append_left after hx
  refine ⟨fun h => ?_, hpush, Layers.misdeclared_of_finish hunique⟩
  rcases Layers.mergeLayers_eq_error h with hpushed | ⟨run, hrun, hfinish⟩
  · obtain ⟨before, layer, after, middle, hlayers, hmiddle, hfault⟩ :=
      Layers.pushAll_eq_error_iff.1 hpushed
    rw [← Layers.pushEach_of_pushAll hmiddle] at hfault
    refine (hpush before layer after hlayers hfault).mono fun x hx => ?_
    rw [hlayers, List.append_cons]
    exact List.mem_append_left after hx
  · rw [← Layers.pushEach_of_pushAll hrun] at hfinish
    exact Layers.misdeclared_of_finish hunique hfinish

theorem faults_stand_in_layers_pools :
    let first : Element := ⟨"config", .empty, [
      .element ⟨"pool", ⟨[("combine.children", " Replace ")]⟩, []⟩,
      .element ⟨"cache", .empty, [.element ⟨"entry", ⟨[("combine.self", "Remve")]⟩, []⟩]⟩]⟩
    let second : Element := ⟨"site", .empty, [
      .element ⟨"pool", ⟨[("combine.self", "merge")]⟩, []⟩]⟩
    (mergeLayers [first, second] = .error (.invalidPolicy "pool" "combine.children" " Replace ") ∧
      Misdeclared [first, second] "pool" "combine.children" " Replace ") ∧
    ((Layers.empty.pushEach [first, second]).finish =
        .error (.invalidPolicy "entry" "combine.self" "Remve") ∧
      Misdeclared [first, second] "entry" "combine.self" "Remve") := by
  intro first second
  have hunique : ∀ layer ∈ [first, second], layer.Throughout (·.attrs.Unique) := by decide +kernel
  have hmerged : mergeLayers [first, second] =
      .error (.invalidPolicy "pool" "combine.children" " Replace ") := by decide +kernel
  have hfinish : (Layers.empty.pushEach [first, second]).finish =
      .error (.invalidPolicy "entry" "combine.self" "Remve") := by decide +kernel
  exact ⟨⟨hmerged, (faults_stand_in_layers hunique _ _ _).1 hmerged⟩,
    hfinish, (faults_stand_in_layers hunique _ _ _).2.2 hfinish⟩

end ConfigOverlay
