import ConfigOverlay.Proofs.Merge.Rules
import ConfigOverlay.Proofs.Tree.Attributes

set_option autoImplicit false

namespace ConfigOverlay

variable {recessive : Option Element} {dominant : Element} {policy : SelfPolicy}

/-- The ways in which a pair is opened without a fault. -/
inductive Opens (recessive : Option Element) (dominant : Element) : Opening → Prop where
  | removed (remove : dominant.Declares .remove) : Opens recessive dominant (.settled none)
  /-- The dominant element takes the place of the other one, because one of them says so. -/
  | replaced (stays : ¬ dominant.Declares .remove)
      (asked : dominant.Declares .override ∨ ∃ lower ∈ recessive, lower.Declares .overridable) :
      Opens recessive dominant (.settled (some dominant.withoutSelfPolicy))
  | appended (alone : recessive = none) (stays : ¬ dominant.Declares .remove)
      (append : dominant.childrenPolicy = .ok (some .append)) :
      Opens recessive dominant (.settled (some dominant))
  | merged {recessiveSelf dominantSelf : Option SelfPolicy} {policy : ChildrenPolicy}
      {steps : List Step} (above : dominant.selfPolicy = .ok dominantSelf)
      (below : declaredBy Element.selfPolicy recessive = .ok recessiveSelf)
      (stays : dominantSelf ≠ some .remove)
      (shares : dominantSelf ≠ some .override ∧ recessiveSelf ≠ some .overridable)
      (plan : policy.plan recessive dominant = .ok steps) :
      Opens recessive dominant (.pending ⟨dominant.tag,
        mergedAttributes recessive dominant (resultingPolicy recessiveSelf dominantSelf),
        policy.start recessive⟩ steps)

theorem openPair_eq_ok {opening : Opening} (h : openPair recessive dominant = .ok opening) :
    ∃ recessiveSelf dominantSelf, declaredBy Element.selfPolicy recessive = .ok recessiveSelf ∧
      dominant.selfPolicy = .ok dominantSelf ∧
      (dominantSelf = some .remove ∧ opening = .settled none ∨
        dominantSelf ≠ some .remove ∧
          ((dominantSelf = some .override ∨ recessiveSelf = some .overridable) ∧
              opening = .settled (some dominant.withoutSelfPolicy) ∨
            ¬ (dominantSelf = some .override ∨ recessiveSelf = some .overridable) ∧
              openMerged recessive dominant recessiveSelf dominantSelf = .ok opening)) := by
  rw [openPair] at h
  cases habove : dominant.selfPolicy with
  | error e => simp [habove] at h
  | ok dominantSelf =>
    cases hbelow : declaredBy Element.selfPolicy recessive with
    | error e => simp [habove, hbelow] at h
    | ok recessiveSelf =>
      simp only [habove, hbelow] at h
      refine ⟨recessiveSelf, dominantSelf, rfl, rfl, ?_⟩
      split at h
      · next hremove => exact .inl ⟨hremove, (Except.ok.inj h).symm⟩
      · next hstays =>
        refine .inr ⟨hstays, ?_⟩
        split at h
        · next hasked => exact .inl ⟨hasked, (Except.ok.inj h).symm⟩
        · next hshares => exact .inr ⟨hshares, h⟩

theorem openMerged_eq_ok {recessiveSelf dominantSelf : Option SelfPolicy} {opening : Opening}
    (h : openMerged recessive dominant recessiveSelf dominantSelf = .ok opening) :
    ∃ policy, pairChildrenPolicy recessive dominant = .ok policy ∧
      ((policy = .append ∧ recessive = none) ∧ opening = .settled (some dominant) ∨
        ¬ (policy = .append ∧ recessive = none) ∧
          ∃ steps, policy.plan recessive dominant = .ok steps ∧
            opening = .pending ⟨dominant.tag,
              mergedAttributes recessive dominant (resultingPolicy recessiveSelf dominantSelf),
              policy.start recessive⟩ steps) := by
  rw [openMerged] at h
  cases hpolicy : pairChildrenPolicy recessive dominant with
  | error e => simp [hpolicy] at h
  | ok policy =>
    simp only [hpolicy] at h
    refine ⟨policy, rfl, ?_⟩
    split at h
    · next halone => exact .inl ⟨halone, (Except.ok.inj h).symm⟩
    · next halone =>
      cases hplan : policy.plan recessive dominant with
      | error e => simp [hplan] at h
      | ok steps =>
        simp only [hplan, Except.ok.injEq] at h
        exact .inr ⟨halone, steps, rfl, h.symm⟩

theorem opens_of_openMerged {recessiveSelf dominantSelf : Option SelfPolicy} {opening : Opening}
    (above : dominant.selfPolicy = .ok dominantSelf)
    (below : declaredBy Element.selfPolicy recessive = .ok recessiveSelf)
    (stays : dominantSelf ≠ some .remove)
    (shares : dominantSelf ≠ some .override ∧ recessiveSelf ≠ some .overridable)
    (h : openMerged recessive dominant recessiveSelf dominantSelf = .ok opening) :
    Opens recessive dominant opening := by
  obtain ⟨policy, hpolicy, ⟨⟨rfl, rfl⟩, rfl⟩ | ⟨-, steps, hplan, rfl⟩⟩ := openMerged_eq_ok h
  · have happend : dominant.childrenPolicy = .ok (some .append) := by
      rw [pairChildrenPolicy] at hpolicy
      split at hpolicy <;> simp_all [declaredBy]
    exact .appended rfl (by simpa [Element.Declares, above] using stays) happend
  · exact .merged above below stays shares hplan

theorem opens_of_openPair {opening : Opening} (h : openPair recessive dominant = .ok opening) :
    Opens recessive dominant opening := by
  obtain ⟨recessiveSelf, dominantSelf, hbelow, habove,
    ⟨rfl, rfl⟩ | ⟨hstays, ⟨hasked, rfl⟩ | ⟨hshares, hmerged⟩⟩⟩ := openPair_eq_ok h
  · exact .removed habove
  · refine .replaced (by simpa [Element.Declares, habove] using hstays) ?_
    rcases hasked with rfl | rfl
    · exact .inl habove
    · cases recessive with
      | none => simp [declaredBy] at hbelow
      | some lower => exact .inr ⟨lower, rfl, hbelow⟩
  · exact opens_of_openMerged habove hbelow hstays (not_or.1 hshares) hmerged

/-- The children of a pair are laid over each other under its children policy. -/
theorem plan_of_openPair {shell : Element} {steps : List Step}
    (h : openPair recessive dominant = .ok (.pending shell steps)) :
    ∃ policy, pairChildrenPolicy recessive dominant = .ok policy ∧
      policy.plan recessive dominant = .ok steps ∧ shell.children = policy.start recessive := by
  obtain ⟨_, _, -, -, ⟨-, hsettled⟩ | ⟨-, ⟨-, hsettled⟩ | ⟨-, hmerged⟩⟩⟩ := openPair_eq_ok h
  · cases hsettled
  · cases hsettled
  · obtain ⟨policy, hpolicy, ⟨-, hsettled⟩ | ⟨-, planned, hplan, hpending⟩⟩ :=
      openMerged_eq_ok hmerged
    · cases hsettled
    · cases hpending
      exact ⟨policy, hpolicy, hplan, rfl⟩

/-- What comes of a pair is settled at once, or made by the steps that were planned. -/
theorem settled_or_pending_of_merge {result : Option Element}
    (h : merge recessive dominant = .ok result) :
    openPair recessive dominant = .ok (.settled result) ∨
      ∃ shell steps nodes, openPair recessive dominant = .ok (.pending shell steps) ∧
        collect (Step.run merge) steps = .ok nodes ∧
        result = some { shell with children := shell.children ++ nodes } := by
  rw [merge_eq, mergeWith] at h
  cases hopen : openPair recessive dominant with
  | error e => simp [hopen] at h
  | ok opening =>
    cases opening with
    | settled settled =>
      simp only [hopen, Except.ok.injEq] at h
      exact .inl (h ▸ rfl)
    | pending shell steps =>
      cases hsteps : collect (Step.run merge) steps with
      | error e => simp [hopen, hsteps] at h
      | ok nodes =>
        simp only [hopen, hsteps, Except.ok.injEq] at h
        exact .inr ⟨shell, steps, nodes, rfl, hsteps, h.symm⟩

theorem Attributes.get?_declaring {attrs : Attributes} {name : String}
    (h : name ≠ SelfPolicy.attributeName) (policy : Option SelfPolicy) :
    (attrs.declaring policy).get? name = attrs.get? name := by
  cases policy with
  | none => exact get?_erase_of_ne h
  | some policy => rw [declaring, get?_set, if_neg h]

theorem Element.key_withoutSelfPolicy (e : Element) : e.withoutSelfPolicy.key = e.key := by
  have hid : e.withoutSelfPolicy.id? = e.id? := Attributes.get?_erase_of_ne (by decide)
  rw [key, key, hid, withoutSelfPolicy]

theorem Element.selfPolicy_withoutSelfPolicy {e : Element} (h : e.attrs.Unique) :
    e.withoutSelfPolicy.selfPolicy = .ok none := by
  rw [selfPolicy, declared, withoutSelfPolicy, Attributes.get?_erase h]

theorem Element.declared_withChildren {α : Type} (e : Element) (children : List Node)
    (name : String) (ofText? : String → Option α) :
    Element.declared { e with children := children } name ofText? = e.declared name ofText? := by
  rw [declared, declared]

theorem Element.childrenPolicy_withoutSelfPolicy (e : Element) :
    e.withoutSelfPolicy.childrenPolicy = e.childrenPolicy := by
  rw [childrenPolicy, childrenPolicy, declared, declared, withoutSelfPolicy,
    Attributes.get?_erase_of_ne (by decide)]

theorem get?_mergedAttributes_eq_last? {name : String} (hname : name ≠ SelfPolicy.attributeName)
    (policy : Option SelfPolicy) : (mergedAttributes recessive dominant policy).get? name =
      (dominant.attrs.last? name).or (recessive.bind (·.attrs.last? name)) := by
  rw [mergedAttributes, Attributes.get?_declaring hname, Attributes.get?_overlay_eq_or]
  cases recessive with
  | none => rfl
  | some lower => exact congrArg _ (Attributes.get?_ofPairs lower.attrs.entries name)

theorem get?_mergedAttributes {name : String} (hname : name ≠ SelfPolicy.attributeName)
    (hunique : dominant.attrs.Unique) (policy : Option SelfPolicy)
    (h : ∀ lower ∈ recessive, lower.attrs.get? name = dominant.attrs.get? name) :
    (mergedAttributes recessive dominant policy).get? name = dominant.attrs.get? name := by
  rw [get?_mergedAttributes_eq_last? hname, hunique.last?_eq_get?]
  cases hget : dominant.attrs.get? name with
  | some value => rfl
  | none =>
    cases recessive with
    | none => rfl
    | some lower =>
      have hlower := Attributes.get?_eq_none_iff.1 ((h lower rfl).trans hget)
      exact Attributes.last?_eq_none_iff.2 hlower

theorem get?_mergedAttributes_eq_or {name : String} (hname : name ≠ SelfPolicy.attributeName)
    (hbelow : ∀ lower ∈ recessive, lower.attrs.Unique) (habove : dominant.attrs.Unique)
    (policy : Option SelfPolicy) : (mergedAttributes recessive dominant policy).get? name =
      (dominant.attrs.get? name).or (recessive.bind (·.attrs.get? name)) := by
  rw [get?_mergedAttributes_eq_last? hname, habove.last?_eq_get?]
  cases recessive with
  | none => rfl
  | some lower => rw [Option.bind_some, Option.bind_some, (hbelow lower rfl).last?_eq_get?]

/-- An element that is merged with one of its key keeps the key. -/
theorem key_of_merge {e : Element} (hunique : dominant.attrs.Unique)
    (hkey : ∀ lower ∈ recessive, lower.key = dominant.key)
    (h : merge recessive dominant = .ok (some e)) : e.key = dominant.key := by
  rcases settled_or_pending_of_merge h with hopen | ⟨shell, steps, nodes, hopen, -, heq⟩
  · cases opens_of_openPair hopen with
    | replaced => exact dominant.key_withoutSelfPolicy
    | appended => rfl
  · cases opens_of_openPair hopen with
    | merged =>
      cases heq
      rw [Element.key, Element.key, Element.id?, get?_mergedAttributes (by decide) hunique]
      · rfl
      · exact fun lower hlower => congrArg Key.id (hkey lower hlower)

theorem SelfPolicy.ofText?_text (policy : SelfPolicy) : ofText? policy.text = some policy := by
  cases policy <;> decide +kernel

theorem Element.childrenPolicy_eq_ok_iff {e : Element} {policy : ChildrenPolicy} :
    e.childrenPolicy = .ok (some policy) ↔
      ∃ value, e.attrs.get? ChildrenPolicy.attributeName = some value ∧
        ChildrenPolicy.ofText? value = some policy := by
  rw [childrenPolicy, declared]
  cases e.attrs.get? ChildrenPolicy.attributeName with
  | none => simp
  | some value => cases hpolicy : ChildrenPolicy.ofText? value <;> simp [hpolicy]

theorem Element.Declares.unique {e : Element} {policy other : SelfPolicy} (h : e.Declares policy)
    (hother : e.Declares other) : policy = other := by
  simpa using h.symm.trans hother

theorem unique_overlaid (recessive : Option Element) (dominant : Element) :
    (((recessive.map fun e => Attributes.empty.overlay e.attrs).getD .empty).overlay
      dominant.attrs).Unique := by
  refine Attributes.unique_overlay ?_
  cases recessive with
  | none => exact List.nodup_nil
  | some lower => exact Attributes.unique_overlay List.nodup_nil

theorem unique_mergedAttributes (policy : Option SelfPolicy) :
    (mergedAttributes recessive dominant policy).Unique := by
  have hunique := unique_overlaid recessive dominant
  cases policy with
  | none => exact Attributes.unique_erase hunique
  | some policy => exact Attributes.unique_set hunique

theorem selfPolicy_mergedAttributes (tag : String) (children : List Node)
    (policy : Option SelfPolicy) :
    Element.selfPolicy ⟨tag, mergedAttributes recessive dominant policy, children⟩ =
      .ok policy := by
  cases policy with
  | none =>
    have hget := Attributes.get?_erase (unique_overlaid recessive dominant) SelfPolicy.attributeName
    rw [Element.selfPolicy, Element.declared, mergedAttributes, Attributes.declaring, hget]
  | some policy =>
    rw [Element.selfPolicy, Element.declared, mergedAttributes, Attributes.declaring,
      Attributes.get?_set, if_pos rfl]
    simp only [SelfPolicy.ofText?_text]

/-- What is left of two policies, if anything is left of the pair that declares them. -/
def survivingPolicy? (recessive dominant : Option SelfPolicy) : Option (Option SelfPolicy) :=
  if dominant = some .remove then none
  else if dominant = some .override ∨ recessive = some .overridable then some none
  else some (resultingPolicy recessive dominant)

def Opening.shell? : Opening → Option Element
  | .settled result => result
  | .pending shell _ => some shell

theorem selfPolicy_of_openMerged {recessiveSelf dominantSelf : Option SelfPolicy}
    {opening : Opening} (hbelow : declaredBy Element.selfPolicy recessive = .ok recessiveSelf)
    (habove : dominant.selfPolicy = .ok dominantSelf)
    (h : openMerged recessive dominant recessiveSelf dominantSelf = .ok opening) :
    opening.shell?.map Element.selfPolicy =
      some (.ok (resultingPolicy recessiveSelf dominantSelf)) := by
  obtain ⟨policy, -, ⟨⟨-, rfl⟩, rfl⟩ | ⟨-, steps, -, rfl⟩⟩ := openMerged_eq_ok h
  · cases hbelow
    rw [Opening.shell?, Option.map_some, habove]
    cases dominantSelf <;> rfl
  · rw [Opening.shell?, Option.map_some, selfPolicy_mergedAttributes]

theorem selfPolicy_of_openPair {opening : Opening} (hunique : dominant.attrs.Unique)
    (h : openPair recessive dominant = .ok opening) : ∃ recessiveSelf dominantSelf,
      declaredBy Element.selfPolicy recessive = .ok recessiveSelf ∧
      dominant.selfPolicy = .ok dominantSelf ∧
      opening.shell?.map Element.selfPolicy =
        (survivingPolicy? recessiveSelf dominantSelf).map .ok := by
  obtain ⟨recessiveSelf, dominantSelf, hbelow, habove, hopening⟩ := openPair_eq_ok h
  refine ⟨recessiveSelf, dominantSelf, hbelow, habove, ?_⟩
  rw [survivingPolicy?]
  obtain ⟨hremove, rfl⟩ | ⟨hstays, ⟨hasked, rfl⟩ | ⟨hshares, hmerged⟩⟩ := hopening
  · rw [if_pos hremove]
    rfl
  · rw [if_neg hstays, if_pos hasked, Opening.shell?, Option.map_some,
      Element.selfPolicy_withoutSelfPolicy hunique]
    rfl
  · rw [if_neg hstays, if_neg hshares]
    exact selfPolicy_of_openMerged hbelow habove hmerged

/-- Whether something is left of a pair, and what it declares, depends on what the two elements
declare alone. -/
theorem selfPolicy_of_merge {result : Option Element} (hunique : dominant.attrs.Unique)
    (h : merge recessive dominant = .ok result) : ∃ recessiveSelf dominantSelf,
      declaredBy Element.selfPolicy recessive = .ok recessiveSelf ∧
      dominant.selfPolicy = .ok dominantSelf ∧
      result.map Element.selfPolicy = (survivingPolicy? recessiveSelf dominantSelf).map .ok := by
  rcases settled_or_pending_of_merge h with hopen | ⟨shell, steps, nodes, hopen, -, rfl⟩
  · exact selfPolicy_of_openPair hunique hopen
  · have hleft := selfPolicy_of_openPair hunique hopen
    have hsame : Element.selfPolicy { shell with children := shell.children ++ nodes } =
        shell.selfPolicy := shell.declared_withChildren _ _ _
    rwa [Opening.shell?, Option.map_some, ← hsame] at hleft

theorem unique_of_merge {e : Element} (hunique : dominant.attrs.Unique)
    (h : merge recessive dominant = .ok (some e)) : e.attrs.Unique := by
  rcases settled_or_pending_of_merge h with hopen | ⟨shell, steps, nodes, hopen, -, heq⟩
  · cases opens_of_openPair hopen with
    | replaced => exact Attributes.unique_erase hunique
    | appended => exact hunique
  · cases opens_of_openPair hopen with
    | merged =>
      cases heq
      exact unique_mergedAttributes _

/-- A policy that leaves something to be merged stays declared, unless the other element gives way
to any counterpart. -/
theorem declares_of_merge {result : Option Element} (hpolicy : dominant.Declares policy)
    (hstays : policy ≠ .remove) (hshares : policy ≠ .override)
    (hlower : ∀ lower ∈ recessive, ¬ lower.Declares .overridable)
    (h : merge recessive dominant = .ok result) : ∃ e, result = some e ∧ e.Declares policy := by
  rcases settled_or_pending_of_merge h with hopen | ⟨shell, steps, nodes, hopen, -, rfl⟩
  · cases opens_of_openPair hopen with
    | removed hremove => exact absurd (hpolicy.unique hremove) hstays
    | replaced _ hasked =>
      rcases hasked with hoverride | ⟨lower, hmem, hoverridable⟩
      · exact absurd (hpolicy.unique hoverride) hshares
      · exact absurd hoverridable (hlower lower hmem)
    | appended => exact ⟨dominant, rfl, hpolicy⟩
  · cases opens_of_openPair hopen with
    | @merged _ dominantSelf _ _ above =>
      obtain rfl : dominantSelf = some policy := by
        rw [Element.Declares, above] at hpolicy
        exact Except.ok.inj hpolicy
      refine ⟨_, rfl, ?_⟩
      rw [Element.Declares, Element.selfPolicy, Element.declared_withChildren,
        ← Element.selfPolicy, selfPolicy_mergedAttributes]
      rfl

end ConfigOverlay
