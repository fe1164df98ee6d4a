import ConfigOverlay.Proofs.Merge.Runs
import ConfigOverlay.Proofs.Merge.Steps
import ConfigOverlay.Proofs.Merge.Sweep

/-!
Which policies are read when layers are merged. An attribute is read only where something is decided
by it. So opening a pair, a merge or a sweep fails exactly if an attribute that is read has a value
that is no policy, and the fault names the element and the value as they stand there.
-/

set_option autoImplicit false

namespace ConfigOverlay

variable {recessive : Option Element} {dominant : Element} {fault : MergeError}

def Unrecognised (name value : String) : Prop :=
  name = SelfPolicy.attributeName ∧ SelfPolicy.ofText? value = none ∨
    name = ChildrenPolicy.attributeName ∧ ChildrenPolicy.ofText? value = none

instance (name value : String) : Decidable (Unrecognised name value) :=
  inferInstanceAs (Decidable (_ ∨ _))

namespace Element

variable {e : Element} {name value : String}

structure Misdeclares (e : Element) (name value : String) : Prop where
  written : e.attrs.get? name = some value
  unrecognised : Unrecognised name value

instance (e : Element) (name value : String) : Decidable (e.Misdeclares name value) :=
  decidable_of_iff (e.attrs.get? name = some value ∧ Unrecognised name value)
    ⟨fun h => ⟨h.1, h.2⟩, fun h => ⟨h.1, h.2⟩⟩

def Causes (e : Element) (name : String) (fault : MergeError) : Prop :=
  ∃ value, e.Misdeclares name value ∧ fault = .invalidPolicy e.tag name value

theorem declared_eq_error_iff {α : Type} {ofText? : String → Option α} :
    e.declared name ofText? = .error fault ↔
      ∃ value, e.attrs.get? name = some value ∧ ofText? value = none ∧
        fault = .invalidPolicy e.tag name value := by
  rw [declared]
  cases e.attrs.get? name with
  | none => simp
  | some value => cases hpolicy : ofText? value <;> simp [hpolicy, eq_comm]

theorem misdeclares_self_iff : e.Misdeclares SelfPolicy.attributeName value ↔
    e.attrs.get? SelfPolicy.attributeName = some value ∧ SelfPolicy.ofText? value = none := by
  have hnames : SelfPolicy.attributeName ≠ ChildrenPolicy.attributeName := by decide
  constructor
  · rintro ⟨hvalue, ⟨-, hnone⟩ | ⟨hname, -⟩⟩
    · exact ⟨hvalue, hnone⟩
    · exact absurd hname hnames
  · rintro ⟨hvalue, hnone⟩
    exact ⟨hvalue, .inl ⟨rfl, hnone⟩⟩

theorem misdeclares_children_iff : e.Misdeclares ChildrenPolicy.attributeName value ↔
    e.attrs.get? ChildrenPolicy.attributeName = some value ∧
      ChildrenPolicy.ofText? value = none := by
  have hnames : ChildrenPolicy.attributeName ≠ SelfPolicy.attributeName := by decide
  constructor
  · rintro ⟨hvalue, ⟨hname, -⟩ | ⟨-, hnone⟩⟩
    · exact absurd hname hnames
    · exact ⟨hvalue, hnone⟩
  · rintro ⟨hvalue, hnone⟩
    exact ⟨hvalue, .inr ⟨rfl, hnone⟩⟩

theorem selfPolicy_eq_error_iff :
    e.selfPolicy = .error fault ↔ e.Causes SelfPolicy.attributeName fault := by
  simp only [selfPolicy, declared_eq_error_iff, Causes, misdeclares_self_iff, and_assoc]

theorem childrenPolicy_eq_error_iff :
    e.childrenPolicy = .error fault ↔ e.Causes ChildrenPolicy.attributeName fault := by
  simp only [childrenPolicy, declared_eq_error_iff, Causes, misdeclares_children_iff, and_assoc]

theorem childrenPolicy_eq_ok_none_iff :
    e.childrenPolicy = .ok none ↔ e.attrs.get? ChildrenPolicy.attributeName = none := by
  rw [childrenPolicy, declared]
  cases e.attrs.get? ChildrenPolicy.attributeName with
  | none => simp
  | some value => cases hpolicy : ChildrenPolicy.ofText? value <;> simp [hpolicy]

end Element

/-- Neither side asks for more than that the two be laid over each other. -/
structure Shares (recessive : Option Element) (dominant : Element) : Prop where
  stays : ¬ dominant.Declares .remove
  above : ¬ dominant.Declares .override
  under : ∀ lower ∈ recessive, ¬ lower.Declares .overridable

/-- The attributes that are read to open a pair: of what element, and of which name. -/
inductive ReadAt (recessive : Option Element) (dominant : Element) : Element → String → Prop where
  | above : ReadAt recessive dominant dominant SelfPolicy.attributeName
  | under {lower : Element} (mem : lower ∈ recessive) :
    ReadAt recessive dominant lower SelfPolicy.attributeName
  | childrenAbove (shares : Shares recessive dominant) :
    ReadAt recessive dominant dominant ChildrenPolicy.attributeName
  /-- The recessive side's children policy counts if the dominant side has none. -/
  | childrenUnder {lower : Element} (shares : Shares recessive dominant)
      (unsaid : dominant.attrs.get? ChildrenPolicy.attributeName = none)
      (mem : lower ∈ recessive) :
    ReadAt recessive dominant lower ChildrenPolicy.attributeName
  | sibling {lower child : Element} (shares : Shares recessive dominant)
      (merges : pairChildrenPolicy recessive dominant = .ok .merge) (mem : lower ∈ recessive)
      (place : .element child ∈ lower.children) :
    ReadAt recessive dominant child SelfPolicy.attributeName

theorem ReadAt.within {x : Element} {name : String} (h : ReadAt recessive dominant x name) :
    x.Within dominant ∨ ∃ lower ∈ recessive, x.Within lower := by
  cases h with
  | above => exact .inl .here
  | under mem => exact .inr ⟨x, mem, .here⟩
  | childrenAbove => exact .inl .here
  | childrenUnder _ _ mem => exact .inr ⟨x, mem, .here⟩
  | sibling _ _ mem place => exact .inr ⟨_, mem, .child place .here⟩

theorem declaredBy_eq_error {α : Type} {declared : Element → Except MergeError (Option α)}
    (h : declaredBy declared recessive = .error fault) :
    ∃ lower ∈ recessive, declared lower = .error fault := by
  cases recessive with
  | none => simp [declaredBy] at h
  | some lower => exact ⟨lower, rfl, h⟩

theorem retained_eq_error {dominants recessives : List Sibling}
    (h : retained dominants recessives = .error fault) :
    ∃ s ∈ recessives, s.element.selfPolicy = .error fault := by
  induction recessives with
  | nil => simp [retained] at h
  | cons s rest ih =>
    rw [retained] at h
    cases hpolicy : s.element.selfPolicy with
    | error e =>
      simp only [hpolicy, Except.error.injEq] at h
      exact ⟨s, List.mem_cons_self, hpolicy.trans (h ▸ rfl)⟩
    | ok policy =>
      cases hrest : retained dominants rest with
      | error e =>
        simp only [hpolicy, hrest, Except.error.injEq] at h
        obtain ⟨other, hother, hfault⟩ := ih (hrest.trans (h ▸ rfl))
        exact ⟨other, List.mem_cons_of_mem s hother, hfault⟩
      | ok others => simp [hpolicy, hrest] at h

theorem selfPolicy_of_retained {dominants recessives kept : List Sibling}
    (h : retained dominants recessives = .ok kept) {s : Sibling} (hs : s ∈ recessives) :
    ∃ policy, s.element.selfPolicy = .ok policy := by
  induction recessives generalizing kept with
  | nil => exact absurd hs List.not_mem_nil
  | cons first rest ih =>
    rw [retained] at h
    cases hpolicy : first.element.selfPolicy with
    | error e => simp [hpolicy] at h
    | ok policy =>
      cases hrest : retained dominants rest with
      | error e => simp [hpolicy, hrest] at h
      | ok others =>
        rcases List.mem_cons.1 hs with rfl | hs
        · exact ⟨policy, hpolicy⟩
        · exact ih hrest hs

theorem plan_eq_error {policy : ChildrenPolicy}
    (h : policy.plan recessive dominant = .error fault) :
    policy = .merge ∧ ∃ lower ∈ recessive, ∃ child, .element child ∈ lower.children ∧
      child.Causes SelfPolicy.attributeName fault := by
  cases policy with
  | append => simp [ChildrenPolicy.plan] at h
  | merge =>
    refine ⟨rfl, ?_⟩
    rw [ChildrenPolicy.plan, planMerged_eq] at h
    cases hkept : retained dominant.siblings.elements (siblingsOf recessive).elements with
    | ok kept => simp [hkept] at h
    | error e =>
      simp only [hkept, Except.error.injEq] at h
      subst h
      obtain ⟨s, hs, hfault⟩ := retained_eq_error hkept
      obtain ⟨lower, hlower, hplace⟩ := Siblings.place_of_mem_siblingsOf hs
      exact ⟨lower, hlower, s.element, hplace, Element.selfPolicy_eq_error_iff.1 hfault⟩

theorem pairChildrenPolicy_eq_error (h : pairChildrenPolicy recessive dominant = .error fault) :
    dominant.Causes ChildrenPolicy.attributeName fault ∨
      dominant.attrs.get? ChildrenPolicy.attributeName = none ∧
        ∃ lower ∈ recessive, lower.Causes ChildrenPolicy.attributeName fault := by
  rw [pairChildrenPolicy] at h
  cases habove : dominant.childrenPolicy with
  | error e =>
    simp only [habove, Except.error.injEq] at h
    exact .inl (Element.childrenPolicy_eq_error_iff.1 (habove.trans (h ▸ rfl)))
  | ok declared =>
    cases declared with
    | some policy => simp [habove] at h
    | none =>
      refine .inr ⟨Element.childrenPolicy_eq_ok_none_iff.1 habove, ?_⟩
      cases hunder : declaredBy Element.childrenPolicy recessive with
      | ok policy => simp [habove, hunder] at h
      | error e =>
        simp only [habove, hunder, Except.error.injEq] at h
        obtain ⟨lower, hlower, hfault⟩ := declaredBy_eq_error hunder
        exact ⟨lower, hlower, Element.childrenPolicy_eq_error_iff.1 (hfault.trans (h ▸ rfl))⟩

theorem openMerged_eq_error {recessiveSelf dominantSelf : Option SelfPolicy}
    (shares : Shares recessive dominant)
    (h : openMerged recessive dominant recessiveSelf dominantSelf = .error fault) :
    ∃ x name, ReadAt recessive dominant x name ∧ x.Causes name fault := by
  rw [openMerged] at h
  cases hpolicy : pairChildrenPolicy recessive dominant with
  | error e =>
    simp only [hpolicy, Except.error.injEq] at h
    subst h
    rcases pairChildrenPolicy_eq_error hpolicy with hcause | ⟨hunsaid, lower, hlower, hcause⟩
    · exact ⟨_, _, .childrenAbove shares, hcause⟩
    · exact ⟨_, _, .childrenUnder shares hunsaid hlower, hcause⟩
  | ok policy =>
    simp only [hpolicy] at h
    split at h
    · simp at h
    · cases hplan : policy.plan recessive dominant with
      | ok steps => simp [hplan] at h
      | error e =>
        simp only [hplan, Except.error.injEq] at h
        subst h
        obtain ⟨rfl, lower, hlower, child, hplace, hcause⟩ := plan_eq_error hplan
        exact ⟨_, _, .sibling shares hpolicy hlower hplace, hcause⟩

/-- A fault in opening a pair is one of an attribute that is read. -/
theorem openPair_eq_error (h : openPair recessive dominant = .error fault) :
    ∃ x name, ReadAt recessive dominant x name ∧ x.Causes name fault := by
  rw [openPair] at h
  cases habove : dominant.selfPolicy with
  | error e =>
    simp only [habove, Except.error.injEq] at h
    exact ⟨_, _, .above, Element.selfPolicy_eq_error_iff.1 (habove.trans (h ▸ rfl))⟩
  | ok dominantSelf =>
    cases hunder : declaredBy Element.selfPolicy recessive with
    | error e =>
      simp only [habove, hunder, Except.error.injEq] at h
      obtain ⟨lower, hlower, hfault⟩ := declaredBy_eq_error hunder
      exact ⟨_, _, .under hlower, Element.selfPolicy_eq_error_iff.1 (hfault.trans (h ▸ rfl))⟩
    | ok recessiveSelf =>
      simp only [habove, hunder] at h
      split at h
      · simp at h
      · next hstays =>
        split at h
        · simp at h
        · next hshares =>
          obtain ⟨hoverride, hoverridable⟩ := not_or.1 hshares
          refine openMerged_eq_error ⟨?_, ?_, ?_⟩ h
          · simpa [Element.Declares, habove] using hstays
          · simpa [Element.Declares, habove] using hoverride
          · rintro lower ⟨⟩
            rw [declaredBy] at hunder
            simpa [Element.Declares, hunder] using hoverridable

theorem shares_of_pending {shell : Element} {steps : List Step}
    (h : Opens recessive dominant (.pending shell steps)) : Shares recessive dominant := by
  cases h with
  | merged above under stays shares =>
    refine ⟨?_, ?_, ?_⟩
    · simpa [Element.Declares, above] using stays
    · simpa [Element.Declares, above] using shares.1
    · rintro lower ⟨⟩
      rw [declaredBy] at under
      simpa [Element.Declares, under] using shares.2

theorem openMerged_of_shares (shares : Shares recessive dominant) {opening : Opening}
    (h : openPair recessive dominant = .ok opening) :
    ∃ recessiveSelf dominantSelf,
      openMerged recessive dominant recessiveSelf dominantSelf = .ok opening := by
  obtain ⟨recessiveSelf, dominantSelf, hunder, habove,
    ⟨rfl, -⟩ | ⟨-, ⟨rfl | rfl, -⟩ | ⟨-, hmerged⟩⟩⟩ := openPair_eq_ok h
  · exact absurd habove shares.stays
  · exact absurd habove shares.above
  · cases recessive with
    | none => simp [declaredBy] at hunder
    | some lower => exact absurd hunder (shares.under lower rfl)
  · exact ⟨recessiveSelf, dominantSelf, hmerged⟩

theorem ReadAt.not_causes {x : Element} {name : String} (h : ReadAt recessive dominant x name)
    {opening : Opening} (hopen : openPair recessive dominant = .ok opening) :
    ¬ x.Causes name fault := by
  intro hcause
  obtain ⟨recessiveSelf, dominantSelf, hunder, habove, -⟩ := openPair_eq_ok hopen
  cases h with
  | above => simp [Element.selfPolicy_eq_error_iff.2 hcause] at habove
  | under mem =>
    cases mem
    simp [declaredBy, Element.selfPolicy_eq_error_iff.2 hcause] at hunder
  | childrenAbove shares =>
    obtain ⟨_, _, hmerged⟩ := openMerged_of_shares shares hopen
    obtain ⟨policy, hpolicy, -⟩ := openMerged_eq_ok hmerged
    simp [pairChildrenPolicy, Element.childrenPolicy_eq_error_iff.2 hcause] at hpolicy
  | childrenUnder shares unsaid mem =>
    cases mem
    obtain ⟨_, _, hmerged⟩ := openMerged_of_shares shares hopen
    obtain ⟨policy, hpolicy, -⟩ := openMerged_eq_ok hmerged
    simp [pairChildrenPolicy, Element.childrenPolicy_eq_ok_none_iff.2 unsaid, declaredBy,
      Element.childrenPolicy_eq_error_iff.2 hcause] at hpolicy
  | sibling shares merges mem place =>
    obtain ⟨_, _, hmerged⟩ := openMerged_of_shares shares hopen
    obtain ⟨policy, hpolicy, ⟨⟨rfl, -⟩, -⟩ | ⟨-, steps, hplan, -⟩⟩ := openMerged_eq_ok hmerged
    · cases merges.symm.trans hpolicy
    · cases merges.symm.trans hpolicy
      obtain ⟨kept, hkept, -⟩ := planMerged_eq_ok hplan
      obtain ⟨s, hs, rfl⟩ := Siblings.exists_mem_siblingsOf mem place
      obtain ⟨policy, hpolicy⟩ := selfPolicy_of_retained hkept hs
      simp [Element.selfPolicy_eq_error_iff.2 hcause] at hpolicy

/-- A merge of the first pair lays the other pair over each other: it is this pair, or one of
children that are merged, at some depth. -/
inductive Lays : Option Element → Element → Option Element → Element → Prop where
  | pair {recessive : Option Element} {dominant : Element} :
    Lays recessive dominant recessive dominant
  | child {recessive lower lower' : Option Element} {dominant above above' shell : Element}
      {steps : List Step} {leading : List Node}
      (opened : openPair recessive dominant = .ok (.pending shell steps))
      (step : .merge leading lower above ∈ steps) (h : Lays lower above lower' above') :
    Lays recessive dominant lower' above'

theorem Lays.within {lower : Option Element} {above : Element}
    (h : Lays recessive dominant lower above) :
    above.Within dominant ∧ ∀ x ∈ lower, ∃ root ∈ recessive, x.Within root := by
  induction h with
  | pair => exact ⟨.here, fun x hx => ⟨x, hx, .here⟩⟩
  | child opened step _ ih =>
    obtain ⟨habove, hlower⟩ := ih
    refine ⟨.child (child_of_openPair opened step) habove, fun x hx => ?_⟩
    obtain ⟨root, hroot, hwithin⟩ := hlower x hx
    obtain ⟨parent, hparent, hplace⟩ := below_of_step opened step hroot
    exact ⟨parent, hparent, .child hplace hwithin⟩

def Reads (recessive : Option Element) (dominant x : Element) (name : String) : Prop :=
  ∃ lower above, Lays recessive dominant lower above ∧ ReadAt lower above x name

theorem Reads.within {x : Element} {name : String} (h : Reads recessive dominant x name) :
    x.Within dominant ∨ ∃ lower ∈ recessive, x.Within lower := by
  obtain ⟨lower, above, hlays, hread⟩ := h
  obtain ⟨habove, hlower⟩ := hlays.within
  rcases hread.within with hx | ⟨y, hy, hx⟩
  · exact .inl (hx.trans habove)
  · obtain ⟨root, hroot, hwithin⟩ := hlower y hy
    exact .inr ⟨root, hroot, hx.trans hwithin⟩

theorem collect_eq_error {α β ε : Type} {f : α → Except ε (List β)} {l : List α} {e : ε}
    (h : collect f l = .error e) : ∃ a ∈ l, f a = .error e := by
  induction l with
  | nil => simp [collect] at h
  | cons a rest ih =>
    rw [collect] at h
    cases hfirst : f a with
    | error e' =>
      simp only [hfirst, Except.error.injEq] at h
      exact ⟨a, List.mem_cons_self, h ▸ hfirst⟩
    | ok first =>
      cases hrest : collect f rest with
      | error e' =>
        simp only [hfirst, hrest, Except.error.injEq] at h
        obtain ⟨b, hb, hfault⟩ := ih (hrest.trans (h ▸ rfl))
        exact ⟨b, List.mem_cons_of_mem a hb, hfault⟩
      | ok others => simp [hfirst, hrest] at h

theorem run_eq_error {step : Step} (h : Step.run merge step = .error fault) :
    ∃ leading lower above, step = .merge leading lower above ∧
      merge lower above = .error fault := by
  cases step with
  | copy node => simp [Step.run] at h
  | merge leading lower above =>
    refine ⟨leading, lower, above, rfl, ?_⟩
    rw [Step.run] at h
    cases hmerge : merge lower above with
    | error e => simpa [hmerge] using h
    | ok result => cases result <;> simp [hmerge] at h

/-- A fault of a merge is one of an attribute that it reads. -/
theorem merge_eq_error (h : merge recessive dominant = .error fault) :
    ∃ x name, Reads recessive dominant x name ∧ x.Causes name fault := by
  induction hsize : sizeOf dominant using Nat.strongRecOn generalizing recessive dominant with
  | ind size ih =>
    rw [merge_eq, mergeWith] at h
    cases hopen : openPair recessive dominant with
    | error e =>
      simp only [hopen, Except.error.injEq] at h
      subst h
      obtain ⟨x, name, hread, hcause⟩ := openPair_eq_error hopen
      exact ⟨x, name, ⟨_, _, .pair, hread⟩, hcause⟩
    | ok opening =>
      cases opening with
      | settled result => simp [hopen] at h
      | pending shell steps =>
        cases hsteps : collect (Step.run merge) steps with
        | ok nodes => simp [hopen, hsteps] at h
        | error e =>
          simp only [hopen, hsteps, Except.error.injEq] at h
          subst h
          obtain ⟨step, hstep, hrun⟩ := collect_eq_error hsteps
          obtain ⟨leading, lower, above, rfl, hmerge⟩ := run_eq_error hrun
          have hsmaller := hsize ▸ Element.sizeOf_child_lt (child_of_openPair hopen hstep)
          obtain ⟨x, name, ⟨lower', above', hlays, hread⟩, hcause⟩ := ih _ hsmaller hmerge rfl
          exact ⟨x, name, ⟨_, _, .child hopen hstep hlays, hread⟩, hcause⟩

/-- A merge that does not fail carries out the merges in it without a failure. -/
theorem Lays.merge_eq_ok {lower result : Option Element} {above : Element}
    (hlays : Lays recessive dominant lower above) (h : merge recessive dominant = .ok result) :
    ∃ part, merge lower above = .ok part := by
  induction hlays generalizing result with
  | pair => exact ⟨result, h⟩
  | child opened step _ ih =>
    rcases settled_or_pending_of_merge h with hopen | ⟨shell, steps, nodes, hopen, hnodes, -⟩
    · cases opened.symm.trans hopen
    · cases opened.symm.trans hopen
      obtain ⟨part, hpart, -⟩ := child_of_step hnodes step
      exact ih hpart

theorem exists_opening_of_merge {result : Option Element}
    (h : merge recessive dominant = .ok result) :
    ∃ opening, openPair recessive dominant = .ok opening := by
  rcases settled_or_pending_of_merge h with hopen | ⟨_, _, _, hopen, -, -⟩
  · exact ⟨_, hopen⟩
  · exact ⟨_, hopen⟩

/-- In a merge that does not fail, all that is read has been recognised. -/
theorem Reads.not_causes {x : Element} {name : String} (hread : Reads recessive dominant x name)
    {result : Option Element} (h : merge recessive dominant = .ok result) :
    ¬ x.Causes name fault := by
  obtain ⟨lower, above, hlays, hat⟩ := hread
  obtain ⟨part, hpart⟩ := hlays.merge_eq_ok h
  obtain ⟨opening, hopen⟩ := exists_opening_of_merge hpart
  exact hat.not_causes hopen

namespace Element

variable {e x : Element}

/-- A sweep of the first element reads the other one's own policy: that of a child, and those below
a child that stays. -/
inductive Sweeps : Element → Element → Prop where
  | child {e x : Element} (place : .element x ∈ e.children) : Sweeps e x
  | deeper {e c x : Element} (place : .element c ∈ e.children) (stays : ¬ c.Declares .defaults)
      (h : Sweeps c x) : Sweeps e x

theorem Sweeps.within (h : e.Sweeps x) : x.Within e := by
  induction h with
  | child place => exact .child place .here
  | deeper place _ _ ih => exact .child place ih

theorem isSkeleton_eq_false_iff : e.isSkeleton = false ↔ ¬ e.Declares .defaults := by
  simp [isSkeleton]

theorem selfFault?_eq_some_iff :
    e.selfFault? = some fault ↔ e.Causes SelfPolicy.attributeName fault := by
  rw [← selfPolicy_eq_error_iff, selfFault?]
  cases e.selfPolicy <;> simp

theorem sweepFault?_eq (e : Element) : e.sweepFault? =
    (Node.selfFault? e.children).or (Node.sweepFaultBelow? e.children) := by
  cases e
  rw [sweepFault?, Option.orElse_eq_or]

theorem sweep_eq_error_iff : e.sweep = .error fault ↔ e.sweepFault? = some fault := by
  rw [sweep_eq]
  cases e.sweepFault? <;> simp

end Element

theorem Node.selfFault?_eq_some {nodes : List Node} (h : Node.selfFault? nodes = some fault) :
    ∃ c, .element c ∈ nodes ∧ c.Causes SelfPolicy.attributeName fault := by
  obtain ⟨node, hnode, hfault⟩ := List.exists_of_findSome?_eq_some h
  cases node with
  | element c => exact ⟨c, hnode, Element.selfFault?_eq_some_iff.1 hfault⟩
  | text content => cases hfault
  | comment content => cases hfault

theorem Node.sweepFaultBelow?_eq_some {nodes : List Node}
    (h : Node.sweepFaultBelow? nodes = some fault) :
    ∃ c, .element c ∈ nodes ∧ ¬ c.Declares .defaults ∧ c.sweepFault? = some fault := by
  induction nodes with
  | nil => cases h
  | cons node rest ih =>
    have hlater (hrest : Node.sweepFaultBelow? rest = some fault) :
        ∃ c, .element c ∈ node :: rest ∧ ¬ c.Declares .defaults ∧ c.sweepFault? = some fault := by
      obtain ⟨c, hc, hfault⟩ := ih hrest
      exact ⟨c, List.mem_cons_of_mem node hc, hfault⟩
    cases node with
    | text content => exact hlater h
    | comment content => exact hlater h
    | element c =>
      rw [Node.sweepFaultBelow?, Option.orElse_eq_or, Option.or_eq_some_iff] at h
      rcases h with hrest | ⟨-, hhere⟩
      · exact hlater hrest
      · split at hhere
        · cases hhere
        · next hstays =>
          exact ⟨c, List.mem_cons_self, by simpa [Element.isSkeleton] using hstays, hhere⟩

theorem Node.sweepFault?_of_mem {nodes : List Node} (h : Node.sweepFaultBelow? nodes = none)
    {c : Element} (hc : .element c ∈ nodes) (hstays : ¬ c.Declares .defaults) :
    c.sweepFault? = none := by
  induction nodes with
  | nil => exact absurd hc List.not_mem_nil
  | cons node rest ih =>
    cases node with
    | text content => exact ih h (by simpa using hc)
    | comment content => exact ih h (by simpa using hc)
    | element first =>
      rw [Node.sweepFaultBelow?, Option.orElse_eq_or, Option.or_eq_none_iff] at h
      rcases List.mem_cons.1 hc with heq | hc
      · cases heq
        simpa [Element.isSkeleton, hstays] using h.2
      · exact ih h.1 hc

namespace Element

variable {e x : Element}

/-- A fault of a sweep is one of an own policy that it reads. -/
theorem exists_sweeps_of_sweepFault? (h : e.sweepFault? = some fault) :
    ∃ x, e.Sweeps x ∧ x.Causes SelfPolicy.attributeName fault := by
  induction hsize : sizeOf e using Nat.strongRecOn generalizing e with
  | ind size ih =>
    rw [e.sweepFault?_eq, Option.or_eq_some_iff] at h
    rcases h with hchild | ⟨-, hbelow⟩
    · obtain ⟨c, hc, hcause⟩ := Node.selfFault?_eq_some hchild
      exact ⟨c, .child hc, hcause⟩
    · obtain ⟨c, hc, hstays, hfault⟩ := Node.sweepFaultBelow?_eq_some hbelow
      obtain ⟨x, hx, hcause⟩ := ih _ (hsize ▸ sizeOf_child_lt hc) hfault rfl
      exact ⟨x, .deeper hc hstays hx, hcause⟩

theorem Sweeps.not_causes (hx : e.Sweeps x) (h : e.sweepFault? = none) :
    ¬ x.Causes SelfPolicy.attributeName fault := by
  induction hx with
  | @child e x place =>
    rw [e.sweepFault?_eq, Option.or_eq_none_iff] at h
    rw [← selfFault?_eq_some_iff]
    have hnone := List.findSome?_eq_none_iff.1 h.1 _ place
    exact fun hsome => by cases hnone.symm.trans hsome
  | @deeper e c x place stays _ ih =>
    rw [e.sweepFault?_eq, Option.or_eq_none_iff] at h
    exact ih (Node.sweepFault?_of_mem h.2 place stays)

end Element

end ConfigOverlay
