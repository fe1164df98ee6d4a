import ConfigOverlay.Merge.Layers
import ConfigOverlay.Proofs.Merge.Swept
import ConfigOverlay.Proofs.Merge.Rules
import Mathlib.Data.List.Basic

/-!
Layout decides nothing. Each part of a merge is compared with the same part after comments and
blank texts have been dropped from both sides: siblings, plans, merges, and then whole runs.
-/

set_option autoImplicit false

namespace ConfigOverlay

mutual
/-- The element without comments and blank texts, at any depth. -/
def Element.bare : Element → Element
  | ⟨tag, attrs, children⟩ => ⟨tag, attrs, Node.bares children⟩

def Node.bare? : Node → Option Node
  | .element e => some (.element e.bare)
  | .text content => if (Node.text content).isLayout then none else some (.text content)
  | .comment _ => none

def Node.bares : List Node → List Node
  | [] => []
  | node :: rest => node.bare?.toList ++ Node.bares rest
end

theorem Node.bares_eq (nodes : List Node) : Node.bares nodes = nodes.filterMap Node.bare? := by
  induction nodes with
  | nil => rfl
  | cons node rest ih =>
    rw [Node.bares, ih, List.filterMap_cons]
    cases node.bare? <;> rfl

theorem Node.bare?_eq_none_iff {node : Node} : node.bare? = none ↔ node.isLayout := by
  cases node with
  | element e => simp [Node.bare?, Node.isLayout]
  | text content => simp [Node.bare?]
  | comment content => simp [Node.bare?, Node.isLayout]

theorem Node.kind_of_bare? {node other : Node} (h : node.bare? = some other) :
    other.isText = node.isText ∧ other.isLayout = node.isLayout := by
  cases node with
  | element e =>
    simp only [Node.bare?, Option.some.injEq] at h
    subst h
    exact ⟨rfl, rfl⟩
  | text content =>
    by_cases hlayout : (Node.text content).isLayout
    · simp [Node.bare?, hlayout] at h
    · rw [Node.bare?, if_neg hlayout, Option.some.injEq] at h
      subst h
      exact ⟨rfl, rfl⟩
  | comment content => simp [Node.bare?] at h

theorem Node.isLayout_of_bare? {node other : Node} (h : node.bare? = some other) :
    node.isLayout = false := by
  have hnone := mt Node.bare?_eq_none_iff.2 (show node.bare? ≠ none by simp [h])
  simpa using hnone

theorem Node.filterMap_bare?_eq_nil {nodes : List Node} (h : ∀ node ∈ nodes, node.isLayout) :
    nodes.filterMap Node.bare? = [] :=
  List.filterMap_eq_nil_iff.2 fun node hnode => Node.bare?_eq_none_iff.2 (h node hnode)

namespace Element

@[simp] theorem tag_bare (e : Element) : e.bare.tag = e.tag := by cases e; rfl

@[simp] theorem attrs_bare (e : Element) : e.bare.attrs = e.attrs := by cases e; rfl

@[simp] theorem children_bare (e : Element) :
    e.bare.children = e.children.filterMap Node.bare? := by
  cases e
  exact Node.bares_eq _

@[simp] theorem key_bare (e : Element) : e.bare.key = e.key := by simp [key, id?]

@[simp] theorem selfPolicy_bare (e : Element) : e.bare.selfPolicy = e.selfPolicy := by
  simp [selfPolicy, declared]

@[simp] theorem childrenPolicy_bare (e : Element) : e.bare.childrenPolicy = e.childrenPolicy := by
  simp [childrenPolicy, declared]

end Element

theorem declaredBy_bare {α : Type} {declared : Element → Except MergeError (Option α)}
    (h : ∀ e, declared e.bare = declared e) (e : Option Element) :
    declaredBy declared (e.map Element.bare) = declaredBy declared e := by
  cases e with
  | none => rfl
  | some e => exact h e

def Sibling.bare (s : Sibling) : Sibling := ⟨[], s.element.bare⟩

@[simp] theorem Sibling.element_bare (s : Sibling) : s.bare.element = s.element.bare := rfl

@[simp] theorem Sibling.leading_bare (s : Sibling) : s.bare.leading = [] := rfl

@[simp] theorem Sibling.key_bare (s : Sibling) : s.bare.key = s.key := s.element.key_bare

namespace Siblings

def bare (s : Siblings) : Siblings :=
  ⟨s.elements.map Sibling.bare, s.stray.filterMap Node.bare?⟩

theorem group_bare {pending : List Node} (nodes : List Node)
    (hpending : ∀ n ∈ pending, n.isLayout) :
    group [] (nodes.filterMap Node.bare?) = (group pending nodes).bare := by
  induction nodes generalizing pending with
  | nil => simp [group, bare, Node.filterMap_bare?_eq_nil hpending]
  | cons node rest ih =>
    cases node with
    | element e =>
      have h := @ih [] (by simp)
      simp [group, consElement, bare, Node.bare?, h, Sibling.bare]
    | text content =>
      by_cases hlayout : (Node.text content).isLayout
      · have h := @ih (pending ++ [.text content]) fun n hn => by
          rcases List.mem_append.1 hn with hn | hn
          · exact hpending n hn
          · rwa [List.mem_singleton.1 hn]
        rw [List.filterMap_cons, Node.bare?_eq_none_iff.2 hlayout, group, if_pos hlayout, h]
      · have h := @ih [] (by simp)
        have hbare : (Node.text content).bare? = some (.text content) := by
          rw [Node.bare?, if_neg hlayout]
        rw [List.filterMap_cons, hbare, group, if_neg hlayout, group, if_neg hlayout, h]
        simp [consStray, bare, Node.filterMap_bare?_eq_nil hpending, hbare]
    | comment content =>
      have h := @ih (pending ++ [.comment content]) fun n hn => by
        rcases List.mem_append.1 hn with hn | hn
        · exact hpending n hn
        · rw [List.mem_singleton.1 hn]; rfl
      rw [List.filterMap_cons, Node.bare?_eq_none_iff.2 rfl, group, h]

theorem ofNodes_bare (nodes : List Node) :
    ofNodes (nodes.filterMap Node.bare?) = (ofNodes nodes).bare :=
  group_bare nodes (by simp)

theorem hasText_bare (s : Siblings) : s.bare.hasText = s.hasText := by
  rw [hasText, hasText, bare, List.any_filterMap]
  refine congrArg (List.any s.stray) (funext fun node => ?_)
  cases h : node.bare? with
  | none => simp [Node.bare?_eq_none_iff.1 h]
  | some other => simp [Node.kind_of_bare? h]

theorem staysBeside_bare (dominants : Siblings) {node other : Node}
    (h : node.bare? = some other) : staysBeside dominants.bare other = staysBeside dominants node := by
  have hlayout := Node.isLayout_of_bare? h
  obtain ⟨htext, hsame⟩ := Node.kind_of_bare? h
  simp [staysBeside, hasText_bare, htext, hsame, hlayout]

theorem stray_bare (recessives dominants : Siblings) :
    recessives.bare.stray.filter (staysBeside dominants.bare) =
      (recessives.stray.filter (staysBeside dominants)).filterMap Node.bare? := by
  have h : recessives.bare.stray = recessives.stray.filterMap Node.bare? := rfl
  rw [h, List.filter_filterMap, List.filterMap_filter]
  refine congrArg (List.filterMap · recessives.stray) (funext fun node => ?_)
  cases h : node.bare? with
  | none => simp
  | some other => simp [Option.filter, staysBeside_bare dominants h]

end Siblings

theorem retained_bare (dominants recessives : List Sibling) :
    retained (dominants.map Sibling.bare) (recessives.map Sibling.bare) =
      (retained dominants recessives).map (List.map Sibling.bare) := by
  induction recessives with
  | nil => rfl
  | cons s rest ih =>
    have hdrop : ∀ policy, isDroppedBy (dominants.map Sibling.bare) s.bare policy =
        isDroppedBy dominants s policy := fun policy => by
      simp [isDroppedBy, List.any_map, Function.comp_def]
    rw [List.map_cons, retained, retained, ih, Sibling.element_bare, Element.selfPolicy_bare]
    cases s.element.selfPolicy with
    | error e => rfl
    | ok policy =>
      cases retained dominants rest with
      | error e => rfl
      | ok kept =>
        simp only [Except.map, hdrop policy]
        cases isDroppedBy dominants s policy <;> rfl

theorem counterpart?_bare (recessives dominants : List Sibling) (key : Key) :
    counterpart? (recessives.map Sibling.bare) (dominants.map Sibling.bare) key =
      (counterpart? recessives dominants key).map Sibling.bare := by
  simp only [counterpart?, List.countP_map, List.find?_map, Function.comp_def, Sibling.key_bare,
    Sibling.element_bare, Element.tag_bare]
  rw [apply_ite (Option.map Sibling.bare)]
  rfl

def Step.bare? : Step → Option Step
  | .copy node => node.bare?.map .copy
  | .merge leading recessive dominant =>
    some (.merge (leading.filterMap Node.bare?) (recessive.map Element.bare) dominant.bare)

theorem filterMap_copy (nodes : List Node) :
    (nodes.map .copy).filterMap Step.bare? = (nodes.filterMap Node.bare?).map Step.copy := by
  rw [List.filterMap_map, List.map_filterMap]
  rfl

def LedByLayout (siblings : List Sibling) : Prop :=
  ∀ s ∈ siblings, s.leading.filterMap Node.bare? = []

theorem ledByLayout_ofNodes (nodes : List Node) : LedByLayout (Siblings.ofNodes nodes).elements :=
  fun _ hs => Node.filterMap_bare?_eq_nil fun _ hnode => Siblings.isLayout_of_mem_leading hs hnode

theorem recessiveSteps_bare {recessives dominants : List Sibling} (hr : LedByLayout recessives)
    (hd : LedByLayout dominants) {s : Sibling} (hs : s ∈ recessives) :
    s.bare.recessiveSteps (recessives.map Sibling.bare) (dominants.map Sibling.bare) =
      (s.recessiveSteps recessives dominants).filterMap Step.bare? := by
  rw [Sibling.recessiveSteps, Sibling.recessiveSteps, Sibling.key_bare, counterpart?_bare]
  cases h : counterpart? recessives dominants s.key with
  | some d =>
    have hleading : (if d.leading.isEmpty then s.leading else d.leading).filterMap Node.bare? =
        [] := by
      split
      · exact hr s hs
      · exact hd d (counterpart?_mem h)
    simp only [Option.map_some, List.filterMap_cons, List.filterMap_nil, Step.bare?, hleading]
    rfl
  | none =>
    rw [Option.map_none, List.filterMap_append, filterMap_copy, hr s hs]
    rfl

theorem dominantSteps_bare (recessives : List Sibling) {dominants : List Sibling}
    (hd : LedByLayout dominants) {d : Sibling} (hmem : d ∈ dominants) :
    d.bare.dominantSteps (recessives.map Sibling.bare) (dominants.map Sibling.bare) =
      (d.dominantSteps recessives dominants).filterMap Step.bare? := by
  rw [Sibling.dominantSteps, Sibling.dominantSteps, Sibling.key_bare, counterpart?_bare]
  cases counterpart? recessives dominants d.key with
  | some r => rfl
  | none =>
    simp only [Option.map_none, List.filterMap_cons, List.filterMap_nil, Step.bare?, hd d hmem]
    rfl

theorem siblingSteps_bare (recessives : Siblings) {dominants : Siblings} {kept : List Sibling}
    (hkept : LedByLayout kept) (hd : LedByLayout dominants.elements) :
    siblingSteps recessives.bare dominants.bare (kept.map Sibling.bare) =
      (siblingSteps recessives dominants kept).filterMap Step.bare? := by
  have hrecessive : (kept.map Sibling.bare).flatMap
      (·.recessiveSteps (kept.map Sibling.bare) dominants.bare.elements) =
      (kept.flatMap (·.recessiveSteps kept dominants.elements)).filterMap Step.bare? := by
    rw [List.flatMap_map, List.filterMap_flatMap]
    exact List.flatMap_congr fun s hs => recessiveSteps_bare hkept hd hs
  have hdominant : dominants.bare.elements.flatMap
      (·.dominantSteps (kept.map Sibling.bare) dominants.bare.elements) =
      (dominants.elements.flatMap (·.dominantSteps kept dominants.elements)).filterMap
        Step.bare? := by
    rw [Siblings.bare, List.flatMap_map, List.filterMap_flatMap]
    exact List.flatMap_congr fun d hmem => dominantSteps_bare kept hd hmem
  rw [siblingSteps, siblingSteps, hrecessive, hdominant, Siblings.stray_bare, List.filterMap_append,
    List.filterMap_append, List.filterMap_append, filterMap_copy, filterMap_copy]
  rfl

theorem planMerged_bare (recessive : Option Element) (dominant : Element) :
    planMerged (recessive.map Element.bare) dominant.bare =
      (planMerged recessive dominant).map (List.filterMap Step.bare?) := by
  have hnodes : ((recessive.map Element.bare).map fun e => Siblings.ofNodes e.children).getD .empty =
      ((recessive.map fun e => Siblings.ofNodes e.children).getD .empty).bare := by
    cases recessive with
    | none => rfl
    | some e => simp [Siblings.ofNodes_bare]
  have hr : LedByLayout
      ((recessive.map fun e => Siblings.ofNodes e.children).getD .empty).elements := by
    cases recessive with
    | none => simp [LedByLayout, Siblings.empty]
    | some e => exact ledByLayout_ofNodes e.children
  rw [planMerged, planMerged, hnodes, Element.children_bare, Siblings.ofNodes_bare]
  simp only [Siblings.bare, retained_bare]
  cases hkept : retained (Siblings.ofNodes dominant.children).elements
      ((recessive.map fun e => Siblings.ofNodes e.children).getD .empty).elements with
  | error e => rfl
  | ok kept =>
    refine congrArg Except.ok (siblingSteps_bare _ (fun s hs => ?_) (ledByLayout_ofNodes _))
    exact hr s (mem_of_mem_retained hkept hs)

theorem appendStep_bare (nodes : List Node) :
    (nodes.filterMap Node.bare?).map appendStep =
      (nodes.map appendStep).filterMap Step.bare? := by
  rw [List.filterMap_map, List.map_filterMap]
  refine congrArg (List.filterMap · nodes) (funext fun node => ?_)
  cases node with
  | element e => rfl
  | text content =>
    by_cases hlayout : (Node.text content).isLayout
    · simp [Node.bare?, hlayout, appendStep, Step.bare?]
    · simp [Node.bare?, hlayout, appendStep, Step.bare?]
  | comment content => rfl

theorem plan_bare (policy : ChildrenPolicy) (recessive : Option Element) (dominant : Element) :
    policy.plan (recessive.map Element.bare) dominant.bare =
      (policy.plan recessive dominant).map (List.filterMap Step.bare?) := by
  cases policy with
  | merge => exact planMerged_bare recessive dominant
  | append => simp [ChildrenPolicy.plan, appendStep_bare, Except.map]

theorem filterMap_withoutTrailingLayout (nodes : List Node) :
    (withoutTrailingLayout nodes).filterMap Node.bare? = nodes.filterMap Node.bare? := by
  induction nodes with
  | nil => rfl
  | cons node rest ih =>
    rw [Rules.withoutTrailingLayout_cons]
    split
    · next hall =>
      rw [Node.filterMap_bare?_eq_nil fun n hn => List.all_eq_true.1 hall n hn]
      rfl
    · rw [List.filterMap_cons, List.filterMap_cons, ih]

theorem withoutTrailingLayout_bare (nodes : List Node) :
    withoutTrailingLayout (nodes.filterMap Node.bare?) =
      (withoutTrailingLayout nodes).filterMap Node.bare? := by
  rw [filterMap_withoutTrailingLayout]
  induction nodes with
  | nil => rfl
  | cons node rest ih =>
    rw [List.filterMap_cons]
    cases h : node.bare? with
    | none => exact ih
    | some other =>
      have hother : other.isLayout = false := by
        rw [(Node.kind_of_bare? h).2, Node.isLayout_of_bare? h]
      rw [Rules.withoutTrailingLayout_cons, ih]
      simp [hother]

theorem start_bare (policy : ChildrenPolicy) (recessive : Option Element) :
    policy.start (recessive.map Element.bare) = (policy.start recessive).filterMap Node.bare? := by
  cases policy with
  | merge => rfl
  | append =>
    cases recessive with
    | none => rfl
    | some e => simp [ChildrenPolicy.start, withoutTrailingLayout_bare]

def Opening.bare : Opening → Opening
  | .settled result => .settled (result.map Element.bare)
  | .pending shell steps => .pending shell.bare (steps.filterMap Step.bare?)

theorem mergedAttributes_bare (recessive : Option Element) (dominant : Element)
    (policy : Option SelfPolicy) :
    mergedAttributes (recessive.map Element.bare) dominant.bare policy =
      mergedAttributes recessive dominant policy := by
  cases recessive <;> simp [mergedAttributes]

theorem openMerged_bare (recessive : Option Element) (dominant : Element)
    (recessiveSelf dominantSelf : Option SelfPolicy) :
    openMerged (recessive.map Element.bare) dominant.bare recessiveSelf dominantSelf =
      (openMerged recessive dominant recessiveSelf dominantSelf).map Opening.bare := by
  have hpolicy : pairChildrenPolicy (recessive.map Element.bare) dominant.bare =
      pairChildrenPolicy recessive dominant := by
    rw [pairChildrenPolicy, pairChildrenPolicy, declaredBy_bare Element.childrenPolicy_bare,
      Element.childrenPolicy_bare]
  rw [openMerged, openMerged, hpolicy]
  cases pairChildrenPolicy recessive dominant with
  | error e => rfl
  | ok policy =>
    simp only [plan_bare, mergedAttributes_bare, start_bare, Element.tag_bare,
      Option.map_eq_none_iff]
    split
    · rfl
    · cases policy.plan recessive dominant with
      | error e => rfl
      | ok steps => simp [Except.map, Opening.bare, Element.bare, Node.bares_eq]

theorem openPair_bare (recessive : Option Element) (dominant : Element) :
    openPair (recessive.map Element.bare) dominant.bare =
      (openPair recessive dominant).map Opening.bare := by
  rw [openPair, openPair, declaredBy_bare Element.selfPolicy_bare, Element.selfPolicy_bare]
  cases dominant.selfPolicy with
  | error e => rfl
  | ok dominantSelf =>
    cases declaredBy Element.selfPolicy recessive with
    | error e => rfl
    | ok recessiveSelf =>
      simp only [openMerged_bare]
      split
      · rfl
      · split
        · cases dominant
          rfl
        · rfl

theorem run_bare {step : Step}
    (h : ∀ leading recessive dominant, step = .merge leading recessive dominant →
      merge (recessive.map Element.bare) dominant.bare =
        (merge recessive dominant).map (Option.map Element.bare)) :
    collect (Step.run merge) step.bare?.toList =
      (Step.run merge step).map (List.filterMap Node.bare?) := by
  cases step with
  | copy node =>
    rw [Step.bare?, Step.run]
    cases hnode : node.bare? <;> simp [collect, Step.run, Except.map, hnode]
  | merge leading recessive dominant =>
    rw [Step.bare?, Option.toList_some, Rules.collect_singleton, Step.run, Step.run,
      h leading recessive dominant rfl]
    cases merge recessive dominant with
    | error e => rfl
    | ok child => cases child <;> simp [Except.map, Node.bare?]

theorem collect_bare {steps : List Step}
    (h : ∀ leading recessive dominant, Step.merge leading recessive dominant ∈ steps →
      merge (recessive.map Element.bare) dominant.bare =
        (merge recessive dominant).map (Option.map Element.bare)) :
    collect (Step.run merge) (steps.filterMap Step.bare?) =
      (collect (Step.run merge) steps).map (List.filterMap Node.bare?) := by
  induction steps with
  | nil => rfl
  | cons step rest ih =>
    have hrest := ih fun l r d hmem => h l r d (List.mem_cons_of_mem _ hmem)
    have hstep := @run_bare step fun l r d hmem =>
      h l r d (hmem ▸ List.mem_cons_self)
    have happend : (step :: rest).filterMap Step.bare? =
        step.bare?.toList ++ rest.filterMap Step.bare? := by
      rw [List.filterMap_cons]
      cases step.bare? <;> rfl
    rw [happend, collect_append, hstep, hrest, collect]
    cases Step.run merge step with
    | error e => rfl
    | ok first =>
      cases collect (Step.run merge) rest with
      | error e => rfl
      | ok others => simp [bind, Except.bind, pure, Except.pure, Except.map]

theorem merge_bare (recessive : Option Element) (dominant : Element) :
    merge (recessive.map Element.bare) dominant.bare =
      (merge recessive dominant).map (Option.map Element.bare) := by
  induction hsize : sizeOf dominant using Nat.strongRecOn generalizing recessive dominant with
  | ind size ih =>
    rw [merge_eq, merge_eq recessive, mergeWith, mergeWith, openPair_bare]
    cases hopen : openPair recessive dominant with
    | error e => rfl
    | ok opening =>
      cases opening with
      | settled result => rfl
      | pending shell steps =>
        have hsteps := @collect_bare steps fun leading below child hmem => by
          have hlt := Element.sizeOf_child_lt (child_of_openPair hopen hmem)
          exact ih _ (hsize ▸ hlt) below child rfl
        simp only [Except.map, Opening.bare, hsteps]
        cases collect (Step.run merge) steps with
        | error e => rfl
        | ok nodes => cases shell; simp [Element.bare, Node.bares_eq]

@[simp] theorem Element.isSkeleton_bare (e : Element) : e.bare.isSkeleton = e.isSkeleton :=
  decide_eq_decide.2 (by rw [Element.Declares, Element.Declares, Element.selfPolicy_bare])

mutual
theorem Element.swept_bare : (e : Element) → e.bare.swept = e.swept.bare
  | ⟨tag, attrs, children⟩ => by
    rw [Element.bare, Element.swept, Element.swept, Element.bare, Node.sweptList_bares children]

theorem Node.sweptList_bares : (nodes : List Node) →
    Node.sweptList (Node.bares nodes) = Node.bares (Node.sweptList nodes)
  | [] => rfl
  | .element e :: rest => by
    have hrest := Node.sweptList_bares rest
    have helement := Element.swept_bare e
    simp only [Node.bares, Node.bare?, Option.toList_some, List.cons_append, List.nil_append,
      Node.sweptList, Element.isSkeleton_bare, hrest, helement]
    split <;> rfl
  | .text content :: rest => by
    have hrest := Node.sweptList_bares rest
    by_cases hlayout : (Node.text content).isLayout
    · simp only [Node.bares, Node.bare?, hlayout, ↓reduceIte, Option.toList_none, List.nil_append,
        Node.sweptList, Bool.true_and, hrest]
      split
      · rfl
      · simp [Node.bares, Node.bare?, hlayout]
    · simp [Node.bares, Node.bare?, hlayout, Node.sweptList, hrest]
  | .comment content :: rest => by
    have hrest := Node.sweptList_bares rest
    simp only [Node.bares, Node.bare?, Option.toList_none, List.nil_append, Node.sweptList, hrest]
    split <;> rfl
end

theorem Node.selfFault?_bares (nodes : List Node) :
    Node.selfFault? (Node.bares nodes) = Node.selfFault? nodes := by
  rw [Node.selfFault?, Node.selfFault?]
  induction nodes with
  | nil => rfl
  | cons node rest ih =>
    cases node with
    | element e =>
      have hfault : e.bare.selfFault? = e.selfFault? := by
        rw [Element.selfFault?, Element.selfFault?, Element.selfPolicy_bare]
      rw [Node.bares, Node.bare?, Option.toList_some, List.singleton_append, List.findSome?_cons,
        List.findSome?_cons, ih]
      simp only [Node.element?, Option.bind_some, hfault]
    | text content =>
      by_cases hlayout : (Node.text content).isLayout
      · simpa [Node.bares, Node.bare?, hlayout, Node.element?] using ih
      · simpa [Node.bares, Node.bare?, hlayout, Node.element?] using ih
    | comment content => simpa [Node.bares, Node.bare?, Node.element?] using ih

mutual
theorem Element.sweepFault?_bare : (e : Element) → e.bare.sweepFault? = e.sweepFault?
  | ⟨tag, attrs, children⟩ => by
    rw [Element.bare, Element.sweepFault?, Element.sweepFault?, Node.selfFault?_bares,
      Node.sweepFaultBelow?_bares children]

theorem Node.sweepFaultBelow?_bares : (nodes : List Node) →
    Node.sweepFaultBelow? (Node.bares nodes) = Node.sweepFaultBelow? nodes
  | [] => rfl
  | .element e :: rest => by
    have hrest := Node.sweepFaultBelow?_bares rest
    have helement := Element.sweepFault?_bare e
    simp only [Node.bares, Node.bare?, Option.toList_some, List.cons_append, List.nil_append,
      Node.sweepFaultBelow?, Element.isSkeleton_bare, hrest, helement]
  | .text content :: rest => by
    have hrest := Node.sweepFaultBelow?_bares rest
    by_cases hlayout : (Node.text content).isLayout
    · simp [Node.bares, Node.bare?, hlayout, Node.sweepFaultBelow?, hrest]
    · simp [Node.bares, Node.bare?, hlayout, Node.sweepFaultBelow?, hrest]
  | .comment content :: rest => by
    have hrest := Node.sweepFaultBelow?_bares rest
    simp [Node.bares, Node.bare?, Node.sweepFaultBelow?, hrest]
end

theorem Element.sweep_bare (e : Element) : e.bare.sweep = e.sweep.map Element.bare := by
  rw [Element.sweep_eq, Element.sweep_eq, Element.sweepFault?_bare, Element.swept_bare]
  cases e.sweepFault? <;> rfl

namespace Layers

def bare (layers : Layers) : Layers := ⟨layers.merged.map Element.bare, layers.count⟩

theorem push_bare (layers : Layers) (layer : Element) :
    layers.bare.push layer.bare = (layers.push layer).map Layers.bare := by
  obtain ⟨merged, count⟩ := layers
  cases merged with
  | none => rfl
  | some below =>
    have h := merge_bare (some below) layer
    rw [Option.map_some] at h
    simp only [push, bare, Option.map_some, h, Element.tag_bare]
    cases merge (some below) layer with
    | error e => rfl
    | ok result => cases result <;> rfl

theorem pushAll_bare (layers : Layers) (rest : List Element) :
    layers.bare.pushAll (rest.map Element.bare) = (layers.pushAll rest).map Layers.bare := by
  induction rest generalizing layers with
  | nil => rfl
  | cons layer rest ih =>
    rw [List.map_cons, pushAll, pushAll, push_bare]
    cases layers.push layer with
    | error e => rfl
    | ok next => exact ih next

theorem finish_bare (layers : Layers) :
    layers.bare.finish = layers.finish.map Element.bare := by
  obtain ⟨merged, count⟩ := layers
  cases merged with
  | none => rfl
  | some root => exact root.sweep_bare

end Layers

/-- Dropping the layout of all layers drops the layout of the result and changes nothing else, nor
what goes wrong. -/
theorem mergeLayers_bare (layers : List Element) :
    mergeLayers (layers.map Element.bare) = (mergeLayers layers).map Element.bare := by
  have h := Layers.pushAll_bare .empty layers
  rw [mergeLayers, mergeLayers]
  rw [show Layers.empty.bare = Layers.empty from rfl] at h
  rw [h]
  cases Layers.empty.pushAll layers with
  | error e => rfl
  | ok run => exact run.finish_bare

end ConfigOverlay
