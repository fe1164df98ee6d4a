import ConfigOverlay.Proofs.Merge.Distinct

/-!
Roots whose children are appended, over a run of layers. Each layer hands the policy on to the next
one, so no child of the root ever meets another one. What a layer adds stands behind what the layers
before it have added, and of these parts nothing is lost but the layout at their ends.
-/

set_option autoImplicit false

namespace ConfigOverlay

/-- What comes of the element if it is laid over nothing. -/
def Element.alone? (e : Element) : Option Element := (merge none e).toOption.join

def Node.alone : Node → List Node
  | .element e => e.alone?.toList.map .element
  | node => [node]

def Node.aloneFault? : Node → Option MergeError
  | .element e =>
    match merge none e with
    | .error fault => some fault
    | .ok _ => none
  | _ => none

/-- The children that a layer adds behind those there are. -/
def Element.part (layer : Element) : List Node := layer.children.flatMap Node.alone

/-- Parts one behind another. Each but the last one is without the layout at its end. -/
def joinedParts (first : List Node) : List (List Node) → List Node
  | [] => first
  | part :: rest => withoutTrailingLayout first ++ joinedParts part rest

theorem withoutTrailingLayout_append (first second : List Node) :
    withoutTrailingLayout (withoutTrailingLayout first ++ second) =
      withoutTrailingLayout first ++ withoutTrailingLayout second := by
  rw [withoutTrailingLayout, List.reverse_append, List.dropWhile_append]
  split
  · next hempty =>
    have hnothing : withoutTrailingLayout second = [] := by
      rw [withoutTrailingLayout, List.isEmpty_iff.1 hempty, List.reverse_nil]
    rw [hnothing, List.append_nil, withoutTrailingLayout, List.reverse_reverse,
      List.dropWhile_idempotent]
  · rw [List.reverse_append, List.reverse_reverse]
    rfl

theorem joinedParts_append (first part : List Node) (parts : List (List Node)) :
    joinedParts first (parts ++ [part]) =
      withoutTrailingLayout (joinedParts first parts) ++ part := by
  induction parts generalizing first with
  | nil => rfl
  | cons next parts ih =>
    rw [List.cons_append, joinedParts, ih, joinedParts, withoutTrailingLayout_append,
      List.append_assoc]

theorem filterMap_element?_joinedParts (first : List Node) (parts : List (List Node)) :
    (joinedParts first parts).filterMap Node.element? =
      first.filterMap Node.element? ++ parts.flatMap (·.filterMap Node.element?) := by
  induction parts generalizing first with
  | nil => simp [joinedParts]
  | cons part parts ih =>
    rw [joinedParts, List.filterMap_append, filterMap_element?_withoutTrailingLayout, ih,
      List.flatMap_cons]

theorem Element.filterMap_element?_part (layer : Element) :
    layer.part.filterMap Node.element? = layer.elements.filterMap alone? := by
  rw [part, elements]
  induction layer.children with
  | nil => rfl
  | cons node rest ih =>
    rw [List.flatMap_cons, List.filterMap_append, ih]
    cases node with
    | element e => cases halone : e.alone? <;> simp [Node.alone, Node.element?, halone]
    | text content => rfl
    | comment content => rfl

theorem Element.alone?_eq {e : Element} {result : Option Element}
    (h : merge none e = .ok result) : e.alone? = result := by
  rw [alone?, h]
  rfl

/-- Nothing comes of an element that asks for its removal, and of no other one. -/
theorem merge_eq_ok_none_iff {recessive result : Option Element} {dominant : Element}
    (h : merge recessive dominant = .ok result) : result = none ↔ dominant.Declares .remove := by
  rcases settled_or_pending_of_merge h with hopen | ⟨shell, steps, nodes, hopen, -, rfl⟩
  · cases opens_of_openPair hopen with
    | removed remove => simp [remove]
    | replaced stays => simp [stays]
    | appended _ stays => simp [stays]
  · cases opens_of_openPair hopen with
    | merged above _ stays => simp [Element.Declares, above, stays]

theorem collect_appendStep (nodes : List Node) :
    collect (Step.run merge) (nodes.map appendStep) =
      match nodes.findSome? Node.aloneFault? with
      | some fault => .error fault
      | none => .ok (nodes.flatMap Node.alone) := by
  induction nodes with
  | nil => rfl
  | cons node rest ih =>
    rw [List.map_cons, collect, ih, List.findSome?_cons, List.flatMap_cons]
    cases node with
    | element e =>
      rw [appendStep, Rules.run_merge, Node.aloneFault?]
      cases hmerge : merge none e with
      | error fault => rfl
      | ok result =>
        have halone : Node.alone (.element e) = Rules.placed [] result := by
          rw [Node.alone, Element.alone?_eq hmerge]
          cases result <;> rfl
        rw [halone]
        cases rest.findSome? Node.aloneFault? <;> rfl
    | text content => cases rest.findSome? Node.aloneFault? <;> rfl
    | comment content => cases rest.findSome? Node.aloneFault? <;> rfl

/-- The steps that append nodes give what comes of these, if none of them fails. -/
theorem alone_of_collect {nodes out : List Node}
    (h : collect (Step.run merge) (nodes.map appendStep) = .ok out) :
    out = nodes.flatMap Node.alone ∧ ∀ c, .element c ∈ nodes → merge none c = .ok c.alone? := by
  rw [collect_appendStep] at h
  split at h
  · cases h
  · next hfaults =>
    cases h
    refine ⟨rfl, fun c hc => ?_⟩
    have hfault := List.findSome?_eq_none_iff.1 hfaults _ hc
    rw [Node.aloneFault?] at hfault
    cases hmerge : merge none c with
    | error fault => simp [hmerge] at hfault
    | ok result => rw [Element.alone?_eq hmerge]

/-- A root that appends, and does not give way to its counterpart. -/
structure Element.Appends (e : Element) : Prop where
  policy : e.childrenPolicy = .ok (some .append)
  stays : ¬ e.Declares .overridable
  unique : e.attrs.Unique

/-- A layer that declares nothing adds its part, and what comes of it appends, too. -/
theorem appends_of_merge {below layer merged : Element} (hbelow : below.Appends)
    (hlayer : layer.attrs.Plain) (h : merge (some below) layer = .ok (some merged)) :
    merged.Appends ∧ merged.children = withoutTrailingLayout below.children ++ layer.part ∧
      ∀ c ∈ layer.elements, merge none c = .ok c.alone? := by
  have hself : layer.selfPolicy = .ok none := Element.declared_eq_none hlayer.noSelfPolicy _
  have hchildren : layer.childrenPolicy = .ok none :=
    Element.declared_eq_none hlayer.noChildrenPolicy _
  have hpolicy : pairChildrenPolicy (some below) layer = .ok .append := by
    simp [pairChildrenPolicy, hchildren, declaredBy, hbelow.policy]
  rcases settled_or_pending_of_merge h with hopen | ⟨shell, steps, nodes, hopen, hnodes, heq⟩
  · cases opens_of_openPair hopen with
    | replaced _ asked =>
      rcases asked with hoverride | ⟨lower, hlower, hoverridable⟩
      · simp [Element.Declares, hself] at hoverride
      · cases hlower
        exact absurd hoverridable hbelow.stays
    | appended alone => cases alone
  · obtain ⟨policy, hpolicy', hplan, hstart⟩ := plan_of_openPair hopen
    cases hpolicy.symm.trans hpolicy'
    cases hplan
    obtain ⟨rfl, hlaid⟩ := alone_of_collect hnodes
    have hunique := unique_of_merge hlayer.unique h
    cases heq
    refine ⟨⟨?_, ?_, hunique⟩, by rw [hstart]; rfl,
      fun c hc => hlaid c (Element.mem_elements_iff.1 hc)⟩
    · cases opens_of_openPair hopen with
      | merged =>
        obtain ⟨value, hvalue, happend⟩ := Element.childrenPolicy_eq_ok_iff.1 hbelow.policy
        refine Element.childrenPolicy_eq_ok_iff.2 ⟨value, ?_, happend⟩
        rw [get?_mergedAttributes_eq_or (by decide) (by simpa using hbelow.unique) hlayer.unique,
          Attributes.get?_eq_none_iff.2 hlayer.noChildrenPolicy]
        exact hvalue
    · cases opens_of_openPair hopen with
      | @merged recessiveSelf dominantSelf _ _ above below' _ shares =>
        cases hself.symm.trans above
        rw [Element.Declares, selfPolicy_mergedAttributes, resultingPolicy]
        split
        · simp
        · simpa using shares.2

structure Gathers (first : Element) (layers : List Element) (root : Element) : Prop where
  appends : root.Appends
  children : root.children = joinedParts first.children (layers.map Element.part)
  laid : ∀ layer ∈ layers, ∀ c ∈ layer.elements, merge none c = .ok c.alone?

theorem gathers_of_pushAll {first : Element} {layers : List Element} {run : Layers}
    (hfirst : first.Appends) (hlayers : ∀ layer ∈ layers, layer.attrs.Plain)
    (hrun : Layers.empty.pushAll (first :: layers) = .ok run) :
    ∃ root, run.merged = some root ∧ Gathers first layers root := by
  induction layers using List.reverseRecOn generalizing run with
  | nil =>
    cases hrun
    exact ⟨first, rfl, hfirst, rfl, by simp⟩
  | append_singleton layers layer ih =>
    obtain ⟨hlayers, hlayer⟩ := List.forall_mem_append.1 hlayers
    rw [← List.cons_append] at hrun
    obtain ⟨middle, hmiddle, hlast⟩ := Layers.pushAll_append_eq_ok hrun
    obtain ⟨root, hroot, happends, hchildren, hlaid⟩ := ih hlayers hmiddle
    obtain ⟨next, hnext, hend⟩ := Layers.pushAll_cons_eq_ok hlast
    cases hend
    rcases Layers.push_eq_ok hnext with ⟨hnone, -⟩ | ⟨below, merged, hbelow, hmerge, hmerged⟩
    · cases hroot.symm.trans hnone
    · cases hroot.symm.trans hbelow
      obtain ⟨happends', hchildren', hlaid'⟩ :=
        appends_of_merge happends (hlayer layer List.mem_cons_self) hmerge
      refine ⟨merged, hmerged, happends', ?_, ?_⟩
      · rw [hchildren', hchildren, List.map_append, List.map_singleton, joinedParts_append]
      · exact List.forall_mem_append.2 ⟨hlaid, List.forall_mem_singleton.2 hlaid'⟩

/-- In a run whose first root appends its children, and whose later roots declare nothing, the root
always appends. Its elements are those of the first layer, and then, layer after layer, each element
of the layer laid over nothing, without those that ask for their removal. With the other nodes they
are the parts of the layers, which lose the layout at their ends when the next one comes. -/
theorem appended_parts_accumulate {first : Element} {before after : List Element} {run : Layers}
    (hpolicy : first.childrenPolicy = .ok (some .append)) (hstays : ¬ first.Declares .overridable)
    (hunique : first.attrs.Unique) (hlater : ∀ layer ∈ before ++ after, layer.attrs.Plain)
    (hrun : Layers.empty.pushAll (first :: (before ++ after)) = .ok run) :
    ∃ middle root, Layers.empty.pushAll (first :: before) = .ok middle ∧
      middle.merged = some root ∧ root.childrenPolicy = .ok (some .append) ∧
      root.elements =
        first.elements ++ before.flatMap (fun layer => layer.elements.filterMap Element.alone?) ∧
      (∀ layer ∈ before, ∀ c ∈ layer.elements,
        merge none c = .ok c.alone? ∧ (c.alone? = none ↔ c.Declares .remove)) ∧
      root.children = joinedParts first.children (before.map Element.part) := by
  rw [← List.cons_append] at hrun
  obtain ⟨middle, hmiddle, -⟩ := Layers.pushAll_append_eq_ok hrun
  obtain ⟨root, hroot, happends, hchildren, hlaid⟩ := gathers_of_pushAll ⟨hpolicy, hstays, hunique⟩
    (fun layer hlayer => hlater layer (List.mem_append_left after hlayer)) hmiddle
  refine ⟨middle, root, hmiddle, hroot, happends.policy, ?_, fun layer hlayer c hc => ?_, hchildren⟩
  · rw [Element.elements, hchildren, filterMap_element?_joinedParts, List.flatMap_map]
    simp only [Element.filterMap_element?_part]
    rfl
  · have hmerge := hlaid layer hlayer c hc
    exact ⟨hmerge, merge_eq_ok_none_iff hmerge⟩

def itemList (attrs : List (String × String)) (children : List Node) : Element :=
  ⟨"list", ⟨attrs⟩, children⟩

def item (attrs : List (String × String)) : Node := .element ⟨"item", ⟨attrs⟩, []⟩

theorem appended_parts_accumulate_items :
    let first := itemList [("combine.children", "append")] [item [], .text " "]
    let second := itemList [] [.comment "a", item [], item [("combine.self", "remove")],
      .comment "b"]
    let third := itemList [] [item [("id", "x")], .text "y"]
    (∃ middle root, Layers.empty.pushAll [first, second] = .ok middle ∧
      middle.merged = some root ∧ root.childrenPolicy = .ok (some .append) ∧
      root.children = [item [], .comment "a", item [], .comment "b"]) ∧
    ∃ run root, Layers.empty.pushAll [first, second, third] = .ok run ∧
      run.merged = some root ∧ root.childrenPolicy = .ok (some .append) ∧
      root.children = [item [], .comment "a", item [], item [("id", "x")], .text "y"] := by
  intro first second third
  have hpolicy : first.childrenPolicy = .ok (some .append) := by decide +kernel
  have hstays : ¬ first.Declares .overridable := by decide +kernel
  have hlater : ∀ layer ∈ [second, third], layer.attrs.Plain := by decide +kernel
  have hrun : Layers.empty.pushAll [first, second, third] =
      .ok ⟨some (itemList [("combine.children", "append")]
        [item [], .comment "a", item [], item [("id", "x")], .text "y"]), 3⟩ := by decide +kernel
  constructor
  · obtain ⟨middle, root, hmiddle, hroot, happends, -, -, hchildren⟩ :=
      @appended_parts_accumulate first [second] [third] _ hpolicy hstays (by decide +kernel) hlater
        hrun
    exact ⟨middle, root, hmiddle, hroot, happends, hchildren.trans (by decide +kernel)⟩
  · obtain ⟨run, root, hrun', hroot, happends, -, -, hchildren⟩ :=
      @appended_parts_accumulate first [second, third] [] _ hpolicy hstays (by decide +kernel)
        hlater hrun
    exact ⟨run, root, hrun', hroot, happends, hchildren.trans (by decide +kernel)⟩

end ConfigOverlay
