import ConfigOverlay.Proofs.Merge.Keyed
import ConfigOverlay.Proofs.Merge.Opening
import Mathlib.Data.List.DropRight

set_option autoImplicit false

namespace ConfigOverlay

/-- The steps there can be for a pair, with the places of the elements in them. -/
inductive Planned (recessive : Option Element) (dominant : Element) : Step → Prop where
  | element {e lower : Element} (below : lower ∈ recessive) (child : .element e ∈ lower.children) :
      Planned recessive dominant (.copy (.element e))
  | node {node : Node} (plain : node.element? = none) : Planned recessive dominant (.copy node)
  | pair {leading : List Node} {e lower child : Element} (plain : ∀ node ∈ leading, node.isLayout)
      (below : lower ∈ recessive) (place : .element e ∈ lower.children)
      (above : .element child ∈ dominant.children) :
      Planned recessive dominant (.merge leading (some e) child)
  | alone {leading : List Node} {child : Element} (plain : ∀ node ∈ leading, node.isLayout)
      (above : .element child ∈ dominant.children) :
      Planned recessive dominant (.merge leading none child)

theorem Node.element?_of_isLayout {node : Node} (h : node.isLayout) : node.element? = none := by
  cases node with
  | element e => simp [Node.isLayout] at h
  | text content => rfl
  | comment content => rfl

theorem filterMap_element?_withoutTrailingLayout (nodes : List Node) :
    (withoutTrailingLayout nodes).filterMap Node.element? = nodes.filterMap Node.element? := by
  have hend : (nodes.rtakeWhile Node.isLayout).filterMap Node.element? = [] :=
    List.filterMap_eq_nil_iff.2 fun node hnode =>
      Node.element?_of_isLayout (List.mem_rtakeWhile_imp hnode)
  have hparts : nodes = withoutTrailingLayout nodes ++ nodes.rtakeWhile Node.isLayout :=
    List.rdropWhile_append_rtakeWhile.symm
  conv_rhs => rw [hparts, List.filterMap_append, hend, List.append_nil]

theorem Siblings.place_of_mem_siblingsOf {recessive : Option Element} {s : Sibling}
    (h : s ∈ (siblingsOf recessive).elements) :
    ∃ lower ∈ recessive, .element s.element ∈ lower.children := by
  cases recessive with
  | none => exact absurd h List.not_mem_nil
  | some lower => exact ⟨lower, rfl, element_mem_of_mem h⟩

theorem Siblings.exists_mem_siblingsOf {recessive : Option Element} {lower child : Element}
    (hlower : lower ∈ recessive) (hchild : .element child ∈ lower.children) :
    ∃ s ∈ (siblingsOf recessive).elements, s.element = child := by
  cases hlower
  exact Element.exists_sibling hchild

section

variable {below above : Siblings} {kept : List Sibling} {s d : Sibling} {step : Step}

theorem mem_siblingSteps_of_recessive (hs : s ∈ kept)
    (h : step ∈ s.recessiveSteps kept above.elements) : step ∈ siblingSteps below above kept := by
  simp only [siblingSteps, List.append_assoc]
  exact List.mem_append_left _ (List.mem_flatMap.2 ⟨s, hs, h⟩)

theorem mem_siblingSteps_of_dominant (hd : d ∈ above.elements)
    (h : step ∈ d.dominantSteps kept above.elements) : step ∈ siblingSteps below above kept := by
  simp only [siblingSteps, List.append_assoc]
  exact List.mem_append_right _ (List.mem_append_left _ (List.mem_flatMap.2 ⟨d, hd, h⟩))

end

theorem planned_of_mem_siblingSteps {recessive : Option Element} {dominant : Element}
    {kept : List Sibling} (hkept : ∀ s ∈ kept, s ∈ (siblingsOf recessive).elements) {step : Step}
    (h : step ∈ siblingSteps (siblingsOf recessive) dominant.siblings kept) :
    Planned recessive dominant step := by
  have hbelow := grouped_siblingsOf recessive
  have habove := Siblings.grouped_ofNodes dominant.children
  simp only [siblingSteps, List.mem_append, List.mem_flatMap, List.mem_map] at h
  rcases h with ((⟨s, hs, h⟩ | ⟨d, hd, h⟩) | ⟨node, hnode, rfl⟩) | ⟨node, hnode, rfl⟩
  · obtain ⟨lower, hlower, hplace⟩ := Siblings.place_of_mem_siblingsOf (hkept s hs)
    have hleading := hbelow.leading s (hkept s hs)
    rw [Sibling.recessiveSteps] at h
    split at h
    · next d hfind =>
      have hd := counterpart?_mem hfind
      cases List.mem_singleton.1 h
      refine .pair (fun node hnode => ?_) hlower hplace (Siblings.element_mem_of_mem hd)
      split at hnode
      · exact hleading node hnode
      · exact habove.leading d hd node hnode
    · rcases List.mem_append.1 h with h | h
      · obtain ⟨node, hnode, rfl⟩ := List.mem_map.1 h
        exact .node (Node.element?_of_isLayout (hleading node hnode))
      · cases List.mem_singleton.1 h
        exact .element hlower hplace
  · rw [Sibling.dominantSteps] at h
    split at h
    · exact absurd h List.not_mem_nil
    · cases List.mem_singleton.1 h
      exact .alone (habove.leading d hd) (Siblings.element_mem_of_mem hd)
  · exact .node (hbelow.stray node (List.mem_filter.1 hnode).1)
  · exact .node (habove.stray node hnode)

theorem planMerged_eq (recessive : Option Element) (dominant : Element) :
    planMerged recessive dominant =
      match retained dominant.siblings.elements (siblingsOf recessive).elements with
      | .error e => .error e
      | .ok kept => .ok (siblingSteps (siblingsOf recessive) dominant.siblings kept) := rfl

theorem planMerged_eq_ok {recessive : Option Element} {dominant : Element} {steps : List Step}
    (h : planMerged recessive dominant = .ok steps) : ∃ kept,
      retained dominant.siblings.elements (siblingsOf recessive).elements = .ok kept ∧
        steps = siblingSteps (siblingsOf recessive) dominant.siblings kept := by
  rw [planMerged_eq] at h
  cases hkept : retained dominant.siblings.elements (siblingsOf recessive).elements with
  | error e => simp [hkept] at h
  | ok kept =>
    simp only [hkept, Except.ok.injEq] at h
    exact ⟨kept, rfl, h.symm⟩

theorem planned_of_plan {recessive : Option Element} {dominant : Element} {policy : ChildrenPolicy}
    {steps : List Step} (hplan : policy.plan recessive dominant = .ok steps) {step : Step}
    (h : step ∈ steps) : Planned recessive dominant step := by
  cases policy with
  | merge =>
    obtain ⟨kept, hkept, rfl⟩ := planMerged_eq_ok hplan
    exact planned_of_mem_siblingSteps (fun s hs => mem_of_mem_retained hkept hs) h
  | append =>
    rw [ChildrenPolicy.plan, Except.ok.injEq] at hplan
    subst hplan
    obtain ⟨node, hnode, rfl⟩ := List.mem_map.1 h
    cases node with
    | element e => exact .alone (by simp) hnode
    | text content => exact .node rfl
    | comment content => exact .node rfl

theorem planned_of_openPair {recessive : Option Element} {dominant shell : Element}
    {steps : List Step} (h : openPair recessive dominant = .ok (.pending shell steps)) :
    (∀ step ∈ steps, Planned recessive dominant step) ∧
      ∀ node ∈ shell.children, ∃ lower ∈ recessive, node ∈ lower.children := by
  cases opens_of_openPair h with
  | @merged _ _ policy _ _ _ _ _ hplan =>
    refine ⟨fun step hstep => planned_of_plan hplan hstep, fun node hnode => ?_⟩
    cases policy with
    | merge => exact absurd hnode List.not_mem_nil
    | append =>
      cases recessive with
      | none => exact absurd hnode List.not_mem_nil
      | some lower =>
        refine ⟨lower, rfl, ?_⟩
        exact List.mem_reverse.1 (List.dropWhile_subset _ (List.mem_reverse.1 hnode))

section

variable {α β γ ε : Type} {f : α → Except ε (List β)} {l l' : List α} {out : List β}

theorem collect_cons_eq_ok {a : α} (h : collect f (a :: l) = .ok out) :
    ∃ first others, f a = .ok first ∧ collect f l = .ok others ∧ out = first ++ others := by
  rw [collect] at h
  cases hfirst : f a with
  | error e => simp [hfirst] at h
  | ok first =>
    cases hothers : collect f l with
    | error e => simp [hfirst, hothers] at h
    | ok others =>
      simp only [hfirst, hothers, Except.ok.injEq] at h
      exact ⟨first, others, rfl, rfl, h.symm⟩

theorem collect_append_eq_ok (h : collect f (l ++ l') = .ok out) :
    ∃ first others, collect f l = .ok first ∧ collect f l' = .ok others ∧
      out = first ++ others := by
  rw [collect_append] at h
  cases hfirst : collect f l with
  | error e => simp [hfirst, bind, Except.bind] at h
  | ok first =>
    cases hothers : collect f l' with
    | error e => simp [hfirst, hothers, bind, Except.bind] at h
    | ok others =>
      simp only [hfirst, hothers, bind, Except.bind, pure, Except.pure, Except.ok.injEq] at h
      exact ⟨first, others, rfl, rfl, h.symm⟩

theorem exists_of_collect (h : collect f l = .ok out) {a : α} (ha : a ∈ l) :
    ∃ part, f a = .ok part := by
  induction l generalizing out with
  | nil => exact absurd ha List.not_mem_nil
  | cons first rest ih =>
    obtain ⟨part, others, hpart, hothers, -⟩ := collect_cons_eq_ok h
    rcases List.mem_cons.1 ha with rfl | ha
    · exact ⟨part, hpart⟩
    · exact ih hothers ha

theorem mem_collect_iff (h : collect f l = .ok out) {b : β} :
    b ∈ out ↔ ∃ a ∈ l, ∃ part, f a = .ok part ∧ b ∈ part := by
  induction l generalizing out with
  | nil =>
    cases h
    simp
  | cons first rest ih =>
    obtain ⟨part, others, hpart, hothers, rfl⟩ := collect_cons_eq_ok h
    simp [ih hothers, hpart]

theorem collect_filter {p : α → Bool} {view : List β → List γ}
    (happend : ∀ x y, view (x ++ y) = view x ++ view y)
    (hview : ∀ a ∈ l, p a = false → ∀ part, f a = .ok part → view part = [])
    (h : collect f l = .ok out) :
    ∃ seen, collect f (l.filter p) = .ok seen ∧ view out = view seen := by
  induction l generalizing out with
  | nil => exact ⟨out, h, rfl⟩
  | cons a rest ih =>
    obtain ⟨part, others, hpart, hothers, rfl⟩ := collect_cons_eq_ok h
    obtain ⟨seen, hseen, heq⟩ := ih (fun b hb => hview b (List.mem_cons_of_mem a hb)) hothers
    cases hp : p a with
    | true =>
      rw [List.filter_cons_of_pos hp, collect, hpart, hseen]
      exact ⟨part ++ seen, rfl, by rw [happend, happend, heq]⟩
    | false =>
      rw [List.filter_cons_of_neg (by simp [hp])]
      refine ⟨seen, hseen, ?_⟩
      rw [happend, hview a List.mem_cons_self hp part hpart, List.nil_append, heq]

end

theorem run_merge_eq_ok {leading part : List Node} {lower : Option Element} {child : Element} :
    Step.run merge (.merge leading lower child) = .ok part ↔
      ∃ result, merge lower child = .ok result ∧ part = Rules.placed leading result := by
  rw [Rules.run_merge]
  cases hresult : merge lower child <;> simp [bind, Except.bind, pure, Except.pure, eq_comm]

section

variable {below above : List Sibling} {s d : Sibling} {part : List Node}

theorem collect_recessiveSteps_of_none (h : counterpart? below above s.key = none) :
    collect (Step.run merge) (s.recessiveSteps below above) =
      .ok (Rules.placed s.leading (some s.element)) := by
  have hcopy := Rules.collect_copy merge (s.leading ++ [.element s.element])
  rw [List.map_append] at hcopy
  rw [Sibling.recessiveSteps, h]
  exact hcopy

theorem collect_recessiveSteps_of_some (h : counterpart? below above s.key = some d) :
    collect (Step.run merge) (s.recessiveSteps below above) = .ok part ↔
      ∃ result, merge (some s.element) d.element = .ok result ∧
        part = Rules.placed (if d.leading.isEmpty then s.leading else d.leading) result := by
  rw [Sibling.recessiveSteps, h]
  simp only [Rules.collect_singleton]
  exact run_merge_eq_ok

theorem collect_dominantSteps_of_none (h : counterpart? below above d.key = none) :
    collect (Step.run merge) (d.dominantSteps below above) = .ok part ↔
      ∃ result, merge none d.element = .ok result ∧ part = Rules.placed d.leading result := by
  rw [Sibling.dominantSteps, h]
  simp only [Rules.collect_singleton]
  exact run_merge_eq_ok

theorem collect_dominantSteps_of_some {other : Sibling}
    (h : counterpart? below above d.key = some other) :
    collect (Step.run merge) (d.dominantSteps below above) = .ok [] := by
  rw [Sibling.dominantSteps, h]
  rfl

end

theorem element_mem_placed {leading : List Node} {result : Option Element} {child : Element}
    (hleading : ∀ node ∈ leading, node.isLayout)
    (h : .element child ∈ Rules.placed leading result) : result = some child := by
  cases result with
  | none => exact absurd h List.not_mem_nil
  | some e =>
    rcases List.mem_append.1 h with hmem | hmem
    · exact absurd (hleading _ hmem) (by simp [Node.isLayout])
    · cases List.mem_singleton.1 hmem
      rfl

section

variable {recessive : Option Element} {dominant shell : Element} {steps : List Step}
  {nodes : List Node} (hopen : openPair recessive dominant = .ok (.pending shell steps))
  (hnodes : collect (Step.run merge) steps = .ok nodes)

include hopen

theorem below_of_step {leading : List Node} {lower : Option Element} {above : Element}
    (h : .merge leading lower above ∈ steps) {e : Element} (he : e ∈ lower) :
    ∃ below ∈ recessive, .element e ∈ below.children := by
  cases (planned_of_openPair hopen).1 _ h with
  | pair _ below place =>
    cases he
    exact ⟨_, below, place⟩
  | alone => simp at he

include hnodes

/-- A child of a merged element has stood below, or comes of a merge of children. -/
theorem origin_of_child {child : Element} (h : .element child ∈ shell.children ++ nodes) :
    (∃ below ∈ recessive, .element child ∈ below.children) ∨
      ∃ leading lower above, .merge leading lower above ∈ steps ∧
        merge lower above = .ok (some child) := by
  obtain ⟨hplanned, hstart⟩ := planned_of_openPair hopen
  rcases List.mem_append.1 h with hmem | hmem
  · exact .inl (hstart _ hmem)
  · obtain ⟨step, hstep, part, hpart, hmem⟩ := (mem_collect_iff hnodes).1 hmem
    have hmerged : ∀ leading lower above, step = .merge leading lower above →
        (∀ node ∈ leading, node.isLayout) → merge lower above = .ok (some child) := by
      rintro leading lower above rfl hleading
      obtain ⟨result, hresult, rfl⟩ := run_merge_eq_ok.1 hpart
      rw [← element_mem_placed hleading hmem, hresult]
    cases hplanned step hstep with
    | element below place =>
      cases hpart
      cases List.mem_singleton.1 hmem
      exact .inl ⟨_, below, place⟩
    | node plain =>
      cases hpart
      cases List.mem_singleton.1 hmem
      simp [Node.element?] at plain
    | pair plain => exact .inr ⟨_, _, _, hstep, hmerged _ _ _ rfl plain⟩
    | alone plain => exact .inr ⟨_, _, _, hstep, hmerged _ _ _ rfl plain⟩

omit hopen in
theorem child_of_step {leading : List Node} {lower : Option Element} {above : Element}
    (h : .merge leading lower above ∈ steps) :
    ∃ result, merge lower above = .ok result ∧ ∀ child ∈ result, .element child ∈ nodes := by
  obtain ⟨part, hpart⟩ := exists_of_collect hnodes h
  obtain ⟨result, hresult, rfl⟩ := run_merge_eq_ok.1 hpart
  refine ⟨result, hresult, ?_⟩
  rintro child ⟨⟩
  exact (mem_collect_iff hnodes).2 ⟨_, h, _, hpart, List.mem_append_right _ List.mem_cons_self⟩

end

/-- What every merged element has of its two sides, it has at every depth. -/
theorem throughout_of_merge {p : Element → Prop}
    (hmerged : ∀ {recessive : Option Element} {dominant e : Element},
      (∀ lower ∈ recessive, lower.Throughout p) → dominant.Throughout p →
      merge recessive dominant = .ok (some e) → p e)
    {recessive : Option Element} {dominant e : Element}
    (hbelow : ∀ lower ∈ recessive, lower.Throughout p) (habove : dominant.Throughout p)
    (h : merge recessive dominant = .ok (some e)) : e.Throughout p := by
  induction hsize : sizeOf dominant using Nat.strongRecOn generalizing recessive dominant e with
  | ind size ih =>
    refine .mk (hmerged hbelow habove h) fun child hchild => ?_
    rcases settled_or_pending_of_merge h with hopen | ⟨shell, steps, nodes, hopen, hnodes, heq⟩
    · cases opens_of_openPair hopen with
      | replaced => exact habove.child hchild
      | appended => exact habove.child hchild
    · cases heq
      rcases origin_of_child hopen hnodes hchild with ⟨lower, hlower, hplace⟩ |
        ⟨leading, lower, above, hstep, hresult⟩
      · exact (hbelow lower hlower).child hplace
      · have hplace := child_of_openPair hopen hstep
        refine ih _ (hsize ▸ Element.sizeOf_child_lt hplace) (fun x hx => ?_)
          (habove.child hplace) hresult rfl
        obtain ⟨below, hmem, hplace'⟩ := below_of_step hopen hstep hx
        exact (hbelow below hmem).child hplace'

theorem collect_siblingSteps_eq_ok {below above : Siblings} {kept : List Sibling}
    {nodes : List Node} :
    collect (Step.run merge) (siblingSteps below above kept) = .ok nodes ↔ ∃ first second,
      collect (fun s => collect (Step.run merge) (s.recessiveSteps kept above.elements)) kept =
        .ok first ∧
      collect (fun d => collect (Step.run merge) (d.dominantSteps kept above.elements))
        above.elements = .ok second ∧
      nodes = first ++ second ++ below.stray.filter (staysBeside above) ++ above.stray := by
  constructor
  · intro h
    rw [siblingSteps] at h
    obtain ⟨front, strays', hfront, hstrays', rfl⟩ := collect_append_eq_ok h
    obtain ⟨elements, strays, helements, hstrays, rfl⟩ := collect_append_eq_ok hfront
    obtain ⟨first, second, hfirst, hsecond, rfl⟩ := collect_append_eq_ok helements
    cases (Rules.collect_copy merge _).symm.trans hstrays
    cases (Rules.collect_copy merge _).symm.trans hstrays'
    rw [collect_flatMap] at hfirst hsecond
    exact ⟨first, second, hfirst, hsecond, rfl⟩
  · rintro ⟨first, second, hfirst, hsecond, rfl⟩
    rw [siblingSteps, collect_append, collect_append, collect_append, collect_flatMap,
      collect_flatMap, hfirst, hsecond, Rules.collect_copy, Rules.collect_copy]
    rfl

structure Element.Undeclared (e : Element) : Prop where
  noSelfPolicy : e.attrs.get? SelfPolicy.attributeName = none
  noChildrenPolicy : e.attrs.get? ChildrenPolicy.attributeName = none

instance : DecidablePred Element.Undeclared := fun e =>
  decidable_of_iff (e.attrs.get? SelfPolicy.attributeName = none ∧
    e.attrs.get? ChildrenPolicy.attributeName = none) ⟨fun h => ⟨h.1, h.2⟩, fun h => ⟨h.1, h.2⟩⟩

theorem Element.undeclared_of_plain {e : Element} (h : e.attrs.Plain) : e.Undeclared :=
  ⟨Attributes.get?_eq_none_iff.2 h.noSelfPolicy, Attributes.get?_eq_none_iff.2 h.noChildrenPolicy⟩

theorem Element.Undeclared.declared_eq_none {α : Type} {e : Element} {name : String}
    (h : e.attrs.get? name = none) (ofText? : String → Option α) :
    e.declared name ofText? = .ok none := by
  rw [declared, h]

theorem declaredBy_eq_none {α : Type} {declared : Element → Except MergeError (Option α)}
    {recessive : Option Element} (h : ∀ lower ∈ recessive, declared lower = .ok none) :
    declaredBy declared recessive = .ok none := by
  cases recessive with
  | none => rfl
  | some lower => exact h lower rfl

/-- Without policies the children are merged, and nothing else is decided. -/
theorem merge_of_undeclared {recessive : Option Element} {dominant : Element}
    (hbelow : ∀ lower ∈ recessive, lower.Undeclared) (habove : dominant.Undeclared)
    {result : Option Element} :
    merge recessive dominant = .ok result ↔ ∃ kept nodes,
      retained dominant.siblings.elements (siblingsOf recessive).elements = .ok kept ∧
      collect (Step.run merge) (siblingSteps (siblingsOf recessive) dominant.siblings kept) =
        .ok nodes ∧
      result = some ⟨dominant.tag, mergedAttributes recessive dominant none, nodes⟩ := by
  have hself : dominant.selfPolicy = .ok none :=
    Element.Undeclared.declared_eq_none habove.noSelfPolicy _
  have hchildren : dominant.childrenPolicy = .ok none :=
    Element.Undeclared.declared_eq_none habove.noChildrenPolicy _
  have hself' : declaredBy Element.selfPolicy recessive = .ok none := declaredBy_eq_none
    fun lower hlower => Element.Undeclared.declared_eq_none (hbelow lower hlower).noSelfPolicy _
  have hchildren' : declaredBy Element.childrenPolicy recessive = .ok none := declaredBy_eq_none
    fun lower hlower => Element.Undeclared.declared_eq_none (hbelow lower hlower).noChildrenPolicy _
  rw [merge_eq, mergeWith]
  simp only [openPair, hself, hself', openMerged, pairChildrenPolicy, hchildren, hchildren',
    Option.getD_none, ChildrenPolicy.plan, planMerged_eq, reduceCtorEq, false_and, or_self,
    ↓reduceIte]
  cases retained dominant.siblings.elements (siblingsOf recessive).elements with
  | error e => simp
  | ok kept =>
    cases hnodes : collect (Step.run merge)
        (siblingSteps (siblingsOf recessive) dominant.siblings kept) with
    | error e => simp [hnodes]
    | ok nodes => simp [hnodes, ChildrenPolicy.start, resultingPolicy, eq_comm]

theorem isDroppedBy_iff {dominants : List Sibling} {s : Sibling} {policy : Option SelfPolicy}
    (h : s.element.selfPolicy = .ok policy) : isDroppedBy dominants s policy =
      decide (s.element.Declares .overridableByTag ∧
        ∃ d ∈ dominants, d.element.tag = s.element.tag) := by
  rw [Bool.eq_iff_iff]
  simp [isDroppedBy, Element.Declares, h]

theorem retained_eq_ok {dominants recessives kept : List Sibling}
    (h : retained dominants recessives = .ok kept) :
    kept = recessives.filter fun s => ¬ (s.element.Declares .overridableByTag ∧
      ∃ d ∈ dominants, d.element.tag = s.element.tag) := by
  induction recessives generalizing kept with
  | nil =>
    cases h
    rfl
  | cons s rest ih =>
    rw [retained] at h
    cases hpolicy : s.element.selfPolicy with
    | error e => simp [hpolicy] at h
    | ok policy =>
      cases hrest : retained dominants rest with
      | error e => simp [hpolicy, hrest] at h
      | ok others =>
        simp only [hpolicy, hrest, isDroppedBy_iff hpolicy, Except.ok.injEq] at h
        subst h
        rw [ih hrest, List.filter_cons]
        by_cases hdropped : s.element.Declares .overridableByTag ∧
            ∃ d ∈ dominants, d.element.tag = s.element.tag <;> simp [hdropped]

end ConfigOverlay
