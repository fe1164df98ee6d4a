import ConfigOverlay.Proofs.Merge.Appending
import Mathlib.Data.List.Flatten

/-!
What elements that ask for their removal leave behind where children are appended. Where children
are merged, layout belongs to the element it stands before, and goes with it. Appending takes nodes
one by one, and so the layout before an element stays when the element goes.
-/

set_option autoImplicit false

namespace ConfigOverlay

namespace Node

def isRemoval : Node → Bool
  | .element e => e.Declares .remove
  | _ => false

def leadsToRemoval : List Node → Bool
  | [] => false
  | node :: rest => node.isRemoval || node.isLayout && leadsToRemoval rest

/-- Nodes without elements that ask for their removal and the layout directly before these. -/
def withoutRemovals : List Node → List Node
  | [] => []
  | node :: rest =>
    if leadsToRemoval (node :: rest) then withoutRemovals rest else node :: withoutRemovals rest

def LayoutBeforeRemoval (nodes : List Node) : Prop :=
  ∃ (node : Node) (e : Element), [node, .element e] <:+: nodes ∧ node.isLayout ∧ e.Declares .remove

def leftBehind : List Node → List Node
  | [] => []
  | node :: rest =>
    if node.isLayout && leadsToRemoval rest then node :: leftBehind rest else leftBehind rest

end Node

def Element.withoutRemovals (e : Element) : Element :=
  { e with children := Node.withoutRemovals e.children }

theorem merge_none_of_declares_remove {e : Element} (h : e.Declares .remove) :
    merge none e = .ok none := by
  rw [merge_eq, mergeWith, openPair, h]
  rfl

namespace Node

variable {node : Node} {nodes : List Node}

theorem isLayout_of_isRemoval (h : node.isRemoval) : node.isLayout = false := by
  cases node with
  | element e => rfl
  | text content => simp [isRemoval] at h
  | comment content => simp [isRemoval] at h

theorem alone_of_isRemoval (h : node.isRemoval) : node.alone = [] := by
  cases node with
  | element e =>
    have hmerge := merge_none_of_declares_remove (of_decide_eq_true h)
    rw [alone, Element.alone?_eq hmerge]
    rfl
  | text content => simp [isRemoval] at h
  | comment content => simp [isRemoval] at h

theorem aloneFault?_of_isRemoval (h : node.isRemoval) : node.aloneFault? = none := by
  cases node with
  | element e =>
    simp only [aloneFault?, merge_none_of_declares_remove (of_decide_eq_true h)]
  | text content => rfl
  | comment content => rfl

theorem alone_of_isLayout (h : node.isLayout) : node.alone = [node] := by
  cases node with
  | element e => simp [isLayout] at h
  | text content => rfl
  | comment content => rfl

theorem aloneFault?_of_isLayout (h : node.isLayout) : node.aloneFault? = none := by
  cases node with
  | element e => simp [isLayout] at h
  | text content => rfl
  | comment content => rfl

theorem aloneFault?_of_leadsToRemoval {rest : List Node} (h : leadsToRemoval (node :: rest)) :
    node.aloneFault? = none := by
  rw [leadsToRemoval, Bool.or_eq_true, Bool.and_eq_true] at h
  rcases h with h | h
  · exact aloneFault?_of_isRemoval h
  · exact aloneFault?_of_isLayout h.1

theorem findSome?_filter_isRemoval (nodes : List Node) :
    (nodes.filter (!·.isRemoval)).findSome? aloneFault? = nodes.findSome? aloneFault? := by
  induction nodes with
  | nil => rfl
  | cons node rest ih =>
    by_cases h : node.isRemoval
    · rw [List.filter_cons_of_neg (by simp [h]), ih, List.findSome?_cons,
        aloneFault?_of_isRemoval h]
    · rw [List.filter_cons_of_pos (by simp [h]), List.findSome?_cons, List.findSome?_cons, ih]

theorem findSome?_withoutRemovals (nodes : List Node) :
    (withoutRemovals nodes).findSome? aloneFault? = nodes.findSome? aloneFault? := by
  induction nodes with
  | nil => rfl
  | cons node rest ih =>
    rw [withoutRemovals, List.findSome?_cons]
    split
    · next h => rw [ih, aloneFault?_of_leadsToRemoval h]
    · rw [List.findSome?_cons, ih]

theorem flatMap_alone_filter_isRemoval (nodes : List Node) :
    (nodes.filter (!·.isRemoval)).flatMap alone = nodes.flatMap alone := by
  induction nodes with
  | nil => rfl
  | cons node rest ih =>
    by_cases h : node.isRemoval
    · rw [List.filter_cons_of_neg (by simp [h]), ih, List.flatMap_cons, alone_of_isRemoval h,
        List.nil_append]
    · rw [List.filter_cons_of_pos (by simp [h]), List.flatMap_cons, List.flatMap_cons, ih]

/-- Of what is appended, nothing but the layout that is left behind is missing. -/
theorem flatMap_alone_perm (nodes : List Node) :
    (nodes.flatMap alone).Perm (leftBehind nodes ++ (withoutRemovals nodes).flatMap alone) := by
  induction nodes with
  | nil => exact .nil
  | cons node rest ih =>
    rw [List.flatMap_cons, leftBehind, withoutRemovals, leadsToRemoval]
    by_cases hremoval : node.isRemoval
    · simpa [hremoval, isLayout_of_isRemoval hremoval, alone_of_isRemoval hremoval] using ih
    · by_cases hlayout : node.isLayout ∧ leadsToRemoval rest
      · simpa [hlayout, alone_of_isLayout hlayout.1] using ih.cons node
      · have hstays : (node.isLayout && leadsToRemoval rest) = false := by simpa using hlayout
        simp only [hremoval, hstays, Bool.or_self, Bool.false_eq_true, if_false, List.flatMap_cons]
        exact (ih.append_left node.alone).trans (List.perm_append_comm_assoc _ _ _)

theorem withoutRemovals_sublist (nodes : List Node) : (withoutRemovals nodes).Sublist nodes := by
  induction nodes with
  | nil => exact .slnil
  | cons node rest ih =>
    rw [withoutRemovals]
    split
    · exact ih.cons node
    · exact ih.cons_cons node

theorem flatMap_alone_withoutRemovals_eq_iff (nodes : List Node) :
    (withoutRemovals nodes).flatMap alone = nodes.flatMap alone ↔ leftBehind nodes = [] := by
  have hlength := (flatMap_alone_perm nodes).length_eq
  rw [List.length_append] at hlength
  rw [← ((withoutRemovals_sublist nodes).flatMap alone).length_eq, ← List.length_eq_zero_iff]
  omega

theorem leadsToRemoval_iff (h : leftBehind nodes = []) :
    leadsToRemoval nodes ↔ ∃ e : Element, [.element e] <+: nodes ∧ e.Declares .remove := by
  cases nodes with
  | nil => simp [leadsToRemoval]
  | cons node rest =>
    have hstays : (node.isLayout && leadsToRemoval rest) = false := by
      rw [leftBehind] at h
      split at h
      · cases h
      · next hleads => simpa using hleads
    rw [leadsToRemoval, hstays, Bool.or_false]
    cases node with
    | element e => simp [isRemoval]
    | text content => simp [isRemoval]
    | comment content => simp [isRemoval]

theorem layoutBeforeRemoval_cons_iff {rest : List Node} : LayoutBeforeRemoval (node :: rest) ↔
    (node.isLayout ∧ ∃ e : Element, [.element e] <+: rest ∧ e.Declares .remove) ∨
      LayoutBeforeRemoval rest := by
  constructor
  · rintro ⟨layout, e, hinfix, hlayout, hremove⟩
    rcases List.infix_cons_iff.1 hinfix with hprefix | hinfix
    · obtain ⟨rfl, hbegins⟩ := List.cons_prefix_cons.1 hprefix
      exact .inl ⟨hlayout, e, hbegins, hremove⟩
    · exact .inr ⟨layout, e, hinfix, hlayout, hremove⟩
  · rintro (⟨hlayout, e, hbegins, hremove⟩ | ⟨layout, e, hinfix, hlayout, hremove⟩)
    · have hprefix : [node, .element e] <+: node :: rest := List.cons_prefix_cons.2 ⟨rfl, hbegins⟩
      exact ⟨node, e, List.infix_cons_iff.2 (.inl hprefix), hlayout, hremove⟩
    · exact ⟨layout, e, List.infix_cons_iff.2 (.inr hinfix), hlayout, hremove⟩

theorem leftBehind_eq_nil_iff (nodes : List Node) :
    leftBehind nodes = [] ↔ ¬ LayoutBeforeRemoval nodes := by
  induction nodes with
  | nil => simp [leftBehind, LayoutBeforeRemoval]
  | cons node rest ih =>
    rw [layoutBeforeRemoval_cons_iff, not_or, ← ih, leftBehind]
    by_cases hrest : leftBehind rest = []
    · rw [← leadsToRemoval_iff hrest, hrest]
      by_cases hleads : node.isLayout ∧ leadsToRemoval rest <;> simp [hleads]
    · split <;> simp [hrest]

end Node

/-- Taking out the layout as well changes nothing only where there is none. -/
theorem Element.part_withoutRemovals_eq_iff (layer : Element) :
    layer.withoutRemovals.part = layer.part ↔ ¬ Node.LayoutBeforeRemoval layer.children := by
  rw [part, part, withoutRemovals, Node.flatMap_alone_withoutRemovals_eq_iff,
    Node.leftBehind_eq_nil_iff]

section

variable {lower dominant : Element} (hstays : ¬ dominant.Declares .remove)
  (hshares : ¬ dominant.Declares .override) (hlower : ¬ lower.Declares .overridable)
  (hpolicy : pairChildrenPolicy (some lower) dominant = .ok .append)

include hstays hshares hlower hpolicy

/-- Where children are appended, all that depends on the dominant ones is what comes of them. -/
theorem merge_of_appending :
    (∃ fault, ∀ children, merge (some lower) { dominant with children := children } =
      .error fault) ∨
    ∃ attrs, ∀ children, merge (some lower) { dominant with children := children } =
      match children.findSome? Node.aloneFault? with
      | some fault => .error fault
      | none => .ok (some ⟨dominant.tag, attrs,
          withoutTrailingLayout lower.children ++ children.flatMap Node.alone⟩) := by
  have hself (children : List Node) : Element.selfPolicy { dominant with children := children } =
      dominant.selfPolicy := dominant.declared_withChildren children _ _
  cases habove : dominant.selfPolicy with
  | error fault =>
    refine .inl ⟨fault, fun children => ?_⟩
    rw [merge_eq, mergeWith, openPair, hself, habove]
  | ok dominantSelf =>
    cases hbelow : declaredBy Element.selfPolicy (some lower) with
    | error fault =>
      refine .inl ⟨fault, fun children => ?_⟩
      rw [merge_eq, mergeWith, openPair, hself, habove, hbelow]
    | ok recessiveSelf =>
      have hremove : dominantSelf ≠ some .remove := by
        simpa [Element.Declares, habove] using hstays
      have hoverride : dominantSelf ≠ some .override := by
        simpa [Element.Declares, habove] using hshares
      have hoverridable : recessiveSelf ≠ some .overridable := fun heq => hlower (by
        rw [Element.Declares, ← heq, ← hbelow, declaredBy])
      refine .inr ⟨mergedAttributes (some lower) dominant
        (resultingPolicy recessiveSelf dominantSelf), fun children => ?_⟩
      have hopen : openPair (some lower) { dominant with children := children } =
          .ok (.pending ⟨dominant.tag, mergedAttributes (some lower) dominant
            (resultingPolicy recessiveSelf dominantSelf),
            withoutTrailingLayout lower.children⟩ (children.map appendStep)) := by
        have hpolicy' : pairChildrenPolicy (some lower) { dominant with children := children } =
            .ok .append := by
          rw [pairChildrenPolicy] at hpolicy ⊢
          rwa [Element.childrenPolicy, dominant.declared_withChildren children]
        simp only [openPair, hself, habove, hbelow, if_neg hremove,
          hoverride, hoverridable, or_self, if_false, openMerged, hpolicy', reduceCtorEq,
          and_false]
        rfl
      rw [merge_eq, mergeWith, hopen]
      simp only [collect_appendStep]
      cases children.findSome? Node.aloneFault? <;> rfl

theorem merge_filter_isRemoval :
    merge (some lower) { dominant with children := dominant.children.filter (!·.isRemoval) } =
      merge (some lower) dominant := by
  obtain ⟨tag, own, children⟩ := dominant
  rcases merge_of_appending hstays hshares hlower hpolicy with ⟨fault, hfault⟩ | ⟨attrs, hmerge⟩
  · exact (hfault _).trans (hfault children).symm
  · refine Eq.trans ?_ (hmerge children).symm
    rw [hmerge, Node.findSome?_filter_isRemoval, Node.flatMap_alone_filter_isRemoval]

theorem merge_withoutRemovals :
    (∃ fault, merge (some lower) dominant = .error fault ∧
      merge (some lower) dominant.withoutRemovals = .error fault) ∨
    ∃ attrs, merge (some lower) dominant = .ok (some ⟨dominant.tag, attrs,
        withoutTrailingLayout lower.children ++ dominant.part⟩) ∧
      merge (some lower) dominant.withoutRemovals = .ok (some ⟨dominant.tag, attrs,
        withoutTrailingLayout lower.children ++ dominant.withoutRemovals.part⟩) := by
  obtain ⟨tag, own, children⟩ := dominant
  rcases merge_of_appending hstays hshares hlower hpolicy with ⟨fault, hfault⟩ | ⟨attrs, hmerge⟩
  · exact .inl ⟨fault, hfault children, hfault (Node.withoutRemovals children)⟩
  · have hdominant := hmerge children
    have hwithout := hmerge (Node.withoutRemovals children)
    rw [Node.findSome?_withoutRemovals] at hwithout
    cases hfault : children.findSome? Node.aloneFault? with
    | some fault =>
      rw [hfault] at hdominant hwithout
      exact .inl ⟨fault, hdominant, hwithout⟩
    | none =>
      rw [hfault] at hdominant hwithout
      exact .inr ⟨attrs, hdominant, hwithout⟩

/-- Where children are appended, elements that ask for their removal may be taken out beforehand,
and nothing changes. If the layout directly before them is taken out with them, it is missing in the
result: so that changes nothing exactly if the merge fails anyway, or there is no such layout. -/
theorem removed_elements_leave_layout :
    merge (some lower)
        { dominant with children := dominant.children.filter (!·.isRemoval) } =
      merge (some lower) dominant ∧
    (∀ result, merge (some lower) dominant = .ok result → ∃ attrs,
      result = some ⟨dominant.tag, attrs,
        withoutTrailingLayout lower.children ++ dominant.part⟩ ∧
      merge (some lower) dominant.withoutRemovals = .ok (some ⟨dominant.tag, attrs,
        withoutTrailingLayout lower.children ++ dominant.withoutRemovals.part⟩) ∧
      dominant.part.Perm (Node.leftBehind dominant.children ++ dominant.withoutRemovals.part)) ∧
    (merge (some lower) dominant.withoutRemovals = merge (some lower) dominant ↔
      (∃ fault, merge (some lower) dominant = .error fault) ∨
        ¬ Node.LayoutBeforeRemoval dominant.children) := by
  refine ⟨merge_filter_isRemoval hstays hshares hlower hpolicy, ?_⟩
  rcases merge_withoutRemovals hstays hshares hlower hpolicy with
    ⟨fault, hdominant, hwithout⟩ | ⟨attrs, hdominant, hwithout⟩
  · rw [hdominant, hwithout]
    exact ⟨nofun, iff_of_true rfl (.inl ⟨fault, rfl⟩)⟩
  · rw [hdominant, hwithout, ← Element.part_withoutRemovals_eq_iff]
    refine ⟨fun result hresult => ⟨attrs, ?_, rfl, ?_⟩, ?_⟩
    · exact (Except.ok.inj hresult).symm
    · exact Node.flatMap_alone_perm dominant.children
    · simp

end

theorem removed_elements_leave_layout_items :
    let lower := itemList [("combine.children", "append")] [item []]
    let dominant := itemList [] [.comment "a", item [("combine.self", "remove")], .text " ",
      item [("id", "x")]]
    (¬ dominant.Declares .remove ∧ ¬ dominant.Declares .override ∧ ¬ lower.Declares .overridable ∧
      pairChildrenPolicy (some lower) dominant = .ok .append) ∧
    merge (some lower) (itemList [] [.comment "a", .text " ", item [("id", "x")]]) =
      merge (some lower) dominant ∧
    merge (some lower) (itemList [] [.text " ", item [("id", "x")]]) ≠
      merge (some lower) dominant := by
  intro lower dominant
  have hpolicies : ¬ dominant.Declares .remove ∧ ¬ dominant.Declares .override ∧
      ¬ lower.Declares .overridable ∧ pairChildrenPolicy (some lower) dominant = .ok .append := by
    decide +kernel
  obtain ⟨hstays, hshares, hlower, hpolicy⟩ := hpolicies
  obtain ⟨hsame, -, hiff⟩ := removed_elements_leave_layout hstays hshares hlower hpolicy
  have hmerge : merge (some lower) dominant = .ok (some (itemList [("combine.children", "append")]
      [item [], .comment "a", .text " ", item [("id", "x")]])) := by decide +kernel
  have hkept : ({ dominant with children := dominant.children.filter (!·.isRemoval) } : Element) =
      itemList [] [.comment "a", .text " ", item [("id", "x")]] := by decide +kernel
  have hwithout : dominant.withoutRemovals = itemList [] [.text " ", item [("id", "x")]] := by
    decide +kernel
  have hleads : [.comment "a", item [("combine.self", "remove")]] <:+: dominant.children :=
    ⟨[], [.text " ", item [("id", "x")]], rfl⟩
  rw [hkept] at hsame
  rw [hwithout] at hiff
  refine ⟨⟨hstays, hshares, hlower, hpolicy⟩, hsame, fun heq => ?_⟩
  rcases hiff.1 heq with ⟨fault, hfault⟩ | hnone
  · cases hmerge.symm.trans hfault
  · exact hnone ⟨.comment "a", _, hleads, rfl, by decide +kernel⟩

/-- The comment before an item that is removed stays where children are appended. -/
theorem comment_before_removed_item_stays :
    ¬ ∀ lower dominant : Element, ¬ dominant.Declares .remove → ¬ dominant.Declares .override →
      ¬ lower.Declares .overridable → pairChildrenPolicy (some lower) dominant = .ok .append →
      merge (some lower) dominant.withoutRemovals = merge (some lower) dominant := by
  intro h
  have hsame := h (itemList [("combine.children", "APPEND")] [])
    (itemList [] [.comment "c", item [("combine.self", "REMOVE")]]) (by decide +kernel)
    (by decide +kernel) (by decide +kernel) (by decide +kernel)
  exact absurd hsame (by decide +kernel)

end ConfigOverlay
