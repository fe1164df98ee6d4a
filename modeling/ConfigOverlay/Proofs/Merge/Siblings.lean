import ConfigOverlay.Merge.Plan

set_option autoImplicit false

namespace ConfigOverlay

namespace Siblings

theorem isLayout_of_mem_leading_group {pending nodes : List Node} {s : Sibling} {node : Node}
    (hpending : ∀ n ∈ pending, n.isLayout) (hs : s ∈ (group pending nodes).elements)
    (hnode : node ∈ s.leading) : node.isLayout := by
  induction nodes generalizing pending with
  | nil => simp [group] at hs
  | cons first rest ih =>
    cases first with
    | element e =>
      simp only [group, consElement, List.mem_cons] at hs
      rcases hs with rfl | hs
      · exact hpending node hnode
      · exact ih (by simp) hs
    | text content =>
      simp only [group] at hs
      split at hs
      · next hlayout =>
        refine ih (fun n hn => ?_) hs
        rcases List.mem_append.1 hn with hn | hn
        · exact hpending n hn
        · rwa [List.mem_singleton.1 hn]
      · exact ih (by simp) hs
    | comment content =>
      refine ih (fun n hn => ?_) hs
      rcases List.mem_append.1 hn with hn | hn
      · exact hpending n hn
      · rw [List.mem_singleton.1 hn]; rfl

theorem isLayout_of_mem_leading {nodes : List Node} {s : Sibling} {node : Node}
    (hs : s ∈ (ofNodes nodes).elements) (hnode : node ∈ s.leading) : node.isLayout :=
  isLayout_of_mem_leading_group (by simp) hs hnode

theorem element?_of_mem_stray_group {pending nodes : List Node} {node : Node}
    (hpending : ∀ n ∈ pending, n.element? = none) (h : node ∈ (group pending nodes).stray) :
    node.element? = none := by
  induction nodes generalizing pending with
  | nil => exact hpending node h
  | cons first rest ih =>
    cases first with
    | element e => exact ih (by simp) h
    | text content =>
      simp only [group] at h
      split at h
      · refine ih (fun n hn => ?_) h
        rcases List.mem_append.1 hn with hn | hn
        · exact hpending n hn
        · rw [List.mem_singleton.1 hn]; rfl
      · simp only [consStray, List.mem_append, List.mem_singleton] at h
        rcases h with (h | rfl) | h
        · exact hpending node h
        · rfl
        · exact ih (by simp) h
    | comment content =>
      refine ih (fun n hn => ?_) h
      rcases List.mem_append.1 hn with hn | hn
      · exact hpending n hn
      · rw [List.mem_singleton.1 hn]; rfl

theorem element?_of_mem_stray {nodes : List Node} {node : Node}
    (h : node ∈ (ofNodes nodes).stray) : node.element? = none :=
  element?_of_mem_stray_group (by simp) h

end Siblings

theorem mem_of_mem_retained {dominants recessives kept : List Sibling} {s : Sibling}
    (h : retained dominants recessives = .ok kept) (hs : s ∈ kept) : s ∈ recessives := by
  induction recessives generalizing kept with
  | nil =>
    simp only [retained, Except.ok.injEq] at h
    subst h
    exact hs
  | cons first rest ih =>
    rw [retained] at h
    cases hpolicy : first.element.selfPolicy with
    | error e => simp [hpolicy] at h
    | ok policy =>
      cases hrest : retained dominants rest with
      | error e => simp [hpolicy, hrest] at h
      | ok others =>
        simp only [hpolicy, hrest, Except.ok.injEq] at h
        subst h
        split at hs
        · exact List.mem_cons_of_mem _ (ih hrest hs)
        · rcases List.mem_cons.1 hs with rfl | hs
          · exact List.mem_cons_self
          · exact List.mem_cons_of_mem _ (ih hrest hs)

end ConfigOverlay
