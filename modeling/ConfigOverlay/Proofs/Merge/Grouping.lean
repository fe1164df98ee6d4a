import ConfigOverlay.Proofs.Merge.Siblings

set_option autoImplicit false

namespace ConfigOverlay

def Sibling.nodes (s : Sibling) : List Node := s.leading ++ [.element s.element]

/-- The text of an element's own: what stands between its elements and is not blank. -/
def Node.isContent (node : Node) : Bool := node.isText && !node.isLayout

namespace Siblings

def nodes (s : Siblings) : List Node := s.elements.flatMap Sibling.nodes ++ s.stray

structure Grouped (s : Siblings) : Prop where
  leading : ∀ sibling ∈ s.elements, ∀ node ∈ sibling.leading, node.isLayout
  stray : ∀ node ∈ s.stray, node.element? = none

theorem grouped_ofNodes (nodes : List Node) : (ofNodes nodes).Grouped where
  leading _ hs _ hnode := isLayout_of_mem_leading hs hnode
  stray _ hnode := element?_of_mem_stray hnode

theorem group_stray {pending nodes : List Node} (h : ∀ node ∈ nodes, node.element? = none) :
    group pending nodes = ⟨[], pending ++ nodes⟩ := by
  induction nodes generalizing pending with
  | nil => simp [group]
  | cons node rest ih =>
    have hrest : ∀ other ∈ rest, other.element? = none :=
      fun other hother => h other (List.mem_cons_of_mem node hother)
    cases node with
    | element e => simp [Node.element?] at h
    | text content =>
      rw [group]
      split
      · simp [ih hrest]
      · simp [ih hrest, consStray]
    | comment content => simp [group, ih hrest]

theorem group_leading {pending leading : List Node} (h : ∀ node ∈ leading, node.isLayout)
    (e : Element) (rest : List Node) :
    group pending (leading ++ .element e :: rest) =
      (group [] rest).consElement (pending ++ leading) e := by
  induction leading generalizing pending with
  | nil => simp [group]
  | cons node leading ih =>
    have hnode := h node List.mem_cons_self
    have hleading : ∀ other ∈ leading, other.isLayout :=
      fun other hother => h other (List.mem_cons_of_mem node hother)
    cases node with
    | element e => simp [Node.isLayout] at hnode
    | text content => simp [group, hnode, ih hleading]
    | comment content => simp [group, ih hleading]

theorem ofNodes_nodes {s : Siblings} (h : s.Grouped) : ofNodes s.nodes = s := by
  obtain ⟨elements, stray⟩ := s
  rw [ofNodes, nodes]
  induction elements with
  | nil => exact group_stray h.stray
  | cons first rest ih =>
    have hrest := ih ⟨fun s hs => h.leading s (List.mem_cons_of_mem first hs), h.stray⟩
    have hfirst := h.leading first List.mem_cons_self
    simp only at hrest
    rw [List.flatMap_cons, Sibling.nodes, List.append_assoc, List.append_assoc,
      List.singleton_append, group_leading hfirst, hrest]
    rfl

theorem map_element_group (pending nodes : List Node) :
    (group pending nodes).elements.map Sibling.element = nodes.filterMap Node.element? := by
  induction nodes generalizing pending with
  | nil => rfl
  | cons node rest ih =>
    rw [List.filterMap_cons]
    cases node with
    | element e => simp [group, consElement, Node.element?, ih]
    | text content =>
      rw [group]
      split <;> simp [consStray, Node.element?, ih]
    | comment content => simp [group, Node.element?, ih]

theorem filter_isContent_group {pending : List Node} (h : ∀ node ∈ pending, node.isLayout)
    (nodes : List Node) :
    (group pending nodes).stray.filter Node.isContent = nodes.filter Node.isContent := by
  have hlayout : ∀ layout : List Node, (∀ node ∈ layout, node.isLayout) →
      layout.filter Node.isContent = [] := fun layout hall =>
    List.filter_eq_nil_iff.2 fun node hnode => by simp [Node.isContent, hall node hnode]
  induction nodes generalizing pending with
  | nil => exact hlayout pending h
  | cons node rest ih =>
    have hempty := @ih [] (by simp)
    cases node with
    | element e => simpa [group, consElement, Node.isContent, Node.isText] using hempty
    | text content =>
      rw [group]
      split
      · next htext =>
        rw [ih (by simpa [or_imp, forall_and, htext] using h)]
        simp [Node.isContent, htext]
      · simp [consStray, hlayout pending h, hempty, List.filter_cons]
    | comment content =>
      rw [group, ih (by simpa [or_imp, forall_and, Node.isLayout] using h)]
      simp [Node.isContent, Node.isText]

end Siblings

namespace Element

def siblings (e : Element) : Siblings := .ofNodes e.children

theorem map_element_siblings (e : Element) : e.siblings.elements.map Sibling.element = e.elements :=
  Siblings.map_element_group [] e.children

theorem filter_isContent_siblings (e : Element) :
    e.siblings.stray.filter Node.isContent = e.children.filter Node.isContent :=
  Siblings.filter_isContent_group (by simp) e.children

end Element

end ConfigOverlay
