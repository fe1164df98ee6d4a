import ConfigOverlay.Proofs.Tree.Descent

set_option autoImplicit false

namespace ConfigOverlay.Element

variable {p q : Element → Prop} {e : Element}

theorem mem_elements_iff {child : Element} : child ∈ e.elements ↔ .element child ∈ e.children := by
  refine ⟨fun h => ?_, fun h => List.mem_filterMap.2 ⟨_, h, rfl⟩⟩
  obtain ⟨node, hnode, helement⟩ := List.mem_filterMap.1 h
  cases node with
  | element e' =>
    cases helement
    exact hnode
  | text content => cases helement
  | comment content => cases helement

theorem mem_of_mem_elements {child : Element} (h : child ∈ e.elements) :
    .element child ∈ e.children :=
  mem_elements_iff.1 h

/-- The element has the property, and so has every element below it. -/
inductive Throughout (p : Element → Prop) : Element → Prop where
  | mk {e : Element} : p e → (∀ child, .element child ∈ e.children → Throughout p child) →
    Throughout p e

namespace Throughout

theorem here (h : e.Throughout p) : p e := by
  cases h
  assumption

theorem child (h : e.Throughout p) {child : Element} (hchild : .element child ∈ e.children) :
    child.Throughout p := by
  cases h with
  | mk _ hbelow => exact hbelow child hchild

theorem imp (hpq : ∀ e, p e → q e) (h : e.Throughout p) : e.Throughout q := by
  induction h with
  | mk hp _ ih => exact .mk (hpq _ hp) ih

end Throughout

/-- The element stands in the tree: it is the root, or stands in the tree of a child. -/
inductive Within (x : Element) : Element → Prop where
  | here : Within x x
  | child {e child : Element} (place : .element child ∈ e.children) (h : Within x child) :
    Within x e

def Below (x e : Element) : Prop := ∃ child, .element child ∈ e.children ∧ x.Within child

theorem Below.within {x : Element} (h : x.Below e) : x.Within e := by
  obtain ⟨child, hchild, hx⟩ := h
  exact .child hchild hx

theorem Within.eq_or_below {x : Element} (h : x.Within e) : x = e ∨ x.Below e := by
  cases h with
  | here => exact .inl rfl
  | child place h => exact .inr ⟨_, place, h⟩

theorem Within.trans {x y : Element} (h : x.Within y) (hy : y.Within e) : x.Within e := by
  induction hy with
  | here => exact h
  | child place _ ih => exact .child place ih

theorem throughout_iff : e.Throughout p ↔ ∀ x : Element, x.Within e → p x := by
  constructor
  · intro h x hx
    induction hx with
    | here => exact h.here
    | child hplace _ ih => exact ih (h.child hplace)
  · intro h
    induction hsize : sizeOf e using Nat.strongRecOn generalizing e with
    | ind size ih =>
      refine .mk (h e .here) fun child hchild => ?_
      exact ih _ (hsize ▸ sizeOf_child_lt hchild) (fun x hx => h x (.child hchild hx)) rfl

section

variable [DecidablePred p]

mutual
def decideThroughout : (e : Element) → Decidable (e.Throughout p)
  | ⟨tag, attrs, children⟩ =>
    match decideBelow children with
    | isTrue hbelow =>
      if h : p ⟨tag, attrs, children⟩ then isTrue (.mk h hbelow)
      else isFalse fun hall => h hall.here
    | isFalse hbelow => isFalse fun hall => hbelow fun _ hchild => hall.child hchild

def decideBelow : (nodes : List Node) →
    Decidable (∀ child, Node.element child ∈ nodes → child.Throughout p)
  | [] => isTrue (by simp)
  | .element e :: rest =>
    match decideThroughout e, decideBelow rest with
    | isTrue he, isTrue hrest => isTrue (by
      intro child hchild
      rcases List.mem_cons.1 hchild with heq | hchild
      · cases heq
        exact he
      · exact hrest child hchild)
    | isFalse he, _ => isFalse fun h => he (h e List.mem_cons_self)
    | _, isFalse hrest => isFalse fun h =>
      hrest fun child hchild => h child (List.mem_cons_of_mem _ hchild)
  | .text _ :: rest | .comment _ :: rest =>
    match decideBelow rest with
    | isTrue hrest => isTrue (by simpa using hrest)
    | isFalse hrest => isFalse (by simpa using hrest)
end

instance : Decidable (e.Throughout p) := decideThroughout e

end

theorem element_mem_mapAttributesList {f : Attributes → Attributes} {nodes : List Node}
    {child : Element} (h : Node.element child ∈ Node.mapAttributesList f nodes) :
    ∃ original, Node.element original ∈ nodes ∧ child = original.mapAttributes f := by
  induction nodes with
  | nil => exact absurd h List.not_mem_nil
  | cons node rest ih =>
    rw [Node.mapAttributesList] at h
    rcases List.mem_cons.1 h with hnode | h
    · cases node with
      | element e =>
        rw [Node.mapAttributes, Node.element.injEq] at hnode
        exact ⟨e, List.mem_cons_self, hnode⟩
      | text content => simp [Node.mapAttributes] at hnode
      | comment content => simp [Node.mapAttributes] at hnode
    · obtain ⟨original, hmem, heq⟩ := ih h
      exact ⟨original, List.mem_cons_of_mem node hmem, heq⟩

theorem Throughout.mapAttributes {f : Attributes → Attributes}
    (hpq : ∀ e, p e → q (e.mapAttributes f)) (h : e.Throughout p) :
    (e.mapAttributes f).Throughout q := by
  induction h with
  | @mk e hp _ ih =>
    refine .mk (hpq e hp) fun child hchild => ?_
    obtain ⟨tag, attrs, children⟩ := e
    rw [Element.mapAttributes] at hchild
    obtain ⟨original, hmem, rfl⟩ := element_mem_mapAttributesList hchild
    exact ih original hmem

theorem Throughout.mapAttributes_congr {f g : Attributes → Attributes}
    (hfg : ∀ e, p e → f e.attrs = g e.attrs) (h : e.Throughout p) :
    e.mapAttributes f = e.mapAttributes g := by
  induction h with
  | @mk e hp _ ih =>
    have hchildren : Node.mapAttributesList f e.children = Node.mapAttributesList g e.children := by
      rw [Node.mapAttributesList_eq_map, Node.mapAttributesList_eq_map]
      refine List.map_congr_left fun node hnode => ?_
      cases node with
      | element child => rw [Node.mapAttributes, Node.mapAttributes, ih child hnode]
      | text content => rfl
      | comment content => rfl
    obtain ⟨tag, attrs, children⟩ := e
    rw [Element.mapAttributes, Element.mapAttributes, hfg _ hp, hchildren]

end ConfigOverlay.Element
