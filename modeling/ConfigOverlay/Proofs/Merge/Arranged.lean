import ConfigOverlay.Proofs.Merge.Steps

/-!
What becomes of an element that is laid over nothing. Its nodes are put in the order in which a
merge writes them: the elements, each behind the layout that leads to it, and after them the nodes
that belong to no element. Nothing else changes, at any depth; so an element whose texts come last
is left as it is.
-/

set_option autoImplicit false

namespace ConfigOverlay

def leadsToElement : List Node → Bool
  | [] => false
  | node :: rest => node.element?.isSome || node.isLayout && leadsToElement rest

namespace Node

def led : List Node → List Node
  | [] => []
  | node :: rest => if leadsToElement (node :: rest) then node :: led rest else led rest

def strays : List Node → List Node
  | [] => []
  | node :: rest => if leadsToElement (node :: rest) then strays rest else node :: strays rest

end Node

mutual
/-- The element with its stray nodes behind its elements, at every depth. -/
def Element.arranged : Element → Element
  | ⟨tag, attrs, children⟩ =>
    ⟨tag, attrs, Node.led (Node.arrangedList children) ++ Node.strays (Node.arrangedList children)⟩

def Node.arranged : Node → Node
  | .element e => .element e.arranged
  | .text content => .text content
  | .comment content => .comment content

def Node.arrangedList : List Node → List Node
  | [] => []
  | node :: rest => node.arranged :: Node.arrangedList rest
end

/-- No element stands behind a text of the element's own. -/
def Element.TextsLast (e : Element) : Prop :=
  e.children.Pairwise fun node later => node.isContent → later.element? = none

instance : DecidablePred Element.TextsLast := fun e =>
  inferInstanceAs (Decidable (e.children.Pairwise fun node later =>
    node.isContent → later.element? = none))

namespace Node

theorem arrangedList_eq (nodes : List Node) : arrangedList nodes = nodes.map arranged := by
  induction nodes with
  | nil => rfl
  | cons node rest ih => rw [arrangedList, ih, List.map_cons]

theorem isSome_element?_arranged (node : Node) :
    node.arranged.element?.isSome = node.element?.isSome := by
  cases node <;> rfl

theorem isLayout_arranged (node : Node) : node.arranged.isLayout = node.isLayout := by
  cases node <;> rfl

theorem arranged_of_element? {node : Node} (h : node.element? = none) : node.arranged = node := by
  cases node with
  | element e => simp [element?] at h
  | text content => rfl
  | comment content => rfl

theorem leadsToElement_map_arranged (nodes : List Node) :
    leadsToElement (nodes.map arranged) = leadsToElement nodes := by
  induction nodes with
  | nil => rfl
  | cons node rest ih =>
    rw [List.map_cons, leadsToElement, leadsToElement, ih, isSome_element?_arranged,
      isLayout_arranged]

theorem led_map_arranged (nodes : List Node) :
    led (nodes.map arranged) = (led nodes).map arranged := by
  induction nodes with
  | nil => rfl
  | cons node rest ih =>
    have hleads := leadsToElement_map_arranged (node :: rest)
    rw [List.map_cons] at hleads
    rw [List.map_cons, led, led, hleads, ih]
    split <;> rfl

theorem element?_of_mem_strays {nodes : List Node} {node : Node} (h : node ∈ strays nodes) :
    node.element? = none := by
  induction nodes with
  | nil => exact absurd h List.not_mem_nil
  | cons first rest ih =>
    rw [strays] at h
    split at h
    · exact ih h
    · next hleads =>
      rcases List.mem_cons.1 h with rfl | h
      · simpa [leadsToElement] using (by simpa [leadsToElement] using hleads :
          node.element? = none ∧ _).1
      · exact ih h

theorem strays_map_arranged (nodes : List Node) : strays (nodes.map arranged) = strays nodes := by
  induction nodes with
  | nil => rfl
  | cons node rest ih =>
    have hleads := leadsToElement_map_arranged (node :: rest)
    rw [List.map_cons] at hleads
    rw [List.map_cons, strays, strays, hleads, ih]
    split
    · rfl
    · next hstray =>
      have hmem : node ∈ strays (node :: rest) := by rw [strays, if_neg hstray]; simp
      rw [arranged_of_element? (element?_of_mem_strays hmem)]

theorem mem_of_mem_led {nodes : List Node} {node : Node} (h : node ∈ led nodes) :
    node ∈ nodes ∧ node.isContent = false := by
  induction nodes with
  | nil => exact absurd h List.not_mem_nil
  | cons first rest ih =>
    rw [led] at h
    split at h
    · next hleads =>
      rcases List.mem_cons.1 h with rfl | h
      · refine ⟨List.mem_cons_self, ?_⟩
        cases node with
        | element e => rfl
        | text content => simp_all [leadsToElement, element?, isContent]
        | comment content => rfl
      · exact ⟨List.mem_cons_of_mem first (ih h).1, (ih h).2⟩
    · exact ⟨List.mem_cons_of_mem first (ih h).1, (ih h).2⟩

theorem led_of_noElement {nodes : List Node} (h : ∀ node ∈ nodes, node.element? = none) :
    leadsToElement nodes = false ∧ led nodes = [] ∧ strays nodes = nodes := by
  induction nodes with
  | nil => exact ⟨rfl, rfl, rfl⟩
  | cons node rest ih =>
    obtain ⟨hleads, hled, hstrays⟩ := ih fun other hother =>
      h other (List.mem_cons_of_mem node hother)
    have hnode : leadsToElement (node :: rest) = false := by
      simp [leadsToElement, hleads, h node List.mem_cons_self]
    exact ⟨hnode, by simp [led, hnode, hled], by simp [strays, hnode, hstrays]⟩

theorem element?_of_not_leadsToElement {nodes : List Node} (hleads : leadsToElement nodes = false)
    (htexts : nodes.Pairwise fun node later => node.isContent → later.element? = none) :
    ∀ node ∈ nodes, node.element? = none := by
  induction nodes with
  | nil => simp
  | cons node rest ih =>
    obtain ⟨hnode, hrest⟩ := List.pairwise_cons.1 htexts
    simp only [leadsToElement, Bool.or_eq_false_iff, Option.isSome_eq_false_iff,
      Option.isNone_iff_eq_none, Bool.and_eq_false_iff] at hleads
    rw [List.forall_mem_cons]
    refine ⟨hleads.1, ?_⟩
    rcases hleads.2 with hlayout | hbehind
    · refine fun later hlater => hnode later hlater ?_
      cases node with
      | element e => simp [element?] at hleads
      | text content => simp [isContent, isText, hlayout]
      | comment content => simp [isLayout] at hlayout
    · exact ih hbehind hrest

theorem led_append_strays {nodes : List Node}
    (h : nodes.Pairwise fun node later => node.isContent → later.element? = none) :
    led nodes ++ strays nodes = nodes := by
  induction nodes with
  | nil => rfl
  | cons node rest ih =>
    cases hleads : leadsToElement (node :: rest) with
    | true => simp [led, strays, hleads, ih (List.pairwise_cons.1 h).2]
    | false =>
      obtain ⟨-, hled, hstrays⟩ := led_of_noElement (element?_of_not_leadsToElement hleads h)
      rw [hled, hstrays, List.nil_append]

end Node

namespace Element

theorem arranged_eq (e : Element) : e.arranged = ⟨e.tag, e.attrs,
    (Node.led e.children).map Node.arranged ++ Node.strays e.children⟩ := by
  cases e
  rw [arranged, Node.arrangedList_eq, Node.led_map_arranged, Node.strays_map_arranged]

theorem textsLast_of_led_of_strays {led strays : List Node}
    (hled : ∀ node ∈ led, node.isContent = false) (hstrays : ∀ node ∈ strays, node.element? = none)
    (tag : String) (attrs : Attributes) : TextsLast ⟨tag, attrs, led ++ strays⟩ := by
  refine List.pairwise_append.2 ⟨?_, ?_, ?_⟩
  · refine List.pairwise_of_forall_mem_list fun node hnode _ _ hcontent => ?_
    simp [hled node hnode] at hcontent
  · exact List.pairwise_of_forall_mem_list fun _ _ later hlater _ => hstrays later hlater
  · exact fun _ _ later hlater _ => hstrays later hlater

theorem exists_of_mem_arranged {e child : Element} (h : .element child ∈ e.arranged.children) :
    ∃ original, .element original ∈ e.children ∧ child = original.arranged := by
  rw [arranged_eq] at h
  rcases List.mem_append.1 h with hmem | hmem
  · obtain ⟨node, hnode, heq⟩ := List.mem_map.1 hmem
    cases node with
    | element original =>
      cases heq
      exact ⟨original, (Node.mem_of_mem_led hnode).1, rfl⟩
    | text content => simp [Node.arranged] at heq
    | comment content => simp [Node.arranged] at heq
  · simpa [Node.element?] using Node.element?_of_mem_strays hmem

theorem textsLast_arranged (e : Element) : e.arranged.Throughout TextsLast := by
  induction hsize : sizeOf e using Nat.strongRecOn generalizing e with
  | ind size ih =>
    have hled (node : Node) (hnode : node ∈ (Node.led e.children).map Node.arranged) :
        node.isContent = false := by
      rw [← Node.led_map_arranged] at hnode
      exact (Node.mem_of_mem_led hnode).2
    refine .mk ?_ fun child hchild => ?_
    · rw [arranged_eq]
      exact textsLast_of_led_of_strays hled (fun _ => Node.element?_of_mem_strays) _ _
    · obtain ⟨original, horiginal, rfl⟩ := exists_of_mem_arranged hchild
      exact ih _ (hsize ▸ sizeOf_child_lt horiginal) original rfl

/-- Arranging leaves as they are just the trees whose texts come last. -/
theorem arranged_eq_self_iff {e : Element} : e.arranged = e ↔ e.Throughout TextsLast := by
  refine ⟨fun h => h ▸ e.textsLast_arranged, fun h => ?_⟩
  induction h with
  | @mk e hhere _ ih =>
    have hled : (Node.led e.children).map Node.arranged = Node.led e.children := by
      refine (List.map_congr_left fun node hnode => ?_).trans (List.map_id _)
      cases node with
      | element c => exact congrArg Node.element (ih c (Node.mem_of_mem_led hnode).1)
      | text content => rfl
      | comment content => rfl
    rw [arranged_eq, hled, Node.led_append_strays hhere]
    cases e
    rfl

end Element

theorem Siblings.group_eq (pending nodes : List Node) :
    (group pending nodes).elements.flatMap Sibling.nodes =
        (if leadsToElement nodes then pending else []) ++ Node.led nodes ∧
      (group pending nodes).stray =
        (if leadsToElement nodes then [] else pending) ++ Node.strays nodes := by
  induction nodes generalizing pending with
  | nil => simp [group, leadsToElement, Node.led, Node.strays]
  | cons node rest ih =>
    cases node with
    | element e =>
      obtain ⟨helements, hstray⟩ := ih []
      simp [group, consElement, Sibling.nodes, leadsToElement, Node.element?, Node.led, Node.strays,
        helements, hstray]
    | text content =>
      rw [group]
      cases hlayout : (Node.text content).isLayout with
      | true =>
        obtain ⟨helements, hstray⟩ := ih (pending ++ [.text content])
        cases hleads : leadsToElement rest <;>
          simp [leadsToElement, Node.element?, Node.led, Node.strays, hlayout, hleads, helements,
            hstray]
      | false =>
        obtain ⟨helements, hstray⟩ := ih []
        simp [consStray, leadsToElement, Node.element?, Node.led, Node.strays, hlayout, helements,
          hstray]
    | comment content =>
      obtain ⟨helements, hstray⟩ := ih (pending ++ [.comment content])
      cases hleads : leadsToElement rest <;>
        simp [group, leadsToElement, Node.element?, Node.isLayout, Node.led, Node.strays, hleads,
          helements, hstray]

theorem Element.arranged_eq_siblings (e : Element) : e.arranged = ⟨e.tag, e.attrs,
    e.siblings.elements.flatMap (fun s => s.leading ++ [.element s.element.arranged]) ++
      e.siblings.stray⟩ := by
  obtain ⟨helements, hstray⟩ := Siblings.group_eq [] e.children
  have hleading : ∀ s ∈ e.siblings.elements, s.leading.map Node.arranged = s.leading := by
    refine fun s hs => (List.map_congr_left fun node hnode => ?_).trans (List.map_id _)
    exact Node.arranged_of_element? (Node.element?_of_isLayout
      ((Siblings.grouped_ofNodes e.children).leading s hs node hnode))
  have hsiblings : ∀ s ∈ e.siblings.elements, s.nodes.map Node.arranged =
      s.leading ++ [.element s.element.arranged] := fun s hs => by
    rw [Sibling.nodes, List.map_append, hleading s hs]
    rfl
  simp only [ite_self, List.nil_append] at helements hstray
  rw [arranged_eq, ← helements, ← hstray, List.map_flatMap]
  exact congrArg (fun nodes => Element.mk e.tag e.attrs (nodes ++ e.siblings.stray))
    (List.flatMap_congr hsiblings)

/-- An element without policies that is laid over nothing is arranged. -/
theorem merge_none_eq_arranged {e : Element} (h : e.Throughout (·.attrs.Plain)) :
    merge none e = .ok (some e.arranged) := by
  induction h with
  | @mk e hplain _ ih =>
    have hsteps : ∀ s ∈ e.siblings.elements,
        collect (Step.run merge) (s.dominantSteps [] e.siblings.elements) =
          .ok (s.leading ++ [.element s.element.arranged]) := fun s hs => by
      have halone : counterpart? [] e.siblings.elements s.key = none := by simp [counterpart?]
      have hlaid := ih s.element (Siblings.element_mem_of_mem hs)
      exact (collect_dominantSteps_of_none halone).2 ⟨_, hlaid, rfl⟩
    have hattrs : mergedAttributes none e none = e.attrs :=
      (@mergedAttributes_eq none e Attributes.plain_empty hplain).trans
        (Attributes.empty_overlay hplain.unique)
    have hnodes : collect (Step.run merge) (siblingSteps .empty e.siblings []) =
        .ok (e.siblings.elements.flatMap (fun s => s.leading ++ [.element s.element.arranged]) ++
          e.siblings.stray) :=
      collect_siblingSteps_eq_ok.2 ⟨[], _, rfl, collect_eq_ok hsteps, by simp [Siblings.empty]⟩
    refine (merge_of_undeclared (by simp) (Element.undeclared_of_plain hplain)).2
      ⟨[], _, rfl, hnodes, ?_⟩
    rw [hattrs, e.arranged_eq_siblings]

theorem step_of_fresh {recessive : Option Element} {dominant c : Element} {kept : List Sibling}
    (hkept : ∀ s ∈ kept, s ∈ (siblingsOf recessive).elements)
    (hc : .element c ∈ dominant.children)
    (hfresh : ∀ lower ∈ recessive, ∀ child ∈ lower.elements, child.key ≠ c.key) :
    ∃ leading,
      .merge leading none c ∈ siblingSteps (siblingsOf recessive) dominant.siblings kept := by
  obtain ⟨d, hd, rfl⟩ := Element.exists_sibling hc
  have halone : counterpart? kept dominant.siblings.elements d.key = none := by
    have hcount : kept.countP (·.key = d.key) = 0 := by
      refine List.countP_eq_zero.2 fun s hs => ?_
      obtain ⟨lower, hlower, hplace⟩ := Siblings.place_of_mem_siblingsOf (hkept s hs)
      rw [decide_eq_true_eq]
      exact hfresh lower hlower s.element (Element.mem_elements_iff.2 hplace)
    simp [counterpart?, hcount]
  refine ⟨d.leading, mem_siblingSteps_of_dominant hd ?_⟩
  rw [Sibling.dominantSteps, halone]
  exact List.mem_singleton.2 rfl

/-- A child of the dominant element that finds no counterpart and declares nothing anywhere is among
the merged children with its texts put last, and just as it was if they came last before. -/
theorem merge_arranges_fresh_child {recessive : Option Element} {dominant c : Element}
    {result : Option Element} (hrecessive : ∀ lower ∈ recessive, lower.Undeclared)
    (hdominant : dominant.Undeclared) (hc : .element c ∈ dominant.children)
    (hfresh : ∀ lower ∈ recessive, ∀ child ∈ lower.elements, child.key ≠ c.key)
    (hplain : c.Throughout (·.attrs.Plain)) (hmerge : merge recessive dominant = .ok result) :
    (∃ merged, result = some merged ∧ .element c.arranged ∈ merged.children) ∧
      (c.arranged = c ↔ c.Throughout Element.TextsLast) := by
  refine ⟨?_, Element.arranged_eq_self_iff⟩
  obtain ⟨kept, nodes, hkept, hnodes, rfl⟩ := (merge_of_undeclared hrecessive hdominant).1 hmerge
  obtain ⟨leading, hstep⟩ := step_of_fresh (fun s hs => mem_of_mem_retained hkept hs) hc hfresh
  have hrun : Step.run merge (.merge leading none c) =
      .ok (Rules.placed leading (some c.arranged)) :=
    run_merge_eq_ok.2 ⟨_, merge_none_eq_arranged hplain, rfl⟩
  refine ⟨_, rfl, (mem_collect_iff hnodes).2 ⟨_, hstep, _, hrun, ?_⟩⟩
  exact List.mem_append_right _ List.mem_cons_self

def mixedNote : Element :=
  ⟨"note", ⟨[("id", "n")]⟩, [.text "see", .text "\n", .element ⟨"link", .empty, []⟩]⟩

def noteMerged : Element :=
  ⟨"doc", .empty, [.element ⟨"note", ⟨[("id", "m")]⟩, []⟩,
    .element ⟨"note", ⟨[("id", "n")]⟩,
      [.text "\n", .element ⟨"link", .empty, []⟩, .text "see"]⟩]⟩

theorem merge_arranges_fresh_child_note :
    merge (some ⟨"doc", .empty, [.element ⟨"note", ⟨[("id", "m")]⟩, []⟩]⟩)
        ⟨"doc", .empty, [.element mixedNote]⟩ = .ok (some noteMerged) ∧
      .element mixedNote.arranged ∈ noteMerged.children ∧ mixedNote.arranged ≠ mixedNote := by
  have hmerge : merge (some ⟨"doc", .empty, [.element ⟨"note", ⟨[("id", "m")]⟩, []⟩]⟩)
      ⟨"doc", .empty, [.element mixedNote]⟩ = .ok (some noteMerged) := by decide +kernel
  obtain ⟨⟨merged, heq, hmem⟩, hsame⟩ := merge_arranges_fresh_child (c := mixedNote)
    (by decide +kernel) (by decide +kernel) (by simp) (by decide +kernel) (by decide +kernel) hmerge
  cases heq
  exact ⟨hmerge, hmem, fun heq => absurd (hsame.1 heq) (by decide +kernel)⟩

/-- So such a child does not always come back as it was. -/
theorem fresh_child_is_rearranged :
    ¬ ∀ (recessive dominant c merged : Element), recessive.Undeclared → dominant.Undeclared →
      .element c ∈ dominant.children → (∀ child ∈ recessive.elements, child.key ≠ c.key) →
      c.Throughout (·.attrs.Plain) → merge (some recessive) dominant = .ok (some merged) →
      .element c ∈ merged.children := by
  intro h
  have hmem := h ⟨"a", .empty, []⟩
    ⟨"a", .empty, [.element ⟨"p", ⟨[("id", "x")]⟩, [.text "t", .element ⟨"b", .empty, []⟩]⟩]⟩
    ⟨"p", ⟨[("id", "x")]⟩, [.text "t", .element ⟨"b", .empty, []⟩]⟩
    ⟨"a", .empty, [.element ⟨"p", ⟨[("id", "x")]⟩, [.element ⟨"b", .empty, []⟩, .text "t"]⟩]⟩
    (by decide +kernel) (by decide +kernel) (by simp) (by decide +kernel) (by decide +kernel)
    (by decide +kernel)
  simp at hmem

end ConfigOverlay
