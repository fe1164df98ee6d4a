import ConfigOverlay.Proofs.Merge.Arranged
import ConfigOverlay.Proofs.Merge.Runs
import ConfigOverlay.Proofs.Merge.Sweep

set_option autoImplicit false

namespace ConfigOverlay

/-- After each comment there is an element, with nothing but layout between them. -/
def commentsLead : List Node → Bool
  | [] => true
  | .comment _ :: rest => leadsToElement rest && commentsLead rest
  | _ :: rest => commentsLead rest

/-- The attributes are plain, siblings have different keys, and one without id is the only one with
its tag. Every comment leads to a sibling. -/
structure Element.Repeatable (e : Element) : Prop where
  attrs : e.attrs.Plain
  keys : (e.elements.map Element.key).Nodup
  alone : ∀ child ∈ e.elements, child.id? = none → e.elements.countP (·.tag = child.tag) = 1
  comments : commentsLead e.children

instance : DecidablePred Element.Repeatable := fun e =>
  decidable_of_iff (e.attrs.Plain ∧ (e.elements.map Element.key).Nodup ∧
    (∀ child ∈ e.elements, child.id? = none → e.elements.countP (·.tag = child.tag) = 1) ∧
      commentsLead e.children)
    ⟨fun h => ⟨h.1, h.2.1, h.2.2.1, h.2.2.2⟩, fun h => ⟨h.attrs, h.keys, h.alone, h.comments⟩⟩

def Sibling.arranged (s : Sibling) : Sibling := ⟨s.leading, s.element.arranged⟩

def Siblings.arranged (s : Siblings) : Siblings := ⟨s.elements.map Sibling.arranged, s.stray⟩

theorem Element.attrs_arranged (e : Element) : e.arranged.attrs = e.attrs := by
  rw [Element.arranged_eq]

theorem Sibling.key_arranged (s : Sibling) : s.arranged.key = s.key := by
  rw [key, arranged, Element.arranged_eq]
  rfl

theorem Sibling.exists_of_map_arranged {siblings others : List Sibling}
    (hsame : siblings.map arranged = others.map arranged) {s : Sibling} (hs : s ∈ siblings) :
    ∃ d ∈ others, d.key = s.key ∧ d.leading = s.leading ∧
      d.element.arranged = s.element.arranged := by
  obtain ⟨d, hd, heq⟩ := List.mem_map.1 (hsame ▸ List.mem_map_of_mem hs)
  obtain ⟨hleading, helement⟩ := Sibling.mk.inj heq
  exact ⟨d, hd, by rw [← d.key_arranged, heq, s.key_arranged], hleading, helement⟩

theorem Sibling.map_key_of_map_arranged {siblings others : List Sibling}
    (hsame : siblings.map arranged = others.map arranged) :
    siblings.map key = others.map key := by
  have hkeys (l : List Sibling) : (l.map arranged).map key = l.map key := by
    rw [List.map_map]
    exact List.map_congr_left fun s _ => s.key_arranged
  rw [← hkeys, hsame, hkeys]

theorem Siblings.Grouped.arranged {s : Siblings} (h : s.Grouped) : s.arranged.Grouped where
  leading sibling hsibling := by
    obtain ⟨original, horiginal, rfl⟩ := List.mem_map.1 hsibling
    exact h.leading original horiginal
  stray := h.stray

namespace Element

theorem arranged_eq_nodes (e : Element) :
    e.arranged = ⟨e.tag, e.attrs, e.siblings.arranged.nodes⟩ := by
  rw [arranged_eq_siblings, Siblings.nodes, Siblings.arranged, List.flatMap_map]
  rfl

theorem siblings_arranged (e : Element) : e.arranged.siblings = e.siblings.arranged := by
  rw [e.arranged_eq_nodes]
  exact Siblings.ofNodes_nodes (Siblings.grouped_ofNodes e.children).arranged

theorem arranged_arranged (e : Element) : e.arranged.arranged = e.arranged :=
  arranged_eq_self_iff.2 e.textsLast_arranged

theorem stray_siblings (e : Element) : e.siblings.stray = Node.strays e.children := by
  have h := (Siblings.group_eq [] e.children).2
  rwa [ite_self, List.nil_append] at h

theorem Throughout.arranged {p : Element → Prop} {e : Element}
    (hp : ∀ e : Element, p e → p e.arranged) (h : e.Throughout p) : e.arranged.Throughout p := by
  induction h with
  | @mk e hhere _ ih =>
    refine .mk (hp e hhere) fun child hchild => ?_
    obtain ⟨original, horiginal, rfl⟩ := exists_of_mem_arranged hchild
    exact ih original horiginal

end Element

section

variable {below above : List Sibling} {d : Sibling}

theorem Sibling.countP_tag (siblings : List Sibling) (tag : String) :
    siblings.countP (·.element.tag = tag) = (siblings.map Sibling.key).countP (·.tag = tag) := by
  rw [List.countP_map]
  rfl

theorem counterpart?_of_same_keys (hkeys : below.map Sibling.key = above.map Sibling.key)
    (hnodup : (above.map Sibling.key).Nodup)
    (halone : ∀ s ∈ above, s.key.id = none → above.countP (·.element.tag = s.key.tag) = 1)
    (hd : d ∈ above) : counterpart? below above d.key = some d := by
  have hone : (above.map Sibling.key).count d.key = 1 :=
    List.count_eq_one_of_mem hnodup (List.mem_map_of_mem hd)
  rw [counterpart?, Sibling.countP_key, Sibling.countP_key, Sibling.countP_tag below, hkeys,
    ← Sibling.countP_tag, if_pos ⟨hone, hone, fun hid => ⟨halone d hd hid, halone d hd hid⟩⟩]
  exact Sibling.find?_key hnodup hd

end

theorem isText_of_mem_strays {nodes : List Node} (h : commentsLead nodes) {node : Node}
    (hnode : node ∈ Node.strays nodes) : node.isText := by
  induction nodes with
  | nil => exact absurd hnode List.not_mem_nil
  | cons first rest ih =>
    rw [Node.strays] at hnode
    cases first with
    | element e => exact ih h (by simpa [leadsToElement, Node.element?] using hnode)
    | text content =>
      split at hnode
      · exact ih h hnode
      · rcases List.mem_cons.1 hnode with rfl | hnode
        · rfl
        · exact ih h hnode
    | comment content =>
      obtain ⟨hleads, hrest⟩ : leadsToElement rest ∧ commentsLead rest := by
        simpa [commentsLead] using h
      rw [if_pos (by simp [leadsToElement, Node.isLayout, hleads])] at hnode
      exact ih hrest hnode

theorem Siblings.stays_beside_itself {s : Siblings} (h : ∀ node ∈ s.stray, node.isText) :
    s.stray.filter (staysBeside s) = [] := by
  refine List.filter_eq_nil_iff.2 fun node hnode => ?_
  have htext := h node hnode
  cases hlayout : node.isLayout with
  | true =>
    have hblank : s.hasBlankText := List.any_eq_true.2 ⟨node, hnode, by simp [htext, hlayout]⟩
    simp [staysBeside, htext, hlayout, hblank]
  | false =>
    have hcontent : s.hasText := List.any_eq_true.2 ⟨node, hnode, by simp [htext, hlayout]⟩
    simp [staysBeside, hlayout, hcontent]

theorem Element.Repeatable.counterpart?_eq {e : Element} (h : e.Repeatable) {below : List Sibling}
    (hkeys : below.map Sibling.key = e.siblings.elements.map Sibling.key) {d : Sibling}
    (hd : d ∈ e.siblings.elements) : counterpart? below e.siblings.elements d.key = some d := by
  refine counterpart?_of_same_keys hkeys ?_ (fun s hs hid => ?_) hd
  · rw [e.map_key_siblings]
    exact h.keys
  · have halone := h.alone s.element (e.map_element_siblings ▸ List.mem_map_of_mem hs) hid
    rw [← e.map_element_siblings, List.countP_map] at halone
    exact halone

/-- Each sibling below is merged with the one in its place. -/
theorem collect_recessiveSteps_of_arranged {below above : List Sibling}
    (hsame : below.map Sibling.arranged = above.map Sibling.arranged)
    (hpair : ∀ d ∈ above, counterpart? below above d.key = some d)
    (hmerge : ∀ d ∈ above, ∀ lower : Element, lower.arranged = d.element.arranged →
      merge (some lower) d.element = .ok (some d.element.arranged))
    {s : Sibling} (hs : s ∈ below) :
    collect (Step.run merge) (s.recessiveSteps below above) = .ok s.arranged.nodes := by
  obtain ⟨d, hd, hkey, hleading, helement⟩ := Sibling.exists_of_map_arranged hsame hs
  refine (collect_recessiveSteps_of_some (hkey ▸ hpair d hd)).2
    ⟨_, hmerge d hd s.element helement.symm, ?_⟩
  rw [hleading, ite_self, helement]
  rfl

theorem collect_siblingSteps_of_arranged {below above : Siblings}
    (hsame : below.arranged = above.arranged)
    (hpair : ∀ d ∈ above.elements, counterpart? below.elements above.elements d.key = some d)
    (hmerge : ∀ d ∈ above.elements, ∀ lower : Element, lower.arranged = d.element.arranged →
      merge (some lower) d.element = .ok (some d.element.arranged))
    (htexts : ∀ node ∈ above.stray, node.isText) :
    collect (Step.run merge) (siblingSteps below above below.elements) =
      .ok above.arranged.nodes := by
  obtain ⟨helements, hstray⟩ := Siblings.mk.inj hsame
  have hfirst := collect_eq_ok fun (s : Sibling) (hs : s ∈ below.elements) =>
    collect_recessiveSteps_of_arranged helements hpair hmerge hs
  have hsecond := collect_eq_ok fun (d : Sibling) (hd : d ∈ above.elements) =>
    collect_dominantSteps_of_some (hpair d hd)
  refine collect_siblingSteps_eq_ok.2 ⟨_, _, hfirst, hsecond, ?_⟩
  rw [hstray, Siblings.stays_beside_itself htexts, ← List.flatMap_map, helements]
  simp [Siblings.nodes, Siblings.arranged]

/-- A layer laid over a tree that is the same in the new order puts it into that order, and does
nothing else. -/
theorem merge_of_arranged_eq {layer : Element} (h : layer.Throughout Element.Repeatable)
    {below : Element} (hsame : below.arranged = layer.arranged) :
    merge (some below) layer = .ok (some layer.arranged) := by
  induction h generalizing below with
  | @mk layer hhere hchildren ih =>
    have hattrs : below.attrs = layer.attrs := by
      rw [← below.attrs_arranged, hsame, layer.attrs_arranged]
    have hsiblings : below.siblings.arranged = layer.siblings.arranged := by
      rw [← below.siblings_arranged, hsame, layer.siblings_arranged]
    have helements : below.siblings.elements.map Sibling.arranged =
        layer.siblings.elements.map Sibling.arranged := congrArg Siblings.elements hsiblings
    have hplain : below.attrs.Plain := hattrs ▸ hhere.attrs
    have hkept : retained layer.siblings.elements below.siblings.elements =
        .ok below.siblings.elements := by
      refine retained_eq (fun s hs => ?_) _
      obtain ⟨d, hd, -, -, helement⟩ := Sibling.exists_of_map_arranged helements hs
      rw [← s.element.attrs_arranged, ← helement, d.element.attrs_arranged]
      exact (hchildren d.element (Siblings.element_mem_of_mem hd)).here.attrs
    have hnodes := collect_siblingSteps_of_arranged hsiblings
      (fun d hd => hhere.counterpart?_eq (Sibling.map_key_of_map_arranged helements) hd)
      (fun d hd lower => ih d.element (Siblings.element_mem_of_mem hd))
      (fun node hnode => isText_of_mem_strays hhere.comments (layer.stray_siblings ▸ hnode))
    have hmerged : mergedAttributes (some below) layer none = layer.attrs := by
      rw [@mergedAttributes_eq (some below) layer hplain hhere.attrs]
      exact (congrArg (·.overlay layer.attrs) hattrs).trans
        (Attributes.overlay_self hhere.attrs.unique)
    refine (merge_of_undeclared (by simpa using Element.undeclared_of_plain hplain)
      (Element.undeclared_of_plain hhere.attrs)).2 ⟨_, _, hkept, hnodes, ?_⟩
    rw [hmerged, layer.arranged_eq_nodes]

theorem pushAll_replicate {layer : Element} (h : layer.Throughout Element.Repeatable) (n : Nat) :
    Layers.empty.pushAll (List.replicate (n + 2) layer) = .ok ⟨some layer.arranged, n + 2⟩ := by
  induction n with
  | zero =>
    have hfirst : Layers.empty.push layer = .ok ⟨some layer, 1⟩ := rfl
    exact (Layers.pushAll_cons hfirst).trans
      (Layers.pushAll_cons (Layers.push_eq rfl (merge_of_arranged_eq h rfl)))
  | succ n ih =>
    rw [List.replicate_succ']
    exact Layers.pushAll_snoc ih
      (Layers.push_eq rfl (merge_of_arranged_eq h layer.arranged_arranged))

/-- A layer that is laid over itself comes back in the new order, and laid over that once more it
changes nothing. So in a run it makes no difference how often it is repeated. -/
theorem reapplying_changes_nothing {layer : Element} (h : layer.Throughout Element.Repeatable) :
    merge (some layer) layer = .ok (some layer.arranged) ∧
    merge (some layer.arranged) layer = .ok (some layer.arranged) ∧
    ∀ n, 2 ≤ n →
      Layers.empty.pushAll (List.replicate n layer) = .ok ⟨some layer.arranged, n⟩ ∧
      mergeLayers (List.replicate n layer) = .ok layer.arranged := by
  refine ⟨merge_of_arranged_eq h rfl, merge_of_arranged_eq h layer.arranged_arranged,
    fun n hn => ?_⟩
  obtain ⟨n, rfl⟩ := Nat.exists_eq_add_of_le' hn
  have hrun := pushAll_replicate h n
  have hplain : layer.arranged.Throughout (·.attrs.Plain) :=
    (h.imp fun _ he => he.attrs).arranged fun e he => e.attrs_arranged ▸ he
  refine ⟨hrun, ?_⟩
  rw [mergeLayers, hrun]
  exact Element.sweep_of_plain hplain

def scatteredLayer : Element :=
  ⟨"config", ⟨[("mode", "live")]⟩, [
    .text "intro", .text "\n  ",
    .element ⟨"pool", ⟨[("id", "a")]⟩, [
      .text "8", .comment "users", .element ⟨"user", .empty, []⟩, .text " "]⟩,
    .text "\n", .comment "spare", .text "\n",
    .element ⟨"pool", ⟨[("id", "b")]⟩, []⟩,
    .text "outro", .element ⟨"cache", .empty, []⟩, .text "\n"]⟩

def scatteredArranged : Element :=
  ⟨"config", ⟨[("mode", "live")]⟩, [
    .text "\n  ",
    .element ⟨"pool", ⟨[("id", "a")]⟩, [
      .comment "users", .element ⟨"user", .empty, []⟩, .text "8", .text " "]⟩,
    .text "\n", .comment "spare", .text "\n",
    .element ⟨"pool", ⟨[("id", "b")]⟩, []⟩,
    .element ⟨"cache", .empty, []⟩, .text "intro", .text "outro", .text "\n"]⟩

theorem reapplying_changes_nothing_scattered :
    merge (some scatteredLayer) scatteredLayer = .ok (some scatteredArranged) ∧
    merge (some scatteredArranged) scatteredLayer = .ok (some scatteredArranged) ∧
    mergeLayers (List.replicate 5 scatteredLayer) = .ok scatteredArranged := by
  have harranged : scatteredLayer.arranged = scatteredArranged := by decide +kernel
  have hrepeatable : scatteredLayer.Throughout Element.Repeatable := by decide +kernel
  obtain ⟨htwice, hagain, hrun⟩ := reapplying_changes_nothing hrepeatable
  rw [harranged] at htwice hagain hrun
  exact ⟨htwice, hagain, (hrun 5 (by omega)).2⟩

end ConfigOverlay
