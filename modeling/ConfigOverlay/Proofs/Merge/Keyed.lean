import ConfigOverlay.Proofs.Merge.Overlay
import ConfigOverlay.Proofs.Merge.Rules
import ConfigOverlay.Proofs.Tree.Throughout
import Mathlib.Data.Set.Insert

set_option autoImplicit false

namespace ConfigOverlay

/-- No name stands twice, and no policy is declared. -/
structure Attributes.Plain (attrs : Attributes) : Prop where
  unique : attrs.Unique
  noSelfPolicy : SelfPolicy.attributeName ∉ attrs.names
  noChildrenPolicy : ChildrenPolicy.attributeName ∉ attrs.names

instance : DecidablePred Attributes.Plain := fun attrs =>
  decidable_of_iff (attrs.names.Nodup ∧ SelfPolicy.attributeName ∉ attrs.names ∧
    ChildrenPolicy.attributeName ∉ attrs.names)
    ⟨fun h => ⟨h.1, h.2.1, h.2.2⟩, fun h => ⟨h.unique, h.noSelfPolicy, h.noChildrenPolicy⟩⟩

theorem Attributes.plain_empty : Attributes.empty.Plain :=
  ⟨List.nodup_nil, List.not_mem_nil, List.not_mem_nil⟩

theorem Attributes.Plain.overlay {a b : Attributes} (ha : a.Plain) (hb : b.Plain) :
    (a.overlay b).Plain where
  unique := unique_overlay ha.unique
  noSelfPolicy := by simp [names_overlay hb.unique, ha.noSelfPolicy, hb.noSelfPolicy]
  noChildrenPolicy := by simp [names_overlay hb.unique, ha.noChildrenPolicy, hb.noChildrenPolicy]

/-- The attributes are plain. Siblings have different keys, and the tags of those without id are
these; so a child with such a tag is the only one that has it. -/
structure Element.KeyedHere (tags : Set String) (e : Element) : Prop where
  attrs : e.attrs.Plain
  keys : (e.elements.map Element.key).Nodup
  withoutId : ∀ child ∈ e.elements, child.id? = none ↔ child.tag ∈ tags

instance (tags : Set String) [DecidablePred (· ∈ tags)] : DecidablePred (Element.KeyedHere tags) :=
  fun e =>
    decidable_of_iff (e.attrs.Plain ∧ (e.elements.map Element.key).Nodup ∧
      ∀ child ∈ e.elements, child.id? = none ↔ child.tag ∈ tags)
      ⟨fun h => ⟨h.1, h.2.1, h.2.2⟩, fun h => ⟨h.attrs, h.keys, h.withoutId⟩⟩

abbrev Element.Keyed (tags : Set String) (e : Element) : Prop := e.Throughout (KeyedHere tags)

structure KeyedSiblings (tags : Set String) (siblings : List Sibling) : Prop where
  keys : (siblings.map Sibling.key).Nodup
  withoutId : ∀ key ∈ siblings.map Sibling.key, key.id = none ↔ key.tag ∈ tags
  keyed : ∀ s ∈ siblings, s.element.Keyed tags

variable {tags : Set String}

theorem keyed_some {e : Element} (h : e.Keyed tags) : ∀ x ∈ some e, x.Keyed tags := by
  simpa using h

theorem Element.map_key_siblings (e : Element) :
    e.siblings.elements.map Sibling.key = e.elements.map Element.key := by
  rw [← e.map_element_siblings, List.map_map]
  rfl

theorem Element.exists_sibling {e child : Element} (h : .element child ∈ e.children) :
    ∃ s ∈ e.siblings.elements, s.element = child := by
  have hmem : child ∈ e.siblings.elements.map Sibling.element := by
    rw [e.map_element_siblings]
    exact Element.mem_elements_iff.2 h
  exact List.mem_map.1 hmem

theorem Element.keyed_iff {e : Element} :
    e.Keyed tags ↔ e.attrs.Plain ∧ KeyedSiblings tags e.siblings.elements := by
  have hwithoutId : (∀ key ∈ e.elements.map Element.key, key.id = none ↔ key.tag ∈ tags) ↔
      ∀ child ∈ e.elements, child.id? = none ↔ child.tag ∈ tags := by
    simp [Element.key]
  constructor
  · intro h
    refine ⟨h.here.attrs, ?_, ?_, ?_⟩
    · rw [e.map_key_siblings]
      exact h.here.keys
    · rw [e.map_key_siblings, hwithoutId]
      exact h.here.withoutId
    · exact fun s hs => h.child (Siblings.element_mem_of_mem hs)
  · rintro ⟨hattrs, hkeys, hid, hkeyed⟩
    rw [e.map_key_siblings] at hkeys hid
    refine .mk ⟨hattrs, hkeys, hwithoutId.1 hid⟩ fun child hchild => ?_
    obtain ⟨s, hs, rfl⟩ := Element.exists_sibling hchild
    exact hkeyed s hs

theorem Element.Throughout.keyedSiblings {e : Element} (h : e.Keyed tags) :
    KeyedSiblings tags e.siblings.elements :=
  (Element.keyed_iff.1 h).2

section

variable {e : Option Element} (h : ∀ lower ∈ e, lower.Keyed tags)

include h

theorem keyedSiblings_siblingsOf : KeyedSiblings tags (siblingsOf e).elements := by
  cases e with
  | none => exact ⟨List.nodup_nil, by simp [siblingsOf, Siblings.empty],
      by simp [siblingsOf, Siblings.empty]⟩
  | some e => exact (h e rfl).keyedSiblings

theorem plain_attrsOf : (attrsOf e).Plain := by
  cases e with
  | none => exact Attributes.plain_empty
  | some e => exact (h e rfl).here.attrs

end

namespace KeyedSiblings

variable {below above : List Sibling}

theorem unique (h : KeyedSiblings tags above) : ∀ d ∈ above, d.element.attrs.Unique :=
  fun d hd => (h.keyed d hd).here.attrs.unique

theorem overlaid (hbelow : KeyedSiblings tags below) (habove : KeyedSiblings tags above)
    (h : ∀ d ∈ above, ∀ lower : Option Element, (∀ e ∈ lower, e.Keyed tags) →
      (d.element.onto lower).Keyed tags) :
    KeyedSiblings tags (Sibling.overlaid Element.onto below above) where
  keys := Sibling.nodup_overlaid habove.unique hbelow.keys habove.keys
  withoutId := by
    rw [Sibling.keys_overlaid habove.unique]
    intro key hkey
    rcases List.mem_append.1 hkey with hmem | hmem
    · exact hbelow.withoutId key hmem
    · exact habove.withoutId key (List.mem_filter.1 hmem).1
  keyed := by
    intro sibling hsibling
    rcases List.mem_append.1 hsibling with hmem | hmem
    · obtain ⟨s, hs, rfl⟩ := List.mem_map.1 hmem
      have hlower := hbelow.keyed s hs
      rw [Sibling.under]
      cases hfind : above.find? (·.key = s.key) with
      | none => exact hlower
      | some d => exact h d (List.mem_of_find?_eq_some hfind) _ (keyed_some hlower)
    · obtain ⟨d, hd, rfl⟩ := List.mem_map.1 hmem
      exact h d (List.mem_filter.1 hd).1 none (by simp)

end KeyedSiblings

theorem Element.siblings_onto (below : Option Element) (e : Element) :
    (e.onto below).siblings = Siblings.overlaid Element.onto (siblingsOf below) e.siblings :=
  siblingsOf_onto? below (some e)

theorem Element.attrs_onto (below : Option Element) (e : Element) :
    (e.onto below).attrs = (attrsOf below).overlay e.attrs :=
  attrsOf_onto? below (some e)

/-- Laying one such tree over another gives one again. -/
theorem Element.keyed_onto {e : Element} (h : e.Keyed tags) {below : Option Element}
    (hbelow : ∀ lower ∈ below, lower.Keyed tags) : (e.onto below).Keyed tags := by
  induction h generalizing below with
  | @mk e hhere hchildren ih =>
    have hsiblings := (Element.Throughout.mk hhere hchildren).keyedSiblings
    rw [Element.keyed_iff, attrs_onto, siblings_onto]
    refine ⟨(plain_attrsOf hbelow).overlay hhere.attrs, ?_⟩
    refine (keyedSiblings_siblingsOf hbelow).overlaid hsiblings fun d hd lower hlower => ?_
    exact ih d.element (Siblings.element_mem_of_mem hd) hlower

theorem Sibling.countP_key (siblings : List Sibling) (key : Key) :
    siblings.countP (·.key = key) = (siblings.map Sibling.key).count key := by
  rw [List.count, List.countP_map]
  rfl

namespace KeyedSiblings

variable {below above : List Sibling}

theorem countP_key (h : KeyedSiblings tags above) (key : Key) :
    above.countP (·.key = key) = if key ∈ above.map Sibling.key then 1 else 0 := by
  rw [Sibling.countP_key]
  split
  · next hmem => exact List.count_eq_one_of_mem h.keys hmem
  · next hmem => exact List.count_eq_zero_of_not_mem hmem

theorem countP_tag (h : KeyedSiblings tags above) {key : Key} (hmem : key ∈ above.map Sibling.key)
    (hid : key.id = none) :
    above.countP (·.element.tag = key.tag) = above.countP (·.key = key) := by
  refine List.countP_congr fun s hs => ?_
  have hskey := h.withoutId s.key (List.mem_map_of_mem hs)
  have hkey := h.withoutId key hmem
  obtain ⟨tag, id⟩ := key
  simp only [decide_eq_true_eq, Sibling.key, Element.key, Key.mk.injEq] at hskey hkey hid ⊢
  constructor
  · rintro rfl
    exact ⟨rfl, by rw [hid, hskey.2 (hkey.1 hid)]⟩
  · exact And.left

theorem counterpart?_eq (hbelow : KeyedSiblings tags below) (habove : KeyedSiblings tags above)
    (key : Key) : counterpart? below above key =
      if key ∈ below.map Sibling.key then above.find? (·.key = key) else none := by
  rw [counterpart?, hbelow.countP_key, habove.countP_key]
  by_cases hb : key ∈ below.map Sibling.key
  · by_cases ha : key ∈ above.map Sibling.key
    · simp only [hb, ha, if_true, true_and]
      refine if_pos fun hid => ⟨?_, ?_⟩
      · rw [hbelow.countP_tag hb hid, hbelow.countP_key, if_pos hb]
      · rw [habove.countP_tag ha hid, habove.countP_key, if_pos ha]
    · rw [if_pos hb, Sibling.find?_eq_none_iff.2 ha]
      simp [ha]
  · simp [hb]

end KeyedSiblings

theorem Element.declared_eq_none {α : Type} {e : Element} {name : String}
    (h : name ∉ e.attrs.names) (ofText? : String → Option α) :
    e.declared name ofText? = .ok none := by
  rw [declared, Attributes.get?_eq_none_iff.2 h]

theorem retained_eq {below : List Sibling} (h : ∀ s ∈ below, s.element.attrs.Plain)
    (above : List Sibling) : retained above below = .ok below := by
  induction below with
  | nil => rfl
  | cons s rest ih =>
    have hrest := ih fun other hother => h other (List.mem_cons_of_mem s hother)
    have hself := Element.declared_eq_none (h s List.mem_cons_self).noSelfPolicy SelfPolicy.ofText?
    rw [retained, Element.selfPolicy, hself, hrest]
    rfl

theorem mergedAttributes_eq {below : Option Element} {e : Element} (hbelow : (attrsOf below).Plain)
    (h : e.attrs.Plain) :
    mergedAttributes below e none = (attrsOf below).overlay e.attrs := by
  have hcopy : ((below.map fun e => Attributes.empty.overlay e.attrs).getD .empty) =
      attrsOf below := by
    cases below with
    | none => rfl
    | some lower => exact Attributes.empty_overlay hbelow.unique
  rw [mergedAttributes, hcopy]
  refine Attributes.erase_of_get?_eq_none (Attributes.get?_eq_none_iff.2 ?_)
  exact (hbelow.overlay h).noSelfPolicy

theorem openPair_of_keyed {below : Option Element} (hbelow : ∀ lower ∈ below, lower.Keyed tags)
    {e : Element} (h : e.Keyed tags) :
    openPair below e = .ok (.pending ⟨e.tag, (attrsOf below).overlay e.attrs, []⟩
      (siblingSteps (siblingsOf below) e.siblings (siblingsOf below).elements)) := by
  have hplain := h.here.attrs
  have habove : e.selfPolicy = .ok none := Element.declared_eq_none hplain.noSelfPolicy _
  have habove' : e.childrenPolicy = .ok none := Element.declared_eq_none hplain.noChildrenPolicy _
  have hself : declaredBy Element.selfPolicy below = .ok none := by
    cases below with
    | none => rfl
    | some lower => exact Element.declared_eq_none (hbelow lower rfl).here.attrs.noSelfPolicy _
  have hchildren : declaredBy Element.childrenPolicy below = .ok none := by
    cases below with
    | none => rfl
    | some lower => exact Element.declared_eq_none (hbelow lower rfl).here.attrs.noChildrenPolicy _
  have hretained : retained (Siblings.ofNodes e.children).elements (siblingsOf below).elements =
      .ok (siblingsOf below).elements :=
    retained_eq (fun s hs => ((keyedSiblings_siblingsOf hbelow).keyed s hs).here.attrs) _
  have hplan : planMerged below e =
      .ok (siblingSteps (siblingsOf below) e.siblings (siblingsOf below).elements) := by
    have hbelow : (below.map fun e => Siblings.ofNodes e.children).getD .empty =
        siblingsOf below := rfl
    simp only [planMerged, hbelow, hretained]
    rfl
  simp [openPair, habove, hself, openMerged, pairChildrenPolicy, habove', hchildren,
    ChildrenPolicy.plan, hplan, resultingPolicy,
    mergedAttributes_eq (plain_attrsOf hbelow) hplain, ChildrenPolicy.start]

theorem collect_eq_ok {α β ε : Type} {f : α → Except ε (List β)} {g : α → List β} {l : List α}
    (h : ∀ a ∈ l, f a = .ok (g a)) : collect f l = .ok (l.flatMap g) := by
  induction l with
  | nil => rfl
  | cons a l ih =>
    rw [collect, h a List.mem_cons_self, ih fun b hb => h b (List.mem_cons_of_mem a hb)]
    rfl

theorem flatMap_filter {α β : Type} (p : α → Bool) (f : α → List β) (l : List α) :
    (l.filter p).flatMap f = l.flatMap fun a => if p a then f a else [] := by
  induction l with
  | nil => rfl
  | cons a l ih => by_cases h : p a <;> simp [h, ih]

section

variable {below above : List Sibling} (hbelow : KeyedSiblings tags below)
  (habove : KeyedSiblings tags above)
  (hmerge : ∀ d ∈ above, ∀ lower : Option Element, (∀ e ∈ lower, e.Keyed tags) →
    merge lower d.element = .ok (some (d.element.onto lower)))

include hbelow habove hmerge

theorem collect_recessiveSteps_eq {s : Sibling} (hs : s ∈ below) :
    collect (Step.run merge) (s.recessiveSteps below above) =
      .ok (s.under Element.onto above).nodes := by
  rw [Sibling.recessiveSteps, hbelow.counterpart?_eq habove, if_pos (List.mem_map_of_mem hs),
    Sibling.under]
  cases hfind : above.find? (·.key = s.key) with
  | none =>
    have hcopy := Rules.collect_copy merge s.nodes
    rwa [Sibling.nodes, List.map_append] at hcopy
  | some d =>
    have hlaid := hmerge d (List.mem_of_find?_eq_some hfind) (some s.element)
      (keyed_some (hbelow.keyed s hs))
    simp only [Rules.collect_singleton, Step.run, hlaid]
    rfl

theorem collect_dominantSteps_eq {d : Sibling} (hd : d ∈ above) :
    collect (Step.run merge) (d.dominantSteps below above) =
      .ok (if d.key ∉ below.map Sibling.key then (d.onto Element.onto none).nodes else []) := by
  rw [Sibling.dominantSteps, hbelow.counterpart?_eq habove, Sibling.find?_key habove.keys hd]
  by_cases hkey : d.key ∈ below.map Sibling.key
  · rw [if_pos hkey, if_neg (not_not.2 hkey)]
    rfl
  · have hlaid := hmerge d hd none (by simp)
    have hleading : (d.onto Element.onto none).leading = d.leading := by
      rw [Sibling.onto]
      split
      · next hempty => exact (List.isEmpty_iff.1 hempty).symm
      · rfl
    rw [if_neg hkey, if_pos hkey, Sibling.nodes, hleading]
    simp only [Rules.collect_singleton, Step.run, hlaid]
    rfl

theorem collect_siblingSteps_eq (stray stray' : List Node) :
    collect (Step.run merge) (siblingSteps ⟨below, stray⟩ ⟨above, stray'⟩ below) =
      .ok (Siblings.overlaid Element.onto ⟨below, stray⟩ ⟨above, stray'⟩).nodes := by
  have hfirst := collect_eq_ok fun s hs => collect_recessiveSteps_eq hbelow habove hmerge hs
  have hsecond := collect_eq_ok fun d hd => collect_dominantSteps_eq hbelow habove hmerge hd
  rw [siblingSteps, collect_append, collect_append, collect_append, collect_flatMap,
    collect_flatMap, hfirst, hsecond, Rules.collect_copy, Rules.collect_copy]
  simp only [bind, Except.bind, pure, Except.pure, Siblings.overlaid, Sibling.overlaid,
    Siblings.nodes, List.flatMap_append, List.flatMap_map, flatMap_filter, decide_eq_true_eq,
    List.append_assoc]

end

/-- Merging trees of this kind lays them over each other. -/
theorem merge_eq_onto {e : Element} (h : e.Keyed tags) {below : Option Element}
    (hbelow : ∀ lower ∈ below, lower.Keyed tags) : merge below e = .ok (some (e.onto below)) := by
  induction h generalizing below with
  | @mk e hhere hchildren ih =>
    have hkeyed : e.Keyed tags := .mk hhere hchildren
    have hnodes := collect_siblingSteps_eq (keyedSiblings_siblingsOf hbelow) hkeyed.keyedSiblings
      (fun d hd lower hlower => ih d.element (Siblings.element_mem_of_mem hd) hlower)
      (siblingsOf below).stray e.siblings.stray
    rw [merge_eq, mergeWith, openPair_of_keyed hbelow hkeyed, Element.onto_eq]
    simp only [hnodes, List.nil_append]

end ConfigOverlay
