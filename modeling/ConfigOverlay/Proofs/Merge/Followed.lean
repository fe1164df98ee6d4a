import ConfigOverlay.Proofs.Merge.Runs
import ConfigOverlay.Proofs.Merge.Steps

/-!
The child of one key, followed through a merge and through the layers of a run. The key has an id,
so only this key decides with what the child is paired. Between two roots that declare nothing it
is laid over the child below, or over nothing, and without a child above the one below stays.
-/

set_option autoImplicit false

namespace ConfigOverlay

variable {key : Key}

def Node.ofKey (key : Key) (nodes : List Node) : List Element :=
  (nodes.filterMap Node.element?).filter (·.key = key)

/-- This child, or none, is all that the element has of the key. -/
def Element.Holds (key : Key) (e : Element) (child : Option Element) : Prop :=
  Node.ofKey key e.children = child.toList

@[simp]
theorem Node.ofKey_nil : ofKey key [] = [] := rfl

theorem Node.ofKey_append (nodes others : List Node) :
    ofKey key (nodes ++ others) = ofKey key nodes ++ ofKey key others := by
  rw [ofKey, List.filterMap_append, List.filter_append]
  rfl

theorem Node.ofKey_of_noElement {nodes : List Node} (h : ∀ node ∈ nodes, node.element? = none) :
    ofKey key nodes = [] := by
  rw [ofKey, List.filterMap_eq_nil_iff.2 h]
  rfl

theorem Node.ofKey_placed {leading : List Node} (h : ∀ node ∈ leading, node.isLayout)
    (result : Option Element) :
    ofKey key (Rules.placed leading result) = result.toList.filter (·.key = key) := by
  cases result with
  | none => rfl
  | some e =>
    rw [Rules.placed, ofKey_append, ofKey_of_noElement fun node hnode =>
      Node.element?_of_isLayout (h node hnode)]
    rfl

namespace Element.Holds

variable {e : Element} {child other : Option Element}

theorem unique (h : e.Holds key child) (hother : e.Holds key other) : child = other := by
  have hlist : child.toList = other.toList := h.symm.trans hother
  cases child <;> cases other <;> simp_all

theorem mem_iff (h : e.Holds key child) {x : Element} :
    x ∈ child ↔ x ∈ e.elements ∧ x.key = key := by
  rw [Option.mem_def, ← Option.mem_toList, ← h, Node.ofKey, List.mem_filter, decide_eq_true_eq]
  rfl

theorem eq_of_mem {x y : Element} (h : e.Holds key (some y)) (hx : x ∈ e.elements)
    (hkey : x.key = key) : x = y :=
  (Option.mem_some.1 (h.mem_iff.2 ⟨hx, hkey⟩)).symm

theorem siblings (h : e.Holds key child) : ∃ s : Option Sibling,
    e.siblings.elements.filter (·.key = key) = s.toList ∧ s.map Sibling.element = child := by
  have hmap : (e.siblings.elements.filter (·.key = key)).map Sibling.element = child.toList := by
    have hfilter : e.elements.filter (·.key = key) = child.toList := h
    rw [← hfilter, ← e.map_element_siblings, List.filter_map]
    rfl
  cases child with
  | none => exact ⟨none, List.map_eq_nil_iff.1 hmap, rfl⟩
  | some x =>
    obtain ⟨s, hs, hx⟩ := List.map_eq_singleton_iff.1 hmap
    exact ⟨some s, hs, congrArg some hx⟩

end Element.Holds

theorem Element.holds_none_iff {e : Element} :
    e.Holds key none ↔ ∀ x ∈ e.elements, x.key ≠ key := by
  simp [Holds, Node.ofKey, List.filter_eq_nil_iff, elements]

theorem Element.exists_holds_iff {e : Element} :
    (∃ child, e.Holds key child) ↔ e.elements.countP (·.key = key) ≤ 1 := by
  have hlength : e.elements.countP (·.key = key) = (Node.ofKey key e.children).length :=
    List.countP_eq_length_filter
  rw [hlength]
  constructor
  · rintro ⟨child, hchild⟩
    rw [hchild]
    exact Option.length_toList_le
  · intro h
    refine ⟨(Node.ofKey key e.children).head?, ?_⟩
    rw [Holds]
    match hchildren : Node.ofKey key e.children, h with
    | [], _ => rfl
    | [x], _ => rfl

/-- A layer in which the key can be followed. The root declares nothing, names of attributes are
unique in every element, and there is at most one child of the key. -/
structure Element.Traceable (key : Key) (e : Element) : Prop where
  undeclared : e.Undeclared
  unique : e.Throughout (·.attrs.Unique)
  once : e.elements.countP (·.key = key) ≤ 1

instance (key : Key) : DecidablePred (Element.Traceable key) := fun e =>
  decidable_of_iff (e.Undeclared ∧ e.Throughout (·.attrs.Unique) ∧
    e.elements.countP (·.key = key) ≤ 1)
    ⟨fun h => ⟨h.1, h.2.1, h.2.2⟩, fun h => ⟨h.undeclared, h.unique, h.once⟩⟩

namespace Element.Traceable

variable {e : Element}

theorem plain (h : e.Traceable key) : e.attrs.Plain :=
  ⟨h.unique.here, Attributes.get?_eq_none_iff.1 h.undeclared.noSelfPolicy,
    Attributes.get?_eq_none_iff.1 h.undeclared.noChildrenPolicy⟩

theorem unique_children (h : e.Traceable key) : ∀ child ∈ e.elements, child.attrs.Unique :=
  fun _ hchild => (h.unique.child (mem_elements_iff.1 hchild)).here

theorem exists_holds (h : e.Traceable key) : ∃ child, e.Holds key child :=
  exists_holds_iff.2 h.once

theorem holds (h : e.Traceable key) {x : Element} (hx : x ∈ e.elements) (hkey : x.key = key) :
    e.Holds key (some x) := by
  obtain ⟨child, hchild⟩ := h.exists_holds
  rwa [Option.mem_def.1 (hchild.mem_iff.2 ⟨hx, hkey⟩)] at hchild

end Element.Traceable

def Element.retains (above e : Element) : Bool :=
  ¬ (e.Declares .overridableByTag ∧ ∃ other ∈ above.elements, other.tag = e.tag)

theorem Element.filter_retains {above : Element} {lower : Option Element}
    (h : ∀ e ∈ lower, ¬ e.Declares .overridableByTag) : lower.filter above.retains = lower := by
  cases lower with
  | none => rfl
  | some e => simp [Option.filter, retains, h e rfl]

theorem retained_eq_filter {above : Element} {recessives kept : List Sibling}
    (h : retained above.siblings.elements recessives = .ok kept) :
    kept = recessives.filter fun s => above.retains s.element := by
  rw [retained_eq_ok h]
  refine List.filter_congr fun s _ => ?_
  rw [Element.retains, ← above.map_element_siblings]
  simp

theorem key_of_counterpart? {below above : List Sibling} {d : Sibling}
    (h : counterpart? below above key = some d) : d.key = key := by
  rw [counterpart?] at h
  split at h
  · have hkey := List.find?_some h
    exact of_decide_eq_true hkey
  · simp at h

/-- With an id, the key alone decides about the counterpart. -/
theorem counterpart?_of_id {below above : List Sibling} {s d : Option Sibling} (hid : key.id ≠ none)
    (hbelow : below.filter (·.key = key) = s.toList)
    (habove : above.filter (·.key = key) = d.toList) :
    counterpart? below above key = s.bind fun _ => d := by
  have hfind : above.find? (·.key = key) = d := by
    rw [← List.head?_filter, habove, Option.head?_toList]
  rw [counterpart?, List.countP_eq_length_filter, List.countP_eq_length_filter, hbelow, habove,
    hfind]
  cases s <;> cases d <;> simp [hid]

section

variable {below above : List Sibling} {s d : Sibling} {part : List Node}

theorem ofKey_of_recessiveSteps (key : Key) (hs : ∀ node ∈ s.leading, node.isLayout)
    (habove : ∀ d ∈ above, ∀ node ∈ d.leading, node.isLayout)
    (hunique : ∀ d ∈ above, d.element.attrs.Unique)
    (h : collect (Step.run merge) (s.recessiveSteps below above) = .ok part) :
    match counterpart? below above s.key with
    | none => Node.ofKey key part = [s.element].filter (·.key = key)
    | some d => ∃ result, merge (some s.element) d.element = .ok result ∧
        Node.ofKey key part = if s.key = key then result.toList else [] := by
  cases hfind : counterpart? below above s.key with
  | none =>
    cases h.symm.trans (collect_recessiveSteps_of_none hfind)
    exact Node.ofKey_placed hs (some s.element)
  | some d =>
    have hd := counterpart?_mem hfind
    have hkey : d.element.key = s.key := key_of_counterpart? hfind
    obtain ⟨result, hresult, rfl⟩ := (collect_recessiveSteps_of_some hfind).1 h
    refine ⟨result, hresult, ?_⟩
    rw [Node.ofKey_placed fun node hnode => by
      split at hnode
      · exact hs node hnode
      · exact habove d hd node hnode]
    cases result with
    | none => simp
    | some e =>
      have he : e.key = s.key := (key_of_merge (hunique d hd)
        (by rintro lower ⟨⟩; exact hkey.symm) hresult).trans hkey
      simp [List.filter_cons, he]

theorem ofKey_of_dominantSteps (key : Key) (hd : ∀ node ∈ d.leading, node.isLayout)
    (hunique : d.element.attrs.Unique)
    (h : collect (Step.run merge) (d.dominantSteps below above) = .ok part) :
    match counterpart? below above d.key with
    | some _ => Node.ofKey key part = []
    | none => ∃ result, merge none d.element = .ok result ∧
        Node.ofKey key part = if d.key = key then result.toList else [] := by
  cases hfind : counterpart? below above d.key with
  | some other =>
    cases h.symm.trans (collect_dominantSteps_of_some hfind)
    rfl
  | none =>
    obtain ⟨result, hresult, rfl⟩ := (collect_dominantSteps_of_none hfind).1 h
    refine ⟨result, hresult, ?_⟩
    rw [Node.ofKey_placed hd]
    cases result with
    | none => simp
    | some e =>
      have he : e.key = d.key := key_of_merge hunique (by simp) hresult
      simp [List.filter_cons, he]

end

section

variable {below above : Siblings} {kept : List Sibling} {nodes : List Node}

theorem ofKey_of_siblingSteps (key : Key) (hbelow : below.Grouped) (habove : above.Grouped)
    (hunique : ∀ d ∈ above.elements, d.element.attrs.Unique)
    (hkept : ∀ s ∈ kept, s ∈ below.elements)
    (h : collect (Step.run merge) (siblingSteps below above kept) = .ok nodes) :
    ∃ first second,
      collect (fun s => collect (Step.run merge) (s.recessiveSteps kept above.elements))
        (kept.filter (·.key = key)) = .ok first ∧
      collect (fun d => collect (Step.run merge) (d.dominantSteps kept above.elements))
        (above.elements.filter (·.key = key)) = .ok second ∧
      Node.ofKey key nodes = Node.ofKey key first ++ Node.ofKey key second := by
  obtain ⟨first, second, hfirst, hsecond, rfl⟩ := collect_siblingSteps_eq_ok.1 h
  have hothers : ∀ s ∈ kept, decide (s.key = key) = false → ∀ part,
      collect (Step.run merge) (s.recessiveSteps kept above.elements) = .ok part →
      Node.ofKey key part = [] := fun s hs hother part hpart => by
    have hgives := ofKey_of_recessiveSteps key (hbelow.leading s (hkept s hs))
      habove.leading hunique hpart
    have hne : s.key ≠ key := of_decide_eq_false hother
    cases hfind : counterpart? kept above.elements s.key with
    | none =>
      simp only [hfind] at hgives
      rw [hgives]
      exact List.filter_eq_nil_iff.2 (by simpa [Sibling.key] using hne)
    | some d =>
      simp only [hfind, if_neg hne] at hgives
      exact hgives.choose_spec.2
  have hothers' : ∀ d ∈ above.elements, decide (d.key = key) = false → ∀ part,
      collect (Step.run merge) (d.dominantSteps kept above.elements) = .ok part →
      Node.ofKey key part = [] := fun d hd hother part hpart => by
    have hgives := ofKey_of_dominantSteps key (habove.leading d hd) (hunique d hd) hpart
    have hne : d.key ≠ key := of_decide_eq_false hother
    cases hfind : counterpart? kept above.elements d.key with
    | some other => simpa only [hfind] using hgives
    | none =>
      simp only [hfind, if_neg hne] at hgives
      exact hgives.choose_spec.2
  obtain ⟨seen, hseen, hview⟩ := collect_filter Node.ofKey_append hothers hfirst
  obtain ⟨seen', hseen', hview'⟩ := collect_filter Node.ofKey_append hothers' hsecond
  refine ⟨seen, seen', hseen, hseen', ?_⟩
  rw [Node.ofKey_append, Node.ofKey_append, Node.ofKey_append, hview, hview',
    Node.ofKey_of_noElement fun node hnode => hbelow.stray node (List.mem_filter.1 hnode).1,
    Node.ofKey_of_noElement habove.stray, List.append_nil, List.append_nil]

/-- Between siblings of which each side has at most one of the key, steps leave what comes of these
two. -/
theorem ofKey_of_pair {s d : Option Sibling} (hid : key.id ≠ none) (hbelow : below.Grouped)
    (habove : above.Grouped) (hunique : ∀ d ∈ above.elements, d.element.attrs.Unique)
    (hkept : ∀ s ∈ kept, s ∈ below.elements) (hs : kept.filter (·.key = key) = s.toList)
    (hd : above.elements.filter (·.key = key) = d.toList)
    (h : collect (Step.run merge) (siblingSteps below above kept) = .ok nodes) :
    match d with
    | none => Node.ofKey key nodes = (s.map Sibling.element).toList
    | some d => ∃ child, merge (s.map Sibling.element) d.element = .ok child ∧
        Node.ofKey key nodes = child.toList := by
  obtain ⟨first, second, hfirst, hsecond, hview⟩ :=
    ofKey_of_siblingSteps key hbelow habove hunique hkept h
  rw [hs] at hfirst
  rw [hd] at hsecond
  have hpair := counterpart?_of_id hid hs hd
  have hskey : ∀ x ∈ s, x ∈ kept ∧ x.key = key := fun x hx => by
    simpa [← hs] using Option.mem_toList.2 hx
  have hdkey : ∀ x ∈ d, x ∈ above.elements ∧ x.key = key := fun x hx => by
    simpa [← hd] using Option.mem_toList.2 hx
  rw [hview]
  cases s with
  | none =>
    cases hfirst
    cases d with
    | none =>
      cases hsecond
      rfl
    | some d =>
      obtain ⟨hmem, rfl⟩ := hdkey d rfl
      rw [Option.toList_some, Rules.collect_singleton] at hsecond
      have hgives := ofKey_of_dominantSteps d.key (habove.leading d hmem)
        (hunique d hmem) hsecond
      simpa [hpair] using hgives
  | some s =>
    obtain ⟨hmem, rfl⟩ := hskey s rfl
    rw [Option.toList_some, Rules.collect_singleton] at hfirst
    have hgives := ofKey_of_recessiveSteps s.key (hbelow.leading s (hkept s hmem))
      habove.leading hunique hfirst
    cases d with
    | none =>
      cases hsecond
      rw [hpair] at hgives
      simpa [Sibling.key] using hgives
    | some d =>
      obtain ⟨hmem', hkey⟩ := hdkey d rfl
      rw [Option.toList_some, Rules.collect_singleton] at hsecond
      have hnone := ofKey_of_dominantSteps s.key (habove.leading d hmem')
        (hunique d hmem') hsecond
      rw [hkey, hpair] at hnone
      rw [hpair] at hgives
      simp only [Option.bind_some] at hnone hgives
      simpa [hnone] using hgives

end

theorem Element.Holds.retained {below above : Element} {lower : Option Element}
    {kept : List Sibling} (h : below.Holds key lower)
    (hkept : retained above.siblings.elements below.siblings.elements = .ok kept) :
    ∃ s : Option Sibling, kept.filter (·.key = key) = s.toList ∧
      s.map Sibling.element = lower.filter above.retains := by
  obtain ⟨s, hs, rfl⟩ := h.siblings
  refine ⟨s.filter fun s => above.retains s.element, ?_, ?_⟩
  · rw [retained_eq_filter hkept, List.filter_comm, hs]
    cases s with
    | none => rfl
    | some s => cases hretains : above.retains s.element <;> simp [Option.filter, hretains]
  · cases s with
    | none => rfl
    | some s => cases hretains : above.retains s.element <;> simp [Option.filter, hretains]

/-- What a layer makes of the child below: it is laid under the child of the layer, or under
nothing, unless it gives way to a child of its tag. -/
def Element.Yields (above : Element) (lower upper child : Option Element) : Prop :=
  match upper with
  | none => child = lower.filter above.retains
  | some d => merge (lower.filter above.retains) d = .ok child

/-- What a merge makes of a root, and of its child of the key. -/
theorem holds_of_merge {below above : Element} {lower upper result : Option Element}
    (hid : key.id ≠ none) (hbelow : below.attrs.Plain) (habove : above.Traceable key)
    (hlower : below.Holds key lower) (hupper : above.Holds key upper)
    (h : merge (some below) above = .ok result) :
    ∃ merged child, result = some merged ∧ merged.attrs.Plain ∧ above.Yields lower upper child ∧
      merged.Holds key child := by
  have hroot := Element.undeclared_of_plain hbelow
  obtain ⟨kept, nodes, hkept, hnodes, rfl⟩ :=
    (merge_of_undeclared (by simpa using hroot) habove.undeclared).1 h
  obtain ⟨s, hs, hkeptlower⟩ := hlower.retained hkept
  obtain ⟨d, hd, rfl⟩ := hupper.siblings
  have hpair := ofKey_of_pair hid (grouped_siblingsOf _) (Siblings.grouped_ofNodes above.children)
    (fun d hd => (habove.unique.child (Siblings.element_mem_of_mem hd)).here)
    (fun s hs => mem_of_mem_retained hkept hs) hs hd hnodes
  have hattrs : (mergedAttributes (some below) above none).Plain := by
    rw [@mergedAttributes_eq (some below) above hbelow habove.plain]
    exact hbelow.overlay habove.plain
  rw [hkeptlower] at hpair
  cases d with
  | none => exact ⟨_, _, rfl, hattrs, rfl, hpair⟩
  | some d =>
    obtain ⟨child, hchild, hholds⟩ := hpair
    exact ⟨_, child, rfl, hattrs, hchild, hholds⟩

namespace Layers

variable {layers next run : Layers} {layer : Element} {rest : List Element}
  {lower upper : Option Element}

structure Holds (key : Key) (layers : Layers) (child : Option Element) : Prop where
  plain : ∀ root ∈ layers.merged, root.attrs.Plain
  holds : ∀ root ∈ layers.merged, root.Holds key child
  started : child ≠ none → layers.merged ≠ none

theorem holds_empty (key : Key) : empty.Holds key none :=
  ⟨by simp [empty], by simp [empty], fun h => absurd rfl h⟩

theorem Holds.of_merged {root : Element} {child : Option Element}
    (hmerged : layers.merged = some root) (hplain : root.attrs.Plain) (h : root.Holds key child) :
    layers.Holds key child where
  plain := by simpa [hmerged] using hplain
  holds := by simpa [hmerged] using h
  started _ := by simp [hmerged]

/-- The first layer is kept as it is, and each later one yields what a merge makes. -/
theorem holds_of_push (hid : key.id ≠ none) (hlayers : layers.Holds key lower)
    (hlayer : layer.Traceable key) (hupper : layer.Holds key upper)
    (h : layers.push layer = .ok next) :
    ∃ child, next.merged ≠ none ∧ next.Holds key child ∧
      (layers.merged = none ∧ child = upper ∨ layer.Yields lower upper child) := by
  rcases push_eq_ok h with ⟨hnone, hnext⟩ | ⟨below, merged, hbelow, hmerge, hnext⟩
  · exact ⟨upper, by simp [hnext], .of_merged hnext hlayer.plain hupper, .inl ⟨hnone, rfl⟩⟩
  · obtain ⟨root, child, heq, hplain, hyields, hholds⟩ := holds_of_merge hid
      (hlayers.plain below hbelow) hlayer (hlayers.holds below hbelow) hupper hmerge
    cases heq
    exact ⟨child, by simp [hnext], .of_merged hnext hplain hholds, .inr hyields⟩

theorem exists_holds_of_pushAll (hid : key.id ≠ none) (hlayers : ∃ child, layers.Holds key child)
    (hrest : ∀ layer ∈ rest, layer.Traceable key) (h : layers.pushAll rest = .ok run) :
    ∃ child, run.Holds key child := by
  refine pushAll_induction (P := fun layers => ∃ child, layers.Holds key child) hlayers ?_ h
  rintro before layer after middle next rfl hmiddle ⟨lower, hlower⟩ hnext
  have hlayer := hrest layer (by simp)
  obtain ⟨upper, hupper⟩ := hlayer.exists_holds
  obtain ⟨child, -, hchild, -⟩ := holds_of_push hid hlower hlayer hupper hnext
  exact ⟨child, hchild⟩

theorem holds_of_pushAll_absent (hid : key.id ≠ none) (hlayers : layers.Holds key lower)
    (hstays : ∀ child ∈ lower, ¬ child.Declares .overridableByTag)
    (hrest : ∀ layer ∈ rest, layer.Traceable key ∧ ∀ child ∈ layer.elements, child.key ≠ key)
    (h : layers.pushAll rest = .ok run) : run.Holds key lower := by
  refine pushAll_induction (P := fun layers => layers.Holds key lower) hlayers ?_ h
  rintro before layer after middle next rfl hmiddle hlower hnext
  obtain ⟨hlayer, habsent⟩ := hrest layer (by simp)
  obtain ⟨child, -, hchild, hyields⟩ := holds_of_push hid hlower hlayer
    (Element.holds_none_iff.2 habsent) hnext
  have heq : child = lower := by
    rcases hyields with ⟨hnone, rfl⟩ | hyields
    · by_contra hne
      exact hlower.started (Ne.symm hne) hnone
    · exact hyields.trans (Element.filter_retains hstays)
  exact heq ▸ hchild

end Layers

end ConfigOverlay
