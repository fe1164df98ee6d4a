import ConfigOverlay.Proofs.Merge.Grouping
import ConfigOverlay.Proofs.Tree.Attributes

set_option autoImplicit false

namespace ConfigOverlay

section

variable (lay : Option Element → Element → Element)

def leadingOf (s : Option Sibling) : List Node := (s.map (·.leading)).getD []

/-- A sibling laid over another one, or over nothing. Its own layout counts, if it has any. -/
def Sibling.onto (below : Option Sibling) (d : Sibling) : Sibling where
  leading := if d.leading.isEmpty then leadingOf below else d.leading
  element := lay (below.map (·.element)) d.element

def Sibling.onto? (below : Option Sibling) : Option Sibling → Option Sibling
  | none => below
  | some d => some (d.onto lay below)

def Sibling.under (above : List Sibling) (s : Sibling) : Sibling :=
  match above.find? (·.key = s.key) with
  | some d => d.onto lay (some s)
  | none => s

def Sibling.overlaid (below above : List Sibling) : List Sibling :=
  below.map (·.under lay above) ++
    (above.filter fun d => d.key ∉ below.map Sibling.key).map (·.onto lay none)

def Siblings.overlaid (below above : Siblings) : Siblings where
  elements := Sibling.overlaid lay below.elements above.elements
  stray := below.stray.filter (staysBeside above) ++ above.stray

end

theorem mem_leading_onto {lay : Option Element → Element → Element} {below : Option Sibling}
    {d : Sibling} {node : Node} (h : node ∈ (d.onto lay below).leading) :
    node ∈ leadingOf below ∨ node ∈ d.leading := by
  rw [Sibling.onto] at h
  split at h
  · exact .inl h
  · exact .inr h

theorem Sibling.onto_congr {lay lay' : Option Element → Element → Element} {d : Sibling}
    (h : ∀ e, lay e d.element = lay' e d.element) (s : Option Sibling) :
    d.onto lay s = d.onto lay' s := by
  rw [Sibling.onto, Sibling.onto, h]

theorem Sibling.overlaid_congr {lay lay' : Option Element → Element → Element}
    {below above : List Sibling} (h : ∀ d ∈ above, ∀ e, lay e d.element = lay' e d.element) :
    Sibling.overlaid lay below above = Sibling.overlaid lay' below above := by
  have hunder : below.map (·.under lay above) = below.map (·.under lay' above) := by
    refine List.map_congr_left fun s _ => ?_
    rw [Sibling.under, Sibling.under]
    cases hfind : above.find? (·.key = s.key) with
    | none => rfl
    | some d => exact Sibling.onto_congr (h d (List.mem_of_find?_eq_some hfind)) (some s)
  rw [Sibling.overlaid, Sibling.overlaid, hunder]
  refine congrArg _ (List.map_congr_left fun d hd => ?_)
  exact Sibling.onto_congr (h d (List.mem_filter.1 hd).1) none

def attrsOf (e : Option Element) : Attributes := (e.map (·.attrs)).getD .empty

def siblingsOf (e : Option Element) : Siblings := (e.map Element.siblings).getD .empty

def Element.onto (below : Option Element) (e : Element) : Element :=
  ⟨e.tag, (attrsOf below).overlay e.attrs,
    (Siblings.overlaid
      (fun lower child => if _h : Node.element child ∈ e.children then child.onto lower else child)
      (siblingsOf below) e.siblings).nodes⟩
termination_by sizeOf e
decreasing_by exact Element.sizeOf_child_lt ‹_›

def Element.onto? (below : Option Element) : Option Element → Option Element
  | none => below
  | some e => some (e.onto below)

theorem Element.onto_eq (below : Option Element) (e : Element) :
    e.onto below = ⟨e.tag, (attrsOf below).overlay e.attrs,
      (Siblings.overlaid Element.onto (siblingsOf below) e.siblings).nodes⟩ := by
  rw [Element.onto, Siblings.overlaid, Siblings.overlaid, Sibling.overlaid_congr]
  intro d hd lower
  rw [dif_pos (Siblings.element_mem_of_mem hd)]

namespace Siblings

theorem Grouped.overlaid {lay : Option Element → Element → Element} {below above : Siblings}
    (hbelow : below.Grouped) (habove : above.Grouped) : (below.overlaid lay above).Grouped where
  leading := by
    intro sibling hsibling node hnode
    rcases List.mem_append.1 hsibling with hmem | hmem
    · obtain ⟨s, hs, rfl⟩ := List.mem_map.1 hmem
      rw [Sibling.under] at hnode
      split at hnode
      · next d hd =>
        rcases mem_leading_onto hnode with hnode | hnode
        · exact hbelow.leading s hs node hnode
        · exact habove.leading d (List.mem_of_find?_eq_some hd) node hnode
      · exact hbelow.leading s hs node hnode
    · obtain ⟨d, hd, rfl⟩ := List.mem_map.1 hmem
      rcases mem_leading_onto hnode with hnode | hnode
      · exact absurd hnode List.not_mem_nil
      · exact habove.leading d (List.mem_filter.1 hd).1 node hnode
  stray := by
    intro node hnode
    rcases List.mem_append.1 hnode with hmem | hmem
    · exact hbelow.stray node (List.mem_filter.1 hmem).1
    · exact habove.stray node hmem

end Siblings

theorem grouped_siblingsOf (e : Option Element) : (siblingsOf e).Grouped := by
  cases e with
  | none => exact ⟨by simp [siblingsOf, Siblings.empty], by simp [siblingsOf, Siblings.empty]⟩
  | some e => exact Siblings.grouped_ofNodes e.children

theorem Sibling.overlaid_nil (lay : Option Element → Element → Element) (below : List Sibling) :
    Sibling.overlaid lay below [] = below := by
  simp [Sibling.overlaid, Sibling.under]

theorem Siblings.overlaid_empty (lay : Option Element → Element → Element) (below : Siblings) :
    below.overlaid lay .empty = below := by
  have hstays : ∀ node, staysBeside .empty node := fun node => by
    simp [staysBeside, empty, hasText, hasBlankText]
  have hstray : below.stray.filter (staysBeside .empty) = below.stray :=
    List.filter_eq_self.2 fun node _ => hstays node
  rw [overlaid, hstray]
  simp [empty, Sibling.overlaid_nil]

/-- What is merged is grouped again into what has been laid over each other. -/
theorem siblingsOf_onto? (below e : Option Element) :
    siblingsOf (Element.onto? below e) =
      Siblings.overlaid Element.onto (siblingsOf below) (siblingsOf e) := by
  cases e with
  | none => exact (Siblings.overlaid_empty Element.onto (siblingsOf below)).symm
  | some e =>
    have hgrouped : (Siblings.overlaid Element.onto (siblingsOf below) e.siblings).Grouped :=
      (grouped_siblingsOf below).overlaid (Siblings.grouped_ofNodes e.children)
    rw [Element.onto?, Element.onto_eq]
    exact Siblings.ofNodes_nodes hgrouped

theorem attrsOf_onto? (below e : Option Element) :
    attrsOf (Element.onto? below e) = (attrsOf below).overlay (attrsOf e) := by
  cases e with
  | none => rfl
  | some e =>
    rw [Element.onto?, Element.onto_eq]
    rfl

theorem Element.key_onto {e : Element} (h : e.attrs.Unique) {below : Option Element}
    (hkey : ∀ lower ∈ below, lower.key = e.key) : (e.onto below).key = e.key := by
  have hid : (attrsOf below).get? "id" = e.id? ∨ (attrsOf below).get? "id" = none := by
    cases below with
    | none => exact .inr rfl
    | some lower => exact .inl (congrArg Key.id (hkey lower rfl))
  rw [Element.onto_eq, Element.key, Element.key, Element.id?, Attributes.get?_overlay h,
    ← Element.id?]
  rcases hid with hid | hid <;> rw [hid] <;> cases e.id? <;> rfl

namespace Sibling

theorem key_onto {d : Sibling} (h : d.element.attrs.Unique) {below : Option Sibling}
    (hkey : ∀ s ∈ below, s.key = d.key) : (d.onto Element.onto below).key = d.key := by
  refine Element.key_onto h fun lower hlower => ?_
  obtain ⟨s, hs, rfl⟩ := Option.map_eq_some_iff.1 hlower
  exact hkey s hs

theorem find?_map {f : Sibling → Sibling} {siblings : List Sibling}
    (h : ∀ s ∈ siblings, (f s).key = s.key) (key : Key) :
    (siblings.map f).find? (·.key = key) = (siblings.find? (·.key = key)).map f := by
  induction siblings with
  | nil => rfl
  | cons s rest ih =>
    have hrest := ih fun other hother => h other (List.mem_cons_of_mem s hother)
    rw [List.map_cons, List.find?_cons, List.find?_cons, h s List.mem_cons_self, hrest]
    cases decide (s.key = key) <;> rfl

theorem find?_eq_none_iff {siblings : List Sibling} {key : Key} :
    siblings.find? (·.key = key) = none ↔ key ∉ siblings.map Sibling.key := by
  simp

variable {below above : List Sibling} (h : ∀ d ∈ above, d.element.attrs.Unique)

include h

theorem key_under (s : Sibling) : (s.under Element.onto above).key = s.key := by
  rw [under]
  cases hfind : above.find? (·.key = s.key) with
  | none => rfl
  | some d =>
    have hkey : d.key = s.key := by simpa using List.find?_some hfind
    rw [← hkey]
    exact key_onto (h d (List.mem_of_find?_eq_some hfind)) (by simp [hkey])

theorem keys_overlaid :
    (overlaid Element.onto below above).map Sibling.key =
      below.map Sibling.key ++
        (above.map Sibling.key).filter (· ∉ below.map Sibling.key) := by
  have hbelow : below.map (fun s => (s.under Element.onto above).key) = below.map Sibling.key :=
    List.map_congr_left fun s _ => key_under h s
  have habove : (above.filter fun d => d.key ∉ below.map Sibling.key).map
      (fun d => (d.onto Element.onto none).key) =
      (above.filter fun d => d.key ∉ below.map Sibling.key).map Sibling.key :=
    List.map_congr_left fun d hd => key_onto (h d (List.mem_filter.1 hd).1) (by simp)
  rw [overlaid, List.map_append, List.map_map, List.map_map, List.filter_map]
  exact congr (congrArg _ hbelow) habove

theorem find?_overlaid (key : Key) :
    (overlaid Element.onto below above).find? (·.key = key) =
      onto? Element.onto (below.find? (·.key = key)) (above.find? (·.key = key)) := by
  -- the upper siblings that come behind the lower ones are those of the other keys
  rw [overlaid, List.find?_append, find?_map fun s _ => key_under h s,
    find?_map fun d hd => key_onto (h d (List.mem_filter.1 hd).1) (by simp)]
  cases hbelow : below.find? (·.key = key) with
  | some s =>
    have hkey : s.key = key := by simpa using List.find?_some hbelow
    rw [Option.map_some, Option.some_or, under, hkey]
    cases above.find? (·.key = key) <;> rfl
  | none =>
    have hnew : (above.filter fun d => d.key ∉ below.map Sibling.key).find? (·.key = key) =
        above.find? (·.key = key) := by
      rw [List.find?_filter]
      refine congrArg (List.find? · above) (funext fun d => ?_)
      by_cases hkey : d.key = key
      · simpa [hkey] using find?_eq_none_iff.1 hbelow
      · simp [hkey]
    rw [hnew]
    cases above.find? (·.key = key) <;> rfl

omit h

theorem find?_key (hnodup : (below.map Sibling.key).Nodup) {s : Sibling} (hs : s ∈ below) :
    below.find? (·.key = s.key) = some s := by
  induction below with
  | nil => exact absurd hs List.not_mem_nil
  | cons first rest ih =>
    obtain ⟨hfirst, hrest⟩ := List.nodup_cons.1 hnodup
    rcases List.mem_cons.1 hs with rfl | hs
    · simp
    · have hne : first.key ≠ s.key := fun heq => hfirst (heq ▸ List.mem_map_of_mem hs)
      rw [List.find?_cons_of_neg (by simpa using hne), ih hrest hs]

theorem eq_of_keys {siblings others : List Sibling} (hnodup : (siblings.map Sibling.key).Nodup)
    (hkeys : siblings.map Sibling.key = others.map Sibling.key)
    (hfind : ∀ key, siblings.find? (·.key = key) = others.find? (·.key = key)) :
    siblings = others := by
  have hfound : ∀ l : List Sibling, (l.map Sibling.key).Nodup →
      (l.map Sibling.key).filterMap (fun key => l.find? (·.key = key)) = l := by
    intro l hl
    rw [List.filterMap_map]
    exact (List.filterMap_congr fun s hs => find?_key hl hs).trans List.filterMap_some
  rw [← hfound siblings hnodup, ← hfound others (hkeys ▸ hnodup), ← hkeys]
  exact List.filterMap_congr fun key _ => hfind key

theorem nodup_overlaid (h : ∀ d ∈ above, d.element.attrs.Unique)
    (hbelow : (below.map Sibling.key).Nodup) (habove : (above.map Sibling.key).Nodup) :
    ((overlaid Element.onto below above).map Sibling.key).Nodup := by
  rw [keys_overlaid h]
  refine List.nodup_append.2 ⟨hbelow, habove.filter _, fun key hkey other hother => ?_⟩
  rintro rfl
  simpa [hkey] using (List.mem_filter.1 hother).2

theorem map_element_onto? (a b : Option Sibling) :
    (onto? Element.onto a b).map (·.element) =
      Element.onto? (a.map (·.element)) (b.map (·.element)) := by
  cases b <;> rfl

theorem onto_onto? {a b : Option Sibling} {d : Sibling}
    (h : d.element.onto (Element.onto? (a.map (·.element)) (b.map (·.element))) =
      (d.element.onto (b.map (·.element))).onto (a.map (·.element))) :
    d.onto Element.onto (onto? Element.onto a b) =
      (d.onto Element.onto b).onto Element.onto a := by
  have hleading : leadingOf (onto? Element.onto a b) =
      if (leadingOf b).isEmpty then leadingOf a else leadingOf b := by
    cases b <;> rfl
  simp only [onto, hleading, map_element_onto?, h]
  by_cases hd : d.leading.isEmpty <;> simp [hd]

theorem overlaid_assoc {a b c : List Sibling} (ha : (a.map Sibling.key).Nodup)
    (hb : (b.map Sibling.key).Nodup) (hc : (c.map Sibling.key).Nodup)
    (hattrs : ∀ d ∈ b, d.element.attrs.Unique) (hattrs' : ∀ d ∈ c, d.element.attrs.Unique)
    (hattrs'' : ∀ d ∈ overlaid Element.onto b c, d.element.attrs.Unique)
    (h : ∀ d ∈ c, ∀ s t : Option Sibling, (∀ x ∈ s, x ∈ a) → (∀ x ∈ t, x ∈ b) →
      d.onto Element.onto (onto? Element.onto s t) =
        (d.onto Element.onto t).onto Element.onto s) :
    overlaid Element.onto (overlaid Element.onto a b) c =
      overlaid Element.onto a (overlaid Element.onto b c) := by
  refine eq_of_keys (nodup_overlaid hattrs' (nodup_overlaid hattrs ha hb) hc) ?_ fun key => ?_
  · rw [keys_overlaid hattrs', keys_overlaid hattrs, keys_overlaid hattrs'', keys_overlaid hattrs',
      append_new_assoc]
  · rw [find?_overlaid hattrs', find?_overlaid hattrs, find?_overlaid hattrs'',
      find?_overlaid hattrs']
    cases hfind : c.find? (·.key = key) with
    | none => rfl
    | some d =>
      refine congrArg some (h d (List.mem_of_find?_eq_some hfind) _ _ ?_ ?_)
      · exact fun x hx => List.mem_of_find?_eq_some hx
      · exact fun x hx => List.mem_of_find?_eq_some hx

end Sibling

namespace Siblings

variable (lay : Option Element → Element → Element) (a b c : Siblings)

theorem any_stray_overlaid {p : Node → Bool}
    (h : b.stray.any p = false → ∀ node, p node → staysBeside b node) :
    (a.overlaid lay b).stray.any p = (a.stray.any p || b.stray.any p) := by
  simp only [overlaid, List.any_append, List.any_filter]
  cases hb : b.stray.any p with
  | true => simp
  | false =>
    rw [Bool.or_false, Bool.or_false]
    refine congrArg a.stray.any (funext fun node => ?_)
    cases hp : p node with
    | true => simp [h hb node hp]
    | false => simp

theorem hasText_overlaid : (a.overlaid lay b).hasText = (a.hasText || b.hasText) :=
  any_stray_overlaid lay a b fun hb node hnode => by
    rw [Bool.and_eq_true, Bool.not_eq_true'] at hnode
    simp [staysBeside, hasText, hb, hnode]

theorem hasBlankText_overlaid :
    (a.overlaid lay b).hasBlankText = (a.hasBlankText || b.hasBlankText) :=
  any_stray_overlaid lay a b fun hb node hnode => by
    rw [Bool.and_eq_true] at hnode
    simp [staysBeside, hasBlankText, hb, hnode]

theorem stray_overlaid_assoc :
    ((a.overlaid lay b).overlaid lay c).stray = (a.overlaid lay (b.overlaid lay c)).stray := by
  have hstays : ∀ node, (staysBeside c node && staysBeside b node) =
      staysBeside (b.overlaid lay c) node := fun node => by
    cases htext : node.isText <;> cases hlayout : node.isLayout <;>
      simp [staysBeside, hasText_overlaid, hasBlankText_overlaid, htext, hlayout, Bool.and_comm]
  change (a.stray.filter (staysBeside b) ++ b.stray).filter (staysBeside c) ++ c.stray =
    a.stray.filter (staysBeside (b.overlaid lay c)) ++
      (b.stray.filter (staysBeside c) ++ c.stray)
  rw [List.filter_append, List.filter_filter, List.append_assoc, funext hstays]

end Siblings

end ConfigOverlay
