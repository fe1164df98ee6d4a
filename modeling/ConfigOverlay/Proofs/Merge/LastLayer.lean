import ConfigOverlay.Merge.Layers
import ConfigOverlay.Proofs.Merge.Premerge
import ConfigOverlay.Proofs.Merge.Sweep

set_option autoImplicit false

namespace ConfigOverlay

variable {tags : Set String} {α : Type}

namespace Element

def child? (e : Element) (key : Key) : Option Element := e.elements.find? (·.key = key)

def at? (e : Element) : List Key → Option Element
  | [] => some e
  | key :: path => (e.child? key).bind (·.at? path)

def attrAt? (e : Element) (path : List Key) (name : String) : Option String :=
  (e.at? path).bind (·.attrs.get? name)

def texts (e : Element) : List Node := e.children.filter Node.isContent

def texts? (e : Element) : Option (List Node) := if e.texts = [] then none else some e.texts

def textsAt? (e : Element) (path : List Key) : Option (List Node) := (e.at? path).bind texts?

end Element

theorem child?_eq (e : Option Element) (key : Key) :
    e.bind (·.child? key) = ((siblingsOf e).elements.find? (·.key = key)).map (·.element) := by
  cases e with
  | none => rfl
  | some e =>
    change e.child? key = (e.siblings.elements.find? (·.key = key)).map (·.element)
    rw [Element.child?, ← e.map_element_siblings, List.find?_map]
    rfl

theorem keyed_child? {e : Option Element} (h : ∀ x ∈ e, x.Keyed tags) (key : Key) :
    ∀ child ∈ e.bind (·.child? key), child.Keyed tags := by
  intro child hchild
  rw [child?_eq] at hchild
  obtain ⟨s, hs, rfl⟩ := Option.map_eq_some_iff.1 hchild
  exact (keyedSiblings_siblingsOf h).keyed s (List.mem_of_find?_eq_some hs)

theorem child?_onto? {below e : Option Element} (h : ∀ x ∈ e, x.Keyed tags) (key : Key) :
    (Element.onto? below e).bind (·.child? key) =
      Element.onto? (below.bind (·.child? key)) (e.bind (·.child? key)) := by
  have hunique := (keyedSiblings_siblingsOf h).unique
  rw [child?_eq, child?_eq, child?_eq, siblingsOf_onto?, Siblings.overlaid,
    Sibling.find?_overlaid hunique, Sibling.map_element_onto?]

theorem at?_onto? {below e : Option Element} (hbelow : ∀ x ∈ below, x.Keyed tags)
    (h : ∀ x ∈ e, x.Keyed tags) (path : List Key) :
    (Element.onto? below e).bind (·.at? path) =
      Element.onto? (below.bind (·.at? path)) (e.bind (·.at? path)) := by
  induction path generalizing below e with
  | nil => simp [Element.at?]
  | cons key path ih =>
    have hassoc : ∀ x : Option Element,
        x.bind (·.at? (key :: path)) = (x.bind (·.child? key)).bind (·.at? path) := fun x => by
      cases x <;> rfl
    rw [hassoc, hassoc, hassoc, child?_onto? h, ih (keyed_child? hbelow key) (keyed_child? h key)]

theorem keyed_at? {e : Option Element} (h : ∀ x ∈ e, x.Keyed tags) (path : List Key) :
    ∀ x ∈ e.bind (·.at? path), x.Keyed tags := by
  induction path generalizing e with
  | nil => simpa [Element.at?] using h
  | cons key path ih =>
    have hbelow := ih (keyed_child? h key)
    cases e with
    | none => exact hbelow
    | some e => exact hbelow

/-- The dominant side is read, or else the recessive one. -/
def ReadsLast (tags : Set String) (read : Element → Option α) : Prop :=
  ∀ below e : Option Element, (∀ x ∈ below, x.Keyed tags) → (∀ x ∈ e, x.Keyed tags) →
    (Element.onto? below e).bind read = (e.bind read).or (below.bind read)

theorem readsLast_present : ReadsLast tags fun _ => some () := by
  intro below e _ _
  cases e with
  | none => simp [Element.onto?]
  | some e => simp [Element.onto?]

theorem readsLast_get? (name : String) : ReadsLast tags (·.attrs.get? name) := by
  intro below e _ h
  cases e with
  | none => simp [Element.onto?]
  | some e =>
    have hbelow : below.bind (·.attrs.get? name) = (attrsOf below).get? name := by
      cases below <;> rfl
    change (e.onto below).attrs.get? name = (e.attrs.get? name).or _
    rw [e.attrs_onto, Attributes.get?_overlay (h e rfl).here.attrs.unique, hbelow]

theorem Element.texts_eq (e : Element) : e.texts = e.siblings.stray.filter Node.isContent :=
  e.filter_isContent_siblings.symm

theorem hasText_siblings (e : Element) : e.siblings.hasText = decide (e.texts ≠ []) := by
  rw [e.texts_eq, Bool.eq_iff_iff]
  simp [Siblings.hasText, Node.isContent]

theorem texts_onto (below : Option Element) (e : Element) :
    (e.onto below).texts = if e.texts = [] then (below.map Element.texts).getD [] else e.texts := by
  have hbelow : (below.map Element.texts).getD [] =
      (siblingsOf below).stray.filter Node.isContent := by
    cases below with
    | none => rfl
    | some below => exact below.texts_eq
  have hstays : ∀ node, (Node.isContent node && staysBeside e.siblings node) =
      (Node.isContent node && decide (e.texts = [])) := by
    intro node
    cases htext : node.isText <;> cases hlayout : node.isLayout <;>
      simp [Node.isContent, staysBeside, hasText_siblings, htext, hlayout]
  rw [hbelow, Element.texts_eq, e.siblings_onto]
  simp only [Siblings.overlaid, List.filter_append, List.filter_filter, hstays, ← e.texts_eq]
  by_cases hempty : e.texts = [] <;> simp [hempty]

theorem readsLast_texts? : ReadsLast tags Element.texts? := by
  intro below e _ _
  cases e with
  | none => simp [Element.onto?]
  | some e =>
    change (e.onto below).texts? = e.texts?.or _
    rw [Element.texts?, texts_onto, Element.texts?]
    by_cases hempty : e.texts = []
    · cases below <;> simp [hempty, Element.texts?]
    · simp [hempty]

theorem ReadsLast.at? {read : Element → Option α} (h : ReadsLast tags read) (path : List Key) :
    ReadsLast tags fun e => (e.at? path).bind read := by
  intro below e hbelow he
  have hassoc : ∀ x : Option Element,
      (x.bind fun e => (e.at? path).bind read) = (x.bind (·.at? path)).bind read := fun x => by
    cases x <;> rfl
  rw [hassoc, hassoc, hassoc, at?_onto? hbelow he]
  exact h _ _ (keyed_at? hbelow path) (keyed_at? he path)

def ontoAll (first : Element) (rest : List Element) : Element :=
  rest.foldl (fun below layer => layer.onto (some below)) first

theorem keyed_ontoAll {first : Element} {rest : List Element} (hfirst : first.Keyed tags)
    (hrest : ∀ layer ∈ rest, layer.Keyed tags) : (ontoAll first rest).Keyed tags := by
  induction rest generalizing first with
  | nil => exact hfirst
  | cons layer rest ih =>
    have hlayer := Element.keyed_onto (hrest layer List.mem_cons_self) (keyed_some hfirst)
    exact ih hlayer fun other hother => hrest other (List.mem_cons_of_mem layer hother)

theorem pushAll_eq {first : Element} {rest : List Element} (hfirst : first.Keyed tags)
    (hrest : ∀ layer ∈ rest, layer.Keyed tags) (count : Nat) :
    Layers.pushAll ⟨some first, count⟩ rest =
      .ok ⟨some (ontoAll first rest), count + rest.length⟩ := by
  induction rest generalizing first count with
  | nil => rfl
  | cons layer rest ih =>
    have hbelow := keyed_some hfirst
    have hlayer := hrest layer List.mem_cons_self
    have hothers := ih (Element.keyed_onto hlayer hbelow)
      (fun other hother => hrest other (List.mem_cons_of_mem layer hother)) (count + 1)
    rw [Layers.pushAll, Layers.push]
    simp only [merge_eq_onto hlayer hbelow, hothers, ontoAll, List.foldl_cons, List.length_cons]
    rw [Nat.add_assoc, Nat.add_comm 1]

theorem mergeLayers_eq_ontoAll {first : Element} {rest : List Element} (hfirst : first.Keyed tags)
    (hrest : ∀ layer ∈ rest, layer.Keyed tags) :
    mergeLayers (first :: rest) = .ok (ontoAll first rest) := by
  have hpush := pushAll_eq hfirst hrest 1
  have hsweep := Element.sweep_of_plain ((keyed_ontoAll hfirst hrest).imp fun _ he => he.attrs)
  simp [mergeLayers, Layers.pushAll, Layers.push, Layers.empty, hpush, Layers.finish, hsweep]

theorem ReadsLast.ontoAll {read : Element → Option α} (h : ReadsLast tags read) {first : Element}
    {rest : List Element} (hfirst : first.Keyed tags) (hrest : ∀ layer ∈ rest, layer.Keyed tags) :
    read (ontoAll first rest) = (first :: rest).reverse.findSome? read := by
  induction rest generalizing first with
  | nil => simp [ConfigOverlay.ontoAll]
  | cons layer rest ih =>
    have hlayer := hrest layer List.mem_cons_self
    have hpair : read (layer.onto (some first)) = (read layer).or (read first) :=
      h (some first) (some layer) (keyed_some hfirst) (keyed_some hlayer)
    have hothers := ih (Element.keyed_onto hlayer (keyed_some hfirst))
      fun other hother => hrest other (List.mem_cons_of_mem layer hother)
    change read (ConfigOverlay.ontoAll (layer.onto (some first)) rest) = _
    rw [hothers, List.reverse_cons, List.reverse_cons, List.reverse_cons, List.append_assoc,
      List.findSome?_append, List.findSome?_append, List.singleton_append, List.findSome?_cons,
      List.findSome?_cons, hpair]
    cases read layer <;> rfl

/-- Layers without policies whose siblings are told apart by their keys are merged into a tree of
the same kind. At every path of keys there is an element if there is one in some layer; an attribute
has the value of the last layer that has it there, and the texts of the element's own are those of
the last layer that has any there. -/
theorem mergeLayers_reads_last {layers : List Element} (hne : layers ≠ [])
    (h : ∀ layer ∈ layers, layer.Keyed tags) :
    ∃ merged, mergeLayers layers = .ok merged ∧ merged.Keyed tags ∧ ∀ path,
      ((merged.at? path).isSome ↔ ∃ layer ∈ layers, (layer.at? path).isSome) ∧
      (∀ name, merged.attrAt? path name = layers.reverse.findSome? (·.attrAt? path name)) ∧
      merged.textsAt? path = layers.reverse.findSome? (·.textsAt? path) := by
  obtain ⟨first, rest, rfl⟩ := List.exists_cons_of_ne_nil hne
  have hfirst := h first List.mem_cons_self
  have hrest : ∀ layer ∈ rest, layer.Keyed tags :=
    fun layer hlayer => h layer (List.mem_cons_of_mem first hlayer)
  refine ⟨ontoAll first rest, mergeLayers_eq_ontoAll hfirst hrest, keyed_ontoAll hfirst hrest,
    fun path => ⟨?_, fun name => ?_, ?_⟩⟩
  · have hpresent := (readsLast_present.at? path).ontoAll hfirst hrest
    have hiff : ∀ e : Element, (e.at? path).isSome ↔ ((e.at? path).bind fun _ => some ()).isSome :=
      fun e => by cases e.at? path <;> simp
    rw [hiff, hpresent, List.findSome?_isSome_iff]
    simp [hiff, or_comm]
  · exact ((readsLast_get? name).at? path).ontoAll hfirst hrest
  · exact (readsLast_texts?.at? path).ontoAll hfirst hrest

theorem mergeLayers_reads_last_cluster :
    ∃ merged, mergeLayers [clusterBase, clusterSite, clusterHost] = .ok merged ∧
      merged.attrAt? [] "mode" = some "live" ∧
      merged.attrAt? [⟨"server", some "b"⟩] "port" = some "81" ∧
      merged.textsAt? [⟨"db", none⟩] = some [.text "local"] ∧
      merged.textsAt? [⟨"server", some "b"⟩, ⟨"db", none⟩] = some [.text "own"] ∧
      merged.at? [⟨"server", some "c"⟩] = none := by
  have hkeyed : ∀ layer ∈ [clusterBase, clusterSite, clusterHost], layer.Keyed {"db"} := by
    decide +kernel
  obtain ⟨merged, hmerged, -, hpaths⟩ := mergeLayers_reads_last (by decide +kernel) hkeyed
  have habsent := (hpaths [⟨"server", some "c"⟩]).1
  refine ⟨merged, hmerged, ((hpaths _).2.1 _).trans (by decide +kernel),
    ((hpaths _).2.1 _).trans (by decide +kernel), (hpaths _).2.2.trans (by decide +kernel),
    (hpaths _).2.2.trans (by decide +kernel), ?_⟩
  rw [← Option.not_isSome_iff_eq_none, habsent]
  decide +kernel

end ConfigOverlay
