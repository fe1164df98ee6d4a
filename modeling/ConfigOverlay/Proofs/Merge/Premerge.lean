import ConfigOverlay.Proofs.Merge.Keyed

set_option autoImplicit false

namespace ConfigOverlay

variable {tags : Set String}

theorem Siblings.overlaid_assoc {a b c : Siblings} (ha : KeyedSiblings tags a.elements)
    (hb : KeyedSiblings tags b.elements) (hc : KeyedSiblings tags c.elements)
    (h : ∀ d ∈ c.elements, ∀ lowest lower : Option Element, (∀ e ∈ lowest, e.Keyed tags) →
      (∀ e ∈ lower, e.Keyed tags) →
        d.element.onto (Element.onto? lowest lower) = (d.element.onto lower).onto lowest) :
    (a.overlaid Element.onto b).overlaid Element.onto c =
      a.overlaid Element.onto (b.overlaid Element.onto c) := by
  have hbc : KeyedSiblings tags (Sibling.overlaid Element.onto b.elements c.elements) :=
    hb.overlaid hc fun d hd lower hlower => Element.keyed_onto (hc.keyed d hd) hlower
  have helements := Sibling.overlaid_assoc ha.keys hb.keys hc.keys hb.unique hc.unique hbc.unique
    fun d hd s t hs ht => by
      refine Sibling.onto_onto? (h d hd _ _ ?_ ?_)
      · simpa using fun x hx => ha.keyed x (hs x hx)
      · simpa using fun x hx => hb.keyed x (ht x hx)
  have hstray := Siblings.stray_overlaid_assoc Element.onto a b c
  change Siblings.mk _ _ = Siblings.mk _ _
  rw [Siblings.mk.injEq]
  exact ⟨helements, hstray⟩

/-- An element may be laid over the lower one of two first, and then over the lowest one. -/
theorem Element.onto_onto? {e : Element} (h : e.Keyed tags) {lowest lower : Option Element}
    (hlowest : ∀ x ∈ lowest, x.Keyed tags) (hlower : ∀ x ∈ lower, x.Keyed tags) :
    e.onto (Element.onto? lowest lower) = (e.onto lower).onto lowest := by
  induction h generalizing lowest lower with
  | @mk e hhere hchildren ih =>
    have hkeyed : e.Keyed tags := .mk hhere hchildren
    -- only children of `e` are laid over anything on both sides, so the induction is on `e` alone
    have hsiblings := Siblings.overlaid_assoc (keyedSiblings_siblingsOf hlowest)
      (keyedSiblings_siblingsOf hlower) hkeyed.keyedSiblings
      fun d hd x y hx hy => ih d.element (Siblings.element_mem_of_mem hd) hx hy
    have hattrs := Attributes.overlay_assoc (plain_attrsOf hlowest).unique
      (plain_attrsOf hlower).unique hhere.attrs.unique
    rw [onto_eq, onto_eq lowest, siblingsOf_onto?, attrsOf_onto?, hsiblings, hattrs, siblings_onto,
      attrs_onto, onto_eq lower]

/-- Merging layers is associative. -/
theorem merge_assoc {a b c : Element} (ha : a.Keyed tags) (hb : b.Keyed tags) (hc : c.Keyed tags) :
    ∃ ab bc abc, merge (some a) b = .ok (some ab) ∧ merge (some b) c = .ok (some bc) ∧
      merge (some ab) c = .ok (some abc) ∧ merge (some a) bc = .ok (some abc) := by
  have hab : (b.onto (some a)).Keyed tags := Element.keyed_onto hb (keyed_some ha)
  have hbc : (c.onto (some b)).Keyed tags := Element.keyed_onto hc (keyed_some hb)
  have hassoc : c.onto (some (b.onto (some a))) = (c.onto (some b)).onto (some a) :=
    Element.onto_onto? hc (keyed_some ha) (keyed_some hb)
  refine ⟨b.onto (some a), c.onto (some b), c.onto (some (b.onto (some a))),
    merge_eq_onto hb (keyed_some ha), merge_eq_onto hc (keyed_some hb),
    merge_eq_onto hc (keyed_some hab), ?_⟩
  rw [hassoc]
  exact merge_eq_onto hbc (keyed_some ha)

def clusterBase : Element :=
  ⟨"cluster", ⟨[("mode", "test"), ("size", "1")]⟩, [
    .text "\n", .comment "store", .element ⟨"db", .empty, [.text "local"]⟩,
    .element ⟨"server", ⟨[("id", "a")]⟩, [.text " "]⟩, .text "note", .text "\n"]⟩

def clusterSite : Element :=
  ⟨"cluster", ⟨[("size", "2")]⟩, [
    .comment "site", .element ⟨"server", ⟨[("id", "b"), ("port", "80")]⟩, [
      .text "x", .element ⟨"db", .empty, []⟩, .comment "end"]⟩]⟩

def clusterHost : Element :=
  ⟨"cluster", ⟨[("zone", "z"), ("mode", "live")]⟩, [
    .element ⟨"server", ⟨[("id", "b"), ("port", "81")]⟩, [
      .text "\n", .element ⟨"db", .empty, [.text "own"]⟩]⟩,
    .text " ", .element ⟨"db", ⟨[("host", "h")]⟩, [.comment "none"]⟩, .text "\n"]⟩

theorem merge_assoc_cluster :
    clusterBase.Keyed {"db"} ∧ clusterSite.Keyed {"db"} ∧ clusterHost.Keyed {"db"} ∧
    ∃ ab bc abc, merge (some clusterBase) clusterSite = .ok (some ab) ∧
      merge (some clusterSite) clusterHost = .ok (some bc) ∧
      merge (some ab) clusterHost = .ok (some abc) ∧
      merge (some clusterBase) bc = .ok (some abc) := by
  have hbase : clusterBase.Keyed {"db"} := by decide +kernel
  have hsite : clusterSite.Keyed {"db"} := by decide +kernel
  have hhost : clusterHost.Keyed {"db"} := by decide +kernel
  exact ⟨hbase, hsite, hhost, merge_assoc hbase hsite hhost⟩

end ConfigOverlay
