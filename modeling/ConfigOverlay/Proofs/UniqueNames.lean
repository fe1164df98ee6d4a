import ConfigOverlay.Proofs.Markup.Reread
import ConfigOverlay.Proofs.Merge.Distinct
import ConfigOverlay.Proofs.Property.Document

set_option autoImplicit false

namespace ConfigOverlay

abbrev Element.NamesDiffer (e : Element) : Prop := e.Throughout (·.attrs.Unique)

def Attributes.withoutPolicies (attrs : Attributes) : Attributes :=
  ⟨attrs.entries.filter fun entry =>
    entry.1 ≠ SelfPolicy.attributeName ∧ entry.1 ≠ ChildrenPolicy.attributeName⟩

theorem Attributes.Unique.erase_policies {attrs : Attributes} (h : attrs.Unique) :
    (attrs.erase SelfPolicy.attributeName).erase ChildrenPolicy.attributeName =
      attrs.withoutPolicies := by
  rw [(unique_erase h).erase_eq_filter, h.erase_eq_filter, withoutPolicies, List.filter_filter]
  simp [and_comm]

namespace Element

variable {e : Element}

theorem undeclared_iff : e.Undeclared ↔
    SelfPolicy.attributeName ∉ e.attrs.names ∧ ChildrenPolicy.attributeName ∉ e.attrs.names := by
  rw [← Attributes.get?_eq_none_iff, ← Attributes.get?_eq_none_iff]
  exact ⟨fun h => ⟨h.1, h.2⟩, fun h => ⟨h.1, h.2⟩⟩

theorem unique_of_names_eq {e e' : Element} (h : e.attrs.names = e'.attrs.names)
    (he : e.attrs.Unique) : e'.attrs.Unique := by
  have hnames : e'.attrs.names.Nodup := h ▸ he
  exact hnames

theorem undeclared_of_names_eq {e e' : Element} (h : e.attrs.names = e'.attrs.names)
    (he : e.Undeclared) : e'.Undeclared := by
  rw [undeclared_iff, ← h]
  exact undeclared_iff.1 he

theorem attrs_mapAttributes (f : Attributes → Attributes) (e : Element) :
    (e.mapAttributes f).attrs = f e.attrs := by
  cases e
  rfl

theorem namesDiffer_of_ofMarkup? {text : String} (h : ofMarkup? text = some e) : e.NamesDiffer :=
  (Markup.writable_of_readDocument h).imp fun _ he => he.unique

theorem NamesDiffer.of_merge {recessive : Option Element} {dominant : Element}
    (hbelow : ∀ lower ∈ recessive, lower.NamesDiffer) (habove : dominant.NamesDiffer)
    (h : merge recessive dominant = .ok (some e)) : e.NamesDiffer :=
  throughout_of_merge (fun _ habove h => unique_of_merge habove.here h) hbelow habove h

theorem NamesDiffer.swept (h : e.NamesDiffer) : e.swept.NamesDiffer :=
  Throughout.swept (fun e he => e.swept_eq ▸ he) h

theorem NamesDiffer.withoutPolicies (h : e.NamesDiffer) : e.withoutPolicies.NamesDiffer := by
  rw [Element.withoutPolicies_eq]
  refine h.mapAttributes fun e he => ?_
  rw [attrs_mapAttributes]
  exact Attributes.unique_erase (Attributes.unique_erase he)

theorem NamesDiffer.withoutPolicies_eq (h : e.NamesDiffer) :
    e.withoutPolicies = e.mapAttributes Attributes.withoutPolicies := by
  rw [Element.withoutPolicies_eq]
  exact h.mapAttributes_congr fun _ he => he.erase_policies

theorem NamesDiffer.undeclared_withoutPolicies (h : e.NamesDiffer) :
    e.withoutPolicies.Throughout Undeclared := by
  rw [h.withoutPolicies_eq]
  refine h.mapAttributes fun e _ => ?_
  rw [undeclared_iff, attrs_mapAttributes]
  simp [Attributes.withoutPolicies, Attributes.names]

end Element

theorem Layers.namesDiffer_of_pushEach {layers : List Element}
    (h : ∀ layer ∈ layers, layer.NamesDiffer) :
    ∀ root ∈ (Layers.empty.pushEach layers).merged, root.NamesDiffer :=
  throughout_of_pushEach (fun _ habove hmerge => unique_of_merge habove.here hmerge)
    (by simp [empty]) h

theorem Layers.namesDiffer_of_finish {layers : Layers} {tree : Element}
    (h : ∀ root ∈ layers.merged, root.NamesDiffer) (hfinish : layers.finish = .ok tree) :
    tree.NamesDiffer := by
  obtain ⟨root, hroot, rfl⟩ := exists_swept_of_finish hfinish
  exact (h root hroot).swept

theorem namesDiffer_of_mergeLayers {layers : List Element} {tree : Element}
    (h : ∀ layer ∈ layers, layer.NamesDiffer) (hmerged : mergeLayers layers = .ok tree) :
    tree.NamesDiffer := by
  obtain ⟨run, hrun, hfinish⟩ := Layers.finish_of_mergeLayers hmerged
  refine Layers.namesDiffer_of_finish ?_ hfinish
  rw [← Layers.pushEach_of_pushAll hrun]
  exact Layers.namesDiffer_of_pushEach h

variable {η σ : Type}

theorem Element.throughout_expand {p : Element → Prop}
    (hp : ∀ e e' : Element, e.attrs.names = e'.attrs.names → p e → p e') {e : Element}
    (h : e.Throughout p) (around : Surroundings η σ) (chain : Resolver η) (session : Session σ) :
    (e.expand around chain session).1.Throughout p := by
  rw [Element.expand, Element.expandWith_eq]
  exact (e.becomes_traverse _ _).throughout hp h

theorem Configuration.throughout_of_build {p : Element → Prop}
    (hp : ∀ e e' : Element, e.attrs.names = e'.attrs.names → p e → p e') {c : Configuration η}
    {around : Surroundings η σ} {session : Session σ} {tree : Element}
    (h : (c.build around session).1 = .ok tree)
    (hroot : ∀ merged, mergeLayers c.layers = .ok merged →
      (if c.options.stripPolicies then merged.withoutPolicies else merged).Throughout p) :
    tree.Throughout p := by
  cases hmerged : mergeLayers c.layers with
  | error error => simp [build, hmerged] at h
  | ok merged =>
    cases hexpand : c.options.expand with
    | true =>
      obtain ⟨-, htree⟩ := c.stop_eq_none_of_build hmerged hexpand h
      rw [← htree]
      exact Element.throughout_expand hp (hroot merged hmerged) around _ session
    | false =>
      simp only [build, hmerged, hexpand] at h
      cases h
      exact hroot merged hmerged

/-- Names of attributes are unique in every element of a tree that is read, and of every tree that
comes of such trees. So a tree from which the policies are taken off has none left, and loses
nothing else. -/
theorem names_stay_unique :
    (∀ (text : String) (e : Element), Element.ofMarkup? text = some e → e.NamesDiffer) ∧
    (∀ (recessive : Option Element) (dominant e : Element),
      (∀ lower ∈ recessive, lower.NamesDiffer) → dominant.NamesDiffer →
      merge recessive dominant = .ok (some e) → e.NamesDiffer) ∧
    (∀ layers : List Element, (∀ layer ∈ layers, layer.NamesDiffer) →
      (∀ root ∈ (Layers.empty.pushEach layers).merged, root.NamesDiffer) ∧
      ∀ tree, (Layers.empty.pushEach layers).finish = .ok tree → tree.NamesDiffer) ∧
    (∀ e : Element, e.NamesDiffer → e.withoutPolicies.NamesDiffer ∧
      e.withoutPolicies.Throughout Element.Undeclared ∧
      e.withoutPolicies = e.mapAttributes Attributes.withoutPolicies) ∧
    (∀ (around : Surroundings η σ) (chain : Resolver η) (session : Session σ) (e : Element),
      e.NamesDiffer → (e.expand around chain session).1.NamesDiffer) ∧
    ∀ (c : Configuration η) (around : Surroundings η σ) (session : Session σ) (tree : Element),
      (∀ layer ∈ c.layers, layer.NamesDiffer) → (c.build around session).1 = .ok tree →
        tree.NamesDiffer ∧
        (c.options.stripPolicies = true → tree.Throughout Element.Undeclared) := by
  refine ⟨fun _ _ => Element.namesDiffer_of_ofMarkup?, fun _ _ _ => Element.NamesDiffer.of_merge,
    fun layers hlayers => ?_, fun e he => ?_, fun around chain session e he => ?_,
    fun c around session tree hlayers hbuild => ⟨?_, fun hstrip => ?_⟩⟩
  · have hmerged := Layers.namesDiffer_of_pushEach hlayers
    exact ⟨hmerged, fun _ hfinish => Layers.namesDiffer_of_finish hmerged hfinish⟩
  · exact ⟨he.withoutPolicies, he.undeclared_withoutPolicies, he.withoutPolicies_eq⟩
  · exact Element.throughout_expand (fun _ _ => Element.unique_of_names_eq) he around chain session
  · refine c.throughout_of_build (fun _ _ => Element.unique_of_names_eq) hbuild ?_
    intro merged hmerged
    have hnames := namesDiffer_of_mergeLayers hlayers hmerged
    split
    · exact hnames.withoutPolicies
    · exact hnames
  · refine c.throughout_of_build (fun _ _ => Element.undeclared_of_names_eq) hbuild ?_
    intro merged hmerged
    rw [if_pos hstrip]
    exact (namesDiffer_of_mergeLayers hlayers hmerged).undeclared_withoutPolicies

def loggedText : String :=
  "<app xmlns:p='u' x='1' p:x='2' combine.self='merge'><log combine.children='append'/></app>"

def loggedApp : Element :=
  ⟨"app", ⟨[("x", "2"), ("combine.self", "merge")]⟩,
    [.element ⟨"log", ⟨[("combine.children", "append")]⟩, []⟩]⟩

def loggedSite : Element :=
  ⟨"app", ⟨[("x", "3"), ("y", "${level}")]⟩, [.element ⟨"log", .empty, []⟩]⟩

def loggedMerged : Element :=
  ⟨"app", ⟨[("x", "3"), ("combine.self", "MERGE"), ("y", "${level}")]⟩,
    [.element ⟨"log", ⟨[("combine.children", "append")]⟩, []⟩]⟩

theorem names_stay_unique_logged :
    Element.ofMarkup? loggedText = some loggedApp ∧ loggedApp.NamesDiffer ∧
    merge (some loggedApp) loggedSite = .ok (some loggedMerged) ∧ loggedMerged.NamesDiffer ∧
    loggedMerged.withoutPolicies.Throughout Element.Undeclared ∧
    (∃ expanded : Element × ExpansionState Unit,
      loggedMerged.expand (noHost ⟨[]⟩) (standardChain [] .standard loggedMerged)
        (Session.start ()) = expanded ∧
      expanded.2.stop = some (.failed (.notFound "level")) ∧ expanded.1.NamesDiffer) ∧
    ∃ tree, ((Configuration.mk [loggedApp, loggedApp] [] .standard).build
      (noHost ⟨[]⟩) (Session.start ())).1 = .ok tree ∧
      tree.NamesDiffer ∧ tree.Throughout Element.Undeclared := by
  obtain ⟨hread, hmerge, hlayers, hstrip, hexpand, hbuild⟩ :=
    names_stay_unique (η := Empty) (σ := Unit)
  have htext : Element.ofMarkup? loggedText = some loggedApp := by decide +kernel
  have hmerged : merge (some loggedApp) loggedSite = .ok (some loggedMerged) := by decide +kernel
  have happ := hread _ _ htext
  have hnames := hmerge (some loggedApp) _ _ (by simpa using happ) (by decide +kernel) hmerged
  have htree : ((Configuration.mk [loggedApp, loggedApp] [] .standard).build
      (noHost ⟨[]⟩) (Session.start ())).1 =
        .ok ⟨"app", ⟨[("x", "2")]⟩, [.element ⟨"log", .empty, []⟩]⟩ := by decide +kernel
  obtain ⟨hunique, hbare⟩ := hbuild _ _ _ _ (by simpa using happ) htree
  exact ⟨htext, happ, hmerged, hnames, (hstrip _ hnames).2.1,
    ⟨_, rfl, by decide +kernel, hexpand _ _ _ _ hnames⟩, _, htree, hunique, hbare rfl⟩

end ConfigOverlay
