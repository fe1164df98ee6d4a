import ConfigOverlay.Proofs.Merge.Beside
import ConfigOverlay.Proofs.Merge.Sweep

set_option autoImplicit false

namespace ConfigOverlay

variable {key : Key}

namespace Element

/-- An element before and after an edit that leaves its own policy alone. -/
def KeepsPolicy (e e' : Element) : Prop :=
  e'.attrs.get? SelfPolicy.attributeName = e.attrs.get? SelfPolicy.attributeName

def DeclareAlike (e e' : Element) : Prop := e'.selfPolicy = e.selfPolicy

structure DominateAlike (e e' : Element) : Prop where
  alike : e.DeclareAlike e'
  unique : e.attrs.Unique
  unique' : e'.attrs.Unique

variable {e e' : Element}

theorem KeepsPolicy.declareAlike (h : e.KeepsPolicy e') (htag : e'.tag = e.tag) :
    e.DeclareAlike e' := by
  rw [DeclareAlike, selfPolicy, selfPolicy, declared, declared, htag,
    show e'.attrs.get? SelfPolicy.attributeName = e.attrs.get? SelfPolicy.attributeName from h]

theorem DeclareAlike.isSkeleton (h : e.DeclareAlike e') : e'.isSkeleton = e.isSkeleton := by
  refine decide_eq_decide.2 ?_
  rw [Declares, Declares, show e'.selfPolicy = e.selfPolicy from h]

theorem beside_dominateAlike {layer layer' : Element}
    (h : layer.Beside key KeepsPolicy layer') (hlayer : layer.Traceable key)
    (hlayer' : layer'.Traceable key) : layer.Beside key DominateAlike layer' := by
  refine ⟨h.tag, h.attrs, (forall₂_mem h.children).imp ?_⟩
  rintro node node' ⟨hnode, hnode', hvaries⟩
  cases hvaries with
  | leaf leaf => exact .leaf leaf
  | element varies =>
    cases varies with
    | same other => exact .element (.same other)
    | related here here' relation =>
      have htag := congrArg Key.tag (here'.trans here.symm)
      exact .element (.related here here' ⟨relation.declareAlike htag,
        hlayer.unique_children _ (mem_elements_iff.2 hnode),
        hlayer'.unique_children _ (mem_elements_iff.2 hnode')⟩)

end Element

theorem droppedTogether_declareAlike : DroppedTogether Element.DeclareAlike :=
  fun _ _ h policy hpolicy => ⟨policy, h.trans hpolicy, Iff.rfl⟩

theorem rel_declareAlike {result result' : Option Element}
    (h : result'.map Element.selfPolicy = result.map Element.selfPolicy) :
    Option.Rel Element.DeclareAlike result result' := by
  cases result with
  | none =>
    cases result' with
    | none => exact .none
    | some e' => simp at h
  | some e =>
    cases result' with
    | none => simp at h
    | some e' => exact .some (Option.some.inj h)

theorem mergesAccord_declareAlike :
    MergesAccord False Element.DeclareAlike Element.DominateAlike Element.DeclareAlike := by
  rintro lower lower' d d' hlower ⟨halike, hunique, hunique'⟩ result hresult hmay
  -- what is edited may make the second merge fail, so its result is assumed
  obtain ⟨result', hresult'⟩ := hmay.resolve_left id
  refine ⟨result', hresult', rel_declareAlike ?_⟩
  have hread : declaredBy Element.selfPolicy lower' = declaredBy Element.selfPolicy lower := by
    cases hlower with
    | none => rfl
    | some ha => exact ha
  obtain ⟨recessive, dominant, hbelow, habove, hleft⟩ := selfPolicy_of_merge hunique hresult
  obtain ⟨recessive', dominant', hbelow', habove', hleft'⟩ := selfPolicy_of_merge hunique' hresult'
  obtain rfl : recessive' = recessive := by simpa [hread, hbelow, eq_comm] using hbelow'
  obtain rfl : dominant' = dominant :=
    Except.ok.inj (habove'.symm.trans (Eq.trans halike habove))
  rw [hleft, hleft']

namespace Layers

variable {layers layers' next next' run run' : Layers} {layer layer' : Element}
  {rest rest' : List Element}

structure Edited (key : Key) (layers layers' : Layers) : Prop where
  merged : Option.Rel (Element.Beside key Element.DeclareAlike) layers.merged layers'.merged
  holds : ∃ child, layers.Holds key child

theorem edited_empty (key : Key) : Edited key empty empty := ⟨.none, none, holds_empty key⟩

theorem edited_of_push (hid : key.id ≠ none) (hlayers : Edited key layers layers')
    (hlayer : layer.Traceable key) (hlayer' : layer'.Traceable key)
    (hedit : layer.Beside key Element.KeepsPolicy layer') (h : layers.push layer = .ok next)
    (h' : layers'.push layer' = .ok next') : Edited key next next' := by
  obtain ⟨hmerged, lower, hlower⟩ := hlayers
  obtain ⟨upper, hupper⟩ := hlayer.exists_holds
  have habove := Element.beside_dominateAlike hedit hlayer hlayer'
  obtain ⟨child, -, hchild, -⟩ := holds_of_push hid hlower hlayer hupper h
  refine ⟨?_, child, hchild⟩
  rcases push_eq_ok h with ⟨hnone, hnext⟩ | ⟨below, merged, hbelow, hmerge, hnext⟩
  · rw [hnone] at hmerged
    have hnone' : layers'.merged = none := by
      cases hfirst : layers'.merged with
      | none => rfl
      | some root => simp [hfirst] at hmerged
    rcases push_eq_ok h' with ⟨-, hnext'⟩ | ⟨below', _, hbelow', -, -⟩
    · rw [hnext, hnext']
      exact .some (habove.imp fun _ _ h => h.alike)
    · simp [hnone'] at hbelow'
  · rw [hbelow] at hmerged
    rcases push_eq_ok h' with ⟨hnone', -⟩ | ⟨below', merged', hbelow', hmerge', hnext'⟩
    · simp [hnone'] at hmerged
    · rw [hbelow'] at hmerged
      obtain ⟨result, hresult, hrel⟩ := accord_of_merge hid mergesAccord_declareAlike
        droppedTogether_declareAlike (fun _ _ _ halike => halike) (by simpa using hmerged) habove
        (Element.undeclared_of_plain (hlower.plain below hbelow)) hlayer hlayer'.unique_children
        (hlower.holds below hbelow) hupper (some merged) hmerge (.inr ⟨_, hmerge'⟩)
      cases hresult.symm.trans hmerge'
      rw [hnext, hnext']
      exact hrel

theorem edited_of_pushAll (hid : key.id ≠ none) (hlayers : Edited key layers layers')
    (hrest : ∀ x ∈ rest, x.Traceable key) (hrest' : ∀ x ∈ rest', x.Traceable key)
    (hedits : List.Forall₂ (Element.Beside key Element.KeepsPolicy) rest rest')
    (h : layers.pushAll rest = .ok run) (h' : layers'.pushAll rest' = .ok run') :
    Edited key run run' := by
  refine pushAll_induction₂ hlayers ?_ (forall₂_mem hedits) h h'
  rintro layer layer' middle middle' next next' ⟨hmem, hmem', hedit⟩ hedited hnext hnext'
  exact edited_of_push hid hedited (hrest layer hmem) (hrest' layer' hmem') hedit hnext hnext'

end Layers

section

variable {nodes nodes' : List Node} {root root' : Element}

theorem Element.Varies.isSkeleton_eq {e e' : Element} (h : e.Varies key DeclareAlike e') :
    e'.isSkeleton = e.isSkeleton := by
  cases h with
  | same => rfl
  | related _ _ alike => exact alike.isSkeleton

theorem leadsToSkeleton_varies
    (h : List.Forall₂ (Node.Varies key Element.DeclareAlike) nodes nodes') :
    leadsToSkeleton nodes' = leadsToSkeleton nodes := by
  induction h with
  | nil => rfl
  | @cons node _ _ _ hnode _ ih =>
    cases hnode with
    | element varies => exact varies.isSkeleton_eq
    | leaf leaf =>
      cases node with
      | element e => simp [Node.element?] at leaf
      | text content => rw [leadsToSkeleton, leadsToSkeleton, ih] <;> simp
      | comment content => rw [leadsToSkeleton, leadsToSkeleton, ih] <;> simp

theorem Element.Varies.swept {e e' : Element} (h : e.Varies key DeclareAlike e') :
    e.swept.Varies key (fun _ _ => True) e'.swept := by
  cases h with
  | same other => exact .same (by rwa [e.key_swept])
  | related here here' => exact .related (by rwa [e.key_swept]) (by rwa [e'.key_swept]) trivial

theorem Node.sweptList_varies
    (h : List.Forall₂ (Node.Varies key Element.DeclareAlike) nodes nodes') :
    List.Forall₂ (Node.Varies key fun _ _ => True) (Node.sweptList nodes)
      (Node.sweptList nodes') := by
  induction h with
  | nil => exact .nil
  | @cons node _ _ _ hnode hrest ih =>
    have hleads := leadsToSkeleton_varies hrest
    cases hnode with
    | element varies =>
      rw [Node.sweptList, Node.sweptList, varies.isSkeleton_eq]
      split
      · exact ih
      · exact .cons (.element varies.swept) ih
    | leaf leaf =>
      cases node with
      | element e => simp [Node.element?] at leaf
      | text content =>
        rw [Node.sweptList, Node.sweptList, hleads]
        split
        · exact ih
        · exact .cons (.leaf leaf) ih
      | comment content =>
        rw [Node.sweptList, Node.sweptList, hleads]
        split
        · exact ih
        · exact .cons (.leaf leaf) ih

theorem Element.Beside.swept (h : root.Beside key Element.DeclareAlike root') :
    root.swept.Beside key (fun _ _ => True) root'.swept := by
  rw [root.swept_eq, root'.swept_eq]
  exact ⟨h.tag, h.attrs, Node.sweptList_varies h.children⟩

end

/-- Two runs of layers that are the same but for what is in the child of one key, be it its
attributes other than the id and its own policy, or its children. Their results are the same, child
by child, but for what is in the one child of this key that there may be. -/
theorem siblings_undisturbed {layers layers' : List Element} {tree tree' : Element}
    (hid : key.id ≠ none) (hlayers : ∀ x ∈ layers, x.Traceable key)
    (hlayers' : ∀ x ∈ layers', x.Traceable key)
    (hedits : List.Forall₂ (Element.Beside key Element.KeepsPolicy) layers layers')
    (hrun : mergeLayers layers = .ok tree) (hrun' : mergeLayers layers' = .ok tree') :
    tree.Beside key (fun _ _ => True) tree' ∧ tree.elements.countP (·.key = key) ≤ 1 := by
  obtain ⟨run, hpushed, hfinish⟩ := Layers.finish_of_mergeLayers hrun
  obtain ⟨run', hpushed', hfinish'⟩ := Layers.finish_of_mergeLayers hrun'
  obtain ⟨hmerged, child, hchild⟩ := Layers.edited_of_pushAll hid (Layers.edited_empty key)
    hlayers hlayers' hedits hpushed hpushed'
  obtain ⟨root, hroot, rfl⟩ := Layers.exists_swept_of_finish hfinish
  obtain ⟨root', hroot', rfl⟩ := Layers.exists_swept_of_finish hfinish'
  rw [Option.mem_def.1 hroot, Option.mem_def.1 hroot'] at hmerged
  have hbeside : root.Beside key Element.DeclareAlike root' := by simpa using hmerged
  have honce := Element.exists_holds_iff.1 ⟨child, hchild.holds root hroot⟩
  exact ⟨hbeside.swept, (root.countP_swept_le key).trans honce⟩

def brokerLayer (attrs : List (String × String)) (children : List Node)
    (log : List (String × String)) : Element :=
  ⟨"config", .empty, [.element ⟨"broker", ⟨("id", "b") :: attrs⟩, children⟩,
    .element ⟨"log", ⟨log⟩, []⟩]⟩

theorem beside_brokerLayer {attrs attrs' log : List (String × String)}
    (children children' : List Node)
    (h : (Attributes.mk (("id", "b") :: attrs')).get? SelfPolicy.attributeName =
      (Attributes.mk (("id", "b") :: attrs)).get? SelfPolicy.attributeName) :
    (brokerLayer attrs children log).Beside ⟨"broker", some "b"⟩ Element.KeepsPolicy
      (brokerLayer attrs' children' log) := by
  refine ⟨rfl, rfl, .cons (.element (.related ?_ ?_ h)) (.cons (.element (.same ?_)) .nil)⟩
  · simp [Element.key, Element.id?, Attributes.get?]
  · simp [Element.key, Element.id?, Attributes.get?]
  · simp [Element.key]

theorem siblings_undisturbed_broker :
    ∃ tree tree',
      mergeLayers [brokerLayer [("combine.self", "DEFAULTS"), ("port", "1")]
          [.element ⟨"queue", .empty, []⟩] [("id", "x"), ("combine.self", "OVERRIDABLE_BY_TAG")],
        brokerLayer [("port", "2")] [] [("id", "y")]] = .ok tree ∧
      mergeLayers [brokerLayer [("combine.self", "DEFAULTS"), ("combine.children", "APPEND")]
          [.text "a"] [("id", "x"), ("combine.self", "OVERRIDABLE_BY_TAG")],
        brokerLayer [("host", "h")] [.element ⟨"topic", .empty, []⟩] [("id", "y")]] = .ok tree' ∧
      tree.Beside ⟨"broker", some "b"⟩ (fun _ _ => True) tree' ∧
      tree.elements.countP (·.key = ⟨"broker", some "b"⟩) ≤ 1 := by
  have hrun : mergeLayers [brokerLayer [("combine.self", "DEFAULTS"), ("port", "1")]
        [.element ⟨"queue", .empty, []⟩] [("id", "x"), ("combine.self", "OVERRIDABLE_BY_TAG")],
      brokerLayer [("port", "2")] [] [("id", "y")]] =
    .ok (brokerLayer [("port", "2")] [.element ⟨"queue", .empty, []⟩] [("id", "y")]) := by
      decide +kernel
  have hrun' : mergeLayers [brokerLayer [("combine.self", "DEFAULTS"),
        ("combine.children", "APPEND")] [.text "a"]
        [("id", "x"), ("combine.self", "OVERRIDABLE_BY_TAG")],
      brokerLayer [("host", "h")] [.element ⟨"topic", .empty, []⟩] [("id", "y")]] =
    .ok (brokerLayer [("combine.children", "APPEND"), ("host", "h")]
      [.text "a", .element ⟨"topic", .empty, []⟩] [("id", "y")]) := by decide +kernel
  refine ⟨_, _, hrun, hrun', siblings_undisturbed (by decide) (by decide +kernel)
    (by decide +kernel) ?_ hrun hrun'⟩
  exact .cons (beside_brokerLayer _ _ rfl) (.cons (beside_brokerLayer _ _ rfl) .nil)

end ConfigOverlay
