import ConfigOverlay.Proofs.Markup.Legal
import ConfigOverlay.Proofs.Markup.Settled

set_option autoImplicit false

namespace ConfigOverlay

namespace Markup

variable {scope : Scope} {name : QName} {attributes : List RawAttribute} {closed : Bool}
  {e : OpenElement} {outer : List OpenElement} {progress next : Progress}

def IsReadableLocal (a : QName × String) : Prop :=
  IsReadable (a.1.localName, a.2) ∧ a.1.localName ≠ "xmlns"

namespace Declared

variable {declared declared' : Declared}

theorem attributes_of_bind {qualifier space : String}
    (h : declared.bind qualifier space = some declared') :
    declared'.attributes = declared.attributes := by
  unfold Declared.bind at h
  split at h
  · cases h
  · split at h
    · split at h
      · cases h
        rfl
      · cases h
    · split at h
      · cases h
      · cases h
        rfl

theorem forall_mem_add {a : RawAttribute} (h : declared.add a = some declared') (ha : a.IsLegal)
    (hdeclared : ∀ b ∈ declared.attributes, IsReadableLocal b) :
    ∀ b ∈ declared'.attributes, IsReadableLocal b := by
  obtain ⟨decoded, hdecoded, h⟩ := Option.bind_eq_some_iff.1 h
  simp only at h
  split at h
  · rw [attributes_of_bind h]
    exact hdeclared
  · split at h
    · split at h
      · cases h
      · cases h
        exact hdeclared
    · next hlocal =>
      cases h
      refine List.forall_mem_append.2 ⟨hdeclared, List.forall_mem_singleton.2 ⟨⟨ha.1, ?_⟩, hlocal⟩⟩
      rw [String.toList_ofList]
      exact isLegal_of_decodeValue hdecoded ha.2

theorem forall_mem_foldlM (h : attributes.foldlM Declared.add declared = some declared')
    (hattributes : ∀ a ∈ attributes, a.IsLegal)
    (hdeclared : ∀ b ∈ declared.attributes, IsReadableLocal b) :
    ∀ b ∈ declared'.attributes, IsReadableLocal b := by
  induction attributes generalizing declared with
  | nil =>
    cases h
    exact hdeclared
  | cons a attributes ih =>
    obtain ⟨ha, hattributes⟩ := List.forall_mem_cons.1 hattributes
    obtain ⟨middle, hmiddle, h⟩ := Option.bind_eq_some_iff.1 h
    exact ih h hattributes (forall_mem_add hmiddle ha hdeclared)

end Declared

theorem Scope.of_resolve {declared : List (QName × String)} {attrs : Attributes}
    (h : scope.resolve declared = some attrs) (hdeclared : ∀ a ∈ declared, IsReadableLocal a) :
    (∀ entry ∈ attrs.entries, IsReadable entry ∧ entry.1 ≠ "xmlns") ∧ attrs.Unique := by
  obtain ⟨names, -, h⟩ := Option.bind_eq_some_iff.1 h
  rw [Option.ite_none_right_eq_some] at h
  obtain ⟨-, heq⟩ := h
  cases heq
  refine ⟨Attributes.forall_mem_overlay (by simp [Attributes.empty]) fun entry hentry => ?_,
    Attributes.unique_overlay List.nodup_nil⟩
  obtain ⟨a, ha, rfl⟩ := List.mem_map.1 hentry
  exact hdeclared a ha

structure OpenElement.Writable (e : OpenElement) : Prop where
  name : isLocalName e.name.localName.toList = true
  entries : ∀ entry ∈ e.attrs.entries, IsReadable entry ∧ entry.1 ≠ "xmlns"
  unique : e.attrs.Unique
  children : ∀ node ∈ e.children, node.Writable
  text : ∀ s, e.text = some s → s.all isLegal = true

namespace OpenElement.Writable

theorem of_ofTag (h : OpenElement.ofTag scope name attributes = some e)
    (hname : isLocalName name.localName.toList = true)
    (hattributes : ∀ a ∈ attributes, a.IsLegal) : e.Writable := by
  obtain ⟨declared, hdeclared, h⟩ := Option.bind_eq_some_iff.1 h
  simp only [Option.ite_none_right_eq_some] at h
  obtain ⟨attrs, hattrs, rfl⟩ := Option.map_eq_some_iff.1 h.2
  obtain ⟨hentries, hunique⟩ := Scope.of_resolve hattrs
    (Declared.forall_mem_foldlM hdeclared hattributes (by simp))
  exact ⟨hname, hentries, hunique, by simp, by simp⟩

theorem addText {s : List Char} (h : e.Writable) (hs : s.all isLegal = true) :
    (e.addText s).Writable := by
  refine { h with text := ?_ }
  rintro _ ⟨⟩
  cases htext : e.text with
  | none => simpa using hs
  | some s' => simp [h.text s' htext, hs]

theorem endText (h : e.Writable) : e.endText.Writable := by
  obtain ⟨name, scope, attrs, children, text⟩ := e
  cases text with
  | none => exact h
  | some s =>
    have hs : (Node.text (String.ofList s)).Writable := by
      rw [Node.Writable, Node.isWritable, String.toList_ofList]
      exact h.text s rfl
    refine { h with children := List.forall_mem_cons.2 ⟨hs, h.children⟩, text := ?_ }
    rintro _ ⟨⟩

theorem addChild {node : Node} (h : e.Writable) (hnode : node.Writable) :
    (e.addChild node).Writable :=
  { h.endText with children := List.forall_mem_cons.2 ⟨hnode, h.endText.children⟩ }

theorem close (h : e.Writable) : e.close.Throughout Element.Writable := by
  have hchildren : ∀ node ∈ e.endText.children.reverse, node.Writable :=
    fun node hnode => h.endText.children node (List.mem_reverse.1 hnode)
  refine .mk ⟨h.name, h.entries, h.unique, fun node hnode => ?_⟩ fun child hchild =>
    hchildren _ hchild
  exact Node.isWritable_of_writable (hchildren node hnode)

end OpenElement.Writable

def Progress.Writable : Progress → Prop
  | .before => True
  | .inside current outer => ∀ e ∈ current :: outer, e.Writable
  | .after root => root.Throughout Element.Writable

namespace Progress

theorem writable_finish {root : Element} (h : root.Throughout Element.Writable)
    (houter : ∀ e ∈ outer, e.Writable) : (finish root outer).Writable := by
  cases outer with
  | nil => exact h
  | cons parent outer =>
    obtain ⟨hparent, houter⟩ := List.forall_mem_cons.1 houter
    exact List.forall_mem_cons.2 ⟨hparent.addChild h, houter⟩

theorem writable_start (h : start outer name attributes closed = some next)
    (hname : isLocalName name.localName.toList = true)
    (hattributes : ∀ a ∈ attributes, a.IsLegal) (houter : ∀ e ∈ outer, e.Writable) :
    next.Writable := by
  obtain ⟨e, he, rfl⟩ := Option.map_eq_some_iff.1 h
  have hopened := OpenElement.Writable.of_ofTag he hname hattributes
  split
  · exact writable_finish hopened.close houter
  · exact List.forall_mem_cons.2 ⟨hopened, houter⟩

/-- A token that may be written keeps what is open writable. -/
theorem writable_next {t : Token} (h : progress.next t = some next) (ht : t.IsLegal)
    (hprogress : progress.Writable) : next.Writable := by
  cases progress with
  | before =>
    cases t with
    | startTag name attributes closed => exact writable_start h ht.1 ht.2 (by simp)
    | text raw =>
      rw [Progress.next, Option.ite_none_right_eq_some] at h
      cases h.2
      trivial
    | comment content =>
      cases h
      trivial
    | instruction =>
      cases h
      trivial
    | endTag name => cases h
    | cdata content => cases h
  | inside current outer =>
    obtain ⟨hcurrent, houter⟩ := List.forall_mem_cons.1 hprogress
    cases t with
    | startTag name attributes closed => exact writable_start h ht.1 ht.2 hprogress
    | endTag name =>
      rw [Progress.next, Option.ite_none_right_eq_some] at h
      cases h.2
      exact writable_finish hcurrent.close houter
    | text raw =>
      obtain ⟨s, hs, rfl⟩ := Option.map_eq_some_iff.1 h
      exact List.forall_mem_cons.2 ⟨hcurrent.addText (isLegal_of_decodeText hs ht), houter⟩
    | cdata content =>
      cases h
      exact List.forall_mem_cons.2 ⟨hcurrent.addText (isLegal_decodeSection ht), houter⟩
    | comment content =>
      cases h
      have hcomment : (Node.comment (String.ofList content)).Writable := by
        rw [Node.Writable, Node.isWritable, String.toList_ofList, ht.1, ht.2]
        rfl
      exact List.forall_mem_cons.2 ⟨hcurrent.addChild hcomment, houter⟩
    | instruction =>
      cases h
      exact List.forall_mem_cons.2 ⟨hcurrent.endText, houter⟩
  | after root =>
    cases t with
    | text raw =>
      rw [Progress.next, Option.ite_none_right_eq_some] at h
      cases h.2
      exact hprogress
    | comment content =>
      cases h
      exact hprogress
    | instruction =>
      cases h
      exact hprogress
    | startTag name attributes closed => cases h
    | endTag name => cases h
    | cdata content => cases h

theorem writable_foldlM {ts : List Token} (h : ts.foldlM Progress.next progress = some next)
    (hts : ∀ t ∈ ts, t.IsLegal) (hprogress : progress.Writable) : next.Writable := by
  induction ts generalizing progress with
  | nil =>
    cases h
    exact hprogress
  | cons t ts ih =>
    obtain ⟨ht, hts⟩ := List.forall_mem_cons.1 hts
    obtain ⟨middle, hmiddle, h⟩ := Option.bind_eq_some_iff.1 h
    exact ih h hts (writable_next hmiddle ht hprogress)

end Progress

theorem writable_of_readDocument {s : List Char} {root : Element} (h : readDocument s = some root) :
    root.Throughout Element.Writable := by
  simp only [readDocument, Option.bind_eq_bind, Option.bind_eq_some_iff] at h
  obtain ⟨s', -, ts, htokens, progress, hprogress, hroot⟩ := h
  have hwritable := Progress.writable_foldlM hprogress (isLegal_of_tokens htokens) trivial
  cases progress with
  | before => cases hroot
  | inside current outer => cases hroot
  | after root' =>
    cases hroot
    exact hwritable

end Markup

/-- The tree of a document is written as a document again, and of the same tree up to what documents
do not keep. It is the same tree exactly if the tree is settled. -/
theorem rewritten_document_reads_back {s : String} {e : Element}
    (h : Element.ofMarkup? s = some e) :
    Element.ofMarkup? e.toMarkup = some (e.normalised Markup.keepsReturn) ∧
      (Element.ofMarkup? e.toMarkup = some e ↔ e.Throughout Element.Settled) := by
  have hwritable : e.Throughout Element.Writable := Markup.writable_of_readDocument h
  have hread : Element.ofMarkup? e.toMarkup = some (e.normalised Markup.keepsReturn) := by
    rw [Element.ofMarkup?, Element.toMarkup_eq, String.toList_ofList,
      Markup.readDocument_writeElement hwritable]
  exact ⟨hread, by rw [hread, Option.some.injEq, Element.normalised_eq_self_iff]⟩

theorem rewritten_document_reads_back_lineEnds :
    let e : Element := ⟨"r", ⟨[("a", "\n")]⟩, [.text "\rx", .comment "c"]⟩
    Element.ofMarkup? "<r a='&#10;'>&#13;x<!--c--></r>" = some e ∧
      Element.ofMarkup? e.toMarkup = some ⟨"r", ⟨[("a", " ")]⟩, [.text "\nx", .comment "c"]⟩ := by
  have hread : Element.ofMarkup? "<r a='&#10;'>&#13;x<!--c--></r>" =
      some ⟨"r", ⟨[("a", "\n")]⟩, [.text "\rx", .comment "c"]⟩ := by decide +kernel
  exact ⟨hread, (rewritten_document_reads_back hread).1.trans (by decide +kernel)⟩

/-- Two texts with an instruction between them are one text the second time. -/
theorem parted_texts_are_joined :
    ¬ ∀ (s : String) (e : Element), Element.ofMarkup? s = some e →
      Element.ofMarkup? e.toMarkup = some e := by
  intro h
  exact absurd (h "<r>x<?p?>y</r>" ⟨"r", .empty, [.text "x", .text "y"]⟩ (by decide +kernel))
    (by decide +kernel)

end ConfigOverlay
