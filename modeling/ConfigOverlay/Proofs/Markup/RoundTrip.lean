import ConfigOverlay.Markup.Reader
import ConfigOverlay.Proofs.Markup.Token
import ConfigOverlay.Proofs.Markup.Written
import ConfigOverlay.Proofs.Tree.Attributes
import ConfigOverlay.Proofs.Tree.Throughout

/-!
Reading a document that has been written for a tree. The reader stands in front of an element, with
others open around it. Behind what has been written it stands as if the element had been handed to
it, up to what documents do not keep: which texts stood side by side, texts without a character, and
line ends and tabs as they were.
-/

set_option autoImplicit false

namespace ConfigOverlay

section

open Markup

def Node.isWritable : Node → Bool
  | .element _ => true
  | .text content => content.toList.all isLegal
  | .comment content => content.toList.all isLegal && isCommentContent content.toList

/-- An element that can be written and read again, whatever the elements below it are. -/
structure Element.Writable (e : Element) : Prop where
  tag : isLocalName e.tag.toList = true
  entries : ∀ entry ∈ e.attrs.entries, IsReadable entry ∧ entry.1 ≠ "xmlns"
  unique : e.attrs.Unique
  children : ∀ node ∈ e.children, node.isWritable = true

instance : DecidablePred Element.Writable := fun e =>
  decidable_of_iff
    (isLocalName e.tag.toList = true ∧
      (∀ entry ∈ e.attrs.entries, IsReadable entry ∧ entry.1 ≠ "xmlns") ∧
      e.attrs.Unique ∧ ∀ node ∈ e.children, node.isWritable = true)
    ⟨fun ⟨htag, hentries, hunique, hchildren⟩ => ⟨htag, hentries, hunique, hchildren⟩,
      fun h => ⟨h.tag, h.entries, h.unique, h.children⟩⟩

def Node.Writable : Node → Prop
  | .element e => e.Throughout Element.Writable
  | .text content => (Node.text content).isWritable = true
  | .comment content => (Node.comment content).isWritable = true

theorem Node.isWritable_of_writable {node : Node} (h : node.Writable) : node.isWritable = true := by
  cases node with
  | element e => rfl
  | text content => exact h
  | comment content => exact h

theorem Node.writable_of_mem {e : Element} {node : Node} (h : e.Throughout Element.Writable)
    (hnode : node ∈ e.children) : node.Writable := by
  cases node with
  | element child => exact h.child hnode
  | text content => exact h.here.children _ hnode
  | comment content => exact h.here.children _ hnode

def spacedText (value : String) : String := String.ofList (spaced value.toList)

def Node.ofRun (keeps : Option Char → List Char → Bool) (run : List Char) : List Node :=
  if run = [] then [] else [.text (String.ofList (lineEnds keeps none run))]

theorem Node.reverse_ofRun (keeps : Option Char → List Char → Bool) (run : List Char) :
    (ofRun keeps run).reverse = ofRun keeps run := by
  rw [ofRun]
  split <;> rfl

mutual
/-- The tree without what documents do not keep: texts side by side are one text, a text without a
character is none, and line ends and tabs are normalised. -/
def Element.normalised (keeps : Option Char → List Char → Bool) : Element → Element
  | ⟨tag, attrs, children⟩ =>
    ⟨tag, attrs.mapValues spacedText, Node.normalisedList keeps [] children⟩

/-- The characters come from the texts directly before the nodes. -/
def Node.normalisedList (keeps : Option Char → List Char → Bool) : List Char → List Node → List Node
  | run, [] => Node.ofRun keeps run
  | run, .text content :: rest => Node.normalisedList keeps (run ++ content.toList) rest
  | run, .comment content :: rest =>
    Node.ofRun keeps run ++ .comment content :: Node.normalisedList keeps [] rest
  | run, .element e :: rest =>
    Node.ofRun keeps run ++ .element (e.normalised keeps) :: Node.normalisedList keeps [] rest
end

end

namespace Markup

def Progress.readOn (progress : Progress) (s : List Char) : Option Progress :=
  (tokens s).bind fun ts => ts.foldlM Progress.next progress

variable {s rest tail run : List Char} {progress : Progress} {current : OpenElement}
  {outer : List OpenElement} {scope : Scope} {tag : String} {attrs : Attributes} {made : List Node}

theorem foldlM_add_ofEntry {entries : List (String × String)}
    (h : ∀ entry ∈ entries, entry.1 ≠ "xmlns") (declared : Declared) :
    (entries.map RawAttribute.ofEntry).foldlM Declared.add declared =
      some ⟨declared.bindings, declared.attributes ++
        entries.map fun entry => (⟨"", entry.1⟩, spacedText entry.2)⟩ := by
  induction entries generalizing declared with
  | nil => simp
  | cons entry entries ih =>
    have hentry : entry.1 ≠ "xmlns" := h entry List.mem_cons_self
    rw [List.map_cons, List.foldlM_cons, Declared.add, RawAttribute.ofEntry, decodeValue_encode]
    simp [hentry, ih fun other hother => h other (List.mem_cons_of_mem entry hother), spacedText]

theorem mapM_attributeName? (entries : List (String × String)) :
    (entries.map fun entry => ((⟨"", entry.1⟩ : QName), entry.2)).mapM
        (fun a => scope.attributeName? a.1) =
      some ((entries.map (·.1)).map fun name => (none, name)) := by
  induction entries with
  | nil => rfl
  | cons entry entries ih =>
    rw [List.map_cons, List.mapM_cons, ih]
    rfl

theorem resolve_unqualified (h : attrs.Unique) :
    scope.resolve (attrs.entries.map fun entry => (⟨"", entry.1⟩, entry.2)) = some attrs := by
  have hnames : ((attrs.entries.map (·.1)).map fun name => ((none : Option String), name)).Nodup :=
    List.Nodup.map (fun _ _ heq => (Prod.mk.inj heq).2) h
  have hpairs : (attrs.entries.map fun entry => ((⟨"", entry.1⟩ : QName), entry.2)).map
      (fun a => (a.1.localName, a.2)) = attrs.entries := by
    rw [List.map_map]
    exact List.map_id _
  rw [Scope.resolve, mapM_attributeName?, Option.bind_some, if_pos hnames, hpairs,
    Attributes.ofPairs, Attributes.empty_overlay h]

/-- An open element, with its finished children, last one first, and the characters of the text that
is being read. -/
def OpenElement.reading (scope : Scope) (tag : String) (attrs : Attributes) (made : List Node)
    (run : List Char) : OpenElement :=
  ⟨⟨"", tag⟩, scope, attrs, made,
    if run = [] then none else some (lineEnds keepsReturn none run)⟩

theorem OpenElement.ofTag_written {e : Element} (h : e.Writable) :
    OpenElement.ofTag scope ⟨"", e.tag⟩ (e.attrs.entries.map RawAttribute.ofEntry) =
      some (.reading scope e.tag (e.attrs.mapValues spacedText) [] []) := by
  have hadmits : scope.admits "" = true := rfl
  have hresolve : scope.resolve
      (e.attrs.entries.map fun entry => (⟨"", entry.1⟩, spacedText entry.2)) =
        some (e.attrs.mapValues spacedText) := by
    rw [← resolve_unqualified (Attributes.unique_mapValues spacedText h.unique), Attributes.mapValues,
      List.map_map]
    rfl
  rw [OpenElement.ofTag, Declared.ofTag,
    foldlM_add_ofEntry fun entry hentry => (h.entries entry hentry).2]
  simp [hadmits, hresolve, reading]

theorem tokens_of_read {t : Token} (h : Token.read s = some (t, rest)) :
    tokens s = (tokens rest).map (t :: ·) := by
  rw [tokens.eq_def]
  split
  · next hempty =>
    rw [List.isEmpty_iff.1 hempty] at h
    cases h
  · split
    · next hnone =>
      rw [h] at hnone
      cases hnone
    · next hsome =>
      rw [h] at hsome
      cases hsome
      rfl

namespace Progress

theorem readOn_nil : progress.readOn [] = some progress := by
  rw [readOn, tokens.eq_def]
  rfl

theorem readOn_token {t : Token} (h : Token.read s = some (t, rest)) :
    progress.readOn s = (progress.next t).bind (·.readOn rest) := by
  rw [readOn, tokens_of_read h]
  cases htokens : tokens rest with
  | none => cases progress.next t <;> simp [readOn, htokens]
  | some ts => cases hnext : progress.next t <;> simp [readOn, htokens, hnext]

def Opens (progress : Progress) (outer : List OpenElement) : Prop :=
  ∀ name attributes closed,
    progress.next (.startTag name attributes closed) = start outer name attributes closed

theorem opens_before : Opens .before [] := fun _ _ _ => rfl

theorem opens_inside : Opens (.inside current outer) (current :: outer) := fun _ _ _ => rfl

end Progress

theorem reverse_cons_ofRun (node : Node) (nodes : List Node) :
    (node :: (Node.ofRun keepsReturn run ++ made)).reverse ++ nodes =
      made.reverse ++ (Node.ofRun keepsReturn run ++ node :: nodes) := by
  simp [Node.reverse_ofRun]

theorem writeElement_begins (e : Element) (tail : List Char) :
    ∃ others, writeElement e tail = '<' :: (e.tag.toList ++ others) := by
  obtain ⟨tag, attrs, children⟩ := e
  cases children <;> exact ⟨_, rfl⟩

namespace OpenElement

theorem endText_reading : (reading scope tag attrs made run).endText =
    reading scope tag attrs (Node.ofRun keepsReturn run ++ made) [] := by
  rw [reading, Node.ofRun]
  split <;> rfl

theorem addChild_reading (node : Node) : (reading scope tag attrs made run).addChild node =
    reading scope tag attrs (node :: (Node.ofRun keepsReturn run ++ made)) [] := by
  rw [addChild, endText_reading]
  rfl

theorem close_reading : (reading scope tag attrs made run).close =
    ⟨tag, attrs, made.reverse ++ Node.ofRun keepsReturn run⟩ := by
  rw [close, endText_reading, ← Node.reverse_ofRun, ← List.reverse_append, Node.reverse_ofRun]
  rfl

end OpenElement

open OpenElement (reading)

namespace Progress

theorem readOn_run (hrun : run.all isLegal = true) (htail : ∃ others, tail = '<' :: others) :
    (inside (reading scope tag attrs made []) outer).readOn (encode run ++ tail) =
      (inside (reading scope tag attrs made run) outer).readOn tail := by
  obtain ⟨others, rfl⟩ := htail
  cases run with
  | nil => rfl
  | cons c run =>
    rw [readOn_token (Token.read_text (List.cons_ne_nil c run) hrun), next, decodeText_encode]
    rfl

theorem start_written (outer : List OpenElement) {e : Element} (h : e.Writable) (closed : Bool) :
    ∃ scope, start outer ⟨"", e.tag⟩ (e.attrs.entries.map RawAttribute.ofEntry) closed =
      let opened := reading scope e.tag (e.attrs.mapValues spacedText) [] []
      some (if closed then finish opened.close outer else inside opened outer) := by
  refine ⟨(outer.head?.map (·.scope)).getD [], ?_⟩
  rw [start, OpenElement.ofTag_written h]
  rfl

theorem next_endTag :
    (inside (reading scope tag attrs made run) outer).next (.endTag ⟨"", tag⟩) =
      some (finish ⟨tag, attrs, made.reverse ++ Node.ofRun keepsReturn run⟩ outer) := by
  rw [next, OpenElement.close_reading]
  exact if_pos rfl

mutual
theorem readOn_writeElement : (e : Element) → e.Throughout Element.Writable →
    ∀ (progress : Progress) (outer : List OpenElement) (tail : List Char), progress.Opens outer →
    progress.readOn (writeElement e tail) = (finish (e.normalised keepsReturn) outer).readOn tail
  | ⟨tag, attrs, []⟩, h, progress, outer, tail, hopens => by
    have hentries := fun entry hentry => (h.here.entries entry hentry).1
    obtain ⟨scope, hstart⟩ := start_written outer h.here true
    rw [writeElement,
      readOn_token (Token.read_startTag h.here.tag hentries rfl readAttributes_closedEnd), hopens,
      hstart]
    rfl
  | ⟨tag, attrs, node :: rest⟩, h, progress, outer, tail, hopens => by
    have hentries := fun entry hentry => (h.here.entries entry hentry).1
    obtain ⟨scope, hstart⟩ := start_written outer h.here false
    rw [writeElement, readOn_token (Token.read_startTag h.here.tag hentries rfl readAttributes_end),
      hopens, hstart]
    exact readOn_writeNodes (node :: rest) (fun _ hnode => Node.writable_of_mem h hnode) h.here.tag
      scope (attrs.mapValues spacedText) [] [] rfl outer tail

/-- The nodes end with the end tag of the element they are in. The run has been written directly
before them, so it is one text with the texts they begin with. -/
theorem readOn_writeNodes : (nodes : List Node) → (∀ node ∈ nodes, node.Writable) →
    ∀ {tag : String}, isLocalName tag.toList = true →
    ∀ (scope : Scope) (attrs : Attributes) (made : List Node) (run : List Char),
    run.all isLegal = true → ∀ (outer : List OpenElement) (tail : List Char),
    (inside (reading scope tag attrs made []) outer).readOn
        (encode run ++ writeNodes nodes ('<' :: '/' :: tag.toList ++ '>' :: tail)) =
      (finish ⟨tag, attrs, made.reverse ++ Node.normalisedList keepsReturn run nodes⟩ outer).readOn
        tail
  | [], _, tag, htag, scope, attrs, made, run, hrun, outer, tail => by
    rw [writeNodes, readOn_run hrun, readOn_token (Token.read_endTag htag), next_endTag]
    · rfl
    · exact ⟨_, rfl⟩
  | .text content :: rest, h, tag, htag, scope, attrs, made, run, hrun, outer, tail => by
    obtain ⟨hcontent, hnodes⟩ := List.forall_mem_cons.1 h
    have hlonger : (run ++ content.toList).all isLegal = true := by
      rw [List.all_append, hrun]
      exact hcontent
    have hrest := readOn_writeNodes rest hnodes htag scope attrs made _ hlonger outer tail
    rw [encode, List.flatMap_append, List.append_assoc] at hrest
    exact hrest
  | .comment content :: rest, h, tag, htag, scope, attrs, made, run, hrun, outer, tail => by
    obtain ⟨hnode, hnodes⟩ := List.forall_mem_cons.1 h
    obtain ⟨hlegal, hcomment⟩ := (Bool.and_eq_true _ _).mp hnode
    have hrest := readOn_writeNodes rest hnodes htag scope attrs
      (.comment content :: (Node.ofRun keepsReturn run ++ made)) [] rfl outer tail
    rw [writeNodes, writeNode, readOn_run hrun,
      readOn_token (Token.read_comment hlegal hcomment), next, OpenElement.addChild_reading,
      String.ofList_toList]
    · rw [reverse_cons_ofRun] at hrest
      exact hrest
    · exact ⟨_, rfl⟩
  | .element e :: rest, h, tag, htag, scope, attrs, made, run, hrun, outer, tail => by
    obtain ⟨hnode, hnodes⟩ := List.forall_mem_cons.1 h
    have hrest := readOn_writeNodes rest hnodes htag scope attrs
      (.element (e.normalised keepsReturn) :: (Node.ofRun keepsReturn run ++ made)) [] rfl outer
      tail
    rw [writeNodes, writeNode, readOn_run hrun, readOn_writeElement e hnode _ _ _ opens_inside,
      finish, OpenElement.addChild_reading]
    · rw [reverse_cons_ofRun] at hrest
      exact hrest
    · obtain ⟨others, hothers⟩ := writeElement_begins e
        (writeNodes rest ('<' :: '/' :: tag.toList ++ '>' :: tail))
      exact ⟨_, hothers⟩
end

end Progress

theorem readOpening_tag (h : beginsName s = true) : readOpening ('<' :: s) = some ('<' :: s) := by
  cases s with
  | nil => cases h
  | cons c s =>
    have hc : c ≠ '?' := by
      rintro rfl
      cases h
    simp [readOpening, List.isPrefixOf?, Ne.symm hc]

theorem readDocument_writeElement {e : Element} (h : e.Throughout Element.Writable) :
    readDocument (writeElement e []) = some (e.normalised keepsReturn) := by
  have hopening : readOpening (writeElement e []) = some (writeElement e []) := by
    obtain ⟨others, hothers⟩ := writeElement_begins e []
    rw [hothers]
    exact readOpening_tag (beginsName_append (beginsName_of_isLocalName h.here.tag))
  have hread : Progress.readOn .before (writeElement e []) =
      some (.after (e.normalised keepsReturn)) := by
    rw [Progress.readOn_writeElement e h _ _ _ Progress.opens_before, Progress.readOn_nil]
    rfl
  obtain ⟨ts, htokens, hprogress⟩ := Option.bind_eq_some_iff.1 hread
  simp [readDocument, hopening, htokens, hprogress, Progress.root?]

end Markup

/-- A document that has been written for a tree of names, values, texts and comments that can stand
in one is a document, and of this tree up to what documents do not keep. -/
theorem written_tree_reads_back {e : Element} (h : e.Throughout Element.Writable) :
    Element.ofMarkup? e.toMarkup = some (e.normalised Markup.keepsReturn) := by
  rw [Element.ofMarkup?, Element.toMarkup_eq, String.toList_ofList, Markup.readDocument_writeElement h]

theorem written_tree_reads_back_markup :
    let e : Element := ⟨"a", ⟨[("b", "\"><\t/>")]⟩,
      [.text "]]>\r", .text "\n</a>", .comment "<a>", .text "", .element ⟨"c", .empty, []⟩]⟩
    e.Throughout Element.Writable ∧
      Element.ofMarkup? e.toMarkup = some ⟨"a", ⟨[("b", "\">< />")]⟩,
        [.text "]]>\n</a>", .comment "<a>", .element ⟨"c", .empty, []⟩]⟩ :=
  ⟨by decide +kernel, (written_tree_reads_back (by decide +kernel)).trans (by decide +kernel)⟩

/-- Not every carriage return in a text becomes a line feed: directly before a reference it
stays. -/
theorem return_before_reference_stays :
    ¬ ∀ e : Element, e.Throughout Element.Writable →
      Element.ofMarkup? e.toMarkup = some (e.normalised fun _ _ => false) := by
  intro h
  exact absurd (h ⟨"r", .empty, [.text "\r<"]⟩ (by decide +kernel)) (by decide +kernel)

end ConfigOverlay
