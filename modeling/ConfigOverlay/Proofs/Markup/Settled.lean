import ConfigOverlay.Proofs.Markup.RoundTrip
import Mathlib.Data.List.Chain

/-!
The trees that documents keep as they are: texts stand apart and hold characters, and line ends and
tabs stand only where the reader leaves them.
-/

set_option autoImplicit false

namespace ConfigOverlay

open Markup

/-- No two texts stand side by side, and each text holds characters, which come back as they are. -/
structure Node.SettledList (nodes : List Node) : Prop where
  apart : nodes.IsChain fun a b => ¬(a.isText = true ∧ b.isText = true)
  texts : ∀ content, .text content ∈ nodes →
    content.toList ≠ [] ∧ lineEnds keepsReturn none content.toList = content.toList

structure Element.Settled (e : Element) : Prop where
  values : ∀ entry ∈ e.attrs.entries, ∀ c ∈ entry.2.toList, c ∉ ['\r', '\n', '\t']
  children : Node.SettledList e.children

theorem Markup.not_mem_of_mem_spaced {c : Char} (s : List Char) (hc : c ∈ spaced s) :
    c ∉ ['\r', '\n', '\t'] := by
  fun_induction spaced s with
  | case1 => exact absurd hc List.not_mem_nil
  | case2 rest ih =>
    rcases List.mem_cons.1 hc with rfl | hc
    · decide
    · exact ih hc
  | case3 d rest hpair ih =>
    rcases List.mem_cons.1 hc with rfl | hc
    · split
      · decide
      · next hd => simpa [or_assoc] using hd
    · exact ih hc

theorem Markup.spaced_eq_self_iff {s : List Char} :
    spaced s = s ↔ ∀ c ∈ s, c ∉ ['\r', '\n', '\t'] := by
  refine ⟨fun h c hc => not_mem_of_mem_spaced s (h.symm ▸ hc), fun h => ?_⟩
  fun_induction spaced s with
  | case1 => rfl
  | case2 rest ih => exact absurd (h _ List.mem_cons_self) (by simp)
  | case3 c rest hpair ih =>
    obtain ⟨hc, hrest⟩ := List.forall_mem_cons.1 h
    rw [ih hrest, if_neg (by simpa [or_assoc] using hc)]

theorem Attributes.mapValues_spacedText_eq_self_iff {attrs : Attributes} :
    attrs.mapValues spacedText = attrs ↔
      ∀ entry ∈ attrs.entries, ∀ c ∈ entry.2.toList, c ∉ ['\r', '\n', '\t'] := by
  obtain ⟨entries⟩ := attrs
  have hvalue (value : String) :
      spacedText value = value ↔ ∀ c ∈ value.toList, c ∉ ['\r', '\n', '\t'] := by
    rw [← spaced_eq_self_iff, spacedText, String.ext_iff, String.toList_ofList]
  rw [mapValues, Attributes.mk.injEq]
  induction entries with
  | nil => simp
  | cons entry entries ih =>
    obtain ⟨name, value⟩ := entry
    rw [List.map_cons, List.cons.injEq, Prod.mk.injEq, hvalue]
    simp only [true_and, List.forall_mem_cons]
    exact and_congr_right fun _ => ih

namespace Node

variable {node : Node} {nodes : List Node} {run : List Char}
  {keeps : Option Char → List Char → Bool}

theorem length_ofRun_le (keeps : Option Char → List Char → Bool) (run : List Char) :
    (ofRun keeps run).length ≤ 1 := by
  rw [ofRun]
  split <;> simp

theorem length_normalisedList_le (keeps : Option Char → List Char → Bool) (run : List Char)
    (nodes : List Node) :
    (normalisedList keeps run nodes).length ≤ (ofRun keeps run).length + nodes.length := by
  induction nodes generalizing run with
  | nil => exact Nat.le_refl _
  | cons node rest ih =>
    cases node with
    | text content =>
      have hrest := ih (run ++ content.toList)
      have hrun := length_ofRun_le keeps (run ++ content.toList)
      rw [normalisedList, List.length_cons]
      omega
    | comment content =>
      have hrest := ih []
      have hrun : (ofRun keeps []).length = 0 := rfl
      rw [normalisedList, List.length_append, List.length_cons, List.length_cons]
      omega
    | element e =>
      have hrest := ih []
      have hrun : (ofRun keeps []).length = 0 := rfl
      rw [normalisedList, List.length_append, List.length_cons, List.length_cons]
      omega

theorem normalisedList_of_not_text (h : ∀ node ∈ nodes.head?, node.isText = false) :
    normalisedList keeps run nodes = ofRun keeps run ++ normalisedList keeps [] nodes := by
  cases nodes with
  | nil => simp [normalisedList, ofRun]
  | cons node rest =>
    cases node with
    | text content => cases h _ rfl
    | comment content => rfl
    | element e => rfl

theorem settledList_cons : SettledList (node :: nodes) ↔
    (∀ next ∈ nodes.head?, ¬(node.isText = true ∧ next.isText = true)) ∧
    (∀ content, node = .text content →
      content.toList ≠ [] ∧ lineEnds keepsReturn none content.toList = content.toList) ∧
    SettledList nodes := by
  refine ⟨fun ⟨hapart, htexts⟩ => ?_, fun ⟨hnext, hnode, ⟨hapart, htexts⟩⟩ => ?_⟩
  · obtain ⟨hnext, hapart⟩ := List.isChain_cons.1 hapart
    refine ⟨hnext, fun content heq => htexts content (heq ▸ List.mem_cons_self), hapart, ?_⟩
    exact fun content hcontent => htexts content (List.mem_cons_of_mem node hcontent)
  · refine ⟨List.isChain_cons.2 ⟨hnext, hapart⟩, fun content hcontent => ?_⟩
    rcases List.mem_cons.1 hcontent with heq | hcontent
    · exact hnode content heq.symm
    · exact htexts content hcontent

theorem normalisedList_eq_self (h : SettledList nodes)
    (hbelow : ∀ child, .element child ∈ nodes → child.normalised keepsReturn = child) :
    normalisedList keepsReturn [] nodes = nodes := by
  induction nodes with
  | nil => rfl
  | cons node rest ih =>
    obtain ⟨hnext, hnode, hsettled⟩ := settledList_cons.1 h
    -- no text follows a text, so each run is one text
    have hrest : normalisedList keepsReturn [] rest = rest :=
      ih hsettled fun child hchild => hbelow child (List.mem_cons_of_mem node hchild)
    cases node with
    | text content =>
      obtain ⟨hne, hlines⟩ := hnode content rfl
      have happart : ∀ next ∈ rest.head?, next.isText = false := fun next hmem =>
        eq_false_of_ne_true fun htext => hnext next hmem ⟨rfl, htext⟩
      rw [normalisedList, List.nil_append, normalisedList_of_not_text happart, hrest, ofRun,
        if_neg hne, hlines, String.ofList_toList]
      rfl
    | comment content =>
      rw [normalisedList, hrest]
      rfl
    | element e =>
      rw [normalisedList, hrest, hbelow e List.mem_cons_self]
      rfl

/-- No text has come of two, nor has one gone, as there are as many nodes as before. -/
theorem of_normalisedList_text {content : String}
    (h : normalisedList keeps [] (.text content :: nodes) = .text content :: nodes) :
    content.toList ≠ [] ∧ ∀ next ∈ nodes.head?, next.isText = false := by
  have hlength := congrArg List.length h
  rw [normalisedList, List.nil_append, List.length_cons] at hlength
  constructor
  · intro hempty
    have hle := length_normalisedList_le keeps content.toList nodes
    rw [hempty] at hle hlength
    have hrun : (ofRun keeps []).length = 0 := rfl
    omega
  · intro next hnext
    cases nodes with
    | nil => cases hnext
    | cons node rest =>
      cases hnext
      cases next with
      | text other =>
        have hle := length_normalisedList_le keeps (content.toList ++ other.toList) rest
        have hrun := length_ofRun_le keeps (content.toList ++ other.toList)
        rw [normalisedList, List.length_cons] at hlength
        omega
      | comment other => rfl
      | element e => rfl

theorem settledList_of_normalisedList (h : normalisedList keepsReturn [] nodes = nodes) :
    SettledList nodes ∧
      ∀ child, .element child ∈ nodes → child.normalised keepsReturn = child := by
  induction nodes with
  | nil => exact ⟨⟨.nil, by simp⟩, by simp⟩
  | cons node rest ih =>
    cases node with
    | text content =>
      obtain ⟨hne, hnext⟩ := of_normalisedList_text h
      rw [normalisedList, List.nil_append, normalisedList_of_not_text hnext, ofRun,
        if_neg hne] at h
      obtain ⟨hnode, hrest⟩ := List.cons.inj h
      obtain ⟨hsettled, hbelow⟩ := ih hrest
      have hlines : lineEnds keepsReturn none content.toList = content.toList := by
        rw [← String.toList_ofList (l := lineEnds keepsReturn none content.toList),
          Node.text.inj hnode]
      refine ⟨settledList_cons.2 ⟨fun next hmem => by simp [hnext next hmem], ?_, hsettled⟩, ?_⟩
      · rintro _ ⟨⟩
        exact ⟨hne, hlines⟩
      · exact fun child hchild => hbelow child (by simpa using hchild)
    | comment content =>
      obtain ⟨hsettled, hbelow⟩ := ih (List.cons.inj h).2
      refine ⟨settledList_cons.2 ⟨by simp [isText], by simp, hsettled⟩, ?_⟩
      exact fun child hchild => hbelow child (by simpa using hchild)
    | element e =>
      obtain ⟨hnode, hrest⟩ := List.cons.inj h
      obtain ⟨hsettled, hbelow⟩ := ih hrest
      refine ⟨settledList_cons.2 ⟨by simp [isText], by simp, hsettled⟩, fun child hchild => ?_⟩
      rcases List.mem_cons.1 hchild with heq | hchild
      · cases heq
        exact Node.element.inj hnode
      · exact hbelow child hchild

end Node

theorem Element.settled_of_normalised :
    (e : Element) → e.normalised keepsReturn = e → e.Throughout Settled
  | ⟨tag, attrs, children⟩, h => by
    rw [normalised, Element.mk.injEq] at h
    obtain ⟨-, hattrs, hchildren⟩ := h
    obtain ⟨hsettled, hbelow⟩ := Node.settledList_of_normalisedList hchildren
    exact .mk ⟨Attributes.mapValues_spacedText_eq_self_iff.1 hattrs, hsettled⟩
      fun child hchild => settled_of_normalised child (hbelow child hchild)
termination_by e => sizeOf e
decreasing_by exact Element.sizeOf_child_lt ‹_›

theorem Element.normalised_eq_self_iff {e : Element} :
    e.normalised keepsReturn = e ↔ e.Throughout Settled := by
  refine ⟨e.settled_of_normalised, fun h => ?_⟩
  induction h with
  | @mk e h _ ih =>
    obtain ⟨tag, attrs, children⟩ := e
    rw [normalised, Attributes.mapValues_spacedText_eq_self_iff.2 h.values,
      Node.normalisedList_eq_self h.children ih]

end ConfigOverlay
