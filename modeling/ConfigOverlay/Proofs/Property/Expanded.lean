import ConfigOverlay.Proofs.Property.Clean
import ConfigOverlay.Proofs.Property.Comparison
import ConfigOverlay.Proofs.Property.Traversed
import ConfigOverlay.Proofs.Tree.Attributes
import Mathlib.Data.List.Forall2

/-!
A tree and what it becomes when its strings are replaced by others. Tags, names and the order of
everything stay; so whatever is found in the one tree is found at the same place in the other, and a
content becomes what its texts become, one after another.
-/

set_option autoImplicit false

namespace ConfigOverlay

variable {C : String → String → Prop}

def Attributes.Becomes (C : String → String → Prop) (a b : Attributes) : Prop :=
  List.Forall₂ (fun entry entry' => entry.1 = entry'.1 ∧ C entry.2 entry'.2) a.entries b.entries

mutual
/-- The second tree has strings in the places of the strings of the first one that they become. -/
inductive Element.Becomes (C : String → String → Prop) : Element → Element → Prop where
  | mk {tag : String} {attrs attrs' : Attributes} {children children' : List Node} :
    attrs.Becomes C attrs' → List.Forall₂ (Node.Becomes C) children children' →
      Element.Becomes C ⟨tag, attrs, children⟩ ⟨tag, attrs', children'⟩

inductive Node.Becomes (C : String → String → Prop) : Node → Node → Prop where
  | element {e e' : Element} : e.Becomes C e' → Node.Becomes C (.element e) (.element e')
  | text {content content' : String} : C content content' →
    Node.Becomes C (.text content) (.text content')
  | comment (content : String) : Node.Becomes C (.comment content) (.comment content)
end

theorem rel_find? {α β : Type} {R : α → β → Prop} {p : α → Bool} {q : β → Bool} {l : List α}
    {l' : List β} (h : List.Forall₂ R l l') (hpq : ∀ a b, R a b → p a = q b) :
    Option.Rel R (l.find? p) (l'.find? q) := by
  induction h with
  | nil => exact .none
  | @cons a b l l' hab _ ih =>
    rw [List.find?_cons, List.find?_cons, hpq a b hab]
    cases q b with
    | true => exact .some hab
    | false => exact ih

theorem exists_rel_of_mem {α β : Type} {R : α → β → Prop} {l : List α} {l' : List β}
    (h : List.Forall₂ R l l') {b : β} (hb : b ∈ l') : ∃ a ∈ l, R a b := by
  induction h with
  | nil => exact absurd hb List.not_mem_nil
  | cons hab _ ih =>
    rcases List.mem_cons.1 hb with rfl | hb
    · exact ⟨_, List.mem_cons_self, hab⟩
    · obtain ⟨a, ha, hrel⟩ := ih hb
      exact ⟨a, List.mem_cons_of_mem _ ha, hrel⟩

theorem rel_bind {α β γ δ : Type} {R : α → β → Prop} {S : γ → δ → Prop} {a : Option α}
    {b : Option β} {f : α → Option γ} {g : β → Option δ} (h : Option.Rel R a b)
    (hfg : ∀ x y, R x y → Option.Rel S (f x) (g y)) : Option.Rel S (a.bind f) (b.bind g) := by
  cases h with
  | none => exact .none
  | some hxy => exact hfg _ _ hxy

theorem rel_or {α β : Type} {R : α → β → Prop} {a a' : Option α} {b b' : Option β}
    (h : Option.Rel R a b) (h' : Option.Rel R a' b') : Option.Rel R (a.or a') (b.or b') := by
  cases h with
  | none => exact h'
  | some hxy => exact .some hxy

theorem Attributes.Becomes.get? {a b : Attributes} (h : a.Becomes C b) (name : String) :
    Option.Rel C (a.get? name) (b.get? name) := by
  obtain ⟨entries⟩ := a
  obtain ⟨entries'⟩ := b
  simp only [Attributes.Becomes] at h
  simp only [Attributes.get?]
  induction h with
  | nil => exact .none
  | cons hentry _ ih =>
    rw [Attributes.lookup_cons, Attributes.lookup_cons, hentry.1]
    split
    · exact .some hentry.2
    · exact ih

namespace Element.Becomes

variable {e e' : Element}

theorem tag_eq (h : e.Becomes C e') : e.tag = e'.tag := by
  cases h
  rfl

theorem attrs (h : e.Becomes C e') : e.attrs.Becomes C e'.attrs := by
  cases h
  assumption

theorem children (h : e.Becomes C e') :
    List.Forall₂ (Node.Becomes C) e.children e'.children := by
  cases h
  assumption

theorem elements (h : e.Becomes C e') :
    List.Forall₂ (Element.Becomes C) e.elements e'.elements := by
  refine List.rel_filterMap (fun node node' hnode => ?_) h.children
  cases hnode with
  | element he => exact .some he
  | text _ => exact .none
  | comment _ => exact .none

theorem onlyChild? (h : e.Becomes C e') (tag : String) :
    Option.Rel (Element.Becomes C) (e.onlyChild? tag) (e'.onlyChild? tag) := by
  have hfilter : List.Forall₂ (Element.Becomes C) (e.elements.filter (·.tag = tag))
      (e'.elements.filter (·.tag = tag)) :=
    List.rel_filter (fun child child' hchild => by simp [hchild.tag_eq]) h.elements
  rw [Element.onlyChild?, Element.onlyChild?]
  generalize e.elements.filter (·.tag = tag) = found at hfilter
  generalize e'.elements.filter (·.tag = tag) = found' at hfilter
  cases hfilter with
  | nil => exact .none
  | cons hchild hrest =>
    cases hrest with
    | nil => exact .some hchild
    | cons _ _ => exact .none

end Element.Becomes

theorem Attributes.Becomes.names_eq {a b : Attributes} (h : a.Becomes C b) : a.names = b.names := by
  obtain ⟨entries⟩ := a
  obtain ⟨entries'⟩ := b
  simp only [Attributes.Becomes] at h
  simp only [Attributes.names]
  induction h with
  | nil => rfl
  | cons hentry _ ih => rw [List.map_cons, List.map_cons, hentry.1, ih]

theorem Element.Becomes.throughout {p : Element → Prop}
    (hp : ∀ e e' : Element, e.attrs.names = e'.attrs.names → p e → p e') {e e' : Element}
    (h : e.Becomes C e') (he : e.Throughout p) : e'.Throughout p := by
  induction he generalizing e' with
  | @mk e hhere _ ih =>
    refine .mk (hp e e' h.attrs.names_eq hhere) fun child' hchild' => ?_
    obtain ⟨child, hchild, hbecomes⟩ :=
      exists_rel_of_mem h.elements (Element.mem_elements_iff.2 hchild')
    exact ih child (Element.mem_elements_iff.1 hchild) hbecomes

structure Joins (C : String → String → Prop) : Prop where
  empty : C "" ""
  append : ∀ {a a' b b' : String}, C a a' → C b b' → C (a ++ b) (a' ++ b')

mutual
theorem Element.Becomes.content (hC : Joins C) :
    (e : Element) → {e' : Element} → e.Becomes C e' → C e.content e'.content
  | ⟨_, _, children⟩, _, h => by
    cases h with
    | mk _ hchildren =>
      rw [Element.content, Element.content]
      exact Node.Becomes.contents hC children hchildren

theorem Node.Becomes.content (hC : Joins C) :
    (node : Node) → {node' : Node} → node.Becomes C node' → C node.content node'.content
  | .element e, _, h => by
    cases h with
    | element he =>
      rw [Node.content, Node.content]
      exact Element.Becomes.content hC e he
  | .text _, _, h => by
    cases h with
    | text htext =>
      rw [Node.content, Node.content]
      exact htext
  | .comment _, _, h => by
    cases h
    rw [Node.content]
    exact hC.empty

theorem Node.Becomes.contents (hC : Joins C) :
    (nodes : List Node) → {nodes' : List Node} → List.Forall₂ (Node.Becomes C) nodes nodes' →
      C (Node.contents nodes) (Node.contents nodes')
  | [], _, h => by
    cases h
    rw [Node.contents_nil]
    exact hC.empty
  | node :: rest, _, h => by
    cases h with
    | cons hnode hrest =>
      rw [Node.contents_cons, Node.contents_cons]
      exact hC.append (Node.Becomes.content hC node hnode) (Node.Becomes.contents hC rest hrest)
end

section

variable (hC : Joins C) {e e' : Element} (h : e.Becomes C e')

include hC h

theorem Element.Becomes.valueAt (path : List (List Char)) :
    Option.Rel C (e.valueAt path) (e'.valueAt path) := by
  fun_induction Element.valueAt e path generalizing e' with
  | case1 e => exact .some (Element.Becomes.content hC e h)
  | case2 e => exact .some (Element.Becomes.content hC e h)
  | case3 e segment rest hne value hvalue =>
    have hattr := h.attrs.get? (String.ofList (Text.joined '.' (segment :: rest)))
    rw [hvalue] at hattr
    rw [Element.valueAt.eq_3 _ _ _ hne]
    generalize e'.attrs.get? _ = other at hattr ⊢
    cases hattr with
    | some hvalue => exact .some hvalue
  | case4 e segment rest hne hnone ih =>
    have hattr := h.attrs.get? (String.ofList (Text.joined '.' (segment :: rest)))
    rw [hnone] at hattr
    rw [Element.valueAt.eq_3 _ _ _ hne]
    generalize e'.attrs.get? _ = other at hattr ⊢
    cases hattr
    exact rel_bind (h.onlyChild? _) fun child child' hchild => ih child hchild

theorem Element.Becomes.lookup (matchRoot : Bool) (path : String) :
    Option.Rel C (e.lookup matchRoot path) (e'.lookup matchRoot path) := by
  simp only [Element.lookup, h.tag_eq]
  split
  · cases (pathSegments e'.tag).isPrefixOf? (pathSegments path) with
    | none => exact .none
    | some segments => exact h.valueAt hC segments
  · exact h.valueAt hC _

end

/-- The value of a property in the section of the tree: the last child with this tag counts. -/
def Options.property? (options : Options) (root : Element) (name : String) : Option String :=
  (options.section? root).bind fun e =>
    (e.elements.reverse.find? (·.tag = name)).map Element.content

theorem Table.get?_ofSection (e : Element) (name : String) :
    (Table.ofSection e).get? name =
      (e.elements.reverse.find? (·.tag = name)).map Element.content := by
  rw [Table.get?, Table.ofSection, Table.ofPairs, Attributes.get?_ofPairs, Attributes.last?,
    ← List.map_reverse]
  generalize e.elements.reverse = children
  induction children with
  | nil => rfl
  | cons child rest ih =>
    rw [List.map_cons, Attributes.lookup_cons, List.find?_cons]
    by_cases h : name = child.tag
    · simp [h]
    · simpa [h, Ne.symm h] using ih

theorem Element.Becomes.property? (hC : Joins C) {e e' : Element} (h : e.Becomes C e')
    (options : Options) (name : String) :
    Option.Rel C (options.property? e name) (options.property? e' name) := by
  have htag : ∀ (tag : String) (child child' : Element), child.Becomes C child' →
      decide (child.tag = tag) = decide (child'.tag = tag) := by
    intro tag child child' hchild
    rw [hchild.tag_eq]
  rw [Options.property?, Options.property?, Options.section?, Options.section?]
  cases options.propertiesSection with
  | none => exact .none
  | some tag =>
    refine rel_bind (rel_find? h.elements (htag tag)) fun sec sec' hsec => ?_
    have hfind := rel_find? (List.forall₂_reverse_iff.2 hsec.elements) (htag name)
    generalize sec.elements.reverse.find? _ = found at hfind ⊢
    generalize sec'.elements.reverse.find? _ = found' at hfind ⊢
    cases hfind with
    | none => exact .none
    | some hchild => exact .some (Element.Becomes.content hC _ hchild)

variable {σ α β : Type}

/-- If nothing has stopped the expansion in the end, nothing had at the beginning, and the result
has the property. -/
def GivesUnlessStopped (P : α → Prop) (x : StateM (ExpansionState σ) α) : Prop :=
  ∀ state, (x state).2.stop = none → state.stop = none ∧ P (x state).1

theorem GivesUnlessStopped.pure {P : α → Prop} {a : α} (h : P a) :
    GivesUnlessStopped (σ := σ) P (pure a) := fun _ hstop => ⟨hstop, h⟩

theorem GivesUnlessStopped.bind {P : α → Prop} {Q : β → Prop} {x : StateM (ExpansionState σ) α}
    {f : α → StateM (ExpansionState σ) β} (hx : GivesUnlessStopped P x)
    (hf : ∀ a, GivesUnlessStopped (fun b => P a → Q b) (f a)) : GivesUnlessStopped Q (x >>= f) := by
  intro state hstop
  obtain ⟨hnext, hresult⟩ := hf (x state).1 (x state).2 hstop
  obtain ⟨hstart, hvalue⟩ := hx state hnext
  exact ⟨hstart, hresult hvalue⟩

section

variable {step : String → StateM (ExpansionState σ) String}
  (hstep : ∀ text : String, Text.isClean text.toList → GivesUnlessStopped (C text) (step text))

include hstep

theorem traverseEntries_becomes (entries : List (String × String))
    (h : ∀ entry ∈ entries, Text.isClean entry.2.toList) :
    GivesUnlessStopped
      (List.Forall₂ (fun entry entry' => entry.1 = entry'.1 ∧ C entry.2 entry'.2) entries)
      (traverseEntries step entries) := by
  induction entries with
  | nil => exact .pure .nil
  | cons entry rest ih =>
    refine (hstep entry.2 (h entry List.mem_cons_self)).bind fun value => ?_
    refine (ih fun other hother => h other (List.mem_cons_of_mem entry hother)).bind ?_
    exact fun rest' => .pure fun hrest hvalue => .cons ⟨rfl, hvalue⟩ hrest

theorem Attributes.traverse_becomes (attrs : Attributes) (h : attrs.isClean) :
    GivesUnlessStopped (attrs.Becomes C) (attrs.traverse step) := by
  refine (traverseEntries_becomes hstep attrs.entries ?_).bind fun entries => .pure id
  exact fun entry hentry => List.all_eq_true.1 h entry hentry

end

mutual
theorem Element.traverse_becomes {step : String → StateM (ExpansionState σ) String}
    (hstep : ∀ text : String, Text.isClean text.toList → GivesUnlessStopped (C text) (step text)) :
    (e : Element) → e.isClean → GivesUnlessStopped (e.Becomes C) (e.traverse step)
  | ⟨tag, attrs, children⟩, h => by
    rw [Element.isClean, Bool.and_eq_true] at h
    refine (Attributes.traverse_becomes hstep attrs h.1).bind fun attrs' => ?_
    refine (Node.traverseList_becomes hstep children h.2).bind fun children' => ?_
    exact .pure fun hchildren hattrs => .mk hattrs hchildren

theorem Node.traverse_becomes {step : String → StateM (ExpansionState σ) String}
    (hstep : ∀ text : String, Text.isClean text.toList → GivesUnlessStopped (C text) (step text)) :
    (node : Node) → node.isClean → GivesUnlessStopped (node.Becomes C) (node.traverse step)
  | .element e, h => by
    rw [Node.isClean] at h
    exact (Element.traverse_becomes hstep e h).bind fun e' => .pure .element
  | .text content, h => by
    rw [Node.isClean] at h
    exact (hstep content h).bind fun content' => .pure .text
  | .comment content, _ => .pure (.comment content)

theorem Node.traverseList_becomes {step : String → StateM (ExpansionState σ) String}
    (hstep : ∀ text : String, Text.isClean text.toList → GivesUnlessStopped (C text) (step text)) :
    (nodes : List Node) → Node.areClean nodes →
      GivesUnlessStopped (List.Forall₂ (Node.Becomes C) nodes) (Node.traverseList step nodes)
  | [], _ => .pure .nil
  | node :: rest, h => by
    rw [Node.areClean, Bool.and_eq_true] at h
    refine (Node.traverse_becomes hstep node h.1).bind fun node' => ?_
    refine (Node.traverseList_becomes hstep rest h.2).bind fun rest' => ?_
    exact .pure fun hrest hnode => .cons hnode hrest
end

/-!
Where strings are replaced, nothing else changes, whatever comes in their place and whether or
not all of them are reached.
-/

section

variable {τ : Type} (step : String → StateM τ String)

theorem Attributes.becomes_traverse (attrs : Attributes) (state : τ) :
    attrs.Becomes (fun _ _ => True) (attrs.traverse step state).1 := by
  obtain ⟨entries⟩ := attrs
  change List.Forall₂ _ entries (traverseEntries step entries state).1
  induction entries generalizing state with
  | nil => exact .nil
  | cons entry rest ih => exact .cons ⟨rfl, trivial⟩ (ih _)

mutual
theorem Element.becomes_traverse : (e : Element) → (state : τ) →
    e.Becomes (fun _ _ => True) (e.traverse step state).1
  | ⟨_, attrs, children⟩, state =>
    .mk (attrs.becomes_traverse step state) (Node.becomes_traverseList children _)

theorem Node.becomes_traverse : (node : Node) → (state : τ) →
    node.Becomes (fun _ _ => True) (node.traverse step state).1
  | .element e, state => .element (e.becomes_traverse state)
  | .text _, _ => .text trivial
  | .comment content, _ => .comment content

theorem Node.becomes_traverseList : (nodes : List Node) → (state : τ) →
    List.Forall₂ (Node.Becomes fun _ _ => True) nodes (Node.traverseList step nodes state).1
  | [], _ => .nil
  | node :: rest, state =>
    .cons (node.becomes_traverse state) (Node.becomes_traverseList rest _)
end

end

theorem expandStep_gives (expand : String → Lookup σ String) (text : String) :
    GivesUnlessStopped
      (fun value => ∃ s : Session σ, s.inProgress = [] ∧ (expand text).outcome s = .ok value)
      (expandStep expand text) := by
  rintro ⟨session, stop⟩ hstop
  simp only [expandStep] at hstop ⊢
  cases stop with
  | some stop => cases hstop
  | none =>
    refine ⟨rfl, { session with inProgress := [] }, rfl, ?_⟩
    simp only [Lookup.fresh, Lookup.outcome] at hstop ⊢
    cases hexpand : expand text { session with inProgress := [] } with
    | ok value s => simp
    | error stop s => simp [hexpand] at hstop

/-- If a tree with clean strings is expanded to the end, each of its strings becomes what it is
expanded to with no name in progress. -/
theorem Element.expand_becomes {η : Type} {around : Surroundings η σ} {chain : Resolver η}
    {root : Element} (hroot : root.isClean) {session : Session σ}
    (h : (root.expand around chain session).2.stop = none)
    (hC : ∀ (text value : String) (s : Session σ), Text.isClean text.toList → s.inProgress = [] →
      (chain.expand around text).outcome s = .ok value → C text value) :
    root.Becomes C (root.expand around chain session).1 := by
  rw [Element.expand, Element.expandWith_eq] at h ⊢
  refine (Element.traverse_becomes (fun text htext => ?_) root hroot ⟨session, none⟩ h).2
  intro state hstop
  obtain ⟨hstart, s, hs, hvalue⟩ := expandStep_gives _ text state hstop
  exact ⟨hstart, hC text _ s htext hs hvalue⟩

end ConfigOverlay
