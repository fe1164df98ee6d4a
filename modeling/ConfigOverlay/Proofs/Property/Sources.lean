import ConfigOverlay.Proofs.Property.Placeholder
import ConfigOverlay.Proofs.Tree.Throughout
import ConfigOverlay.Property.Resolve

set_option autoImplicit false

namespace ConfigOverlay

mutual
def Element.attributeText : Element → List Char
  | ⟨_, attrs, children⟩ =>
    attrs.entries.flatMap (fun entry => entry.2.toList) ++ Node.attributeTexts children

def Node.attributeText : Node → List Char
  | .element e => e.attributeText
  | .text _ | .comment _ => []

def Node.attributeTexts : List Node → List Char
  | [] => []
  | node :: rest => node.attributeText ++ Node.attributeTexts rest
end

theorem Attributes.length_flatMap_le (attrs : Attributes) :
    (attrs.entries.flatMap fun entry => entry.2.toList).length ≤ attrs.valueSize := by
  obtain ⟨entries⟩ := attrs
  induction entries with
  | nil => exact Nat.zero_le _
  | cons entry entries ih =>
    simp only [valueSize, List.flatMap_cons, List.length_append, String.length_toList,
      List.foldr_cons] at ih ⊢
    omega

mutual
theorem Element.texts_le_valueSize : (e : Element) →
    e.content.length + e.attributeText.length ≤ e.valueSize
  | ⟨_, attrs, children⟩ => by
    have hattrs := attrs.length_flatMap_le
    have hchildren := Node.texts_le_valueSizes children
    simp only [Element.content, Element.attributeText, Element.valueSize, List.length_append]
    omega

theorem Node.texts_le_valueSize : (node : Node) →
    node.content.length + node.attributeText.length ≤ node.valueSize
  | .element e => by
    simpa only [Node.content, Node.attributeText, Node.valueSize] using e.texts_le_valueSize
  | .text content => by
    simp only [Node.content, Node.attributeText, Node.valueSize, List.length_nil]
    omega
  | .comment content => by
    simp [Node.content, Node.attributeText, Node.valueSize]

theorem Node.texts_le_valueSizes : (nodes : List Node) →
    (Node.contents nodes).length + (Node.attributeTexts nodes).length ≤ Node.valueSizes nodes
  | [] => by simp [Node.contents_nil, Node.attributeTexts, Node.valueSizes]
  | node :: rest => by
    have hnode := node.texts_le_valueSize
    have hrest := Node.texts_le_valueSizes rest
    simp only [Node.contents_cons, Node.attributeTexts, Node.valueSizes, String.length_append,
      List.length_append]
    omega
end

section

variable {e child : Element}

theorem Node.content_isInfix {node : Node} {nodes : List Node} (h : node ∈ nodes) :
    node.content.toList <:+: (Node.contents nodes).toList := by
  induction nodes with
  | nil => exact absurd h List.not_mem_nil
  | cons first rest ih =>
    rw [contents_cons, String.toList_append]
    rcases List.mem_cons.1 h with rfl | h
    · exact (List.prefix_append _ _).isInfix
    · exact (ih h).trans (List.suffix_append _ _).isInfix

theorem Node.attributeText_isInfix {node : Node} {nodes : List Node} (h : node ∈ nodes) :
    node.attributeText <:+: Node.attributeTexts nodes := by
  induction nodes with
  | nil => exact absurd h List.not_mem_nil
  | cons first rest ih =>
    rw [attributeTexts]
    rcases List.mem_cons.1 h with rfl | h
    · exact (List.prefix_append _ _).isInfix
    · exact (ih h).trans (List.suffix_append _ _).isInfix

theorem Element.content_isInfix (h : .element child ∈ e.children) :
    child.content.toList <:+: e.content.toList := by
  obtain ⟨tag, attrs, children⟩ := e
  simpa only [Node.content, content] using Node.content_isInfix h

theorem Element.attributeText_isInfix (h : .element child ∈ e.children) :
    child.attributeText <:+: e.attributeText := by
  obtain ⟨tag, attrs, children⟩ := e
  have hchild := Node.attributeText_isInfix h
  simp only [Node.attributeText] at hchild
  rw [attributeText]
  exact hchild.trans (List.suffix_append _ _).isInfix

theorem Attributes.get?_isInfix {attrs : Attributes} {name value : String}
    (h : attrs.get? name = some value) :
    value.toList <:+: attrs.entries.flatMap fun entry => entry.2.toList := by
  obtain ⟨before, after, hentries, -⟩ := List.lookup_eq_some_iff.1 h
  rw [hentries, List.flatMap_append, List.flatMap_cons]
  exact ⟨_, _, List.append_assoc _ _ _⟩

theorem Element.mem_filter_of_onlyChild? {tag : String} (h : e.onlyChild? tag = some child) :
    child ∈ e.elements.filter (·.tag = tag) := by
  simp only [onlyChild?] at h
  split at h
  · next child' hfilter =>
    cases h
    rw [hfilter]
    exact List.mem_singleton_self child
  · cases h

theorem Element.mem_of_onlyChild? {tag : String} (h : e.onlyChild? tag = some child) :
    .element child ∈ e.children :=
  mem_of_mem_elements (List.mem_filter.1 (mem_filter_of_onlyChild? h)).1

theorem Element.tag_of_onlyChild? {tag : String} (h : e.onlyChild? tag = some child) :
    child.tag = tag := by
  simpa using (List.mem_filter.1 (mem_filter_of_onlyChild? h)).2

theorem Element.valueAt_isInfix {path : List (List Char)} {value : String}
    (h : e.valueAt path = some value) :
    value.toList <:+: e.content.toList ∨ value.toList <:+: e.attributeText := by
  fun_induction Element.valueAt e path with
  | case1 e =>
    cases h
    exact .inl (List.infix_refl _)
  | case2 e =>
    cases h
    exact .inl (List.infix_refl _)
  | case3 e segment rest _ value' hattr =>
    cases h
    refine .inr ((Attributes.get?_isInfix hattr).trans ?_)
    obtain ⟨tag, attrs, children⟩ := e
    rw [attributeText]
    exact (List.prefix_append _ _).isInfix
  | case4 e segment rest _ hattr ih =>
    obtain ⟨child, hchild, hvalue⟩ := Option.bind_eq_some_iff.1 h
    have hmem := mem_of_onlyChild? hchild
    rcases ih child hvalue with hcontent | hattribute
    · exact .inl (hcontent.trans (content_isInfix hmem))
    · exact .inr (hattribute.trans (attributeText_isInfix hmem))

theorem Element.lookup_isInfix {matchRoot : Bool} {path value : String}
    (h : e.lookup matchRoot path = some value) :
    value.toList <:+: e.content.toList ++ e.attributeText := by
  have hvalue : ∃ segments, e.valueAt segments = some value := by
    simp only [lookup] at h
    split at h
    · obtain ⟨segments, -, hsegments⟩ := Option.bind_eq_some_iff.1 h
      exact ⟨segments, hsegments⟩
    · exact ⟨_, h⟩
  obtain ⟨segments, hsegments⟩ := hvalue
  rcases valueAt_isInfix hsegments with hcontent | hattribute
  · exact hcontent.trans (List.prefix_append _ _).isInfix
  · exact hattribute.trans (List.suffix_append _ _).isInfix

end

def Environment.text (environment : Environment) : List Char :=
  environment.lines.flatMap fun v => (v.name ++ "=" ++ v.value.getD "").toList

theorem Environment.get?_isInfix {environment : Environment} {name value : String}
    (h : environment.get? name = some value) : value.toList <:+: environment.text := by
  simp only [get?] at h
  split at h
  · cases h
  · obtain ⟨v, hv, hvalue⟩ := List.exists_of_findSome?_eq_some h
    obtain ⟨content, hcontent, hstrip⟩ := Option.bind_eq_some_iff.1 hvalue
    have hline := (Text.isSuffix_of_stripLead hstrip).isInfix
    obtain ⟨before, after, hlines⟩ := List.append_of_mem hv
    refine hline.trans ?_
    rw [Environment.text, hlines, List.flatMap_append, List.flatMap_cons, hcontent]
    exact ⟨_, _, List.append_assoc _ _ _⟩

theorem Environment.length_text_le (environment : Environment) :
    environment.text.length ≤
      environment.lines.foldr
        (fun v size => v.name.length + (v.value.getD "").length + 2 + size) 0 := by
  obtain ⟨lines⟩ := environment
  induction lines with
  | nil => exact Nat.zero_le _
  | cons v lines ih =>
    simp only [text, List.flatMap_cons, List.length_append, String.length_toList,
      String.length_append, List.foldr_cons] at ih ⊢
    have hequals : "=".length = 1 := by decide
    omega

namespace Resolver

variable {η σ : Type} (environment : Environment)

mutual
/-- The texts that the values of a chain are pieces of, one after another. -/
def sourceText : Resolver η → List Char
  | .table entries => entries.entries.entries.flatMap fun entry => entry.2.toList
  | .document root _ => root.content.toList ++ root.attributeText
  | .environment => environment.text
  | .under _ inner | .expanding inner | .noted _ _ inner => inner.sourceText
  | .firstOf members => sourceTexts members
  | .oneOf | .host _ => []

def sourceTexts : List (Resolver η) → List Char
  | [] => []
  | member :: members => member.sourceText ++ sourceTexts members
end

mutual
theorem length_sourceText_le : (r : Resolver η) →
    (r.sourceText environment).length ≤ r.valueSize environment
  | .table entries => by
    simpa only [sourceText, valueSize] using entries.entries.length_flatMap_le
  | .document root _ => by
    have hroot := root.texts_le_valueSize
    simp only [sourceText, valueSize, List.length_append, String.length_toList]
    omega
  | .environment => by
    simpa only [sourceText, valueSize] using environment.length_text_le
  | .under _ inner => by
    simpa only [sourceText, valueSize] using length_sourceText_le inner
  | .expanding inner => by
    simpa only [sourceText, valueSize] using length_sourceText_le inner
  | .firstOf members => by
    simpa only [sourceText, valueSize] using length_sourceTexts_le members
  | .oneOf => by simp [sourceText]
  | .noted _ _ inner => by
    simpa only [sourceText, valueSize] using length_sourceText_le inner
  | .host _ => by simp [sourceText]

theorem length_sourceTexts_le : (members : List (Resolver η)) →
    (sourceTexts environment members).length ≤ valueSizes environment members
  | [] => by simp [sourceTexts]
  | member :: members => by
    have hmember := length_sourceText_le member
    have hmembers := length_sourceTexts_le members
    simp only [sourceTexts, valueSizes, List.length_append]
    omega
end

variable {environment}

theorem sourceText_isInfix {member : Resolver η} {members : List (Resolver η)}
    (h : member ∈ members) :
    member.sourceText environment <:+: sourceTexts environment members := by
  induction members with
  | nil => exact absurd h List.not_mem_nil
  | cons first rest ih =>
    rw [sourceTexts]
    rcases List.mem_cons.1 h with rfl | h
    · exact (List.prefix_append _ _).isInfix
    · exact (ih h).trans (List.suffix_append _ _).isInfix

/-- Built of tables, documents and the environment alone, possibly behind leads and in lists. -/
inductive IsPlain : Resolver η → Prop where
  | table (entries : Table) : IsPlain (.table entries)
  | document (root : Element) (matchRoot : Bool) : IsPlain (.document root matchRoot)
  | environment : IsPlain .environment
  | under {inner : Resolver η} (lead : String) : IsPlain inner → IsPlain (.under lead inner)
  | firstOf {members : List (Resolver η)} :
    (∀ member ∈ members, IsPlain member) → IsPlain (.firstOf members)

variable (environment)

mutual
def plainValue? : Resolver η → String → Option String
  | .table entries, name => entries.get? name
  | .document root matchRoot, name => root.lookup matchRoot name
  | .environment, name => environment.get? name
  | .under lead inner, name => (Text.stripLead lead name).bind (inner.plainValue? ·)
  | .firstOf members, name => plainValues? members name
  | .expanding _, _ | .oneOf, _ | .noted .., _ | .host _, _ => none

def plainValues? : List (Resolver η) → String → Option String
  | [], _ => none
  | member :: members, name =>
    if member.mayKnow name then (member.plainValue? name).or (plainValues? members name)
    else plainValues? members name
end

variable {environment} {around : Surroundings η σ} {guard : Guard σ} {resolve : Resolution σ}

theorem askFirst_eq_plainValues? {members : List (Resolver η)} (name : String)
    (h : ∀ member ∈ members, member.ask around guard resolve name =
      pure (member.plainValue? around.environment name)) :
    askFirst around guard resolve members name =
      pure (plainValues? around.environment members name) := by
  induction members with
  | nil => rfl
  | cons member members ih =>
    have hrest := ih fun other hother => h other (List.mem_cons_of_mem member hother)
    simp only [askFirst, plainValues?]
    split
    · rw [h member List.mem_cons_self, pure_bind]
      cases member.plainValue? around.environment name with
      | none => rw [hrest, Option.none_or]
      | some value => rfl
    · exact hrest

theorem IsPlain.ask_eq {r : Resolver η} (h : r.IsPlain) (name : String) :
    r.ask around guard resolve name = pure (r.plainValue? around.environment name) := by
  induction h generalizing name with
  | table entries => simp only [ask, plainValue?]
  | document root matchRoot => simp only [ask, plainValue?]
  | environment => simp only [ask, plainValue?]
  | under lead _ ih =>
    simp only [ask, plainValue?]
    cases Text.stripLead lead name with
    | none => rfl
    | some rest => exact ih rest
  | firstOf _ ih =>
    simp only [ask, plainValue?]
    exact askFirst_eq_plainValues? name fun member hmember => ih member hmember name

theorem exists_of_plainValues? {members : List (Resolver η)} {name value : String}
    (h : plainValues? environment members name = some value) :
    ∃ member ∈ members, member.plainValue? environment name = some value := by
  induction members with
  | nil => cases h
  | cons member members ih =>
    simp only [plainValues?] at h
    split at h
    · rcases Option.or_eq_some_iff.1 h with hvalue | ⟨-, hrest⟩
      · exact ⟨member, List.mem_cons_self, hvalue⟩
      · obtain ⟨other, hother, hvalue⟩ := ih hrest
        exact ⟨other, List.mem_cons_of_mem member hother, hvalue⟩
    · obtain ⟨other, hother, hvalue⟩ := ih h
      exact ⟨other, List.mem_cons_of_mem member hother, hvalue⟩

/-- Every value that a plain resolver has is a piece of the source text. -/
theorem plainValue?_isInfix (r : Resolver η) {name value : String}
    (h : r.plainValue? environment name = some value) :
    value.toList <:+: r.sourceText environment := by
  induction r using Resolver.induction generalizing name with
  | table entries =>
    rw [plainValue?] at h
    rw [sourceText]
    exact Attributes.get?_isInfix h
  | document root matchRoot =>
    rw [plainValue?] at h
    rw [sourceText]
    exact Element.lookup_isInfix h
  | environment =>
    rw [plainValue?] at h
    rw [sourceText]
    exact Environment.get?_isInfix h
  | under lead inner ih =>
    rw [plainValue?] at h
    rw [sourceText]
    obtain ⟨rest, -, hrest⟩ := Option.bind_eq_some_iff.1 h
    exact ih hrest
  | firstOf members ih =>
    rw [plainValue?] at h
    rw [sourceText]
    obtain ⟨member, hmember, hvalue⟩ := exists_of_plainValues? h
    exact (ih member hmember hvalue).trans (sourceText_isInfix hmember)
  | expanding inner ih => cases h
  | oneOf => cases h
  | noted label lead inner ih => cases h
  | host source => cases h

end Resolver

end ConfigOverlay
