import ConfigOverlay.Proofs.Property.Concatenation
import ConfigOverlay.Proofs.Property.Cycles
import ConfigOverlay.Proofs.Property.Expanded
import ConfigOverlay.Proofs.Tree.Throughout

set_option autoImplicit false

namespace ConfigOverlay

variable {η σ : Type}

section

variable (around : Surroundings η σ) (sources : List (Resolver η))

/-- A clean text that is expanded to this value without marks, within some bound. -/
def ExpandsTo (text value : String) : Prop :=
  Text.isClean text.toList ∧ ∃ depth,
    (Resolver.overSources sources).expandWithin around Lookup.unguarded depth text =
      Lookup.ofExcept (.ok value)

variable {around sources}

theorem expandWithin_eq_of_le {lower depth : Nat} (hle : lower ≤ depth) {text value : String}
    (h : (Resolver.overSources sources).expandWithin around Lookup.unguarded lower text =
      Lookup.ofExcept (.ok value)) :
    (Resolver.overSources sources).expandWithin around Lookup.unguarded depth text =
      Lookup.ofExcept (.ok value) := by
  obtain ⟨extra, rfl⟩ := Nat.le.dest hle
  have hmono := (Resolver.overSources sources).expandWithin_mono around
    (unguarded_mono Eq (· = .exhausted)) lower extra text
  rw [h] at hmono
  exact hmono.eq_ofExcept nofun

theorem joins_expandsTo : Joins (ExpandsTo around sources) where
  empty := ⟨rfl, 0, rfl⟩
  append := by
    rintro a a' b b' ⟨ha, depth, hexpand⟩ ⟨hb, depth', hexpand'⟩
    refine ⟨?_, max depth depth', ?_⟩
    · rw [String.toList_append]
      exact Text.isClean_append ha hb
    · have hfirst := expandWithin_eq_of_le (Nat.le_max_left depth depth') hexpand
      have hsecond := expandWithin_eq_of_le (Nat.le_max_right depth depth') hexpand'
      rw [Resolver.expandWithin] at hfirst hsecond ⊢
      rw [expandText_append_of_isClean _ b ha, hfirst, hsecond]
      rfl

theorem expandsTo_of_outcome (h : CleanSources around.environment sources) {text value : String}
    (htext : Text.isClean text.toList) {s : Session σ}
    (hvalue : ((Resolver.overSources sources).expand around text).outcome s = .ok value) :
    ExpandsTo around sources text value := by
  obtain ⟨depth, hdepth⟩ :=
    exists_outcome_eq text s fun stop hstop => nomatch hvalue.symm.trans hstop
  refine ⟨htext, depth, ?_⟩
  rw [expandWithin_eq_outcome h s depth text, hdepth, hvalue]

end

section

variable {around : Surroundings η σ} {sources : List (Resolver η)} {name : String}
  (honeOf : Text.stripLead Resolver.oneOfLead name = none)

include honeOf

theorem resolveWithin_of_not_oneOf (guard : Guard σ) (depth : Nat) :
    (Resolver.overSources sources).resolveWithin around guard (depth + 1) name =
      Resolver.askFirst around guard
        ((Resolver.overSources sources).resolveWithin around guard depth)
        (sources.map .expanding) name := by
  have hmay : (Resolver.oneOf : Resolver η).mayKnow name = false := by
    simp [Resolver.mayKnow, Resolver.lead?, honeOf]
  rw [resolveWithin_overSources]
  simp only [hmay, Bool.false_eq_true, if_false]

variable (h : CleanSources around.environment sources) {s : Session σ} (hs : s.inProgress = [])
  (hname : hasPlaceholders name = false)

include h hs hname

theorem outcome_resolve_of_unknown (hvalue : knownValue? around.environment sources name = none) :
    ((Resolver.overSources sources).resolve around name).outcome s = .ok none := by
  obtain ⟨depth, hdepth⟩ : ∃ depth, Resolver.depthBound
      ((Resolver.overSources sources).valueSize around.environment) name = depth + 1 :=
    Nat.exists_eq_add_one.2 (Nat.pow_pos (Nat.succ_pos _))
  have hadmits : Admits Lookup.guarded name s (s.enter name) (·.leave name) :=
    admits_guarded (hs ▸ List.not_mem_nil)
  have htext : (Resolver.overSources sources).expandWithin around Lookup.guarded depth name
      (s.enter name) = .ok name (s.enter name) :=
    congrFun (expandText_of_not_hasPlaceholders hname _) _
  rw [Resolver.resolve, hdepth, resolveWithin_of_not_oneOf honeOf, Lookup.outcome,
    askFirst_expanding hadmits h.plain (fun hne => absurd rfl hne) htext, hvalue]

theorem outcome_resolve_of_known {value expanded : String}
    (hvalue : knownValue? around.environment sources name = some value)
    (hclean : Text.isClean name.toList) (hexpanded : ExpandsTo around sources value expanded) :
    ((Resolver.overSources sources).resolve around name).outcome s = .ok (some expanded) := by
  obtain ⟨-, depth, hdepth⟩ := hexpanded
  have hresolve : ((Resolver.overSources sources).resolveWithin around Lookup.unguarded (depth + 1)
      name).outcome s = .ok (some expanded) := by
    have htext : (Resolver.overSources sources).expandWithin around Lookup.unguarded depth name s =
        .ok name s := congrFun (expandText_of_not_hasPlaceholders hname _) s
    have hfallback := fallback_eq h.plain htext
    rw [hvalue] at hfallback
    rw [Resolver.expandWithin] at hdepth
    rw [resolveWithin_of_not_oneOf honeOf, Lookup.outcome, ← fallback, hfallback]
    simp only [expandKnown, hdepth]
    rfl
  have hne : ((Resolver.overSources sources).resolveWithin around Lookup.unguarded (depth + 1)
      name).outcome s ≠ .error .exhausted := by
    simp [hresolve]
  rw [outcome_resolve_eq h hs hclean hne, hresolve]

end

namespace Text

theorem mem_joined_of_mem {sep c : Char} {pieces : List (List Char)} {piece : List Char}
    (hpiece : piece ∈ pieces) (hc : c ∈ piece) : c ∈ joined sep pieces := by
  fun_induction joined sep pieces with
  | case1 => exact absurd hpiece List.not_mem_nil
  | case2 only =>
    rw [List.mem_singleton] at hpiece
    exact hpiece ▸ hc
  | case3 first rest _ ih =>
    rcases List.mem_cons.1 hpiece with rfl | hpiece
    · exact List.mem_append_left _ hc
    · exact List.mem_append_right _ (List.mem_cons_of_mem sep (ih hpiece))

theorem not_mem_joined {sep c : Char} (hsep : c ≠ sep) {pieces : List (List Char)}
    (h : ∀ piece ∈ pieces, c ∉ piece) : c ∉ joined sep pieces := by
  fun_induction joined sep pieces with
  | case1 => exact List.not_mem_nil
  | case2 only => exact h only List.mem_cons_self
  | case3 first rest _ ih =>
    simp only [List.mem_append, List.mem_cons, not_or]
    exact ⟨h first List.mem_cons_self, hsep,
      ih fun piece hpiece => h piece (List.mem_cons_of_mem first hpiece)⟩

end Text

namespace Element

/-- No dollar sign stands in the tag or in the name of an attribute. -/
def LiteralNames (e : Element) : Prop :=
  Text.IsLiteral e.tag ∧ ∀ name ∈ e.attrs.names, Text.IsLiteral name

instance : DecidablePred LiteralNames := fun e =>
  inferInstanceAs (Decidable ('$' ∉ e.tag.toList ∧ ∀ name ∈ e.attrs.names, '$' ∉ name.toList))

variable {e root : Element}

theorem isLiteral_of_valueAt (h : e.Throughout LiteralNames) {path : List (List Char)}
    {value : String} (hvalue : e.valueAt path = some value) : ∀ piece ∈ path, '$' ∉ piece := by
  fun_induction Element.valueAt e path with
  | case1 e => simp
  | case2 e => simp
  | case3 e segment rest _ value' hattr =>
    have hmem : String.ofList (Text.joined '.' (segment :: rest)) ∈ e.attrs.names := by
      by_contra hno
      cases hattr.symm.trans (Attributes.get?_eq_none_iff.2 hno)
    have hliteral := h.here.2 _ hmem
    rw [Text.IsLiteral, String.toList_ofList] at hliteral
    exact fun piece hpiece hdollar => hliteral (Text.mem_joined_of_mem hpiece hdollar)
  | case4 e segment rest _ hattr ih =>
    obtain ⟨child, hchild, hbelow⟩ := Option.bind_eq_some_iff.1 hvalue
    have hthroughout := h.child (mem_of_onlyChild? hchild)
    have htag : '$' ∉ segment := by
      have := hthroughout.here.1
      rwa [tag_of_onlyChild? hchild, Text.IsLiteral, String.toList_ofList] at this
    intro piece hpiece
    rcases List.mem_cons.1 hpiece with rfl | hpiece
    · exact htag
    · exact ih child hthroughout hbelow piece hpiece

theorem isLiteral_of_lookup (h : root.Throughout LiteralNames) {matchRoot : Bool}
    {path value : String} (hvalue : root.lookup matchRoot path = some value) :
    Text.IsLiteral path := by
  have hpieces : ∀ piece ∈ pathSegments path, '$' ∉ piece := by
    simp only [lookup] at hvalue
    split at hvalue
    · obtain ⟨segments, hsegments, hvalue⟩ := Option.bind_eq_some_iff.1 hvalue
      rw [← List.isPrefixOf?_eq_some_iff_append_eq.1 hsegments]
      intro piece hpiece
      rcases List.mem_append.1 hpiece with htag | hbelow
      · exact fun hdollar => h.here.1 (Text.mem_of_mem_segments htag hdollar)
      · exact isLiteral_of_valueAt h hvalue piece hbelow
    · exact isLiteral_of_valueAt h hvalue
  rw [Text.IsLiteral, ← Text.joined_segments '.' path.toList]
  exact Text.not_mem_joined (by decide) hpieces

end Element

theorem Options.isLiteral_of_property? {options : Options} {root : Element}
    (h : root.Throughout Element.LiteralNames) {name value : String}
    (hvalue : options.property? root name = some value) : Text.IsLiteral name := by
  obtain ⟨e, hsection, hproperty⟩ := Option.bind_eq_some_iff.1 hvalue
  obtain ⟨child, hfind, -⟩ := Option.map_eq_some_iff.1 hproperty
  obtain ⟨tag, -, he⟩ := Option.bind_eq_some_iff.1 hsection
  have hchild := List.mem_reverse.1 (List.mem_of_find?_eq_some hfind)
  have hbelow := (h.child (Element.mem_of_mem_elements (List.mem_of_find?_eq_some he))).child
    (Element.mem_of_mem_elements hchild)
  have htag : child.tag = name := by simpa using List.find?_some hfind
  exact htag ▸ hbelow.here.1

theorem knownValue?_cons (environment : Environment) (r : Resolver η) (rest : List (Resolver η))
    (name : String) : knownValue? environment (r :: rest) name =
      (r.plainValue? environment name).or (knownValue? environment rest name) := by
  rw [knownValue?, List.findSome?_cons]
  cases r.plainValue? environment name <;> rfl

theorem knownValue?_sources {options : Options} {root : Element} {environment : Environment}
    {name : String} (h : Text.stripLead Resolver.environmentLead name = none) :
    knownValue? environment (options.sources root : List (Resolver η)) name =
      (options.property? root name).or (root.lookup options.matchRoot name) := by
  have henvironment : (Resolver.environmentVariables : Resolver η).plainValue? environment name =
      none := by
    rw [Resolver.environmentVariables, Resolver.plainValue?, h]
    rfl
  have hdocument : knownValue? environment [(.document root options.matchRoot : Resolver η)] name =
      root.lookup options.matchRoot name := by
    rw [knownValue?_cons, Resolver.plainValue?]
    exact Option.or_none
  have hsection : ∀ e, (Resolver.table (.ofSection e) : Resolver η).plainValue? environment name =
      (e.elements.reverse.find? (·.tag = name)).map Element.content := fun e => by
    rw [Resolver.plainValue?, Table.get?_ofSection]
  rw [Options.sources, Options.property?]
  cases options.section? root <;> cases options.environment <;>
    simp [knownValue?_cons, henvironment, hdocument, hsection]

theorem Attributes.isClean_erase {attrs : Attributes} (h : attrs.isClean) (name : String) :
    (attrs.erase name).isClean :=
  List.all_eq_true.2 fun entry hentry =>
    List.all_eq_true.1 h entry (List.mem_of_mem_eraseP hentry)

theorem Attributes.mem_names_of_erase {attrs : Attributes} {name other : String}
    (h : other ∈ (attrs.erase name).names) : other ∈ attrs.names := by
  obtain ⟨entry, hentry, rfl⟩ := List.mem_map.1 h
  exact List.mem_map_of_mem (List.mem_of_mem_eraseP hentry)

mutual
theorem Element.isClean_mapAttributes {f : Attributes → Attributes}
    (hf : ∀ attrs : Attributes, attrs.isClean → (f attrs).isClean) :
    (e : Element) → e.isClean → (e.mapAttributes f).isClean
  | ⟨tag, attrs, children⟩, h => by
    rw [Element.isClean, Bool.and_eq_true] at h
    rw [Element.mapAttributes, Element.isClean, Bool.and_eq_true]
    exact ⟨hf attrs h.1, Node.areClean_mapAttributes hf children h.2⟩

theorem Node.areClean_mapAttributes {f : Attributes → Attributes}
    (hf : ∀ attrs : Attributes, attrs.isClean → (f attrs).isClean) :
    (nodes : List Node) → Node.areClean nodes → Node.areClean (Node.mapAttributesList f nodes)
  | [], h => h
  | node :: rest, h => by
    rw [Node.areClean, Bool.and_eq_true] at h
    rw [Node.mapAttributesList, Node.areClean, Bool.and_eq_true]
    refine ⟨?_, Node.areClean_mapAttributes hf rest h.2⟩
    match node, h.1 with
    | .element e, he =>
      rw [Node.isClean] at he
      rw [Node.mapAttributes, Node.isClean]
      exact e.isClean_mapAttributes hf he
    | .text content, htext => exact htext
    | .comment content, hcomment => exact hcomment
end

theorem Element.isClean_withoutPolicies {e : Element} (h : e.isClean) :
    e.withoutPolicies.isClean := by
  rw [withoutPolicies_eq]
  exact e.isClean_mapAttributes
    (fun _ hattrs => Attributes.isClean_erase (Attributes.isClean_erase hattrs _) _) h

theorem Element.literalNames_withoutPolicies {e : Element} (h : e.Throughout LiteralNames) :
    e.withoutPolicies.Throughout LiteralNames := by
  rw [withoutPolicies_eq]
  refine h.mapAttributes fun e he => ?_
  obtain ⟨tag, attrs, children⟩ := e
  rw [mapAttributes]
  refine ⟨he.1, fun name hname => he.2 name ?_⟩
  exact Attributes.mem_names_of_erase (Attributes.mem_names_of_erase hname)

theorem Configuration.stop_eq_none_of_build {c : Configuration η} {around : Surroundings η σ}
    {session : Session σ} {merged document : Element} (hmerged : mergeLayers c.layers = .ok merged)
    (hexpand : c.options.expand = true) (hbuild : (c.build around session).1 = .ok document) :
    let root := if c.options.stripPolicies then merged.withoutPolicies else merged
    let chain := standardChain c.resolvers c.options root
    (root.expand around chain session).2.stop = none ∧
      (root.expand around chain session).1 = document := by
  simp only [Configuration.build, hmerged, hexpand, if_true, expandMerged] at hbuild
  intro root chain
  split at hbuild
  · next hstop =>
    cases hbuild
    exact ⟨hstop, rfl⟩
  · cases hbuild
  · cases hbuild

theorem outcome_resolve_eq_expanded {options : Options} {root document : Element}
    (hroot : root.isClean) (hnames : root.Throughout Element.LiteralNames)
    {around : Surroundings η σ} (henvironment : around.environment.isClean)
    (hdocument : root.Becomes (ExpandsTo around (options.sources root)) document) {name : String}
    (hname : hasPlaceholders name = false) (honeOf : Text.stripLead Resolver.oneOfLead name = none)
    (hvariable : Text.stripLead Resolver.environmentLead name = none) {s : Session σ}
    (hs : s.inProgress = []) :
    ((Resolver.overSources (options.sources root)).resolve around name).outcome s =
      .ok ((options.property? document name).or (document.lookup options.matchRoot name)) := by
  have h : CleanSources around.environment (options.sources root : List (Resolver η)) :=
    cleanSources_sources options hroot henvironment
  have hvalue : knownValue? around.environment (options.sources root : List (Resolver η)) name =
      (options.property? root name).or (root.lookup options.matchRoot name) :=
    knownValue?_sources hvariable
  have hrel := rel_or (hdocument.property? joins_expandsTo options name)
    (hdocument.lookup joins_expandsTo options.matchRoot name)
  rw [← hvalue] at hrel
  cases hknown : knownValue? around.environment (options.sources root : List (Resolver η)) name with
  | none =>
    rw [hknown] at hrel
    rw [outcome_resolve_of_unknown honeOf h hs hname hknown]
    generalize Option.or _ _ = answer at hrel ⊢
    cases hrel
    rfl
  | some value =>
    -- names are not known to be clean, but one that has a value is made of names in the tree
    have hliteral : Text.IsLiteral name := by
      rw [hvalue] at hknown
      rcases Option.or_eq_some_iff.1 hknown with hproperty | ⟨-, hpath⟩
      · exact Options.isLiteral_of_property? hnames hproperty
      · exact Element.isLiteral_of_lookup hnames hpath
    rw [hknown] at hrel
    generalize Option.or _ _ = answer at hrel ⊢
    cases hrel with
    | some hexpanded =>
      exact outcome_resolve_of_known honeOf h hs hname hknown (Text.isClean_of_not_mem hliteral)
        hexpanded

/-- If a document is built, then each name that has no placeholders and asks for no alternatives
and no environment variable has in the chain of the build the value that it has in the document:
that of the property, and else that at the path. -/
theorem resolve_of_build {c : Configuration η} (hresolvers : c.resolvers = [])
    (hexpand : c.options.expand = true) {merged : Element}
    (hmerged : mergeLayers c.layers = .ok merged) (hclean : merged.isClean)
    (hnames : merged.Throughout Element.LiteralNames) {around : Surroundings η σ}
    (henvironment : around.environment.isClean) {session : Session σ} {document : Element}
    (hbuild : (c.build around session).1 = .ok document) {name : String}
    (hname : hasPlaceholders name = false) (honeOf : Text.stripLead Resolver.oneOfLead name = none)
    (hvariable : Text.stripLead Resolver.environmentLead name = none) {s : Session σ}
    (hs : s.inProgress = []) :
    let root := if c.options.stripPolicies then merged.withoutPolicies else merged
    ((standardChain c.resolvers c.options root).resolve around name).outcome s =
      .ok ((c.options.property? document name).or
        (document.lookup c.options.matchRoot name)) := by
  obtain ⟨hstop, hdocument⟩ := c.stop_eq_none_of_build hmerged hexpand hbuild
  intro root
  have hroot : root.isClean := by
    simp only [root]
    split
    · exact Element.isClean_withoutPolicies hclean
    · exact hclean
  have hliteral : root.Throughout Element.LiteralNames := by
    simp only [root]
    split
    · exact Element.literalNames_withoutPolicies hnames
    · exact hnames
  rw [hresolvers, standardChain_nil] at hstop hdocument ⊢
  refine outcome_resolve_eq_expanded hroot hliteral henvironment ?_ hname honeOf hvariable hs
  rw [← hdocument]
  refine Element.expand_becomes hroot hstop fun text value s htext hs hvalue => ?_
  exact expandsTo_of_outcome (cleanSources_sources c.options hroot henvironment) htext hvalue

def service : Configuration Empty where
  layers := [
    ⟨"app", .empty, [
      .element ⟨"properties", .empty, [
        .element ⟨"host", .empty, [.text "local"]⟩,
        .element ⟨"url", .empty, [.text "http://", .text "${host}:${app.port}"]⟩]⟩,
      .element ⟨"port", .empty, [.text "80"]⟩]⟩,
    ⟨"app", ⟨[("link", "${url}/${app.port}")]⟩, [
      .element ⟨"properties", .empty, [.element ⟨"host", .empty, [.text "${env.HOST}"]⟩]⟩]⟩]
  resolvers := []
  options := .standard

def serviceMerged : Element :=
  ⟨"app", ⟨[("link", "${url}/${app.port}")]⟩, [
    .element ⟨"properties", .empty, [
      .element ⟨"host", .empty, [.text "${env.HOST}"]⟩,
      .element ⟨"url", .empty, [.text "http://", .text "${host}:${app.port}"]⟩]⟩,
    .element ⟨"port", .empty, [.text "80"]⟩]⟩

def serviceDocument : Element :=
  ⟨"app", ⟨[("link", "http://db:80/80")]⟩, [
    .element ⟨"properties", .empty, [
      .element ⟨"host", .empty, [.text "db"]⟩,
      .element ⟨"url", .empty, [.text "http://", .text "db:80"]⟩]⟩,
    .element ⟨"port", .empty, [.text "80"]⟩]⟩

theorem resolve_of_build_service :
    (service.build (noHost ⟨[⟨"HOST", some "db"⟩]⟩) (Session.start ())).1 = .ok serviceDocument ∧
    ((standardChain [] .standard serviceMerged.withoutPolicies).resolve
      (noHost ⟨[⟨"HOST", some "db"⟩]⟩) "url").outcome (Session.start ()) =
        .ok (some "http://db:80") := by
  have hmerged : mergeLayers service.layers = .ok serviceMerged := by decide +kernel
  have hbuild : (service.build (noHost ⟨[⟨"HOST", some "db"⟩]⟩) (Session.start ())).1 =
      .ok serviceDocument := by decide +kernel
  have hname : hasPlaceholders "url" = false := by decide +kernel
  have hurl := resolve_of_build (c := service) rfl rfl hmerged (by decide +kernel)
    (by decide +kernel) (by decide +kernel) hbuild hname (by decide +kernel) (by decide +kernel)
    (s := Session.start ()) rfl
  exact ⟨hbuild, hurl.trans (by decide +kernel)⟩

end ConfigOverlay
