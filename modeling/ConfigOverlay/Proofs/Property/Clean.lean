import ConfigOverlay.Configuration
import ConfigOverlay.Proofs.Property.Sources
import ConfigOverlay.Proofs.Tree.Attributes

/-!
Clean texts: each dollar sign in one opens a placeholder that is closed in it. The parts of a clean
text are literals without dollar signs and placeholders with clean names, and what the sources of a
clean tree and a clean environment know is clean.
-/

set_option autoImplicit false

namespace ConfigOverlay

namespace Text

def closes : Nat → List Char → Bool
  | _, [] => false
  | depth, '$' :: '{' :: rest => closes (depth + 1) rest
  | 0, '}' :: _ => true
  | depth + 1, '}' :: rest => closes depth rest
  | depth, _ :: rest => closes depth rest

/-- Every dollar sign opens a level that is closed. -/
def isClean : List Char → Bool
  | [] => true
  | '$' :: '{' :: rest => closes 0 rest && isClean rest
  | '$' :: _ => false
  | _ :: rest => isClean rest

theorem closes_cons {depth : Nat} {c : Char} {s : List Char}
    (hopen : ∀ rest, c = '$' → s ≠ '{' :: rest) (hclose : c ≠ '}') :
    closes depth (c :: s) = closes depth s := by
  rw [closes.eq_5]
  · exact hopen
  · intro _ hc
    exact absurd hc hclose
  · intro _ _ hc
    exact absurd hc hclose

theorem isClean_cons {c : Char} {s : List Char} (h : c ≠ '$') : isClean (c :: s) = isClean s := by
  rw [isClean.eq_4]
  · intro _ hc
    exact absurd hc h
  · exact h

theorem isClean_open (s : List Char) :
    isClean ('$' :: '{' :: s) = (closes 0 s && isClean s) := by
  rw [isClean.eq_2]

theorem eq_brace_of_isClean {s : List Char} (h : isClean ('$' :: s)) : ∃ rest, s = '{' :: rest := by
  unfold isClean at h
  split at h
  · next heq => cases heq
  · next rest heq =>
    cases heq
    exact ⟨rest, rfl⟩
  · cases h
  · next hdollar heq =>
    cases heq
    exact absurd rfl hdollar

theorem isClean_of_cons {c : Char} {s : List Char} (h : isClean (c :: s)) : isClean s := by
  by_cases hc : c = '$'
  · subst hc
    obtain ⟨rest, rfl⟩ := eq_brace_of_isClean h
    rw [isClean_open, Bool.and_eq_true] at h
    rw [isClean_cons (by decide)]
    exact h.2
  · rwa [isClean_cons hc] at h

theorem isClean_of_append {a b : List Char} (h : isClean (a ++ b)) : isClean b := by
  induction a with
  | nil => exact h
  | cons c a ih => exact ih (isClean_of_cons h)

theorem isClean_of_not_mem {s : List Char} (h : '$' ∉ s) : isClean s := by
  induction s with
  | nil => rfl
  | cons c s ih =>
    rw [isClean_cons fun hc => h (hc ▸ List.mem_cons_self)]
    exact ih fun hs => h (List.mem_cons_of_mem c hs)

theorem closes_append {depth : Nat} {a : List Char} (b : List Char) (h : closes depth a) :
    closes depth (a ++ b) := by
  fun_induction closes depth a with
  | case1 depth => cases h
  | case2 depth rest ih => exact ih h
  | case3 rest => rfl
  | case4 depth rest ih => exact ih h
  | case5 depth c rest hopen hzero hsucc ih =>
    rw [List.cons_append, closes_cons]
    · exact ih h
    · intro after hc hrest
      cases rest with
      | nil => simp [closes] at h
      | cons d rest =>
        rw [List.cons_append, List.cons.injEq] at hrest
        exact hopen rest hc (by rw [hrest.1])
    · intro hc
      cases depth with
      | zero => exact hzero rfl hc
      | succ depth => exact hsucc depth rfl hc

theorem isClean_append {a b : List Char} (ha : isClean a) (hb : isClean b) :
    isClean (a ++ b) := by
  fun_induction isClean a with
  | case1 => exact hb
  | case2 rest ih =>
    rw [Bool.and_eq_true] at ha
    rw [List.cons_append, List.cons_append, isClean_open, closes_append b ha.1, ih ha.2]
    rfl
  | case3 rest _ => cases ha
  | case4 c rest _ hc ih =>
    rw [List.cons_append, isClean_cons hc]
    exact ih ha

theorem opensPlaceholder_of_not_mem {s : List Char} (h : '$' ∉ s) : opensPlaceholder s = false := by
  fun_induction opensPlaceholder s with
  | case1 => rfl
  | case2 rest => exact absurd List.mem_cons_self h
  | case3 c rest _ ih => exact ih fun hrest => h (List.mem_cons_of_mem c hrest)

theorem not_mem_of_isClean {s : List Char} (h : isClean s) (hopens : opensPlaceholder s = false) :
    '$' ∉ s := by
  fun_induction opensPlaceholder s with
  | case1 => exact List.not_mem_nil
  | case2 rest => cases hopens
  | case3 c rest hopen ih =>
    intro hmem
    rcases List.mem_cons.1 hmem with rfl | hrest
    · obtain ⟨after, rfl⟩ := eq_brace_of_isClean h
      exact hopen after rfl rfl
    · exact ih (isClean_of_cons h) hopens hrest

end Text

namespace Part

def IsClean : Part → Prop
  | .literal text => '$' ∉ text.toList
  | .placeholder name => Text.isClean name.toList

theorem isClean_flush {seen : List Char} (h : '$' ∉ seen) : ∀ part ∈ flush seen, part.IsClean := by
  intro part hpart
  simp only [flush] at hpart
  split at hpart
  · exact absurd hpart List.not_mem_nil
  · rw [List.mem_singleton.1 hpart]
    simpa [IsClean] using h

end Part

/-- Where a scan of a clean text may stand. What has been seen of a name is made clean by any clean
text that closes the levels that are open in it. -/
def Scan.IsClean : Scan → List Char → Prop
  | .literal seen, rest => '$' ∉ seen ∧ Text.isClean rest
  | .name before depth seen, rest =>
    '$' ∉ before ∧ Text.closes depth rest ∧ Text.isClean rest ∧
      ∀ tail, (∀ level < depth, Text.closes level tail) → Text.isClean tail →
        Text.isClean (seen.reverse ++ tail)

namespace Part

theorem isClean_of_mem_scan {state : Scan} {rest : List Char} (h : state.IsClean rest) :
    ∀ part ∈ scan state rest, part.IsClean := by
  fun_induction scan state rest with
  | case1 seen => exact isClean_flush h.1
  | case2 seen rest ih =>
    obtain ⟨hseen, hrest⟩ := h
    rw [Text.isClean_open, Bool.and_eq_true] at hrest
    exact ih ⟨hseen, hrest.1, hrest.2, fun tail _ htail => htail⟩
  | case3 seen c rest hopen ih =>
    obtain ⟨hseen, hrest⟩ := h
    refine ih ⟨fun hmem => ?_, Text.isClean_of_cons hrest⟩
    rcases List.mem_cons.1 hmem with rfl | hmem
    · obtain ⟨after, rfl⟩ := Text.eq_brace_of_isClean hrest
      exact hopen after rfl rfl
    · exact hseen hmem
  | case4 before depth seen => simp [Scan.IsClean, Text.closes] at h
  | case5 before depth seen rest ih =>
    obtain ⟨hbefore, hcloses, hrest, hseen⟩ := h
    rw [Text.isClean_open, Bool.and_eq_true] at hrest
    -- the level that opens here is the lowest of those that the tail closes
    refine ih ⟨hbefore, hcloses, hrest.2, fun tail hlevels htail => ?_⟩
    have := hseen ('$' :: '{' :: tail) (fun level hlevel => hlevels (level + 1) (by omega)) (by
      rw [Text.isClean_open, hlevels 0 (Nat.succ_pos depth), htail]
      rfl)
    simpa using this
  | case6 before seen rest ih =>
    obtain ⟨hbefore, -, hrest, hseen⟩ := h
    intro part hpart
    rcases List.mem_append.1 hpart with hpart | hpart
    · exact isClean_flush hbefore part hpart
    · rcases List.mem_cons.1 hpart with rfl | hpart
      · have := hseen [] (fun level hlevel => absurd hlevel (Nat.not_lt_zero level)) rfl
        simpa [IsClean] using this
      · exact ih ⟨List.not_mem_nil, Text.isClean_of_cons hrest⟩ part hpart
  | case7 before depth seen rest ih =>
    obtain ⟨hbefore, hcloses, hrest, hseen⟩ := h
    refine ih ⟨hbefore, hcloses, Text.isClean_of_cons hrest, fun tail hlevels htail => ?_⟩
    have := hseen ('}' :: tail) (fun level hlevel => by
      cases level with
      | zero => rfl
      | succ level => exact hlevels level (by omega)) (by rwa [Text.isClean_cons (by decide)])
    simpa using this
  | case8 before depth seen c rest hopen hzero hsucc ih =>
    obtain ⟨hbefore, hcloses, hrest, hseen⟩ := h
    have hdollar : c ≠ '$' := by
      rintro rfl
      obtain ⟨after, rfl⟩ := Text.eq_brace_of_isClean hrest
      exact hopen after rfl rfl
    have hclose : c ≠ '}' := by
      intro hc
      cases depth with
      | zero => exact hzero rfl hc
      | succ depth => exact hsucc depth rfl hc
    have hskip : ∀ level tail, Text.closes level (c :: tail) = Text.closes level tail :=
      fun level tail => Text.closes_cons (fun _ hc => absurd hc hdollar) hclose
    rw [hskip] at hcloses
    refine ih ⟨hbefore, hcloses, Text.isClean_of_cons hrest, fun tail hlevels htail => ?_⟩
    have := hseen (c :: tail) (fun level hlevel => by rw [hskip]; exact hlevels level hlevel) (by
      rwa [Text.isClean_cons hdollar])
    simpa using this

theorem isClean_of_mem_ofText {text : String} (h : Text.isClean text.toList) :
    ∀ part ∈ ofText text, part.IsClean :=
  isClean_of_mem_scan ⟨List.not_mem_nil, h⟩

end Part

theorem isClean_of_mem_alternatives {parts alternative : List Part}
    (h : ∀ part ∈ parts, part.IsClean) (ha : alternative ∈ alternatives parts) :
    ∀ part ∈ alternative, part.IsClean := by
  refine of_mem_alternatives (fun name hname => h _ hname) (fun text htext piece hpiece _ => ?_) ha
  intro hdollar
  rw [String.toList_ofList] at hdollar
  exact h _ htext (Text.mem_of_mem_segments hpiece hdollar)

def Attributes.isClean (attrs : Attributes) : Bool :=
  attrs.entries.all fun entry => Text.isClean entry.2.toList

mutual
def Element.isClean : Element → Bool
  | ⟨_, attrs, children⟩ => attrs.isClean && Node.areClean children

def Node.isClean : Node → Bool
  | .element e => e.isClean
  | .text content => Text.isClean content.toList
  | .comment _ => true

def Node.areClean : List Node → Bool
  | [] => true
  | node :: rest => node.isClean && Node.areClean rest
end

def Environment.isClean (environment : Environment) : Bool :=
  environment.lines.all fun v =>
    !v.name.toList.contains '$' && v.value.all fun value => Text.isClean value.toList

theorem Attributes.isClean_of_get? {attrs : Attributes} {name value : String} (h : attrs.isClean)
    (hvalue : attrs.get? name = some value) : Text.isClean value.toList := by
  obtain ⟨before, after, hentries, -⟩ := List.lookup_eq_some_iff.1 hvalue
  refine List.all_eq_true.1 h (name, value) ?_
  rw [hentries]
  exact List.mem_append_right before List.mem_cons_self

theorem Attributes.isClean_overlay {lower : Attributes} {entries : List (String × String)}
    (h : lower.isClean) (hentries : ∀ entry ∈ entries, Text.isClean entry.2.toList) :
    (lower.overlay ⟨entries⟩).isClean :=
  List.all_eq_true.2 (forall_mem_overlay (List.all_eq_true.1 h) hentries)

theorem Node.isClean_of_areClean {nodes : List Node} (h : Node.areClean nodes) :
    ∀ node ∈ nodes, node.isClean := by
  induction nodes with
  | nil => exact fun _ hnode => absurd hnode List.not_mem_nil
  | cons first rest ih =>
    rw [areClean, Bool.and_eq_true] at h
    intro node hnode
    rcases List.mem_cons.1 hnode with rfl | hnode
    · exact h.1
    · exact ih h.2 node hnode

mutual
theorem Element.isClean_content : (e : Element) → e.isClean → Text.isClean e.content.toList
  | ⟨_, attrs, children⟩, h => by
    rw [Element.isClean, Bool.and_eq_true] at h
    rw [Element.content]
    exact Node.isClean_contents children h.2

theorem Node.isClean_content : (node : Node) → node.isClean → Text.isClean node.content.toList
  | .element e, h => by
    rw [Node.isClean] at h
    rw [Node.content]
    exact e.isClean_content h
  | .text content, h => by
    rw [Node.isClean] at h
    rwa [Node.content]
  | .comment _, _ => by
    rw [Node.content]
    rfl

theorem Node.isClean_contents : (nodes : List Node) → Node.areClean nodes →
    Text.isClean (Node.contents nodes).toList
  | [], _ => by
    rw [Node.contents_nil]
    rfl
  | node :: rest, h => by
    rw [Node.areClean, Bool.and_eq_true] at h
    rw [Node.contents_cons, String.toList_append]
    exact Text.isClean_append (node.isClean_content h.1) (Node.isClean_contents rest h.2)
end

section

variable {e child : Element}

theorem Element.isClean_of_mem (h : e.isClean) (hchild : .element child ∈ e.children) :
    child.isClean := by
  obtain ⟨tag, attrs, children⟩ := e
  rw [isClean, Bool.and_eq_true] at h
  simpa only [Node.isClean] using Node.isClean_of_areClean h.2 _ hchild

theorem Element.isClean_valueAt {path : List (List Char)} {value : String} (h : e.isClean)
    (hvalue : e.valueAt path = some value) : Text.isClean value.toList := by
  fun_induction Element.valueAt e path with
  | case1 e =>
    cases hvalue
    exact e.isClean_content h
  | case2 e =>
    cases hvalue
    exact e.isClean_content h
  | case3 e segment rest _ value' hattr =>
    cases hvalue
    obtain ⟨tag, attrs, children⟩ := e
    rw [isClean, Bool.and_eq_true] at h
    exact Attributes.isClean_of_get? h.1 hattr
  | case4 e segment rest _ hattr ih =>
    obtain ⟨child, hchild, hbelow⟩ := Option.bind_eq_some_iff.1 hvalue
    exact ih child (isClean_of_mem h (mem_of_onlyChild? hchild)) hbelow

theorem Element.isClean_lookup {matchRoot : Bool} {path value : String} (h : e.isClean)
    (hvalue : e.lookup matchRoot path = some value) : Text.isClean value.toList := by
  simp only [lookup] at hvalue
  split at hvalue
  · obtain ⟨segments, -, hsegments⟩ := Option.bind_eq_some_iff.1 hvalue
    exact isClean_valueAt h hsegments
  · exact isClean_valueAt h hvalue

theorem Table.isClean_ofSection (h : e.isClean) : (Table.ofSection e).entries.isClean := by
  refine Attributes.isClean_overlay rfl fun entry hentry => ?_
  obtain ⟨child, hchild, rfl⟩ := List.mem_map.1 hentry
  exact child.isClean_content (Element.isClean_of_mem h (Element.mem_of_mem_elements hchild))

end

theorem Environment.isClean_get? {environment : Environment} {name value : String}
    (h : environment.isClean) (hvalue : environment.get? name = some value) :
    Text.isClean value.toList := by
  simp only [get?] at hvalue
  split at hvalue
  · cases hvalue
  · obtain ⟨v, hv, hline⟩ := List.exists_of_findSome?_eq_some hvalue
    obtain ⟨content, hcontent, hstrip⟩ := Option.bind_eq_some_iff.1 hline
    have hclean := List.all_eq_true.1 h v hv
    rw [hcontent, Bool.and_eq_true] at hclean
    have hname : '$' ∉ v.name.toList ++ "=".toList := by
      simpa using hclean.1
    have hwhole : Text.isClean (v.name ++ "=" ++ content).toList := by
      rw [String.toList_append, String.toList_append]
      exact Text.isClean_append (Text.isClean_of_not_mem hname) hclean.2
    rw [Text.toList_of_stripLead hstrip] at hwhole
    exact Text.isClean_of_append hwhole

variable {η : Type}

def Options.sources (options : Options) (root : Element) : List (Resolver η) :=
  ((options.section? root).map fun e => Resolver.table (.ofSection e)).toList ++
    (if options.environment then [.environmentVariables] else []) ++
    [.document root options.matchRoot]

theorem standardChain_nil (options : Options) (root : Element) :
    (standardChain [] options root : Resolver η) =
      .firstOf (.oneOf :: (options.sources root).map .expanding) := by
  simp only [standardChain, Options.sources]
  cases options.section? root <;> cases options.environment <;> rfl

theorem Options.sources_ne_nil (options : Options) (root : Element) :
    (options.sources root : List (Resolver η)) ≠ [] := by
  simp [sources]

theorem Options.mem_sources {options : Options} {root : Element} {r : Resolver η}
    (h : r ∈ options.sources root) :
    (∃ e, .element e ∈ root.children ∧ r = .table (.ofSection e)) ∨ r = .environmentVariables ∨
      r = .document root options.matchRoot := by
  simp only [sources, List.mem_append, List.mem_singleton] at h
  rcases h with (hsection | henvironment) | rfl
  · obtain ⟨e, he, rfl⟩ := Option.map_eq_some_iff.1 (Option.mem_toList.1 hsection)
    obtain ⟨tag, -, hfind⟩ := Option.bind_eq_some_iff.1 he
    exact .inl ⟨e, Element.mem_of_mem_elements (List.mem_of_find?_eq_some hfind), rfl⟩
  · split at henvironment
    · exact .inr (.inl (List.mem_singleton.1 henvironment))
    · exact absurd henvironment List.not_mem_nil
  · exact .inr (.inr rfl)

theorem Options.isPlain_of_mem_sources {options : Options} {root : Element} {r : Resolver η}
    (h : r ∈ options.sources root) : r.IsPlain := by
  rcases mem_sources h with ⟨e, -, rfl⟩ | rfl | rfl
  · exact .table _
  · exact .under _ .environment
  · exact .document root _

theorem Options.isClean_of_mem_sources {options : Options} {root : Element} {r : Resolver η}
    {environment : Environment} (hroot : root.isClean) (henvironment : environment.isClean)
    (h : r ∈ options.sources root) {name value : String}
    (hvalue : r.plainValue? environment name = some value) : Text.isClean value.toList := by
  rcases mem_sources h with ⟨e, he, rfl⟩ | rfl | rfl
  · rw [Resolver.plainValue?] at hvalue
    exact Attributes.isClean_of_get? (Table.isClean_ofSection (Element.isClean_of_mem hroot he))
      hvalue
  · rw [Resolver.environmentVariables, Resolver.plainValue?] at hvalue
    obtain ⟨rest, -, hrest⟩ := Option.bind_eq_some_iff.1 hvalue
    rw [Resolver.plainValue?] at hrest
    exact Environment.isClean_get? henvironment hrest
  · rw [Resolver.plainValue?] at hvalue
    exact Element.isClean_lookup hroot hvalue

end ConfigOverlay
