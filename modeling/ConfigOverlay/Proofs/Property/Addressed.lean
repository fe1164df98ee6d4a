import ConfigOverlay.Proofs.Property.Alternatives
import ConfigOverlay.Proofs.Property.Sources
import ConfigOverlay.Proofs.Tree.Attributes

/-!
What a path in a tree addresses. A path without empty segments leads down by tags, each of exactly
one child, and ends in a content or in an attribute that all that remains of the path names. On the
way down no attribute may bear the name of what remains there, or the path ends at that attribute.

A path with an empty segment addresses nothing where the names of the tree have none, with one
exception: a dot at the end of a path is not noticed, as long as the path before it leads to an
element by tags alone.

Main statements: `lookup_eq_some_iff_addressed`, `malformed_lookup_eq_some_iff`.
-/

set_option autoImplicit false

namespace ConfigOverlay

namespace Text

theorem joined_append (sep : Char) {pieces others : List (List Char)} (hpieces : pieces ≠ [])
    (hothers : others ≠ []) :
    joined sep (pieces ++ others) = joined sep pieces ++ sep :: joined sep others := by
  induction pieces with
  | nil => exact absurd rfl hpieces
  | cons piece pieces ih =>
    rw [List.cons_append, joined_cons sep (by simp [hothers])]
    rcases eq_or_ne pieces [] with rfl | hne
    · rfl
    · rw [ih hne, joined_cons sep hne, List.append_assoc, List.cons_append]

theorem segments_append_cons (sep : Char) (s rest : List Char) :
    segments sep (s ++ sep :: rest) = segments sep s ++ segments sep rest := by
  induction s with
  | nil => simp [segments]
  | cons c s ih =>
    rw [List.cons_append, segments, segments, ih]
    by_cases hc : c = sep
    · simp [hc]
    · cases hs : segments sep s with
      | nil => exact absurd hs (segments_ne_nil sep s)
      | cons piece pieces => simp [hc]

theorem segments_joined {sep : Char} {pieces : List (List Char)} (hne : pieces ≠ [])
    (h : ∀ piece ∈ pieces, sep ∉ piece) : segments sep (joined sep pieces) = pieces := by
  induction pieces with
  | nil => exact absurd rfl hne
  | cons piece pieces ih =>
    obtain ⟨hpiece, hpieces⟩ := List.forall_mem_cons.1 h
    rcases eq_or_ne pieces [] with rfl | hrest
    · exact segments_of_not_mem hpiece
    · rw [joined_cons sep hrest, segments_append_cons, segments_of_not_mem hpiece,
        ih hrest hpieces, List.singleton_append]

end Text

def pathText (segments : List (List Char)) : String := String.ofList (Text.joined '.' segments)

theorem pathText_pathSegments (path : String) : pathText (pathSegments path) = path := by
  rw [pathText, pathSegments, Text.joined_segments, String.ofList_toList]

theorem pathSegments_ne_nil (path : String) : pathSegments path ≠ [] :=
  Text.segments_ne_nil '.' path.toList

theorem pathSegments_pathText {segments : List (List Char)} (hne : segments ≠ [])
    (h : ∀ segment ∈ segments, '.' ∉ segment) : pathSegments (pathText segments) = segments := by
  rw [pathSegments, pathText, String.toList_ofList, Text.segments_joined hne h]

theorem pathSegments_append (path below : String) :
    pathSegments (path ++ "." ++ below) = pathSegments path ++ pathSegments below := by
  have htext : (path ++ "." ++ below).toList = path.toList ++ '.' :: below.toList := by simp
  rw [pathSegments, htext, Text.segments_append_cons, pathSegments, pathSegments]

theorem pathText_append {segments more : List (List Char)} (hsegments : segments ≠ [])
    (hmore : more ≠ []) :
    pathText (segments ++ more) = pathText segments ++ "." ++ pathText more := by
  rw [pathText, Text.joined_append '.' hsegments hmore, ← String.toList_inj]
  simp [pathText]

theorem not_mem_of_mem_pathSegments {path : String} {segment : List Char}
    (h : segment ∈ pathSegments path) : '.' ∉ segment :=
  Text.not_mem_of_mem_segments h

theorem pathSegments_eq_append_nil_iff {path : String} {down : List (List Char)} :
    pathSegments path = down ++ [[]] ↔
      path = "" ∧ down = [] ∨ ∃ whole, path = whole ++ "." ∧ down = pathSegments whole := by
  constructor
  · intro h
    have hpath : path = pathText (down ++ [[]]) := by rw [← h, pathText_pathSegments]
    rcases eq_or_ne down [] with rfl | hne
    · exact .inl ⟨hpath, rfl⟩
    · rw [pathText_append hne (List.cons_ne_nil _ _)] at hpath
      have hdots : ∀ segment ∈ down, '.' ∉ segment := fun segment hsegment =>
        not_mem_of_mem_pathSegments (h ▸ List.mem_append_left _ hsegment)
      refine .inr ⟨pathText down, ?_, (pathSegments_pathText hne hdots).symm⟩
      rw [hpath]
      simp [pathText, Text.joined]
  · rintro (⟨rfl, rfl⟩ | ⟨whole, rfl, rfl⟩)
    · rfl
    · have h := pathSegments_append whole ""
      rwa [String.append_empty] at h

theorem isPrefixOf?_pathSegments_eq_some_iff {tag path : String} {remaining : List (List Char)} :
    (pathSegments tag).isPrefixOf? (pathSegments path) = some remaining ↔
      path = tag ∧ remaining = [] ∨
        ∃ below, path = tag ++ "." ++ below ∧ remaining = pathSegments below := by
  rw [List.isPrefixOf?_eq_some_iff_append_eq]
  constructor
  · intro h
    have hpath : path = pathText (pathSegments tag ++ remaining) := by
      rw [h, pathText_pathSegments]
    rcases eq_or_ne remaining [] with rfl | hne
    · rw [List.append_nil, pathText_pathSegments] at hpath
      exact .inl ⟨hpath, rfl⟩
    · rw [pathText_append (pathSegments_ne_nil tag) hne, pathText_pathSegments] at hpath
      have hdots : ∀ segment ∈ remaining, '.' ∉ segment := fun segment hsegment =>
        not_mem_of_mem_pathSegments (h ▸ List.mem_append_right _ hsegment)
      exact .inr ⟨pathText remaining, hpath, (pathSegments_pathText hne hdots).symm⟩
  · rintro (⟨rfl, rfl⟩ | ⟨below, rfl, rfl⟩)
    · exact List.append_nil _
    · exact (pathSegments_append tag below).symm

def Node.text? : Node → Option String
  | .text content => some content
  | _ => none

mutual
def Element.descendants : Element → List Node
  | ⟨_, _, children⟩ => Node.inOrder children

def Node.withDescendants : Node → List Node
  | .element e => .element e :: e.descendants
  | .text content => [.text content]
  | .comment content => [.comment content]

def Node.inOrder : List Node → List Node
  | [] => []
  | node :: rest => node.withDescendants ++ Node.inOrder rest
end

mutual
theorem Element.content_eq_join : (e : Element) →
    e.content = String.join (e.descendants.filterMap Node.text?)
  | ⟨_, _, children⟩ => by
    rw [Element.content, Element.descendants, Node.contents_eq_join children]

theorem Node.content_eq_join : (node : Node) →
    node.content = String.join (node.withDescendants.filterMap Node.text?)
  | .element e => by
    rw [Node.content, Node.withDescendants, e.content_eq_join]
    rfl
  | .text content => by simp [Node.content, Node.withDescendants, Node.text?]
  | .comment content => by rfl

theorem Node.contents_eq_join : (nodes : List Node) →
    Node.contents nodes = String.join ((Node.inOrder nodes).filterMap Node.text?)
  | [] => by simp [Node.contents_nil, Node.inOrder]
  | node :: rest => by
    rw [Node.contents_cons, Node.inOrder, node.content_eq_join, Node.contents_eq_join rest,
      List.filterMap_append, String.join_append]
end

namespace Element

/-- Going down by tags, each of exactly one child. -/
inductive Leads : Element → List (List Char) → Element → Prop where
  | here (e : Element) : Leads e [] e
  | down {e child last : Element} {segment : List Char} {rest : List (List Char)}
    (honly : e.elements.filter (·.tag = String.ofList segment) = [child])
    (hbelow : Leads child rest last) : Leads e (segment :: rest) last

theorem onlyChild?_eq_some_iff {e child : Element} {tag : String} :
    e.onlyChild? tag = some child ↔ e.elements.filter (·.tag = tag) = [child] := by
  rw [onlyChild?]
  split
  · next only honly => simp [honly]
  · next hmany => exact ⟨fun h => absurd h (by simp), fun h => absurd h (hmany child)⟩

variable {e root last : Element} {segment : List Char} {down rest remaining : List (List Char)}
  {matchRoot : Bool} {path value : String}

theorem leads_nil_iff : e.Leads [] last ↔ last = e := by
  constructor
  · intro h
    cases h
    rfl
  · rintro rfl
    exact .here last

theorem leads_cons_iff :
    e.Leads (segment :: rest) last ↔
      ∃ child, e.onlyChild? (String.ofList segment) = some child ∧ child.Leads rest last := by
  constructor
  · intro h
    cases h with
    | down honly hbelow => exact ⟨_, onlyChild?_eq_some_iff.2 honly, hbelow⟩
  · rintro ⟨child, hchild, hbelow⟩
    exact .down (onlyChild?_eq_some_iff.1 hchild) hbelow

/-- What remains of a path where the walk begins: all of it or, if the root is to be matched, what
follows the root's tag and the dot behind the tag. -/
def Leaves (root : Element) (matchRoot : Bool) (path : String) (remaining : List (List Char)) :
    Prop :=
  if matchRoot then
    path = root.tag ∧ remaining = [] ∨
      ∃ below, path = root.tag ++ "." ++ below ∧ remaining = pathSegments below
  else remaining = pathSegments path

theorem lookup_eq_some_iff :
    root.lookup matchRoot path = some value ↔
      ∃ remaining, root.Leaves matchRoot path remaining ∧ root.valueAt remaining = some value := by
  cases matchRoot with
  | false => simp [lookup, Leaves]
  | true =>
    simp only [lookup, Leaves, if_true, Option.bind_eq_some_iff,
      isPrefixOf?_pathSegments_eq_some_iff]

/-- The way `down` leads to the element, and no attribute of an element before it bears the name of
what remains there of the path. -/
structure Addresses (e : Element) (down rest : List (List Char)) (last : Element) : Prop where
  leads : e.Leads down last
  unnamed : ∀ before after between, down = before ++ after → after ≠ [] →
    e.Leads before between → pathText (after ++ rest) ∉ between.attrs.names

theorem addresses_nil_iff : e.Addresses [] rest last ↔ last = e := by
  refine ⟨fun h => leads_nil_iff.1 h.leads, fun h => ⟨leads_nil_iff.2 h, ?_⟩⟩
  intro before after between hdown hafter
  exact absurd (List.append_eq_nil_iff.1 hdown.symm).2 hafter

theorem addresses_cons_iff :
    e.Addresses (segment :: down) rest last ↔
      pathText (segment :: down ++ rest) ∉ e.attrs.names ∧
        ∃ child, e.onlyChild? (String.ofList segment) = some child ∧
          child.Addresses down rest last := by
  constructor
  · rintro ⟨hleads, hunnamed⟩
    obtain ⟨child, hchild, hbelow⟩ := leads_cons_iff.1 hleads
    refine ⟨hunnamed [] _ e rfl (List.cons_ne_nil _ _) (.here e), child, hchild, hbelow, ?_⟩
    intro before after between hdown hafter hbetween
    exact hunnamed (segment :: before) after between (by rw [hdown, List.cons_append]) hafter
      (leads_cons_iff.2 ⟨child, hchild, hbetween⟩)
  · rintro ⟨hname, child, hchild, hleads, hunnamed⟩
    refine ⟨leads_cons_iff.2 ⟨child, hchild, hleads⟩, ?_⟩
    intro before after between hdown hafter hbetween
    cases before with
    | nil =>
      obtain rfl : segment :: down = after := hdown
      rwa [leads_nil_iff.1 hbetween]
    | cons first before =>
      rw [List.cons_append] at hdown
      obtain ⟨rfl, hrest⟩ := List.cons.inj hdown
      obtain ⟨child', hchild', hbetween⟩ := leads_cons_iff.1 hbetween
      obtain rfl := Option.some.inj (hchild.symm.trans hchild')
      exact hunnamed before after between hrest hafter hbetween

/-- What the element has for the rest of a path: for no rest the texts below it, one after another,
and otherwise the attribute of that name. -/
def Has (e : Element) (rest : List (List Char)) (value : String) : Prop :=
  rest = [] ∧ value = String.join (e.descendants.filterMap Node.text?) ∨
    rest ≠ [] ∧ e.attrs.get? (pathText rest) = some value

def Addressed (e : Element) (remaining : List (List Char)) (value : String) : Prop :=
  ∃ down rest last, remaining = down ++ rest ∧ e.Addresses down rest last ∧ last.Has rest value

theorem addressed_nil_iff : e.Addressed [] value ↔ value = e.content := by
  constructor
  · rintro ⟨down, rest, last, hsplit, haddresses, hhas⟩
    obtain ⟨rfl, rfl⟩ := List.append_eq_nil_iff.1 hsplit.symm
    obtain rfl := addresses_nil_iff.1 haddresses
    obtain ⟨-, hvalue⟩ | ⟨hne, -⟩ := hhas
    · rw [hvalue, last.content_eq_join]
    · exact absurd rfl hne
  · rintro rfl
    exact ⟨[], [], e, rfl, addresses_nil_iff.2 rfl, .inl ⟨rfl, e.content_eq_join⟩⟩

/-- Either the walk ends where it begins, at the attribute that all of the path names, or there is
no such attribute and it goes on below the only child of the tag. -/
theorem addressed_cons_iff :
    e.Addressed (segment :: remaining) value ↔
      e.attrs.get? (pathText (segment :: remaining)) = some value ∨
        pathText (segment :: remaining) ∉ e.attrs.names ∧
          ∃ child, e.onlyChild? (String.ofList segment) = some child ∧
            child.Addressed remaining value := by
  constructor
  · rintro ⟨down, rest, last, hsplit, haddresses, hhas⟩
    cases down with
    | nil =>
      rw [List.nil_append] at hsplit
      obtain rfl := addresses_nil_iff.1 haddresses
      obtain ⟨hnil, -⟩ | ⟨-, hvalue⟩ := hhas
      · cases hsplit.trans hnil
      · exact .inl (hsplit ▸ hvalue)
    | cons first down =>
      obtain ⟨rfl, rfl⟩ := List.cons.inj hsplit
      obtain ⟨hname, child, hchild, hbelow⟩ := addresses_cons_iff.1 haddresses
      exact .inr ⟨hname, child, hchild, down, rest, last, rfl, hbelow, hhas⟩
  · rintro (hvalue | ⟨hname, child, hchild, down, rest, last, rfl, hbelow, hhas⟩)
    · exact ⟨[], segment :: remaining, e, rfl, addresses_nil_iff.2 rfl,
        .inr ⟨List.cons_ne_nil _ _, hvalue⟩⟩
    · exact ⟨segment :: down, rest, last, rfl,
        addresses_cons_iff.2 ⟨hname, child, hchild, hbelow⟩, hhas⟩

theorem valueAt_cons (h : segment :: remaining ≠ [[]]) :
    e.valueAt (segment :: remaining) =
      (e.attrs.get? (pathText (segment :: remaining))).or
        ((e.onlyChild? (String.ofList segment)).bind fun child => child.valueAt remaining) := by
  rw [valueAt.eq_3 e segment remaining fun hs hr => h (by rw [hs, hr]), pathText]
  split
  · next hname => rw [hname, Option.some_or]
  · next hname => rw [hname, Option.none_or]

theorem valueAt_eq_some_iff (hremaining : [] ∉ remaining) :
    e.valueAt remaining = some value ↔ e.Addressed remaining value := by
  induction remaining generalizing e with
  | nil =>
    rw [addressed_nil_iff, valueAt, Option.some.injEq]
    exact eq_comm
  | cons segment others ih =>
    obtain ⟨hsegment, hothers⟩ := not_or.1 (mt List.mem_cons.2 hremaining)
    rw [valueAt_cons (by simp [Ne.symm hsegment]), addressed_cons_iff, Option.or_eq_some_iff,
      Attributes.get?_eq_none_iff, Option.bind_eq_some_iff]
    simp only [ih hothers]

end Element

section

variable {root : Element} {matchRoot : Bool} {path value : String}

theorem Element.Leaves.not_mem {remaining : List (List Char)}
    (h : root.Leaves matchRoot path remaining) (hpath : [] ∉ pathSegments path) :
    [] ∉ remaining := by
  cases matchRoot with
  | false => exact h ▸ hpath
  | true =>
    obtain ⟨-, rfl⟩ | ⟨below, rfl, rfl⟩ := h
    · exact List.not_mem_nil
    · rw [pathSegments_append] at hpath
      exact fun hmem => hpath (List.mem_append_right _ hmem)

/-- A lookup finds just what the path addresses, whatever else the tree holds. What remains of the
path below the root is some segments, which lead down by the only child of each tag, and a rest; no
element before the last has an attribute that is named by all that remains there. The value is the
texts below the last element for an empty rest, and otherwise its attribute of that name. -/
theorem lookup_eq_some_iff_addressed (hpath : [] ∉ pathSegments path) :
    root.lookup matchRoot path = some value ↔
      ∃ remaining down rest last, root.Leaves matchRoot path remaining ∧
        remaining = down ++ rest ∧ root.Addresses down rest last ∧ last.Has rest value := by
  rw [Element.lookup_eq_some_iff]
  constructor
  · rintro ⟨remaining, hleaves, hvalue⟩
    obtain ⟨down, rest, last, hsplit, haddresses, hhas⟩ :=
      (Element.valueAt_eq_some_iff (hleaves.not_mem hpath)).1 hvalue
    exact ⟨remaining, down, rest, last, hleaves, hsplit, haddresses, hhas⟩
  · rintro ⟨remaining, down, rest, last, hleaves, haddressed⟩
    exact ⟨remaining, hleaves,
      (Element.valueAt_eq_some_iff (hleaves.not_mem hpath)).2 ⟨down, rest, last, haddressed⟩⟩

end

def twicePorted : Element :=
  ⟨"app.web", .empty, [.element ⟨"http", ⟨[("listen.port", "80")]⟩,
    [.element ⟨"listen", .empty, [.element ⟨"port", .empty, [.text "8080"]⟩]⟩]⟩]⟩

theorem twicePorted_attribute_wins :
    [] ∉ pathSegments "app.web.http.listen.port" ∧
      ∃ remaining down rest last,
        twicePorted.Leaves true "app.web.http.listen.port" remaining ∧ remaining = down ++ rest ∧
          twicePorted.Addresses down rest last ∧ last.Has rest "80" :=
  ⟨by decide, (lookup_eq_some_iff_addressed (by decide)).1 (by decide)⟩

namespace Element

def WellNamed (e : Element) : Prop :=
  [] ∉ pathSegments e.tag ∧ ∀ name ∈ e.attrs.names, [] ∉ pathSegments name

instance : DecidablePred WellNamed := fun e =>
  inferInstanceAs (Decidable ([] ∉ pathSegments e.tag ∧
    ∀ name ∈ e.attrs.names, [] ∉ pathSegments name))

variable {e root last : Element} {segment : List Char} {down remaining : List (List Char)}
  {matchRoot : Bool} {path value : String}

theorem WellNamed.onlyChild?_nil (h : e.Throughout WellNamed) :
    e.onlyChild? (String.ofList []) = none := by
  refine Option.eq_none_iff_forall_ne_some.2 fun child hchild => ?_
  have htag := (h.child (mem_of_onlyChild? hchild)).here.1
  rw [tag_of_onlyChild? hchild] at htag
  exact htag (by simp [pathSegments, Text.segments])

theorem WellNamed.get?_eq_none (h : e.WellNamed) (hne : remaining ≠ [])
    (hdots : ∀ segment ∈ remaining, '.' ∉ segment) (hempty : [] ∈ remaining) :
    e.attrs.get? (pathText remaining) = none := by
  refine Attributes.get?_eq_none_iff.2 fun hname => h.2 _ hname ?_
  rwa [pathSegments_pathText hne hdots]

/-- Of what remains of a malformed path only a dot at its end can be passed over, and the way to it
is by tags alone: attributes have no such names. -/
theorem valueAt_malformed_eq_some_iff (h : e.Throughout WellNamed)
    (hdots : ∀ segment ∈ remaining, '.' ∉ segment) (hempty : [] ∈ remaining) :
    e.valueAt remaining = some value ↔
      ∃ down last, remaining = down ++ [[]] ∧ [] ∉ down ∧ e.Leads down last ∧
        value = last.content := by
  induction remaining generalizing e with
  | nil => exact absurd hempty List.not_mem_nil
  | cons segment others ih =>
    rcases eq_or_ne (segment :: others) [[]] with hend | hmore
    · rw [hend, valueAt, Option.some.injEq]
      constructor
      · rintro rfl
        exact ⟨[], e, rfl, List.not_mem_nil, .here e, rfl⟩
      · rintro ⟨down, last, hsplit, -, hleads, rfl⟩
        obtain rfl : down = [] := by simpa using hsplit.symm
        rw [leads_nil_iff.1 hleads]
    · rw [valueAt_cons hmore, h.here.get?_eq_none (List.cons_ne_nil _ _) hdots hempty,
        Option.none_or, Option.bind_eq_some_iff]
      rcases eq_or_ne segment [] with rfl | hsegment
      · rw [WellNamed.onlyChild?_nil h]
        constructor
        · rintro ⟨child, hchild, -⟩
          cases hchild
        · rintro ⟨down, last, hsplit, hdown, -⟩
          cases down with
          | nil => exact absurd hsplit hmore
          | cons first down => exact absurd ((List.cons.inj hsplit).1 ▸ List.mem_cons_self) hdown
      · have hbelow : ∀ child, e.onlyChild? (String.ofList segment) = some child →
            (child.valueAt others = some value ↔ ∃ down last, others = down ++ [[]] ∧ [] ∉ down ∧
              child.Leads down last ∧ value = last.content) := fun child hchild =>
          ih (h.child (mem_of_onlyChild? hchild)) (List.forall_mem_cons.1 hdots).2
            ((List.mem_cons.1 hempty).resolve_left hsegment.symm)
        constructor
        · rintro ⟨child, hchild, hvalue⟩
          obtain ⟨down, last, rfl, hdown, hleads, rfl⟩ := (hbelow child hchild).1 hvalue
          exact ⟨segment :: down, last, rfl, by simp [hdown, Ne.symm hsegment],
            leads_cons_iff.2 ⟨child, hchild, hleads⟩, rfl⟩
        · rintro ⟨down, last, hsplit, hdown, hleads, rfl⟩
          cases down with
          | nil => exact absurd hsplit hmore
          | cons first down =>
            obtain ⟨rfl, rfl⟩ := List.cons.inj hsplit
            obtain ⟨child, hchild, hlast⟩ := leads_cons_iff.1 hleads
            exact ⟨child, hchild, (hbelow child hchild).2
              ⟨down, last, rfl, (not_or.1 (mt List.mem_cons.2 hdown)).2, hlast, rfl⟩⟩

theorem leaves_append_nil_iff :
    root.Leaves matchRoot path (down ++ [[]]) ↔
      matchRoot = false ∧ path = "" ∧ down = [] ∨
        ∃ whole, path = whole ++ "." ∧ root.Leaves matchRoot whole down := by
  cases matchRoot with
  | false =>
    simp only [Leaves, Bool.false_eq_true, if_false, true_and]
    rw [eq_comm, pathSegments_eq_append_nil_iff]
  | true =>
    simp only [Leaves, if_true, Bool.true_eq_false, false_and, false_or]
    constructor
    · rintro (⟨-, hnil⟩ | ⟨below, rfl, hbelow⟩)
      · simp at hnil
      · obtain ⟨rfl, rfl⟩ | ⟨whole, rfl, rfl⟩ := pathSegments_eq_append_nil_iff.1 hbelow.symm
        · exact ⟨root.tag, by simp, .inl ⟨rfl, rfl⟩⟩
        · exact ⟨root.tag ++ "." ++ whole, by simp [String.append_assoc],
            .inr ⟨whole, rfl, rfl⟩⟩
    · rintro ⟨whole, rfl, ⟨rfl, rfl⟩ | ⟨below, rfl, rfl⟩⟩
      · exact .inr ⟨"", by simp, rfl⟩
      · exact .inr ⟨below ++ ".", by simp [String.append_assoc],
          (pathSegments_eq_append_nil_iff.2 (.inr ⟨below, rfl, rfl⟩)).symm⟩

theorem Leaves.mem_nil_iff (h : root.Leaves matchRoot path remaining) (hroot : root.WellNamed) :
    [] ∈ remaining ↔ [] ∈ pathSegments path := by
  refine ⟨fun hmem => by_contra fun hpath => h.not_mem hpath hmem, fun hpath => ?_⟩
  cases matchRoot with
  | false => exact h ▸ hpath
  | true =>
    obtain ⟨rfl, rfl⟩ | ⟨below, rfl, rfl⟩ := h
    · exact absurd hpath hroot.1
    · rw [pathSegments_append] at hpath
      exact (List.mem_append.1 hpath).resolve_left hroot.1

theorem Leaves.not_dotted (h : root.Leaves matchRoot path remaining) :
    ∀ segment ∈ remaining, '.' ∉ segment := by
  cases matchRoot with
  | false =>
    obtain rfl : remaining = pathSegments path := h
    exact fun segment => not_mem_of_mem_pathSegments
  | true =>
    obtain ⟨-, rfl⟩ | ⟨below, -, rfl⟩ := h
    · simp
    · exact fun segment => not_mem_of_mem_pathSegments

end Element

section

variable {root : Element} {matchRoot : Bool} {path value : String}

/-- A path with an empty segment finds nothing in a tree whose names have none, except where it is
empty and begins below the root, which gives the root's content, or where it is a path without empty
segments and one dot behind it. Then it gives the content of the element the path before the dot
leads to by tags, also where that path itself would have ended at an attribute. -/
theorem malformed_lookup_eq_some_iff (h : root.Throughout Element.WellNamed)
    (hpath : [] ∈ pathSegments path) :
    root.lookup matchRoot path = some value ↔
      matchRoot = false ∧ path = "" ∧ value = root.content ∨
        ∃ whole down last, path = whole ++ "." ∧ [] ∉ pathSegments whole ∧
          root.Leaves matchRoot whole down ∧ root.Leads down last ∧ value = last.content := by
  rw [Element.lookup_eq_some_iff]
  constructor
  · rintro ⟨remaining, hleaves, hvalue⟩
    obtain ⟨down, last, rfl, hdown, hleads, rfl⟩ :=
      (Element.valueAt_malformed_eq_some_iff h hleaves.not_dotted
        ((hleaves.mem_nil_iff h.here).2 hpath)).1 hvalue
    obtain ⟨hmatch, hempty, rfl⟩ | ⟨whole, hwhole, hbefore⟩ :=
      Element.leaves_append_nil_iff.1 hleaves
    · rw [Element.leads_nil_iff.1 hleads]
      exact .inl ⟨hmatch, hempty, rfl⟩
    · exact .inr ⟨whole, down, last, hwhole, mt (hbefore.mem_nil_iff h.here).2 hdown, hbefore,
        hleads, rfl⟩
  · rintro (⟨rfl, rfl, rfl⟩ | ⟨whole, down, last, rfl, hwhole, hbefore, hleads, rfl⟩)
    · exact ⟨[[]], rfl, rfl⟩
    · have hleaves : root.Leaves matchRoot (whole ++ ".") (down ++ [[]]) :=
        Element.leaves_append_nil_iff.2 (.inr ⟨whole, rfl, hbefore⟩)
      refine ⟨down ++ [[]], hleaves, (Element.valueAt_malformed_eq_some_iff h hleaves.not_dotted
        (List.mem_append_right _ (List.mem_singleton_self _))).2
          ⟨down, last, rfl, mt (hbefore.mem_nil_iff h.here).1 hwhole, hleads, rfl⟩⟩

end

theorem twicePorted_dot_passed_over :
    twicePorted.Throughout Element.WellNamed ∧ [] ∈ pathSegments "http.listen.port." ∧
      ∃ whole down last, "http.listen.port." = whole ++ "." ∧ [] ∉ pathSegments whole ∧
        twicePorted.Leaves false whole down ∧ twicePorted.Leads down last ∧
          "8080" = last.content :=
  ⟨by decide, by decide, ((malformed_lookup_eq_some_iff (by decide) (by decide)).1
    (by decide +kernel : twicePorted.lookup false "http.listen.port." = some "8080")).resolve_left
      (by simp)⟩

/-- A dot at the end of a path may be passed over. -/
theorem malformed_path_is_followed :
    ¬ ∀ (root : Element) (matchRoot : Bool) (path : String), root.Throughout Element.WellNamed →
      [] ∈ pathSegments path → root.lookup matchRoot path = none := by
  intro h
  cases h ⟨"r", .empty, [.element ⟨"a", .empty, [.text "x"]⟩]⟩ false "a." (by decide) (by decide)

end ConfigOverlay
