import ConfigOverlay.Proofs.Merge.Siblings
import ConfigOverlay.Proofs.Merge.Stack
import Mathlib.Data.List.TakeWhile

/-!
The rules of merging, written down for one pair (`rules`) and as a recursion over the dominant
element (`laidOver`). They count keys and tags on their own and know nothing of steps or stacks.
-/

set_option autoImplicit false

namespace ConfigOverlay

namespace Rules

def upToContent : List Node → List Node
  | [] => []
  | node :: rest =>
    if (node :: rest).all Node.isLayout then [] else node :: upToContent rest

/-- The one sibling of a key. Without an id it has to be the one sibling of its tag, too. -/
def only? (siblings : List Sibling) (key : Key) : Option Sibling :=
  match siblings.filter (·.key = key) with
  | [s] =>
    if key.id = none ∧ (siblings.filter (·.element.tag = key.tag)).length ≠ 1 then none else some s
  | _ => none

def pair? (recessives dominants : List Sibling) (key : Key) : Option (Sibling × Sibling) := do
  let r ← only? recessives key
  let d ← only? dominants key
  pure (r, d)

def withPolicy (s : Sibling) : Except MergeError (Sibling × Option SelfPolicy) := do
  let policy ← s.element.selfPolicy
  pure (s, policy)

/-- The recessive siblings that stay: not those that give way to any sibling of their tag, if there
is one. -/
def kept (recessives dominants : List Sibling) : Except MergeError (List Sibling) := do
  let declared ← recessives.mapM withPolicy
  let stay := declared.filter fun (s, policy) =>
    !(policy = some .overridableByTag && dominants.any (·.element.tag = s.element.tag))
  pure (stay.map (·.1))

def placed (leading : List Node) : Option Element → List Node
  | none => []
  | some e => leading ++ [.element e]

/-- Among the strays is text of the node's kind, blank or not. -/
def isReplacedBy (strays : List Node) (node : Node) : Bool :=
  node.isText && strays.any fun stray => stray.isText && stray.isLayout == node.isLayout

variable (lay : Option Element → Element → Except MergeError (Option Element))

/-- The nodes for a recessive sibling: merged with its counterpart, or as it is. -/
def inPlace (stay dominants : List Sibling) (s : Sibling) : Except MergeError (List Node) :=
  match pair? stay dominants s.key with
  | some (_, d) => do
    let child ← lay (some s.element) d.element
    pure (placed (if d.leading.isEmpty then s.leading else d.leading) child)
  | none => pure (s.leading ++ [.element s.element])

def added (stay dominants : List Sibling) (d : Sibling) : Except MergeError (List Node) :=
  match pair? stay dominants d.key with
  | some _ => pure []
  | none => do
    let child ← lay none d.element
    pure (placed d.leading child)

/-- The children under the policy `MERGE`: the recessive siblings that stay, the dominant ones that
are not merged with any of these, and the strays of both sides. -/
def mergedChildren (recessives dominants : Siblings) : Except MergeError (List Node) := do
  let stay ← kept recessives.elements dominants.elements
  let first ← stay.mapM (inPlace lay stay dominants.elements)
  let second ← dominants.elements.mapM (added lay stay dominants.elements)
  pure (first.flatten ++ second.flatten ++
    recessives.stray.filter (fun node => !isReplacedBy dominants.stray node) ++ dominants.stray)

def appended : Node → Except MergeError (List Node)
  | .element child => do
    let laid ← lay none child
    pure (placed [] laid)
  | node => pure [node]

def appendedChildren (dominant : List Node) : Except MergeError (List Node) := do
  let nodes ← dominant.mapM (appended lay)
  pure nodes.flatten

def declaredAfter : Option SelfPolicy → Option SelfPolicy → Option SelfPolicy
  | _, some dominant => some dominant
  | some .defaults, none => none
  | recessive, none => recessive

def mergedAttributes (recessive : Option Element) (dominant : Element)
    (recessiveSelf dominantSelf : Option SelfPolicy) : Attributes :=
  (Attributes.ofPairs (((recessive.map (·.attrs.entries)).getD []) ++
    dominant.attrs.entries)).declaring (declaredAfter recessiveSelf dominantSelf)

def childrenPolicy (recessive : Option Element) (dominant : Element) :
    Except MergeError ChildrenPolicy := do
  match ← dominant.childrenPolicy with
  | some policy => pure policy
  | none => do
    let inherited ← declaredBy Element.childrenPolicy recessive
    pure (inherited.getD .merge)

def mergedElement (attrs : Attributes) (recessive : Option Element) (dominant : Element) :
    ChildrenPolicy → Except MergeError (Option Element)
  | .append =>
    match recessive with
    | none => pure (some dominant)
    | some below => do
      let behind ← appendedChildren lay dominant.children
      pure (some ⟨dominant.tag, attrs, upToContent below.children ++ behind⟩)
  | .merge => do
    let children ← mergedChildren lay
      (.ofNodes ((recessive.map (·.children)).getD [])) (.ofNodes dominant.children)
    pure (some ⟨dominant.tag, attrs, children⟩)

end Rules

/-- What the rules say about a pair, where `lay` says it about the children. -/
def rules (lay : Option Element → Element → Except MergeError (Option Element))
    (recessive : Option Element) (dominant : Element) : Except MergeError (Option Element) := do
  let dominantSelf ← dominant.selfPolicy
  let recessiveSelf ← declaredBy Element.selfPolicy recessive
  if dominantSelf = some .remove then pure none
  else if dominantSelf = some .override ∨ recessiveSelf = some .overridable then
    pure (some dominant.withoutSelfPolicy)
  else do
    let policy ← Rules.childrenPolicy recessive dominant
    let attrs := Rules.mergedAttributes recessive dominant recessiveSelf dominantSelf
    Rules.mergedElement lay attrs recessive dominant policy

/-- The rules as a recursion. They ask for children of the dominant element only. -/
def laidOver (recessive : Option Element) (dominant : Element) :
    Except MergeError (Option Element) :=
  rules (fun below child =>
      if _h : Node.element child ∈ dominant.children then laidOver below child else .ok none)
    recessive dominant
termination_by sizeOf dominant
decreasing_by exact Element.sizeOf_child_lt ‹_›

theorem collect_eq_mapM {α β ε : Type} (f : α → Except ε (List β)) (l : List α) :
    collect f l = (do let parts ← l.mapM f; pure parts.flatten) := by
  induction l with
  | nil => rfl
  | cons a l ih =>
    rw [collect, ih, List.mapM_cons]
    cases f a with
    | error e => rfl
    | ok first => cases l.mapM f <;> rfl

theorem collect_append {α β ε : Type} (f : α → Except ε (List β)) (l l' : List α) :
    collect f (l ++ l') = (do
      let first ← collect f l
      let second ← collect f l'
      pure (first ++ second)) := by
  induction l with
  | nil => rw [List.nil_append, collect]; cases collect f l' <;> rfl
  | cons a l ih =>
    rw [List.cons_append, collect, collect, ih]
    cases f a with
    | error e => rfl
    | ok first =>
      cases collect f l with
      | error e => rfl
      | ok second =>
        cases collect f l' with
        | error e => rfl
        | ok third => simp [bind, Except.bind, pure, Except.pure]

theorem collect_flatMap {α β γ ε : Type} (f : β → Except ε (List γ)) (g : α → List β)
    (l : List α) : collect f (l.flatMap g) = collect (fun a => collect f (g a)) l := by
  induction l with
  | nil => rfl
  | cons a l ih =>
    rw [List.flatMap_cons, collect_append, ih, collect]
    cases collect f (g a) with
    | error e => rfl
    | ok first => cases collect (fun a => collect f (g a)) l <;> rfl

theorem collect_map {α β γ ε : Type} (f : β → Except ε (List γ)) (g : α → β) (l : List α) :
    collect f (l.map g) = collect (fun a => f (g a)) l := by
  induction l with
  | nil => rfl
  | cons a l ih => rw [List.map_cons, collect, collect, ih]

namespace Rules

theorem withoutTrailingLayout_cons (node : Node) (rest : List Node) :
    withoutTrailingLayout (node :: rest) =
      if (node :: rest).all Node.isLayout then [] else node :: withoutTrailingLayout rest := by
  have hnil : rest.reverse.dropWhile Node.isLayout = [] ↔ rest.all Node.isLayout := by
    simp [List.dropWhile_eq_nil_iff]
  rw [withoutTrailingLayout, withoutTrailingLayout, List.reverse_cons, List.dropWhile_append]
  by_cases hrest : rest.all Node.isLayout
  · rw [hnil.2 hrest]
    cases hnode : node.isLayout <;> simp [hnode, hrest]
  · have hne := mt hnil.1 hrest
    simp [hrest, hne]

theorem upToContent_eq (nodes : List Node) : upToContent nodes = withoutTrailingLayout nodes := by
  induction nodes with
  | nil => rfl
  | cons node rest ih => rw [upToContent, withoutTrailingLayout_cons, ih]

theorem only?_eq (siblings : List Sibling) (key : Key) :
    only? siblings key =
      if siblings.countP (·.key = key) = 1 ∧
          (key.id = none → siblings.countP (·.element.tag = key.tag) = 1) then
        siblings.find? (·.key = key)
      else none := by
  rw [only?, List.countP_eq_length_filter, List.countP_eq_length_filter, ← List.head?_filter]
  split
  · next s h => rw [h]; by_cases hid : key.id = none <;> simp [hid]
  · next h =>
    rw [if_neg]
    rintro ⟨hone, _⟩
    obtain ⟨s, hs⟩ := List.length_eq_one_iff.1 hone
    exact h s hs

theorem counterpart?_eq (recessives dominants : List Sibling) (key : Key) :
    counterpart? recessives dominants key = (pair? recessives dominants key).map (·.2) := by
  rw [counterpart?, pair?, only?_eq, only?_eq]
  by_cases hr : recessives.countP (·.key = key) = 1 ∧
      (key.id = none → recessives.countP (·.element.tag = key.tag) = 1)
  · obtain ⟨r, hr'⟩ : ∃ r, recessives.find? (·.key = key) = some r := by
      rw [← Option.isSome_iff_exists, List.find?_isSome]
      have hpos : 0 < recessives.countP (·.key = key) := by omega
      simpa using List.countP_pos_iff.1 hpos
    rw [if_pos hr, hr']
    by_cases hd : dominants.countP (·.key = key) = 1 ∧
        (key.id = none → dominants.countP (·.element.tag = key.tag) = 1)
    · rw [if_pos hd, if_pos ⟨hr.1, hd.1, fun h => ⟨hr.2 h, hd.2 h⟩⟩]
      cases dominants.find? (·.key = key) <;> rfl
    · rw [if_neg hd, if_neg fun h => hd ⟨h.2.1, fun hid => (h.2.2 hid).2⟩]
      rfl
  · rw [if_neg hr, if_neg fun h => hr ⟨h.1, fun hid => (h.2.2 hid).1⟩]
    rfl

theorem kept_eq (recessives dominants : List Sibling) :
    kept recessives dominants = retained dominants recessives := by
  induction recessives with
  | nil => rfl
  | cons s rest ih =>
    rw [retained, ← ih]
    rw [kept, kept, List.mapM_cons, withPolicy]
    cases s.element.selfPolicy with
    | error e => rfl
    | ok policy =>
      cases rest.mapM withPolicy with
      | error e => rfl
      | ok declared =>
        simp only [bind, Except.bind, pure, Except.pure, List.filter_cons, isDroppedBy]
        by_cases hdrop : (decide (policy = some .overridableByTag) &&
          dominants.any fun d => d.element.tag = s.element.tag) = true <;> simp [hdrop]

theorem staysBeside_eq {dominants : Siblings} {node : Node} (h : node.element? = none) :
    staysBeside dominants node = !isReplacedBy dominants.stray node := by
  cases node with
  | element e => simp [Node.element?] at h
  | comment content => simp [staysBeside, isReplacedBy, Node.isText, Node.isLayout]
  | text content =>
    cases hlayout : Node.isLayout (.text content) <;>
      simp [staysBeside, isReplacedBy, Node.isText, hlayout, Siblings.hasText,
        Siblings.hasBlankText, List.any_eq]

variable (lay : Option Element → Element → Except MergeError (Option Element))

theorem run_merge (leading : List Node) (recessive : Option Element) (dominant : Element) :
    Step.run lay (.merge leading recessive dominant) =
      (do let child ← lay recessive dominant; pure (placed leading child)) := by
  rw [Step.run]
  cases lay recessive dominant with
  | error e => rfl
  | ok child => cases child <;> rfl

theorem collect_singleton {α β ε : Type} (f : α → Except ε (List β)) (a : α) :
    collect f [a] = f a := by
  simp only [collect, List.append_nil]
  cases f a <;> rfl

theorem collect_copy (nodes : List Node) :
    collect (Step.run lay) (nodes.map .copy) = .ok nodes := by
  induction nodes with
  | nil => rfl
  | cons node rest ih => rw [List.map_cons, collect, ih]; rfl

theorem collect_recessiveSteps (stay dominants : List Sibling) (s : Sibling) :
    collect (Step.run lay) (s.recessiveSteps stay dominants) = inPlace lay stay dominants s := by
  rw [Sibling.recessiveSteps, counterpart?_eq, inPlace]
  cases pair? stay dominants s.key with
  | none =>
    have h := collect_copy lay (s.leading ++ [.element s.element])
    rw [List.map_append] at h
    exact h
  | some pair => rw [Option.map_some, collect_singleton, run_merge]

theorem collect_dominantSteps (stay dominants : List Sibling) (d : Sibling) :
    collect (Step.run lay) (d.dominantSteps stay dominants) = added lay stay dominants d := by
  rw [Sibling.dominantSteps, counterpart?_eq, added]
  cases pair? stay dominants d.key with
  | none => rw [Option.map_none, collect_singleton, run_merge]
  | some pair => rfl

theorem collect_siblingSteps (recessives : List Node) (dominants : Siblings)
    (stay : List Sibling) :
    collect (Step.run lay) (siblingSteps (.ofNodes recessives) dominants stay) = (do
      let first ← stay.mapM (inPlace lay stay dominants.elements)
      let second ← dominants.elements.mapM (added lay stay dominants.elements)
      pure (first.flatten ++ second.flatten ++
        (Siblings.ofNodes recessives).stray.filter
          (fun node => !isReplacedBy dominants.stray node) ++ dominants.stray)) := by
  have hstray : (Siblings.ofNodes recessives).stray.filter (staysBeside dominants) =
      (Siblings.ofNodes recessives).stray.filter
        (fun node => !isReplacedBy dominants.stray node) := by
    refine List.filter_congr fun node hnode => ?_
    exact staysBeside_eq (Siblings.element?_of_mem_stray hnode)
  simp only [siblingSteps, collect_append, collect_flatMap, collect_copy, hstray,
    collect_recessiveSteps, collect_dominantSteps]
  rw [collect_eq_mapM, collect_eq_mapM]
  cases stay.mapM (inPlace lay stay dominants.elements) with
  | error e => rfl
  | ok first => cases dominants.elements.mapM (added lay stay dominants.elements) <;> rfl

theorem mergedChildren_eq (recessive : Option Element) (dominant : Element) :
    mergedChildren lay (.ofNodes ((recessive.map (·.children)).getD []))
        (.ofNodes dominant.children) = (do
      let steps ← planMerged recessive dominant
      collect (Step.run lay) steps) := by
  have hnodes : (recessive.map fun e => Siblings.ofNodes e.children).getD .empty =
      .ofNodes ((recessive.map (·.children)).getD []) := by
    cases recessive <;> rfl
  rw [planMerged, hnodes, mergedChildren, kept_eq]
  cases retained _ _ with
  | error e => rfl
  | ok stay => exact (collect_siblingSteps lay _ _ stay).symm

theorem appendedChildren_eq (nodes : List Node) :
    appendedChildren lay nodes = collect (Step.run lay) (nodes.map appendStep) := by
  have hstep : (fun node => Step.run lay (appendStep node)) = appended lay := by
    funext node
    cases node with
    | element e => exact run_merge lay [] none e
    | text content => rfl
    | comment content => rfl
  rw [appendedChildren, collect_map, hstep, collect_eq_mapM]

theorem declaredAfter_eq (recessive dominant : Option SelfPolicy) :
    declaredAfter recessive dominant = resultingPolicy recessive dominant := by
  cases dominant with
  | some policy => cases recessive <;> rfl
  | none =>
    cases recessive with
    | none => rfl
    | some policy => cases policy <;> rfl

theorem mergedAttributes_eq (recessive : Option Element) (dominant : Element)
    (recessiveSelf dominantSelf : Option SelfPolicy) :
    Rules.mergedAttributes recessive dominant recessiveSelf dominantSelf =
      ConfigOverlay.mergedAttributes recessive dominant
        (resultingPolicy recessiveSelf dominantSelf) := by
  rw [Rules.mergedAttributes, ConfigOverlay.mergedAttributes, declaredAfter_eq,
    Attributes.ofPairs, Attributes.overlay, List.foldl_append]
  cases recessive <;> rfl

theorem childrenPolicy_eq (recessive : Option Element) (dominant : Element) :
    Rules.childrenPolicy recessive dominant = pairChildrenPolicy recessive dominant := by
  rw [Rules.childrenPolicy, pairChildrenPolicy]
  cases dominant.childrenPolicy with
  | error e => rfl
  | ok declared =>
    cases declared with
    | some policy => rfl
    | none => cases declaredBy Element.childrenPolicy recessive <;> rfl

theorem rules_eq_mergeWith (recessive : Option Element) (dominant : Element) :
    rules lay recessive dominant = mergeWith lay recessive dominant := by
  rw [rules, mergeWith, openPair]
  cases dominant.selfPolicy with
  | error e => rfl
  | ok dominantSelf =>
    cases declaredBy Element.selfPolicy recessive with
    | error e => rfl
    | ok recessiveSelf =>
      simp only [bind, Except.bind, childrenPolicy_eq, mergedAttributes_eq]
      split
      · rfl
      split
      · rfl
      rw [openMerged]
      cases pairChildrenPolicy recessive dominant with
      | error e => rfl
      | ok policy =>
        cases policy with
        | merge =>
          simp only [mergedElement, mergedChildren_eq, ChildrenPolicy.plan, reduceCtorEq,
            false_and, ↓reduceIte]
          cases planMerged recessive dominant with
          | error e => rfl
          | ok steps =>
            simp only [bind, Except.bind]
            cases collect (Step.run lay) steps <;> rfl
        | append =>
          cases recessive with
          | none => rfl
          | some below =>
            simp only [mergedElement, appendedChildren_eq, upToContent_eq, ChildrenPolicy.plan,
              reduceCtorEq, and_false, ↓reduceIte]
            cases collect (Step.run lay) (dominant.children.map appendStep) <;> rfl

end Rules

theorem mergeWith_congr {lay lay' : Option Element → Element → Except MergeError (Option Element)}
    {recessive : Option Element} {dominant : Element}
    (h : ∀ below child, Node.element child ∈ dominant.children →
      lay below child = lay' below child) :
    mergeWith lay recessive dominant = mergeWith lay' recessive dominant := by
  rw [mergeWith, mergeWith]
  cases hopen : openPair recessive dominant with
  | error e => rfl
  | ok opening =>
    cases opening with
    | settled result => rfl
    | pending shell steps =>
      have hrun : collect (Step.run lay) steps = collect (Step.run lay') steps := by
        refine collect_congr fun step hstep => ?_
        cases step with
        | copy node => rfl
        | merge leading below child =>
          rw [Step.run, Step.run, h below child (child_of_openPair hopen hstep)]
      simp only [hrun]

theorem laidOver_eq (recessive : Option Element) (dominant : Element) :
    laidOver recessive dominant = rules laidOver recessive dominant := by
  rw [laidOver, Rules.rules_eq_mergeWith, Rules.rules_eq_mergeWith]
  exact mergeWith_congr fun below child hchild => by rw [dif_pos hchild]

theorem laidOver_eq_mergeWith (recessive : Option Element) (dominant : Element) :
    laidOver recessive dominant = mergeWith laidOver recessive dominant := by
  rw [laidOver_eq, Rules.rules_eq_mergeWith]

theorem merge_eq (recessive : Option Element) (dominant : Element) :
    merge recessive dominant = mergeWith merge recessive dominant := by
  have h : merge = laidOver := by
    funext below child
    exact Progress.merge_eq_of_recursion laidOver_eq_mergeWith below child
  rw [h]
  exact laidOver_eq_mergeWith recessive dominant

end ConfigOverlay
