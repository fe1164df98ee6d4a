import ConfigOverlay.Merge.Policy
import ConfigOverlay.Merge.Siblings

/-!
What is decided about a pair of elements before their children are merged: the result, if no child
matters, or else the merged element without its new children and the steps that make these. In a
pair the recessive element comes from earlier layers, and the dominant one is laid over it. An
element that has no counterpart is laid over nothing.
-/

set_option autoImplicit false

namespace ConfigOverlay

inductive Step where
  | copy (node : Node)
  /-- Lays an element over another one, or over nothing, and puts layout before the result. If
  there is no result, the layout goes too. -/
  | merge (leading : List Node) (recessive : Option Element) (dominant : Element)

/-- The one element among `dominants` that a key of `recessives` pairs with. The key stands once on
each side; without an id, so does its tag, for siblings without id are not told apart. -/
def counterpart? (recessives dominants : List Sibling) (key : Key) : Option Sibling :=
  if recessives.countP (·.key = key) = 1 ∧ dominants.countP (·.key = key) = 1 ∧
      (key.id = none →
        recessives.countP (·.element.tag = key.tag) = 1 ∧
          dominants.countP (·.element.tag = key.tag) = 1) then
    dominants.find? (·.key = key)
  else none

def isDroppedBy (dominants : List Sibling) (s : Sibling) (policy : Option SelfPolicy) : Bool :=
  policy = some .overridableByTag && dominants.any (·.element.tag = s.element.tag)

/-- The recessive siblings that are not dropped. All their policies are read. -/
def retained (dominants : List Sibling) : List Sibling → Except MergeError (List Sibling)
  | [] => .ok []
  | s :: rest =>
    match s.element.selfPolicy with
    | .error e => .error e
    | .ok policy =>
      match retained dominants rest with
      | .error e => .error e
      | .ok kept => .ok (if isDroppedBy dominants s policy then kept else s :: kept)

/-- A recessive sibling is merged in place with its counterpart, behind the counterpart's layout if
that has any, or else taken over with its own. -/
def Sibling.recessiveSteps (recessives dominants : List Sibling) (s : Sibling) : List Step :=
  match counterpart? recessives dominants s.key with
  | some d =>
    [.merge (if d.leading.isEmpty then s.leading else d.leading) (some s.element) d.element]
  | none => s.leading.map .copy ++ [.copy (.element s.element)]

def Sibling.dominantSteps (recessives dominants : List Sibling) (s : Sibling) : List Step :=
  match counterpart? recessives dominants s.key with
  | some _ => []
  | none => [.merge s.leading none s.element]

/-- A recessive stray node stays unless it is text and the dominant side has text of its kind,
blank or not, of its own. -/
def staysBeside (dominants : Siblings) (node : Node) : Bool :=
  if node.isText && node.isLayout then !dominants.hasBlankText
  else !dominants.hasText || node.isLayout

/-- The steps of a merged list: recessive elements in their order, then the dominant ones that found
no counterpart, then the stray nodes of both. -/
def siblingSteps (recessives dominants : Siblings) (kept : List Sibling) : List Step :=
  kept.flatMap (·.recessiveSteps kept dominants.elements) ++
    dominants.elements.flatMap (·.dominantSteps kept dominants.elements) ++
    (recessives.stray.filter (staysBeside dominants)).map .copy ++ dominants.stray.map .copy

def planMerged (recessive : Option Element) (dominant : Element) : Except MergeError (List Step) :=
  let recessives := (recessive.map fun e => Siblings.ofNodes e.children).getD .empty
  let dominants := Siblings.ofNodes dominant.children
  match retained dominants.elements recessives.elements with
  | .error e => .error e
  | .ok kept => .ok (siblingSteps recessives dominants kept)

def appendStep : Node → Step
  | .element e => .merge [] none e
  | node => .copy node

def withoutTrailingLayout (nodes : List Node) : List Node :=
  (nodes.reverse.dropWhile Node.isLayout).reverse

def ChildrenPolicy.plan (recessive : Option Element) (dominant : Element) :
    ChildrenPolicy → Except MergeError (List Step)
  | .merge => planMerged recessive dominant
  | .append => .ok (dominant.children.map appendStep)

def ChildrenPolicy.start (recessive : Option Element) : ChildrenPolicy → List Node
  | .merge => []
  | .append => (recessive.map fun e => withoutTrailingLayout e.children).getD []

/-- The policy that a merged element declares in its turn: the dominant one, or else the recessive
one, which a counterpart has turned from defaults into an element like others. -/
def resultingPolicy (recessive dominant : Option SelfPolicy) : Option SelfPolicy :=
  match dominant with
  | some policy => some policy
  | none => if recessive = some .defaults then none else recessive

def Attributes.declaring (attrs : Attributes) : Option SelfPolicy → Attributes
  | some policy => attrs.set SelfPolicy.attributeName policy.text
  | none => attrs.erase SelfPolicy.attributeName

def mergedAttributes (recessive : Option Element) (dominant : Element)
    (policy : Option SelfPolicy) : Attributes :=
  (((recessive.map fun e => Attributes.empty.overlay e.attrs).getD .empty).overlay
    dominant.attrs).declaring policy

def Element.withoutSelfPolicy (e : Element) : Element :=
  { e with attrs := e.attrs.erase SelfPolicy.attributeName }

inductive Opening where
  | settled (result : Option Element)
  | pending (shell : Element) (steps : List Step)

def declaredBy {α : Type} (declared : Element → Except MergeError (Option α)) :
    Option Element → Except MergeError (Option α)
  | none => .ok none
  | some e => declared e

/-- The children policy of a pair: the dominant one, or else the recessive one, which is not read
unless it counts. Without either, children are merged. -/
def pairChildrenPolicy (recessive : Option Element) (dominant : Element) :
    Except MergeError ChildrenPolicy :=
  match dominant.childrenPolicy with
  | .error e => .error e
  | .ok (some policy) => .ok policy
  | .ok none =>
    match declaredBy Element.childrenPolicy recessive with
    | .error e => .error e
    | .ok policy => .ok (policy.getD .merge)

def openMerged (recessive : Option Element) (dominant : Element)
    (recessiveSelf dominantSelf : Option SelfPolicy) : Except MergeError Opening :=
  match pairChildrenPolicy recessive dominant with
  | .error e => .error e
  | .ok policy =>
    if policy = .append ∧ recessive = none then .ok (.settled (some dominant))
    else match policy.plan recessive dominant with
      | .error e => .error e
      | .ok steps =>
        .ok (.pending
          ⟨dominant.tag,
            mergedAttributes recessive dominant (resultingPolicy recessiveSelf dominantSelf),
            policy.start recessive⟩ steps)

def openPair (recessive : Option Element) (dominant : Element) : Except MergeError Opening :=
  match dominant.selfPolicy with
  | .error e => .error e
  | .ok dominantSelf =>
    match declaredBy Element.selfPolicy recessive with
    | .error e => .error e
    | .ok recessiveSelf =>
      if dominantSelf = some .remove then .ok (.settled none)
      else if dominantSelf = some .override ∨ recessiveSelf = some .overridable then
        .ok (.settled (some dominant.withoutSelfPolicy))
      else openMerged recessive dominant recessiveSelf dominantSelf

/-!
Every element that a step lays over another one is a child of the dominant element.
-/

theorem counterpart?_mem {recessives dominants : List Sibling} {key : Key} {d : Sibling}
    (h : counterpart? recessives dominants key = some d) : d ∈ dominants := by
  unfold counterpart? at h
  split at h
  · exact List.mem_of_find?_eq_some h
  · simp at h

theorem child_of_mem_recessiveSteps {recessives dominants : List Sibling} {s : Sibling}
    {leading : List Node} {recessive : Option Element} {child : Element}
    (h : Step.merge leading recessive child ∈ s.recessiveSteps recessives dominants) :
    ∃ d ∈ dominants, d.element = child := by
  unfold Sibling.recessiveSteps at h
  split at h
  · next d hd =>
    simp only [List.mem_singleton, Step.merge.injEq] at h
    exact ⟨d, counterpart?_mem hd, h.2.2.symm⟩
  · simp at h

theorem child_of_mem_dominantSteps {recessives dominants : List Sibling} {s : Sibling}
    {leading : List Node} {recessive : Option Element} {child : Element}
    (h : Step.merge leading recessive child ∈ s.dominantSteps recessives dominants) :
    s.element = child := by
  unfold Sibling.dominantSteps at h
  split at h
  · simp at h
  · simp only [List.mem_singleton, Step.merge.injEq] at h
    exact h.2.2.symm

theorem child_of_mem_siblingSteps {recessives dominants : Siblings} {kept : List Sibling}
    {leading : List Node} {recessive : Option Element} {child : Element}
    (h : Step.merge leading recessive child ∈ siblingSteps recessives dominants kept) :
    ∃ d ∈ dominants.elements, d.element = child := by
  simp only [siblingSteps, List.mem_append, List.mem_flatMap, List.mem_map, reduceCtorEq,
    and_false, exists_false, or_false] at h
  rcases h with ⟨s, _, h⟩ | ⟨s, hs, h⟩
  · exact child_of_mem_recessiveSteps h
  · exact ⟨s, hs, child_of_mem_dominantSteps h⟩

theorem child_of_mem_plan {recessive : Option Element} {dominant : Element}
    {policy : ChildrenPolicy} {steps : List Step}
    (hplan : policy.plan recessive dominant = .ok steps) {leading : List Node}
    {lower : Option Element} {child : Element} (h : Step.merge leading lower child ∈ steps) :
    Node.element child ∈ dominant.children := by
  cases policy with
  | merge =>
    simp only [ChildrenPolicy.plan, planMerged] at hplan
    split at hplan
    · simp at hplan
    · simp only [Except.ok.injEq] at hplan
      subst hplan
      obtain ⟨d, hd, rfl⟩ := child_of_mem_siblingSteps h
      exact Siblings.element_mem_of_mem hd
  | append =>
    simp only [ChildrenPolicy.plan, Except.ok.injEq] at hplan
    subst hplan
    obtain ⟨node, hnode, hstep⟩ := List.mem_map.1 h
    cases node with
    | element e =>
      simp only [appendStep, Step.merge.injEq] at hstep
      obtain ⟨_, _, rfl⟩ := hstep
      exact hnode
    | text content => simp [appendStep] at hstep
    | comment content => simp [appendStep] at hstep

theorem child_of_openPair {recessive : Option Element} {dominant shell : Element}
    {steps : List Step} (hopen : openPair recessive dominant = .ok (.pending shell steps))
    {leading : List Node} {lower : Option Element} {child : Element}
    (h : Step.merge leading lower child ∈ steps) : Node.element child ∈ dominant.children := by
  unfold openPair at hopen
  split at hopen
  · simp at hopen
  split at hopen
  · simp at hopen
  split at hopen
  · simp at hopen
  split at hopen
  · simp at hopen
  unfold openMerged at hopen
  split at hopen
  · simp at hopen
  split at hopen
  · simp at hopen
  split at hopen
  · simp at hopen
  next hplan =>
  simp only [Except.ok.injEq, Opening.pending.injEq] at hopen
  obtain ⟨_, rfl⟩ := hopen
  exact child_of_mem_plan hplan h

end ConfigOverlay
