import ConfigOverlay.Proofs.Merge.Accounted
import ConfigOverlay.Proofs.Merge.Arranged

/-!
What a plan for merged children does with each node of both sides. The two passes over the siblings
look for counterparts on their own; both find the same pairs, since a key pairs only where it stands
once on each side. So no dominant child is passed over or laid over something twice, and no
recessive child is lost but those that give way to their tag.
-/

set_option autoImplicit false

namespace ConfigOverlay

/-- The siblings stand for one element: no other sibling has their key, and if they have no id, no
other one has their tag. -/
structure Sibling.Pairs (recessives dominants : List Sibling) (s d : Sibling) : Prop where
  key : s.key = d.key
  onceBelow : recessives.countP (·.key = d.key) = 1
  onceAbove : dominants.countP (·.key = d.key) = 1
  untold : d.key.id = none → recessives.countP (·.element.tag = d.key.tag) = 1 ∧
    dominants.countP (·.element.tag = d.key.tag) = 1

instance (recessives dominants : List Sibling) (s d : Sibling) :
    Decidable (Sibling.Pairs recessives dominants s d) :=
  decidable_of_iff (s.key = d.key ∧ recessives.countP (·.key = d.key) = 1 ∧
      dominants.countP (·.key = d.key) = 1 ∧
      (d.key.id = none → recessives.countP (·.element.tag = d.key.tag) = 1 ∧
        dominants.countP (·.element.tag = d.key.tag) = 1))
    ⟨fun ⟨key, onceBelow, onceAbove, untold⟩ => ⟨key, onceBelow, onceAbove, untold⟩,
      fun ⟨key, onceBelow, onceAbove, untold⟩ => ⟨key, onceBelow, onceAbove, untold⟩⟩

def Sibling.partner? (recessives dominants : List Sibling) (d : Sibling) : Option Sibling :=
  recessives.find? fun s => Pairs recessives dominants s d

def Sibling.Paired (recessives dominants : List Sibling) (s : Sibling) : Prop :=
  ∃ d ∈ dominants, Pairs recessives dominants s d

instance (recessives dominants : List Sibling) :
    DecidablePred (Sibling.Paired recessives dominants) := fun s =>
  inferInstanceAs (Decidable (∃ d ∈ dominants, Sibling.Pairs recessives dominants s d))

theorem find?_of_countP_eq_one {α : Type} {l : List α} {p : α → Bool} (h : l.countP p = 1) {a : α}
    (ha : a ∈ l) (hpa : p a) : l.find? p = some a := by
  cases hfind : l.find? p with
  | none => exact absurd hpa (List.find?_eq_none.1 hfind a ha)
  | some b =>
    exact congrArg some (eq_of_countP_eq_one h (List.mem_of_find?_eq_some hfind)
      (List.find?_some hfind) ha hpa)

theorem not_sublist_of_countP_eq_one {α : Type} {l : List α} {p : α → Bool} (h : l.countP p = 1)
    {a b : α} (hpa : p a) (hpb : p b) : ¬ [a, b].Sublist l := by
  intro hsub
  have hle : [a, b].countP p ≤ l.countP p := hsub.countP_le
  simp [hpa, hpb, h] at hle

section

variable {recessives dominants : List Sibling} {s d : Sibling}

theorem counterpart?_eq_some_iff_pairs :
    counterpart? recessives dominants s.key = some d ↔
      d ∈ dominants ∧ Sibling.Pairs recessives dominants s d := by
  constructor
  · intro h
    have hkey := key_of_counterpart? h
    refine ⟨counterpart?_mem h, ?_⟩
    rw [counterpart?] at h
    split at h
    · next hcounts =>
      rw [← hkey] at hcounts
      exact ⟨hkey.symm, hcounts.1, hcounts.2.1, hcounts.2.2⟩
    · cases h
  · rintro ⟨hd, ⟨hkey, hbelow, habove, huntold⟩⟩
    rw [counterpart?, hkey, if_pos ⟨hbelow, habove, huntold⟩]
    exact find?_of_countP_eq_one habove hd (decide_eq_true rfl)

theorem Sibling.partner?_eq_some_iff :
    d.partner? recessives dominants = some s ↔
      s ∈ recessives ∧ Sibling.Pairs recessives dominants s d := by
  rw [partner?]
  constructor
  · intro h
    have hpairs := List.find?_some h
    exact ⟨List.mem_of_find?_eq_some h, of_decide_eq_true hpairs⟩
  · rintro ⟨hs, hpairs⟩
    cases hfind : recessives.find? fun s => Pairs recessives dominants s d with
    | none => exact absurd (decide_eq_true hpairs) (List.find?_eq_none.1 hfind s hs)
    | some other =>
      have hfound := List.find?_some hfind
      have hother : Pairs recessives dominants other d := of_decide_eq_true hfound
      exact congrArg some (eq_of_countP_eq_one hpairs.onceBelow (List.mem_of_find?_eq_some hfind)
        (decide_eq_true hother.key) hs (decide_eq_true hpairs.key))

/-- Both passes find the same pairs. -/
theorem counterpart?_of_partner (hd : d ∈ dominants) :
    counterpart? recessives dominants d.key = none ↔ d.partner? recessives dominants = none := by
  rw [← not_iff_not, ← ne_eq, ← ne_eq, Option.ne_none_iff_exists', Option.ne_none_iff_exists']
  constructor
  · rintro ⟨other, hother⟩
    have hpairs := (counterpart?_eq_some_iff_pairs.1 hother).2
    obtain ⟨s, hs, hkey⟩ := List.countP_pos_iff.1 (hpairs.onceBelow ▸ Nat.one_pos)
    have hkey : s.key = d.key := (of_decide_eq_true hkey).trans hpairs.key.symm
    refine ⟨s, Sibling.partner?_eq_some_iff.2 ⟨hs, ?_⟩⟩
    exact ⟨hkey, hpairs.key ▸ hpairs.onceBelow, hpairs.key ▸ hpairs.onceAbove,
      hpairs.key ▸ hpairs.untold⟩
  · rintro ⟨s, hs⟩
    have hpairs := (Sibling.partner?_eq_some_iff.1 hs).2
    exact ⟨d, hpairs.key ▸ counterpart?_eq_some_iff_pairs.2 ⟨hd, hpairs⟩⟩

theorem counterpart?_eq_none_iff_not_paired :
    counterpart? recessives dominants s.key = none ↔ ¬ s.Paired recessives dominants := by
  simp only [Option.eq_none_iff_forall_ne_some, ne_eq, counterpart?_eq_some_iff_pairs,
    Sibling.Paired, not_exists]

/-- The dominant siblings that the recessive ones find are those that have a partner, each once. -/
theorem counterparts_perm (recessives dominants : List Sibling) :
    (recessives.filterMap fun s => counterpart? recessives dominants s.key).Perm
      (dominants.filter fun d => (d.partner? recessives dominants).isSome) := by
  have hfound : (recessives.filterMap fun s =>
      counterpart? recessives dominants s.key).Nodup := by
    rw [List.Nodup, List.pairwise_filterMap, List.pairwise_iff_forall_sublist]
    rintro s s' hsub d hd _ hd' rfl
    have hpairs := (counterpart?_eq_some_iff_pairs.1 hd).2
    have hpairs' := (counterpart?_eq_some_iff_pairs.1 hd').2
    exact not_sublist_of_countP_eq_one hpairs.onceBelow (decide_eq_true hpairs.key)
      (decide_eq_true hpairs'.key) hsub
  have hhave : (dominants.filter fun d => (d.partner? recessives dominants).isSome).Nodup := by
    rw [List.Nodup, List.pairwise_iff_forall_sublist]
    rintro d _ hsub rfl
    obtain ⟨-, hsome⟩ := List.mem_filter.1 (hsub.subset List.mem_cons_self)
    obtain ⟨s, hs⟩ := Option.isSome_iff_exists.1 hsome
    have hpairs := (Sibling.partner?_eq_some_iff.1 hs).2
    exact not_sublist_of_countP_eq_one hpairs.onceAbove (decide_eq_true rfl) (decide_eq_true rfl)
      (hsub.trans List.filter_sublist)
  refine (List.perm_ext_iff_of_nodup hfound hhave).2 fun d => ?_
  simp only [List.mem_filterMap, List.mem_filter, counterpart?_eq_some_iff_pairs,
    Option.isSome_iff_exists, Sibling.partner?_eq_some_iff]
  exact ⟨fun ⟨s, hs, hd, hpairs⟩ => ⟨hd, s, hs, hpairs⟩,
    fun ⟨hd, s, hs, hpairs⟩ => ⟨s, hs, hd, hpairs⟩⟩

end

namespace Step

def isMerge : Step → Bool
  | .copy _ => false
  | .merge _ _ _ => true

def copied? : Step → Option Node
  | .copy node => some node
  | .merge _ _ _ => none

def recessive? : Step → Option Element
  | .copy node => node.element?
  | .merge _ lower _ => lower

def alone? : Step → Option Element
  | .copy _ => none
  | .merge _ lower above => if lower = none then some above else none

end Step

/-- A dominant sibling is laid over its partner, behind its own layout or, if it has none, behind
the partner's; or it is laid over nothing. -/
def Sibling.laid (recessives dominants : List Sibling) (d : Sibling) : Step :=
  match d.partner? recessives dominants with
  | some s => .merge (if d.leading.isEmpty then s.leading else d.leading) (some s.element) d.element
  | none => .merge d.leading none d.element

/-- The steps account for the siblings of both sides, of which `kept` are the recessive ones that do
not give way to their tag. -/
structure Accounts (below above : Siblings) (kept : List Sibling) (steps : List Step) : Prop where
  /-- The merges are those of the dominant siblings, each laid over its partner if it has one. -/
  merged : (steps.filter Step.isMerge).Perm
    (above.elements.map (Sibling.laid kept above.elements))
  /-- Every recessive sibling that is kept is taken over or has its partner laid over it. -/
  recessive : steps.filterMap Step.recessive? = kept.map Sibling.element
  /-- The dominant siblings without partner keep their order. -/
  alone : steps.filterMap Step.alone? = (above.elements.filter fun d =>
    (d.partner? kept above.elements).isNone).map Sibling.element
  /-- Taken over are recessive siblings without partner, with the layout of each, and the strays of
  both sides, recessive ones unless there is text of their kind above. -/
  copied : steps.filterMap Step.copied? =
    (kept.filter fun s => ¬ s.Paired kept above.elements).flatMap Sibling.nodes ++
      below.stray.filter (fun node => !Rules.isReplacedBy above.stray node) ++ above.stray
  /-- The layout of a sibling is taken over directly before it. -/
  led : ∀ s ∈ kept, ¬ s.Paired kept above.elements → s.nodes.map .copy <:+: steps

section

variable {below above : Siblings} {kept : List Sibling} {s d : Sibling}

theorem Sibling.laid_of_partner (h : d.partner? kept above.elements = some s) :
    d.laid kept above.elements =
      .merge (if d.leading.isEmpty then s.leading else d.leading) (some s.element) d.element := by
  rw [laid, h]

theorem Sibling.laid_of_no_partner (h : d.partner? kept above.elements = none) :
    d.laid kept above.elements = .merge d.leading none d.element := by
  rw [laid, h]

theorem Sibling.isMerge_laid (d : Sibling) : (d.laid kept above.elements).isMerge = true := by
  rw [laid]
  split <;> rfl

theorem Sibling.recessiveSteps_eq (hs : s ∈ kept) :
    s.recessiveSteps kept above.elements =
      match counterpart? kept above.elements s.key with
      | some d => [d.laid kept above.elements]
      | none => s.nodes.map .copy := by
  rw [recessiveSteps]
  cases hfind : counterpart? kept above.elements s.key with
  | some d =>
    have hpartner := partner?_eq_some_iff.2 ⟨hs, (counterpart?_eq_some_iff_pairs.1 hfind).2⟩
    simp only [laid_of_partner hpartner]
  | none => simp [nodes]

theorem Sibling.dominantSteps_eq (hd : d ∈ above.elements) :
    d.dominantSteps kept above.elements =
      if (d.partner? kept above.elements).isNone then [.merge d.leading none d.element]
      else [] := by
  rw [dominantSteps]
  cases hpartner : d.partner? kept above.elements with
  | none => simp [(counterpart?_of_partner hd).2 hpartner]
  | some s =>
    split
    · rfl
    · next hfind => simp [(counterpart?_of_partner hd).1 hfind] at hpartner

/-- A view of a plan: what it shows of the recessive siblings, of the dominant ones that are laid
over nothing, and of the strays. -/
theorem filterMap_siblingSteps {α : Type} (hbelow : below.Grouped) (view : Step → Option α) :
    (siblingSteps below above kept).filterMap view =
      kept.flatMap (fun s => (s.recessiveSteps kept above.elements).filterMap view) ++
        (above.elements.filter fun d => (d.partner? kept above.elements).isNone).filterMap
          (fun d => view (.merge d.leading none d.element)) ++
        (below.stray.filter (fun node => !Rules.isReplacedBy above.stray node) ++
          above.stray).filterMap fun node => view (.copy node) := by
  have hdominants : above.elements.flatMap (·.dominantSteps kept above.elements) =
      (above.elements.filter fun d => (d.partner? kept above.elements).isNone).map
        fun d => .merge d.leading none d.element := by
    rw [List.map_eq_flatMap, flatMap_filter]
    exact List.flatMap_congr fun d hd => Sibling.dominantSteps_eq hd
  have hstrays : below.stray.filter (staysBeside above) =
      below.stray.filter fun node => !Rules.isReplacedBy above.stray node :=
    List.filter_congr fun node hnode => Rules.staysBeside_eq (hbelow.stray node hnode)
  rw [siblingSteps, hdominants, hstrays]
  simp only [List.filterMap_append, List.filterMap_flatMap, List.filterMap_map, List.append_assoc,
    Function.comp_def]

theorem merges_siblingSteps (hbelow : below.Grouped) :
    ((siblingSteps below above kept).filter Step.isMerge).Perm
      (above.elements.map (Sibling.laid kept above.elements)) := by
  have hfirst : kept.flatMap (fun s =>
        (s.recessiveSteps kept above.elements).filterMap (.guard fun step => step.isMerge)) =
      (kept.filterMap fun s => counterpart? kept above.elements s.key).map
        (Sibling.laid kept above.elements) := by
    rw [List.map_filterMap, List.filterMap_eq_flatMap_toList]
    refine List.flatMap_congr fun s hs => ?_
    rw [Sibling.recessiveSteps_eq hs]
    cases counterpart? kept above.elements s.key with
    | some d => simp [Option.guard, d.isMerge_laid]
    | none => simp [Step.isMerge]
  have hsecond : (above.elements.filter fun d => (d.partner? kept above.elements).isNone).filterMap
        (fun d => (Option.guard fun step => step.isMerge) (.merge d.leading none d.element)) =
      (above.elements.filter fun d => (d.partner? kept above.elements).isNone).map
        (Sibling.laid kept above.elements) := by
    rw [← List.filterMap_eq_map]
    refine List.filterMap_congr fun d hd => ?_
    have hpartner : d.partner? kept above.elements = none := by
      simpa using (List.mem_filter.1 hd).2
    simp [Sibling.laid_of_no_partner hpartner, Option.guard, Step.isMerge]
  have hsplit := List.filter_append_perm (fun d : Sibling =>
    (d.partner? kept above.elements).isSome) above.elements
  simp only [Option.not_isSome] at hsplit
  have hthird (nodes : List Node) :
      nodes.filterMap (fun node => Option.guard (fun step => step.isMerge) (Step.copy node)) = [] :=
    List.filterMap_eq_nil_iff.2 fun _ _ => rfl
  rw [← List.filterMap_eq_filter, filterMap_siblingSteps hbelow, hfirst, hsecond, hthird,
    List.append_nil, ← List.map_append]
  exact (((counterparts_perm kept above.elements).append_right _).trans hsplit).map _

theorem Siblings.Grouped.filterMap_element?_nodes (hbelow : below.Grouped)
    (hs : s ∈ below.elements) :
    s.nodes.filterMap Node.element? = [s.element] := by
  have hleading : s.leading.filterMap Node.element? = [] :=
    List.filterMap_eq_nil_iff.2 fun node hnode =>
      Node.element?_of_isLayout (hbelow.leading s hs node hnode)
  rw [Sibling.nodes, List.filterMap_append, hleading]
  rfl

theorem recessives_siblingSteps (hbelow : below.Grouped) (habove : above.Grouped)
    (hkept : ∀ s ∈ kept, s ∈ below.elements) :
    (siblingSteps below above kept).filterMap Step.recessive? = kept.map Sibling.element := by
  have hfirst : kept.flatMap (fun s =>
        (s.recessiveSteps kept above.elements).filterMap Step.recessive?) =
      kept.map Sibling.element := by
    rw [List.map_eq_flatMap]
    refine List.flatMap_congr fun s hs => ?_
    rw [Sibling.recessiveSteps]
    split
    · rfl
    · have hnodes := hbelow.filterMap_element?_nodes (hkept s hs)
      rw [Sibling.nodes, List.filterMap_append] at hnodes
      rw [List.filterMap_append, List.filterMap_map]
      exact hnodes
  have hstrays : (below.stray.filter (fun node => !Rules.isReplacedBy above.stray node) ++
      above.stray).filterMap Node.element? = [] := by
    refine List.filterMap_eq_nil_iff.2 fun node hnode => ?_
    rcases List.mem_append.1 hnode with hnode | hnode
    · exact hbelow.stray node (List.mem_filter.1 hnode).1
    · exact habove.stray node hnode
  rw [filterMap_siblingSteps hbelow, hfirst]
  simp only [Step.recessive?, List.filterMap_none, hstrays, List.append_nil]

theorem alone_siblingSteps (hbelow : below.Grouped) :
    (siblingSteps below above kept).filterMap Step.alone? = (above.elements.filter fun d =>
      (d.partner? kept above.elements).isNone).map Sibling.element := by
  have hfirst : kept.flatMap (fun s =>
      (s.recessiveSteps kept above.elements).filterMap Step.alone?) = [] := by
    refine List.flatMap_eq_nil_iff.2 fun s _ => ?_
    rw [Sibling.recessiveSteps]
    split <;> simp [Step.alone?]
  rw [filterMap_siblingSteps hbelow, hfirst]
  simp [Step.alone?]

theorem copied_siblingSteps (hbelow : below.Grouped) :
    (siblingSteps below above kept).filterMap Step.copied? =
      (kept.filter fun s => ¬ s.Paired kept above.elements).flatMap Sibling.nodes ++
        below.stray.filter (fun node => !Rules.isReplacedBy above.stray node) ++ above.stray := by
  have hfirst : kept.flatMap (fun s =>
        (s.recessiveSteps kept above.elements).filterMap Step.copied?) =
      (kept.filter fun s => ¬ s.Paired kept above.elements).flatMap Sibling.nodes := by
    rw [flatMap_filter]
    refine List.flatMap_congr fun s hs => ?_
    rw [Sibling.recessiveSteps]
    cases hfind : counterpart? kept above.elements s.key with
    | none =>
      have hsingle := counterpart?_eq_none_iff_not_paired.1 hfind
      simp [hsingle, Sibling.nodes, Function.comp_def, Step.copied?]
    | some d =>
      have hpaired : s.Paired kept above.elements := ⟨d, counterpart?_eq_some_iff_pairs.1 hfind⟩
      simp [hpaired, Step.copied?]
  rw [filterMap_siblingSteps hbelow, hfirst]
  simp [Step.copied?]

theorem nodes_infix_siblingSteps (hs : s ∈ kept) (hsingle : ¬ s.Paired kept above.elements) :
    s.nodes.map .copy <:+: siblingSteps below above kept := by
  have hsteps : s.recessiveSteps kept above.elements = s.nodes.map .copy := by
    rw [Sibling.recessiveSteps, counterpart?_eq_none_iff_not_paired.2 hsingle, Sibling.nodes,
      List.map_append]
    rfl
  have hinfix : s.nodes.map .copy <:+: kept.flatMap (·.recessiveSteps kept above.elements) := by
    rw [← hsteps, List.flatMap]
    exact List.infix_of_mem_flatten (List.mem_map_of_mem hs)
  simp only [siblingSteps, List.append_assoc]
  exact hinfix.trans (List.prefix_append _ _).isInfix

theorem accounts_siblingSteps (hbelow : below.Grouped) (habove : above.Grouped)
    (hkept : ∀ s ∈ kept, s ∈ below.elements) :
    Accounts below above kept (siblingSteps below above kept) where
  merged := merges_siblingSteps hbelow
  recessive := recessives_siblingSteps hbelow habove hkept
  alone := alone_siblingSteps hbelow
  copied := copied_siblingSteps hbelow
  led _ hs hsingle := nodes_infix_siblingSteps hs hsingle

end

theorem exists_retained {dominants recessives : List Sibling}
    (h : ∀ s ∈ recessives, ∃ policy, s.element.selfPolicy = .ok policy) :
    ∃ kept, retained dominants recessives = .ok kept := by
  cases hretained : retained dominants recessives with
  | ok kept => exact ⟨kept, rfl⟩
  | error fault =>
    obtain ⟨s, hs, hfault⟩ := retained_eq_error hretained
    obtain ⟨policy, hpolicy⟩ := h s hs
    cases hfault.symm.trans hpolicy

/-- A plan for merged children is there just where the policies of the recessive ones are
recognised. It is what a pair whose children merge is made by, and accounts for the children of both
sides. What the siblings of a side are groups of are its children: the elements, each behind the
layout that leads to it, and the strays. Of a pair the recessive layout goes if the dominant sibling
has its own, and that of a sibling that is not kept goes with it. -/
theorem merged_children_accounted (recessive : Option Element) (dominant : Element) :
    ((∃ steps, ChildrenPolicy.merge.plan recessive dominant = .ok steps) ↔
        ∀ lower ∈ recessive, ∀ child ∈ lower.elements, ∃ policy, child.selfPolicy = .ok policy) ∧
      (∀ steps, ChildrenPolicy.merge.plan recessive dominant = .ok steps →
        Accounts (siblingsOf recessive) dominant.siblings
          ((siblingsOf recessive).elements.filter fun s => dominant.retains s.element) steps) ∧
      (∀ shell steps, openPair recessive dominant = .ok (.pending shell steps) →
        pairChildrenPolicy recessive dominant = .ok .merge →
          ChildrenPolicy.merge.plan recessive dominant = .ok steps ∧ shell.children = []) ∧
      ∀ e : Element, e.siblings.Grouped ∧
        e.siblings.elements.flatMap Sibling.nodes = Node.led e.children ∧
        e.siblings.stray = Node.strays e.children := by
  refine ⟨⟨?_, ?_⟩, ?_, ?_, ?_⟩
  · rintro ⟨steps, hplan⟩ lower hlower child hchild
    obtain ⟨kept, hkept, -⟩ := planMerged_eq_ok hplan
    obtain ⟨s, hs, rfl⟩ :=
      Siblings.exists_mem_siblingsOf hlower (Element.mem_elements_iff.1 hchild)
    exact selfPolicy_of_retained hkept hs
  · intro h
    have hpolicies : ∀ s ∈ (siblingsOf recessive).elements,
        ∃ policy, s.element.selfPolicy = .ok policy := fun s hs => by
      obtain ⟨lower, hlower, hplace⟩ := Siblings.place_of_mem_siblingsOf hs
      exact h lower hlower s.element (Element.mem_elements_iff.2 hplace)
    obtain ⟨kept, hkept⟩ := @exists_retained dominant.siblings.elements _ hpolicies
    exact ⟨_, by rw [ChildrenPolicy.plan, planMerged_eq, hkept]⟩
  · intro steps hplan
    obtain ⟨kept, hkept, rfl⟩ := planMerged_eq_ok hplan
    rw [← retained_eq_filter hkept]
    exact accounts_siblingSteps (grouped_siblingsOf recessive)
      (Siblings.grouped_ofNodes dominant.children) fun s hs => mem_of_mem_retained hkept hs
  · intro shell steps hopen hmerge
    obtain ⟨policy, hpolicy, hplan, hstart⟩ := plan_of_openPair hopen
    cases hpolicy.symm.trans hmerge
    exact ⟨hplan, hstart⟩
  · intro e
    obtain ⟨helements, hstray⟩ := Siblings.group_eq [] e.children
    simp only [ite_self, List.nil_append] at helements hstray
    exact ⟨Siblings.grouped_ofNodes e.children, helements, hstray⟩

def pooled : Element :=
  ⟨"config", .empty, [.comment "pools", .element ⟨"pool", ⟨[("id", "a")]⟩, []⟩,
    .element ⟨"pool", .empty, []⟩, .comment "second", .element ⟨"pool", .empty, []⟩,
    .element ⟨"log", ⟨[("combine.self", "OVERRIDABLE_BY_TAG")]⟩, []⟩, .text "note"]⟩

def repooled : Element :=
  ⟨"config", .empty, [.element ⟨"log", .empty, []⟩,
    .element ⟨"pool", ⟨[("size", "4"), ("id", "a")]⟩, []⟩, .text "other note", .comment "end"]⟩

theorem merged_children_accounted_pools :
    ∃ steps, ChildrenPolicy.merge.plan (some pooled) repooled = .ok steps ∧
      Accounts (siblingsOf (some pooled)) repooled.siblings
        ((siblingsOf (some pooled)).elements.filter fun s => repooled.retains s.element) steps :=
  ⟨_, rfl, (merged_children_accounted (some pooled) repooled).2.1 _ rfl⟩

end ConfigOverlay
