import ConfigOverlay.Proofs.Merge.Beside
import ConfigOverlay.Proofs.Merge.Sweep

/-!
The life of defaults over a run of layers. A child that gives defaults waits in the tree for a
counterpart. The first one that declares nothing makes it an element like others, as if it had never
given defaults only; without any the sweep at the end removes it.
-/

set_option autoImplicit false

namespace ConfigOverlay

variable {key : Key}

namespace Element

/-- An element that gives defaults, and the same element without this declaration. -/
structure Unmarks (e e' : Element) : Prop where
  defaults : e.Declares .defaults
  unique : e.attrs.Unique
  eq : e' = e.withoutSelfPolicy

end Element

def Opening.withoutSelfPolicy : Opening → Opening
  | .settled result => .settled (result.map Element.withoutSelfPolicy)
  | .pending shell steps => .pending shell.withoutSelfPolicy steps

theorem openPair_none_withoutSelfPolicy {e : Element} (hdefaults : e.Declares .defaults)
    (hunique : e.attrs.Unique) :
    openPair none e.withoutSelfPolicy = (openPair none e).map Opening.withoutSelfPolicy := by
  have hpolicy : pairChildrenPolicy none e.withoutSelfPolicy = pairChildrenPolicy none e := by
    rw [pairChildrenPolicy, pairChildrenPolicy, e.childrenPolicy_withoutSelfPolicy]
  have hplan : ∀ policy : ChildrenPolicy,
      policy.plan none e.withoutSelfPolicy = policy.plan none e := fun policy => by
    cases policy <;> rfl
  have hattrs : mergedAttributes none e.withoutSelfPolicy none =
      (mergedAttributes none e (some .defaults)).erase SelfPolicy.attributeName := by
    have hcopy : Attributes.empty.overlay e.attrs = e.attrs := Attributes.empty_overlay hunique
    have hcopy' : Attributes.empty.overlay e.withoutSelfPolicy.attrs = e.withoutSelfPolicy.attrs :=
      Attributes.empty_overlay (Attributes.unique_erase hunique)
    simp only [mergedAttributes, Option.map_none, Option.getD_none, hcopy, hcopy',
      Attributes.declaring, Attributes.erase_set]
    exact Attributes.erase_of_get?_eq_none (Attributes.get?_erase hunique _)
  rw [openPair, openPair, Element.selfPolicy_withoutSelfPolicy hunique, hdefaults]
  simp only [declaredBy, reduceCtorEq, Option.some.injEq, or_self, ↓reduceIte, openMerged, hpolicy,
    hplan]
  cases pairChildrenPolicy none e with
  | error fault => rfl
  | ok policy =>
    simp only [and_true]
    split
    · rfl
    · cases policy.plan none e with
      | error fault => rfl
      | ok steps =>
        simp only [resultingPolicy, ↓reduceIte, hattrs, reduceCtorEq]
        rfl

theorem merge_none_withoutSelfPolicy {e : Element} (hdefaults : e.Declares .defaults)
    (hunique : e.attrs.Unique) :
    merge none e.withoutSelfPolicy = (merge none e).map (Option.map Element.withoutSelfPolicy) := by
  rw [merge_eq, merge_eq, mergeWith, mergeWith, openPair_none_withoutSelfPolicy hdefaults hunique]
  cases openPair none e with
  | error fault => rfl
  | ok opening =>
    cases opening with
    | settled result => rfl
    | pending shell steps =>
      simp only [Except.map, Opening.withoutSelfPolicy]
      cases collect (Step.run merge) steps <;> rfl

/-- Over an element that gives defaults, an element that declares nothing makes the same as over one
that declares nothing either. -/
theorem merge_over_withoutSelfPolicy {e d : Element} (hdefaults : e.Declares .defaults)
    (hunique : e.attrs.Unique) (hd : d.attrs.get? SelfPolicy.attributeName = none) :
    merge (some e.withoutSelfPolicy) d = merge (some e) d := by
  have hself : d.selfPolicy = .ok none := Element.Undeclared.declared_eq_none hd _
  have hpolicy : pairChildrenPolicy (some e.withoutSelfPolicy) d =
      pairChildrenPolicy (some e) d := by
    simp only [pairChildrenPolicy, declaredBy, e.childrenPolicy_withoutSelfPolicy]
  have hplan : ∀ policy : ChildrenPolicy,
      policy.plan (some e.withoutSelfPolicy) d = policy.plan (some e) d := fun policy => by
    cases policy <;> rfl
  have hstart : ∀ policy : ChildrenPolicy,
      policy.start (some e.withoutSelfPolicy) = policy.start (some e) := fun policy => by
    cases policy <;> rfl
  have hattrs : mergedAttributes (some e.withoutSelfPolicy) d none =
      mergedAttributes (some e) d none := by
    have hunique' : e.withoutSelfPolicy.attrs.Unique := Attributes.unique_erase hunique
    have hgone : e.withoutSelfPolicy.attrs.erase SelfPolicy.attributeName =
        e.attrs.erase SelfPolicy.attributeName :=
      Attributes.erase_of_get?_eq_none (Attributes.get?_erase hunique _)
    simp only [mergedAttributes, Option.map_some, Option.getD_some, Attributes.declaring,
      Attributes.empty_overlay hunique, Attributes.empty_overlay hunique',
      Attributes.erase_overlay hd, hgone]
  have hopen : openPair (some e.withoutSelfPolicy) d = openPair (some e) d := by
    rw [openPair, openPair]
    simp only [hself, declaredBy, Element.selfPolicy_withoutSelfPolicy hunique,
      show e.selfPolicy = .ok (some .defaults) from hdefaults, openMerged, hpolicy, hplan, hstart,
      resultingPolicy, hattrs, reduceCtorEq, Option.some.injEq, or_self, and_false, ↓reduceIte]
  rw [merge_eq, merge_eq, mergeWith, mergeWith, hopen]

theorem droppedTogether_unmarks : DroppedTogether Element.Unmarks := by
  rintro e e' ⟨hdefaults, hunique, rfl⟩ policy hpolicy
  cases hpolicy.symm.trans hdefaults
  exact ⟨none, Element.selfPolicy_withoutSelfPolicy hunique, by simp⟩

theorem merge_unmarks {e e' : Element} {result : Option Element} (h : e.Unmarks e')
    (hresult : merge none e = .ok result) :
    ∃ result', merge none e' = .ok result' ∧ Option.Rel Element.Unmarks result result' := by
  obtain ⟨hdefaults, hunique, rfl⟩ := h
  obtain ⟨m, rfl, hm⟩ := declares_of_merge hdefaults (by decide) (by decide) (by simp) hresult
  refine ⟨some m.withoutSelfPolicy, ?_, .some ⟨hm, unique_of_merge hunique hresult, rfl⟩⟩
  rw [merge_none_withoutSelfPolicy hdefaults hunique, hresult]
  rfl

def Element.Plainly (d d' : Element) : Prop :=
  d' = d ∧ d.attrs.get? SelfPolicy.attributeName = none

theorem mergesAccord_plainly : MergesAccord True Element.Unmarks Element.Plainly Eq := by
  rintro lower lower' _ d hlower ⟨rfl, hd⟩ result hresult -
  have hsame : merge lower' d = merge lower d := by
    cases hlower with
    | none => rfl
    | some hunmarks =>
      obtain ⟨hdefaults, hunique, rfl⟩ := hunmarks
      exact merge_over_withoutSelfPolicy hdefaults hunique hd
  refine ⟨result, hsame.trans hresult, ?_⟩
  cases result with
  | none => exact .none
  | some e => exact .some rfl

def Element.unmarked (key : Key) (layer : Element) : Element :=
  layer.mapElements fun child => if child.key = key then child.withoutSelfPolicy else child

theorem Element.beside_unmarked {layer : Element}
    (h : ∀ child ∈ layer.elements, child.key = key →
      child.Declares .defaults ∧ child.attrs.Unique) :
    layer.Beside key Unmarks (layer.unmarked key) := by
  refine ⟨rfl, rfl, ?_⟩
  rw [unmarked, mapElements, List.forall₂_map_right_iff, List.forall₂_same]
  intro node hnode
  cases node with
  | element child =>
    have hchild := h child (mem_elements_iff.2 hnode)
    by_cases hkey : child.key = key
    · simp only [if_pos hkey]
      refine .element (.related hkey (child.key_withoutSelfPolicy.trans hkey) ?_)
      exact ⟨(hchild hkey).1, (hchild hkey).2, rfl⟩
    · simp only [if_neg hkey]
      exact .element (.same hkey)
  | text content => exact .leaf rfl
  | comment content => exact .leaf rfl

theorem Element.Traceable.unique_unmarked {layer : Element} (h : layer.Traceable key) :
    ∀ child ∈ (layer.unmarked key).elements, child.attrs.Unique := by
  intro child hchild
  obtain ⟨node, hnode, heq⟩ := List.mem_map.1 (Element.mem_elements_iff.1 hchild)
  cases node with
  | element original =>
    have hunique := (h.unique.child hnode).here
    cases heq
    change (if original.key = key then original.withoutSelfPolicy else original).attrs.Unique
    split
    · exact Attributes.unique_erase hunique
    · exact hunique
  | text content => cases heq
  | comment content => cases heq

namespace Layers

variable {layers layers' next run : Layers} {layer c : Element} {rest : List Element}

/-- Two runs, of which the first has a child of the key that gives defaults, and the second the same
child without this declaration. -/
structure Unmarks (key : Key) (layers layers' : Layers) : Prop where
  count : layers'.count = layers.count
  merged : ∃ root root', layers.merged = some root ∧ layers'.merged = some root' ∧
    root.Beside key Element.Unmarks root'
  holds : ∃ child, layers.Holds key (some child) ∧ child.Declares .defaults

theorem unmarks_of_push_first (hid : key.id ≠ none) (hlayers : layers.Holds key none)
    (hlayer : layer.Traceable key) (hc : layer.Holds key (some c))
    (hdefaults : c.Declares .defaults)
    (h : layers.push layer = .ok next) :
    ∃ next', layers.push (layer.unmarked key) = .ok next' ∧ Unmarks key next next' := by
  have hbeside : layer.Beside key Element.Unmarks (layer.unmarked key) := by
    refine Element.beside_unmarked fun child hchild hkey => ?_
    obtain rfl := hc.eq_of_mem hchild hkey
    exact ⟨hdefaults, hlayer.unique_children child hchild⟩
  obtain ⟨child, -, hholds, hyields⟩ := holds_of_push hid hlayers hlayer hc h
  have hcount := count_of_push h
  rcases push_eq_ok h with ⟨hnone, hnext⟩ | ⟨below, merged, hbelow, hmerge, hnext⟩
  · have hchild : child = some c := (hholds.holds layer hnext).unique hc
    refine ⟨⟨some (layer.unmarked key), layers.count + 1⟩, by simp [push, hnone], ?_⟩
    exact ⟨hcount.symm, ⟨layer, _, hnext, rfl, hbeside⟩, c, hchild ▸ hholds, hdefaults⟩
  · have hmerges : MergesAccord True (fun _ _ => False) Element.Unmarks Element.Unmarks := by
      rintro _ _ _ _ hlower hd result hresult -
      cases hlower with
      | none => exact merge_unmarks hd hresult
      | some hfalse => exact hfalse.elim
    have hroot := hlayers.holds below hbelow
    obtain ⟨merged', hmerge', hrel⟩ := beside_of_merge hid hmerges (by rintro _ _ ⟨⟩) (by simp)
      (Element.beside_self (Element.holds_none_iff.1 hroot)) hbeside
      (Element.undeclared_of_plain (hlayers.plain below hbelow)) hlayer hlayer.unique_unmarked
      hroot hc trivial hmerge
    refine ⟨_, push_eq hbelow hmerge', hcount.symm, ⟨merged, merged', hnext, rfl, hrel⟩, ?_⟩
    have hlaid : layer.Yields none (some c) child := hyields.resolve_left (by simp [hbelow])
    obtain ⟨m, rfl, hm⟩ := declares_of_merge hdefaults (by decide) (by decide) (by simp) hlaid
    exact ⟨m, hholds, hm⟩

theorem unmarks_of_push_absent (hid : key.id ≠ none) (hlayers : Unmarks key layers layers')
    (hlayer : layer.Traceable key) (habsent : ∀ child ∈ layer.elements, child.key ≠ key)
    (h : layers.push layer = .ok next) :
    ∃ next', layers'.push layer = .ok next' ∧ Unmarks key next next' := by
  obtain ⟨hcount, ⟨root, root', hroot, hroot', hbeside⟩, child, hholds, hdefaults⟩ := hlayers
  rcases push_eq_ok h with ⟨hnone, -⟩ | ⟨below, merged, hbelow, hmerge, hnext⟩
  · simp [hroot] at hnone
  · obtain rfl : below = root := Option.some.inj (hbelow.symm.trans hroot)
    have hmerges : MergesAccord True Element.Unmarks (fun _ _ => False) Element.Unmarks := by
      rintro _ _ _ _ _ ⟨⟩
    obtain ⟨merged', hmerge', hrel⟩ := beside_of_merge hid hmerges droppedTogether_unmarks
      (fun _ _ _ hunmarks => hunmarks) hbeside (Element.beside_self habsent)
      (Element.undeclared_of_plain (hholds.plain below hbelow)) hlayer hlayer.unique_children
      (hholds.holds below hbelow) (Element.holds_none_iff.2 habsent) trivial hmerge
    have hrun : layers.pushAll [layer] = .ok next := pushAll_cons h
    have hstays : next.Holds key (some child) := by
      refine holds_of_pushAll_absent hid hholds ?_ (by simpa using ⟨hlayer, habsent⟩) hrun
      rintro x ⟨⟩ htag
      cases hdefaults.unique htag
    refine ⟨_, push_eq hroot' hmerge', ?_, ⟨merged, merged', hnext, rfl, hrel⟩, child, hstays,
      hdefaults⟩
    rw [count_of_push h, hcount]

theorem push_eq_of_unmarks (hid : key.id ≠ none) (hlayers : Unmarks key layers layers')
    (hlayer : layer.Traceable key) (hc : layer.Holds key (some c))
    (hplain : c.attrs.get? SelfPolicy.attributeName = none) (h : layers.push layer = .ok next) :
    layers'.push layer = .ok next := by
  obtain ⟨hcount, ⟨root, root', hroot, hroot', hbeside⟩, child, hholds, hdefaults⟩ := hlayers
  rcases push_eq_ok h with ⟨hnone, -⟩ | ⟨below, merged, hbelow, hmerge, hnext⟩
  · simp [hroot] at hnone
  · obtain rfl : below = root := Option.some.inj (hbelow.symm.trans hroot)
    have hsame : layer.Beside key Element.Plainly layer := by
      refine Element.beside_refl fun child hchild hkey => ⟨rfl, ?_⟩
      obtain rfl := hc.eq_of_mem hchild hkey
      exact hplain
    obtain ⟨merged', hmerge', hrel⟩ := beside_of_merge hid mergesAccord_plainly
      droppedTogether_unmarks (by simp) hbeside hsame
      (Element.undeclared_of_plain (hholds.plain below hbelow)) hlayer hlayer.unique_children
      (hholds.holds below hbelow) hc trivial hmerge
    cases hrel.eq
    rw [push_eq hroot' hmerge', hcount, ← count_of_push h, ← hnext]

/-- Up to the first counterpart the runs differ in the declaration only, and from then on they are
the same. -/
theorem pushAll_eq_of_unmarks (hid : key.id ≠ none) (hlayers : Unmarks key layers layers')
    (hrest : ∀ x ∈ rest, x.Traceable key)
    (hplain : ∀ x ∈ rest, ∀ child ∈ x.elements, child.key = key →
      child.attrs.get? SelfPolicy.attributeName = none)
    (hmet : ∃ x ∈ rest, ∃ child ∈ x.elements, child.key = key)
    (h : layers.pushAll rest = .ok run) : layers'.pushAll rest = .ok run := by
  induction rest generalizing layers layers' with
  | nil => simp at hmet
  | cons layer rest ih =>
    obtain ⟨next, hnext, hothers⟩ := pushAll_cons_eq_ok h
    have hlayer := hrest layer List.mem_cons_self
    by_cases hhere : ∃ child ∈ layer.elements, child.key = key
    · obtain ⟨child, hchild, hkey⟩ := hhere
      have hsame := push_eq_of_unmarks hid hlayers hlayer (hlayer.holds hchild hkey)
        (hplain layer List.mem_cons_self child hchild hkey) hnext
      exact (pushAll_cons hsame).trans hothers
    · simp only [not_exists, not_and] at hhere
      obtain ⟨next', hnext', hunmarks⟩ := unmarks_of_push_absent hid hlayers hlayer hhere hnext
      refine (pushAll_cons hnext').trans (ih hunmarks
        (fun x hx => hrest x (List.mem_cons_of_mem layer hx))
        (fun x hx => hplain x (List.mem_cons_of_mem layer hx)) ?_ hothers)
      obtain ⟨x, hx, child, hchild, hkey⟩ := hmet
      rcases List.mem_cons.1 hx with rfl | hx
      · exact absurd hkey (hhere child hchild)
      · exact ⟨x, hx, child, hchild, hkey⟩

/-- A sweep removes the child of the key if it still gives defaults. -/
theorem absent_of_finish {layers : Layers} {child tree : Element}
    (hholds : layers.Holds key (some child)) (hdefaults : child.Declares .defaults)
    (h : layers.finish = .ok tree) : ∀ x ∈ tree.elements, x.key ≠ key := by
  intro x hx hkey
  obtain ⟨root, hroot, rfl⟩ := exists_swept_of_finish h
  rw [root.swept_eq] at hx
  obtain ⟨original, hmem, hstays, rfl⟩ :=
    Node.mem_of_mem_sweptList (Element.mem_elements_iff.1 hx)
  rw [original.swept_eq] at hkey
  obtain rfl := (hholds.holds root hroot).eq_of_mem (Element.mem_elements_iff.2 hmem) hkey
  simp [Element.isSkeleton, hdefaults] at hstays

end Layers

/-- A child that gives defaults, of a key that no layer before has, and that no later layer gives a
policy. If a later layer has a child of the key, the result is that of a run in which the first one
does not give defaults only. If none has, the result has no child of the key. -/
theorem mergeLayers_defaults {before after : List Element} {layer c tree : Element}
    (hid : key.id ≠ none) (hlayers : ∀ x ∈ before ++ layer :: after, x.Traceable key)
    (hfirst : ∀ x ∈ before, ∀ child ∈ x.elements, child.key ≠ key)
    (hc : c ∈ layer.elements) (hkey : c.key = key) (hdefaults : c.Declares .defaults)
    (hplain : ∀ x ∈ after, ∀ child ∈ x.elements, child.key = key →
      child.attrs.get? SelfPolicy.attributeName = none)
    (hrun : mergeLayers (before ++ layer :: after) = .ok tree) :
    ((∃ x ∈ after, ∃ child ∈ x.elements, child.key = key) →
        mergeLayers (before ++ layer.unmarked key :: after) = .ok tree) ∧
      ((∀ x ∈ after, ∀ child ∈ x.elements, child.key ≠ key) →
        ∀ child ∈ tree.elements, child.key ≠ key) := by
  rw [mergeLayers] at hrun
  cases hpushed : Layers.empty.pushAll (before ++ layer :: after) with
  | error e => simp [hpushed] at hrun
  | ok run =>
    simp only [hpushed] at hrun
    obtain ⟨middle, hmiddle, hlater⟩ := Layers.pushAll_append_eq_ok hpushed
    obtain ⟨next, hnext, hlater⟩ := Layers.pushAll_cons_eq_ok hlater
    have hlayer : layer.Traceable key := hlayers layer (by simp)
    have hafter : ∀ x ∈ after, x.Traceable key := fun x hx => hlayers x (by simp [hx])
    have hholds := Layers.holds_of_pushAll_absent hid (Layers.holds_empty key) (by simp)
      (fun x hx => ⟨hlayers x (by simp [hx]), hfirst x hx⟩) hmiddle
    obtain ⟨next', hnext', hunmarks⟩ := Layers.unmarks_of_push_first hid hholds hlayer
      (hlayer.holds hc hkey) hdefaults hnext
    constructor
    · intro hmet
      have hsame := Layers.pushAll_eq_of_unmarks hid hunmarks hafter hplain hmet hlater
      have hpushed' := (Layers.pushAll_append hmiddle).trans
        ((Layers.pushAll_cons hnext').trans hsame)
      rw [mergeLayers, hpushed']
      exact hrun
    · intro habsent
      obtain ⟨child, hchild, hdeclares⟩ := hunmarks.holds
      refine Layers.absent_of_finish (Layers.holds_of_pushAll_absent hid hchild ?_
        (fun x hx => ⟨hafter x hx, habsent x hx⟩) hlater) hdeclares hrun
      rintro x ⟨⟩ htag
      cases hdeclares.unique htag

def listener (attrs : List (String × String)) : Element :=
  ⟨"listener", ⟨("id", "l") :: attrs⟩, []⟩

def listenerLayer (attrs : List (String × String)) : Element :=
  ⟨"config", .empty, [.element (listener attrs)]⟩

def listenerDefaults : Element := listenerLayer [("combine.self", "DEFAULTS"), ("port", "1")]

def plainLayer : Element := ⟨"config", .empty, [.element ⟨"log", .empty, []⟩]⟩

theorem mergeLayers_defaults_listener :
    mergeLayers ([plainLayer] ++ listenerDefaults.unmarked ⟨"listener", some "l"⟩ ::
        [plainLayer, listenerLayer [("port", "2")]]) =
      .ok ⟨"config", .empty, [.element ⟨"log", .empty, []⟩, .element (listener [("port", "2")])]⟩ ∧
    mergeLayers ([plainLayer] ++ listenerDefaults :: [plainLayer]) = .ok plainLayer ∧
      ∀ child ∈ plainLayer.elements, child.key ≠ ⟨"listener", some "l"⟩ := by
  have hid : (Key.mk "listener" (some "l")).id ≠ none := by decide
  have hmet : mergeLayers ([plainLayer] ++ listenerDefaults ::
      [plainLayer, listenerLayer [("port", "2")]]) =
    .ok ⟨"config", .empty,
      [.element ⟨"log", .empty, []⟩, .element (listener [("port", "2")])]⟩ := by decide +kernel
  have halone : mergeLayers ([plainLayer] ++ listenerDefaults :: [plainLayer]) =
    .ok plainLayer := by decide +kernel
  have hc : listener [("combine.self", "DEFAULTS"), ("port", "1")] ∈ listenerDefaults.elements := by
    decide +kernel
  refine ⟨?_, halone, ?_⟩
  · exact (mergeLayers_defaults hid (by decide +kernel) (by decide +kernel) hc (by decide +kernel)
      (by decide +kernel) (by decide +kernel) hmet).1 (by decide +kernel)
  · exact (mergeLayers_defaults hid (by decide +kernel) (by decide +kernel) hc (by decide +kernel)
      (by decide +kernel) (by decide +kernel) halone).2 (by decide +kernel)

end ConfigOverlay
