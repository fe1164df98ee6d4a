import ConfigOverlay.Proofs.Merge.Overridable

set_option autoImplicit false

namespace ConfigOverlay

variable {key : Key} {d : Element} {recessive result : Option Element}

theorem openPair_of_override {opening : Opening} (hoverride : d.Declares .override)
    (h : openPair recessive d = .ok opening) : opening = .settled (some d.withoutSelfPolicy) := by
  obtain ⟨_, dominantSelf, -, habove, hopening⟩ := openPair_eq_ok h
  obtain rfl : dominantSelf = some .override := Except.ok.inj (habove.symm.trans hoverride)
  obtain ⟨hremove, -⟩ | ⟨-, ⟨-, hreplaced⟩ | ⟨hshares, -⟩⟩ := hopening
  · simp at hremove
  · exact hreplaced
  · exact absurd (.inl rfl) hshares

theorem eq_of_merge_override (hoverride : d.Declares .override)
    (h : merge recessive d = .ok result) : result = some d.withoutSelfPolicy := by
  rcases settled_or_pending_of_merge h with hopen | ⟨shell, steps, nodes, hopen, -, -⟩
  · cases openPair_of_override hoverride hopen
    rfl
  · cases openPair_of_override hoverride hopen

/-- What a layer makes of a child is determined by the child below and the child of the layer. -/
theorem Element.Yields.unique {above : Element} {lower upper child other : Option Element}
    (h : above.Yields lower upper child) (hother : above.Yields lower upper other) :
    child = other := by
  cases upper with
  | none => exact h.trans hother.symm
  | some d => exact Except.ok.inj (Eq.trans (Eq.symm h) hother)

namespace Layers

variable {layers layers' next next' run run' : Layers} {layer c : Element} {rest : List Element}

structure Agree (key : Key) (layers layers' : Layers) : Prop where
  started : layers.merged ≠ none
  started' : layers'.merged ≠ none
  holds : ∃ child, layers.Holds key child ∧ layers'.Holds key child

theorem agree_of_yields (hid : key.id ≠ none) (hlayer : layer.Traceable key)
    {lower lower' upper : Option Element} (hupper : layer.Holds key upper)
    (hstarted : layers.merged ≠ none) (hstarted' : layers'.merged ≠ none)
    (hlower : layers.Holds key lower) (hlower' : layers'.Holds key lower')
    (hsame : ∀ child child', layer.Yields lower upper child → layer.Yields lower' upper child' →
      child = child')
    (h : layers.push layer = .ok next) (h' : layers'.push layer = .ok next') :
    Agree key next next' := by
  obtain ⟨child, hnext, hchild, hyields⟩ := holds_of_push hid hlower hlayer hupper h
  obtain ⟨child', hnext', hchild', hyields'⟩ := holds_of_push hid hlower' hlayer hupper h'
  have heq := hsame child child' (hyields.resolve_left fun hfirst => hstarted hfirst.1)
    (hyields'.resolve_left fun hfirst => hstarted' hfirst.1)
  exact ⟨hnext, hnext', child, hchild, heq ▸ hchild'⟩

theorem agree_of_push_override (hid : key.id ≠ none) (hlayer : layer.Traceable key)
    (hc : layer.Holds key (some c)) (hoverride : c.Declares .override)
    (hstarted : layers.merged ≠ none) (hstarted' : layers'.merged ≠ none)
    (hlayers : ∃ child, layers.Holds key child) (hlayers' : ∃ child, layers'.Holds key child)
    (h : layers.push layer = .ok next) (h' : layers'.push layer = .ok next') :
    Agree key next next' := by
  obtain ⟨lower, hlower⟩ := hlayers
  obtain ⟨lower', hlower'⟩ := hlayers'
  refine agree_of_yields hid hlayer hc hstarted hstarted' hlower hlower' ?_ h h'
  intro child child' hchild hchild'
  rw [eq_of_merge_override hoverride hchild, eq_of_merge_override hoverride hchild']

theorem agree_of_push (hid : key.id ≠ none) (hlayers : Agree key layers layers')
    (hlayer : layer.Traceable key) (h : layers.push layer = .ok next)
    (h' : layers'.push layer = .ok next') : Agree key next next' := by
  obtain ⟨hstarted, hstarted', lower, hlower, hlower'⟩ := hlayers
  obtain ⟨upper, hupper⟩ := hlayer.exists_holds
  exact agree_of_yields hid hlayer hupper hstarted hstarted' hlower hlower'
    (fun _ _ hchild hchild' => hchild.unique hchild') h h'

theorem agree_of_pushAll (hid : key.id ≠ none) (hlayers : Agree key layers layers')
    (hrest : ∀ layer ∈ rest, layer.Traceable key) (h : layers.pushAll rest = .ok run)
    (h' : layers'.pushAll rest = .ok run') : Agree key run run' := by
  have hsame : List.Forall₂ (fun x x' => x' = x ∧ x.Traceable key) rest rest :=
    List.forall₂_same.2 fun layer hlayer => ⟨rfl, hrest layer hlayer⟩
  refine pushAll_induction₂ hlayers ?_ hsame h h'
  rintro layer _ middle middle' next next' ⟨rfl, hlayer⟩ hagree hnext hnext'
  exact agree_of_push hid hagree hlayer hnext hnext'

end Layers

/-- After a child that replaces its counterpart, and after any layers behind it, two runs with the
same layers from this one on have the same child of the key, or both have none. -/
theorem override_forgets {before before' later : List Element} {layer c : Element}
    {run run' : Layers} (hid : key.id ≠ none) (hbefore : before ≠ []) (hbefore' : before' ≠ [])
    (hlayers : ∀ x ∈ before ++ layer :: later, x.Traceable key)
    (hlayers' : ∀ x ∈ before' ++ layer :: later, x.Traceable key)
    (hc : c ∈ layer.elements) (hkey : c.key = key) (hoverride : c.Declares .override)
    (hrun : Layers.empty.pushAll (before ++ layer :: later) = .ok run)
    (hrun' : Layers.empty.pushAll (before' ++ layer :: later) = .ok run')
    {between rest : List Element} (hlater : later = between ++ rest) :
    ∃ middle middle' root root' child,
      Layers.empty.pushAll (before ++ layer :: between) = .ok middle ∧
      Layers.empty.pushAll (before' ++ layer :: between) = .ok middle' ∧
      middle.merged = some root ∧ middle'.merged = some root' ∧
      root.Holds key child ∧ root'.Holds key child := by
  subst hlater
  obtain ⟨earlier, hearlier, hlater⟩ := Layers.pushAll_append_eq_ok hrun
  obtain ⟨earlier', hearlier', hlater'⟩ := Layers.pushAll_append_eq_ok hrun'
  obtain ⟨next, hnext, hlater⟩ := Layers.pushAll_cons_eq_ok hlater
  obtain ⟨next', hnext', hlater'⟩ := Layers.pushAll_cons_eq_ok hlater'
  obtain ⟨middle, hmiddle, -⟩ := Layers.pushAll_append_eq_ok hlater
  obtain ⟨middle', hmiddle', -⟩ := Layers.pushAll_append_eq_ok hlater'
  have hlayer : layer.Traceable key := hlayers layer (by simp)
  have hreset : Layers.Agree key next next' := by
    refine Layers.agree_of_push_override hid hlayer (hlayer.holds hc hkey) hoverride
      (Layers.merged_ne_none_of_pushAll hbefore hearlier)
      (Layers.merged_ne_none_of_pushAll hbefore' hearlier') ?_ ?_ hnext hnext'
    · exact Layers.exists_holds_of_pushAll hid ⟨none, Layers.holds_empty key⟩
        (fun x hx => hlayers x (by simp [hx])) hearlier
    · exact Layers.exists_holds_of_pushAll hid ⟨none, Layers.holds_empty key⟩
        (fun x hx => hlayers' x (by simp [hx])) hearlier'
  obtain ⟨hstarted, hstarted', child, hchild, hchild'⟩ := Layers.agree_of_pushAll hid hreset
    (fun x hx => hlayers x (by simp [hx])) hmiddle hmiddle'
  obtain ⟨root, hroot⟩ := Option.ne_none_iff_exists'.1 hstarted
  obtain ⟨root', hroot'⟩ := Option.ne_none_iff_exists'.1 hstarted'
  refine ⟨middle, middle', root, root', child, ?_, ?_, hroot, hroot', hchild.holds root hroot,
    hchild'.holds root' hroot'⟩
  · exact (Layers.pushAll_append hearlier).trans ((Layers.pushAll_cons hnext).trans hmiddle)
  · exact (Layers.pushAll_append hearlier').trans ((Layers.pushAll_cons hnext').trans hmiddle')

theorem override_forgets_realm :
    ∃ middle middle' root root',
      Layers.empty.pushAll ([realmLayer [("port", "1")] "local"] ++
        realmLayer [("combine.self", "OVERRIDE")] "file" :: [realmLayer [("port", "2")] "ldap"]) =
          .ok middle ∧
      Layers.empty.pushAll ([⟨"config", .empty, []⟩] ++
        realmLayer [("combine.self", "OVERRIDE")] "file" :: [realmLayer [("port", "2")] "ldap"]) =
          .ok middle' ∧
      middle.merged = some root ∧ middle'.merged = some root' ∧
      root.Holds ⟨"realm", some "r"⟩ (some ⟨"realm", ⟨[("id", "r"), ("port", "2")]⟩,
        [.element ⟨"file", .empty, []⟩, .element ⟨"ldap", .empty, []⟩]⟩) ∧
      root'.Holds ⟨"realm", some "r"⟩ (some ⟨"realm", ⟨[("id", "r"), ("port", "2")]⟩,
        [.element ⟨"file", .empty, []⟩, .element ⟨"ldap", .empty, []⟩]⟩) := by
  have hid : (Key.mk "realm" (some "r")).id ≠ none := by decide
  have hrun : Layers.empty.pushAll ([realmLayer [("port", "1")] "local"] ++
      realmLayer [("combine.self", "OVERRIDE")] "file" :: [realmLayer [("port", "2")] "ldap"]) =
    .ok ⟨some ⟨"config", .empty, [.element ⟨"realm", ⟨[("id", "r"), ("port", "2")]⟩,
      [.element ⟨"file", .empty, []⟩, .element ⟨"ldap", .empty, []⟩]⟩]⟩, 3⟩ := by decide +kernel
  have hrun' : Layers.empty.pushAll ([⟨"config", .empty, []⟩] ++
      realmLayer [("combine.self", "OVERRIDE")] "file" :: [realmLayer [("port", "2")] "ldap"]) =
    .ok ⟨some ⟨"config", .empty, [.element ⟨"realm", ⟨[("id", "r"), ("port", "2")]⟩,
      [.element ⟨"file", .empty, []⟩, .element ⟨"ldap", .empty, []⟩]⟩]⟩, 3⟩ := by decide +kernel
  obtain ⟨middle, middle', root, root', child, hmiddle, hmiddle', hroot, hroot', hchild, hchild'⟩ :=
    override_forgets (c := realm [("combine.self", "OVERRIDE")] "file") hid (by decide) (by decide)
      (by decide +kernel) (by decide +kernel) (by decide +kernel) (by decide +kernel)
      (by decide +kernel) hrun hrun' (List.append_nil _).symm
  cases hrun.symm.trans hmiddle
  cases hroot
  have hmade : Element.Holds ⟨"realm", some "r"⟩ ⟨"config", .empty,
      [.element ⟨"realm", ⟨[("id", "r"), ("port", "2")]⟩,
        [.element ⟨"file", .empty, []⟩, .element ⟨"ldap", .empty, []⟩]⟩]⟩
      (some ⟨"realm", ⟨[("id", "r"), ("port", "2")]⟩,
        [.element ⟨"file", .empty, []⟩, .element ⟨"ldap", .empty, []⟩]⟩) := rfl
  cases hchild.unique hmade
  exact ⟨_, middle', _, root', hmiddle, hmiddle', rfl, hroot', hchild, hchild'⟩

end ConfigOverlay
