import ConfigOverlay.Proofs.Merge.Followed

set_option autoImplicit false

namespace ConfigOverlay

variable {key : Key} {lower d : Element} {result : Option Element}

theorem eq_of_merge_over_overridable (hlower : lower.Declares .overridable)
    (hstays : ¬ d.Declares .remove) (h : merge (some lower) d = .ok result) :
    result = some d.withoutSelfPolicy := by
  rcases settled_or_pending_of_merge h with hopen | ⟨shell, steps, nodes, hopen, -, -⟩
  · cases opens_of_openPair hopen with
    | removed hremove => exact absurd hremove hstays
    | replaced => rfl
    | appended halone => cases halone
  · cases opens_of_openPair hopen with
    | @merged recessiveSelf _ _ _ _ below _ shares =>
      cases hlower.symm.trans below
      exact absurd rfl shares.2

section

variable {layer : Element} {below upper child : Option Element} {c : Element}

/-- The declaration stays if the child below does not give way itself. -/
theorem declares_of_yields (hc : c.Declares .overridable)
    (hbelow : ∀ x ∈ below, ¬ x.Declares .overridable) (h : layer.Yields below (some c) child) :
    ∃ x, child = some x ∧ x.Declares .overridable :=
  declares_of_merge hc (by decide) (by decide)
    (fun x hx => hbelow x (Option.mem_filter_iff.1 hx).1) h

/-- If it does, the child above replaces it and declares nothing. -/
theorem eq_of_yields_over_overridable (hlower : lower.Declares .overridable)
    (hstays : ¬ d.Declares .remove) (h : layer.Yields (some lower) (some d) child) :
    child = some d.withoutSelfPolicy := by
  rw [Element.Yields, Element.filter_retains] at h
  · exact eq_of_merge_over_overridable hlower hstays h
  · rintro x ⟨⟩ htag
    cases hlower.unique htag

end

namespace Layers

/-- The layers so far have made a child of the key that gives way to any counterpart. -/
def Overridable (key : Key) (layers : Layers) : Prop :=
  ∃ root ∈ layers.merged, ∃ child ∈ root.elements, child.key = key ∧ child.Declares .overridable

theorem Holds.overridable_iff {layers : Layers} {child : Option Element}
    (h : layers.Holds key child) :
    layers.Overridable key ↔ ∃ x ∈ child, x.Declares .overridable := by
  constructor
  · rintro ⟨root, hroot, x, hx, hkey, hdeclares⟩
    exact ⟨x, (h.holds root hroot).mem_iff.2 ⟨hx, hkey⟩, hdeclares⟩
  · rintro ⟨x, hx, hdeclares⟩
    obtain ⟨root, hroot⟩ := Option.ne_none_iff_exists'.1
      (h.started fun hnone => by simp [hnone] at hx)
    obtain ⟨hmem, hkey⟩ := (h.holds root hroot).mem_iff.1 hx
    exact ⟨root, hroot, x, hmem, hkey, hdeclares⟩

theorem holds_of_push_overridable {layers next : Layers} {layer c : Element} (hid : key.id ≠ none)
    {below : Option Element} (hlayers : layers.Holds key below) (hlayer : layer.Traceable key)
    (hupper : layer.Holds key (some c)) (hc : c.Declares .overridable)
    (h : layers.push layer = .ok next) :
    ∃ x, next.Holds key (some x) ∧ (¬ layers.Overridable key → x.Declares .overridable) ∧
      (layers.Overridable key → x = c.withoutSelfPolicy) := by
  obtain ⟨child, -, hchild, hyields⟩ := holds_of_push hid hlayers hlayer hupper h
  rcases hyields with ⟨hnone, rfl⟩ | hyields
  · refine ⟨c, hchild, fun _ => hc, ?_⟩
    rintro ⟨root, hroot, -⟩
    simp [hnone] at hroot
  · by_cases hover : layers.Overridable key
    · obtain ⟨lower, rfl, hlower⟩ := hlayers.overridable_iff.1 hover
      have hstays : ¬ c.Declares .remove := fun hremove => by cases hc.unique hremove
      cases eq_of_yields_over_overridable hlower hstays hyields
      exact ⟨_, hchild, fun hnot => absurd hover hnot, fun _ => rfl⟩
    · obtain ⟨x, rfl, hx⟩ := declares_of_yields hc
        (fun x hx hdeclares => hover (hlayers.overridable_iff.2 ⟨x, hx, hdeclares⟩)) hyields
      exact ⟨x, hchild, fun _ => hx, fun hyes => absurd hyes hover⟩

end Layers

/-- A child that gives way is replaced by the next child of its key, whatever layers before it have
declared, unless what they have made gives way itself. In that case it is merged with the next child
as one that declares nothing. -/
theorem overridable_gives_way {before between : List Element} {layer next c d : Element}
    {run : Layers} (hid : key.id ≠ none)
    (hlayers : ∀ x ∈ before ++ layer :: (between ++ [next]), x.Traceable key)
    (hrun : Layers.empty.pushAll (before ++ layer :: (between ++ [next])) = .ok run)
    (hc : c ∈ layer.elements) (hckey : c.key = key) (hoverridable : c.Declares .overridable)
    (hbetween : ∀ x ∈ between, ∀ child ∈ x.elements, child.key ≠ key)
    (hd : d ∈ next.elements) (hdkey : d.key = key) (hstays : ¬ d.Declares .remove) :
    ∃ earlier root child, Layers.empty.pushAll before = .ok earlier ∧ run.merged = some root ∧
      root.Holds key child ∧
      (¬ earlier.Overridable key → child = some d.withoutSelfPolicy) ∧
      (earlier.Overridable key → merge (some c.withoutSelfPolicy) d = .ok child) := by
  obtain ⟨earlier, hearlier, hlater⟩ := Layers.pushAll_append_eq_ok hrun
  obtain ⟨after, hafter, hlater⟩ := Layers.pushAll_cons_eq_ok hlater
  obtain ⟨middle, hmiddle, hlast⟩ := Layers.pushAll_append_eq_ok hlater
  obtain ⟨last, hlast, hend⟩ := Layers.pushAll_cons_eq_ok hlast
  cases hend
  have hlayer : layer.Traceable key := hlayers layer (by simp)
  have hnext : next.Traceable key := hlayers next (by simp)
  obtain ⟨below, hbelow⟩ := Layers.exists_holds_of_pushAll hid ⟨none, Layers.holds_empty key⟩
    (fun x hx => hlayers x (by simp [hx])) hearlier
  obtain ⟨lower, hlower, hgives, hgone⟩ := Layers.holds_of_push_overridable hid hbelow hlayer
    (hlayer.holds hc hckey) hoverridable hafter
  have hkept : ∀ x ∈ some lower, ¬ x.Declares .overridableByTag := by
    rintro x ⟨⟩ htag
    by_cases hover : earlier.Overridable key
    · have hc' := (hlayer.unique.child (Element.mem_elements_iff.1 hc)).here
      rw [hgone hover, Element.Declares, Element.selfPolicy_withoutSelfPolicy hc'] at htag
      simp at htag
    · cases (hgives hover).unique htag
  have hmiddle := Layers.holds_of_pushAll_absent hid hlower hkept
    (fun x hx => ⟨hlayers x (by simp [hx]), hbetween x hx⟩) hmiddle
  obtain ⟨child, hsome, hchild, hyields⟩ := Layers.holds_of_push hid hmiddle hnext
    (hnext.holds hd hdkey) hlast
  obtain ⟨root, hroot⟩ := Option.ne_none_iff_exists'.1 hsome
  have hyields : next.Yields (some lower) (some d) child :=
    hyields.resolve_left fun h => hmiddle.started (by simp) h.1
  refine ⟨earlier, root, child, hearlier, hroot, hchild.holds root hroot, fun hover => ?_,
    fun hover => ?_⟩
  · exact eq_of_yields_over_overridable (hgives hover) hstays hyields
  · rwa [Element.Yields, Element.filter_retains hkept, hgone hover] at hyields

def realm (attrs : List (String × String)) (source : String) : Element :=
  ⟨"realm", ⟨("id", "r") :: attrs⟩, [.element ⟨source, .empty, []⟩]⟩

def realmLayer (attrs : List (String × String)) (source : String) : Element :=
  ⟨"config", .empty, [.element (realm attrs source)]⟩

theorem overridable_gives_way_realm :
    ∃ run root, Layers.empty.pushAll ([realmLayer [("port", "1")] "local"] ++
        realmLayer [("combine.self", "OVERRIDABLE")] "file" ::
          ([⟨"config", .empty, []⟩] ++ [realmLayer [("port", "2")] "ldap"])) = .ok run ∧
      run.merged = some root ∧
      root.Holds ⟨"realm", some "r"⟩ (some (realm [("port", "2")] "ldap")) := by
  have hrun : Layers.empty.pushAll ([realmLayer [("port", "1")] "local"] ++
      realmLayer [("combine.self", "OVERRIDABLE")] "file" ::
        ([⟨"config", .empty, []⟩] ++ [realmLayer [("port", "2")] "ldap"])) =
      .ok ⟨some (realmLayer [("port", "2")] "ldap"), 4⟩ := by decide +kernel
  have hid : (Key.mk "realm" (some "r")).id ≠ none := by decide
  obtain ⟨earlier, root, child, hearlier, hroot, hholds, hreplaced, -⟩ :=
    overridable_gives_way (c := realm [("combine.self", "OVERRIDABLE")] "file")
      (d := realm [("port", "2")] "ldap") hid (by decide +kernel) hrun (by decide +kernel)
      (by decide +kernel) (by decide +kernel) (by decide +kernel) (by decide +kernel)
      (by decide +kernel) (by decide +kernel)
  refine ⟨_, root, hrun, hroot, ?_⟩
  have hplain : ¬ earlier.Overridable ⟨"realm", some "r"⟩ := by
    cases hearlier
    rintro ⟨root, ⟨⟩, hmarked⟩
    exact absurd hmarked (by decide +kernel)
  rw [hreplaced hplain] at hholds
  exact hholds

/-- Where two layers give way one after the other, the child of the third is merged with that of
the second. -/
theorem overridable_over_overridable_is_merged :
    ¬ ∀ (key : Key) (before between : List Element) (layer next c d root : Element)
      (run : Layers), key.id ≠ none →
      (∀ x ∈ before ++ layer :: (between ++ [next]), x.Traceable key) →
      Layers.empty.pushAll (before ++ layer :: (between ++ [next])) = .ok run →
      c ∈ layer.elements → c.key = key → c.Declares .overridable →
      (∀ x ∈ between, ∀ child ∈ x.elements, child.key ≠ key) →
      d ∈ next.elements → d.key = key → ¬ d.Declares .remove → run.merged = some root →
      root.Holds key (some d.withoutSelfPolicy) := by
  intro h
  have hholds := h ⟨"realm", some "r"⟩ [realmLayer [("combine.self", "OVERRIDABLE")] "file"] []
    (realmLayer [("combine.self", "OVERRIDABLE"), ("port", "1")] "file") (realmLayer [] "file")
    (realm [("combine.self", "OVERRIDABLE"), ("port", "1")] "file") (realm [] "file")
    (realmLayer [("port", "1")] "file") ⟨some (realmLayer [("port", "1")] "file"), 3⟩
    (by decide +kernel) (by decide +kernel) (by decide +kernel) (by decide +kernel) (by decide +kernel)
    (by decide +kernel) (by decide +kernel) (by decide +kernel) (by decide +kernel)
    (by decide +kernel) rfl
  exact absurd (hholds.mem_iff.1 rfl).1 (by decide +kernel)

end ConfigOverlay
