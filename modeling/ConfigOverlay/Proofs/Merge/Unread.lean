import ConfigOverlay.Proofs.Merge.Accounted

set_option autoImplicit false

namespace ConfigOverlay

variable {layers : List Element} {x : Element}

/-- In a run of these layers, the element's attribute of this name is read, unless a fault comes
before. -/
inductive ReadIn (layers : List Element) : Element → String → Prop where
  | merging {lower : Option Element} {above x : Element} {name : String}
      (laid : LaidIn layers lower above) (read : ReadAt lower above x name) : ReadIn layers x name
  | sweeping {x : Element} (swept : SweptIn layers x) : ReadIn layers x SelfPolicy.attributeName

theorem mergeLayers_of_mergedIn {under layer : Element} {fault : MergeError}
    (h : MergedIn layers under layer) (hfault : merge (some under) layer = .error fault) :
    mergeLayers layers = .error fault := by
  obtain ⟨before, after, run, rfl, hrun, hunder⟩ := h
  have hpushed := Layers.pushAll_eq_error_iff.2
    ⟨before, layer, after, run, rfl, hrun, Layers.push_of_merge_eq_error hunder hfault⟩
  rw [mergeLayers, hpushed]

theorem mergeLayers_of_sweptIn {fault : MergeError} (hx : SweptIn layers x)
    (hcause : x.Causes SelfPolicy.attributeName fault) :
    ∃ tag name value, mergeLayers layers = .error (.invalidPolicy tag name value) := by
  obtain ⟨run, root, hrun, hroot, hsweeps⟩ := hx
  cases hfault : root.sweepFault? with
  | none => exact absurd hcause (hsweeps.not_causes hfault)
  | some fault' =>
    obtain ⟨y, -, value, -, rfl⟩ := Element.exists_sweeps_of_sweepFault? hfault
    have hfails : mergeLayers layers =
        .error (.invalidPolicy y.tag SelfPolicy.attributeName value) := by
      simp only [mergeLayers, hrun, Layers.finish, hroot, Element.sweep_eq, hfault]
    exact ⟨_, _, _, hfails⟩

theorem mergeLayers_of_laidIn {lower : Option Element} {above : Element} {name : String}
    {fault : MergeError} (hlaid : LaidIn layers lower above) (hread : ReadAt lower above x name)
    (hcause : x.Causes name fault) :
    ∃ tag name value, mergeLayers layers = .error (.invalidPolicy tag name value) := by
  obtain ⟨under, layer, hmerged, hlays⟩ := hlaid
  cases hmerge : merge (some under) layer with
  | ok result =>
    have hreads : Reads (some under) layer x name := ⟨lower, above, hlays, hread⟩
    exact absurd hcause (hreads.not_causes hmerge)
  | error fault' =>
    obtain ⟨y, name', -, value, -, rfl⟩ := merge_eq_error hmerge
    exact ⟨_, _, _, mergeLayers_of_mergedIn hmerged hmerge⟩

theorem exists_readIn_of_mergeLayers {tag name value : String}
    (h : mergeLayers layers = .error (.invalidPolicy tag name value)) :
    ∃ x name value, ReadIn layers x name ∧ x.Misdeclares name value := by
  rcases Layers.mergeLayers_eq_error h with hpushed | ⟨run, hrun, hfinish⟩
  · obtain ⟨before, layer, after, middle, rfl, hmiddle, hfault⟩ :=
      Layers.pushAll_eq_error_iff.1 hpushed
    obtain ⟨under, hunder, hmerge | hroot⟩ := Layers.push_eq_error hfault
    · obtain ⟨x, name, ⟨lower, above, hlays, hread⟩, value, hvalue, -⟩ := merge_eq_error hmerge
      have hmerged : MergedIn (before ++ layer :: after) under layer :=
        ⟨before, after, middle, rfl, hmiddle, hunder⟩
      exact ⟨x, name, value, .merging ⟨under, layer, hmerged, hlays⟩ hread, hvalue⟩
    · cases hroot
  · rcases Layers.finish_eq_error hfinish with hnone | ⟨root, hroot, hsweep⟩
    · cases hnone
    · obtain ⟨x, hx, value, hvalue, -⟩ :=
        Element.exists_sweeps_of_sweepFault? (Element.sweep_eq_error_iff.1 hsweep)
      exact ⟨x, _, value, .sweeping ⟨run, root, hrun, hroot, hx⟩, hvalue⟩

/-- A run fails for a policy that is not recognised exactly if one that is read is none. -/
theorem mergeLayers_fails_iff :
    (∃ tag name value, mergeLayers layers = .error (.invalidPolicy tag name value)) ↔
      ∃ x name value, ReadIn layers x name ∧ x.Misdeclares name value := by
  constructor
  · rintro ⟨tag, name, value, h⟩
    exact exists_readIn_of_mergeLayers h
  · rintro ⟨x, name, value, hread, hvalue⟩
    have hcause : x.Causes name (.invalidPolicy x.tag name value) := ⟨value, hvalue, rfl⟩
    cases hread with
    | merging laid read => exact mergeLayers_of_laidIn laid read hcause
    | sweeping swept => exact mergeLayers_of_sweptIn swept hcause

theorem ReadIn.not_misdeclares {tree : Element} {name value : String} (hread : ReadIn layers x name)
    (h : mergeLayers layers = .ok tree) : ¬ x.Misdeclares name value := by
  intro hvalue
  obtain ⟨tag, name', value', hfault⟩ := mergeLayers_fails_iff.2 ⟨x, name, value, hread, hvalue⟩
  cases h.symm.trans hfault

theorem LeftOut.readAt {lower : Option Element} {above : Element} (h : LeftOut lower above x) :
    ReadAt lower above x SelfPolicy.attributeName := by
  cases h with
  | removed => exact .above
  | replaced mem => exact .under mem
  | dropped shares merges mem place => exact .sibling shares merges mem place

theorem DiscardedIn.readIn (h : DiscardedIn layers x) :
    ReadIn layers x SelfPolicy.attributeName := by
  cases h with
  | merging laid left => exact .merging laid left.readAt
  | sweeping swept => exact .sweeping swept

section

variable {tree : Element} {value : String} (h : mergeLayers layers = .ok tree)

include h

theorem exists_merge_of_laid {lower : Option Element} {above : Element}
    (hlaid : LaidIn layers lower above) : ∃ part, merge lower above = .ok part := by
  obtain ⟨under, layer, hmerged, hlays⟩ := hlaid
  cases hmerge : merge (some under) layer with
  | error fault => cases h.symm.trans (mergeLayers_of_mergedIn hmerged hmerge)
  | ok result => exact hlays.merge_eq_ok hmerge

theorem below_discarded_of_misdeclares {layer : Element} (hlayer : layer ∈ layers)
    (hx : x.Within layer) (hvalue : x.Misdeclares SelfPolicy.attributeName value) :
    layers = [x] ∨ ∃ a, DiscardedIn layers a ∧ x.Below a := by
  have hunread : ¬ ReadIn layers x SelfPolicy.attributeName := fun hread =>
    hread.not_misdeclares h hvalue
  have hgone : GoneIn layers x → ∃ a, DiscardedIn layers a ∧ x.Below a := by
    rintro ⟨a, ha, hwithin⟩
    rcases hwithin.eq_or_below with rfl | hbelow
    · exact absurd ha.readIn hunread
    · exact ⟨a, ha, hbelow⟩
  obtain ⟨run, hrun, -⟩ := Layers.finish_of_mergeLayers h
  cases accounted_of_layer hlayer hx hrun with
  | laid hlaid => exact absurd (.merging hlaid .above) hunread
  | overlaid hlaid => exact absurd (.merging hlaid (.under rfl)) hunread
  | gone hx => exact .inr (hgone hx)
  | only hone => exact .inl hone
  | stands hroot hbelow =>
    rcases accounted_of_sweep hbelow with ⟨a, ha, hskeleton, hxa⟩ | ⟨hread, -⟩
    · exact .inr (hgone ⟨a, .sweeping ⟨run, _, hrun, hroot, ha⟩ hskeleton, hxa⟩)
    · exact absurd (.sweeping ⟨run, _, hrun, hroot, hread⟩) hunread

theorem goneIn_or_overlaid {above : Element} (hlaid : LaidIn layers (some x) above)
    (hvalue : x.Misdeclares ChildrenPolicy.attributeName value) :
    GoneIn layers x ∨ ∃ policy, above.childrenPolicy = .ok (some policy) := by
  by_cases hshares : Shares (some x) above
  · refine .inr ?_
    cases hpolicy : above.childrenPolicy with
    | error fault =>
      obtain ⟨value', hvalue', -⟩ := Element.childrenPolicy_eq_error_iff.1 hpolicy
      exact absurd hvalue' (ReadIn.not_misdeclares (.merging hlaid (.childrenAbove hshares)) h)
    | ok declared =>
      cases declared with
      | some policy => exact ⟨policy, rfl⟩
      | none =>
        have hunsaid := Element.childrenPolicy_eq_ok_none_iff.1 hpolicy
        exact absurd hvalue
          (ReadIn.not_misdeclares (.merging hlaid (.childrenUnder hshares hunsaid rfl)) h)
  · exact .inl ⟨x, .merging hlaid (.replaced rfl hshares), .here⟩

theorem removed_or_replaced_of_misdeclares {lower : Option Element}
    (hlaid : LaidIn layers lower x) (hvalue : x.Misdeclares ChildrenPolicy.attributeName value) :
    GoneIn layers x ∨ merge lower x = .ok (some x.withoutSelfPolicy) := by
  obtain ⟨part, hpart⟩ := exists_merge_of_laid h hlaid
  have hparted : ¬ Shares lower x := fun hshares =>
    ReadIn.not_misdeclares (.merging hlaid (.childrenAbove hshares)) h hvalue
  rcases settled_or_pending_of_merge hpart with hopen | ⟨shell, steps, nodes, hopen, -, -⟩
  · cases opens_of_openPair hopen with
    | removed remove => exact .inl ⟨x, .merging hlaid (.removed remove), .here⟩
    | replaced => exact .inr hpart
    | appended _ _ append =>
      rw [Element.childrenPolicy_eq_error_iff.2 ⟨value, hvalue, rfl⟩] at append
      cases append
  · exact absurd (shares_of_pending (opens_of_openPair hopen)) hparted

theorem goneIn_or_swept {run : Layers} {root : Element}
    (hrun : Layers.empty.pushAll layers = .ok run) (hroot : run.merged = some root)
    (hx : x.Within root) : GoneIn layers x ∨ x.swept.Within tree := by
  obtain ⟨run', hrun', hfinish⟩ := Layers.finish_of_mergeLayers h
  cases hrun.symm.trans hrun'
  obtain ⟨root', hroot', rfl⟩ := Layers.exists_swept_of_finish hfinish
  cases hroot.symm.trans hroot'
  rcases hx.eq_or_below with rfl | hbelow
  · exact .inr .here
  · rcases accounted_of_sweep hbelow with ⟨a, ha, hskeleton, hxa⟩ | ⟨-, hswept⟩
    · exact .inl ⟨a, .sweeping ⟨run, root, hrun, hroot, ha⟩ hskeleton, hxa⟩
    · exact .inr hswept.within

theorem accounted_of_misdeclares {layer : Element} (hlayer : layer ∈ layers)
    (hx : x.Within layer) (hvalue : x.Misdeclares ChildrenPolicy.attributeName value) :
    ∃ y, (y = x ∨ y = x.withoutSelfPolicy) ∧ (GoneIn layers y ∨
      (∃ above policy, LaidIn layers (some y) above ∧ above.childrenPolicy = .ok (some policy)) ∨
      y.swept.Within tree) := by
  obtain ⟨run, hrun, hfinish⟩ := Layers.finish_of_mergeLayers h
  have hunder : ∀ y above, y.Misdeclares ChildrenPolicy.attributeName value →
      LaidIn layers (some y) above → GoneIn layers y ∨ (∃ above policy,
        LaidIn layers (some y) above ∧ above.childrenPolicy = .ok (some policy)) ∨
        y.swept.Within tree := by
    intro y above hvalue hlaid
    rcases goneIn_or_overlaid h hlaid hvalue with hgone | ⟨policy, hpolicy⟩
    · exact .inl hgone
    · exact .inr (.inl ⟨above, policy, hlaid, hpolicy⟩)
  have hstands : ∀ y root, run.merged = some root → y.Within root → GoneIn layers y ∨
      (∃ above policy, LaidIn layers (some y) above ∧ above.childrenPolicy = .ok (some policy)) ∨
        y.swept.Within tree := by
    intro y root hroot hy
    rcases goneIn_or_swept h hrun hroot hy with hgone | hswept
    · exact .inl hgone
    · exact .inr (.inr hswept)
  cases accounted_of_layer hlayer hx hrun with
  | overlaid hlaid => exact ⟨x, .inl rfl, hunder x _ hvalue hlaid⟩
  | gone hgone => exact ⟨x, .inl rfl, .inl hgone⟩
  | stands hroot hbelow => exact ⟨x, .inl rfl, hstands x _ hroot hbelow.within⟩
  | only hone =>
    subst hone
    cases hrun
    exact ⟨x, .inl rfl, hstands x x rfl .here⟩
  | laid hlaid =>
    rcases removed_or_replaced_of_misdeclares h hlaid hvalue with hgone | hreplaced
    · exact ⟨x, .inl rfl, .inl hgone⟩
    · refine ⟨x.withoutSelfPolicy, .inr rfl, ?_⟩
      rcases accounted_of_laid hlaid hrun hreplaced with ⟨upper, hupper⟩ | hgone |
        ⟨root, hroot, hwithin⟩
      · refine hunder _ upper ⟨?_, hvalue.unrecognised⟩ hupper
        rw [Element.withoutSelfPolicy, Attributes.get?_erase_of_ne (by decide)]
        exact hvalue.written
      · exact .inl hgone
      · exact hstands _ root hroot hwithin

end

/-- A policy that is not recognised makes a run fail exactly if it is read. So where a run gives a
tree, an element's own policy that is not recognised has stood below something that was left out as
a whole, or at the root of the only layer. A children policy that is not recognised has stood in
something left out, or another one has been laid over it, or it still stands in the tree. -/
theorem unrecognised_policies_fail_where_read (layers : List Element) :
    ((∃ tag name value, mergeLayers layers = .error (.invalidPolicy tag name value)) ↔
      ∃ x name value, ReadIn layers x name ∧ x.Misdeclares name value) ∧
    ∀ tree, mergeLayers layers = .ok tree →
      ∀ layer ∈ layers, ∀ x : Element, x.Within layer → ∀ value,
        (x.Misdeclares SelfPolicy.attributeName value →
          layers = [x] ∨ ∃ a, DiscardedIn layers a ∧ x.Below a) ∧
        (x.Misdeclares ChildrenPolicy.attributeName value →
          ∃ y, (y = x ∨ y = x.withoutSelfPolicy) ∧ (GoneIn layers y ∨
            (∃ above policy, LaidIn layers (some y) above ∧
              above.childrenPolicy = .ok (some policy)) ∨
            y.swept.Within tree)) :=
  ⟨mergeLayers_fails_iff, fun _ h _ hlayer _ hx _ =>
    ⟨below_discarded_of_misdeclares h hlayer hx, accounted_of_misdeclares h hlayer hx⟩⟩

def stalePool : Element := ⟨"pool", ⟨[("combine.children", "apend")]⟩, []⟩

def staleEntry : Element := ⟨"entry", ⟨[("combine.self", "remve")]⟩, []⟩

def staleBase : Element :=
  ⟨"config", .empty, [.element stalePool, .element ⟨"cache", .empty, [.element staleEntry]⟩]⟩

def staleSite : Element :=
  ⟨"config", .empty, [
    .element ⟨"pool", ⟨[("combine.children", "append")]⟩, []⟩,
    .element ⟨"cache", ⟨[("combine.self", "override")]⟩, []⟩]⟩

def staleMerged : Element :=
  ⟨"config", .empty, [
    .element ⟨"pool", ⟨[("combine.children", "append")]⟩, []⟩, .element ⟨"cache", .empty, []⟩]⟩

theorem unrecognised_policies_fail_where_read_stale :
    (∃ x name value, ReadIn [staleBase] x name ∧ x.Misdeclares name value) ∧
    mergeLayers [staleBase, staleSite] = .ok staleMerged ∧
    (∃ a, DiscardedIn [staleBase, staleSite] a ∧ staleEntry.Below a) ∧
    ∃ y, (y = stalePool ∨ y = stalePool.withoutSelfPolicy) ∧
      (GoneIn [staleBase, staleSite] y ∨
        (∃ above policy, LaidIn [staleBase, staleSite] (some y) above ∧
          above.childrenPolicy = .ok (some policy)) ∨
        y.swept.Within staleMerged) := by
  have hfails : mergeLayers [staleBase] =
      .error (.invalidPolicy "entry" "combine.self" "remve") := by decide +kernel
  have hmerged : mergeLayers [staleBase, staleSite] = .ok staleMerged := by decide +kernel
  have hlayer : staleBase ∈ [staleBase, staleSite] := List.mem_cons_self
  have hpool : stalePool.Within staleBase := .child (by simp [staleBase]) .here
  have hcache : staleEntry.Within ⟨"cache", .empty, [.element staleEntry]⟩ :=
    .child List.mem_cons_self .here
  have hentry : staleEntry.Within staleBase := .child (by simp [staleBase]) hcache
  have hvalues : stalePool.Misdeclares "combine.children" "apend" ∧
      staleEntry.Misdeclares "combine.self" "remve" := by decide +kernel
  have hstands :=
    (unrecognised_policies_fail_where_read [staleBase, staleSite]).2 _ hmerged _ hlayer
  refine ⟨(unrecognised_policies_fail_where_read [staleBase]).1.1 ⟨_, _, _, hfails⟩, hmerged, ?_,
    (hstands stalePool hpool _).2 hvalues.1⟩
  exact ((hstands staleEntry hentry _).1 hvalues.2).resolve_left (by simp)

/-- So a value that is no policy need not make a run fail. -/
theorem unread_policy_passes :
    ¬ ∀ layers : List Element, layers ≠ [] → ∀ layer ∈ layers, ∀ x : Element, x.Within layer →
      ∀ name value, x.Misdeclares name value → ∃ fault, mergeLayers layers = .error fault := by
  intro h
  have hwithin : stalePool.Within ⟨"config", .empty, [.element stalePool]⟩ :=
    .child List.mem_cons_self .here
  obtain ⟨fault, hfault⟩ := h [⟨"config", .empty, [.element stalePool]⟩] (by simp) _
    List.mem_cons_self stalePool hwithin "combine.children" "apend" (by decide +kernel)
  have hmerged : mergeLayers [⟨"config", .empty, [.element stalePool]⟩] =
      .ok ⟨"config", .empty, [.element stalePool]⟩ := by decide +kernel
  cases hfault.symm.trans hmerged

end ConfigOverlay
