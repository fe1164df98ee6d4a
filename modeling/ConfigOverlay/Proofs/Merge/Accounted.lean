import ConfigOverlay.Proofs.Merge.Followed
import ConfigOverlay.Proofs.Merge.Reading

/-!
What becomes of each element when layers are merged. It is laid over another one, or over nothing,
or has another one laid over it; or it goes with an element that is left out as a whole; or it
stands in the end where it has been taken over as it was. Nothing is lost in any other way.
-/

set_option autoImplicit false

namespace ConfigOverlay

variable {recessive result : Option Element} {dominant x : Element}

/-- What is left out as a whole when a pair is opened. -/
inductive LeftOut (recessive : Option Element) (dominant : Element) : Element → Prop where
  | removed (remove : dominant.Declares .remove) : LeftOut recessive dominant dominant
  | replaced {lower : Element} (mem : lower ∈ recessive) (parted : ¬ Shares recessive dominant) :
    LeftOut recessive dominant lower
  | dropped {lower child other : Element} (shares : Shares recessive dominant)
      (merges : pairChildrenPolicy recessive dominant = .ok .merge) (mem : lower ∈ recessive)
      (place : .element child ∈ lower.children) (gives : child.Declares .overridableByTag)
      (above : .element other ∈ dominant.children) (tag : other.tag = child.tag) :
    LeftOut recessive dominant child

theorem not_shares_of_settled {settled : Option Element} {lower : Element}
    (hlower : lower ∈ recessive) (h : Opens recessive dominant (.settled settled)) :
    ¬ Shares recessive dominant := by
  intro shares
  cases h with
  | removed remove => exact shares.stays remove
  | replaced _ asked =>
    rcases asked with hoverride | ⟨under, hunder, hoverridable⟩
    · exact shares.above hoverride
    · exact shares.under under hunder hoverridable
  | appended alone =>
    cases alone
    cases hlower

theorem eq_of_countP_eq_one {α : Type} {l : List α} {p : α → Bool} (h : l.countP p = 1) {a b : α}
    (ha : a ∈ l) (hpa : p a) (hb : b ∈ l) (hpb : p b) : a = b := by
  rw [List.countP_eq_length_filter, List.length_eq_one_iff] at h
  obtain ⟨only, honly⟩ := h
  have hamem : a ∈ [only] := honly ▸ List.mem_filter.2 ⟨ha, hpa⟩
  have hbmem : b ∈ [only] := honly ▸ List.mem_filter.2 ⟨hb, hpb⟩
  rw [List.mem_singleton.1 hamem, List.mem_singleton.1 hbmem]

section

variable {below above : Siblings} {kept : List Sibling} {s d : Sibling}

theorem exists_step_of_counterpart (hs : s ∈ kept)
    (hfind : counterpart? kept above.elements s.key = some d) :
    ∃ leading, .merge leading (some s.element) d.element ∈ siblingSteps below above kept := by
  refine ⟨if d.leading.isEmpty then s.leading else d.leading, mem_siblingSteps_of_recessive hs ?_⟩
  rw [Sibling.recessiveSteps, hfind]
  exact List.mem_singleton.2 rfl

theorem step_of_retained (hs : s ∈ kept) :
    .copy (.element s.element) ∈ siblingSteps below above kept ∨
      ∃ leading other,
        .merge leading (some s.element) other ∈ siblingSteps below above kept := by
  cases hfind : counterpart? kept above.elements s.key with
  | none =>
    refine .inl (mem_siblingSteps_of_recessive hs ?_)
    rw [Sibling.recessiveSteps, hfind]
    exact List.mem_append_right _ (List.mem_singleton.2 rfl)
  | some d =>
    obtain ⟨leading, hstep⟩ := exists_step_of_counterpart hs hfind
    exact .inr ⟨leading, d.element, hstep⟩

theorem exists_step_of_dominant (hd : d ∈ above.elements) :
    ∃ leading lower, .merge leading lower d.element ∈ siblingSteps below above kept := by
  cases hfind : counterpart? kept above.elements d.key with
  | none =>
    refine ⟨d.leading, none, mem_siblingSteps_of_dominant hd ?_⟩
    rw [Sibling.dominantSteps, hfind]
    exact List.mem_singleton.2 rfl
  | some other =>
    have hcounts := hfind
    rw [counterpart?] at hcounts
    split at hcounts
    · next hone =>
      -- the key stands once on each side, so what it finds is this sibling
      obtain ⟨s, hs, hkey⟩ := List.countP_pos_iff.1 (hone.1 ▸ Nat.one_pos)
      obtain rfl : other = d := eq_of_countP_eq_one hone.2.1 (counterpart?_mem hfind)
        (decide_eq_true (key_of_counterpart? hfind)) hd (decide_eq_true rfl)
      rw [← of_decide_eq_true hkey] at hfind
      obtain ⟨leading, hstep⟩ := exists_step_of_counterpart hs hfind
      exact ⟨leading, some s.element, hstep⟩
    · cases hcounts

end

section

variable {shell : Element} {steps : List Step}
  (hopen : openPair recessive dominant = .ok (.pending shell steps))

include hopen

theorem exists_step_of_child {child : Element} (hchild : .element child ∈ dominant.children) :
    ∃ leading lower, .merge leading lower child ∈ steps := by
  obtain ⟨policy, -, hplan, -⟩ := plan_of_openPair hopen
  cases policy with
  | merge =>
    obtain ⟨kept, -, rfl⟩ := planMerged_eq_ok hplan
    obtain ⟨d, hd, rfl⟩ := Element.exists_sibling hchild
    exact exists_step_of_dominant hd
  | append =>
    cases hplan
    exact ⟨[], none, List.mem_map.2 ⟨_, hchild, rfl⟩⟩

theorem place_of_recessive_child {lower child : Element} (hlower : lower ∈ recessive)
    (hchild : .element child ∈ lower.children) :
    .element child ∈ shell.children ∨ LeftOut recessive dominant child ∨
      .copy (.element child) ∈ steps ∨
      ∃ leading above, .merge leading (some child) above ∈ steps := by
  obtain ⟨policy, hpolicy, hplan, hstart⟩ := plan_of_openPair hopen
  cases policy with
  | merge =>
    refine .inr ?_
    obtain ⟨kept, hkept, rfl⟩ := planMerged_eq_ok hplan
    obtain ⟨s, hs, rfl⟩ := Siblings.exists_mem_siblingsOf hlower hchild
    by_cases hmem : s ∈ kept
    · exact .inr (step_of_retained hmem)
    · rw [retained_eq_ok hkept, List.mem_filter, not_and] at hmem
      have hdropped := hmem hs
      simp only [decide_eq_true_eq, not_not] at hdropped
      obtain ⟨hgives, d, hd, htag⟩ := hdropped
      exact .inl (.dropped (shares_of_pending (opens_of_openPair hopen)) hpolicy hlower hchild
        hgives (Siblings.element_mem_of_mem hd) htag)
  | append =>
    refine .inl ?_
    cases hlower
    rw [hstart]
    have hmem := Element.mem_elements_iff.2 hchild
    rw [Element.elements, ← filterMap_element?_withoutTrailingLayout] at hmem
    exact Element.mem_of_mem_elements (e := ⟨"", .empty, withoutTrailingLayout lower.children⟩) hmem

end

/-- The element stands in one that a merge leaves out as a whole. -/
def Gone (recessive : Option Element) (dominant x : Element) : Prop :=
  ∃ lower above a, Lays recessive dominant lower above ∧ LeftOut lower above a ∧ x.Within a

theorem Gone.child {lower : Option Element} {above shell : Element} {steps : List Step}
    {leading : List Node} (hopen : openPair recessive dominant = .ok (.pending shell steps))
    (hstep : .merge leading lower above ∈ steps) (h : Gone lower above x) :
    Gone recessive dominant x := by
  obtain ⟨lower', above', a, hlays, hleft, hx⟩ := h
  exact ⟨lower', above', a, .child hopen hstep hlays, hleft, hx⟩

/-- An element of the dominant tree is laid over something, is gone, or stands below the result. -/
theorem accounted_above (hx : x.Within dominant) (h : merge recessive dominant = .ok result) :
    (∃ lower, Lays recessive dominant lower x) ∨ Gone recessive dominant x ∨
      ∃ e ∈ result, x.Below e := by
  induction hsize : sizeOf dominant using Nat.strongRecOn
    generalizing recessive dominant result with
  | ind size ih =>
    rcases hx.eq_or_below with rfl | hbelow
    · exact .inl ⟨recessive, .pair⟩
    rcases settled_or_pending_of_merge h with hopen | ⟨shell, steps, nodes, hopen, hnodes, rfl⟩
    · cases opens_of_openPair hopen with
      | removed remove => exact .inr (.inl ⟨_, _, _, .pair, .removed remove, hx⟩)
      | replaced => exact .inr (.inr ⟨_, rfl, hbelow⟩)
      | appended => exact .inr (.inr ⟨_, rfl, hbelow⟩)
    · obtain ⟨child, hchild, hwithin⟩ := hbelow
      obtain ⟨leading, lower, hstep⟩ := exists_step_of_child hopen hchild
      obtain ⟨part, hpart, hmem⟩ := child_of_step hnodes hstep
      have hsmaller := hsize ▸ Element.sizeOf_child_lt hchild
      rcases ih _ hsmaller hwithin hpart rfl with ⟨under, hlays⟩ | hgone | ⟨e, he, hxe⟩
      · exact .inl ⟨under, .child hopen hstep hlays⟩
      · exact .inr (.inl (hgone.child hopen hstep))
      · exact .inr (.inr ⟨_, rfl, e, List.mem_append_right _ (hmem e he), hxe.within⟩)

/-- An element of the recessive tree has something laid over it, is gone, or stands below the
result. -/
theorem accounted_under {lower : Element} (hlower : lower ∈ recessive) (hx : x.Within lower)
    (h : merge recessive dominant = .ok result) :
    (∃ above, Lays recessive dominant (some x) above) ∨ Gone recessive dominant x ∨
      ∃ e ∈ result, x.Below e := by
  induction hsize : sizeOf dominant using Nat.strongRecOn
    generalizing recessive dominant result lower with
  | ind size ih =>
    rcases hx.eq_or_below with rfl | hbelow
    · cases hlower
      exact .inl ⟨dominant, .pair⟩
    rcases settled_or_pending_of_merge h with hopen | ⟨shell, steps, nodes, hopen, hnodes, rfl⟩
    · have hparted := not_shares_of_settled hlower (opens_of_openPair hopen)
      exact .inr (.inl ⟨_, _, _, .pair, .replaced hlower hparted, hx⟩)
    · obtain ⟨child, hchild, hwithin⟩ := hbelow
      rcases place_of_recessive_child hopen hlower hchild with
        hstart | hleft | hcopy | ⟨leading, above, hstep⟩
      · exact .inr (.inr ⟨_, rfl, child, List.mem_append_left _ hstart, hwithin⟩)
      · exact .inr (.inl ⟨_, _, _, .pair, hleft, hwithin⟩)
      · have hmem : .element child ∈ nodes :=
          (mem_collect_iff hnodes).2 ⟨_, hcopy, _, rfl, List.mem_singleton.2 rfl⟩
        exact .inr (.inr ⟨_, rfl, child, List.mem_append_right _ hmem, hwithin⟩)
      · obtain ⟨part, hpart, hmem⟩ := child_of_step hnodes hstep
        have hsmaller := hsize ▸ Element.sizeOf_child_lt (child_of_openPair hopen hstep)
        rcases ih _ hsmaller rfl hwithin hpart rfl with ⟨above', hlays⟩ | hgone | ⟨e, he, hxe⟩
        · exact .inl ⟨above', .child hopen hstep hlays⟩
        · exact .inr (.inl (hgone.child hopen hstep))
        · exact .inr (.inr ⟨_, rfl, e, List.mem_append_right _ (hmem e he), hxe.within⟩)

theorem Lays.result_within {lower : Option Element} {above e : Element}
    (hlays : Lays recessive dominant lower above) (h : merge recessive dominant = .ok result)
    (he : merge lower above = .ok (some e)) : ∃ root ∈ result, e.Within root := by
  induction hlays generalizing result with
  | pair =>
    cases h.symm.trans he
    exact ⟨e, rfl, .here⟩
  | child opened step _ ih =>
    rcases settled_or_pending_of_merge h with hopen | ⟨shell, steps, nodes, hopen, hnodes, rfl⟩
    · cases opened.symm.trans hopen
    · cases opened.symm.trans hopen
      obtain ⟨part, hpart, hmem⟩ := child_of_step hnodes step
      obtain ⟨root, hroot, hwithin⟩ := ih hpart he
      exact ⟨_, rfl, .child (List.mem_append_right _ (hmem root hroot)) hwithin⟩

/-- An element below the root is gone with a skeleton, or stays, and then its policy is read. -/
theorem accounted_of_sweep {e : Element} (hx : x.Below e) :
    (∃ a, e.Sweeps a ∧ a.Declares .defaults ∧ x.Within a) ∨
      e.Sweeps x ∧ x.swept.Below e.swept := by
  induction hsize : sizeOf e using Nat.strongRecOn generalizing e with
  | ind size ih =>
    obtain ⟨child, hchild, hwithin⟩ := hx
    by_cases hskeleton : child.Declares .defaults
    · exact .inl ⟨child, .child hchild, hskeleton, hwithin⟩
    have hstays : .element child.swept ∈ e.swept.children := by
      rw [← Element.mem_elements_iff, e.elements_swept]
      refine List.mem_map.2 ⟨child, List.mem_filter.2 ⟨Element.mem_elements_iff.2 hchild, ?_⟩, rfl⟩
      rw [Element.isSkeleton_eq_false_iff.2 hskeleton]
      rfl
    rcases hwithin.eq_or_below with rfl | hbelow
    · exact .inr ⟨.child hchild, x.swept, hstays, .here⟩
    · rcases ih _ (hsize ▸ Element.sizeOf_child_lt hchild) hbelow rfl with
        ⟨a, ha, hdefaults, hxa⟩ | ⟨hread, hswept⟩
      · exact .inl ⟨a, .deeper hchild hskeleton ha, hdefaults, hxa⟩
      · exact .inr ⟨.deeper hchild hskeleton hread, child.swept, hstays, hswept.within⟩

variable {layers : List Element}

/-- In a run of these layers, this layer is merged with what those before it have made. -/
def MergedIn (layers : List Element) (under layer : Element) : Prop :=
  ∃ before after run, layers = before ++ layer :: after ∧
    Layers.empty.pushAll before = .ok run ∧ run.merged = some under

/-- In a run of these layers, the second element is laid over the first one, or over nothing. -/
def LaidIn (layers : List Element) (lower : Option Element) (above : Element) : Prop :=
  ∃ under layer, MergedIn layers under layer ∧ Lays (some under) layer lower above

def SweptIn (layers : List Element) (x : Element) : Prop :=
  ∃ run root, Layers.empty.pushAll layers = .ok run ∧ run.merged = some root ∧ root.Sweeps x

inductive DiscardedIn (layers : List Element) : Element → Prop where
  | merging {lower : Option Element} {above a : Element} (laid : LaidIn layers lower above)
      (left : LeftOut lower above a) : DiscardedIn layers a
  | sweeping {a : Element} (swept : SweptIn layers a) (skeleton : a.Declares .defaults) :
    DiscardedIn layers a

/-- In a run of these layers, the element stands in one that is left out as a whole. -/
def GoneIn (layers : List Element) (x : Element) : Prop := ∃ a, DiscardedIn layers a ∧ x.Within a

theorem Gone.goneIn {under layer : Element} (h : Gone (some under) layer x)
    (hmerged : MergedIn layers under layer) : GoneIn layers x := by
  obtain ⟨lower, above, a, hlays, hleft, hx⟩ := h
  exact ⟨a, .merging ⟨under, layer, hmerged, hlays⟩ hleft, hx⟩

theorem accounted_of_made {made rest : List Element} {middle run : Layers} {root : Element}
    (hmade : Layers.empty.pushAll made = .ok middle) (hroot : middle.merged = some root)
    (hx : x.Within root) (hrun : middle.pushAll rest = .ok run) :
    (∃ above, LaidIn (made ++ rest) (some x) above) ∨ GoneIn (made ++ rest) x ∨
      ∃ last, run.merged = some last ∧ (x.Below last ∨ rest = [] ∧ last = root) := by
  induction rest generalizing made middle root with
  | nil =>
    cases hrun
    exact .inr (.inr ⟨root, hroot, .inr ⟨rfl, rfl⟩⟩)
  | cons layer rest ih =>
    obtain ⟨next, hnext, hothers⟩ := Layers.pushAll_cons_eq_ok hrun
    rcases Layers.push_eq_ok hnext with ⟨hnone, -⟩ | ⟨under, merged, hunder, hmerge, hmerged⟩
    · cases hroot.symm.trans hnone
    · cases hroot.symm.trans hunder
      have hin : MergedIn (made ++ layer :: rest) root layer :=
        ⟨made, rest, middle, rfl, hmade, hroot⟩
      rcases accounted_under rfl hx hmerge with ⟨above, hlays⟩ | hgone | ⟨e, he, hbelow⟩
      · exact .inl ⟨above, root, layer, hin, hlays⟩
      · exact .inr (.inl (hgone.goneIn hin))
      · cases he
        have hlater := ih (Layers.pushAll_snoc hmade hnext) hmerged hbelow.within hothers
        rw [← List.append_cons] at hlater
        rcases hlater with hlaid | hgone | ⟨last, hlast, hend | ⟨-, rfl⟩⟩
        · exact .inl hlaid
        · exact .inr (.inl hgone)
        · exact .inr (.inr ⟨last, hlast, .inl hend⟩)
        · exact .inr (.inr ⟨_, hlast, .inl hbelow⟩)

/-- What becomes of an element of a layer in a run. -/
inductive AccountedIn (layers : List Element) (run : Layers) (x : Element) : Prop where
  | laid {lower : Option Element} (h : LaidIn layers lower x)
  | overlaid {above : Element} (h : LaidIn layers (some x) above)
  | gone (h : GoneIn layers x)
  | stands {root : Element} (merged : run.merged = some root) (h : x.Below root)
  | only (h : layers = [x])

/-- Every element of every layer is accounted for. -/
theorem accounted_of_layer {run : Layers} {layer : Element} (hlayer : layer ∈ layers)
    (hx : x.Within layer) (hrun : Layers.empty.pushAll layers = .ok run) :
    AccountedIn layers run x := by
  obtain ⟨before, after, rfl⟩ := List.append_of_mem hlayer
  obtain ⟨middle, hmiddle, hothers⟩ := Layers.pushAll_append_eq_ok hrun
  obtain ⟨next, hnext, hrest⟩ := Layers.pushAll_cons_eq_ok hothers
  have hmade := Layers.pushAll_snoc hmiddle hnext
  rw [List.append_cons]
  rcases Layers.push_eq_ok hnext with ⟨hnone, hfirst⟩ | ⟨under, merged, hunder, hmerge, hmerged⟩
  · obtain rfl : before = [] := by
      by_contra hne
      exact Layers.merged_ne_none_of_pushAll hne hmiddle hnone
    rcases accounted_of_made hmade hfirst hx hrest with ⟨above, hlaid⟩ | hgone |
      ⟨last, hlast, hbelow | ⟨rfl, rfl⟩⟩
    · exact .overlaid hlaid
    · exact .gone hgone
    · exact .stands hlast hbelow
    · rcases hx.eq_or_below with rfl | hbelow
      · exact .only rfl
      · exact .stands hlast hbelow
  · have hin : MergedIn (before ++ [layer] ++ after) under layer :=
      ⟨before, after, middle, by rw [← List.append_cons], hmiddle, hunder⟩
    rcases accounted_above hx hmerge with ⟨lower, hlays⟩ | hgone | ⟨e, he, hbelow⟩
    · exact .laid ⟨under, layer, hin, hlays⟩
    · exact .gone (hgone.goneIn hin)
    · cases he
      rcases accounted_of_made hmade hmerged hbelow.within hrest with ⟨above, hlaid⟩ | hgone |
        ⟨last, hlast, hend | ⟨-, rfl⟩⟩
      · exact .overlaid hlaid
      · exact .gone hgone
      · exact .stands hlast hend
      · exact .stands hlast hbelow

/-- What comes of a pair in a run has something laid over it in its turn, is gone with something, or
stands in the tree before the sweep. -/
theorem accounted_of_laid {run : Layers} {lower : Option Element} {above : Element}
    (hlaid : LaidIn layers lower above) (hrun : Layers.empty.pushAll layers = .ok run)
    (h : merge lower above = .ok (some x)) :
    (∃ upper, LaidIn layers (some x) upper) ∨ GoneIn layers x ∨
      ∃ last, run.merged = some last ∧ x.Within last := by
  obtain ⟨under, layer, ⟨before, after, middle, rfl, hmiddle, hunder⟩, hlays⟩ := hlaid
  obtain ⟨middle', hmiddle', hothers⟩ := Layers.pushAll_append_eq_ok hrun
  cases hmiddle.symm.trans hmiddle'
  obtain ⟨next, hnext, hrest⟩ := Layers.pushAll_cons_eq_ok hothers
  rcases Layers.push_eq_ok hnext with ⟨hnone, -⟩ | ⟨under', merged, hunder', hmerge, hmerged⟩
  · cases hunder.symm.trans hnone
  · cases hunder.symm.trans hunder'
    obtain ⟨root, hroot, hwithin⟩ := hlays.result_within hmerge h
    cases hroot
    rw [List.append_cons]
    rcases accounted_of_made (Layers.pushAll_snoc hmiddle hnext) hmerged hwithin hrest with
      hlaid | hgone | ⟨last, hlast, hbelow | ⟨-, rfl⟩⟩
    · exact .inl hlaid
    · exact .inr (.inl hgone)
    · exact .inr (.inr ⟨last, hlast, hbelow.within⟩)
    · exact .inr (.inr ⟨_, hlast, hwithin⟩)

end ConfigOverlay
