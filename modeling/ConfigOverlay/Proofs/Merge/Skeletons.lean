import ConfigOverlay.Proofs.Merge.Accounted
import ConfigOverlay.Proofs.Merge.Sweep
import Mathlib.Data.List.DropRight

/-!
What the last sweep takes out of a tree. A list of children can be cut at any place: if what comes
after the cut leads to a skeleton, the layout right before the cut goes too. Below the root of what
is left every own policy is recognised and there is no skeleton, so a second sweep finds nothing.
-/

set_option autoImplicit false

namespace ConfigOverlay

theorem leadsToSkeleton_cons_of_isLayout {node : Node} (h : node.isLayout) (rest : List Node) :
    leadsToSkeleton (node :: rest) = leadsToSkeleton rest := by
  cases node with
  | element e => cases h
  | text content => simp [leadsToSkeleton, h]
  | comment content => rfl

theorem leadsToSkeleton_cons_of_not_isLayout {node : Node} (h : ¬ node.isLayout)
    (rest : List Node) : leadsToSkeleton (node :: rest) = leadsToSkeleton [node] := by
  cases node with
  | element e => rfl
  | text content => simp [leadsToSkeleton, h]
  | comment content => exact absurd rfl h

namespace Node

theorem sweptList_cons_of_isLayout {node : Node} (h : node.isLayout) (rest : List Node) :
    sweptList (node :: rest) =
      if leadsToSkeleton rest then sweptList rest else node :: sweptList rest := by
  cases node with
  | element e => cases h
  | text content => rw [sweptList, h, Bool.true_and]
  | comment content => rw [sweptList]

theorem sweptList_cons_of_not_isLayout {node : Node} (h : ¬ node.isLayout) (rest : List Node) :
    sweptList (node :: rest) = sweptList [node] ++ sweptList rest := by
  cases node with
  | element e => cases hskeleton : e.isSkeleton <;> simp [sweptList, hskeleton]
  | text content => simp [sweptList, h]
  | comment content => exact absurd rfl h

/-- If what comes after a cut leads to a skeleton, the layout right before the cut goes with it. All
else that becomes of the two parts does not depend on each other. -/
theorem sweptList_append (before after : List Node) :
    sweptList (before ++ after) =
      sweptList (if leadsToSkeleton after then before.rdropWhile isLayout else before) ++
        sweptList after := by
  induction before using List.reverseRecOn generalizing after with
  | nil => simp [sweptList]
  | append_singleton before node ih =>
    rw [List.append_assoc, List.singleton_append, ih]
    by_cases hlayout : node.isLayout
    · rw [leadsToSkeleton_cons_of_isLayout hlayout, sweptList_cons_of_isLayout hlayout,
        List.rdropWhile_concat_pos _ _ _ hlayout]
      by_cases hleads : leadsToSkeleton after
      · simp [hleads]
      · have hlast : sweptList (before ++ [node]) = sweptList before ++ [node] := by
          rw [ih, leadsToSkeleton_cons_of_isLayout hlayout, sweptList_cons_of_isLayout hlayout]
          rfl
        simp [hleads, hlast]
    · rw [leadsToSkeleton_cons_of_not_isLayout hlayout, sweptList_cons_of_not_isLayout hlayout,
        List.rdropWhile_concat_neg _ _ _ hlayout, ite_self, ih [node], List.append_assoc]

/-- What clearing a list of children means. Skeletons go, each with the layout directly before it;
other elements stay and are cleared in their turn, and content and other layout stay. -/
structure ClearsSkeletons (clear : List Node → List Node) : Prop where
  skeleton : ∀ before (s : Element) after, s.Declares .defaults →
    clear (before ++ .element s :: after) = clear (before.rdropWhile isLayout) ++ clear after
  element : ∀ before (e : Element) after, ¬ e.Declares .defaults →
    clear (before ++ .element e :: after) =
      clear before ++ .element ⟨e.tag, e.attrs, clear e.children⟩ :: clear after
  content : ∀ before node after, node.isContent →
    clear (before ++ node :: after) = clear before ++ node :: clear after
  layout : ∀ nodes, (∀ node ∈ nodes, node.isLayout) → clear nodes = nodes

theorem clearsSkeletons_sweptList : ClearsSkeletons sweptList where
  skeleton before s after hs := by
    have hskeleton : s.isSkeleton := by simpa [Element.isSkeleton] using hs
    rw [sweptList_append, sweptList, leadsToSkeleton, if_pos hskeleton, if_pos hskeleton]
  element before e after he := by
    have hstays := Element.isSkeleton_eq_false_iff.2 he
    rw [sweptList_append, sweptList, leadsToSkeleton, hstays, e.swept_eq]
    rfl
  content before node after hcontent := by
    cases node with
    | element e => cases hcontent
    | text content =>
      have hlayout : (text content).isLayout = false := by simpa [isContent, isText] using hcontent
      simp [sweptList_append, sweptList, leadsToSkeleton, hlayout]
    | comment content => cases hcontent
  layout nodes h := sweptList_eq_self nodes fun child hchild => by cases h _ hchild

/-- Two ways of clearing do the same to a list with layout before it. -/
theorem ClearsSkeletons.eq {clear clear' : List Node → List Node} (h : ClearsSkeletons clear)
    (h' : ClearsSkeletons clear') (run : List Node) (hrun : ∀ node ∈ run, node.isLayout) :
    (nodes : List Node) → clear (run ++ nodes) = clear' (run ++ nodes)
  | [] => by rw [List.append_nil, h.layout run hrun, h'.layout run hrun]
  | .element ⟨tag, attrs, children⟩ :: rest => by
    have hrest := ClearsSkeletons.eq h h' [] (by simp) rest
    have hbelow := ClearsSkeletons.eq h h' [] (by simp) children
    simp only [List.nil_append] at hrest hbelow
    by_cases hskeleton : Element.Declares ⟨tag, attrs, children⟩ .defaults
    · have hgone : run.rdropWhile isLayout = [] := List.rdropWhile_eq_nil_iff.2 hrun
      rw [h.skeleton _ _ _ hskeleton, h'.skeleton _ _ _ hskeleton, hgone, hrest,
        h.layout [] (by simp), h'.layout [] (by simp)]
    · rw [h.element _ _ _ hskeleton, h'.element _ _ _ hskeleton, hrest, hbelow, h.layout run hrun,
        h'.layout run hrun]
  | .text content :: rest => by
    by_cases hlayout : (text content).isLayout
    · have hmore := ClearsSkeletons.eq h h' (run ++ [.text content])
        (by simpa [or_imp, forall_and, hlayout] using hrun) rest
      simpa using hmore
    · have hcontent : (text content).isContent := by simpa [isContent, isText] using hlayout
      have hrest := ClearsSkeletons.eq h h' [] (by simp) rest
      simp only [List.nil_append] at hrest
      rw [h.content _ _ _ hcontent, h'.content _ _ _ hcontent, hrest, h.layout run hrun,
        h'.layout run hrun]
  | .comment content :: rest => by
    have hmore := ClearsSkeletons.eq h h' (run ++ [.comment content])
      (by simpa [or_imp, forall_and, isLayout] using hrun) rest
    simpa using hmore

theorem clearsSkeletons_iff {clear : List Node → List Node} :
    ClearsSkeletons clear ↔ clear = sweptList := by
  constructor
  · exact fun h => funext fun nodes => h.eq clearsSkeletons_sweptList [] (by simp) nodes
  · rintro rfl
    exact clearsSkeletons_sweptList

end Node

theorem Element.sweepFault?_of_mem {e child : Element} (h : e.sweepFault? = none)
    (hchild : .element child ∈ e.children) :
    child.selfFault? = none ∧ (child.isSkeleton = false → child.sweepFault? = none) := by
  rw [e.sweepFault?_eq, Option.or_eq_none_iff] at h
  refine ⟨List.findSome?_eq_none_iff.1 h.1 _ hchild, fun hstays => ?_⟩
  exact Node.sweepFault?_of_mem h.2 hchild (isSkeleton_eq_false_iff.1 hstays)

theorem Element.stays_swept (e : Element) : e.swept.Stays ↔ e.Stays := by
  have hpolicy : e.swept.selfPolicy = e.selfPolicy := by
    simp only [e.swept_eq, selfPolicy, declared]
  rw [stays_iff, stays_iff, hpolicy]

theorem Element.allStay_swept {e : Element} (h : e.sweepFault? = none) :
    Node.AllStay e.swept.children := by
  induction hsize : sizeOf e using Nat.strongRecOn generalizing e with
  | ind size ih =>
    intro child hchild
    rw [e.swept_eq] at hchild
    obtain ⟨original, hmem, hstays, rfl⟩ := Node.mem_of_mem_sweptList hchild
    obtain ⟨hself, hbelow⟩ := Element.sweepFault?_of_mem h hmem
    exact .mk (original.stays_swept.2 ⟨hself, hstays⟩)
      (ih _ (hsize ▸ sizeOf_child_lt hmem) (hbelow hstays) rfl)

theorem Element.sweepFault?_eq_none_iff {e : Element} :
    e.sweepFault? = none ↔ ∀ x, e.Sweeps x → ∃ policy, x.selfPolicy = .ok policy := by
  constructor
  · intro h x hx
    cases hpolicy : x.selfPolicy with
    | error fault => exact absurd (selfPolicy_eq_error_iff.1 hpolicy) (hx.not_causes h)
    | ok policy => exact ⟨policy, rfl⟩
  · intro h
    cases hfault : e.sweepFault? with
    | none => rfl
    | some fault =>
      obtain ⟨x, hx, hcause⟩ := exists_sweeps_of_sweepFault? hfault
      obtain ⟨policy, hpolicy⟩ := h x hx
      cases hpolicy.symm.trans (selfPolicy_eq_error_iff.2 hcause)

theorem Element.exists_sweep_iff {e : Element} :
    (∃ tree, e.sweep = .ok tree) ↔ ∀ x, e.Sweeps x → ∃ policy, x.selfPolicy = .ok policy := by
  rw [← sweepFault?_eq_none_iff, e.sweep_eq]
  cases e.sweepFault? <;> simp

theorem Element.below_of_sweeps {e x : Element} (h : e.Sweeps x) : x.Below e := by
  cases h with
  | child place => exact ⟨x, place, .here⟩
  | deeper place _ h => exact ⟨_, place, h.within⟩

theorem Element.allStay_of_no_skeleton {e : Element} (hfault : e.sweepFault? = none)
    (h : ∀ x : Element, x.Below e → ¬ x.Declares .defaults) : Node.AllStay e.children := by
  intro child hchild
  refine throughout_iff.2 fun x hx => ?_
  have hbelow : x.Below e := ⟨child, hchild, hx⟩
  rcases accounted_of_sweep hbelow with ⟨a, ha, hskeleton, -⟩ | ⟨hread, -⟩
  · exact absurd hskeleton (h a (below_of_sweeps ha))
  · refine ⟨Option.eq_none_iff_forall_ne_some.2 fun fault hself => ?_,
      isSkeleton_eq_false_iff.2 (h x hbelow)⟩
    exact hread.not_causes hfault (selfFault?_eq_some_iff.1 hself)

/-- A state with a tree ends well if every own policy that its sweep reads is recognised: that of
each element below the root but not below a skeleton there. Then the children of the root have been
cleared, in the one way there is, and no skeleton is left below it. A second sweep changes nothing,
nor does a first one where there is no skeleton below the root. -/
theorem finish_removes_skeletons {layers : Layers} {root : Element}
    (hroot : layers.merged = some root) :
    layers.finish = mergeLayers [root] ∧
    ((∃ tree, layers.finish = .ok tree) ↔
      ∀ x, root.Sweeps x → ∃ policy, x.selfPolicy = .ok policy) ∧
    (∀ clear, Node.ClearsSkeletons clear ↔ clear = Node.sweptList) ∧
    ∀ tree, layers.finish = .ok tree →
      tree = ⟨root.tag, root.attrs, Node.sweptList root.children⟩ ∧
      (∀ x : Element, x.Below tree → ¬ x.Declares .defaults) ∧
      mergeLayers [tree] = .ok tree ∧
      ((∀ x : Element, x.Below root → ¬ x.Declares .defaults) → tree = root) := by
  have hfinish : layers.finish = root.sweep := by simp only [Layers.finish, hroot]
  refine ⟨hfinish, by rw [hfinish, Element.exists_sweep_iff], fun _ => Node.clearsSkeletons_iff,
    fun tree htree => ?_⟩
  rw [hfinish] at htree
  obtain rfl := Element.eq_swept_of_sweep htree
  have hfault : root.sweepFault? = none := by
    cases hfault : root.sweepFault? with
    | none => rfl
    | some fault => cases htree.symm.trans (Element.sweep_eq_error_iff.2 hfault)
  have hstay := Element.allStay_swept hfault
  refine ⟨root.swept_eq, ?_, Element.sweep_eq_self hstay, fun hnone =>
    Element.swept_eq_self root (Element.allStay_of_no_skeleton hfault hnone)⟩
  rintro x ⟨child, hchild, hx⟩
  exact Element.isSkeleton_eq_false_iff.1 (Element.throughout_iff.1 (hstay child hchild) x hx).2

def leftovers : Element :=
  ⟨"config", ⟨[("combine.self", "DEFAULTS")]⟩, [
    .text "\n", .comment "defaults", .text "\n",
    .element ⟨"pool", ⟨[("combine.self", "DEFAULTS")]⟩, [
      .element ⟨"entry", ⟨[("combine.self", "remve")]⟩, []⟩]⟩,
    .text "\n", .comment "unused",
    .element ⟨"queue", ⟨[("combine.self", " defaults ")]⟩, []⟩,
    .text "x", .text " ",
    .element ⟨"site", .empty, [
      .text "\n", .element ⟨"cache", ⟨[("combine.self", "DEFAULTS")]⟩, []⟩, .comment "end"]⟩]⟩

def leftoversRemoved : Element :=
  ⟨"config", ⟨[("combine.self", "DEFAULTS")]⟩, [
    .text "x", .text " ", .element ⟨"site", .empty, [.comment "end"]⟩]⟩

theorem finish_removes_skeletons_leftovers :
    Layers.finish ⟨some leftovers, 3⟩ = .ok leftoversRemoved ∧
    (∀ x, leftovers.Sweeps x → ∃ policy, x.selfPolicy = .ok policy) ∧
    (∀ x : Element, x.Below leftoversRemoved → ¬ x.Declares .defaults) ∧
    mergeLayers [leftoversRemoved] = .ok leftoversRemoved := by
  obtain ⟨-, hread, -, htree⟩ := @finish_removes_skeletons ⟨some leftovers, 3⟩ leftovers rfl
  have hfinish : Layers.finish ⟨some leftovers, 3⟩ = .ok leftoversRemoved := by decide +kernel
  obtain ⟨-, hnone, hagain, -⟩ := htree _ hfinish
  exact ⟨hfinish, hread.1 ⟨_, hfinish⟩, hnone, hagain⟩

end ConfigOverlay
