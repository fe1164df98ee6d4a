import ConfigOverlay.Proofs.Merge.Followed
import ConfigOverlay.Proofs.Merge.Sweep

set_option autoImplicit false

namespace ConfigOverlay

variable {key : Key} {recessive : Option Element} {dominant : Element}

namespace Element

variable {e : Element}

/-- No two children have the same tag and the same id. Children without id are not looked at. -/
def IdsDiffer (e : Element) : Prop :=
  ((e.elements.map Element.key).filter (·.id ≠ none)).Nodup

instance : DecidablePred IdsDiffer := fun e =>
  inferInstanceAs (Decidable ((e.elements.map Element.key).filter (·.id ≠ none)).Nodup)

/-- What makes siblings stay apart in the tree below: attributes with unique names, among them the
id and the policies, and children that are merged. -/
structure Distinguished (e : Element) : Prop where
  unique : e.attrs.Unique
  merges : e.childrenPolicy ≠ .ok (some .append)
  idsDiffer : e.IdsDiffer

instance : DecidablePred Distinguished := fun e =>
  decidable_of_iff (e.attrs.Unique ∧ e.childrenPolicy ≠ .ok (some .append) ∧ e.IdsDiffer)
    ⟨fun h => ⟨h.1, h.2.1, h.2.2⟩, fun h => ⟨h.unique, h.merges, h.idsDiffer⟩⟩

theorem idsDiffer_iff :
    e.IdsDiffer ↔ ∀ key : Key, key.id ≠ none → ∃ child, e.Holds key child := by
  have hcount (key : Key) (hid : key.id ≠ none) :
      ((e.elements.map Element.key).filter (·.id ≠ none)).count key =
        e.elements.countP (·.key = key) := by
    rw [List.count_filter (by simpa using hid), List.count, List.countP_map]
    rfl
  rw [IdsDiffer, List.nodup_iff_count_le_one]
  constructor
  · intro h key hid
    rw [exists_holds_iff, ← hcount key hid]
    exact h key
  · intro h key
    by_cases hid : key.id ≠ none
    · rw [hcount key hid, ← exists_holds_iff]
      exact h key hid
    · have hnot : key ∉ (e.elements.map Element.key).filter (·.id ≠ none) := fun hmem =>
        hid (of_decide_eq_true (List.mem_filter.1 hmem).2)
      rw [List.count_eq_zero_of_not_mem hnot]
      exact Nat.zero_le 1

theorem IdsDiffer.swept (h : e.IdsDiffer) : e.swept.IdsDiffer := by
  have hkeys : e.swept.elements.map Element.key =
      (e.elements.filter fun x => !x.isSkeleton).map Element.key := by
    rw [e.elements_swept, List.map_map]
    exact List.map_congr_left fun x _ => x.key_swept
  rw [IdsDiffer, hkeys]
  exact h.sublist ((List.filter_sublist.map Element.key).filter _)

end Element

theorem pairChildrenPolicy_eq_merge {policy : ChildrenPolicy}
    (hbelow : ∀ lower ∈ recessive, lower.childrenPolicy ≠ .ok (some .append))
    (habove : dominant.childrenPolicy ≠ .ok (some .append))
    (h : pairChildrenPolicy recessive dominant = .ok policy) : policy = .merge := by
  rw [pairChildrenPolicy] at h
  split at h
  · simp at h
  · next policy' hpolicy =>
    cases h
    cases policy with
    | merge => rfl
    | append => exact absurd hpolicy habove
  · cases recessive with
    | none =>
      cases h
      rfl
    | some lower =>
      have hlower := hbelow lower rfl
      rw [declaredBy] at h
      cases hpolicy : lower.childrenPolicy with
      | error e => simp [hpolicy] at h
      | ok declared =>
        simp only [hpolicy, Except.ok.injEq] at h
        subst h
        cases declared with
        | none => rfl
        | some policy =>
          cases policy with
          | merge => rfl
          | append => exact absurd hpolicy hlower

/-- Where neither side repeats a key that has an id, what comes of them has at most one child of
it. -/
theorem exists_ofKey_of_siblingSteps {kept : List Sibling} {nodes : List Node} (hid : key.id ≠ none)
    (hbelow : ∀ lower ∈ recessive, lower.IdsDiffer) (habove : dominant.IdsDiffer)
    (hunique : ∀ d ∈ dominant.siblings.elements, d.element.attrs.Unique)
    (hkept : retained dominant.siblings.elements (siblingsOf recessive).elements = .ok kept)
    (hnodes : collect (Step.run merge)
      (siblingSteps (siblingsOf recessive) dominant.siblings kept) = .ok nodes) :
    ∃ child : Option Element, Node.ofKey key nodes = child.toList := by
  obtain ⟨s, hs⟩ : ∃ s : Option Sibling, kept.filter (·.key = key) = s.toList := by
    cases recessive with
    | none =>
      cases hkept
      exact ⟨none, rfl⟩
    | some lower =>
      obtain ⟨child, hchild⟩ := Element.idsDiffer_iff.1 (hbelow lower rfl) key hid
      obtain ⟨s, hs, -⟩ := hchild.retained hkept
      exact ⟨s, hs⟩
  obtain ⟨upper, hupper⟩ := Element.idsDiffer_iff.1 habove key hid
  obtain ⟨d, hd, -⟩ := hupper.siblings
  have hpair := ofKey_of_pair hid (grouped_siblingsOf recessive)
    (Siblings.grouped_ofNodes dominant.children) hunique
    (fun s hs => mem_of_mem_retained hkept hs) hs hd hnodes
  cases d with
  | none => exact ⟨_, hpair⟩
  | some d =>
    obtain ⟨child, -, hchild⟩ := hpair
    exact ⟨child, hchild⟩

theorem distinguished_of_merge {e : Element}
    (hbelow : ∀ lower ∈ recessive, lower.Throughout Element.Distinguished)
    (habove : dominant.Throughout Element.Distinguished)
    (h : merge recessive dominant = .ok (some e)) : e.Distinguished := by
  have hunique := unique_of_merge habove.here.unique h
  rcases settled_or_pending_of_merge h with hopen | ⟨shell, steps, nodes, hopen, hnodes, heq⟩
  · cases opens_of_openPair hopen with
    | replaced =>
      refine ⟨hunique, ?_, habove.here.idsDiffer⟩
      rw [Element.childrenPolicy_withoutSelfPolicy]
      exact habove.here.merges
    | appended => exact habove.here
  · obtain ⟨policy, hpolicy, hplan, hstart⟩ := plan_of_openPair hopen
    cases pairChildrenPolicy_eq_merge (fun lower hlower => (hbelow lower hlower).here.merges)
      habove.here.merges hpolicy
    obtain ⟨kept, hkept, rfl⟩ := planMerged_eq_ok hplan
    cases heq
    refine ⟨hunique, ?_, Element.idsDiffer_iff.2 fun key hid => ?_⟩
    · cases opens_of_openPair hopen with
      | merged =>
        rw [ne_eq, Element.childrenPolicy_eq_ok_iff, get?_mergedAttributes_eq_or (by decide)
          (fun lower hlower => (hbelow lower hlower).here.unique) habove.here.unique]
        rintro ⟨value, hvalue, happend⟩
        rcases Option.or_eq_some_iff.1 hvalue with hdominant | ⟨-, hrecessive⟩
        · exact habove.here.merges (Element.childrenPolicy_eq_ok_iff.2 ⟨value, hdominant, happend⟩)
        · obtain ⟨lower, hlower, hget⟩ := Option.bind_eq_some_iff.1 hrecessive
          exact (hbelow lower hlower).here.merges
            (Element.childrenPolicy_eq_ok_iff.2 ⟨value, hget, happend⟩)
    · obtain ⟨child, hchild⟩ := exists_ofKey_of_siblingSteps hid
        (fun lower hlower => (hbelow lower hlower).here.idsDiffer) habove.here.idsDiffer
        (fun d hd => (habove.child (Siblings.element_mem_of_mem hd)).here.unique) hkept hnodes
      refine ⟨child, ?_⟩
      rw [Element.Holds, hstart]
      exact hchild

namespace Layers

variable {layers : Layers} {rest : List Element}

/-- Adds each layer. One that fails leaves everything as it was. -/
def pushEach (layers : Layers) : List Element → Layers
  | [] => layers
  | layer :: rest =>
    match layers.push layer with
    | .error _ => layers.pushEach rest
    | .ok next => next.pushEach rest

theorem pushEach_of_pushAll {run : Layers} (h : layers.pushAll rest = .ok run) :
    layers.pushEach rest = run := by
  induction rest generalizing layers with
  | nil =>
    cases h
    rfl
  | cons layer rest ih =>
    obtain ⟨next, hnext, hothers⟩ := pushAll_cons_eq_ok h
    rw [pushEach, hnext]
    exact ih hothers

section

variable {p : Element → Prop}
  (hmerged : ∀ {recessive : Option Element} {dominant e : Element},
    (∀ lower ∈ recessive, lower.Throughout p) → dominant.Throughout p →
    merge recessive dominant = .ok (some e) → p e)

include hmerged

theorem throughout_of_push {next : Layers} {layer : Element}
    (hlayers : ∀ root ∈ layers.merged, root.Throughout p) (hlayer : layer.Throughout p)
    (h : layers.push layer = .ok next) : ∀ root ∈ next.merged, root.Throughout p := by
  rcases push_eq_ok h with ⟨-, hnext⟩ | ⟨below, merged, hbelow, hmerge, hnext⟩
  · simpa [hnext] using hlayer
  · have hroot := throughout_of_merge hmerged (by simpa [hbelow] using hlayers) hlayer hmerge
    simpa [hnext] using hroot

/-- What merges keep at every depth, layers keep, whether or not some of them fail. -/
theorem throughout_of_pushEach (hlayers : ∀ root ∈ layers.merged, root.Throughout p)
    (hrest : ∀ layer ∈ rest, layer.Throughout p) :
    ∀ root ∈ (layers.pushEach rest).merged, root.Throughout p := by
  induction rest generalizing layers with
  | nil => exact hlayers
  | cons layer rest ih =>
    obtain ⟨hlayer, hothers⟩ := List.forall_mem_cons.1 hrest
    unfold pushEach
    cases hnext : layers.push layer with
    | error e => exact ih hlayers hothers
    | ok next => exact ih (throughout_of_push hmerged hlayers hlayer hnext) hothers

end

theorem distinguished_of_pushEach
    (hlayers : ∀ root ∈ layers.merged, root.Throughout Element.Distinguished)
    (hrest : ∀ layer ∈ rest, layer.Throughout Element.Distinguished) :
    ∀ root ∈ (layers.pushEach rest).merged, root.Throughout Element.Distinguished :=
  throughout_of_pushEach distinguished_of_merge hlayers hrest

end Layers

/-- Layers that repeat no tag with its id among siblings, and append no children, never make a tree
that does: not after any of them, whether or not others fail, and not in the end. -/
theorem siblings_stay_distinct {layers before : List Element}
    (hlayers : ∀ layer ∈ layers, layer.Throughout Element.Distinguished)
    (hbefore : before <+: layers) :
    (∀ root ∈ (Layers.empty.pushEach before).merged, root.Throughout Element.IdsDiffer) ∧
      ∀ tree, (Layers.empty.pushEach before).finish = .ok tree →
        tree.Throughout Element.IdsDiffer := by
  have hmerged : ∀ root ∈ (Layers.empty.pushEach before).merged,
      root.Throughout Element.IdsDiffer := fun root hroot =>
    (Layers.distinguished_of_pushEach (by simp [Layers.empty])
      (fun layer hlayer => hlayers layer (hbefore.subset hlayer)) root hroot).imp
      fun _ he => he.idsDiffer
  refine ⟨hmerged, fun tree hfinish => ?_⟩
  obtain ⟨root, hroot, rfl⟩ := Layers.exists_swept_of_finish hfinish
  exact (hmerged root hroot).swept fun _ he => he.swept

def server (id : String) (attrs : List (String × String)) (users : List String) : Node :=
  .element ⟨"server", ⟨("id", id) :: attrs⟩,
    users.map fun user => .element ⟨"user", ⟨[("id", user)]⟩, []⟩⟩

def serverBase : Element :=
  ⟨"config", .empty, [
    server "a" [("combine.self", "overridable")] ["root"],
    server "b" [("combine.self", "defaults")] ["guest"]]⟩

def serverSite : Element :=
  ⟨"config", .empty, [
    server "b" [] ["guest", "root"],
    server "a" [] ["guest"],
    server "c" [("combine.self", "override")] ["root"]]⟩

def serverMerged : Element :=
  ⟨"config", .empty, [
    server "a" [] ["guest"], server "b" [] ["guest", "root"], server "c" [] ["root"]]⟩

theorem siblings_stay_distinct_servers :
    ∃ run tree, Layers.empty.pushAll [serverBase, serverSite] = .ok run ∧
      run.finish = .ok tree ∧ tree.Throughout Element.IdsDiffer := by
  have hrun : Layers.empty.pushAll [serverBase, serverSite] = .ok ⟨some serverMerged, 2⟩ := by
    decide +kernel
  have hfinish : Layers.finish ⟨some serverMerged, 2⟩ = .ok serverMerged := by decide +kernel
  have hlayers : ∀ layer ∈ [serverBase, serverSite], layer.Throughout Element.Distinguished := by
    decide +kernel
  have hdistinct := siblings_stay_distinct hlayers (List.prefix_refl _)
  rw [Layers.pushEach_of_pushAll hrun] at hdistinct
  exact ⟨_, _, hrun, hfinish, hdistinct.2 _ hfinish⟩

end ConfigOverlay
