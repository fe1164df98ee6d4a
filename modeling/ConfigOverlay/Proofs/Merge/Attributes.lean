import ConfigOverlay.Proofs.Merge.Opening
import ConfigOverlay.Tree.Json

set_option autoImplicit false

namespace ConfigOverlay

/-- What is laid over each other entry by entry reads like the two sides, the upper one first, if
the side that has the name reads alike from either end. -/
theorem Attributes.or_last?_eq_iff (lower upper : Attributes) (name : String) :
    (upper.last? name).or (lower.last? name) = (upper.get? name).or (lower.get? name) ↔
      if name ∈ upper.names then upper.last? name = upper.get? name
      else lower.last? name = lower.get? name := by
  split
  · next hname =>
    have hlast : upper.last? name ≠ none := fun h => last?_eq_none_iff.1 h hname
    have hget : upper.get? name ≠ none := fun h => get?_eq_none_iff.1 h hname
    obtain ⟨last, hlast⟩ := Option.ne_none_iff_exists'.1 hlast
    obtain ⟨first, hget⟩ := Option.ne_none_iff_exists'.1 hget
    rw [hlast, hget, Option.some_or, Option.some_or]
  · next hname =>
    rw [last?_eq_none_iff.2 hname, get?_eq_none_iff.2 hname, Option.none_or, Option.none_or]

variable {lower dominant : Element} {result : Option Element}

theorem attrs_of_merge (hstays : ¬ dominant.Declares .remove)
    (hshares : ¬ dominant.Declares .override) (hlower : ¬ lower.Declares .overridable)
    (h : merge (some lower) dominant = .ok result) : ∃ e policy, result = some e ∧
      e.attrs = mergedAttributes (some lower) dominant policy := by
  rcases settled_or_pending_of_merge h with hopen | ⟨shell, steps, nodes, hopen, -, rfl⟩
  · cases opens_of_openPair hopen with
    | removed hremove => exact absurd hremove hstays
    | replaced _ hasked =>
      rcases hasked with hoverride | ⟨below, hbelow, hoverridable⟩
      · exact absurd hoverride hshares
      · cases hbelow
        exact absurd hoverridable hlower
    | appended halone => cases halone
  · cases opens_of_openPair hopen with
    | merged => exact ⟨_, _, rfl, rfl⟩

/-- Of each attribute, its own policy apart, a merged element shows the last value on the dominant
side, or else the last one on the recessive side. That is the value that the dominant side shows, or
else the recessive one, exactly if the side that has the attribute reads alike from either end, and
so wherever names are unique. -/
theorem merged_attributes_are_last (hstays : ¬ dominant.Declares .remove)
    (hshares : ¬ dominant.Declares .override) (hlower : ¬ lower.Declares .overridable)
    (h : merge (some lower) dominant = .ok result) :
    ∃ e, result = some e ∧ ∀ name, name ≠ SelfPolicy.attributeName →
      e.attrs.get? name = (dominant.attrs.last? name).or (lower.attrs.last? name) ∧
      (e.attrs.get? name = (dominant.attrs.get? name).or (lower.attrs.get? name) ↔
        if name ∈ dominant.attrs.names then dominant.attrs.last? name = dominant.attrs.get? name
        else lower.attrs.last? name = lower.attrs.get? name) ∧
      (dominant.attrs.Unique → lower.attrs.Unique →
        e.attrs.get? name = (dominant.attrs.get? name).or (lower.attrs.get? name)) := by
  obtain ⟨e, policy, rfl, hattrs⟩ := attrs_of_merge hstays hshares hlower h
  refine ⟨e, rfl, fun name hname => ?_⟩
  have hget : e.attrs.get? name = (dominant.attrs.last? name).or (lower.attrs.last? name) := by
    rw [hattrs, get?_mergedAttributes_eq_last? hname]
    rfl
  refine ⟨hget, ?_, fun hdominant hlower => ?_⟩
  · rw [hget]
    exact Attributes.or_last?_eq_iff lower.attrs dominant.attrs name
  · rw [hget, hdominant.last?_eq_get?, hlower.last?_eq_get?]

def workers (attrs : List (String × String)) : Element := ⟨"workers", ⟨attrs⟩, []⟩

theorem merged_attributes_are_last_workers :
    let lower := workers [("size", "1"), ("name", "a"), ("name", "b"), ("idle", "3")]
    let dominant := workers [("size", "2"), ("size", "4")]
    (¬ dominant.Declares .remove ∧ ¬ dominant.Declares .override ∧
      ¬ lower.Declares .overridable) ∧
    merge (some lower) dominant =
      .ok (some (workers [("size", "4"), ("name", "b"), ("idle", "3")])) ∧
    ∃ e, merge (some lower) dominant = .ok (some e) ∧ e.attrs.get? "size" = some "4" ∧
      e.attrs.get? "name" = some "b" ∧
      e.attrs.get? "idle" = (dominant.attrs.get? "idle").or (lower.attrs.get? "idle") := by
  intro lower dominant
  have hpolicies : ¬ dominant.Declares .remove ∧ ¬ dominant.Declares .override ∧
      ¬ lower.Declares .overridable := by decide +kernel
  have hmerge : merge (some lower) dominant =
      .ok (some (workers [("size", "4"), ("name", "b"), ("idle", "3")])) := by decide +kernel
  obtain ⟨e, heq, hshown⟩ :=
    merged_attributes_are_last hpolicies.1 hpolicies.2.1 hpolicies.2.2 hmerge
  refine ⟨hpolicies, hmerge, e, hmerge.trans (congrArg _ heq), ?_, ?_, ?_⟩
  · exact (hshown "size" (by decide)).1.trans (by decide)
  · exact (hshown "name" (by decide)).1.trans (by decide)
  · exact (hshown "idle" (by decide)).2.1.2 (by decide)

/-- An element read from JSON may name an attribute twice. It shows the first value, and what it is
merged into shows the second one. -/
theorem repeated_name_shows_last :
    ¬ ∀ (json : String) (lower dominant e : Element) (name : String),
      Element.ofJson? json = some dominant → ¬ dominant.Declares .remove →
      ¬ dominant.Declares .override → ¬ lower.Declares .overridable →
      merge (some lower) dominant = .ok (some e) → name ≠ SelfPolicy.attributeName →
      e.attrs.get? name = (dominant.attrs.get? name).or (lower.attrs.get? name) := by
  intro h
  have hshown := h "[\"workers\",[[\"size\",\"2\"],[\"size\",\"4\"]],[]]" (workers [])
    (workers [("size", "2"), ("size", "4")]) (workers [("size", "4")]) "size" (by decide +kernel)
    (by decide +kernel) (by decide +kernel) (by decide +kernel) (by decide +kernel) (by decide)
  exact absurd hshown (by decide)

end ConfigOverlay
