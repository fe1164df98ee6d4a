import ConfigOverlay.Merge.Policy

/-!
Removing what is left of defaults: below the root every element that still declares `DEFAULTS` goes,
with the layout directly before it. Each list of children is gone through once; then the sweep goes
into the children that stay, the last one first. The first policy that is not recognised ends it.
-/

set_option autoImplicit false

namespace ConfigOverlay

/-- Goes through a list of children. What is kept is held last node first, so that the layout before
a skeleton is on top when the skeleton is met. -/
def Node.keep (kept : List Node) : List Node → Except MergeError (List Node)
  | [] => .ok kept
  | .element e :: rest =>
    match e.selfPolicy with
    | .error fault => .error fault
    | .ok policy =>
      if policy = some .defaults then keep (kept.dropWhile Node.isLayout) rest
      else keep (.element e :: kept) rest
  | .text content :: rest => keep (.text content :: kept) rest
  | .comment content :: rest => keep (.comment content :: kept) rest

theorem Node.turnsList_dropWhile_le (p : Node → Bool) (nodes : List Node) :
    turnsList (nodes.dropWhile p) ≤ turnsList nodes := by
  induction nodes with
  | nil => exact Nat.le_refl 0
  | cons node rest ih =>
    rw [List.dropWhile_cons]
    split
    · exact Nat.le_trans ih (Nat.le_add_left _ _)
    · exact Nat.le_refl _

theorem Node.turnsList_keep_le {kept nodes result : List Node}
    (h : keep kept nodes = .ok result) :
    turnsList result ≤ turnsList kept + turnsList nodes := by
  induction nodes generalizing kept with
  | nil =>
    cases h
    exact Nat.le_add_right _ _
  | cons node rest ih =>
    cases node with
    | element e =>
      rw [keep] at h
      split at h
      · cases h
      · have hdrop := turnsList_dropWhile_le Node.isLayout kept
        split at h
        · have := ih h
          simp only [turnsList]
          omega
        · have := ih h
          simp only [turnsList] at this ⊢
          omega
    | text content =>
      have := ih h
      simp only [turnsList] at this ⊢
      omega
    | comment content =>
      have := ih h
      simp only [turnsList] at this ⊢
      omega

def sweepVisit : Visit MergeError where
  run e :=
    match Node.keep [] e.children with
    | .error fault => .error fault
    | .ok kept => .ok (e.attrs, kept)
  turnsList_le {e attrs kept} h := by
    split at h
    · cases h
    · next kept' hkept =>
      cases h
      have := Node.turnsList_keep_le hkept
      rwa [Node.turnsList, Nat.zero_add] at this

def Element.sweep (e : Element) : Except MergeError Element := e.descend sweepVisit

end ConfigOverlay
