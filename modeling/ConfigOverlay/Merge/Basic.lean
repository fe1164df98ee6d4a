import ConfigOverlay.Merge.Plan

/-!
Merging two elements. The elements whose children are still being made wait on a stack, the
innermost one on top, and each turn carries out the next step of the topmost one. So a merge needs
no room for calls within calls, however deep the trees are. There is no result if the dominant side
asks for its removal, and the first error ends the merge.
-/

set_option autoImplicit false

namespace ConfigOverlay

structure Frame where
  shell : Element
  /-- The layout that goes before the element in its parent. -/
  leading : List Node
  /-- The children made so far, last one first. -/
  made : List Node
  steps : List Step

namespace Frame

def element (frame : Frame) : Element :=
  { frame.shell with children := frame.shell.children ++ frame.made.reverse }

def attach (frame : Frame) (leading : List Node) (e : Element) : Frame :=
  { frame with made := .element e :: (leading.reverse ++ frame.made) }

end Frame

inductive Progress where
  | ended (result : Except MergeError (Option Element))
  | running (stack : List Frame)

namespace Progress

def start (recessive : Option Element) (dominant : Element) : Progress :=
  match openPair recessive dominant with
  | .error e => .ended (.error e)
  | .ok (.settled result) => .ended (.ok result)
  | .ok (.pending shell steps) => .running [⟨shell, [], [], steps⟩]

def openChild (frame : Frame) (below : List Frame) (leading : List Node)
    (recessive : Option Element) (dominant : Element) : Progress :=
  match openPair recessive dominant with
  | .error e => .ended (.error e)
  | .ok (.settled none) => .running (frame :: below)
  | .ok (.settled (some e)) => .running (frame.attach leading e :: below)
  | .ok (.pending shell steps) => .running (⟨shell, leading, [], steps⟩ :: frame :: below)

def close (frame : Frame) : List Frame → Progress
  | [] => .ended (.ok (some frame.element))
  | parent :: below => .running (parent.attach frame.leading frame.element :: below)

def next : Progress → Progress
  | .ended result => .ended result
  | .running [] => .ended (.ok none)
  | .running (⟨shell, leading, made, steps⟩ :: below) =>
    match steps with
    | [] => close ⟨shell, leading, made, []⟩ below
    | .copy node :: rest => .running (⟨shell, leading, node :: made, rest⟩ :: below)
    | .merge lead recessive dominant :: rest =>
      openChild ⟨shell, leading, made, rest⟩ below lead recessive dominant

end Progress

/-- How many turns it takes until a pair that has been opened is attached. -/
def pairWork (recessive : Option Element) (dominant : Element) : Nat :=
  match h : openPair recessive dominant with
  | .error _ => 0
  | .ok (.settled _) => 0
  | .ok (.pending _ steps) =>
    let work : { step // step ∈ steps } → Nat
      | ⟨.copy _, _⟩ => 1
      | ⟨.merge _ recessive child, hstep⟩ =>
        have := Element.sizeOf_child_lt (child_of_openPair h hstep)
        pairWork recessive child + 1
    (steps.attach.map work).foldr (· + ·) 0 + 1
termination_by sizeOf dominant

def Step.work : Step → Nat
  | .copy _ => 1
  | .merge _ recessive dominant => pairWork recessive dominant + 1

def Frame.work (frame : Frame) : Nat := (frame.steps.map Step.work).foldr (· + ·) 0 + 1

theorem pairWork_of_pending {recessive : Option Element} {dominant shell : Element}
    {steps : List Step} (h : openPair recessive dominant = .ok (.pending shell steps)) :
    pairWork recessive dominant = (steps.map Step.work).foldr (· + ·) 0 + 1 := by
  rw [pairWork]
  split
  · next h' => simp [h] at h'
  · next h' => simp [h] at h'
  · next shell' steps' h' =>
    rw [h] at h'
    simp only [Except.ok.injEq, Opening.pending.injEq] at h'
    obtain ⟨_, rfl⟩ := h'
    have hmap : steps.map Step.work = steps.attach.map fun s => s.1.work := by simp
    rw [hmap]
    refine congrArg (·.foldr (· + ·) 0 + 1) (List.map_congr_left fun s _ => ?_)
    obtain ⟨step, hstep⟩ := s
    cases step <;> rfl

namespace Progress

def work : Progress → Nat
  | .ended _ => 0
  | .running stack => (stack.map Frame.work).foldr (· + ·) 0 + 1

theorem work_openChild_lt (frame : Frame) (below : List Frame) (leading : List Node)
    (recessive : Option Element) (dominant : Element) :
    (openChild frame below leading recessive dominant).work <
      pairWork recessive dominant + frame.work + (below.map Frame.work).foldr (· + ·) 0 + 2 := by
  unfold openChild
  split
  · simp [work]
  · simp only [work, List.map_cons, List.foldr_cons]; omega
  · simp only [work, List.map_cons, List.foldr_cons, Frame.work, Frame.attach]; omega
  · next h =>
    simp only [work, List.map_cons, List.foldr_cons, pairWork_of_pending h, Frame.work]; omega

theorem work_next_lt (stack : List Frame) : (next (.running stack)).work < (running stack).work := by
  cases stack with
  | nil => simp [next, work]
  | cons frame below =>
    obtain ⟨shell, leading, made, steps⟩ := frame
    cases steps with
    | nil =>
      cases below with
      | nil => simp [next, close, work]
      | cons parent below =>
        simp only [next, close, work, List.map_cons, List.foldr_cons, Frame.work, Frame.attach]
        omega
    | cons step rest =>
      cases step with
      | copy node =>
        simp only [next, work, List.map_cons, List.foldr_cons, Frame.work, Step.work]; omega
      | merge lead recessive dominant =>
        have h := work_openChild_lt ⟨shell, leading, made, rest⟩ below lead recessive dominant
        simp only [next, work, List.map_cons, List.foldr_cons, Frame.work, Step.work] at h ⊢
        omega

def result : Progress → Except MergeError (Option Element)
  | .ended result => result
  | .running stack => (next (.running stack)).result
termination_by progress => progress.work
decreasing_by exact work_next_lt stack

end Progress

def merge (recessive : Option Element) (dominant : Element) : Except MergeError (Option Element) :=
  (Progress.start recessive dominant).result

end ConfigOverlay
