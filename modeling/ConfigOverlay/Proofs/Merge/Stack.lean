import ConfigOverlay.Merge.Basic
import Mathlib.Logic.Function.Iterate

set_option autoImplicit false

namespace ConfigOverlay

def collect {α β ε : Type} (f : α → Except ε (List β)) : List α → Except ε (List β)
  | [] => .ok []
  | a :: rest =>
    match f a with
    | .error e => .error e
    | .ok first =>
      match collect f rest with
      | .error e => .error e
      | .ok others => .ok (first ++ others)

theorem collect_congr {α β ε : Type} {f g : α → Except ε (List β)} {l : List α}
    (h : ∀ a ∈ l, f a = g a) : collect f l = collect g l := by
  induction l with
  | nil => rfl
  | cons a l ih =>
    rw [collect, collect, h a List.mem_cons_self, ih fun b hb => h b (List.mem_cons_of_mem a hb)]

def Step.run (lay : Option Element → Element → Except MergeError (Option Element)) :
    Step → Except MergeError (List Node)
  | .copy node => .ok [node]
  | .merge leading recessive dominant =>
    match lay recessive dominant with
    | .error e => .error e
    | .ok none => .ok []
    | .ok (some e) => .ok (leading ++ [.element e])

/-- Opens a pair and carries out its steps, where `lay` merges smaller pairs. -/
def mergeWith (lay : Option Element → Element → Except MergeError (Option Element))
    (recessive : Option Element) (dominant : Element) : Except MergeError (Option Element) :=
  match openPair recessive dominant with
  | .error e => .error e
  | .ok (.settled result) => .ok result
  | .ok (.pending shell steps) =>
    match collect (Step.run lay) steps with
    | .error e => .error e
    | .ok nodes => .ok (some { shell with children := shell.children ++ nodes })

section

variable (lay : Option Element → Element → Except MergeError (Option Element))

def Frame.answer (frame : Frame) : Except MergeError Element :=
  match collect (Step.run lay) frame.steps with
  | .error e => .error e
  | .ok nodes => .ok { frame.element with children := frame.element.children ++ nodes }

def resume (leading : List Node) (e : Element) : List Frame → Except MergeError (Option Element)
  | [] => .ok (some e)
  | frame :: below =>
    match (frame.attach leading e).answer lay with
    | .error e => .error e
    | .ok parent => resume frame.leading parent below

namespace Progress

def answer : Progress → Except MergeError (Option Element)
  | .ended result => result
  | .running [] => .ok none
  | .running (frame :: below) =>
    match frame.answer lay with
    | .error e => .error e
    | .ok e => resume lay frame.leading e below

theorem answer_copy (shell : Element) (leading made : List Node) (node : Node) (rest : List Step) :
    Frame.answer lay ⟨shell, leading, made, .copy node :: rest⟩ =
      Frame.answer lay ⟨shell, leading, node :: made, rest⟩ := by
  simp only [Frame.answer, collect, Step.run]
  cases collect (Step.run lay) rest with
  | error e => rfl
  | ok nodes => simp [Frame.element]

theorem answer_merge (shell : Element) (leading made lead : List Node) (recessive : Option Element)
    (dominant : Element) (rest : List Step) :
    Frame.answer lay ⟨shell, leading, made, .merge lead recessive dominant :: rest⟩ =
      match lay recessive dominant with
      | .error e => .error e
      | .ok none => Frame.answer lay ⟨shell, leading, made, rest⟩
      | .ok (some e) => (Frame.attach ⟨shell, leading, made, rest⟩ lead e).answer lay := by
  simp only [Frame.answer, collect, Step.run, Frame.attach]
  cases lay recessive dominant with
  | error e => rfl
  | ok child =>
    cases child with
    | none => cases collect (Step.run lay) rest <;> rfl
    | some e =>
      cases collect (Step.run lay) rest with
      | error e => rfl
      | ok nodes => simp [Frame.element]

variable {lay} (hlay : ∀ recessive dominant, lay recessive dominant =
  mergeWith lay recessive dominant)

include hlay

theorem answer_openChild (shell : Element) (leading made lead : List Node) (rest : List Step)
    (below : List Frame) (recessive : Option Element) (dominant : Element) :
    (openChild ⟨shell, leading, made, rest⟩ below lead recessive dominant).answer lay =
      answer lay
        (.running (⟨shell, leading, made, .merge lead recessive dominant :: rest⟩ :: below)) := by
  simp only [openChild, answer, answer_merge, hlay recessive dominant, mergeWith]
  cases openPair recessive dominant with
  | error e => rfl
  | ok opening =>
    cases opening with
    | settled result => cases result <;> rfl
    | pending child steps =>
      cases hsteps : collect (Step.run lay) steps with
      | error e => simp [Frame.answer, hsteps]
      | ok nodes => simp [Frame.answer, hsteps, resume, Frame.element]

/-- A turn does not change what a merge comes to. -/
theorem answer_next (p : Progress) : p.next.answer lay = p.answer lay := by
  cases p with
  | ended result => rfl
  | running stack =>
    cases stack with
    | nil => rfl
    | cons frame below =>
      obtain ⟨shell, leading, made, steps⟩ := frame
      cases steps with
      | nil =>
        cases below with
        | nil => simp [next, close, answer, Frame.answer, Frame.element, collect, resume]
        | cons parent below =>
          simp [next, close, answer, Frame.answer, Frame.element, collect, resume, Frame.attach]
      | cons step rest =>
        cases step with
        | copy node => simp only [next, answer, answer_copy]
        | merge lead recessive dominant =>
          exact answer_openChild hlay shell leading made lead rest below recessive dominant

theorem answer_start (recessive : Option Element) (dominant : Element) :
    (start recessive dominant).answer lay = lay recessive dominant := by
  rw [hlay, start, mergeWith]
  cases openPair recessive dominant with
  | error e => rfl
  | ok opening =>
    cases opening with
    | settled result => rfl
    | pending shell steps =>
      simp only [answer, Frame.answer]
      cases collect (Step.run lay) steps with
      | error e => rfl
      | ok nodes => simp [resume, Frame.element]

theorem iterate_next (p : Progress) :
    (∃ n, next^[n] p = .ended (p.answer lay)) ∧ p.result = p.answer lay := by
  induction hwork : p.work using Nat.strongRecOn generalizing p with
  | ind work ih =>
    cases p with
    | ended r => exact ⟨⟨0, rfl⟩, by rw [result]; rfl⟩
    | running stack =>
      have hlt := work_next_lt stack
      obtain ⟨⟨n, hn⟩, hresult⟩ := ih _ (hwork ▸ hlt) _ rfl
      rw [answer_next hlay] at hn hresult
      refine ⟨⟨n + 1, ?_⟩, ?_⟩
      · rw [Function.iterate_succ_apply, hn]
      · rw [result, hresult]

theorem merge_eq_of_recursion (recessive : Option Element) (dominant : Element) :
    merge recessive dominant = lay recessive dominant := by
  rw [merge, (iterate_next hlay _).2, answer_start hlay]

end Progress

end

end ConfigOverlay
