import ConfigOverlay.Property.Expansion

set_option autoImplicit false

namespace ConfigOverlay

section

variable {τ α β : Type} {state : τ}

theorem run_bind_eq {x : StateM τ α} {a : α} {next : τ} (h : x.run state = (a, next))
    (f : α → StateM τ β) : (x >>= f).run state = (f a).run next := by
  have hrun : (x >>= f).run state = (f (x.run state).1).run (x.run state).2 := rfl
  rw [hrun, h]

/-- In this state the computation gives `a` and does nothing. -/
def Idle (state : τ) (x : StateM τ α) (a : α) : Prop := x.run state = (a, state)

theorem Idle.bind {x : StateM τ α} {f : α → StateM τ β} {a : α} {b : β} (hx : Idle state x a)
    (hf : Idle state (f a) b) : Idle state (x >>= f) b :=
  (run_bind_eq hx f).trans hf

variable {step : String → StateM τ String} (hstep : ∀ text, Idle state (step text) text)

include hstep

theorem traverseEntries_idle (entries : List (String × String)) :
    Idle state (traverseEntries step entries) entries := by
  induction entries with
  | nil => rfl
  | cons entry rest ih => exact (hstep entry.2).bind (ih.bind rfl)

theorem Attributes.traverse_idle (attrs : Attributes) : Idle state (attrs.traverse step) attrs :=
  (traverseEntries_idle hstep attrs.entries).bind rfl

end

mutual
theorem Element.traverse_idle {τ : Type} {state : τ} {step : String → StateM τ String}
    (hstep : ∀ text, Idle state (step text) text) :
    (e : Element) → Idle state (e.traverse step) e
  | ⟨_, attrs, children⟩ =>
    (attrs.traverse_idle hstep).bind ((Node.traverseList_idle hstep children).bind rfl)

theorem Node.traverse_idle {τ : Type} {state : τ} {step : String → StateM τ String}
    (hstep : ∀ text, Idle state (step text) text) :
    (node : Node) → Idle state (node.traverse step) node
  | .element e => (Element.traverse_idle hstep e).bind rfl
  | .text content => (hstep content).bind rfl
  | .comment _ => rfl

theorem Node.traverseList_idle {τ : Type} {state : τ} {step : String → StateM τ String}
    (hstep : ∀ text, Idle state (step text) text) :
    (nodes : List Node) → Idle state (Node.traverseList step nodes) nodes
  | [] => rfl
  | node :: rest =>
    (Node.traverse_idle hstep node).bind ((Node.traverseList_idle hstep rest).bind rfl)
end

variable {σ : Type} (expand : String → Lookup σ String)

theorem expandStep_idle {state : ExpansionState σ} {stop : Stop} (h : state.stop = some stop)
    (text : String) : Idle state (expandStep expand text) text := by
  simp [Idle, StateT.run, expandStep, h]

def ExpansionFrame.answer (frame : ExpansionFrame) (state : ExpansionState σ) :
    Element × ExpansionState σ :=
  let visited := (Node.traverseList (expandStep expand) frame.ahead).run state
  (⟨frame.tag, frame.attrs, frame.done.reverse ++ visited.1⟩, visited.2)

theorem ExpansionFrame.answer_nil (tag : String) (attrs : Attributes) (done : List Node)
    (state : ExpansionState σ) :
    answer expand ⟨tag, attrs, done, []⟩ state = (⟨tag, attrs, done.reverse⟩, state) := by
  have hnil : (Node.traverseList (expandStep expand) []).run state = ([], state) := rfl
  simp [answer, hnil]

theorem ExpansionFrame.answer_cons (tag : String) (attrs : Attributes) (done : List Node)
    (node : Node) (rest : List Node) (state : ExpansionState σ) :
    answer expand ⟨tag, attrs, done, node :: rest⟩ state =
      let visited := (node.traverse (expandStep expand)).run state
      answer expand ⟨tag, attrs, visited.1 :: done, rest⟩ visited.2 := by
  let visited := (node.traverse (expandStep expand)).run state
  let others := (Node.traverseList (expandStep expand) rest).run visited.2
  have hcons : (Node.traverseList (expandStep expand) (node :: rest)).run state =
      (visited.1 :: others.1, others.2) := rfl
  simp [answer, hcons, visited, others]

theorem ExpansionFrame.answer_stopped {state : ExpansionState σ} {stop : Stop}
    (h : state.stop = some stop) (frame : ExpansionFrame) :
    frame.answer expand state = (frame.element, state) := by
  have hahead := Node.traverseList_idle (expandStep_idle expand h) frame.ahead
  rw [Idle] at hahead
  rw [answer, hahead, element]

namespace Expanding

def resume : Element × ExpansionState σ → List ExpansionFrame → Element × ExpansionState σ
  | visited, [] => visited
  | visited, frame :: below =>
    resume ((frame.attach (.element visited.1)).answer expand visited.2) below

def answer : Expanding σ → Element × ExpansionState σ
  | .ended tree state => (tree, state)
  | .running session top below => resume expand (top.answer expand ⟨session, none⟩) below

theorem resume_stopped {state : ExpansionState σ} {stop : Stop} (h : state.stop = some stop)
    (e : Element) (below : List ExpansionFrame) :
    resume expand (e, state) below = (whole e below, state) := by
  induction below generalizing e with
  | nil => rfl
  | cons frame below ih => rw [resume, ExpansionFrame.answer_stopped expand h, ih, whole]

theorem answer_push (tag : String) (attrs : Attributes) (children : List Node)
    (state : ExpansionState σ) (below : List ExpansionFrame) :
    (push tag attrs children state below).answer expand =
      resume expand (ExpansionFrame.answer expand ⟨tag, attrs, [], children⟩ state) below := by
  rw [push]
  split
  · next h =>
    obtain ⟨session, stop⟩ := state
    cases h
    rfl
  · next stop h =>
    rw [ExpansionFrame.answer_stopped expand h, resume_stopped expand h]
    rfl

theorem answer_pass (frame : ExpansionFrame) (content : String) (state : ExpansionState σ)
    (below : List ExpansionFrame) :
    (pass frame content state below).answer expand =
      resume expand ((frame.attach (.text content)).answer expand state) below := by
  rw [pass]
  split
  · next h =>
    obtain ⟨session, stop⟩ := state
    cases h
    rfl
  · next stop h => rw [ExpansionFrame.answer_stopped expand h, resume_stopped expand h, answer]

theorem answer_enter (e : Element) (session : Session σ) (below : List ExpansionFrame) :
    (enter expand e session below).answer expand =
      resume expand ((e.traverse (expandStep expand)).run ⟨session, none⟩) below := by
  obtain ⟨tag, attrs, children⟩ := e
  rw [enter, answer_push]
  rfl

/-- A turn does not change what an expansion comes to. -/
theorem answer_next (expanding : Expanding σ) :
    (expanding.next expand).answer expand = expanding.answer expand := by
  cases expanding with
  | ended tree state => rfl
  | running session top below =>
    obtain ⟨tag, attrs, done, ahead⟩ := top
    cases ahead with
    | nil =>
      rw [answer, ExpansionFrame.answer_nil]
      cases below <;> rfl
    | cons node rest =>
      rw [answer, ExpansionFrame.answer_cons]
      cases node with
      | element e =>
        rw [next, answer_enter]
        rfl
      | text content =>
        rw [next, answer_pass]
        rfl
      | comment content => rfl

theorem result_eq_answer (expanding : Expanding σ) :
    expanding.result expand = expanding.answer expand := by
  induction hwork : expanding.work using Nat.strongRecOn generalizing expanding with
  | ind work ih =>
    cases expanding with
    | ended tree state =>
      rw [result]
      rfl
    | running session top below =>
      rw [result, ih _ (hwork ▸ work_next_lt expand session top below) _ rfl, answer_next]

end Expanding

/-- An expansion goes through the strings of the tree in document order, and replaces them as long as
none has failed. -/
theorem Element.expandWith_eq (e : Element) (session : Session σ) :
    e.expandWith expand session = (e.traverse (expandStep expand)).run ⟨session, none⟩ := by
  rw [expandWith, Expanding.result_eq_answer, Expanding.answer_enter]
  rfl

end ConfigOverlay
