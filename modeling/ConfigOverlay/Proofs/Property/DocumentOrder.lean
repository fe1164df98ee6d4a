import ConfigOverlay.Proofs.Property.Expanded

set_option autoImplicit false

namespace ConfigOverlay

def Attributes.values (attrs : Attributes) : List String := attrs.entries.map (·.2)

mutual
/-- The attribute values and texts in the element, in document order. -/
def Element.strings : Element → List String
  | ⟨_, attrs, children⟩ => attrs.values ++ Node.stringsList children

def Node.strings : Node → List String
  | .element e => e.strings
  | .text content => [content]
  | .comment _ => []

def Node.stringsList : List Node → List String
  | [] => []
  | node :: rest => node.strings ++ Node.stringsList rest
end

section

variable {m : Type → Type} [Monad m] [LawfulMonad m] (step : String → m String)

theorem Attributes.mapM_values (attrs : Attributes) :
    attrs.values.mapM step = Attributes.values <$> attrs.traverse step := by
  obtain ⟨entries⟩ := attrs
  have hentries : (entries.map (·.2)).mapM step =
      List.map (·.2) <$> traverseEntries step entries := by
    induction entries with
    | nil => simp [traverseEntries]
    | cons entry rest ih => simp [traverseEntries, ih]
  simp [Attributes.traverse, Attributes.values, hentries]

end

mutual
theorem Element.mapM_strings {m : Type → Type} [Monad m] [LawfulMonad m] (step : String → m String) :
    (e : Element) → e.strings.mapM step = Element.strings <$> e.traverse step
  | ⟨tag, attrs, children⟩ => by
    simp [Element.strings, Element.traverse, attrs.mapM_values, Node.mapM_stringsList step children]

theorem Node.mapM_strings {m : Type → Type} [Monad m] [LawfulMonad m] (step : String → m String) :
    (node : Node) → node.strings.mapM step = Node.strings <$> node.traverse step
  | .element e => by simp [Node.strings, Node.traverse, e.mapM_strings step]
  | .text content => by simp [Node.strings, Node.traverse]
  | .comment content => by simp [Node.strings, Node.traverse]

theorem Node.mapM_stringsList {m : Type → Type} [Monad m] [LawfulMonad m]
    (step : String → m String) :
    (nodes : List Node) →
      (Node.stringsList nodes).mapM step = Node.stringsList <$> Node.traverseList step nodes
  | [] => by simp [Node.stringsList, Node.traverseList]
  | node :: rest => by
    simp [Node.stringsList, Node.traverseList, node.mapM_strings step,
      Node.mapM_stringsList step rest]
end

variable {η σ : Type}

/-- An expansion of strings in their order: what comes of them, and why it has stopped, if it has. -/
inductive Replaced (answer : String → Except Stop String) :
    List String → List String → Option Stop → Prop where
  | all {texts values : List String} (h : texts.map answer = values.map .ok) :
    Replaced answer texts values none
  | upTo {text : String} {stop : Stop} (before values after : List String)
    (hbefore : before.map answer = values.map .ok) (htext : answer text = .error stop) :
    Replaced answer (before ++ text :: after) (values ++ text :: after) (some stop)

theorem Replaced.cons {answer : String → Except Stop String} {text value : String}
    {texts values : List String} {stop : Option Stop} (htext : answer text = .ok value)
    (h : Replaced answer texts values stop) :
    Replaced answer (text :: texts) (value :: values) stop := by
  cases h with
  | all h => exact .all (by simp [htext, h])
  | upTo before values after hbefore hstop =>
    exact .upTo (text :: before) (value :: values) after (by simp [htext, hbefore]) hstop

theorem mapM_expandStep_idle (expand : String → Lookup σ String) {state : ExpansionState σ}
    {stop : Stop} (h : state.stop = some stop) (texts : List String) :
    Idle state (texts.mapM (expandStep expand)) texts := by
  induction texts with
  | nil => rfl
  | cons text texts ih =>
    rw [List.mapM_cons]
    exact (expandStep_idle expand h text).bind (ih.bind rfl)

section

variable {expand : String → Lookup σ String} {answer : String → Except Stop String}
  (hanswer : ∀ text s, s.inProgress = [] → (expand text).outcome s = answer text)

include hanswer

theorem expandStep_run (text : String) (session : Session σ) :
    ∃ next, (expandStep expand text).run ⟨session, none⟩ =
      match answer text with
      | .ok value => (value, ⟨next, none⟩)
      | .error stop => (text, ⟨next, some stop⟩) := by
  have hfresh := hanswer text { session with inProgress := [] } rfl
  rw [← hfresh, Lookup.outcome]
  simp only [StateT.run, expandStep, Lookup.fresh]
  cases expand text { session with inProgress := [] } with
  | ok value next => exact ⟨{ next with inProgress := session.inProgress }, rfl⟩
  | error stop next => exact ⟨{ next with inProgress := session.inProgress }, rfl⟩

theorem mapM_expandStep_replaced (texts : List String) (session : Session σ) :
    ∃ values state, (texts.mapM (expandStep expand)).run ⟨session, none⟩ = (values, state) ∧
      Replaced answer texts values state.stop := by
  induction texts generalizing session with
  | nil => exact ⟨[], ⟨session, none⟩, rfl, .all rfl⟩
  | cons text texts ih =>
    rw [List.mapM_cons]
    obtain ⟨next, hstep⟩ := expandStep_run hanswer text session
    cases htext : answer text with
    | ok value =>
      rw [htext] at hstep
      obtain ⟨values, state, hrun, hreplaced⟩ := ih next
      refine ⟨value :: values, state, ?_, hreplaced.cons htext⟩
      rw [run_bind_eq hstep, run_bind_eq hrun]
      rfl
    | error stop =>
      rw [htext] at hstep
      have hrest : Idle ⟨next, some stop⟩ (texts.mapM (expandStep expand)) texts :=
        mapM_expandStep_idle expand rfl texts
      refine ⟨text :: texts, ⟨next, some stop⟩, ?_, ?_⟩
      · rw [run_bind_eq hstep, run_bind_eq hrest]
        rfl
      · exact .upTo [] [] texts rfl htext

end

/-- The answers of the host's sources depend on the name alone. -/
def Surroundings.IsStateless (around : Surroundings η σ) : Prop :=
  ∀ source name host host',
    (around.askHost source name host).1 = (around.askHost source name host').1

def Session.SameMarks (s t : Session σ) : Prop := s.inProgress = t.inProgress

theorem Surroundings.IsStateless.hostRelates {around : Surroundings η σ} (h : around.IsStateless)
    (Open : Stop → Prop) : HostRelates (Lookup.Follows Session.SameMarks Open) around where
  noted _ _ _ _ hst := ⟨_, rfl, hst⟩
  asked source name := by
    intro s t hst
    have heq := h source name s.host t.host
    simp only [ConfigOverlay.askHost]
    generalize around.askHost source name s.host = answered at heq ⊢
    generalize around.askHost source name t.host = answered' at heq ⊢
    obtain ⟨answer, host⟩ := answered
    obtain ⟨_, host'⟩ := answered'
    cases heq
    cases answer with
    | ok value => exact ⟨_, rfl, hst⟩
    | error e => exact .inr ⟨_, rfl, hst⟩

theorem guarded_sameMarks (Open : Stop → Prop) :
    GuardsRelate (σ := σ) (Lookup.Follows Session.SameMarks Open) Lookup.guarded Lookup.guarded :=
  guarded_follows (fun hst hs => .inr (hst ▸ hs)) (fun hst hs => hst ▸ hs)
    (fun {_ _ name} hst => congrArg (name :: ·) hst)
    (fun {_ _ name} hst => congrArg (List.filter (· != name)) hst)

theorem Resolver.outcome_expandWithin_congr {around : Surroundings η σ} {chain : Resolver η}
    (hhost : ¬ chain.IsOwn → around.IsStateless) {s t : Session σ}
    (hst : s.inProgress = t.inProgress) (depth : Nat) (text : String) :
    (chain.expandWithin around Lookup.guarded depth text).outcome t =
      (chain.expandWithin around Lookup.guarded depth text).outcome s := by
  have hcongr : Lookup.Congruence (Lookup.Follows (@Session.SameMarks σ) fun _ => False) :=
    follows_congruence fun _ => id
  have hfollows := hcongr.expandWithin (fun h => (hhost h).hostRelates _) (guarded_sameMarks _)
    (fun _ t hst => .inr ⟨t, rfl, hst⟩) depth text
  exact hfollows.outcome_eq hst fun _ _ => id

/-- The expansion replaces the strings in document order, as far as it comes, and nothing else. -/
structure ExpandedInOrder (answer : String → Except Stop String) (root : Element)
    (expanded : Element × ExpansionState σ) : Prop where
  shape : root.Becomes (fun _ _ => True) expanded.1
  strings : Replaced answer root.strings expanded.1.strings expanded.2.stop

theorem Element.expandWith_inOrder {expand : String → Lookup σ String}
    {answer : String → Except Stop String}
    (hanswer : ∀ text s, s.inProgress = [] → (expand text).outcome s = answer text)
    (root : Element) (session : Session σ) :
    ExpandedInOrder answer root (root.expandWith expand session) := by
  rw [Element.expandWith_eq]
  obtain ⟨values, state, hrun, hreplaced⟩ := mapM_expandStep_replaced hanswer root.strings session
  rw [root.mapM_strings] at hrun
  obtain ⟨rfl, rfl⟩ := Prod.mk.inj hrun
  exact ⟨root.becomes_traverse _ _, hreplaced⟩

/-- An expansion goes through the strings of the tree in document order. If each of them alone has a
value, each is replaced by it; otherwise the first one that has none gives the error, those before
it are replaced, and it and those behind it stay. The tree is the same in everything else. This is
so within the bound on nested resolutions that is used, and within any other. -/
theorem expansion_in_document_order {around : Surroundings η σ} {chain : Resolver η}
    (hhost : ¬ chain.IsOwn → around.IsStateless) {fresh : Session σ} (hfresh : fresh.inProgress = [])
    (root : Element) (session : Session σ) :
    ExpandedInOrder (fun text => (chain.expand around text).outcome fresh) root
      (root.expand around chain session) ∧
    ∀ depth, ExpandedInOrder
      (fun text => (chain.expandWithin around Lookup.guarded depth text).outcome fresh) root
      (root.expandWith (chain.expandWithin around Lookup.guarded depth) session) := by
  refine ⟨root.expandWith_inOrder (fun text s hs => ?_) session, fun depth =>
    root.expandWith_inOrder (fun text s hs => ?_) session⟩
  · exact Resolver.outcome_expandWithin_congr hhost (hfresh.trans hs.symm) _ text
  · exact Resolver.outcome_expandWithin_congr hhost (hfresh.trans hs.symm) depth text

def countingSource : Surroundings Unit Nat where
  environment := .empty
  askHost _ name count :=
    (if name = "port" then .ok (some "80") else .error (.notFound name), count + 1)

def gatewaySettings : Element :=
  ⟨"gateway", .ofPairs [("listen", "*:${port}")],
    [.element ⟨"route", .ofPairs [("to", "${node}:${port}"), ("via", "${port}")], []⟩,
      .comment "${port}", .text "${zone}"]⟩

theorem gateway_expanded_in_order :
    ExpandedInOrder (fun text => (Resolver.expand countingSource (.host ()) text).outcome (.start 7))
      gatewaySettings (gatewaySettings.expand countingSource (.host ()) (.start 0)) ∧
    (gatewaySettings.expand countingSource (.host ()) (.start 0)).1.strings =
      ["*:80", "${node}:${port}", "${port}", "${zone}"] ∧
    (gatewaySettings.expand countingSource (.host ()) (.start 0)).2.stop =
      some (.failed (.notFound "node")) := by
  have hstateless : countingSource.IsStateless := fun _ _ _ _ => rfl
  refine ⟨(expansion_in_document_order (fun _ => hstateless) rfl gatewaySettings _).1, ?_⟩
  rw [Element.expand, Element.expandWith_eq]
  decide +kernel

end ConfigOverlay
