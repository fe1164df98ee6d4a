import ConfigOverlay.Proofs.Property.Expanding
import ConfigOverlay.Proofs.Property.Termination

/-!
Cycles are told exactly. On a standard chain over clean sources, a resolution with marks ends with a
cycle if and only if the resolution without marks has no end; otherwise both end in the same way.
-/

set_option autoImplicit false

namespace ConfigOverlay

variable {η σ : Type}

def Resolver.overSources (sources : List (Resolver η)) : Resolver η :=
  .firstOf (.oneOf :: sources.map .expanding)

/-- Sources that ask for nothing and know clean values only. -/
structure CleanSources (environment : Environment) (sources : List (Resolver η)) : Prop where
  ne_nil : sources ≠ []
  plain : ∀ r ∈ sources, r.IsPlain
  clean : ∀ r ∈ sources, ∀ name value, r.plainValue? environment name = some value →
    Text.isClean value.toList

theorem CleanSources.clean_knownValue? {environment : Environment} {sources : List (Resolver η)}
    (h : CleanSources environment sources) {name value : String}
    (hvalue : knownValue? environment sources name = some value) : Text.isClean value.toList := by
  obtain ⟨r, hr, hvalue⟩ := List.exists_of_findSome?_eq_some hvalue
  exact h.clean r hr name value hvalue

def Lookup.endless : Lookup σ (Option String) := ofExcept (.error .exhausted)

section

variable (around : Surroundings η σ) (sources : List (Resolver η))

/-- Resolves a name without marks from the sources alone; nested resolutions use the chain. -/
def fallback (depth : Nat) : Resolution σ :=
  Resolver.askFirst around Lookup.unguarded
    ((Resolver.overSources sources).resolveWithin around Lookup.unguarded depth)
    (sources.map .expanding)

/-- Without marks, none of these names can be resolved from the sources within a lower bound. -/
def Unsettled (depth : Nat) (marked : List String) : Prop :=
  ∀ name ∈ marked, ∀ lower < depth, fallback around sources lower name = Lookup.endless

variable {around sources}

theorem Unsettled.anti {depth lower : Nat} {marked : List String}
    (h : Unsettled around sources depth marked) (hle : lower ≤ depth) :
    Unsettled around sources lower marked :=
  fun name hname lowest hlowest => h name hname lowest (Nat.lt_of_lt_of_le hlowest hle)

theorem Unsettled.cons {depth : Nat} {marked : List String} {name : String}
    (h : Unsettled around sources depth marked)
    (hname : ∀ lower < depth, fallback around sources lower name = Lookup.endless) :
    Unsettled around sources depth (name :: marked) := by
  intro other hother
  rcases List.mem_cons.1 hother with rfl | hother
  · exact hname
  · exact h other hother

theorem isOwn_overSources (hplain : ∀ r ∈ sources, r.IsPlain) :
    (Resolver.overSources sources).IsOwn := by
  refine .firstOf fun member hmember => ?_
  rcases List.mem_cons.1 hmember with rfl | hmember
  · exact .oneOf
  · obtain ⟨r, hr, rfl⟩ := List.mem_map.1 hmember
    exact .expanding (hplain r hr).isOwn

theorem steady_fallback (hplain : ∀ r ∈ sources, r.IsPlain) (depth : Nat) (name : String) :
    (fallback around sources depth name).Steady := by
  intro s₀ t₀
  refine (follows_congruence fun _ => id).askFirst fun member hmember => ?_
  obtain ⟨r, hr, rfl⟩ := List.mem_map.1 hmember
  exact (follows_congruence fun _ => id).ask
    (fun hn => absurd (.expanding (hplain r hr).isOwn) hn) (unguarded_mono _ _)
    (fun name => (isOwn_overSources hplain).steady_resolveWithin depth name s₀ t₀) name

theorem fallback_mono (depth extra : Nat) (name : String) :
    (fallback around sources depth name).Follows Eq (· = .exhausted)
      (fallback around sources (depth + extra) name) := by
  refine (follows_congruence fun _ => failed_ne_exhausted _).askFirst fun member _ => ?_
  exact (follows_congruence fun _ => failed_ne_exhausted _).ask
    (fun _ => Session.carried_eq.hostRelates around) (unguarded_mono _ _)
    (Resolver.resolveWithin_mono around _ (unguarded_mono _ _) depth extra) name

theorem fallback_eq_of_le (hplain : ∀ r ∈ sources, r.IsPlain) (s : Session σ) {lower depth : Nat}
    (hle : lower ≤ depth) {name : String} (h : fallback around sources lower name ≠ .endless) :
    fallback around sources depth name = fallback around sources lower name := by
  obtain ⟨extra, rfl⟩ := Nat.le.dest hle
  obtain ⟨result, hresult⟩ := (steady_fallback hplain lower name).exists_eq s
  have hmono := @fallback_mono η σ around sources lower extra name
  rw [hresult] at h hmono ⊢
  exact hmono.eq_ofExcept fun heq => h (heq ▸ rfl)

/-- Whatever a name comes to within a bound, it comes to within the least one that is enough. -/
theorem exists_least_bound (hplain : ∀ r ∈ sources, r.IsPlain) (s : Session σ) (depth : Nat)
    (name : String) :
    ∃ least ≤ depth, fallback around sources least name = fallback around sources depth name ∧
      ∀ lower < least, fallback around sources lower name = .endless := by
  induction depth with
  | zero => exact ⟨0, Nat.le_refl 0, rfl, fun lower hlower => absurd hlower (Nat.not_lt_zero _)⟩
  | succ depth ih =>
    by_cases hdepth : fallback around sources depth name = .endless
    · refine ⟨depth + 1, Nat.le_refl _, rfl, fun lower hlower => ?_⟩
      by_contra hne
      exact hne ((fallback_eq_of_le hplain s (Nat.le_of_lt_succ hlower) hne).symm.trans hdepth)
    · obtain ⟨least, hle, heq, hless⟩ := ih
      refine ⟨least, Nat.le_succ_of_le hle, ?_, hless⟩
      rw [heq, fallback_eq_of_le hplain s (Nat.le_succ depth) hdepth]

theorem fallback_eq (hplain : ∀ r ∈ sources, r.IsPlain) {depth : Nat} {name expanded : String}
    {s : Session σ}
    (htext : (Resolver.overSources sources).expandWithin around Lookup.unguarded depth name s =
      .ok expanded s) :
    fallback around sources depth name s =
      match knownValue? around.environment sources expanded with
      | none => .ok none s
      | some value =>
        expandKnown ((Resolver.overSources sources).resolveWithin around Lookup.unguarded depth)
          value s := by
  rw [fallback, askFirst_expanding (admits_unguarded name s) hplain
    (fun _ => ⟨s, id, admits_unguarded expanded s⟩) htext]
  cases knownValue? around.environment sources expanded with
  | none => rfl
  | some value => simp only [expandKnownAround, Lookup.unguarded, ite_self]

theorem expandWithin_of_isLiteral {chain : Resolver η} {guard : Guard σ} (depth : Nat)
    {text : String} (h : Text.IsLiteral text) :
    chain.expandWithin around guard depth text = pure text := by
  rw [Resolver.expandWithin, expandText, hasPlaceholders, Text.opensPlaceholder_of_not_mem h]
  rfl

theorem fallback_expanded (hplain : ∀ r ∈ sources, r.IsPlain) {depth : Nat} {name expanded : String}
    (hexpanded : Text.IsLiteral expanded)
    (htext : (Resolver.overSources sources).expandWithin around Lookup.unguarded depth name =
      Lookup.ofExcept (.ok expanded)) :
    fallback around sources depth name = fallback around sources depth expanded := by
  funext s
  rw [fallback_eq hplain (congrFun htext s),
    fallback_eq hplain (congrFun (expandWithin_of_isLiteral depth hexpanded) s)]

theorem resolveWithin_overSources (guard : Guard σ) (depth : Nat) (name : String) :
    (Resolver.overSources sources).resolveWithin around guard (depth + 1) name =
      (let resolve := (Resolver.overSources sources).resolveWithin around guard depth
      let rest := Resolver.askFirst around guard resolve (sources.map .expanding) name
      if (Resolver.oneOf : Resolver η).mayKnow name then do
        match ← (Resolver.oneOf : Resolver η).ask around guard resolve name with
        | some value => pure (some value)
        | none => rest
      else rest) := rfl

def Stop.isOuter (stop : Stop) : Prop := ∀ name, stop ≠ .failed (.circular name)

theorem Stop.isOuter_exhausted : Stop.isOuter .exhausted := by
  simp [isOuter]

theorem Stop.isOuter_notFound (name : String) : Stop.isOuter (.failed (.notFound name)) := by
  simp [isOuter]

section

variable (h : CleanSources around.environment sources)

include h

theorem exists_expandWithin_eq (s : Session σ) (depth : Nat) (text : String) :
    ∃ result, (Resolver.overSources sources).expandWithin around Lookup.unguarded depth text =
      Lookup.ofExcept result := by
  refine Lookup.Steady.exists_eq (fun s₀ t₀ => ?_) s
  exact (follows_congruence fun _ => id).expandText fun name _ =>
    (isOwn_overSources h.plain).steady_resolveWithin depth name s₀ t₀

theorem expandWithin_eq_outcome (s : Session σ) (depth : Nat) (text : String) :
    (Resolver.overSources sources).expandWithin around Lookup.unguarded depth text =
      Lookup.ofExcept (((Resolver.overSources sources).expandWithin around Lookup.unguarded depth
        text).outcome s) := by
  obtain ⟨result, hresult⟩ := exists_expandWithin_eq h s depth text
  rw [hresult, Lookup.outcome_ofExcept]

theorem gives_fallback {depth : Nat}
    (hresolve : ∀ name : String, Text.isClean name.toList →
      ((Resolver.overSources sources).resolveWithin around Lookup.unguarded depth name).Gives
        Text.IsLiteralIfAny Stop.isOuter)
    {name : String} (hname : Text.isClean name.toList) :
    (fallback around sources depth name).Gives Text.IsLiteralIfAny Stop.isOuter := by
  intro s
  obtain ⟨result, hresult⟩ := exists_expandWithin_eq h s depth name
  have htext := gives_expandText hresolve Stop.isOuter_notFound hname s
  rw [← Resolver.expandWithin, hresult] at htext
  cases result with
  | error stop =>
    rw [fallback, askFirst_expanding_error (admits_unguarded name s) h.ne_nil
      (congrFun hresult s)]
    exact htext
  | ok expanded =>
    rw [fallback_eq h.plain (congrFun hresult s)]
    cases hvalue : knownValue? around.environment sources expanded with
    | none => exact Text.isLiteralIfAny_none
    | some value =>
      have hclean := h.clean_knownValue? hvalue
      refine (gives_expandText hresolve Stop.isOuter_notFound hclean).bind (fun text ht => ?_) s
      refine Lookup.gives_pure fun other hother => ?_
      cases hother
      exact ht

/-- Without marks, clean names come to values without dollar signs, and no cycle is told. -/
theorem gives_resolveWithin (depth : Nat) {name : String} (hname : Text.isClean name.toList) :
    ((Resolver.overSources sources).resolveWithin around Lookup.unguarded depth name).Gives
      Text.IsLiteralIfAny Stop.isOuter := by
  induction depth generalizing name with
  | zero => exact fun s => Stop.isOuter_exhausted
  | succ depth ih =>
    have hrest := gives_fallback h (fun name hname => ih hname) hname
    rw [resolveWithin_overSources]
    dsimp only
    split
    · refine @Lookup.Gives.bind σ _ _ Text.IsLiteralIfAny _ _ _ _ ?_ fun value hvalue => ?_
      · simp only [Resolver.ask]
        split
        · next body hbody =>
          rw [Text.toList_of_stripLead hbody] at hname
          have hparts := Part.isClean_of_mem_ofText (Text.isClean_of_append hname)
          exact Part.gives_expandFirst? (fun name hname => ih hname)
            fun alternative ha => isClean_of_mem_alternatives hparts ha
        · exact Lookup.gives_pure Text.isLiteralIfAny_none
      · cases value with
        | none => exact hrest
        | some value => exact Lookup.gives_pure hvalue
    · exact hrest

theorem gives_expandWithin (depth : Nat) {text : String} (htext : Text.isClean text.toList) :
    ((Resolver.overSources sources).expandWithin around Lookup.unguarded depth text).Gives
      Text.IsLiteral Stop.isOuter :=
  gives_expandText (fun _ hname => gives_resolveWithin h depth hname) Stop.isOuter_notFound htext

end

structure Session.Marked (marked : List String) (s t : Session σ) : Prop
    extends Session.SameBesideMarks s t where
  inProgress_eq : t.inProgress = marked

theorem Session.Marked.eq {marked : List String} {s t u : Session σ} (ht : Marked marked s t)
    (hu : Marked marked s u) : t = u := by
  obtain ⟨⟨htn, hth⟩, htm⟩ := ht
  obtain ⟨⟨hun, huh⟩, hum⟩ := hu
  obtain ⟨marks, notes, host⟩ := t
  obtain ⟨marks', notes', host'⟩ := u
  subst htn hth htm hum hun huh
  rfl

theorem Session.Marked.enter {marked : List String} {s t : Session σ} (h : Marked marked s t)
    (name : String) : Marked (name :: marked) s (t.enter name) where
  notes := h.notes
  host := h.host
  inProgress_eq := by rw [Session.enter, h.inProgress_eq]

theorem Session.Marked.leave {marked : List String} {name : String} {s t : Session σ}
    (h : Marked (name :: marked) s t) (hname : name ∉ marked) : Marked marked s (t.leave name) where
  notes := h.notes
  host := h.host
  inProgress_eq := Session.inProgress_leave h.inProgress_eq hname

theorem Lookup.Follows.guarded_of_not_mem {α : Type} {Open : Stop → Prop} {marked : List String}
    {name : String} {x y : Lookup σ α} (hname : name ∉ marked)
    (h : Follows (Session.Marked (name :: marked)) Open x y) :
    Follows (Session.Marked marked) Open x (Lookup.guarded name y) := by
  intro s t hst
  have hbody := h s (t.enter name) (hst.enter name)
  rw [Lookup.guarded_of_not_mem y (hst.inProgress_eq ▸ hname)]
  cases hx : x s with
  | ok a s' =>
    rw [hx] at hbody
    obtain ⟨t', hy, ht'⟩ := hbody
    rw [hy]
    exact ⟨_, rfl, ht'.leave hname⟩
  | error stop s' =>
    rw [hx] at hbody
    rcases hbody with hopen | ⟨t', hy, ht'⟩
    · exact .inl hopen
    · rw [hy]
      exact .inr ⟨_, rfl, ht'.leave hname⟩

variable (around sources)

/-- Within this bound, resolving clean names with marks follows resolving them without, as long as
the marks are on unsettled names. -/
def Agrees (depth : Nat) : Prop :=
  ∀ marked, Unsettled around sources depth marked → ∀ name : String, Text.isClean name.toList →
    Lookup.Follows (Session.Marked marked) (· = .exhausted)
      ((Resolver.overSources sources).resolveWithin around Lookup.unguarded depth name)
      ((Resolver.overSources sources).resolveWithin around Lookup.guarded depth name)

variable {around sources}

theorem Agrees.expandWithin {lower depth : Nat} (h : Agrees around sources lower)
    (hle : lower ≤ depth) {marked : List String} (hmarked : Unsettled around sources lower marked)
    {text : String} (htext : Text.isClean text.toList) :
    Lookup.Follows (Session.Marked marked) (· = .exhausted)
      ((Resolver.overSources sources).expandWithin around Lookup.unguarded lower text)
      ((Resolver.overSources sources).expandWithin around Lookup.guarded depth text) := by
  obtain ⟨extra, rfl⟩ := Nat.le.dest hle
  refine (follows_congruence fun _ => failed_ne_exhausted _).expandText fun name hname => ?_
  have hclean := Part.isClean_of_mem_ofText htext _ hname
  exact (h marked hmarked name hclean).trans
    (Resolver.resolveWithin_mono around _ (guarded_mono _) lower extra name)

theorem Agrees.expandKnown {lower depth : Nat} (h : Agrees around sources lower)
    (hle : lower ≤ depth) {marked : List String} (hmarked : Unsettled around sources lower marked)
    {value : String} (hvalue : Text.isClean value.toList) :
    Lookup.Follows (Session.Marked marked) (· = .exhausted)
      (expandKnown ((Resolver.overSources sources).resolveWithin around Lookup.unguarded lower) value)
      (expandKnown ((Resolver.overSources sources).resolveWithin around Lookup.guarded depth)
        value) :=
  (h.expandWithin hle hmarked hvalue).bind fun _ => Lookup.follows_pure _

/-- One step: if nested resolutions agree, so does asking the sources. -/
theorem fallback_follows (h : CleanSources around.environment sources) {depth : Nat}
    (hagrees : ∀ lower ≤ depth, Agrees around sources lower) {marked : List String}
    (hmarked : Unsettled around sources (depth + 1) marked) {name : String}
    (hname : Text.isClean name.toList) :
    Lookup.Follows (Session.Marked marked) (· = .exhausted) (fallback around sources depth name)
      (Resolver.askFirst around Lookup.guarded
        ((Resolver.overSources sources).resolveWithin around Lookup.guarded depth)
        (sources.map .expanding) name) := by
  intro s t hst
  by_cases hendless : fallback around sources depth name = .endless
  · rw [hendless]
    exact .inl rfl
  -- a name that has an end is not marked, because marked names have none
  have hfree : name ∉ marked := fun hmem => hendless (hmarked name hmem depth (Nat.lt_succ_self _))
  have hadmits : Admits Lookup.guarded name t (t.enter name) (·.leave name) :=
    admits_guarded (hst.inProgress_eq ▸ hfree)
  -- within the least bound that is enough for it, the name is not needed again
  obtain ⟨least, hleast, heq, hless⟩ := exists_least_bound h.plain s depth name
  have hinside : Unsettled around sources least (name :: marked) :=
    (hmarked.anti (Nat.le_succ_of_le hleast)).cons hless
  have htext := (hagrees least hleast).expandWithin hleast hinside hname s (t.enter name)
    (hst.enter name)
  obtain ⟨result, hresult⟩ := exists_expandWithin_eq h s least name
  rw [← heq] at hendless ⊢
  rw [hresult] at htext
  cases result with
  | error stop =>
    rw [fallback, askFirst_expanding_error (admits_unguarded name s) h.ne_nil
      (congrFun hresult s)]
    rcases htext with rfl | ⟨u, hu, hsu⟩
    · exact .inl rfl
    · exact .inr ⟨u.leave name, askFirst_expanding_error hadmits h.ne_nil hu, hsu.leave hfree⟩
  | ok expanded =>
    obtain ⟨u, hu, hsu⟩ := htext
    rw [hsu.eq (hst.enter name)] at hu
    by_cases hexpanded : expanded = name
    · rw [fallback_eq h.plain (congrFun hresult s),
        askFirst_expanding hadmits h.plain (fun hne => absurd hexpanded hne) hu]
      cases hvalue : knownValue? around.environment sources expanded with
      | none => exact ⟨t, rfl, hst⟩
      | some value =>
        simp only [expandKnownAround, if_pos hexpanded]
        have hknown := (hagrees least hleast).expandKnown hleast hinside
          (h.clean_knownValue? hvalue)
        exact hknown.guarded_of_not_mem hfree s t hst
    · have hliteral := gives_expandWithin h least hname s
      rw [hresult] at hliteral
      have hsame := fallback_expanded h.plain hliteral hresult
      have hfreeExpanded : expanded ∉ name :: marked := by
        intro hmem
        rcases List.mem_cons.1 hmem with hmem | hmem
        · exact hexpanded hmem
        · rw [hsame] at hendless
          exact hendless (hmarked expanded hmem least (Nat.lt_succ_of_le hleast))
      obtain ⟨least', hleast', heq', hless'⟩ := exists_least_bound h.plain s least expanded
      have hinside' : Unsettled around sources least' (expanded :: name :: marked) :=
        (hinside.anti hleast').cons hless'
      rw [hsame, ← heq', fallback_eq h.plain (congrFun (expandWithin_of_isLiteral least' hliteral) s),
        askFirst_expanding hadmits h.plain
          (fun _ => ⟨_, _, admits_guarded ((hst.enter name).inProgress_eq ▸ hfreeExpanded)⟩) hu]
      cases hvalue : knownValue? around.environment sources expanded with
      | none => exact ⟨t, rfl, hst⟩
      | some value =>
        simp only [expandKnownAround, if_neg hexpanded]
        have hle := Nat.le_trans hleast' hleast
        have hknown := (hagrees least' hle).expandKnown hle hinside' (h.clean_knownValue? hvalue)
        exact (hknown.guarded_of_not_mem hfreeExpanded).guarded_of_not_mem hfree s t hst

/-- Within every bound, what has an end without marks ends in the same way with marks. -/
theorem agrees (h : CleanSources around.environment sources) (depth : Nat) :
    Agrees around sources depth := by
  induction depth using Nat.strongRecOn with
  | ind depth ih =>
    intro marked hmarked name hname
    cases depth with
    | zero => exact fun _ _ _ => .inl rfl
    | succ depth =>
      have hrest := fallback_follows h (fun lower hle => ih lower (Nat.lt_succ_of_le hle)) hmarked
        hname
      rw [resolveWithin_overSources, resolveWithin_overSources]
      dsimp only
      split
      · refine Lookup.Follows.bind ?_ fun value => ?_
        · simp only [Resolver.ask]
          split
          · next body hbody =>
            rw [Text.toList_of_stripLead hbody] at hname
            have hparts := Part.isClean_of_mem_ofText (Text.isClean_of_append hname)
            refine (follows_congruence fun _ => failed_ne_exhausted _).expandFirst?
              fun alternative ha other hother => ?_
            exact ih depth (Nat.lt_succ_self depth) marked (hmarked.anti (Nat.le_succ depth)) other
              (isClean_of_mem_alternatives hparts ha _ hother)
          · exact Lookup.follows_pure none
        · cases value with
          | none => exact hrest
          | some value => exact Lookup.follows_pure _
      · exact hrest

end

theorem CleanSources.expandsPlain {environment : Environment} {sources : List (Resolver η)}
    (h : CleanSources environment sources) : (Resolver.overSources sources).ExpandsPlain := by
  refine .firstOf fun member hmember => ?_
  rcases List.mem_cons.1 hmember with rfl | hmember
  · exact .oneOf
  · obtain ⟨r, hr, rfl⟩ := List.mem_map.1 hmember
    exact .expanding (h.plain r hr)

section

variable {around : Surroundings η σ} {sources : List (Resolver η)}

theorem outcome_expand_eq (h : CleanSources around.environment sources) {s : Session σ}
    (hs : s.inProgress = []) {text : String} (htext : Text.isClean text.toList) {depth : Nat}
    (hne : ((Resolver.overSources sources).expandWithin around Lookup.unguarded depth
      text).outcome s ≠ .error .exhausted) :
    ((Resolver.overSources sources).expand around text).outcome s =
      ((Resolver.overSources sources).expandWithin around Lookup.unguarded depth text).outcome s := by
  have hagrees := (agrees h depth).expandWithin (Nat.le_refl depth)
    (fun _ hname => absurd hname List.not_mem_nil) htext
  have hmarked := hagrees.outcome_eq (s := s) (t := s) ⟨⟨rfl, rfl⟩, hs⟩
    fun stop hstop heq => hne (hstop.trans (congrArg _ heq))
  rw [← hmarked]
  refine (h.expandsPlain.expand_returns around s text).outcome_eq (fun extra => ?_) (hmarked ▸ hne)
  exact (Resolver.overSources sources).expandWithin_mono around (guarded_mono _) depth extra text

theorem outcome_resolve_eq (h : CleanSources around.environment sources) {s : Session σ}
    (hs : s.inProgress = []) {name : String} (hname : Text.isClean name.toList) {depth : Nat}
    (hne : ((Resolver.overSources sources).resolveWithin around Lookup.unguarded depth
      name).outcome s ≠ .error .exhausted) :
    ((Resolver.overSources sources).resolve around name).outcome s =
      ((Resolver.overSources sources).resolveWithin around Lookup.unguarded depth
        name).outcome s := by
  have hagrees := agrees h depth [] (fun _ hmem => absurd hmem List.not_mem_nil) name hname
  have hmarked := hagrees.outcome_eq (s := s) (t := s) ⟨⟨rfl, rfl⟩, hs⟩
    fun stop hstop heq => hne (hstop.trans (congrArg _ heq))
  rw [← hmarked]
  refine (h.expandsPlain.resolve_returns around s name).outcome_eq (fun extra => ?_) (hmarked ▸ hne)
  exact (Resolver.overSources sources).resolveWithin_mono around (guarded_mono _) depth extra name

theorem exists_outcome_eq (text : String) (s : Session σ)
    (houter : ∀ stop, ((Resolver.overSources sources).expand around text).outcome s =
      .error stop → ¬ stop.isInner) :
    ∃ depth, ((Resolver.overSources sources).expandWithin around Lookup.unguarded depth
        text).outcome s =
      ((Resolver.overSources sources).expand around text).outcome s :=
  ⟨_, (Resolver.expandWithin_follows_unguarded around (Resolver.overSources sources) _
    text).outcome_eq ⟨rfl, rfl⟩ houter⟩

theorem endless_of_circular (h : CleanSources around.environment sources) {s : Session σ}
    (hs : s.inProgress = []) {text name : String} (htext : Text.isClean text.toList)
    (hcircular : ((Resolver.overSources sources).expand around text).outcome s =
      .error (.failed (.circular name))) (depth : Nat) :
    ((Resolver.overSources sources).expandWithin around Lookup.unguarded depth text).outcome s =
      .error .exhausted := by
  by_contra hne
  have heq := (outcome_expand_eq h hs htext hne).symm.trans hcircular
  exact (gives_expandWithin h depth htext).of_outcome heq name rfl

theorem circular_of_endless (h : CleanSources around.environment sources) {s : Session σ}
    {text : String}
    (hendless : ∀ depth, ((Resolver.overSources sources).expandWithin around Lookup.unguarded depth
      text).outcome s = .error .exhausted) :
    ∃ name, ((Resolver.overSources sources).expand around text).outcome s =
      .error (.failed (.circular name)) := by
  have hne := h.expandsPlain.outcome_expand_ne around s text
  by_contra hno
  have houter : ∀ stop, ((Resolver.overSources sources).expand around text).outcome s =
      .error stop → ¬ stop.isInner := by
    intro stop hstop hinner
    match stop with
    | .failed (.circular name) => exact hno ⟨name, hstop⟩
    | .failed (.notFound _) => exact hinner
    | .exhausted => exact hne hstop
  obtain ⟨depth, hdepth⟩ := exists_outcome_eq text s houter
  exact hne (hdepth.symm.trans (hendless depth))

theorem cleanSources_sources {environment : Environment} (options : Options) {root : Element}
    (hroot : root.isClean) (henvironment : environment.isClean) :
    CleanSources environment (options.sources root : List (Resolver η)) where
  ne_nil := options.sources_ne_nil root
  plain _ hr := Options.isPlain_of_mem_sources hr
  clean _ hr _ _ hvalue := Options.isClean_of_mem_sources hroot henvironment hr hvalue

/-- On a standard chain over a clean tree and a clean environment, a clean text is expanded to a
value, or stopped by a name that is not found, if and only if that is so without marks; and a cycle
is told if and only if the expansion without marks is stopped by every bound. -/
theorem cycles_are_exact (options : Options) {root : Element} (hroot : root.isClean)
    (around : Surroundings η σ) (henvironment : around.environment.isClean) {s : Session σ}
    (hs : s.inProgress = []) {text : String} (htext : Text.isClean text.toList) :
    let chain : Resolver η := standardChain [] options root
    let withMarks := (chain.expand around text).outcome s
    let without := fun depth => (chain.expandWithin around Lookup.unguarded depth text).outcome s
    (∀ value, withMarks = .ok value ↔ ∃ depth, without depth = .ok value) ∧
    (∀ name, withMarks = .error (.failed (.notFound name)) ↔
      ∃ depth, without depth = .error (.failed (.notFound name))) ∧
    ((∃ name, withMarks = .error (.failed (.circular name))) ↔
      ∀ depth, without depth = .error .exhausted) := by
  have h : CleanSources around.environment (options.sources root : List (Resolver η)) :=
    cleanSources_sources options hroot henvironment
  rw [standardChain_nil]
  intro chain withMarks without
  have heq : ∀ {depth}, without depth ≠ .error .exhausted → withMarks = without depth :=
    fun hne => outcome_expand_eq h hs htext hne
  have hexists : (∀ stop, withMarks = .error stop → ¬ stop.isInner) →
      ∃ depth, without depth = withMarks := exists_outcome_eq text s
  refine ⟨fun value => ⟨fun hvalue => ?_, ?_⟩, fun name => ⟨fun hname => ?_, ?_⟩, ?_, ?_⟩
  · obtain ⟨depth, hdepth⟩ := hexists fun stop hstop => by simp [hvalue] at hstop
    exact ⟨depth, hdepth.trans hvalue⟩
  · rintro ⟨depth, hdepth⟩
    exact (heq (by simp [hdepth])).trans hdepth
  · obtain ⟨depth, hdepth⟩ := hexists fun stop hstop => by
      rw [hname] at hstop
      cases hstop
      exact id
    exact ⟨depth, hdepth.trans hname⟩
  · rintro ⟨depth, hdepth⟩
    exact (heq (by simp [hdepth])).trans hdepth
  · rintro ⟨name, hname⟩
    exact endless_of_circular h hs htext hname
  · exact circular_of_endless h

end

def mutualAttributes : Element := ⟨"a", ⟨[("x", "${y}"), ("y", "${x}")]⟩, []⟩

theorem mutualAttributes_endless :
    ((standardChain [] ⟨false, false, none, true, true⟩ mutualAttributes : Resolver Empty).expand
      (noHost .empty) "${x}").outcome (Session.start ()) = .error (.failed (.circular "x")) ∧
    ∀ depth, ((standardChain [] ⟨false, false, none, true, true⟩ mutualAttributes :
      Resolver Empty).expandWithin (noHost .empty) Lookup.unguarded depth "${x}").outcome
        (Session.start ()) = .error .exhausted := by
  have hroot : mutualAttributes.isClean := rfl
  have htext : Text.isClean "${x}".toList := rfl
  have hcircular : ((standardChain [] ⟨false, false, none, true, true⟩ mutualAttributes :
      Resolver Empty).expand (noHost .empty) "${x}").outcome (Session.start ()) =
        .error (.failed (.circular "x")) := rfl
  have hexact := cycles_are_exact (η := Empty) ⟨false, false, none, true, true⟩ hroot
    (noHost .empty) rfl (s := Session.start ()) rfl htext
  exact ⟨hcircular, hexact.2.2.1 ⟨"x", hcircular⟩⟩

end ConfigOverlay
