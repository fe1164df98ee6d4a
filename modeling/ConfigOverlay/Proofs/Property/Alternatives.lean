import ConfigOverlay.Proofs.Property.Placeholder
import ConfigOverlay.Property.Resolve

/-!
Names that list alternatives. The alternatives are what stands between the commas outside
placeholders. They are tried from left to right, and the placeholders of each from left to right:
the first alternative whose placeholders all have values is the answer. One that has a placeholder
without a value is passed over; any other failure is the answer's.
-/

set_option autoImplicit false

namespace ConfigOverlay

/-- What a comma may stand between: the characters of a literal, or a placeholder as a whole. -/
def Part.units : Part → List (Char ⊕ String)
  | .literal text => text.toList.map .inl
  | .placeholder name => [.inr name]

def Part.isChar (c : Char) : Char ⊕ String → Bool
  | .inl d => d == c
  | .inr _ => false

section

variable {α β : Type}

theorem spliced_cons {pieces : List (List α)} (h : pieces ≠ []) (piece : List α)
    (others : List (List α)) :
    spliced (piece :: pieces) others = piece :: spliced pieces others := by
  cases pieces with
  | nil => exact absurd rfl h
  | cons next pieces => rw [spliced.eq_4] <;> simp

theorem spliced_singleton {others : List (List α)} (h : others ≠ []) (last : List α) :
    spliced [last] others = others.modifyHead (last ++ ·) := by
  cases others with
  | nil => exact absurd rfl h
  | cons first others => rfl

theorem spliced_ne_nil {pieces others : List (List α)} (h : others ≠ []) :
    spliced pieces others ≠ [] := by
  fun_cases spliced pieces others <;> simp_all

theorem map_spliced (f : List α → List β) (hf : ∀ l more, f (l ++ more) = f l ++ f more)
    (pieces others : List (List α)) :
    (spliced pieces others).map f = spliced (pieces.map f) (others.map f) := by
  induction pieces with
  | nil => rfl
  | cons piece pieces ih =>
    rcases eq_or_ne pieces [] with rfl | hne
    · cases others <;> simp [spliced, hf]
    · rw [spliced_cons hne, List.map_cons, ih, List.map_cons, spliced_cons (by simpa using hne)]

theorem modifyHead_spliced (a : α) {pieces : List (List α)} (h : pieces ≠ [])
    (others : List (List α)) :
    (spliced pieces others).modifyHead (a :: ·) =
      spliced (pieces.modifyHead (a :: ·)) others := by
  cases pieces with
  | nil => exact absurd rfl h
  | cons piece pieces =>
    rcases eq_or_ne pieces [] with rfl | hne
    · cases others <;> rfl
    · rw [spliced_cons hne, List.modifyHead_cons, List.modifyHead_cons, spliced_cons hne]

theorem splitOnP_append (p : α → Bool) (l more : List α) :
    (l ++ more).splitOnP p = spliced (l.splitOnP p) (more.splitOnP p) := by
  induction l with
  | nil =>
    rw [List.nil_append, List.splitOnP_nil, spliced_singleton (List.splitOnP_ne_nil p more)]
    cases more.splitOnP p <;> rfl
  | cons a l ih =>
    have hl := List.splitOnP_ne_nil p l
    rw [List.cons_append, List.splitOnP_cons_eq_if_modifyHead,
      List.splitOnP_cons_eq_if_modifyHead, ih]
    split
    · rw [spliced_cons hl]
    · rw [← modifyHead_spliced a hl]

end

namespace Text

theorem joined_cons (sep : Char) {pieces : List (List Char)} (h : pieces ≠ []) (piece : List Char) :
    joined sep (piece :: pieces) = piece ++ sep :: joined sep pieces :=
  joined.eq_3 sep piece pieces h

theorem joined_spliced (sep : Char) {pieces others : List (List Char)} (hpieces : pieces ≠ [])
    (hothers : others ≠ []) :
    joined sep (spliced pieces others) = joined sep pieces ++ joined sep others := by
  induction pieces with
  | nil => exact absurd rfl hpieces
  | cons piece pieces ih =>
    rcases eq_or_ne pieces [] with rfl | hne
    · cases others with
      | nil => exact absurd rfl hothers
      | cons first others => cases others <;> simp [spliced, joined]
    · rw [spliced_cons hne, joined_cons sep (spliced_ne_nil hothers), ih hne, joined_cons sep hne]
      simp

theorem splitOnP_inl (sep : Char) (s : List Char) :
    (s.map .inl).splitOnP (Part.isChar sep) = (segments sep s).map (List.map .inl) := by
  induction s with
  | nil => rfl
  | cons c rest ih =>
    rw [List.map_cons, List.splitOnP_cons_eq_if_modifyHead, ih, segments]
    by_cases hc : c = sep
    · simp [hc, Part.isChar]
    · cases hs : segments sep rest with
      | nil => exact absurd hs (segments_ne_nil sep rest)
      | cons piece pieces => simp [hc, Part.isChar]

end Text

namespace Part

theorem flatMap_units_ofPiece (piece : List Char) :
    (ofPiece piece).flatMap units = piece.map .inl := by
  cases piece <;> simp [ofPiece, units]

theorem flatMap_written_ofPiece (piece : List Char) : (ofPiece piece).flatMap written = piece := by
  cases piece <;> simp [ofPiece, written]

end Part

theorem alternatives_ne_nil (parts : List Part) : alternatives parts ≠ [] := by
  induction parts with
  | nil => simp [alternatives]
  | cons part rest ih => cases part <;> exact spliced_ne_nil ih

theorem map_units_alternatives (parts : List Part) :
    (alternatives parts).map (List.flatMap Part.units) =
      (parts.flatMap Part.units).splitOnP (Part.isChar ',') := by
  induction parts with
  | nil => rfl
  | cons part rest ih =>
    rw [List.flatMap_cons, splitOnP_append, ← ih]
    cases part with
    | placeholder name =>
      rw [alternatives, map_spliced _ (by simp)]
      rfl
    | literal text =>
      rw [alternatives, map_spliced _ (by simp), Part.units, Text.splitOnP_inl]
      simp [Function.comp_def, Part.flatMap_units_ofPiece]

theorem joined_alternatives (parts : List Part) :
    Text.joined ',' ((alternatives parts).map (List.flatMap Part.written)) =
      parts.flatMap Part.written := by
  induction parts with
  | nil => rfl
  | cons part rest ih =>
    have hrest := alternatives_ne_nil rest
    rw [List.flatMap_cons, ← ih]
    cases part with
    | placeholder name =>
      rw [alternatives, map_spliced _ (by simp), Text.joined_spliced ',' (by simp) (by simpa using hrest)]
      simp [Text.joined]
    | literal text =>
      have hpieces := Text.segments_ne_nil ',' text.toList
      rw [alternatives, map_spliced _ (by simp), Text.joined_spliced ',' (by simpa using hpieces)
        (by simpa using hrest)]
      simp [Function.comp_def, Part.flatMap_written_ofPiece, Text.joined_segments, Part.written]

theorem literal_of_alternatives {parts alternative : List Part}
    (ha : alternative ∈ alternatives parts) {text : String} (h : .literal text ∈ alternative) :
    text ≠ "" ∧ ',' ∉ text.toList := by
  have hof : ∀ part ∈ alternative, ∀ other, part = .literal other →
      other ≠ "" ∧ ',' ∉ other.toList := by
    refine of_mem_alternatives (by simp) ?_ ha
    rintro whole - piece hpiece hne other ⟨⟩
    exact ⟨by simpa [String.ext_iff] using hne,
      by simpa using Text.not_mem_of_mem_segments hpiece⟩
  exact hof _ h text rfl

/-- The pieces between the commas outside placeholders. -/
structure CutAtCommas (parts : List Part) (pieces : List (List Part)) : Prop where
  units : pieces.map (List.flatMap Part.units) =
    (parts.flatMap Part.units).splitOnP (Part.isChar ',')
  written : Text.joined ',' (pieces.map (List.flatMap Part.written)) = parts.flatMap Part.written
  literals : ∀ piece ∈ pieces, ∀ text, .literal text ∈ piece → text ≠ "" ∧ ',' ∉ text.toList

theorem cutAtCommas_alternatives (parts : List Part) : CutAtCommas parts (alternatives parts) where
  units := map_units_alternatives parts
  written := joined_alternatives parts
  literals _ ha _ := literal_of_alternatives ha

variable {η σ : Type}

theorem Lookup.orAbsent_error {α : Type} {x : Lookup σ (Option α)} {s t : Session σ} {stop : Stop}
    (h : x s = .error stop t) (hstop : ∀ missing, stop ≠ .failed (.notFound missing)) :
    x.orAbsent s = .error stop t := by
  simp only [orAbsent, h]
  split
  · next heq =>
    cases heq
    exact absurd rfl (hstop _)
  · rfl

namespace Part

section

variable (resolve : Resolution σ)

/-- Begun in `s`, each placeholder has a value, one after another, and with the values in their
places the parts are `value`. -/
inductive Resolves : List Part → Session σ → String → Session σ → Prop where
  | nil (s : Session σ) : Resolves [] s "" s
  | literal {parts : List Part} {s t : Session σ} {value : String} (text : String)
    (rest : Resolves parts s value t) : Resolves (.literal text :: parts) s (text ++ value) t
  | placeholder {parts : List Part} {name found value : String} {s t u : Session σ}
    (first : resolve name s = .ok (some found) t) (rest : Resolves parts t value u) :
    Resolves (.placeholder name :: parts) s (found ++ value) u

/-- Begun in `s`, the placeholders before one of this name have values, and it is asked for in
`t`. -/
inductive Reaches : List Part → Session σ → String → Session σ → Prop where
  | here (name : String) (rest : List Part) (s : Session σ) :
    Reaches (.placeholder name :: rest) s name s
  | literal {parts : List Part} {s t : Session σ} {name : String} (text : String)
    (rest : Reaches parts s name t) : Reaches (.literal text :: parts) s name t
  | placeholder {parts : List Part} {other found name : String} {s t u : Session σ}
    (first : resolve other s = .ok (some found) t) (rest : Reaches parts t name u) :
    Reaches (.placeholder other :: parts) s name u

/-- The first placeholder without a value is absent or not found. -/
def PassedOver (parts : List Part) (s u : Session σ) : Prop :=
  ∃ name t, Reaches resolve parts s name t ∧ (resolve name t = .ok none u ∨
    ∃ missing, resolve name t = .error (.failed (.notFound missing)) u)

def Fails (parts : List Part) (s : Session σ) (stop : Stop) (u : Session σ) : Prop :=
  ∃ name t, Reaches resolve parts s name t ∧ resolve name t = .error stop u ∧
    ∀ missing, stop ≠ .failed (.notFound missing)

inductive AllPassedOver : List (List Part) → Session σ → Session σ → Prop where
  | nil (s : Session σ) : AllPassedOver [] s s
  | cons {parts : List Part} {others : List (List Part)} {s t u : Session σ}
    (first : PassedOver resolve parts s t) (rest : AllPassedOver others t u) :
    AllPassedOver (parts :: others) s u

variable {resolve} {parts : List Part} {s t u : Session σ} {name value : String} {stop : Stop}

theorem Reaches.mem (h : Reaches resolve parts s name t) : .placeholder name ∈ parts := by
  induction h with
  | here => exact List.mem_cons_self
  | literal _ _ ih => exact List.mem_cons_of_mem _ ih
  | placeholder _ _ ih => exact List.mem_cons_of_mem _ ih

/-- Either all placeholders have values, or there is a first one that has none. -/
theorem resolves_or_reaches (resolve : Resolution σ) (parts : List Part) (s : Session σ) :
    (∃ value t, Resolves resolve parts s value t) ∨
      ∃ name t, Reaches resolve parts s name t ∧ ∀ found u, resolve name t ≠ .ok (some found) u := by
  induction parts generalizing s with
  | nil => exact .inl ⟨"", s, .nil s⟩
  | cons part rest ih =>
    cases part with
    | literal text =>
      rcases ih s with ⟨value, t, hrest⟩ | ⟨name, t, hreaches, hname⟩
      · exact .inl ⟨text ++ value, t, hrest.literal text⟩
      · exact .inr ⟨name, t, hreaches.literal text, hname⟩
    | placeholder other =>
      by_cases hother : ∃ found u, resolve other s = .ok (some found) u
      · obtain ⟨found, u, hother⟩ := hother
        rcases ih u with ⟨value, t, hrest⟩ | ⟨name, t, hreaches, hname⟩
        · exact .inl ⟨found ++ value, t, .placeholder hother hrest⟩
        · exact .inr ⟨name, t, .placeholder hother hreaches, hname⟩
      · exact .inr ⟨other, s, .here other rest s, by simpa using hother⟩

/-- An alternative resolves, is passed over, or fails. -/
theorem alternative_cases (resolve : Resolution σ) (parts : List Part) (s : Session σ) :
    (∃ value u, Resolves resolve parts s value u) ∨ (∃ u, PassedOver resolve parts s u) ∨
      ∃ stop u, Fails resolve parts s stop u := by
  rcases resolves_or_reaches resolve parts s with h | ⟨name, t, hreaches, hname⟩
  · exact .inl h
  · right
    cases hresult : resolve name t with
    | ok found u =>
      cases found with
      | some found => exact absurd hresult (hname found u)
      | none => exact .inl ⟨u, name, t, hreaches, .inl hresult⟩
    | error stop u =>
      by_cases hstop : ∃ missing, stop = .failed (.notFound missing)
      · obtain ⟨missing, rfl⟩ := hstop
        exact .inl ⟨u, name, t, hreaches, .inr ⟨missing, hresult⟩⟩
      · exact .inr ⟨stop, u, name, t, hreaches, hresult, by simpa using hstop⟩

theorem Resolves.expandAll?_eq (h : Resolves resolve parts s value t) :
    expandAll? resolve parts s = .ok (some value) t := by
  induction h with
  | nil s => rfl
  | literal text _ ih => simp [expandAll?, bind, EStateM.bind, ih, pure, EStateM.pure]
  | placeholder first _ ih =>
    simp [expandAll?, Lookup.orAbsent, bind, EStateM.bind, first, ih, pure, EStateM.pure]

theorem bind_map_eq {x : Lookup σ (Option String)}
    {result : EStateM.Result Stop (Session σ) (Option String)} (hx : x s = result)
    (hresult : ∀ found v, result ≠ .ok (some found) v) (f : String → String) :
    (do let found ← x; pure (found.map f) : Lookup σ (Option String)) s = result := by
  subst hx
  simp only [bind, EStateM.bind]
  cases hx : x s with
  | error stop u => rfl
  | ok found u =>
    cases found with
    | none => rfl
    | some found => exact absurd hx (hresult found u)

theorem Reaches.expandAll?_eq (h : Reaches resolve parts s name t)
    {result : EStateM.Result Stop (Session σ) (Option String)}
    (hresult : ∀ found v, result ≠ .ok (some found) v)
    (hname : (resolve name).orAbsent t = result) : expandAll? resolve parts s = result := by
  induction h with
  | here name rest s =>
    simp only [expandAll?, bind, EStateM.bind, hname]
    cases result with
    | error stop u => rfl
    | ok found u =>
      cases found with
      | none => rfl
      | some found => exact absurd rfl (hresult found u)
  | literal text _ ih => exact bind_map_eq (ih hname) hresult (text ++ ·)
  | @placeholder _ _ found _ _ _ _ first _ ih =>
    simp only [expandAll?, Lookup.orAbsent, bind, EStateM.bind, first]
    exact bind_map_eq (ih hname) hresult (found ++ ·)

theorem PassedOver.expandAll?_eq (h : PassedOver resolve parts s u) :
    expandAll? resolve parts s = .ok none u := by
  obtain ⟨name, t, hreaches, hname⟩ := h
  refine hreaches.expandAll?_eq (by simp) ?_
  rcases hname with hname | ⟨missing, hname⟩ <;> simp [Lookup.orAbsent, hname]

theorem Fails.expandAll?_eq (h : Fails resolve parts s stop u) :
    expandAll? resolve parts s = .error stop u := by
  obtain ⟨name, t, hreaches, hname, hstop⟩ := h
  exact hreaches.expandAll?_eq (by simp) (Lookup.orAbsent_error hname hstop)

/-- The first alternative that is not passed over is like this, in the session that it is tried
in. -/
def AtFirst (resolve : Resolution σ) (P : List Part → Session σ → Prop)
    (listed : List (List Part)) (s : Session σ) : Prop :=
  ∃ before alternative after t, listed = before ++ alternative :: after ∧
    AllPassedOver resolve before s t ∧ P alternative t

theorem AtFirst.cons {P : List Part → Session σ → Prop} {listed : List (List Part)}
    (hfirst : PassedOver resolve parts s t) (h : AtFirst resolve P listed t) :
    AtFirst resolve P (parts :: listed) s := by
  obtain ⟨before, alternative, after, u, rfl, hbefore, halternative⟩ := h
  exact ⟨parts :: before, alternative, after, u, rfl, .cons hfirst hbefore, halternative⟩

theorem AllPassedOver.expandFirst?_append {before : List (List Part)}
    (h : AllPassedOver resolve before s t) (after : List (List Part)) :
    expandFirst? resolve (before ++ after) s = expandFirst? resolve after t := by
  induction h with
  | nil s => rfl
  | cons first _ ih =>
    simp only [List.cons_append, expandFirst?, bind, EStateM.bind, first.expandAll?_eq, ih]

variable {listed : List (List Part)}

theorem AllPassedOver.expandFirst?_eq (h : AllPassedOver resolve listed s u) :
    expandFirst? resolve listed s = .ok none u := by
  have hall := h.expandFirst?_append []
  rwa [List.append_nil] at hall

theorem AtFirst.expandFirst?_resolves
    (h : AtFirst resolve (Resolves resolve · · value u) listed s) :
    expandFirst? resolve listed s = .ok (some value) u := by
  obtain ⟨before, alternative, after, t, rfl, hbefore, halternative⟩ := h
  rw [hbefore.expandFirst?_append]
  simp [expandFirst?, bind, EStateM.bind, halternative.expandAll?_eq, pure, EStateM.pure]

theorem AtFirst.expandFirst?_fails (h : AtFirst resolve (Fails resolve · · stop u) listed s) :
    expandFirst? resolve listed s = .error stop u := by
  obtain ⟨before, alternative, after, t, rfl, hbefore, halternative⟩ := h
  rw [hbefore.expandFirst?_append]
  simp [expandFirst?, bind, EStateM.bind, halternative.expandAll?_eq]

/-- Alternatives are tried up to one that resolves or fails, if there is any. -/
theorem alternatives_cases (resolve : Resolution σ) (listed : List (List Part)) (s : Session σ) :
    (∃ value u, AtFirst resolve (Resolves resolve · · value u) listed s) ∨
      (∃ u, AllPassedOver resolve listed s u) ∨
      ∃ stop u, AtFirst resolve (Fails resolve · · stop u) listed s := by
  induction listed generalizing s with
  | nil => exact .inr (.inl ⟨s, .nil s⟩)
  | cons parts others ih =>
    rcases alternative_cases resolve parts s with ⟨value, u, h⟩ | ⟨t, h⟩ | ⟨stop, u, h⟩
    · exact .inl ⟨value, u, [], parts, others, s, rfl, .nil s, h⟩
    · rcases ih t with ⟨value, u, hothers⟩ | ⟨u, hothers⟩ | ⟨stop, u, hothers⟩
      · exact .inl ⟨value, u, hothers.cons h⟩
      · exact .inr (.inl ⟨u, .cons h hothers⟩)
      · exact .inr (.inr ⟨stop, u, hothers.cons h⟩)
    · exact .inr (.inr ⟨stop, u, [], parts, others, s, rfl, .nil s, h⟩)

theorem expandFirst?_eq_some_iff :
    expandFirst? resolve listed s = .ok (some value) u ↔
      AtFirst resolve (Resolves resolve · · value u) listed s := by
  refine ⟨fun heq => ?_, AtFirst.expandFirst?_resolves⟩
  rcases alternatives_cases resolve listed s with ⟨_, _, h⟩ | ⟨_, h⟩ | ⟨_, _, h⟩
  · rw [h.expandFirst?_resolves] at heq
    cases heq
    exact h
  · cases heq.symm.trans h.expandFirst?_eq
  · cases heq.symm.trans h.expandFirst?_fails

theorem expandFirst?_eq_none_iff :
    expandFirst? resolve listed s = .ok none u ↔ AllPassedOver resolve listed s u := by
  refine ⟨fun heq => ?_, AllPassedOver.expandFirst?_eq⟩
  rcases alternatives_cases resolve listed s with ⟨_, _, h⟩ | ⟨_, h⟩ | ⟨_, _, h⟩
  · cases heq.symm.trans h.expandFirst?_resolves
  · rw [h.expandFirst?_eq] at heq
    cases heq
    exact h
  · cases heq.symm.trans h.expandFirst?_fails

theorem expandFirst?_eq_error_iff :
    expandFirst? resolve listed s = .error stop u ↔
      AtFirst resolve (Fails resolve · · stop u) listed s := by
  refine ⟨fun heq => ?_, AtFirst.expandFirst?_fails⟩
  rcases alternatives_cases resolve listed s with ⟨_, _, h⟩ | ⟨_, h⟩ | ⟨_, _, h⟩
  · cases heq.symm.trans h.expandFirst?_resolves
  · cases heq.symm.trans h.expandFirst?_eq
  · rw [h.expandFirst?_fails] at heq
    cases heq
    exact h

theorem resolves_of_no_placeholder (h : ∀ name, .placeholder name ∉ parts) (s : Session σ) :
    Resolves resolve parts s (String.ofList (parts.flatMap written)) s := by
  induction parts with
  | nil => exact .nil s
  | cons part rest ih =>
    cases part with
    | placeholder name => exact absurd List.mem_cons_self (h name)
    | literal text =>
      have hrest := ih fun name hname => h name (List.mem_cons_of_mem _ hname)
      simpa [written] using hrest.literal text

theorem not_passedOver_of_no_placeholder (h : ∀ name, .placeholder name ∉ parts)
    (s u : Session σ) : ¬ PassedOver resolve parts s u := by
  rintro ⟨name, t, hreaches, -⟩
  exact h name hreaches.mem

end

end Part

theorem ask_oneOf (around : Surroundings η σ) (guard : Guard σ) (resolve : Resolution σ)
    (body : String) :
    Resolver.oneOf.ask around guard resolve (Resolver.oneOfLead ++ body) =
      Part.expandFirst? resolve (alternatives (Part.ofText body)) := by
  simp only [Resolver.ask, Text.stripLead_append]

/-- The answer to a name that lists alternatives is the first of them whose placeholders, resolved
by the whole chain, all have values. Those before it have a placeholder that is absent or not found;
any other failure on the way is the answer. One without placeholders is never passed over. -/
theorem first_resolved_alternative (around : Surroundings η σ) (chain : Resolver η) (depth : Nat)
    (body : String) (s : Session σ) :
    let resolve := chain.resolveWithin around Lookup.guarded depth
    let listed := alternatives (Part.ofText body)
    let answer := Resolver.oneOf.ask around Lookup.guarded resolve (Resolver.oneOfLead ++ body) s
    (CutAtCommas (Part.ofText body) listed ∧
      (Part.ofText body).flatMap Part.written = body.toList) ∧
    (∀ value u, answer = .ok (some value) u ↔
      Part.AtFirst resolve (Part.Resolves resolve · · value u) listed s) ∧
    (∀ u, answer = .ok none u ↔ Part.AllPassedOver resolve listed s u) ∧
    (∀ stop u, answer = .error stop u ↔
      Part.AtFirst resolve (Part.Fails resolve · · stop u) listed s) ∧
    ∀ alternative ∈ listed, (∀ name, .placeholder name ∉ alternative) → ∀ t,
      Part.Resolves resolve alternative t (String.ofList (alternative.flatMap Part.written)) t ∧
      ∀ u, ¬ Part.PassedOver resolve alternative t u := by
  intro resolve listed answer
  have hanswer : answer = Part.expandFirst? resolve listed s :=
    congrFun (ask_oneOf around Lookup.guarded resolve body) s
  refine ⟨⟨cutAtCommas_alternatives _, Part.flatMap_written_ofText body⟩, ?_, ?_, ?_, ?_⟩
  · exact fun value u => hanswer ▸ Part.expandFirst?_eq_some_iff
  · exact fun u => hanswer ▸ Part.expandFirst?_eq_none_iff
  · exact fun stop u => hanswer ▸ Part.expandFirst?_eq_error_iff
  · exact fun alternative _ h t => ⟨Part.resolves_of_no_placeholder h t,
      Part.not_passedOver_of_no_placeholder h t⟩

example : alternatives (Part.ofText "a${x,y},,b") =
    [[.literal "a", .placeholder "x,y"], [], [.literal "b"]] := by decide

end ConfigOverlay
