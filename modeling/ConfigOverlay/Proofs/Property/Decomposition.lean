import ConfigOverlay.Proofs.Property.Concatenation
import Mathlib.Data.List.Chain

/-!
The parts of a text. A name between braces is balanced, and a level that is never closed makes the
rest of the text its last part. Of all ways to write a text as literals and placeholders only one
is like that, and it is what a scan gives.
-/

set_option autoImplicit false

namespace ConfigOverlay

namespace Text

/-- Each level that is opened in the text is closed in it, and no brace closes any other level. -/
inductive Balanced : List Char → Prop where
  | nil : Balanced []
  | char {c : Char} {s : List Char} (hclose : c ≠ '}') (hopen : c = '$' → s.head? ≠ some '{')
    (rest : Balanced s) : Balanced (c :: s)
  | level {name s : List Char} (inside : Balanced name) (rest : Balanced s) :
    Balanced ('$' :: '{' :: (name ++ '}' :: s))

def NeverClosed (rest : List Char) : Prop :=
  ∀ name after, rest = name ++ '}' :: after → ¬ Balanced name

theorem ne_brace_of_head? {c : Char} {s rest : List Char} (hs : c = '$' → s.head? ≠ some '{')
    (hrest : rest.head? ≠ some '{') : ∀ after, c = '$' → s ++ rest ≠ '{' :: after := by
  rintro after hc h
  cases s with
  | nil => exact hrest (by simp_all)
  | cons d s => exact hs hc (by simp_all)

theorem Balanced.closes_append {name : List Char} (h : Balanced name) (depth : Nat)
    {rest : List Char} (hrest : rest.head? ≠ some '{') :
    closes depth (name ++ rest) = closes depth rest := by
  induction h generalizing depth rest with
  | nil => rfl
  | char hclose hopen _ ih =>
    rw [List.cons_append, closes_cons (ne_brace_of_head? hopen hrest) hclose, ih depth hrest]
  | @level name s _ _ ihname ihs =>
    have hbrace : ('}' :: (s ++ rest)).head? ≠ some '{' := by simp
    have hinside := ihname (depth + 1) hbrace
    rw [closes.eq_4, ihs depth hrest] at hinside
    simpa [closes] using hinside

theorem exists_of_closes {depth : Nat} {rest : List Char} (h : closes depth rest) :
    ∃ name after, Balanced name ∧ rest = name ++ '}' :: after ∧
      ∀ lower, depth = lower + 1 → closes lower after := by
  -- behind the level that is opened first there is another text to look at
  induction hlength : rest.length using Nat.strongRecOn generalizing depth rest with
  | ind length ih =>
    subst hlength
    fun_cases closes depth rest with
    | case1 depth => cases h
    | case2 depth rest =>
      have hlevel : closes (depth + 1) rest := by simpa only [closes] using h
      obtain ⟨inside, between, hinside, rfl, hbetween⟩ :=
        ih rest.length (by simp only [List.length_cons]; omega) hlevel rfl
      obtain ⟨name, after, hname, rfl, hafter⟩ :=
        ih between.length (by simp only [List.length_cons, List.length_append]; omega)
          (hbetween depth rfl) rfl
      exact ⟨'$' :: '{' :: (inside ++ '}' :: name), after, .level hinside hname, by simp, hafter⟩
    | case3 rest => exact ⟨[], rest, .nil, rfl, by simp⟩
    | case4 depth rest =>
      refine ⟨[], rest, .nil, rfl, fun lower hlower => ?_⟩
      cases hlower
      simpa only [closes] using h
    | case5 depth c rest hopen hzero hsucc =>
      have hclose : c ≠ '}' := by
        rintro rfl
        cases depth with
        | zero => exact hzero rfl rfl
        | succ depth => exact hsucc depth rfl rfl
      rw [closes_cons hopen hclose] at h
      obtain ⟨name, after, hname, rfl, hafter⟩ := ih rest.length (by simp) h rfl
      refine ⟨c :: name, after, .char hclose (fun hc hhead => ?_) hname, rfl, hafter⟩
      obtain ⟨name, rfl⟩ := List.head?_eq_some_iff.1 hhead
      exact hopen (name ++ '}' :: after) hc rfl

theorem neverClosed_iff {rest : List Char} : NeverClosed rest ↔ closes 0 rest = false := by
  constructor
  · intro h
    by_contra hcloses
    obtain ⟨name, after, hname, hrest, -⟩ := exists_of_closes (by simpa using hcloses)
    exact h name after hrest hname
  · rintro h name after rfl hname
    rw [hname.closes_append 0 (by simp)] at h
    cases h

theorem exists_opening {s : List Char} (h : opensPlaceholder s) :
    ∃ before rest, s = before ++ '$' :: '{' :: rest ∧ opensPlaceholder before = false := by
  fun_induction opensPlaceholder s with
  | case1 => cases h
  | case2 rest => exact ⟨[], rest, rfl, rfl⟩
  | case3 c s hlevel ih =>
    obtain ⟨before, rest, rfl, hbefore⟩ := ih h
    refine ⟨c :: before, rest, rfl, ?_⟩
    rw [opensPlaceholder.eq_3]
    · exact hbefore
    · rintro after hc rfl
      exact hlevel _ hc rfl

end Text

open Text

namespace Part

theorem scan_balanced {name : List Char} (h : Balanced name) (before seen : List Char)
    (depth : Nat) {rest : List Char} (hrest : rest.head? ≠ some '{') :
    scan (.name before depth seen) (name ++ rest) =
      scan (.name before depth (name.reverse ++ seen)) rest := by
  induction h generalizing depth seen rest with
  | nil => rfl
  | @char c s hclose hopen _ ih =>
    rw [List.cons_append, scan.eq_8 _ _ _ _ _ (ne_brace_of_head? hopen hrest)
      (fun _ hc => hclose hc) (fun _ _ hc => hclose hc), ih _ depth hrest]
    simp
  | @level name s _ _ ihname ihs =>
    have hbrace : ('}' :: (s ++ rest)).head? ≠ some '{' := by simp
    have hinside := ihname ('{' :: '$' :: seen) (depth + 1) hbrace
    rw [scan.eq_7, ihs _ depth hrest] at hinside
    simpa [scan] using hinside

theorem scan_placeholder {name : List Char} (h : Balanced name) (seen rest : List Char) :
    scan (.literal seen) ('$' :: '{' :: (name ++ '}' :: rest)) =
      flush seen ++ .placeholder (String.ofList name) :: scan (.literal []) rest := by
  rw [scan.eq_2, scan_balanced h seen [] 0 (by simp), scan.eq_6]
  simp

theorem scan_of_not_closes {depth : Nat} {rest : List Char} (h : closes depth rest = false)
    (before seen : List Char) :
    scan (.name before depth seen) rest =
      flush before ++ [.literal (String.ofList ('$' :: '{' :: (seen.reverse ++ rest)))] := by
  fun_induction closes depth rest generalizing seen with
  | case1 depth => simp [scan]
  | case2 depth rest ih => rw [scan.eq_5, ih h]; simp
  | case3 rest => cases h
  | case4 depth rest ih => rw [scan.eq_7, ih h]; simp
  | case5 depth c rest hopen hzero hsucc ih =>
    rw [scan.eq_8 _ _ _ _ _ hopen hzero hsucc, ih h]
    simp

theorem scan_neverClosed {rest : List Char} (h : NeverClosed rest) (seen : List Char) :
    scan (.literal seen) ('$' :: '{' :: rest) =
      flush seen ++ [.literal (String.ofList ('$' :: '{' :: rest))] := by
  rw [scan.eq_2, scan_of_not_closes (neverClosed_iff.1 h)]
  rfl

/-- The first thing in a text that is not literal is a placeholder or a level that is never closed,
if there is any. -/
@[elab_as_elim]
theorem scan_induction {motive : List Char → List Part → Prop}
    (literal : ∀ text, opensPlaceholder text = false → motive text (flush text.reverse))
    (placeholder : ∀ text name rest, opensPlaceholder text = false → Balanced name →
      motive rest (scan (.literal []) rest) →
      motive (text ++ '$' :: '{' :: (name ++ '}' :: rest))
        (flush text.reverse ++ .placeholder (String.ofList name) :: scan (.literal []) rest))
    (tail : ∀ text rest, opensPlaceholder text = false → NeverClosed rest →
      motive (text ++ '$' :: '{' :: rest)
        (flush text.reverse ++ [.literal (String.ofList ('$' :: '{' :: rest))]))
    (text : List Char) : motive text (scan (.literal []) text) := by
  induction hlength : text.length using Nat.strongRecOn generalizing text with
  | ind length ih =>
    subst hlength
    cases hopens : opensPlaceholder text with
    | false =>
      rw [scan_of_not_opens hopens, List.append_nil]
      exact literal text hopens
    | true =>
      obtain ⟨before, rest, rfl, hbefore⟩ := exists_opening hopens
      have hclosed : Closed before ('$' :: '{' :: rest) := fun _ => by simp
      rw [scan_append_of_not_opens hbefore hclosed, List.append_nil]
      by_cases hrest : NeverClosed rest
      · rw [scan_neverClosed hrest]
        exact tail before rest hbefore hrest
      · simp only [NeverClosed, not_forall, not_not] at hrest
        obtain ⟨name, after, rfl, hname⟩ := hrest
        rw [scan_placeholder hname]
        exact placeholder before name after hbefore hname
          (ih after.length (by simp only [List.length_cons, List.length_append]; omega) after rfl)

def isLiteral : Part → Bool
  | .literal _ => true
  | .placeholder _ => false

/-- Literals hold something and stand apart, names are balanced, and a level that is never closed
begins the last part. -/
structure Regular (parts : List Part) : Prop where
  nonempty : .literal "" ∉ parts
  balanced : ∀ name, .placeholder name ∈ parts → Balanced name.toList
  last : ∀ part ∈ parts.dropLast, part.isOpen = false
  unclosed : ∀ part ∈ parts, part.isOpen →
    ∃ rest, part.written = '$' :: '{' :: rest ∧ NeverClosed rest
  apart : parts.IsChain fun part next => part.isLiteral → next.isLiteral → next.isOpen

theorem regular_nil : Regular [] where
  nonempty := List.not_mem_nil
  balanced _ h := absurd h List.not_mem_nil
  last _ h := absurd h List.not_mem_nil
  unclosed _ h := absurd h List.not_mem_nil
  apart := .nil

theorem regular_tail {rest : List Char} (h : NeverClosed rest) :
    Regular [.literal (String.ofList ('$' :: '{' :: rest))] where
  nonempty := by simp [String.ext_iff]
  balanced := by simp
  last := by simp
  unclosed := by simpa [written] using fun _ => h
  apart := .singleton _

theorem Regular.cons {part : Part} {parts : List Part} (h : Regular parts)
    (hnonempty : part ≠ .literal "")
    (hbalanced : ∀ name, part = .placeholder name → Balanced name.toList)
    (hclosed : part.isOpen = false)
    (hnext : ∀ next ∈ parts.head?, part.isLiteral → next.isLiteral → next.isOpen) :
    Regular (part :: parts) where
  nonempty := by simp [hnonempty.symm, h.nonempty]
  balanced name hname := by
    rcases List.mem_cons.1 hname with hname | hname
    · exact hbalanced name hname.symm
    · exact h.balanced name hname
  last other hother := by
    cases parts with
    | nil => simp at hother
    | cons next rest =>
      rcases List.mem_cons.1 hother with rfl | hother
      · exact hclosed
      · exact h.last other hother
  unclosed other hother hopen := by
    rcases List.mem_cons.1 hother with rfl | hother
    · simp [hclosed] at hopen
    · exact h.unclosed other hother hopen
  apart := List.isChain_cons.2 ⟨hnext, h.apart⟩

theorem Regular.of_cons {part : Part} {parts : List Part} (h : Regular (part :: parts)) :
    Regular parts where
  nonempty hmem := h.nonempty (List.mem_cons_of_mem part hmem)
  balanced name hname := h.balanced name (List.mem_cons_of_mem part hname)
  last other hother := by
    cases parts with
    | nil => simp at hother
    | cons next rest => exact h.last other (List.mem_cons_of_mem part hother)
  unclosed other hother := h.unclosed other (List.mem_cons_of_mem part hother)
  apart := (List.isChain_cons.1 h.apart).2

theorem Regular.flush_append {text : List Char} {parts : List Part} (h : Regular parts)
    (htext : opensPlaceholder text = false)
    (hnext : ∀ next ∈ parts.head?, next.isLiteral → next.isOpen) :
    Regular (flush text.reverse ++ parts) := by
  cases text with
  | nil => exact h
  | cons c text =>
    simp only [flush, List.isEmpty_reverse, List.isEmpty_cons, Bool.false_eq_true, if_false,
      List.reverse_reverse, List.singleton_append]
    refine h.cons (by simp [String.ext_iff]) (by simp) ?_ fun next hmem _ => hnext next hmem
    rwa [isOpen, hasPlaceholders, String.toList_ofList]

theorem regular_scan (text : List Char) : Regular (scan (.literal []) text) := by
  induction text using scan_induction with
  | literal text htext =>
    have h := regular_nil.flush_append htext (by simp)
    rwa [List.append_nil] at h
  | placeholder text name rest htext hname ih =>
    refine Regular.flush_append (ih.cons (by simp) ?_ rfl (by simp [isLiteral])) htext ?_
    · rintro other ⟨⟩
      rwa [String.toList_ofList]
    · simp [isLiteral]
  | tail text rest htext hrest =>
    refine (regular_tail hrest).flush_append htext ?_
    simp [isOpen, hasPlaceholders, opensPlaceholder]

theorem scan_literal_eq {rest : List Char} (h : rest = [] ∨ ∃ after, rest = '$' :: '{' :: after)
    (seen : List Char) : scan (.literal seen) rest = flush seen ++ scan (.literal []) rest := by
  rcases h with rfl | ⟨after, rfl⟩
  · simp [scan, flush]
  · by_cases hafter : NeverClosed after
    · rw [scan_neverClosed hafter, scan_neverClosed hafter]
      rfl
    · simp only [NeverClosed, not_forall, not_not] at hafter
      obtain ⟨name, after, rfl, hname⟩ := hafter
      rw [scan_placeholder hname, scan_placeholder hname]
      rfl

theorem Regular.begins {text : String} {parts : List Part} (h : Regular (.literal text :: parts)) :
    parts.flatMap written = [] ∨ ∃ after, parts.flatMap written = '$' :: '{' :: after := by
  cases parts with
  | nil => exact .inl rfl
  | cons next rest =>
    right
    cases next with
    | placeholder name => exact ⟨_, rfl⟩
    | literal other =>
      have hopen : (Part.literal other).isOpen :=
        (List.isChain_cons.1 h.apart).1 _ rfl rfl rfl
      obtain ⟨after, hafter, -⟩ := h.unclosed _ (by simp) hopen
      exact ⟨after ++ rest.flatMap written, by rw [List.flatMap_cons, hafter]; rfl⟩

theorem scan_flatMap_written {parts : List Part} (h : Regular parts) :
    scan (.literal []) (parts.flatMap written) = parts := by
  induction parts with
  | nil => rfl
  | cons part rest ih =>
    have hrest := ih h.of_cons
    cases part with
    | placeholder name =>
      have hscan := scan_placeholder (h.balanced name List.mem_cons_self) [] (rest.flatMap written)
      rw [hrest, String.ofList_toList] at hscan
      simpa [written, flush] using hscan
    | literal text =>
      cases hopen : hasPlaceholders text with
      | false =>
        have hclosed : Closed text.toList (rest.flatMap written) := fun _ => by
          rcases h.begins with hnil | ⟨after, hafter⟩
          · simp [hnil]
          · simp [hafter]
        have htext : text.toList ≠ [] := fun hnil =>
          h.nonempty (by simp [String.ext_iff, hnil])
        rw [List.flatMap_cons, written, scan_append_of_not_opens hopen hclosed,
          scan_literal_eq h.begins, hrest]
        simp [flush, htext]
      | true =>
        have hend : rest = [] := by
          cases rest with
          | nil => rfl
          | cons next rest =>
            have hlast := h.last (.literal text) List.mem_cons_self
            simp [isOpen, hopen] at hlast
        obtain ⟨after, hafter, hnever⟩ := h.unclosed _ List.mem_cons_self hopen
        have hwritten : text.toList = '$' :: '{' :: after := hafter
        subst hend
        rw [List.flatMap_cons, hafter, List.flatMap_nil, List.append_nil, scan_neverClosed hnever,
          ← hwritten, String.ofList_toList]
        rfl

def IsInner : Part → Prop
  | .literal text => '}' ∉ text.toList ∧ hasPlaceholders text = false
  | .placeholder _ => True

theorem isInner_flush_iff {text : List Char} (hopens : opensPlaceholder text = false) :
    (∀ part ∈ flush text.reverse, part.IsInner) ↔ '}' ∉ text := by
  cases text with
  | nil => simp [flush]
  | cons c text => simp [flush, IsInner, hasPlaceholders, hopens]

theorem balanced_literal_append_iff {text rest : List Char} (hopens : opensPlaceholder text = false)
    (hclosed : Closed text rest) : Balanced (text ++ rest) ↔ '}' ∉ text ∧ Balanced rest := by
  fun_induction opensPlaceholder text with
  | case1 => simp
  | case2 text => cases hopens
  | case3 c text hlevel ih =>
    have hopen : c = '$' → (text ++ rest).head? ≠ some '{' := by
      rintro hc hhead
      obtain ⟨after, hafter⟩ := List.head?_eq_some_iff.1 hhead
      exact hclosed.ne_brace hlevel after hc hafter
    have hcons : Balanced (c :: (text ++ rest)) ↔ c ≠ '}' ∧ Balanced (text ++ rest) := by
      refine ⟨fun h => ?_, fun h => .char h.1 hopen h.2⟩
      generalize hs : text ++ rest = s at h hopen ⊢
      cases h with
      | char hclose _ hrest => exact ⟨hclose, hrest⟩
      | level _ _ => exact absurd rfl (hopen rfl)
    rw [List.cons_append, hcons, ih hopens hclosed.of_cons, List.mem_cons]
    grind

theorem balanced_placeholder_iff {name rest : List Char} (hname : Balanced name) :
    Balanced ('$' :: '{' :: (name ++ '}' :: rest)) ↔ Balanced rest := by
  refine ⟨fun h => ?_, .level hname⟩
  generalize htext : '$' :: '{' :: (name ++ '}' :: rest) = text at h
  cases h with
  | nil => cases htext
  | char _ hopen _ =>
    cases htext
    exact absurd rfl (hopen rfl)
  | @level other rest' hother hrest' =>
    have hscan := scan_placeholder hname [] rest
    rw [htext, scan_placeholder hother [] rest'] at hscan
    simp only [flush, List.isEmpty_nil, if_true, List.nil_append, List.cons.injEq,
      placeholder.injEq, String.ofList_inj] at hscan
    obtain ⟨rfl, -⟩ := hscan
    simp only [List.cons.injEq, List.append_cancel_left_eq, true_and] at htext
    exact htext ▸ hrest'

/-- A text is balanced if and only if it comes apart into placeholders and literals without a brace
or a level. -/
theorem balanced_iff (text : List Char) :
    Balanced text ↔ ∀ part ∈ scan (.literal []) text, part.IsInner := by
  induction text using scan_induction with
  | literal text htext =>
    have h := @balanced_literal_append_iff text [] htext fun _ => by simp
    rw [isInner_flush_iff htext]
    simpa [Balanced.nil] using h
  | placeholder text name rest htext hname ih =>
    rw [balanced_literal_append_iff htext fun _ => by simp, balanced_placeholder_iff hname, ih,
      ← isInner_flush_iff htext]
    simp [or_imp, forall_and, IsInner]
  | tail text rest htext hrest =>
    refine iff_of_false (fun h => ?_) fun h => ?_
    · obtain ⟨-, h⟩ := (balanced_literal_append_iff htext fun _ => by simp).1 h
      generalize hlevel : '$' :: '{' :: rest = level at h
      cases h with
      | nil => cases hlevel
      | char _ hopen _ =>
        cases hlevel
        exact hopen rfl rfl
      | level hname _ =>
        cases hlevel
        exact hrest _ _ rfl hname
    · have hinner := h _ (List.mem_append_right _ List.mem_cons_self)
      simp [IsInner, hasPlaceholders, opensPlaceholder] at hinner

end Part

/-- The parts of a text are the only regular parts that write it. The names of placeholders are
balanced, which is to say that cut in turn they leave no level open and no brace over. -/
theorem parts_are_only_decomposition (text : String) :
    (∀ parts : List Part, parts.flatMap Part.written = text.toList ∧ Part.Regular parts ↔
      parts = Part.ofText text) ∧
    ∀ name : String, Text.Balanced name.toList ↔ ∀ literal, .literal literal ∈ Part.ofText name →
      '}' ∉ literal.toList ∧ hasPlaceholders literal = false := by
  refine ⟨fun parts => ⟨?_, ?_⟩, fun name => ?_⟩
  · rintro ⟨hwritten, hregular⟩
    rw [Part.ofText, ← hwritten, Part.scan_flatMap_written hregular]
  · rintro rfl
    exact ⟨Part.flatMap_written_ofText text, Part.regular_scan text.toList⟩
  · refine (Part.balanced_iff name.toList).trans ⟨fun h literal hliteral => h _ hliteral, ?_⟩
    intro h part hpart
    cases part with
    | literal literal => exact h literal hpart
    | placeholder name => trivial

example : Part.ofText "a${b}c$\x7bd${e}" =
    [.literal "a", .placeholder "b", .literal "c", .literal "$\x7bd${e}"] := by decide

end ConfigOverlay
