import ConfigOverlay.Proofs.Property.Clean

set_option autoImplicit false

namespace ConfigOverlay

variable {σ : Type}

def Scan.behind (more : List Char) : Scan → Scan
  | .literal seen => .literal (seen ++ more)
  | .name before depth seen => .name (before ++ more) depth seen

namespace Part

def isOpen : Part → Bool
  | .literal text => hasPlaceholders text
  | .placeholder _ => false

section

variable (resolve : Resolution σ)

theorem expandAll_append (parts others : List Part) :
    expandAll resolve (parts ++ others) = (do
      let first ← expandAll resolve parts
      let second ← expandAll resolve others
      pure (first ++ second)) := by
  induction parts with
  | nil => simp only [List.nil_append, expandAll, pure_bind, String.empty_append, bind_pure]
  | cons part rest ih =>
    cases part with
    | literal text =>
      simp only [List.cons_append, expandAll, ih, bind_assoc, pure_bind, String.append_assoc]
    | placeholder name =>
      simp only [List.cons_append, expandAll, ih, bind_assoc]
      refine bind_congr fun value => ?_
      cases value with
      | none => rfl
      | some value => simp only [bind_assoc, pure_bind, String.append_assoc]

theorem expandAll_flush (seen : List Char) :
    expandAll resolve (flush seen) = pure (String.ofList seen.reverse) := by
  cases seen with
  | nil => rfl
  | cons c seen =>
    simp only [flush, List.isEmpty_cons, Bool.false_eq_true, if_false, expandAll, pure_bind,
      String.append_empty]

theorem expandAll_flush_append (more seen : List Char) (parts : List Part) :
    expandAll resolve (flush (seen ++ more) ++ parts) = (do
      let others ← expandAll resolve (flush seen ++ parts)
      pure (String.ofList more.reverse ++ others)) := by
  simp only [expandAll_append, expandAll_flush, pure_bind, bind_assoc, List.reverse_append,
    String.ofList_append, String.append_assoc]

theorem expandAll_scan_behind (more : List Char) (state : Scan) (rest : List Char) :
    expandAll resolve (scan (state.behind more) rest) = (do
      let others ← expandAll resolve (scan state rest)
      pure (String.ofList more.reverse ++ others)) := by
  fun_induction scan state rest with
  | case1 seen =>
    have h := expandAll_flush_append resolve more seen []
    rwa [List.append_nil, List.append_nil] at h
  | case2 seen rest ih => exact ih
  | case3 seen c rest hopen ih =>
    rw [Scan.behind, scan.eq_3 _ _ _ hopen]
    exact ih
  | case4 before depth seen => exact expandAll_flush_append resolve more before _
  | case5 before depth seen rest ih => exact ih
  | case6 before seen rest ih => exact expandAll_flush_append resolve more before _
  | case7 before depth seen rest ih => exact ih
  | case8 before depth seen c rest hopen hzero hsucc ih =>
    rw [Scan.behind, scan.eq_8 _ _ _ _ _ hopen hzero hsucc]
    exact ih

end

/-- A dollar sign at the end of `rest` does not open a level with what comes after it. -/
def Closed (rest more : List Char) : Prop := rest.getLast? = some '$' → more.head? ≠ some '{'

theorem Closed.of_cons {c : Char} {rest more : List Char} (h : Closed (c :: rest) more) :
    Closed rest more := by
  intro hlast
  refine h ?_
  rw [List.getLast?_cons, hlast]
  rfl

theorem Closed.ne_brace {c : Char} {rest more : List Char} (h : Closed (c :: rest) more)
    (hlevel : ∀ after, c = '$' → rest = '{' :: after → False) :
    ∀ after, c = '$' → rest ++ more = '{' :: after → False := by
  rintro after rfl hafter
  cases rest with
  | nil => exact h rfl (by rw [← List.nil_append more, hafter]; rfl)
  | cons d rest =>
    rw [List.cons_append, List.cons.injEq] at hafter
    exact hlevel rest rfl (by rw [hafter.1])

/-- If the scan of a text ends outside of all levels, the parts of what comes after the text are
those it has on its own. -/
theorem expandAll_scan_append (resolve : Resolution σ) {state : Scan} {rest : List Char}
    (more : List Char) (hparts : ∀ part ∈ scan state rest, part.isOpen = false)
    (hclosed : Closed rest more) :
    expandAll resolve (scan state (rest ++ more)) = (do
      let first ← expandAll resolve (scan state rest)
      let second ← expandAll resolve (scan (.literal []) more)
      pure (first ++ second)) := by
  fun_induction scan state rest with
  | case1 seen =>
    rw [expandAll_flush, pure_bind]
    exact expandAll_scan_behind resolve seen (.literal []) more
  | case2 seen rest ih => exact ih hparts hclosed.of_cons.of_cons
  | case3 seen c rest hlevel ih =>
    rw [List.cons_append, scan.eq_3 _ _ _ (hclosed.ne_brace hlevel)]
    exact ih hparts hclosed.of_cons
  | case4 before depth seen =>
    have hopen := hparts _ (List.mem_append_right _ List.mem_cons_self)
    exact absurd hopen (by simp [isOpen, hasPlaceholders, opensPlaceholder])
  | case5 before depth seen rest ih => exact ih hparts hclosed.of_cons.of_cons
  | case6 before seen rest ih =>
    have hrest := ih (fun part hpart => hparts part
      (List.mem_append_right _ (List.mem_cons_of_mem _ hpart))) hclosed.of_cons
    have hcut : ∀ part parts, expandAll resolve (flush before ++ part :: parts) = (do
        let first ← expandAll resolve (flush before ++ [part])
        let second ← expandAll resolve parts
        pure (first ++ second)) := by
      intro part parts
      rw [List.append_cons, expandAll_append]
    rw [List.cons_append, scan.eq_6, hcut _ (scan _ (rest ++ more)), hcut _ (scan _ rest), hrest]
    simp only [bind_assoc, pure_bind, String.append_assoc]
  | case7 before depth seen rest ih => exact ih hparts hclosed.of_cons
  | case8 before depth seen c rest hlevel hzero hsucc ih =>
    rw [List.cons_append, scan.eq_8 _ _ _ _ _ (hclosed.ne_brace hlevel) hzero hsucc]
    exact ih hparts hclosed.of_cons

/-- Text in which no level is opened is literal, and goes together with what is literal before and
behind it. -/
theorem scan_append_of_not_opens {text more : List Char} (h : opensPlaceholder text = false)
    (hclosed : Closed text more) (seen : List Char) :
    scan (.literal seen) (text ++ more) = scan (.literal (text.reverse ++ seen)) more := by
  fun_induction opensPlaceholder text generalizing seen with
  | case1 => rfl
  | case2 rest => cases h
  | case3 c rest hlevel ih =>
    rw [List.cons_append, scan.eq_3 _ _ _ (hclosed.ne_brace hlevel), ih h hclosed.of_cons]
    simp

theorem scan_of_not_opens {seen rest : List Char} (h : opensPlaceholder rest = false) :
    scan (.literal seen) rest = flush (rest.reverse ++ seen) := by
  have hclosed : Closed rest [] := fun _ => by simp
  simpa [scan] using scan_append_of_not_opens h hclosed seen

end Part

theorem expandText_of_not_hasPlaceholders {text : String} (h : hasPlaceholders text = false)
    (resolve : Resolution σ) : expandText resolve text = pure text := by
  rw [expandText, h]
  rfl

theorem expandText_eq (resolve : Resolution σ) (text : String) :
    expandText resolve text = Part.expandAll resolve (Part.ofText text) := by
  unfold expandText
  split
  · rfl
  · next h =>
    rw [Part.ofText, Part.scan_of_not_opens (by simpa [hasPlaceholders] using h),
      Part.expandAll_flush]
    simp

theorem expandText_append (resolve : Resolution σ) {a b : String}
    (hparts : ∀ part ∈ Part.ofText a, part.isOpen = false)
    (hclosed : Part.Closed a.toList b.toList) :
    expandText resolve (a ++ b) = (do
      let first ← expandText resolve a
      let second ← expandText resolve b
      pure (first ++ second)) := by
  rw [expandText_eq, expandText_eq, expandText_eq, Part.ofText, String.toList_append]
  exact Part.expandAll_scan_append resolve b.toList hparts hclosed

theorem expandText_append_of_isClean (resolve : Resolution σ) {a : String} (b : String)
    (ha : Text.isClean a.toList) :
    expandText resolve (a ++ b) = (do
      let first ← expandText resolve a
      let second ← expandText resolve b
      pure (first ++ second)) := by
  refine expandText_append resolve (fun part hpart => ?_) fun hlast => ?_
  · have hclean := Part.isClean_of_mem_ofText ha part hpart
    cases part with
    | literal text => exact Text.opensPlaceholder_of_not_mem hclean
    | placeholder name => rfl
  · obtain ⟨before, hbefore⟩ := List.getLast?_eq_some_iff.1 hlast
    rw [hbefore] at ha
    obtain ⟨rest, hrest⟩ := Text.eq_brace_of_isClean (Text.isClean_of_append ha)
    cases hrest

end ConfigOverlay
