import ConfigOverlay.Property.Placeholder
import Mathlib.Data.List.Infix

set_option autoImplicit false

namespace ConfigOverlay

namespace Text

theorem toList_of_stripLead {lead s rest : String} (h : stripLead lead s = some rest) :
    s.toList = lead.toList ++ rest.toList := by
  simp only [stripLead, Option.map_eq_some_iff] at h
  obtain ⟨after, hafter, rfl⟩ := h
  rw [String.toList_ofList, append_eq_of_isPrefixOf? hafter]

theorem stripLead_append (lead rest : String) : stripLead lead (lead ++ rest) = some rest := by
  have hrest : lead.toList.isPrefixOf? (lead ++ rest).toList = some rest.toList := by
    rw [List.isPrefixOf?_eq_some_iff_append_eq, String.toList_append]
  rw [stripLead, hrest, Option.map_some, String.ofList_toList]

theorem isSuffix_of_stripLead {lead s rest : String} (h : stripLead lead s = some rest) :
    rest.toList <:+ s.toList := by
  rw [toList_of_stripLead h]
  exact List.suffix_append _ _

end Text

def Scan.scanned : Scan → List Char
  | .literal seen => seen.reverse
  | .name before _ seen => before.reverse ++ '$' :: '{' :: seen.reverse

namespace Part

theorem flatMap_written_flush (seen : List Char) : (flush seen).flatMap written = seen.reverse := by
  cases seen with
  | nil => rfl
  | cons c seen => simp [flush, written]

theorem flatMap_written_scan (state : Scan) (rest : List Char) :
    (scan state rest).flatMap written = state.scanned ++ rest := by
  fun_induction scan state rest <;>
    simp_all [flatMap_written_flush, Scan.scanned, written]

theorem flatMap_written_ofText (text : String) :
    (ofText text).flatMap written = text.toList := flatMap_written_scan (.literal []) text.toList

theorem written_isInfix {part : Part} {text : String} (h : part ∈ ofText text) :
    part.written <:+: text.toList := by
  obtain ⟨before, after, hparts⟩ := List.append_of_mem h
  refine ⟨before.flatMap written, after.flatMap written, ?_⟩
  rw [← flatMap_written_ofText, hparts]
  simp

theorem name_isInfix {name text : String} (h : .placeholder name ∈ ofText text) :
    name.toList <:+: text.toList :=
  List.IsInfix.trans ⟨['$', '{'], ['}'], by simp [written]⟩ (written_isInfix h)

theorem length_name_lt {name text : String} (h : .placeholder name ∈ ofText text) :
    name.length + 3 ≤ text.length := by
  have := (written_isInfix h).length_le
  simp only [written, List.length_append, List.length_cons, List.length_nil, String.length_toList]
    at this
  omega

end Part

theorem mem_of_mem_spliced {α : Type} {a : α} {l : List α} {pieces others : List (List α)}
    (hl : l ∈ spliced pieces others) (ha : a ∈ l) :
    (∃ l ∈ pieces, a ∈ l) ∨ ∃ l ∈ others, a ∈ l := by
  fun_induction spliced pieces others generalizing l with
  | case1 others => exact .inr ⟨l, hl, ha⟩
  | case2 last => exact .inl ⟨l, hl, ha⟩
  | case3 last first others =>
    rcases List.mem_cons.1 hl with rfl | hl
    · rcases List.mem_append.1 ha with ha | ha
      · exact .inl ⟨last, List.mem_cons_self, ha⟩
      · exact .inr ⟨first, List.mem_cons_self, ha⟩
    · exact .inr ⟨l, List.mem_cons_of_mem first hl, ha⟩
  | case4 piece pieces others _ _ ih =>
    rcases List.mem_cons.1 hl with rfl | hl
    · exact .inl ⟨l, List.mem_cons_self, ha⟩
    · rcases ih hl ha with ⟨l, hl, ha⟩ | h
      · exact .inl ⟨l, List.mem_cons_of_mem piece hl, ha⟩
      · exact .inr h

theorem of_mem_alternatives {Q : Part → Prop} {parts alternative : List Part}
    (hplaceholder : ∀ name, .placeholder name ∈ parts → Q (.placeholder name))
    (hliteral : ∀ text, .literal text ∈ parts → ∀ piece ∈ Text.segments ',' text.toList,
      piece ≠ [] → Q (.literal (String.ofList piece)))
    (ha : alternative ∈ alternatives parts) : ∀ part ∈ alternative, Q part := by
  intro part hpart
  induction parts generalizing alternative with
  | nil =>
    rw [alternatives, List.mem_singleton] at ha
    exact absurd (ha ▸ hpart) List.not_mem_nil
  | cons first rest ih =>
    have hrest : ∀ {l}, l ∈ alternatives rest → part ∈ l → Q part :=
      ih (fun name hname => hplaceholder name (List.mem_cons_of_mem first hname))
        fun text htext => hliteral text (List.mem_cons_of_mem first htext)
    cases first with
    | placeholder name =>
      rcases mem_of_mem_spliced ha hpart with ⟨l, hl, hpart⟩ | ⟨l, hl, hpart⟩
      · rw [List.mem_singleton.1 hl, List.mem_singleton] at hpart
        rw [hpart]
        exact hplaceholder name List.mem_cons_self
      · exact hrest hl hpart
    | literal text =>
      rcases mem_of_mem_spliced ha hpart with ⟨l, hl, hpart⟩ | ⟨l, hl, hpart⟩
      · obtain ⟨piece, hpiece, rfl⟩ := List.mem_map.1 hl
        simp only [Part.ofPiece] at hpart
        split at hpart
        · exact absurd hpart List.not_mem_nil
        · next hne =>
          rw [List.mem_singleton.1 hpart]
          exact hliteral text List.mem_cons_self piece hpiece (by simpa using hne)
      · exact hrest hl hpart

theorem placeholder_mem_of_alternatives {name : String} {parts alternative : List Part}
    (ha : alternative ∈ alternatives parts) (hn : .placeholder name ∈ alternative) :
    .placeholder name ∈ parts := by
  have hof : ∀ part ∈ alternative, ∀ other, part = .placeholder other →
      .placeholder other ∈ parts := by
    refine of_mem_alternatives ?_ ?_ ha
    · rintro other hother _ ⟨⟩
      exact hother
    · intro text _ piece _ _ other hother
      cases hother
  exact hof _ hn name rfl

end ConfigOverlay
