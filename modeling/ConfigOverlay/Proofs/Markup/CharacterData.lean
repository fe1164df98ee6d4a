import ConfigOverlay.Markup.CharacterData

set_option autoImplicit false

namespace ConfigOverlay.Markup

def isMarkupChar (c : Char) : Bool := c == '<' || c == '>' || c == '&' || c == '\'' || c == '"'

/-- Puts a line feed for each carriage return and line feed, and for each carriage return alone
that is not kept. That may depend on the character before it and on what comes after it. -/
def lineEnds (kept : Option Char → List Char → Bool) : Option Char → List Char → List Char
  | _, [] => []
  | _, '\r' :: '\n' :: rest => '\n' :: lineEnds kept (some '\n') rest
  | previous, '\r' :: rest =>
    (if kept previous rest then '\r' else '\n') :: lineEnds kept (some '\r') rest
  | _, c :: rest => c :: lineEnds kept (some c) rest

/-- The carriage returns that come back as they are: one directly before a markup character, and
one directly behind a markup character that ends the text. -/
def keepsReturn : Option Char → List Char → Bool
  | _, c :: _ => isMarkupChar c
  | previous, [] => previous.any isMarkupChar

def spaced : List Char → List Char
  | [] => []
  | '\r' :: '\n' :: rest => ' ' :: spaced rest
  | c :: rest => (if c == '\r' || c == '\n' || c == '\t' then ' ' else c) :: spaced rest

def Datum.ofChar (c : Char) : Datum := if isMarkupChar c then .referenced c else .written c

variable {s : List Char}

theorem isMarkupChar_iff {c : Char} :
    isMarkupChar c = true ↔ c ∈ ['<', '>', '&', '\'', '"'] := by
  simp [isMarkupChar, or_assoc]

theorem encodeChar_of_not_markup {c : Char} (h : isMarkupChar c = false) : encodeChar c = [c] := by
  unfold encodeChar
  split
  iterate 5 cases h
  rfl

theorem readData_encodeChar (c : Char) (rest : List Char) :
    readData none (encodeChar c ++ rest) = (readData none rest).map (Datum.ofChar c :: ·) := by
  cases h : isMarkupChar c with
  | true =>
    rw [isMarkupChar_iff] at h
    simp only [List.mem_cons, List.not_mem_nil, or_false] at h
    rcases h with rfl | rfl | rfl | rfl | rfl <;> rfl
  | false =>
    rw [encodeChar_of_not_markup h, List.singleton_append, Datum.ofChar, h, readData]
    · rfl
    · rintro rfl
      cases h

theorem readData_encode (s : List Char) : readData none (encode s) = some (s.map Datum.ofChar) := by
  induction s with
  | nil => rfl
  | cons c s ih =>
    rw [encode, List.flatMap_cons, readData_encodeChar]
    rw [encode] at ih
    rw [ih]
    rfl

namespace Datum

theorem ofChar_return : ofChar '\r' = .written '\r' := rfl

theorem text_ofChar (previous : Option Char) (s : List Char) :
    text (previous.any isMarkupChar) (s.map ofChar) = lineEnds keepsReturn previous s := by
  fun_induction lineEnds keepsReturn previous s with
  | case1 => rfl
  | case2 previous rest ih =>
    rw [← ih]
    rfl
  | case3 previous rest hfeed ih =>
    rw [List.map_cons, ofChar_return, ← ih]
    cases rest with
    | nil => rfl
    | cons d rest =>
      by_cases hd : isMarkupChar d = true
      · simp [ofChar, text, keepsReturn, hd]
      · have hnewline : d ≠ '\n' := fun heq => hfeed rest (by rw [heq])
        have hcr : isMarkupChar '\r' = false := rfl
        simp [ofChar, text, keepsReturn, hd, hnewline, hcr]
  | case4 previous c rest hpair hreturn ih =>
    rw [List.map_cons, ← ih]
    by_cases hc : isMarkupChar c = true
    · simp [ofChar, text, hc]
    · have hne : c ≠ '\r' := fun heq => hreturn heq
      simp [ofChar, text, hc, hne]

theorem eq_of_ofChar_eq_written {c d : Char} (h : ofChar c = .written d) : c = d := by
  rw [ofChar] at h
  split at h
  · cases h
  · exact Datum.written.inj h

theorem value_ofChar (s : List Char) : value (s.map ofChar) = spaced s := by
  fun_induction spaced s with
  | case1 => rfl
  | case2 rest ih =>
    rw [← ih]
    rfl
  | case3 c rest hpair ih =>
    rw [List.map_cons, ← ih]
    cases hc : isMarkupChar c with
    | true =>
      have hspace : (c == '\r' || c == '\n' || c == '\t') = false := by
        simp only [isMarkupChar_iff, List.mem_cons, List.not_mem_nil, or_false] at hc
        rcases hc with rfl | rfl | rfl | rfl | rfl <;> rfl
      rw [ofChar, if_pos hc, value, hspace]
      rfl
    | false =>
      rw [ofChar, if_neg (by simp [hc]), value]
      intro others hfeed hreturn
      cases rest with
      | nil => cases hfeed
      | cons d rest =>
        rw [List.map_cons, List.cons.injEq] at hfeed
        exact hpair rest hreturn (by rw [eq_of_ofChar_eq_written hfeed.1])

end Datum

/-- A text comes back with its line ends normalised. -/
theorem decodeText_encode (s : List Char) :
    decodeText (encode s) = some (lineEnds keepsReturn none s) := by
  rw [decodeText, readData_encode, Option.map_some, ← Datum.text_ofChar]
  rfl

theorem decodeValue_encode (s : List Char) : decodeValue (encode s) = some (spaced s) := by
  rw [decodeValue, readData_encode, Option.map_some, Datum.value_ofChar]

theorem all_encode {p : Char → Bool} (hplain : ∀ c ∈ s, isMarkupChar c = false → p c = true)
    (hreference : ['<', '>', '&', '\'', '"'].all (fun c => (encodeChar c).all p) = true) :
    (encode s).all p = true := by
  refine List.all_eq_true.2 fun d hd => ?_
  obtain ⟨c, hc, hd⟩ := List.mem_flatMap.1 hd
  cases hmarkup : isMarkupChar c with
  | true =>
    exact List.all_eq_true.1 (List.all_eq_true.1 hreference c (isMarkupChar_iff.1 hmarkup)) d hd
  | false =>
    rw [encodeChar_of_not_markup hmarkup, List.mem_singleton] at hd
    subst hd
    exact hplain d hc hmarkup

theorem all_isLegal_encode (h : s.all isLegal = true) : (encode s).all isLegal = true :=
  all_encode (fun c hc _ => List.all_eq_true.1 h c hc) rfl

theorem not_mem_encode {d : Char} (hmarkup : isMarkupChar d = true) (hd : d ≠ '&') :
    d ∉ encode s := by
  have hall : (encode s).all (· != d) = true := by
    refine all_encode (fun c _ hc => bne_iff_ne.2 fun heq => ?_) ?_
    · rw [heq, hmarkup] at hc
      cases hc
    · simp only [isMarkupChar_iff, List.mem_cons, List.not_mem_nil, or_false] at hmarkup
      rcases hmarkup with rfl | rfl | rfl | rfl | rfl
      all_goals first | rfl | exact absurd rfl hd
  exact fun hmem => bne_iff_ne.1 (List.all_eq_true.1 hall d hmem) rfl

theorem encode_ne_nil (h : s ≠ []) : encode s ≠ [] := by
  cases s with
  | nil => exact absurd rfl h
  | cons c s =>
    have hchar : encodeChar c ≠ [] := by
      unfold encodeChar
      split <;> exact List.cons_ne_nil _ _
    rw [encode, List.flatMap_cons]
    exact List.append_ne_nil_of_left_ne_nil hchar _

end ConfigOverlay.Markup
