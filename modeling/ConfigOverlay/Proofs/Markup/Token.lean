import ConfigOverlay.Markup.Token
import ConfigOverlay.Markup.Writer
import ConfigOverlay.Proofs.Markup.CharacterData
import Mathlib.Data.List.Basic

set_option autoImplicit false

namespace ConfigOverlay.Markup

def isLocalName (s : List Char) : Bool := beginsName s && s.all fun c => isNameChar c && c != ':'

variable {s rest tail : List Char} {name value : String}

theorem beginsName_append (h : beginsName s = true) : beginsName (s ++ rest) = true := by
  cases s with
  | nil => cases h
  | cons c s => exact h

theorem beginsName_of_isLocalName (h : isLocalName s = true) : beginsName s = true :=
  ((Bool.and_eq_true _ _).mp h).1

theorem not_isNameStart_of_isSpace {c : Char} (h : isSpace c = true) : isNameStart c = false := by
  simp only [isSpace, Bool.or_eq_true, beq_iff_eq, or_assoc] at h
  rcases h with rfl | rfl | rfl | rfl <;> rfl

theorem dropWhile_isSpace (h : beginsName s = true) : s.dropWhile isSpace = s := by
  cases s with
  | nil => rfl
  | cons c s =>
    refine List.dropWhile_cons_of_neg fun hspace => ?_
    rw [beginsName, not_isNameStart_of_isSpace hspace] at h
    cases h

theorem QName.read_append {c : Char} (hname : isLocalName name.toList = true)
    (hc : isNameChar c = false) :
    QName.read (name.toList ++ c :: rest) = some (⟨"", name⟩, c :: rest) := by
  simp only [isLocalName, Bool.and_eq_true, List.all_eq_true, bne_iff_ne] at hname
  obtain ⟨hbegins, hall⟩ := hname
  have hcolon : ':' ∉ name.toList := fun hmem => (hall _ hmem).2 rfl
  rw [QName.read, List.takeWhile_append_of_pos fun d hd => (hall d hd).1,
    List.dropWhile_append_of_pos fun d hd => (hall d hd).1,
    List.takeWhile_cons_of_neg (by simp [hc]), List.dropWhile_cons_of_neg (by simp [hc]),
    List.append_nil, Text.segments_of_not_mem hcolon]
  simp [hbegins]

def RawAttribute.ofEntry (entry : String × String) : RawAttribute :=
  ⟨⟨"", entry.1⟩, encode entry.2.toList⟩

theorem readQuoted_encode (h : s.all isLegal = true) :
    readQuoted '"' (encode s ++ '"' :: rest) = some (encode s, rest) := by
  have hinside : ∀ c ∈ encode s, (c != '"' && c != '<') = true := by
    intro c hc
    rw [Bool.and_eq_true, bne_iff_ne, bne_iff_ne]
    constructor <;> rintro rfl
    · exact not_mem_encode rfl (by decide) hc
    · exact not_mem_encode rfl (by decide) hc
  rw [readQuoted, List.takeWhile_append_of_pos hinside, List.dropWhile_append_of_pos hinside]
  simp [all_isLegal_encode h]

theorem RawAttribute.read_written (hname : isLocalName name.toList = true)
    (hvalue : value.toList.all isLegal = true) :
    RawAttribute.read (name.toList ++ '=' :: '"' :: encode value.toList ++ '"' :: rest) =
      some (ofEntry (name, value), rest) := by
  rw [List.append_assoc, List.cons_append, List.cons_append, RawAttribute.read,
    QName.read_append hname rfl]
  simp only [List.dropWhile_cons_of_neg (p := isSpace) (a := '=') (by decide),
    List.dropWhile_cons_of_neg (p := isSpace) (a := '"') (by decide)]
  rw [if_pos (.inl trivial), readQuoted_encode hvalue]
  rfl

theorem readAttributes_space {a : RawAttribute} (hbegins : beginsName s = true)
    (h : RawAttribute.read s = some (a, rest)) :
    readAttributes (' ' :: s) = (readAttributes rest).map fun (attributes, closed, rest) =>
      (a :: attributes, closed, rest) := by
  have hdrop : (' ' :: s).dropWhile isSpace = s := by
    rw [List.dropWhile_cons_of_pos rfl, dropWhile_isSpace hbegins]
  rw [readAttributes.eq_def]
  split
  · next heq =>
    rw [← hdrop, heq] at hbegins
    cases hbegins
  · next heq =>
    rw [← hdrop, heq] at hbegins
    cases hbegins
  · rw [if_pos (show ((' ' :: s).head?.map isSpace).getD false = true from rfl)]
    split
    · next hnone =>
      rw [hdrop, h] at hnone
      cases hnone
    · next hsome =>
      rw [hdrop, h] at hsome
      cases hsome
      rfl

def IsReadable (entry : String × String) : Prop :=
  isLocalName entry.1.toList = true ∧ entry.2.toList.all isLegal = true

instance : DecidablePred IsReadable := fun _ => inferInstanceAs (Decidable (_ ∧ _))

theorem readAttributes_writeEntries {entries : List (String × String)} {closed : Bool}
    (h : ∀ entry ∈ entries, IsReadable entry)
    (htail : readAttributes tail = some ([], closed, rest)) :
    readAttributes (writeEntries entries tail) =
      some (entries.map RawAttribute.ofEntry, closed, rest) := by
  induction entries with
  | nil => exact htail
  | cons entry entries ih =>
    obtain ⟨name, value⟩ := entry
    obtain ⟨hname, hvalue⟩ := h (name, value) List.mem_cons_self
    rw [writeEntries, writeAttribute, List.cons_append, List.cons_append,
      readAttributes_space _ (RawAttribute.read_written hname hvalue),
      ih fun other hother => h other (List.mem_cons_of_mem _ hother)]
    · rfl
    · rw [List.append_assoc]
      exact beginsName_append (beginsName_of_isLocalName hname)

theorem readAttributes_end : readAttributes ('>' :: rest) = some ([], false, rest) := by
  rw [readAttributes.eq_def]
  rfl

theorem readAttributes_closedEnd : readAttributes ('/' :: '>' :: rest) = some ([], true, rest) := by
  rw [readAttributes.eq_def]
  rfl

namespace Token

theorem read_tag (h : beginsName s = true) : Token.read ('<' :: s) = readStartTag s := by
  cases s with
  | nil => cases h
  | cons c s =>
    have hne : c ≠ '!' ∧ c ≠ '?' ∧ c ≠ '/' := by
      refine ⟨?_, ?_, ?_⟩ <;> rintro rfl <;> cases h
    simp [Token.read, hne.1, hne.2.1, hne.2.2]

theorem read_startTag {entries : List (String × String)} {closed : Bool} {c : Char}
    (hname : isLocalName name.toList = true) (hentries : ∀ entry ∈ entries, IsReadable entry)
    (hc : isNameChar c = false) (hend : readAttributes (c :: tail) = some ([], closed, rest)) :
    Token.read ('<' :: name.toList ++ writeEntries entries (c :: tail)) =
      some (.startTag ⟨"", name⟩ (entries.map RawAttribute.ofEntry) closed, rest) := by
  have hattributes := readAttributes_writeEntries hentries hend
  obtain ⟨d, others, hd, hwritten⟩ : ∃ d others, isNameChar d = false ∧
      writeEntries entries (c :: tail) = d :: others := by
    cases entries with
    | nil => exact ⟨c, tail, hc, rfl⟩
    | cons entry entries => exact ⟨' ', _, rfl, rfl⟩
  rw [List.cons_append, read_tag (beginsName_append (beginsName_of_isLocalName hname)),
    readStartTag]
  rw [hwritten] at hattributes ⊢
  rw [QName.read_append hname hd]
  simp [hattributes]

theorem read_endTag (hname : isLocalName name.toList = true) :
    Token.read ('<' :: '/' :: name.toList ++ '>' :: rest) = some (.endTag ⟨"", name⟩, rest) := by
  have hread : readEndTag (name.toList ++ '>' :: rest) = some (.endTag ⟨"", name⟩, rest) := by
    rw [readEndTag, QName.read_append hname rfl]
    rfl
  rw [← hread]
  rfl

theorem read_text (hs : s ≠ []) (h : s.all isLegal = true) :
    Token.read (encode s ++ '<' :: rest) = some (.text (encode s), '<' :: rest) := by
  have hopen : ∀ c ∈ encode s, (c != '<') = true := by
    refine fun c hc => bne_iff_ne.2 ?_
    rintro rfl
    exact not_mem_encode rfl (by decide) hc
  have hread : readText (encode s ++ '<' :: rest) = some (.text (encode s), '<' :: rest) := by
    rw [readText, List.takeWhile_append_of_pos hopen, List.dropWhile_append_of_pos hopen,
      List.takeWhile_cons_of_neg (by decide), List.dropWhile_cons_of_neg (by decide),
      List.append_nil, Text.cutAt_eq_none (c := '>') (by decide) (not_mem_encode rfl (by decide))]
    simp [all_isLegal_encode h]
  rw [← hread]
  cases hencode : encode s with
  | nil => exact absurd hencode (encode_ne_nil hs)
  | cons c others =>
    have hc : c ≠ '<' := bne_iff_ne.1 (hopen c (hencode ▸ List.mem_cons_self))
    simp [Token.read, hc]

theorem isCommentContent_iff :
    isCommentContent s = true ↔ Text.cutAt ['-', '-'] s = none ∧ s.getLast? ≠ some '-' := by
  simp [isCommentContent]

theorem isCommentContent_of_cons {c : Char} (h : isCommentContent (c :: s) = true) :
    isCommentContent s = true ∧ (c = '-' → ∃ d others, s = d :: others ∧ d ≠ '-') := by
  rw [isCommentContent_iff, Text.cutAt] at h
  obtain ⟨hpair, hlast⟩ := h
  split at hpair
  · cases hpair
  · next hprefix =>
    cases s with
    | nil =>
      refine ⟨rfl, ?_⟩
      rintro rfl
      exact absurd rfl hlast
    | cons d s =>
      rw [List.getLast?_cons_cons] at hlast
      refine ⟨isCommentContent_iff.2 ⟨Option.map_eq_none_iff.1 hpair, hlast⟩, ?_⟩
      rintro rfl
      refine ⟨d, s, rfl, ?_⟩
      rintro rfl
      cases hprefix

/-- The mark that ends a comment stands nowhere before its end. -/
theorem cutAt_comment (h : isCommentContent s = true) :
    Text.cutAt ['-', '-', '>'] (s ++ '-' :: '-' :: '>' :: rest) = some (s, rest) := by
  induction s with
  | nil => rfl
  | cons c s ih =>
    obtain ⟨hlater, hhyphen⟩ := isCommentContent_of_cons h
    have hhere : ['-', '-', '>'].isPrefixOf? (c :: (s ++ '-' :: '-' :: '>' :: rest)) = none := by
      by_cases hc : c = '-'
      · obtain ⟨d, others, rfl, hd⟩ := hhyphen hc
        simp [List.isPrefixOf?, hc, Ne.symm hd]
      · simp [List.isPrefixOf?, Ne.symm hc]
    rw [List.cons_append, Text.cutAt, hhere, ih hlater]
    rfl

theorem read_comment (hlegal : s.all isLegal = true) (h : isCommentContent s = true) :
    Token.read ('<' :: '!' :: '-' :: '-' :: s ++ '-' :: '-' :: '>' :: rest) =
      some (.comment s, rest) := by
  have hread : readComment (s ++ '-' :: '-' :: '>' :: rest) = some (.comment s, rest) := by
    rw [readComment, readUntil, cutAt_comment h]
    simp [hlegal, h]
  rw [← hread]
  rfl

end Token

end ConfigOverlay.Markup
