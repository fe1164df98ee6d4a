import ConfigOverlay.Markup.Reader
import ConfigOverlay.Proofs.Markup.Token

set_option autoImplicit false

namespace ConfigOverlay.Markup

variable {s rest : List Char}

def Datum.char : Datum → Char
  | written c => c
  | referenced c => c

theorem isLegal_of_numbered {n : Nat} {c : Char} (h : numbered n = some c) : isLegal c = true := by
  simp only [numbered, Option.ite_none_right_eq_some, Option.some.injEq] at h
  obtain ⟨-, hlegal, rfl⟩ := h
  exact hlegal

theorem isLegal_of_referent? {body : List Char} {c : Char} (h : referent? body = some c) :
    isLegal c = true := by
  unfold referent? at h
  split at h
  iterate 5
    cases h
    rfl
  · obtain ⟨n, -, hn⟩ := Option.bind_eq_some_iff.1 h
    exact isLegal_of_numbered hn
  · obtain ⟨n, -, hn⟩ := Option.bind_eq_some_iff.1 h
    exact isLegal_of_numbered hn
  · cases h

theorem isLegal_of_readData {begun : Option (List Char)} {data : List Datum}
    (h : readData begun s = some data) (hs : s.all isLegal = true) :
    ∀ d ∈ data, isLegal d.char = true := by
  fun_induction readData begun s generalizing data with
  | case1 =>
    cases h
    simp
  | case2 => cases h
  | case3 body rest ih =>
    obtain ⟨c, hc, h⟩ := Option.bind_eq_some_iff.1 h
    obtain ⟨others, hothers, rfl⟩ := Option.map_eq_some_iff.1 h
    have hrest : rest.all isLegal = true := ((Bool.and_eq_true _ _).mp hs).2
    exact List.forall_mem_cons.2 ⟨isLegal_of_referent? hc, ih hothers hrest⟩
  | case4 body c rest hc ih => exact ih h ((Bool.and_eq_true _ _).mp hs).2
  | case5 rest ih => exact ih h ((Bool.and_eq_true _ _).mp hs).2
  | case6 c rest hc ih =>
    obtain ⟨others, hothers, rfl⟩ := Option.map_eq_some_iff.1 h
    obtain ⟨hlegal, hrest⟩ := (Bool.and_eq_true _ _).mp hs
    exact List.forall_mem_cons.2 ⟨hlegal, ih hothers hrest⟩

namespace Datum

variable {p : Char → Bool} {data : List Datum}

theorem all_text (hfeed : p '\n' = true) (h : ∀ d ∈ data, p d.char = true) (behind : Bool) :
    (text behind data).all p = true := by
  fun_induction text behind data with
  | case3 behind =>
    cases behind with
    | true => simpa [char] using h
    | false => simpa using hfeed
  | _ => simp_all [char]

theorem all_value (hspace : p ' ' = true) (h : ∀ d ∈ data, p d.char = true) :
    (value data).all p = true := by
  fun_induction value data with
  | case4 c rest hpair ih =>
    obtain ⟨hc, hrest⟩ := List.forall_mem_cons.1 h
    rw [List.all_cons, Bool.and_eq_true]
    refine ⟨?_, ih hrest⟩
    split
    · exact hspace
    · exact hc
  | _ => simp_all [char]

end Datum

theorem isLegal_of_decodeText {content : List Char} (h : decodeText s = some content)
    (hs : s.all isLegal = true) : content.all isLegal = true := by
  obtain ⟨data, hdata, rfl⟩ := Option.map_eq_some_iff.1 h
  exact Datum.all_text rfl (isLegal_of_readData hdata hs) false

theorem isLegal_of_decodeValue {content : List Char} (h : decodeValue s = some content)
    (hs : s.all isLegal = true) : content.all isLegal = true := by
  obtain ⟨data, hdata, rfl⟩ := Option.map_eq_some_iff.1 h
  exact Datum.all_value rfl (isLegal_of_readData hdata hs)

theorem isLegal_decodeSection (hs : s.all isLegal = true) :
    (decodeSection s).all isLegal = true := by
  refine Datum.all_text rfl (fun d hd => ?_) false
  obtain ⟨c, hc, rfl⟩ := List.mem_map.1 hd
  exact List.all_eq_true.1 hs c hc

theorem isLocalName_of_segment {piece : List Char}
    (hpiece : piece ∈ Text.segments ':' (s.takeWhile isNameChar))
    (hbegins : beginsName piece = true) : isLocalName piece = true := by
  rw [isLocalName, hbegins, Bool.true_and, List.all_eq_true]
  intro c hc
  have hname := List.all_eq_true.1 List.all_takeWhile c (Text.mem_of_mem_segments hpiece hc)
  have hcolon : c ≠ ':' := by
    rintro rfl
    exact Text.not_mem_of_mem_segments hpiece hc
  simp [hname, hcolon]

theorem QName.isLocalName_of_read {name : QName} (h : QName.read s = some (name, rest)) :
    isLocalName name.localName.toList = true := by
  unfold QName.read at h
  simp only at h
  split at h
  · next localName hsegments =>
    split at h
    · next hbegins =>
      have hmem : localName ∈ Text.segments ':' (s.takeWhile isNameChar) := by simp [hsegments]
      cases h
      rw [String.toList_ofList]
      exact isLocalName_of_segment hmem hbegins
    · cases h
  · next qualifier localName hsegments =>
    split at h
    · next hbegins =>
      have hmem : localName ∈ Text.segments ':' (s.takeWhile isNameChar) := by simp [hsegments]
      cases h
      rw [String.toList_ofList]
      exact isLocalName_of_segment hmem ((Bool.and_eq_true _ _).mp hbegins).2
    · cases h
  · cases h

def RawAttribute.IsLegal (a : RawAttribute) : Prop :=
  isLocalName a.name.localName.toList = true ∧ a.value.all isLegal = true

theorem isLegal_of_readQuoted {quote : Char} {value : List Char}
    (h : readQuoted quote s = some (value, rest)) : value.all isLegal = true := by
  unfold readQuoted at h
  simp only at h
  split at h
  · split at h
    · next hvalue =>
      cases h
      exact hvalue.2
    · cases h
  · cases h

theorem RawAttribute.isLegal_of_read {a : RawAttribute} (h : RawAttribute.read s = some (a, rest)) :
    a.IsLegal := by
  unfold RawAttribute.read at h
  split at h
  · cases h
  · next name r hname =>
    split at h
    · split at h
      · split at h
        · obtain ⟨⟨value, r'⟩, hquoted, heq⟩ := Option.map_eq_some_iff.1 h
          cases heq
          exact ⟨QName.isLocalName_of_read hname, isLegal_of_readQuoted hquoted⟩
        · cases h
      · cases h
    · cases h

theorem isLegal_of_readAttributes {attributes : List RawAttribute} {closed : Bool}
    (h : readAttributes s = some (attributes, closed, rest)) :
    ∀ a ∈ attributes, a.IsLegal := by
  fun_induction readAttributes s generalizing attributes closed rest with
  | case1 s r hr =>
    cases h
    simp
  | case2 s r hr =>
    cases h
    simp
  | case3 => cases h
  | case4 s hspace a rest' hread _ _ _ _ ih =>
    obtain ⟨⟨others, _⟩, hothers, heq⟩ := Option.map_eq_some_iff.1 h
    cases heq
    exact List.forall_mem_cons.2 ⟨RawAttribute.isLegal_of_read hread, ih hothers⟩
  | case5 => cases h

def Token.IsLegal : Token → Prop
  | .startTag name attributes _ =>
    isLocalName name.localName.toList = true ∧ ∀ a ∈ attributes, a.IsLegal
  | .text raw => raw.all isLegal = true
  | .cdata content => content.all isLegal = true
  | .comment content => content.all isLegal = true ∧ isCommentContent content = true
  | .endTag _ | .instruction => True

theorem isLegal_of_readUntil {mark before : List Char}
    (h : readUntil mark s = some (before, rest)) : before.all isLegal = true := by
  unfold readUntil at h
  split at h
  · split at h
    · next hlegal =>
      cases h
      exact hlegal
    · cases h
  · cases h

section

variable {t : Token}

theorem isLegal_of_readComment (h : readComment s = some (t, rest)) : t.IsLegal := by
  unfold readComment at h
  split at h
  · next huntil =>
    split at h
    · next hcontent =>
      cases h
      exact ⟨isLegal_of_readUntil huntil, hcontent⟩
    · cases h
  · cases h

theorem isLegal_of_readEndTag (h : readEndTag s = some (t, rest)) : t.IsLegal := by
  unfold readEndTag at h
  split at h
  · split at h
    · cases h
      trivial
    · cases h
  · cases h

theorem isLegal_of_readStartTag (h : readStartTag s = some (t, rest)) : t.IsLegal := by
  unfold readStartTag at h
  split at h
  · next hname =>
    obtain ⟨_, hattributes, heq⟩ := Option.map_eq_some_iff.1 h
    cases heq
    exact ⟨QName.isLocalName_of_read hname, isLegal_of_readAttributes hattributes⟩
  · cases h

theorem isLegal_of_readText (h : readText s = some (t, rest)) : t.IsLegal := by
  simp only [readText, Option.ite_none_right_eq_some, Option.some.injEq, Prod.mk.injEq] at h
  obtain ⟨hlegal, rfl, -⟩ := h
  exact ((Bool.and_eq_true _ _).mp hlegal).1

theorem Token.isLegal_of_read (h : Token.read s = some (t, rest)) : t.IsLegal := by
  unfold Token.read at h
  split at h
  · cases h
  · exact isLegal_of_readComment h
  · obtain ⟨_, huntil, heq⟩ := Option.map_eq_some_iff.1 h
    cases heq
    exact isLegal_of_readUntil huntil
  · obtain ⟨_, -, heq⟩ := Option.map_eq_some_iff.1 h
    cases heq
    trivial
  · exact isLegal_of_readEndTag h
  · exact isLegal_of_readStartTag h
  · exact isLegal_of_readText h

theorem isLegal_of_tokens {ts : List Token} (h : tokens s = some ts) : ∀ t ∈ ts, t.IsLegal := by
  fun_induction tokens s generalizing ts with
  | case1 =>
    cases h
    simp
  | case2 => cases h
  | case3 s hs t rest hread hlt ih =>
    obtain ⟨others, hothers, rfl⟩ := Option.map_eq_some_iff.1 h
    exact List.forall_mem_cons.2 ⟨Token.isLegal_of_read hread, ih hothers⟩

end

end ConfigOverlay.Markup
