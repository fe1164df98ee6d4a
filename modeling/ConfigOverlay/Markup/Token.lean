import ConfigOverlay.Markup.CharacterData

set_option autoImplicit false

namespace ConfigOverlay.Markup

structure QName where
  qualifier : String
  localName : String
  deriving DecidableEq, Repr

structure RawAttribute where
  name : QName
  value : List Char
  deriving DecidableEq, Repr

inductive Token where
  | startTag (name : QName) (attributes : List RawAttribute) (closed : Bool)
  | endTag (name : QName)
  | text (raw : List Char)
  | cdata (content : List Char)
  | comment (content : List Char)
  | instruction
  deriving DecidableEq, Repr

def beginsName : List Char → Bool
  | [] => false
  | c :: _ => isNameStart c

/-- Reads a name with at most one colon. A name may begin with the colon: its qualifier is empty
then. The local part is never empty. -/
def QName.read (s : List Char) : Option (QName × List Char) :=
  let rest := s.dropWhile isNameChar
  match Text.segments ':' (s.takeWhile isNameChar) with
  | [localName] =>
    if beginsName localName then some (⟨"", String.ofList localName⟩, rest) else none
  | [qualifier, localName] =>
    if (qualifier.isEmpty || beginsName qualifier) && beginsName localName then
      some (⟨String.ofList qualifier, String.ofList localName⟩, rest)
    else none
  | _ => none

def readQuoted (quote : Char) (s : List Char) : Option (List Char × List Char) :=
  let inside := fun c => c != quote && c != '<'
  let value := s.takeWhile inside
  match s.dropWhile inside with
  | c :: rest => if c = quote ∧ value.all isLegal then some (value, rest) else none
  | [] => none

def RawAttribute.read (s : List Char) : Option (RawAttribute × List Char) :=
  match QName.read s with
  | none => none
  | some (name, rest) =>
    match rest.dropWhile isSpace with
    | '=' :: rest =>
      match rest.dropWhile isSpace with
      | quote :: rest =>
        if quote = '"' ∨ quote = '\'' then
          (readQuoted quote rest).map fun (value, rest) => (⟨name, value⟩, rest)
        else none
      | [] => none
    | _ => none

theorem QName.length_le_of_read {s rest : List Char} {name : QName}
    (h : QName.read s = some (name, rest)) : rest.length ≤ s.length := by
  have := (List.dropWhile_sublist isNameChar (l := s)).length_le
  unfold QName.read at h
  simp only at h
  split at h
  · split at h <;> simp_all
  · split at h <;> simp_all
  · simp at h

theorem length_lt_of_readQuoted {quote : Char} {s value rest : List Char}
    (h : readQuoted quote s = some (value, rest)) : rest.length < s.length := by
  have hle := (List.dropWhile_sublist (fun c => c != quote && c != '<') (l := s)).length_le
  unfold readQuoted at h
  simp only at h
  split at h
  · next hd =>
    rw [hd] at hle
    split at h
    · simp only [Option.some.injEq, Prod.mk.injEq] at h
      obtain ⟨_, rfl⟩ := h
      simp only [List.length_cons] at hle
      omega
    · simp at h
  · simp at h

theorem RawAttribute.length_lt_of_read {s rest : List Char} {a : RawAttribute}
    (h : RawAttribute.read s = some (a, rest)) : rest.length < s.length := by
  unfold RawAttribute.read at h
  split at h
  · simp at h
  · next name r₁ hname =>
    have h₁ := QName.length_le_of_read hname
    have h₂ := (List.dropWhile_sublist isSpace (l := r₁)).length_le
    split at h
    · next r₂ hr₂ =>
      have h₃ := (List.dropWhile_sublist isSpace (l := r₂)).length_le
      rw [hr₂, List.length_cons] at h₂
      split at h
      · next quote r₃ hr₃ =>
        rw [hr₃, List.length_cons] at h₃
        split at h
        · simp only [Option.map_eq_some_iff, Prod.mk.injEq, Prod.exists] at h
          obtain ⟨value, r₄, hq, _, rfl⟩ := h
          have := length_lt_of_readQuoted hq
          omega
        · simp at h
      · simp at h
    · simp at h

def readAttributes (s : List Char) : Option (List RawAttribute × Bool × List Char) :=
  match s.dropWhile isSpace with
  | '>' :: rest => some ([], false, rest)
  | '/' :: '>' :: rest => some ([], true, rest)
  | _ =>
    if (s.head?.map isSpace).getD false then
      match h : RawAttribute.read (s.dropWhile isSpace) with
      | none => none
      | some (a, rest) =>
        have := RawAttribute.length_lt_of_read h
        have := (List.dropWhile_sublist isSpace (l := s)).length_le
        (readAttributes rest).map fun (attributes, closed, rest) => (a :: attributes, closed, rest)
    else none
termination_by s.length

def readUntil (mark s : List Char) : Option (List Char × List Char) :=
  match Text.cutAt mark s with
  | some (before, rest) => if before.all isLegal then some (before, rest) else none
  | none => none

def isCommentContent (content : List Char) : Bool :=
  (Text.cutAt ['-', '-'] content).isNone && content.getLast? != some '-'

/-- Reads an instruction after its `<?`: a target and whatever else comes before `?>`. A target
`xml` with a space after it is the declaration, which stands at the beginning only. -/
def readInstruction (s : List Char) : Option (List Char) :=
  if ['x', 'm', 'l', ' '].isPrefixOf s || !beginsName s then none
  else (readUntil ['?', '>'] ((s.dropWhile isNameChar).dropWhile isSpace)).map (·.2)

def readComment (s : List Char) : Option (Token × List Char) :=
  match readUntil ['-', '-', '>'] s with
  | some (content, rest) => if isCommentContent content then some (.comment content, rest) else none
  | none => none

def readEndTag (s : List Char) : Option (Token × List Char) :=
  match QName.read s with
  | some (name, rest) =>
    match rest.dropWhile isSpace with
    | '>' :: rest => some (.endTag name, rest)
    | _ => none
  | none => none

def readStartTag (s : List Char) : Option (Token × List Char) :=
  match QName.read s with
  | some (name, rest) =>
    (readAttributes rest).map fun (attributes, closed, rest) =>
      (.startTag name attributes closed, rest)
  | none => none

def readText (s : List Char) : Option (Token × List Char) :=
  let raw := s.takeWhile (· != '<')
  if raw.all isLegal && (Text.cutAt [']', ']', '>'] raw).isNone then
    some (.text raw, s.dropWhile (· != '<'))
  else none

def Token.read : List Char → Option (Token × List Char)
  | [] => none
  | '<' :: '!' :: '-' :: '-' :: s => readComment s
  | '<' :: '!' :: '[' :: 'C' :: 'D' :: 'A' :: 'T' :: 'A' :: '[' :: s =>
    (readUntil [']', ']', '>'] s).map fun (content, rest) => (.cdata content, rest)
  | '<' :: '?' :: s => (readInstruction s).map fun rest => (.instruction, rest)
  | '<' :: '/' :: s => readEndTag s
  | '<' :: s => readStartTag s
  | c :: s => readText (c :: s)

theorem length_le_of_readAttributes {s rest : List Char} {attributes : List RawAttribute}
    {closed : Bool} (h : readAttributes s = some (attributes, closed, rest)) :
    rest.length ≤ s.length := by
  fun_induction readAttributes s generalizing attributes closed rest with
  | case1 s r hr =>
    have := (List.dropWhile_sublist isSpace (l := s)).length_le
    rw [hr, List.length_cons] at this
    simp only [Option.some.injEq, Prod.mk.injEq] at h
    obtain ⟨_, _, rfl⟩ := h
    omega
  | case2 s r hr =>
    have := (List.dropWhile_sublist isSpace (l := s)).length_le
    rw [hr, List.length_cons, List.length_cons] at this
    simp only [Option.some.injEq, Prod.mk.injEq] at h
    obtain ⟨_, _, rfl⟩ := h
    omega
  | case3 => simp at h
  | case4 s _ _ _ a r hr hlt hle ih =>
    simp only [Option.map_eq_some_iff, Prod.mk.injEq, Prod.exists] at h
    obtain ⟨attributes', closed', rest', hrest, _, _, rfl⟩ := h
    have := ih hrest
    omega
  | case5 => simp at h

theorem length_le_of_readUntil {mark s before rest : List Char}
    (h : readUntil mark s = some (before, rest)) : rest.length ≤ s.length := by
  unfold readUntil at h
  split at h
  · next hcut =>
    split at h
    · simp only [Option.some.injEq, Prod.mk.injEq] at h
      obtain ⟨_, rfl⟩ := h
      exact Text.length_le_of_cutAt hcut
    · simp at h
  · simp at h

theorem length_le_of_readInstruction {s rest : List Char}
    (h : readInstruction s = some rest) : rest.length ≤ s.length := by
  unfold readInstruction at h
  split at h
  · simp at h
  · simp only [Option.map_eq_some_iff, Prod.exists] at h
    obtain ⟨before, rest', huntil, rfl⟩ := h
    have := length_le_of_readUntil huntil
    have := (List.dropWhile_sublist isNameChar (l := s)).length_le
    have := (List.dropWhile_sublist isSpace (l := s.dropWhile isNameChar)).length_le
    exact Nat.le_trans ‹rest'.length ≤ _› (by omega)

theorem length_le_of_readComment {s rest : List Char} {t : Token}
    (h : readComment s = some (t, rest)) : rest.length ≤ s.length := by
  unfold readComment at h
  split at h
  · next huntil =>
    split at h
    · simp only [Option.some.injEq, Prod.mk.injEq] at h
      obtain ⟨_, rfl⟩ := h
      exact length_le_of_readUntil huntil
    · simp at h
  · simp at h

theorem length_le_of_readEndTag {s rest : List Char} {t : Token}
    (h : readEndTag s = some (t, rest)) : rest.length ≤ s.length := by
  unfold readEndTag at h
  split at h
  · next name r hname =>
    have h₁ := QName.length_le_of_read hname
    have h₂ := (List.dropWhile_sublist isSpace (l := r)).length_le
    split at h
    · next r' hr =>
      rw [hr, List.length_cons] at h₂
      simp only [Option.some.injEq, Prod.mk.injEq] at h
      obtain ⟨_, rfl⟩ := h
      omega
    · simp at h
  · simp at h

theorem length_le_of_readStartTag {s rest : List Char} {t : Token}
    (h : readStartTag s = some (t, rest)) : rest.length ≤ s.length := by
  unfold readStartTag at h
  split at h
  · next name r hname =>
    have h₁ := QName.length_le_of_read hname
    simp only [Option.map_eq_some_iff, Prod.mk.injEq, Prod.exists] at h
    obtain ⟨_, _, _, hattrs, _, rfl⟩ := h
    have := length_le_of_readAttributes hattrs
    omega
  · simp at h

theorem length_lt_of_readText {c : Char} {s rest : List Char} {t : Token} (hc : c ≠ '<')
    (h : readText (c :: s) = some (t, rest)) : rest.length < (c :: s).length := by
  have := (List.dropWhile_sublist (· != '<') (l := s)).length_le
  simp only [readText] at h
  split at h
  · simp only [Option.some.injEq, Prod.mk.injEq, List.dropWhile, bne_iff_ne.2 hc] at h
    obtain ⟨_, rfl⟩ := h
    rw [List.length_cons]
    omega
  · simp at h

theorem Token.length_lt_of_read {s rest : List Char} {t : Token}
    (h : Token.read s = some (t, rest)) : rest.length < s.length := by
  unfold Token.read at h
  split at h
  · simp at h
  · have := length_le_of_readComment h
    simp only [List.length_cons]
    omega
  · simp only [Option.map_eq_some_iff, Prod.mk.injEq, Prod.exists] at h
    obtain ⟨_, _, huntil, _, rfl⟩ := h
    have := length_le_of_readUntil huntil
    simp only [List.length_cons]
    omega
  · simp only [Option.map_eq_some_iff, Prod.mk.injEq] at h
    obtain ⟨_, hread, _, rfl⟩ := h
    have := length_le_of_readInstruction hread
    simp only [List.length_cons]
    omega
  · have := length_le_of_readEndTag h
    simp only [List.length_cons]
    omega
  · have := length_le_of_readStartTag h
    simp only [List.length_cons]
    omega
  · next hc => exact length_lt_of_readText (fun h => hc (by rw [h])) h

end ConfigOverlay.Markup
