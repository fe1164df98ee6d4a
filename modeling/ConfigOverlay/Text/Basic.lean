set_option autoImplicit false

namespace ConfigOverlay.Text

/-- The characters with the Unicode property `White_Space`. -/
def isBlank (c : Char) : Bool :=
  let n := c.toNat
  (0x9 ≤ n && n ≤ 0xD) || n == 0x20 || n == 0x85 || n == 0xA0 || n == 0x1680 ||
    (0x2000 ≤ n && n ≤ 0x200A) || n == 0x2028 || n == 0x2029 || n == 0x202F || n == 0x205F ||
    n == 0x3000

def isBlankText (s : String) : Bool := s.toList.all isBlank

def trim (s : List Char) : List Char :=
  ((s.dropWhile isBlank).reverse.dropWhile isBlank).reverse

def upperCase (s : List Char) : List Char := s.map Char.toUpper

def decimalDigit? (c : Char) : Option Nat := if c.isDigit then some (c.toNat - 48) else none

def hexDigit? (c : Char) : Option Nat :=
  let n := c.toNat
  if c.isDigit then some (n - 48)
  else if 'a'.toNat ≤ n ∧ n ≤ 'f'.toNat then some (n - 87)
  else if 'A'.toNat ≤ n ∧ n ≤ 'F'.toNat then some (n - 55)
  else none

/-- The number that the digits write behind those of `value`, most significant first. -/
def digitsValue (base : Nat) (digit? : Char → Option Nat) : Nat → List Char → Option Nat
  | value, [] => some value
  | value, c :: rest => (digit? c).bind fun d => digitsValue base digit? (value * base + d) rest

def hexDigitChar (n : Nat) : Char := Char.ofNat (if n < 10 then 48 + n else 87 + n)

/-- The pieces between the separators, one more than there are separators. -/
def segments (sep : Char) : List Char → List (List Char)
  | [] => [[]]
  | c :: rest =>
    if c = sep then [] :: segments sep rest
    else match segments sep rest with
      | [] => [[c]]
      | piece :: pieces => (c :: piece) :: pieces

def joined (sep : Char) : List (List Char) → List Char
  | [] => []
  | [piece] => piece
  | piece :: pieces => piece ++ sep :: joined sep pieces

theorem segments_ne_nil (sep : Char) (s : List Char) : segments sep s ≠ [] := by
  cases s with
  | nil => simp [segments]
  | cons c rest =>
    simp only [segments]
    split
    · simp
    · split <;> simp

theorem joined_segments (sep : Char) (s : List Char) : joined sep (segments sep s) = s := by
  induction s with
  | nil => rfl
  | cons c rest ih =>
    simp only [segments]
    split
    · next h =>
      subst h
      cases hs : segments c rest with
      | nil => exact absurd hs (segments_ne_nil c rest)
      | cons piece pieces => simp [joined, ← hs, ih]
    · cases hs : segments sep rest with
      | nil => exact absurd hs (segments_ne_nil sep rest)
      | cons piece pieces =>
        rw [hs] at ih
        cases pieces with
        | nil => simpa [joined] using ih
        | cons next others => simpa [joined] using ih

theorem mem_of_mem_segments {sep c : Char} {s piece : List Char} (hp : piece ∈ segments sep s)
    (hc : c ∈ piece) : c ∈ s := by
  induction s generalizing piece with
  | nil =>
    rw [segments, List.mem_singleton] at hp
    exact hp ▸ hc
  | cons d rest ih =>
    simp only [segments] at hp
    split at hp
    · rcases List.mem_cons.1 hp with rfl | hp
      · exact absurd hc List.not_mem_nil
      · exact List.mem_cons_of_mem d (ih hp hc)
    · cases hs : segments sep rest with
      | nil => exact absurd hs (segments_ne_nil sep rest)
      | cons first others =>
        rw [hs] at hp ih
        rcases List.mem_cons.1 hp with rfl | hp
        · rcases List.mem_cons.1 hc with rfl | hc
          · exact List.mem_cons_self
          · exact List.mem_cons_of_mem d (ih List.mem_cons_self hc)
        · exact List.mem_cons_of_mem d (ih (List.mem_cons_of_mem first hp) hc)

theorem segments_of_not_mem {sep : Char} {s : List Char} (h : sep ∉ s) : segments sep s = [s] := by
  induction s with
  | nil => rfl
  | cons c rest ih =>
    rw [List.mem_cons, not_or] at h
    rw [segments, if_neg (Ne.symm h.1), ih h.2]

theorem not_mem_of_mem_segments {sep : Char} {s piece : List Char} (h : piece ∈ segments sep s) :
    sep ∉ piece := by
  induction s generalizing piece with
  | nil =>
    rw [segments, List.mem_singleton] at h
    exact h ▸ List.not_mem_nil
  | cons c rest ih =>
    simp only [segments] at h
    split at h
    · rcases List.mem_cons.1 h with rfl | h
      · exact List.not_mem_nil
      · exact ih h
    · next hc =>
      cases hs : segments sep rest with
      | nil => exact absurd hs (segments_ne_nil sep rest)
      | cons first others =>
        rw [hs] at h ih
        rcases List.mem_cons.1 h with rfl | h
        · exact fun hmem => (List.mem_cons.1 hmem).elim (Ne.symm hc) (ih List.mem_cons_self)
        · exact ih (List.mem_cons_of_mem first h)

theorem append_eq_of_isPrefixOf? {lead s after : List Char}
    (h : lead.isPrefixOf? s = some after) : lead ++ after = s := by
  induction lead generalizing s with
  | nil =>
    have h : some s = some after := h
    cases h
    rfl
  | cons c lead ih =>
    cases s with
    | nil => cases h
    | cons d s =>
      have h : (if c == d then lead.isPrefixOf? s else none) = some after := h
      split at h
      · next hc => rw [List.cons_append, ih h, eq_of_beq hc]
      · cases h

def stripLead (lead s : String) : Option String :=
  (lead.toList.isPrefixOf? s.toList).map String.ofList

/-- Cuts at the first occurrence of `mark`, which itself is dropped. -/
def cutAt (mark : List Char) : List Char → Option (List Char × List Char)
  | [] => none
  | c :: rest =>
    match mark.isPrefixOf? (c :: rest) with
    | some after => some ([], after)
    | none => (cutAt mark rest).map fun (before, after) => (c :: before, after)

theorem eq_of_cutAt {mark s before rest : List Char} (h : cutAt mark s = some (before, rest)) :
    s = before ++ (mark ++ rest) := by
  induction s generalizing before with
  | nil => simp [cutAt] at h
  | cons c s ih =>
    simp only [cutAt] at h
    split at h
    · next after hafter =>
      simp only [Option.some.injEq, Prod.mk.injEq] at h
      obtain ⟨rfl, rfl⟩ := h
      exact (append_eq_of_isPrefixOf? hafter).symm
    · simp only [Option.map_eq_some_iff, Prod.mk.injEq, Prod.exists] at h
      obtain ⟨_, _, hcut, rfl, rfl⟩ := h
      rw [List.cons_append, ← ih hcut]

theorem length_le_of_cutAt {mark s before rest : List Char}
    (h : cutAt mark s = some (before, rest)) : rest.length ≤ s.length := by
  rw [eq_of_cutAt h, List.length_append, List.length_append]
  omega

theorem cutAt_eq_none {mark s : List Char} {c : Char} (hmark : c ∈ mark) (hs : c ∉ s) :
    cutAt mark s = none := by
  cases h : cutAt mark s with
  | none => rfl
  | some found =>
    refine absurd ?_ hs
    rw [eq_of_cutAt h]
    exact List.mem_append_right _ (List.mem_append_left _ hmark)

end ConfigOverlay.Text
