import ConfigOverlay.Json.Reader
import ConfigOverlay.Proofs.Json.Quoted

set_option autoImplicit false

namespace ConfigOverlay.Json

inductive Textual : Json → Prop where
  | string (text : Option String) : Textual (.string text)
  | array {items : List Json} (h : ∀ item ∈ items, Textual item) : Textual (.array items)
  | object {members : List (Option String × Json)} (h : ∀ member ∈ members, Textual member.2) :
    Textual (.object members)

def Progress.readOn (progress : Progress) (s : List Char) : Option Progress :=
  (tokens s).bind fun ts => ts.foldlM Progress.next progress

theorem read_eq (s : List Char) :
    read s = ((⟨.value, []⟩ : Progress).readOn s).bind Progress.value? := by
  rw [read, Progress.readOn]
  cases tokens s <;> rfl

section

variable {c : Char} {s rest tail : List Char} {t : Token} {progress : Progress}

theorem tokens_cons (hc : isSpace c = false) (h : Token.read (c :: s) = some (t, rest)) :
    tokens (c :: s) = (tokens rest).map (t :: ·) := by
  have hdrop : (c :: s).dropWhile isSpace = c :: s := List.dropWhile_cons_of_neg (by simp [hc])
  rw [tokens.eq_def]
  split
  · next hempty => simp [hdrop] at hempty
  · split
    · next hnone =>
      rw [hdrop, h] at hnone
      cases hnone
    · next hsome =>
      rw [hdrop, h] at hsome
      cases hsome
      rfl

namespace Progress

theorem readOn_nil : progress.readOn [] = some progress := by
  rw [readOn, tokens.eq_def]
  simp

theorem readOn_cons (hc : isSpace c = false) (h : Token.read (c :: s) = some (t, rest)) :
    progress.readOn (c :: s) = (progress.next t).bind (·.readOn rest) := by
  rw [readOn, tokens_cons hc h]
  cases htokens : tokens rest with
  | none => cases progress.next t <;> simp [readOn, htokens]
  | some ts => cases hnext : progress.next t <;> simp [readOn, htokens, hnext]

theorem readOn_writeString (text : Option String) :
    progress.readOn (writeString text ++ rest) =
      (progress.next (.string text)).bind (·.readOn rest) := by
  obtain ⟨others, hothers⟩ : ∃ others, writeString text = '"' :: others := by
    cases text <;> exact ⟨_, rfl⟩
  have hread := Token.read_writeString text rest
  rw [hothers, List.cons_append] at hread ⊢
  exact readOn_cons rfl hread

/-- A value may begin here, inside these arrays and objects. An array that has just been opened
might end as well. -/
def Begins (progress : Progress) (outer : List Frame) : Prop :=
  ∀ t, t ≠ .closeArray → progress.next t = Progress.begin? outer t

theorem begins_value (outer : List Frame) : Begins ⟨.value, outer⟩ outer := fun _ _ => rfl

theorem begins_valueOrEnd (outer : List Frame) :
    Begins ⟨.valueOrEnd, outer⟩ (.array [] :: outer) := by
  intro t ht
  cases t with
  | closeArray => exact absurd rfl ht
  | _ => rfl

/-- What is written for the value is read as the value, wherever one may begin. -/
def Reads (value : Json) : Prop :=
  ∀ (progress : Progress) (outer : List Frame) (tail : List Char), progress.Begins outer →
    progress.readOn (write value tail) = (accept value outer).readOn tail

theorem readOn_writeItems {outer : List Frame} {items : List Json} (h : ∀ item ∈ items, Reads item)
    (last : Json) (made : List Json) :
    (⟨.afterValue last, .array made :: outer⟩ : Progress).readOn (writeItems items (']' :: tail)) =
      (accept (.array (made.reverse ++ last :: items)) outer).readOn tail := by
  induction items generalizing last made with
  | nil =>
    rw [writeItems, readOn_cons rfl rfl]
    simp [next]
  | cons item items ih =>
    have hitem := h item List.mem_cons_self
    rw [writeItems, readOn_cons rfl rfl]
    simp only [next, Option.bind_some]
    rw [hitem _ _ _ (begins_value _), accept, ih fun other hother =>
      h other (List.mem_cons_of_mem item hother)]
    simp

theorem readOn_writeMembers {outer : List Frame} {members : List (Option String × Json)}
    (h : ∀ member ∈ members, Reads member.2) (name : Option String) (last : Json)
    (made : List (Option String × Json)) :
    (⟨.afterValue last, .object made name :: outer⟩ : Progress).readOn
        (writeMembers members ('}' :: tail)) =
      (accept (.object (made.reverse ++ (name, last) :: members)) outer).readOn tail := by
  induction members generalizing name last made with
  | nil =>
    rw [writeMembers, readOn_cons rfl rfl]
    simp [next]
  | cons member members ih =>
    obtain ⟨name', value⟩ := member
    have hvalue : Reads value := h (name', value) List.mem_cons_self
    rw [writeMembers, List.cons_append, readOn_cons rfl rfl]
    simp only [next, Option.bind_some]
    rw [readOn_writeString]
    simp only [next, Option.bind_some]
    rw [readOn_cons rfl rfl]
    simp only [next, Option.bind_some]
    rw [hvalue _ _ _ (begins_value _), accept, ih fun other hother =>
      h other (List.mem_cons_of_mem _ hother)]
    simp

end Progress

theorem Textual.reads {value : Json} (h : value.Textual) : Progress.Reads value := by
  induction h with
  | string text =>
    intro progress outer tail hbegins
    rw [write, Progress.readOn_writeString, hbegins _ (by simp)]
    rfl
  | @array items _ ih =>
    intro progress outer tail hbegins
    have hopen : progress.next .openArray = some ⟨.valueOrEnd, outer⟩ := hbegins _ (by simp)
    cases items with
    | nil =>
      rw [write, Progress.readOn_cons rfl rfl, hopen, Option.bind_some,
        Progress.readOn_cons rfl rfl]
      rfl
    | cons item items =>
      rw [write, Progress.readOn_cons rfl rfl, hopen, Option.bind_some,
        ih item List.mem_cons_self _ _ _ (Progress.begins_valueOrEnd outer), Progress.accept,
        Progress.readOn_writeItems fun other hother => ih other (List.mem_cons_of_mem item hother)]
      rfl
  | @object members _ ih =>
    intro progress outer tail hbegins
    have hopen : progress.next .openObject = some ⟨.nameOrEnd, outer⟩ := hbegins _ (by simp)
    cases members with
    | nil =>
      rw [write, Progress.readOn_cons rfl rfl, hopen, Option.bind_some,
        Progress.readOn_cons rfl rfl]
      rfl
    | cons member members =>
      obtain ⟨name, value⟩ := member
      have hvalue : Progress.Reads value := ih (name, value) List.mem_cons_self
      rw [write, List.cons_append, Progress.readOn_cons rfl rfl, hopen, Option.bind_some,
        Progress.readOn_writeString]
      simp only [Progress.next, Option.bind_some]
      rw [Progress.readOn_cons rfl rfl]
      simp only [Progress.next, Option.bind_some]
      rw [hvalue _ _ _ (Progress.begins_value _), Progress.accept,
        Progress.readOn_writeMembers fun other hother => ih other (List.mem_cons_of_mem _ hother)]
      rfl

theorem read_write {value : Json} (h : value.Textual) : read (write value []) = some value := by
  rw [read_eq, h.reads _ _ _ (Progress.begins_value []), Progress.readOn_nil]
  rfl

end

end ConfigOverlay.Json
