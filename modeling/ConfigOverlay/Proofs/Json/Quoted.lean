import ConfigOverlay.Json.Basic
import ConfigOverlay.Json.Token

set_option autoImplicit false

namespace ConfigOverlay.Json

theorem digitsValue_control {n : Nat} (h : n < 0x20) :
    Text.digitsValue 16 Text.hexDigit? 0
      ['0', '0', Text.hexDigitChar (n / 16), Text.hexDigitChar (n % 16)] = some n := by
  revert n
  decide

theorem pieceText_control {c : Char} (h : c.toNat < 0x20) (pieces : List Piece) :
    pieceText (.unit c.toNat :: pieces) = (pieceText pieces).map (c :: ·) := by
  have hhigh : isHighHalf c.toNat = false := by simp [isHighHalf]; omega
  have hlow : isLowHalf c.toNat = false := by simp [isLowHalf]; omega
  match pieces with
  | [] => simp [pieceText, hhigh, hlow]
  | .char d :: rest => simp [pieceText, hhigh, hlow]
  | .unit n :: rest => simp [pieceText, hhigh, hlow]

theorem readPieces_cons {c : Char} (hquote : c ≠ '"') (hbackslash : c ≠ '\\')
    (hcontrol : ¬ c.toNat < 0x20) (rest : List Char) : readPieces (c :: rest) =
      (readPieces rest).map fun (pieces, rest) => (.char c :: pieces, rest) := by
  rw [readPieces, if_neg (not_or.2 ⟨hbackslash, hcontrol⟩)]
  all_goals simp_all

theorem readPieces_quoteChar (c : Char) : ∃ piece,
    (∀ pieces, pieceText (piece :: pieces) = (pieceText pieces).map (c :: ·)) ∧
    ∀ rest, readPieces (quoteChar c ++ rest) =
      (readPieces rest).map fun (pieces, rest) => (piece :: pieces, rest) := by
  have hchar (pieces : List Piece) :
      pieceText (.char c :: pieces) = (pieceText pieces).map (c :: ·) := by rw [pieceText]
  unfold quoteChar
  split
  iterate 7 exact ⟨.char _, hchar, fun rest => by simp [readPieces, shortEscape?]⟩
  next hquote hbackslash _ _ _ _ _ =>
    split
    · next hcontrol =>
      refine ⟨.unit c.toNat, pieceText_control hcontrol, fun rest => ?_⟩
      simp only [List.cons_append, List.nil_append]
      rw [readPieces, digitsValue_control hcontrol, Option.bind_some]
    · next hcontrol =>
      refine ⟨.char c, hchar, fun rest => ?_⟩
      rw [List.singleton_append, readPieces_cons hquote hbackslash hcontrol]

theorem readPieces_quoted (s rest : List Char) : ∃ pieces,
    readPieces (s.flatMap quoteChar ++ '"' :: rest) = some (pieces, rest) ∧
      pieceText pieces = some s := by
  induction s with
  | nil => exact ⟨[], by simp [readPieces], rfl⟩
  | cons c s ih =>
    obtain ⟨piece, htext, hread⟩ := readPieces_quoteChar c
    obtain ⟨pieces, hpieces, hs⟩ := ih
    refine ⟨piece :: pieces, ?_, by rw [htext, hs]; rfl⟩
    rw [List.flatMap_cons, List.append_assoc, hread, hpieces]
    rfl

theorem Token.read_writeString (text : Option String) (rest : List Char) :
    Token.read (writeString text ++ rest) = some (.string text, rest) := by
  cases text with
  | none => simp [writeString, Token.read, readQuotedText, readPieces, pieceText, isHighHalf,
      Text.digitsValue, Text.hexDigit?]
  | some text =>
    obtain ⟨pieces, hpieces, htext⟩ := readPieces_quoted text.toList rest
    simp only [writeString, quote, List.cons_append, List.append_assoc, List.nil_append]
    rw [Token.read, readQuotedText, hpieces]
    simp [htext]

end ConfigOverlay.Json
