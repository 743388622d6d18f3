import Mathlib.Data.List.Basic
import Pidgin.Proofs.Token.Tiling

/-!
# Writing tokens

A list of tokens is written with a blank behind each, and a string with an escape
for each character that has one.  A text written from tokens that can be spelled
is tiled by them, so reading it gives these tokens back.
-/

namespace Pidgin

open Spelling

def Kind.spelling : Kind → String
  | assign => "="
  | plus => "+"
  | minus => "-"
  | star => "*"
  | slash => "/"
  | bang => "!"
  | equal => "=="
  | notEqual => "!="
  | less => "<"
  | greater => ">"
  | comma => ","
  | semicolon => ";"
  | colon => ":"
  | lparen => "("
  | rparen => ")"
  | lbrace => "\x7b"
  | rbrace => "\x7d"
  | lbracket => "["
  | rbracket => "]"
  | abeg => "abeg"
  | oya => "oya"
  | waka => "waka"
  | comot => "comot"
  | abi => "abi"
  | naso => "naso"
  | litTrue => "true"
  | litFalse => "false"
  | and => "and"
  | or => "or"
  | orElse => "orelse"
  | _ => ""

def Kind.reading (kind : Kind) : Kind × String := (kind, kind.spelling)

def escaped (c : Char) : List Char :=
  match escapes.find? (·.2 = c) with
  | some (e, _) => ['\\', e]
  | none => [c]

def lexemeOf : Kind × String → List Char
  | (.string, text) => '"' :: (text.toList.flatMap escaped ++ ['"'])
  | (_, text) => text.toList

def textOf (readings : List (Kind × String)) : List Char :=
  readings.flatMap fun reading => lexemeOf reading ++ [' ']

/-! ## Reading them back -/

theorem Spelling.Resolves.escaped {quote : Char} {raw value : List Char}
    (hquote : quote = '"' ∨ quote = '\'') (c : Char) (h : Resolves quote raw value) :
    Resolves quote (escaped c ++ raw) (c :: value) := by
  unfold Pidgin.escaped
  split
  · rename_i e c' hfind
    have hsame : c' = c := by simpa using List.find?_some hfind
    rw [hsame] at hfind
    exact .escape (List.mem_of_find?_eq_some hfind) h
  · rename_i hfind
    rw [List.find?_eq_none] at hfind
    refine .plain ?_ ?_ h
    · rintro rfl
      rcases hquote with rfl | rfl
      · exact hfind ('"', '"') (by decide) (by decide)
      · exact hfind ('\'', '\'') (by decide) (by decide)
    · rintro rfl
      exact hfind ('\\', '\\') (by decide) (by decide)

theorem resolves_escaped (text : List Char) : Resolves '"' (text.flatMap escaped) text := by
  induction text with
  | nil => exact .done
  | cons c text ih => exact ih.escaped (.inl rfl) c

/-- In front of a blank, the token is read as what it was written for. -/
def Legible (reading : Kind × String) : Prop :=
  ∀ rest, Spells reading.1 reading.2.toList (lexemeOf reading) (' ' :: rest)

theorem legible_string (text : String) : Legible (.string, text) :=
  fun _ => .string (.inl rfl) (resolves_escaped text.toList)

theorem legible_verbatim {kind : Kind} {text : String} (hstring : kind ≠ .string)
    (h : ∀ rest, Verbatim kind text.toList (' ' :: rest)) : Legible (kind, text) := by
  intro rest
  have hlexeme : lexemeOf (kind, text) = text.toList := by
    unfold lexemeOf
    split
    · rename_i heq
      cases heq
      contradiction
    · rename_i heq
      cases heq
      rfl
  rw [hlexeme]
  exact .verbatim (h rest)

theorem word_blank {letters : List Char} (hstarts : letters.head?.any isWordStart = true)
    (hparts : letters.all isWordPart = true) (rest : List Char) : Word letters (' ' :: rest) := by
  refine ⟨?_, by simpa using hparts, ?_⟩
  · cases letters with
    | nil => simp at hstarts
    | cons c letters => exact ⟨c, rfl, hstarts⟩
  · intro c hc
    cases hc
    decide

theorem legible_reading {kind : Kind} (h : kind.spelling ≠ "") : Legible kind.reading := by
  cases kind with
  | plus | minus | star | less | greater | comma | semicolon | colon | lparen | rparen | lbrace
  | rbrace | lbracket | rbracket =>
      exact legible_verbatim (by decide) fun rest => .mark (by decide)
  | assign =>
      have hpair : ('=', Kind.assign, Kind.equal) ∈ pairable := by decide
      exact legible_verbatim (by decide) fun rest => .alone hpair (by simp)
  | equal =>
      have hpair : ('=', Kind.assign, Kind.equal) ∈ pairable := by decide
      exact legible_verbatim (by decide) fun rest => .paired hpair
  | bang =>
      have hpair : ('!', Kind.bang, Kind.notEqual) ∈ pairable := by decide
      exact legible_verbatim (by decide) fun rest => .alone hpair (by simp)
  | notEqual =>
      have hpair : ('!', Kind.bang, Kind.notEqual) ∈ pairable := by decide
      exact legible_verbatim (by decide) fun rest => .paired hpair
  | slash => exact legible_verbatim (by decide) fun rest => .slash (by simp) (by simp)
  | abeg | oya | waka | comot | abi | naso | litTrue | litFalse | and | or | orElse =>
      exact legible_verbatim (by decide) fun rest =>
        .keyword (word_blank (by decide) (by decide) rest) (by decide)
  | _ => exact absurd rfl h

theorem legible_typeName {text : String} (h : text ∈ typeNames) : Legible (.typeName, text) := by
  have htypes : ∀ text ∈ typeNames, text.toList.head?.any isWordStart = true ∧
      text.toList.all isWordPart = true ∧ text ∉ keywords.map Prod.fst := by decide
  obtain ⟨hstarts, hparts, hkeyword⟩ := htypes text h
  refine legible_verbatim (by decide) fun rest => .typeName (word_blank hstarts hparts rest) ?_ ?_
  · simpa using hkeyword
  · simpa using h

theorem legible_integer (n : Nat) : Legible (.integer, toString n) := by
  refine legible_verbatim (by decide) fun rest => .integer ?_ ⟨?_, ?_⟩ ?_
  · simp [Nat.toDigits_ne_nil]
  · intro c hc
    rw [Nat.toString_eq_repr, Nat.toList_repr] at hc
    exact Nat.isDigit_of_mem_toDigits (by decide) (by decide) hc
  · simp
  · simp

theorem tiles_textOf {readings : List (Kind × String)} (h : ∀ reading ∈ readings, Legible reading)
    (blanks : List Char) (hblanks : ∀ c ∈ blanks, Cursor.isBlank c = true) :
    Tiles (blanks ++ textOf readings) (readings ++ [(.eof, "")]) := by
  induction readings generalizing blanks with
  | nil => exact .done (by simpa [textOf] using hblanks)
  | cons reading readings ih =>
      rw [List.forall_mem_cons] at h
      have hspells := h.1 (textOf readings)
      obtain ⟨c, tail, hlexeme, hblank, -⟩ := Lexeme.scan_of_spells hspells
      have hmore := ih h.2 [' '] (by simp [Cursor.isBlank])
      have htext : textOf (reading :: readings) =
          lexemeOf reading ++ ' ' :: textOf readings := by simp [textOf]
      rw [htext, List.cons_append]
      refine .token ⟨hblanks, ?_⟩ (by simp [hlexeme]) hspells hmore
      intro c' hc'
      rw [hlexeme] at hc'
      cases hc'
      exact hblank

end Pidgin
