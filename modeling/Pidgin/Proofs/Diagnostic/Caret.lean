import Pidgin.Frontend
import Pidgin.Proofs.Parse.Invariant
import Pidgin.Proofs.Token.Fault

/-!
# Where diagnostics point

A diagnostic of a source text stands at a place in that text: at the lexeme of a
token, at the end, or right behind the backslash of an escape that is none.  Its
report quotes the line of that place and puts a caret below the character there.
-/

namespace Pidgin

open Spelling

/-! ## The tokens a parser sees -/

namespace Tokenization

theorem exists_eof {origin : Origin} {cursor : Cursor}
    (h : (ofCursor origin cursor).fault? = none) :
    ∃ token ∈ (ofCursor origin cursor).tokens, token.kind = .eof := by
  fun_induction ofCursor origin cursor with
  | case1 => cases h
  | case2 cursor token cursor' hnext hkind => exact ⟨token, by simp, hkind⟩
  | case3 cursor token cursor' hnext hkind _ ih =>
      obtain ⟨last, hlast, hmark⟩ := ih h
      exact ⟨last, by simp [cons, hlast], hmark⟩

end Tokenization

theorem Parser.mem_of_tokenAt? {tokens : List Token} {file : String} {limit index : Nat}
    {token : Token} (hend : ∃ token ∈ tokens, token.kind = .eof)
    (h : (ofTokens tokens file limit).tokenAt? index = some token) : token ∈ tokens := by
  have hstop : firstEnd (tokens.filter (·.kind ≠ .comment)) file ∈ tokens := by
    obtain ⟨mark, hmark, hkind⟩ := hend
    unfold firstEnd
    cases hfind : (tokens.filter (·.kind ≠ .comment)).find? (·.kind = .eof) with
    | none =>
        rw [List.find?_eq_none] at hfind
        exact absurd hkind (by simpa using hfind mark (by simp [hmark, hkind]))
    | some found => exact List.mem_of_mem_filter (List.mem_of_find?_eq_some hfind)
  have hmem := List.mem_of_getElem? h
  simp only [ofTokens, Parser.tokens, List.reverse_nil, List.nil_append, List.mem_append,
    List.mem_singleton] at hmem
  rcases hmem with hmem | rfl
  · exact List.mem_of_mem_filter (List.takeWhile_subset _ hmem)
  · exact hstop

/-! ## The report -/

namespace Diagnostic

/-- The report of `d` ends with its line of the source, `text`, behind a line number, and a
last line with a caret that stands below the character with the number of its column. -/
structure Shows (d : Diagnostic) (source : String) (text : List Char) : Prop where
  line : sourceLine? source d.pos.line = some (String.ofList text)
  caret : ∃ above lead under,
    (d.render source).toList = above ++ '\n' :: (lead ++ text) ++ '\n' :: (under ++ ['^']) ∧
    '\n' ∉ lead ++ text ∧ '\n' ∉ under ∧ '^' ∉ under ∧
    under.length = lead.length + (d.pos.column - 1)

theorem notMem_toDigits {c : Char} (h : c.isDigit = false) (n : Nat) : c ∉ Nat.toDigits 10 n := by
  intro hc
  have hdigit := Nat.isDigit_of_mem_toDigits (by decide) (by decide) hc
  simp [h] at hdigit

theorem newline_notMem_lineOf? {text found : List Char} {line : Nat}
    (h : lineOf? text line = some found) : '\n' ∉ found := by
  fun_induction lineOf? text line with
  | case1 => cases h
  | case2 text =>
      cases h
      intro hmem
      have hline : '\n' ∈ text.takeWhile (· ≠ '\n') := by
        rw [dropReturn] at hmem
        split at hmem
        · exact List.dropLast_subset _ hmem
        · exact hmem
      simpa using List.mem_takeWhile_imp hline
  | case3 => cases h
  | case4 text line c rest hdrop ih => exact ih h

theorem shows_of_lineOf? {d : Diagnostic} {source : String} {text : List Char}
    (h : lineOf? source.toList d.pos.line = some text) : d.Shows source text := by
  have hline : sourceLine? source d.pos.line = some (String.ofList text) := by
    simp [sourceLine?, h]
  refine ⟨hline, ?_⟩
  refine ⟨d.header.toList ++ '\n' :: ("-> " ++ d.file ++ ":" ++ toString d.pos).toList ++
      '\n' :: (gutter d.pos.line).toList, (toString d.pos.line ++ " | ").toList,
    (gutter d.pos.line).toList ++ ' ' :: List.replicate (d.pos.column - 1) '-', ?_, ?_, ?_, ?_, ?_⟩
  · simp [render, reportLines, hline, pointer]
  · simp [newline_notMem_lineOf? h, notMem_toDigits]
  · simp [gutter]
  · simp [gutter]
  · simp [gutter, ← String.length_toList]
    omega

/-! ## What a diagnostic points at -/

/-- What stands in the text on both sides of the place of a diagnostic, for tokens as
`parser` sees them. -/
inductive Points (parser : Parser) : Diagnostic → (pre rest : List Char) → Prop where
  | token {index : Nat} {token : Token} {cause : Cause} {pre lexeme more : List Char}
      (hseen : parser.tokenAt? index = some token)
      (hlexical : (parser.diagnose token cause).isLexical = false) (hsome : lexeme ≠ [])
      (hspells : Spells token.kind token.text.toList lexeme more) :
      Points parser (parser.diagnose token cause) pre (lexeme ++ more)
  | mark {index : Nat} {token : Token} {cause : Cause} {pre : List Char}
      (hseen : parser.tokenAt? index = some token)
      (hlexical : (parser.diagnose token cause).isLexical = false) (hkind : token.kind = .eof) :
      Points parser (parser.diagnose token cause) pre []
  | unterminatedString {pos : Position} {file : String} {pre : List Char} :
      Points parser ⟨.unterminatedString, pos, file⟩ pre []
  | unterminatedComment {pos : Position} {file : String} {pre : List Char} :
      Points parser ⟨.unterminatedComment, pos, file⟩ pre []
  | backslash {pos : Position} {file : String} {pre : List Char} :
      Points parser ⟨.invalidEscape "\\", pos, file⟩ (pre ++ ['\\']) []
  | escape {pos : Position} {file : String} {pre more : List Char} {e : Char} :
      Points parser ⟨.invalidEscape (String.ofList ['\\', e]), pos, file⟩ (pre ++ ['\\'])
        (e :: more)

variable {parser : Parser} {d : Diagnostic} {pre rest : List Char}

theorem isLexical_diagnose {limit : Nat} {token : Token} {cause : Cause}
    (h : cause.TrueOf limit token) : (parser.diagnose token cause).isLexical = false := by
  unfold Parser.diagnose
  cases h <;> dsimp only <;> split <;> rfl

theorem points_of_written {index : Nat} {token : Token} {cause : Cause} {lexeme : List Char}
    (hseen : parser.tokenAt? index = some token) (htrue : cause.TrueOf parser.limit token)
    (hwritten : token.Written lexeme rest) :
    Points parser (parser.diagnose token cause) pre (lexeme ++ rest) := by
  cases hwritten with
  | mark hkind => exact .mark hseen (isLexical_diagnose htrue) hkind
  | lexeme hsome hspells => exact .token hseen (isLexical_diagnose htrue) hsome hspells

theorem points_of_breaks {read : List Char} (h : Breaks d.cause read rest) :
    Points parser d (pre ++ read) rest := by
  obtain ⟨cause, pos, file⟩ := d
  cases h with
  | string => exact .unterminatedString
  | comment => exact .unterminatedComment
  | backslash =>
      rw [← List.cons_append, ← List.append_assoc]
      exact .backslash
  | escape =>
      rw [← List.cons_append, ← List.append_assoc]
      exact .escape

theorem Points.cons_ne_newline {c : Char} {more : List Char} (h : Points parser d pre (c :: more)) :
    c ≠ '\n' ∨ ∃ before, pre = before ++ ['\\'] := by
  generalize hrest : c :: more = rest at h
  cases h with
  | token hseen hlexical hsome hspells =>
      left
      obtain ⟨c', tail, rfl, hblank, -⟩ := Lexeme.scan_of_spells hspells
      rw [List.cons_append] at hrest
      cases hrest
      rintro rfl
      cases hblank
  | escape => exact .inr ⟨_, rfl⟩
  | mark => cases hrest
  | unterminatedString => cases hrest
  | unterminatedComment => cases hrest
  | backslash => cases hrest

/-- The character behind `pre` is the one with the number `column` of the line `text`, or else
it belongs to the end of that line, which a return in front of the end of the text does too. -/
def Meets (column : Nat) (text pre : List Char) : List Char → Prop
  | [] => column = text.length + 1 ∨ pre.getLast? = some '\r' ∧ column = text.length + 2
  | c :: _ => text[column - 1]? = some c ∨ (c = '\r' ∨ c = '\n') ∧ column = text.length + 1

theorem Points.meets (h : Points parser d pre rest) :
    Meets (Position.behind pre).column (dropReturn (lastLine pre ++ rest.takeWhile (· ≠ '\n')))
      pre rest := by
  cases rest with
  | nil =>
      rcases length_line_nil pre with hlength | ⟨hreturn, hlength⟩
      · left
        simp [Position.behind, hlength, Nat.add_comm]
      · right
        refine ⟨hreturn, ?_⟩
        simp only [Position.behind, List.takeWhile_nil, List.append_nil]
        omega
  | cons c more =>
      by_cases hnewline : c = '\n'
      · obtain hne | ⟨before, rfl⟩ := h.cons_ne_newline
        · contradiction
        · right
          refine ⟨.inr hnewline, ?_⟩
          simp [Position.behind, hnewline, dropReturn, Nat.add_comm]
      · rcases getElem?_line_cons pre more hnewline with hfound | ⟨hreturn, hlength⟩
        · left
          simpa [Position.behind] using hfound
        · right
          exact ⟨.inl hreturn, by rw [hlength]; exact Nat.add_comm ..⟩

end Diagnostic

/--
Every diagnostic of a source text stands behind a part of it, at the lexeme of the token it was
raised at, at the end, or behind a backslash.  The line of that place exists, and in the report
the caret stands below the character there.
-/
theorem diagnostics_point {source file : String} {errors : List Diagnostic}
    (h : parseSource source file = .error errors) :
    let parser := Parser.ofTokens (tokenize source ⟨file, "."⟩).tokens file defaultLimit
    ∀ d ∈ errors, ∃ pre rest, source.toList = pre ++ rest ∧ d.pos = .behind pre ∧
      d.Points parser pre rest ∧
      ∃ text, d.Shows source text ∧ Diagnostic.Meets d.pos.column text pre rest := by
  intro parser d hd
  have hstart := Cursor.hasRead_ofText source
  have hpoints : ∃ pre rest, source.toList = pre ++ rest ∧ d.pos = .behind pre ∧
      d.Points parser pre rest := by
    unfold parseSource at h
    dsimp only at h
    split at h
    · rename_i fault hfault
      cases h
      obtain rfl := List.mem_singleton.1 hd
      obtain ⟨before, read, rest, htext, hpos, hbreaks⟩ :=
        Tokenization.fault_of_hasRead hstart hfault
      exact ⟨_, rest, htext, hpos, Diagnostic.points_of_breaks hbreaks⟩
    · rename_i hfault
      obtain ⟨index, token, cause, hseen, htrue, rfl⟩ := exists_true_of_parse h d hd
      have hmem := Parser.mem_of_tokenAt? (Tokenization.exists_eof hfault) hseen
      obtain ⟨pre, hpos, lexeme, more, htext, hwritten⟩ :=
        (Tokenization.ofCursor_places hstart).1 token hmem
      exact ⟨_, _, htext, hpos, Diagnostic.points_of_written hseen htrue hwritten⟩
  obtain ⟨pre, rest, htext, hpos, hpoint⟩ := hpoints
  refine ⟨pre, rest, htext, hpos, hpoint, _, ?_, hpos ▸ hpoint.meets⟩
  apply Diagnostic.shows_of_lineOf?
  rw [htext, hpos]
  exact lineOf?_behind pre rest

/-- A parenthesis that nothing opened, on the line behind a return. -/
theorem diagnostics_point_parenthesis :
    let source := "a;\r\n )"
    ∃ d pre rest, parseSource source "main" = .error [d] ∧ d.pos = ⟨2, 2⟩ ∧
      source.toList = pre ++ rest ∧ d.pos = .behind pre ∧ ∃ text, d.Shows source text := by
  intro source
  let origin : Origin := ⟨"main", "."⟩
  let d : Diagnostic := ⟨.expectedExpression ")", ⟨2, 2⟩, "main"⟩
  have htokens : tokenize source origin =
      ⟨[⟨.ident, "a", ⟨1, 1⟩, origin⟩, ⟨.semicolon, ";", ⟨1, 2⟩, origin⟩,
        ⟨.rparen, ")", ⟨2, 2⟩, origin⟩, ⟨.eof, "", ⟨2, 3⟩, origin⟩], none⟩ := by decide +kernel
  have hparse : parseSource source "main" = .error [d] := by
    rw [parseSource, htokens]
    rfl
  obtain ⟨pre, rest, htext, hpos, -, text, hshows, -⟩ := diagnostics_point hparse d (by simp)
  exact ⟨d, pre, rest, hparse, rfl, htext, hpos, text, hshows⟩

end Pidgin
