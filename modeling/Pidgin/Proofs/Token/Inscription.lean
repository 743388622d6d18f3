import Pidgin.Proofs.Token.Boundary
import Pidgin.Proofs.Token.Place
import Pidgin.Proofs.Token.Written

/-!
# Every way to write tokens

A writer of tokens has choices: which quotes to put around a string, which of its
characters to escape, which kind of comment to use, and which blanks to put
between tokens.  Whatever is chosen, reading gives the tokens back, as long as a
line comment is ended by a line feed: any other blank would become part of it.
-/

namespace Pidgin

open Spelling

/-- A token together with what its writer has chosen. -/
inductive Inscription where
  /-- A token that is its own text. -/
  | verbatim (kind : Kind) (text : List Char)
  /-- A string; the characters marked `true` are left as they are where that is possible. -/
  | string (quote : Char) (chars : List (Char × Bool))
  | lineComment (text : List Char)
  | blockComment (text : List Char)

namespace Inscription

def reading : Inscription → Kind × String
  | verbatim kind text => (kind, .ofList text)
  | string _ chars => (.string, .ofList (chars.map Prod.fst))
  | lineComment text => (.comment, .ofList text)
  | blockComment text => (.comment, .ofList text)

/-- The quote and the backslash are escaped in any case. -/
def charIn (quote : Char) (char : Char × Bool) : List Char :=
  if char.2 ∧ char.1 ≠ quote ∧ char.1 ≠ '\\' then [char.1] else escaped char.1

def lexeme : Inscription → List Char
  | verbatim _ text => text
  | string quote chars => quote :: (chars.flatMap (charIn quote) ++ [quote])
  | lineComment text => '/' :: '/' :: text
  | blockComment text => '/' :: '*' :: (text ++ ['*', '/'])

def Proper : Inscription → Prop
  | verbatim kind text => ∃ rest, Verbatim kind text rest
  | string quote _ => quote = '"' ∨ quote = '\''
  | lineComment text => '\n' ∉ text
  | blockComment text => ¬['*', '/'] <:+: text

def EndsWithLine : Inscription → Prop
  | lineComment _ => True
  | _ => False

def writeAll (items : List (Inscription × List Char)) : List Char :=
  items.flatMap fun item => item.1.lexeme ++ item.2

/-- There are blanks between any two tokens, and behind a line comment they are such as `closes`
asks for; nothing has to follow the last token. -/
inductive Apart (closes : List Char → Prop) : List (Inscription × List Char) → Prop where
  | nil : Apart closes []
  | cons {token : Inscription} {gap : List Char} {items : List (Inscription × List Char)}
      (hblanks : ∀ c ∈ gap, Cursor.isBlank c = true) (hsome : items ≠ [] → gap ≠ [])
      (hcloses : token.EndsWithLine → gap = [] ∨ closes gap) (more : Apart closes items) :
      Apart closes ((token, gap) :: items)

/-! ## Reading them back -/

variable {token : Inscription} {items : List (Inscription × List Char)}

theorem resolves_chars {quote : Char} (hquote : quote = '"' ∨ quote = '\'')
    (chars : List (Char × Bool)) :
    Resolves quote (chars.flatMap (charIn quote)) (chars.map Prod.fst) := by
  induction chars with
  | nil => exact .done
  | cons char chars ih =>
      rw [List.flatMap_cons, List.map_cons, charIn]
      split
      · rename_i hraw
        exact .plain hraw.2.1 hraw.2.2 ih
      · exact ih.escaped hquote char.1

theorem spells_of_proper (h : token.Proper) {rest : List Char}
    (hblank : ∀ c ∈ rest.head?, Cursor.isBlank c = true)
    (hline : token.EndsWithLine → rest = [] ∨ rest.head? = some '\n') :
    Spells token.reading.1 token.reading.2.toList token.lexeme rest := by
  cases token with
  | verbatim kind text =>
      obtain ⟨other, hverbatim⟩ := h
      rw [reading, String.toList_ofList]
      exact .verbatim (hverbatim.bars (bars_blanks other hblank))
  | string quote chars =>
      rw [reading, String.toList_ofList]
      exact .string h (resolves_chars h chars)
  | lineComment text =>
      rw [reading, String.toList_ofList]
      exact .lineComment h (hline trivial)
  | blockComment text =>
      rw [reading, String.toList_ofList]
      exact .blockComment h

theorem tiles_writeAll (hproper : ∀ item ∈ items, item.1.Proper)
    (hapart : Apart (·.head? = some '\n') items) (blanks : List Char)
    (hblanks : ∀ c ∈ blanks, Cursor.isBlank c = true) :
    Tiles (blanks ++ writeAll items)
      (items.map (fun item => item.1.reading) ++ [(.eof, "")]) := by
  induction hapart generalizing blanks with
  | nil => exact .done (by simpa [writeAll] using hblanks)
  | @cons token gap items hgap hsome hcloses more ih =>
      rw [List.forall_mem_cons] at hproper
      have htext : writeAll ((token, gap) :: items) =
          token.lexeme ++ (gap ++ writeAll items) := by simp [writeAll]
      -- The last gap may be empty, and then nothing stands behind the token.
      have hnone (h : gap = []) : gap ++ writeAll items = [] := by
        cases items with
        | nil => rw [h]; rfl
        | cons => exact absurd h (hsome (by simp))
      have hhead : ∀ c ∈ (gap ++ writeAll items).head?, Cursor.isBlank c = true := by
        intro c hc
        cases gap with
        | nil => rw [hnone rfl] at hc; cases hc
        | cons d gap =>
            cases hc
            exact hgap _ List.mem_cons_self
      have hline : token.EndsWithLine →
          gap ++ writeAll items = [] ∨ (gap ++ writeAll items).head? = some '\n' := by
        intro hends
        rcases hcloses hends with hempty | hnewline
        · exact .inl (hnone hempty)
        · obtain ⟨tail, rfl⟩ := List.head?_eq_some_iff.1 hnewline
          exact .inr rfl
      have hspells := spells_of_proper hproper.1 hhead hline
      obtain ⟨c, tail, hlexeme, hblank, -⟩ := Lexeme.scan_of_spells hspells
      rw [htext, List.map_cons, List.cons_append]
      refine .token ⟨hblanks, ?_⟩ (by simp [hlexeme]) hspells (ih hproper.2 gap hgap)
      intro c' hc'
      rw [hlexeme] at hc'
      cases hc'
      exact hblank

theorem exists_of_spells {kind : Kind} {text lexeme rest : List Char}
    (h : Spells kind text lexeme rest) :
    ∃ token : Inscription, token.Proper ∧ token.reading = (kind, .ofList text) := by
  cases h with
  | verbatim h => exact ⟨.verbatim kind text, ⟨rest, h⟩, rfl⟩
  | lineComment htext hend => exact ⟨.lineComment text, htext, rfl⟩
  | blockComment htext => exact ⟨.blockComment text, htext, rfl⟩
  | @string quote raw value _ hquote hvalue =>
      refine ⟨.string quote (text.map (·, true)), hquote, ?_⟩
      simp [reading, Function.comp_def]

end Inscription

open Inscription

/--
Every token of a text but the end mark can be written down.  Tokens that are written down in any
way, with blanks between them that start with a line feed behind each line comment, make a text
that is read to its end and gives these tokens.
-/
theorem written_tokens_read_back (origin : Origin) :
    (∀ (source : String) (token : Token), token ∈ (tokenize source origin).tokens →
      token.kind ≠ .eof → ∃ written : Inscription, written.Proper ∧
        written.reading = token.reading) ∧
    ∀ (blanks : List Char) (items : List (Inscription × List Char)),
      (∀ c ∈ blanks, Cursor.isBlank c = true) → (∀ item ∈ items, item.1.Proper) →
      Apart (·.head? = some '\n') items →
      let found := tokenize (.ofList (blanks ++ writeAll items)) origin
      found.complete = true ∧
        found.tokens.map Token.reading =
          items.map (fun item => item.1.reading) ++ [(.eof, "")] := by
  constructor
  · intro source token htoken hkind
    obtain ⟨pre, -, lexeme, rest, -, hwritten⟩ :=
      (Tokenization.ofCursor_places (Cursor.hasRead_ofText source)).1 token htoken
    cases hwritten with
    | mark hmark => contradiction
    | lexeme hsome hspells =>
        obtain ⟨written, hproper, hreading⟩ := exists_of_spells hspells
        exact ⟨written, hproper, by rw [hreading, String.ofList_toList, Token.reading]⟩
  · intro blanks items hblanks hproper hapart found
    have htiles := tiles_writeAll hproper hapart blanks hblanks
    obtain ⟨hfault, htokens⟩ : found.fault? = none ∧ found.tokens.map Token.reading = _ :=
      Tokenization.ofCursor_of_tiles htiles (.ofText _) String.toList_ofList
    exact ⟨Option.isNone_iff_eq_none.2 hfault, htokens⟩

/-- A comment that looks like the end of one, a string of everything that has an escape between
quotes that it holds too, a letter that starts nothing, and a comment that looks like the start of
one. -/
theorem written_tokens_read_back_hard :
    let chars := ['\'', '"', '\\', '\n'].map (·, true)
    let items : List (Inscription × List Char) :=
      [(.lineComment ['*', '/'], ['\n', ' ']), (.string '\'' chars, ['\r']),
        (.verbatim .illegal ['é'], ['\t']), (.blockComment ['/', '*'], [])]
    let found := tokenize (.ofList ([] ++ writeAll items)) ⟨"main", "."⟩
    (∀ item ∈ items, item.1.Proper) ∧ Apart (·.head? = some '\n') items ∧
      found.complete = true ∧ found.tokens.map Token.reading =
        [(.comment, "*/"), (.string, "'\"\\\n"), (.illegal, "é"), (.comment, "/*"),
          (.eof, "")] := by
  intro chars items found
  have hillegal : (Inscription.verbatim .illegal ['é']).Proper := by
    refine ⟨[], .illegal ?_ rfl⟩
    unfold Starts
    decide
  have hproper : ∀ item ∈ items, item.1.Proper := by
    simp only [items, List.forall_mem_cons]
    have hline : '\n' ∉ ['*', '/'] := by decide
    have hblock : ¬['*', '/'] <:+: ['/', '*'] := by decide
    exact ⟨hline, .inr rfl, hillegal, hblock, by simp⟩
  have hapart : Apart (·.head? = some '\n') items := by
    refine .cons (by simp [Cursor.isBlank]) (by simp) (fun _ => .inr rfl) ?_
    refine .cons (by simp [Cursor.isBlank]) (by simp) False.elim ?_
    refine .cons (by simp [Cursor.isBlank]) (by simp) False.elim ?_
    exact .cons (by simp) (by simp) False.elim .nil
  have hread := (written_tokens_read_back ⟨"main", "."⟩).2 [] items (by simp) hproper hapart
  exact ⟨hproper, hapart, hread⟩

/-- If a line feed only has to be among the blanks behind a line comment, a blank in front of it
becomes part of the comment. -/
theorem line_comment_takes_blanks :
    let items : List (Inscription × List Char) :=
      [(.lineComment ['a'], [' ', '\n']), (.verbatim .ident ['b'], [])]
    let found := tokenize (.ofList (writeAll items)) ⟨"main", "."⟩
    (∀ item ∈ items, item.1.Proper) ∧ Apart ('\n' ∈ ·) items ∧
      found.tokens.map Token.reading = [(.comment, "a "), (.ident, "b"), (.eof, "")] ∧
      found.tokens.map Token.reading ≠
        items.map (fun item => item.1.reading) ++ [(.eof, "")] := by
  intro items found
  have hname : (Inscription.verbatim .ident ['b']).Proper := by
    have hword : Word ['b'] [] := ⟨⟨'b', rfl, by decide⟩, by simp; decide, by simp⟩
    exact ⟨[], .ident hword (by decide) (by decide)⟩
  have hline : '\n' ∉ ['a'] := by decide
  have hfound : tokenize "//a \nb" ⟨"main", "."⟩ =
      ⟨[⟨.comment, "a ", ⟨1, 1⟩, ⟨"main", "."⟩⟩, ⟨.ident, "b", ⟨2, 1⟩, ⟨"main", "."⟩⟩,
        ⟨.eof, "", ⟨2, 2⟩, ⟨"main", "."⟩⟩], none⟩ := by decide +kernel
  have hread : found.tokens.map Token.reading =
      [(.comment, "a "), (.ident, "b"), (.eof, "")] := by
    change (tokenize "//a \nb" ⟨"main", "."⟩).tokens.map Token.reading = _
    rw [hfound]
    rfl
  refine ⟨?_, ?_, hread, ?_⟩
  · simp only [items, List.forall_mem_cons]
    exact ⟨hline, hname, by simp⟩
  · refine .cons (by simp [Cursor.isBlank]) (by simp) (fun _ => .inr (by simp)) ?_
    exact .cons (by simp) (by simp) False.elim .nil
  · rw [hread]
    decide

end Pidgin
