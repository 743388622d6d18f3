import Pidgin.Proofs.Token.Tiling

/-!
# What stands behind a token

Of the text behind a lexeme only the first two characters matter, and a blank
never prolongs the lexeme.  So a token stays what it is if the text behind it is
cut off somewhere, or if the text ended there and now goes on in a new line.
-/

namespace Pidgin

open Spelling

namespace Spelling

variable {kind : Kind} {text lexeme rest other more : List Char}

/-- Where `other` starts otherwise than `rest` does, it starts with a blank, and so behind a
leading point. -/
structure Bars (rest other : List Char) : Prop where
  head : ∀ c ∈ other.head?, Cursor.isBlank c = true ∨ c ∈ rest.head?
  point : ∀ d more, other = '.' :: d :: more →
    Cursor.isBlank d = true ∨ ∃ more, rest = '.' :: d :: more

theorem bars_blanks (rest : List Char) (h : ∀ c ∈ other.head?, Cursor.isBlank c = true) :
    Bars rest other := by
  refine ⟨fun c hc => .inl (h c hc), ?_⟩
  rintro d more rfl
  exact absurd (h '.' rfl) (by decide)

theorem bars_cut (rest more : List Char) : Bars (rest ++ more) rest := by
  constructor
  · intro c hc
    obtain ⟨tail, rfl⟩ := List.head?_eq_some_iff.1 hc
    exact .inr rfl
  · rintro d tail rfl
    exact .inr ⟨tail ++ more, rfl⟩

theorem bars_newline (rest more : List Char) : Bars rest (rest ++ '\n' :: more) := by
  constructor
  · intro c hc
    cases rest with
    | nil =>
        cases hc
        exact .inl rfl
    | cons d rest => exact .inr hc
  · intro d tail h
    match rest, h with
    | [c], h =>
        cases h
        exact .inl rfl
    | c :: d' :: rest, h =>
        cases h
        exact .inr ⟨rest, rfl⟩

theorem isDigit_of_isBlank {c : Char} (h : Cursor.isBlank c = true) : c.isDigit = false := by
  cases hdigit : c.isDigit with
  | false => rfl
  | true =>
      rw [Lexeme.not_blank_of_starts (.inr (.inl hdigit))] at h
      cases h

theorem isWordPart_of_isBlank {c : Char} (h : Cursor.isBlank c = true) : isWordPart c = false := by
  simp only [Cursor.isBlank, Bool.or_eq_true, decide_eq_true_eq] at h
  rcases h with ((rfl | rfl) | rfl) | rfl <;> decide

theorem Maximal.bars {belongs : Char → Bool} {run : List Char} (h : Maximal belongs run rest)
    (hbars : Bars rest other) (hblank : ∀ {c}, Cursor.isBlank c = true → belongs c = false) :
    Maximal belongs run other := by
  refine ⟨h.inside, fun c hc => ?_⟩
  rcases hbars.head c hc with hc | hc
  · exact hblank hc
  · exact h.stops c hc

theorem Word.bars {letters : List Char} (h : Word letters rest) (hbars : Bars rest other) :
    Word letters other :=
  ⟨h.starts, h.maximal.bars hbars isWordPart_of_isBlank⟩

theorem Bars.head?_ne (hbars : Bars rest other) {c : Char} (hblank : Cursor.isBlank c = false)
    (h : rest.head? ≠ some c) : other.head? ≠ some c := by
  intro hc
  rcases hbars.head c hc with hc | hc
  · simp [hblank] at hc
  · exact h hc

theorem Verbatim.bars (h : Verbatim kind lexeme rest) (hbars : Bars rest other) :
    Verbatim kind lexeme other := by
  cases h with
  | mark hmark => exact .mark hmark
  | alone hpair hnext => exact .alone hpair (hbars.head?_ne rfl hnext)
  | paired hpair => exact .paired hpair
  | slash hline hblock =>
      exact .slash (hbars.head?_ne rfl hline) (hbars.head?_ne rfl hblock)
  | integer hsome hdigits hpoint =>
      refine .integer hsome (hdigits.bars hbars isDigit_of_isBlank) fun d more h => ?_
      rcases hbars.point d more h with hd | ⟨more, hrest⟩
      · exact isDigit_of_isBlank hd
      · exact hpoint d more hrest
  | float hwhole hdigits hfraction hmaximal =>
      exact .float hwhole hdigits hfraction (hmaximal.bars hbars isDigit_of_isBlank)
  | keyword hword hkeyword => exact .keyword (hword.bars hbars) hkeyword
  | typeName hword hkeyword htype => exact .typeName (hword.bars hbars) hkeyword htype
  | ident hword hkeyword htype => exact .ident (hword.bars hbars) hkeyword htype
  | illegal hstarts hblank => exact .illegal hstarts hblank

/-- A line comment takes blanks in, so behind it a new start has to be a line feed. -/
theorem Spells.bars (h : Spells kind text lexeme rest) (hbars : Bars rest other)
    (hline : ∀ c ∈ other.head?, c = '\n' ∨ c ∈ rest.head?) : Spells kind text lexeme other := by
  cases h with
  | verbatim h => exact .verbatim (h.bars hbars)
  | lineComment htext hend =>
      refine .lineComment htext ?_
      cases other with
      | nil => exact .inl rfl
      | cons c other =>
          right
          rcases hline c rfl with rfl | hc
          · rfl
          · rcases hend with rfl | hnewline
            · cases hc
            · exact hc.symm.trans hnewline
  | blockComment htext => exact .blockComment htext
  | string hquote hvalue => exact .string hquote hvalue

theorem Spells.cut (h : Spells kind text lexeme (rest ++ more)) : Spells kind text lexeme rest := by
  refine h.bars (bars_cut rest more) fun c hc => .inr ?_
  obtain ⟨tail, rfl⟩ := List.head?_eq_some_iff.1 hc
  rfl

theorem Spells.line (h : Spells kind text lexeme rest) (more : List Char) :
    Spells kind text lexeme (rest ++ '\n' :: more) := by
  refine h.bars (bars_newline rest more) fun c hc => ?_
  cases rest with
  | nil =>
      cases hc
      exact .inl rfl
  | cons d rest => exact .inr hc

end Spelling

/-! ## The same token in front of another text -/

namespace Token

variable {origin : Origin} {cursor cursor' : Cursor} {token : Token}

theorem next_swap (h : Token.next origin cursor = (.ok token, cursor'))
    (hkind : token.kind ≠ .eof) :
    ∃ read, cursor.rest = read ++ cursor'.rest ∧ cursor'.pos = cursor.pos.afterAll read ∧
      ∀ other, (∀ {kind text lexeme}, Spells kind text lexeme cursor'.rest →
          Spells kind text lexeme other) →
        Token.next origin ⟨read ++ other, cursor.pos⟩ = (.ok token, ⟨other, cursor'.pos⟩) := by
  rcases next_cases h with ⟨hreading, -⟩ | ⟨blanks, lexeme, hrest, hblanks, hsome, hspells⟩
  · exact absurd (congrArg Prod.fst hreading) hkind
  have hnext := next_of_spells origin hrest hblanks hspells
  rw [h, Prod.mk.injEq, Except.ok.injEq] at hnext
  obtain ⟨htoken, hcursor⟩ := hnext
  have hpos : cursor'.pos = cursor.pos.afterAll (blanks ++ lexeme) := by rw [hcursor]
  refine ⟨blanks ++ lexeme, by rw [hrest, List.append_assoc], hpos, fun other hother => ?_⟩
  have hblanks' : Maximal Cursor.isBlank blanks (lexeme ++ other) := by
    obtain ⟨first, tail, rfl⟩ := List.exists_cons_of_ne_nil hsome
    exact ⟨hblanks.inside, hblanks.stops⟩
  rw [next_of_spells origin (List.append_assoc ..) hblanks' (hother hspells), ← htoken, hpos]

end Token

end Pidgin
