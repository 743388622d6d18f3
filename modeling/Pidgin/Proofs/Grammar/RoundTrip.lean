import Pidgin.Frontend
import Pidgin.Proofs.Grammar.Parentheses
import Pidgin.Proofs.Grammar.Written
import Pidgin.Proofs.Token.Place

/-!
# Programs and their texts

The trees that a source text can have are the well-formed ones.  Each of them, if
it holds no float, is the tree of the text that is written for it, and this text
has no parentheses to spare.
-/

namespace Pidgin

open Grammar

/-! ## From text to tree -/

theorem Tokenization.spelled {origin : Origin} {source : String} {token : Token}
    (h : token ∈ (tokenize source origin).tokens) (hkind : token.kind ≠ .eof) : token.Spelled := by
  obtain ⟨pre, -, lexeme, rest, -, hwritten⟩ :=
    (ofCursor_places (Cursor.hasRead_ofText source)).1 token h
  cases hwritten with
  | mark hmark => contradiction
  | lexeme hsome hspells => exact ⟨lexeme, rest, hspells⟩

theorem wellFormed_of_parse {source file : String} {origin : Origin} {limit : Nat}
    {program : Program} (h : parse (tokenize source origin).tokens file limit = .ok program) :
    program.WellFormed := by
  refine (phrases_of_parse h).proper fun token htoken => ?_
  have hwords := List.mem_takeWhile_imp htoken
  have htokens := List.mem_of_mem_filter (List.takeWhile_subset _ htoken)
  exact Tokenization.spelled htokens (by simpa using hwords)

theorem wellFormed_of_parseSource {source file : String} {program : Program}
    (h : parseSource source file = .ok program) : program.WellFormed := by
  unfold parseSource at h
  dsimp only at h
  split at h
  · cases h
  · exact wellFormed_of_parse h

/-! ## From tree to text -/

theorem Grammar.words_concat_eof {w : List Token} {last : Token} (h : Plain w)
    (hlast : last.kind = .eof) : words (w ++ [last]) = w := by
  rw [words_append [last] h]
  simp [words, hlast]

theorem tokenize_write {program : Program} (h : program.WellFormed) (hfloat : program.FloatFree)
    (origin : Origin) : ∃ w last, tokenize program.write origin = ⟨w ++ [last], none⟩ ∧
      w.map Token.reading = program.readings ∧ last.kind = .eof := by
  have htiles : Spelling.Tiles program.write.toList (program.readings ++ [(Kind.eof, "")]) := by
    rw [Program.write, String.toList_ofList]
    exact tiles_textOf (Stmt.legible_all _ h hfloat) [] (by simp)
  obtain ⟨hfault, htokens⟩ : (tokenize program.write origin).fault? = none ∧
      (tokenize program.write origin).tokens.map Token.reading =
        program.readings ++ [(Kind.eof, "")] :=
    Tokenization.ofCursor_of_tiles htiles (.ofText program.write) rfl
  obtain ⟨w, tail, heq, hw, htail⟩ := List.map_eq_append_iff.1 htokens
  obtain ⟨last, rfl, hlast⟩ := List.map_eq_singleton_iff.1 htail
  exact ⟨w, last, by rw [← heq, ← hfault], hw, (Token.reading_eq hlast).1⟩

theorem exists_phrases_of_write {program : Program} (h : program.WellFormed)
    (hfloat : program.FloatFree) (origin : Origin) :
    (tokenize program.write origin).complete = true ∧
    (words (tokenize program.write origin).tokens).map Token.reading = program.readings ∧
      ∃ q : Program, Declarations (words (tokenize program.write origin).tokens) [] q.statements ∧
        q.erase = program.erase := by
  obtain ⟨w, last, hwritten, hw, hlast⟩ := tokenize_write h hfloat origin
  have hend : nextKind [] ≠ .naso := by decide
  obtain ⟨ss, hphrases, hsame⟩ := Stmt.derives_all _ h hfloat hw hend
  have hwords : words (w ++ [last]) = w := words_concat_eof hphrases.plain hlast
  rw [hwritten, hwords]
  exact ⟨rfl, hw, ⟨ss⟩, hphrases, congrArg Program.mk hsame⟩

/--
Every program that is read from a source text is well-formed.  A well-formed program without
floats is written as a text that is read to its end, whose parse gives the program back up to
positions for every limit from some point on; and no accepted tokens give it back with fewer
parentheses.
-/
theorem written_program_reads_back (file : String) :
    (∀ (source : String) (program : Program),
      parseSource source file = .ok program → program.WellFormed) ∧
    ∀ program : Program, program.WellFormed → program.FloatFree →
      let written := tokenize program.write ⟨file, "."⟩
      written.complete = true ∧
      (∃ bound q, q.erase = program.erase ∧
        ∀ limit, bound ≤ limit → parse written.tokens file limit = .ok q) ∧
      ∀ (tokens : List Token) (limit : Nat) (q : Program), parse tokens file limit = .ok q →
        q.erase = program.erase → lparens (words written.tokens) ≤ lparens (words tokens) := by
  refine ⟨fun source program => wellFormed_of_parseSource, ?_⟩
  intro program h hfloat written
  obtain ⟨hcomplete, hreadings, q, hphrases, hsame⟩ :=
    exists_phrases_of_write h hfloat ⟨file, "."⟩
  refine ⟨hcomplete, ?_, ?_⟩
  · obtain ⟨bound, -, hfrom, -⟩ := parse_of_phrases hphrases file
    exact ⟨bound, q, hsame, hfrom⟩
  · intro tokens limit q' hparse hsame'
    have hequal : program.readings = q'.readings := by
      rw [← program.readings_erase, ← hsame', q'.readings_erase]
    calc lparens (words written.tokens) = openings program.readings := by
          rw [← hreadings, openings_map]
      _ = openings q'.readings := by rw [hequal]
      _ ≤ lparens (words tokens) := (phrases_of_parse hparse).openings_le

/-- A difference on the right side of another one keeps its parentheses. -/
theorem written_program_reads_back_difference :
    let source := "(a - (b - \"\\'\"));"
    ∃ program, parseSource source "main" = .ok program ∧ program.WellFormed ∧ program.FloatFree ∧
      program.write = "a - ( b - \"\\'\" ) ; " ∧
      ∃ bound q, q.erase = program.erase ∧ ∀ limit, bound ≤ limit →
        parse (tokenize program.write ⟨"main", "."⟩).tokens "main" limit = .ok q := by
  intro source
  let origin : Origin := ⟨"main", "."⟩
  let program : Program :=
    ⟨[.expr (.binary .minus (.var "a" ⟨1, 2⟩) (.binary .minus (.var "b" ⟨1, 7⟩)
      (.literal (.string "'") ⟨1, 11⟩) ⟨1, 9⟩) ⟨1, 4⟩) ⟨1, 1⟩]⟩
  have htokens : tokenize source origin =
      ⟨[⟨.lparen, "(", ⟨1, 1⟩, origin⟩, ⟨.ident, "a", ⟨1, 2⟩, origin⟩,
        ⟨.minus, "-", ⟨1, 4⟩, origin⟩, ⟨.lparen, "(", ⟨1, 6⟩, origin⟩,
        ⟨.ident, "b", ⟨1, 7⟩, origin⟩, ⟨.minus, "-", ⟨1, 9⟩, origin⟩,
        ⟨.string, "'", ⟨1, 11⟩, origin⟩, ⟨.rparen, ")", ⟨1, 15⟩, origin⟩,
        ⟨.rparen, ")", ⟨1, 16⟩, origin⟩, ⟨.semicolon, ";", ⟨1, 17⟩, origin⟩,
        ⟨.eof, "", ⟨1, 18⟩, origin⟩], none⟩ := by decide +kernel
  have hparse : parseSource source "main" = .ok program := by
    rw [parseSource, htokens]
    rfl
  have hfloat : program.FloatFree := by
    simp [program, Program.FloatFree, Stmt.EveryOf, Stmt.Every, Expr.Every, Expr.NotFloat]
  obtain ⟨hwellFormed, hreads⟩ := written_program_reads_back "main"
  have hproper := hwellFormed source program hparse
  exact ⟨program, hparse, hproper, hfloat, by decide, (hreads program hproper hfloat).2.1⟩

end Pidgin
