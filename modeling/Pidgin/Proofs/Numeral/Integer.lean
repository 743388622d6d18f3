import Mathlib.Data.Nat.Digits.Defs
import Mathlib.Tactic.NormNum
import Pidgin.Proofs.Diagnostic.Truth

/-!
# Integer literals are exact

An integer literal has the value that its digits denote, whatever their number and
however many of them are leading zeros.  Digits of a larger number than sixty-three
bits hold are reported, and nothing else is.
-/

namespace Pidgin

open Grammar Parse Spelling

/-! ## Digits -/

namespace Numeral

def decimal (digits : List Char) : Nat :=
  Nat.ofDigits 10 (digits.reverse.map fun c => c.toNat - '0'.toNat)

theorem value_eq_decimal (digits : List Char) : value digits = decimal digits := by
  induction digits using List.reverseRecOn with
  | nil => rfl
  | append_singleton digits c ih =>
      rw [value, List.foldl_append, List.foldl_cons, List.foldl_nil]
      change 10 * value digits + _ = _
      rw [ih, decimal, decimal, List.reverse_append, List.reverse_singleton,
        List.singleton_append, List.map_cons, Nat.ofDigits_cons, Nat.add_comm]

theorem readInt?_of_digits {text : String} (hsome : text.toList ≠ [])
    (hdigits : ∀ c ∈ text.toList, c.isDigit = true) :
    readInt? text =
      if decimal text.toList ≤ 2 ^ 63 - 1 then some (decimal text.toList : Int) else none := by
  have hmax : 2 ^ 63 - 1 = 9223372036854775807 := by norm_num
  rw [readInt?_digits hsome hdigits, value_eq_decimal, hmax]

end Numeral

/-! ## A text of digits -/

theorem tokenize_digits {digits : String} (hsome : digits.toList ≠ [])
    (hdigits : ∀ c ∈ digits.toList, c.isDigit = true) (origin : Origin) :
    ∃ semicolon last, tokenize (digits ++ ";") origin =
        ⟨[⟨.integer, digits, .start, origin⟩, semicolon, last], none⟩ ∧
      semicolon.kind = .semicolon ∧ last.kind = .eof := by
  have hrest : (Cursor.ofText (digits ++ ";")).rest = [] ++ (digits.toList ++ [';']) := by
    simp [Cursor.ofText]
  have hblanks : Maximal Cursor.isBlank [] (digits.toList ++ [';']) := by
    refine ⟨by simp, fun c hc => ?_⟩
    rw [List.head?_append_of_ne_nil _ hsome] at hc
    exact Lexeme.not_blank_of_starts (.inr (.inl (hdigits c (List.mem_of_mem_head? hc))))
  have hinteger : Spells .integer digits.toList digits.toList [';'] :=
    .verbatim (.integer hsome ⟨hdigits, by simp⟩ (by simp))
  have hsemicolon : Tiles ([] ++ ([';'] ++ [])) [(.semicolon, ";"), (.eof, "")] :=
    .token ⟨by simp, by simp; decide⟩ (by simp) (.verbatim (.mark (by decide))) (.done (by simp))
  have hnext := Token.next_of_spells origin hrest hblanks hinteger
  obtain ⟨hfault, htokens⟩ :
      (Tokenization.ofCursor origin ⟨[';'], _⟩).fault? = none ∧
        (Tokenization.ofCursor origin ⟨[';'], _⟩).tokens.map Token.reading =
          [(Kind.semicolon, ";"), (Kind.eof, "")] :=
    Tokenization.ofCursor_of_tiles hsemicolon
      ⟨[';'], (Cursor.ofText (digits ++ ";")).pos.afterAll ([] ++ digits.toList)⟩ rfl
  obtain ⟨semicolon, more, htokens, hfirst, hmore⟩ := List.map_eq_cons_iff.1 htokens
  obtain ⟨last, rfl, hlast⟩ := List.map_eq_singleton_iff.1 hmore
  refine ⟨semicolon, last, ?_, (Token.reading_eq hfirst).1, (Token.reading_eq hlast).1⟩
  rw [tokenize, Tokenization.ofCursor_of_token hnext hinteger.kind_ne_eof, Tokenization.cons,
    htokens, hfault]
  rfl

/-! ## A statement of one integer -/

section

variable {token semicolon last : Token} (hkind : token.kind = .integer)
  (hsemicolon : semicolon.kind = .semicolon) (hlast : last.kind = .eof)

include hkind hsemicolon hlast

theorem words_integer : words [token, semicolon, last] = [token, semicolon] := by
  simp [words, hkind, hsemicolon, hlast]

theorem parse_integer {n : Int} (hread : Numeral.readInt? token.text = some n) (file : String)
    (limit : Nat) :
    parse [token, semicolon, last] file (limit + 1) =
      .ok ⟨[.expr (.literal (.int n) token.pos) token.pos]⟩ := by
  have hliteral : Expression .primary [token] (.literal (.int n) token.pos) :=
    .literal (.integer hkind hread)
  have hstatement : Statement [token, semicolon] []
      (.expr (.literal (.int n) token.pos) token.pos) :=
    .expr (hliteral.loosen (by decide)) hsemicolon
  have hphrases : Declarations (words [token, semicolon, last]) []
      [.expr (.literal (.int n) token.pos) token.pos] := by
    rw [words_integer hkind hsemicolon hlast]
    exact .cons (.statement hstatement) .nil
  refine parse_of_nest_le file hphrases ?_ ?_
  · rw [words_integer hkind hsemicolon hlast]
    simp [Ungrouped, lparens, hkind, hsemicolon, Program.parens, Stmt.parensAll, Stmt.parens,
      Expr.parens]
  · simp [Stmt.nestAll, Stmt.nest, Expr.nest, Expr.inner]

omit hsemicolon hlast in
theorem declaration_of_malformed (hread : Numeral.readInt? token.text = none) (room : Nat)
    {p : Parser} {rest : List Token} (hahead : p.ahead = token :: rest) :
    let d : Diagnostic := ⟨.malformedNumber token.text, token.pos, p.file⟩
    declaration (room + 1) p = .error d (p.shift.record d) := by
  intro d
  have hcurrent : p.current = token := Parser.current_of_ahead hahead
  have hliteral (operand : Power → Parse Expr) :
      opening operand token p.shift = .error d (p.shift.record d) := by
    have hform : (Rule.ofKind token.kind).opening? = some .literal := by rw [hkind]; rfl
    have hvalue : Literal.ofToken token = .error (.malformedNumber token.text) := by
      rw [Literal.ofToken, hkind]
      simp only [hread]
    simp only [opening, hform, literal, hvalue, fail_eq]
    rw [Parser.diagnose_of_ne_illegal _ _ (by rw [hkind]; decide), Parser.file_shift]
  have hvalue : value (room + 1) p = .error d (p.shift.record d) := by
    rw [value, expression, operation, bind_of_ok (show advance p = .ok token p.shift from ?_)]
    · exact bind_of_error (hliteral _)
    · rw [← hcurrent]
      rfl
  have hstatement : exprStmt (value (room + 1)) p = .error d (p.shift.record d) := by
    rw [exprStmt_eq]
    exact bind_of_error hvalue
  rw [declaration, declarationOf, hcurrent, hkind]
  dsimp only
  rw [statement_eq, statementOf, hcurrent, hkind]
  exact hstatement

theorem parse_malformed (hread : Numeral.readInt? token.text = none) (file : String)
    (limit : Nat) :
    parse [token, semicolon, last] file (limit + 1) =
      .error [⟨.malformedNumber token.text, token.pos, file⟩] := by
  let p := Parser.ofTokens [token, semicolon, last] file (limit + 1)
  let d : Diagnostic := ⟨.malformedNumber token.text, token.pos, file⟩
  have hahead : p.ahead = [token, semicolon] := words_integer hkind hsemicolon hlast
  have hturn : declaration (limit + 1) p = .error d (p.shift.record d) :=
    declaration_of_malformed hkind hread limit hahead
  have hshift : p.shift = { p with behind := [token], ahead := [semicolon] } := by
    simp only [Parser.shift, hahead]
    rfl
  -- The report mutes the parser until it has stepped over the semicolon, to the end.
  have hend : (p.shift.record d).recover.atEnd = true := by
    have hseek : Parser.seek [token] [semicolon] = ([semicolon, token], []) := by
      simp [Parser.seek, hkind, hsemicolon, Kind.startsDeclaration]
    rw [hshift]
    change (Parser.seek [token] [semicolon]).2.isEmpty = true
    rw [hseek]
    rfl
  have herrors : (p.shift.record d).recover.errors = [d] := by
    rw [Parser.errors_recover, hshift]
    rfl
  have hround : p.round (declaration p.limit) = (none, (p.shift.record d).recover) := by
    rw [Parser.round_eq, show p.limit = limit + 1 from rfl, hturn]
    rfl
  have hrun : p.run = ([], (p.shift.record d).recover) := by
    rw [Parser.run_of_goes (p := p) (Nat.succ_pos limit) (by simp [Parser.atEnd, hahead]), hround,
      Parser.run_of_atEnd hend]
    rfl
  rw [parse_eq_run, hrun, herrors]
  rfl

end

theorem parseSource_digits {digits : String} (hsome : digits.toList ≠ [])
    (hdigits : ∀ c ∈ digits.toList, c.isDigit = true) (file : String) :
    parseSource (digits ++ ";") file =
      if Numeral.decimal digits.toList ≤ 2 ^ 63 - 1 then
        .ok ⟨[.expr (.literal (.int (Numeral.decimal digits.toList)) ⟨1, 1⟩) ⟨1, 1⟩]⟩
      else .error [⟨.malformedNumber digits, ⟨1, 1⟩, file⟩] := by
  obtain ⟨semicolon, last, htokens, hsemicolon, hlast⟩ :=
    tokenize_digits hsome hdigits ⟨file, "."⟩
  have hread := Numeral.readInt?_of_digits hsome hdigits
  rw [parseSource_of_read (by rw [htokens]), htokens]
  split
  · rename_i hle
    rw [if_pos hle] at hread
    refine parse_integer ?_ hsemicolon hlast ?_ file 511
    · rfl
    · exact hread
  · rename_i hgt
    rw [if_neg hgt] at hread
    refine parse_malformed ?_ hsemicolon hlast ?_ file 511
    · rfl
    · exact hread

/-! ## Whole programs -/

/-- An integer literal has the value that the digits at its place denote: the one token there
consists of these, and the value is not negative and has at most sixty-three bits. -/
def Expr.Exact (tokens : List Token) : Expr → Prop
  | .literal (.int n) pos => ∃ token ∈ tokens, token.kind = .integer ∧
      (∀ other ∈ tokens, other.pos = pos ↔ other = token) ∧
      token.text.toList ≠ [] ∧ (∀ c ∈ token.text.toList, c.isDigit = true) ∧
      n = Numeral.decimal token.text.toList ∧ 0 ≤ n ∧ n ≤ 2 ^ 63 - 1
  | _ => True

section

variable {source : String} {origin : Origin}

theorem Token.exact_of_denotes {token : Token} {value : Literal}
    (h : token ∈ (tokenize source origin).tokens) (hvalue : Denotes token value) :
    (Expr.literal value token.pos).Exact (tokenize source origin).tokens := by
  cases hvalue with
  | float | string | litTrue | litFalse => trivial
  | @integer n hkind hread =>
      have hspelled : token.Spelled := Tokenization.spelled h (by rw [hkind]; decide)
      obtain ⟨hlow, hhigh⟩ := hspelled.range hkind hread
      obtain ⟨hsome, hdigits⟩ := hspelled.digits hkind
      have hexact : n = Numeral.decimal token.text.toList := by
        rw [Numeral.readInt?_of_digits hsome hdigits, Option.ite_none_right_eq_some] at hread
        exact (Option.some.inj hread.2).symm
      exact ⟨token, h, hkind,
        fun other hother => ⟨Tokenization.eq_of_pos_eq h hother, congrArg Token.pos⟩,
        hsome, hdigits, hexact, hlow, hhigh⟩

theorem exprRules_exact :
    ExprRules (· ∈ (tokenize source origin).tokens)
      (Expr.Exact (tokenize source origin).tokens) where
  literal htoken hvalue := Token.exact_of_denotes htoken hvalue
  var _ _ := trivial
  binary _ _ _ _ := trivial
  unary _ _ _ := trivial
  call _ _ _ := trivial
  index _ _ _ := trivial
  array _ _ := trivial
  assign _ _ _ := trivial

theorem stmtRules_true {T : Token → Prop} : StmtRules T fun _ => True := by
  constructor <;> intros <;> trivial

theorem exact_of_parse {file : String} {limit : Nat} {program : Program}
    (h : parse (tokenize source origin).tokens file limit = .ok program) :
    Stmt.EveryOf (Expr.Exact (tokenize source origin).tokens) (fun _ => True)
      program.statements :=
  (phrases_of_parse h).every exprRules_exact stmtRules_true fun _ htoken =>
    List.mem_of_mem_filter (List.takeWhile_subset _ htoken)

end

/--
Integer literals are exact.  Digits in front of a semicolon, any number of them, are the
statement of the number that they denote if sixty-three bits hold it, and else they are all that
is reported.  In each accepted program, an integer literal is the value of its token.
-/
theorem integers_exact (file : String) :
    (∀ (digits : String) (n : Nat), digits ≠ "" → (∀ c ∈ digits.toList, c.isDigit = true) →
      Numeral.decimal digits.toList = n →
      (n ≤ 2 ^ 63 - 1 → parseSource (digits ++ ";") file =
        .ok ⟨[.expr (.literal (.int n) ⟨1, 1⟩) ⟨1, 1⟩]⟩) ∧
      (2 ^ 63 - 1 < n → parseSource (digits ++ ";") file =
        .error [⟨.malformedNumber digits, ⟨1, 1⟩, file⟩])) ∧
    (∀ source program, parseSource source file = .ok program →
      Stmt.EveryOf (Expr.Exact (tokenize source ⟨file, "."⟩).tokens) (fun _ => True)
        program.statements) ∧
    ∀ source origin limit program,
      parse (tokenize source origin).tokens file limit = .ok program →
      Stmt.EveryOf (Expr.Exact (tokenize source origin).tokens) (fun _ => True)
        program.statements := by
  refine ⟨?_, ?_, ?_⟩
  · rintro digits n hsome hdigits rfl
    rw [parseSource_digits (by simpa using hsome) hdigits file]
    exact ⟨fun hle => if_pos hle, fun hgt => if_neg (Nat.not_le.2 hgt)⟩
  · intro source program h
    cases hfault : (tokenize source ⟨file, "."⟩).fault? with
    | some fault =>
        rw [parseSource_of_fault hfault] at h
        cases h
    | none => exact exact_of_parse (parseSource_of_read hfault ▸ h)
  · intro source origin limit program h
    exact exact_of_parse h

/-- The largest integer behind two zeros, the number after it, and a literal under a sign. -/
theorem integers_exact_bounds :
    let origin : Origin := ⟨"main", "."⟩
    let largest : Program := ⟨[.expr (.literal (.int 9223372036854775807) ⟨1, 1⟩) ⟨1, 1⟩]⟩
    let signed : Program :=
      ⟨[.expr (.unary .minus (.literal (.int 7) ⟨1, 2⟩) ⟨1, 1⟩) ⟨1, 1⟩]⟩
    let faithful (source : String) (program : Program) : Prop :=
      Stmt.EveryOf (Expr.Exact (tokenize source origin).tokens) (fun _ => True) program.statements
    parseSource ("009223372036854775807" ++ ";") "main" = .ok largest ∧
    faithful ("009223372036854775807" ++ ";") largest ∧
    parseSource ("9223372036854775808" ++ ";") "main" =
      .error [⟨.malformedNumber "9223372036854775808", ⟨1, 1⟩, "main"⟩] ∧
    parse (tokenize "-007;" origin).tokens "main" 8 = .ok signed ∧ faithful "-007;" signed := by
  intro origin largest signed faithful
  obtain ⟨hdigits, hsource, htokens⟩ := integers_exact "main"
  have hlargest : parseSource ("009223372036854775807" ++ ";") "main" = .ok largest :=
    (hdigits _ 9223372036854775807 (by decide) (by simp) (by decide)).1 (by decide)
  have hread : (tokenize "-007;" origin).tokens =
      [⟨.minus, "-", ⟨1, 1⟩, origin⟩, ⟨.integer, "007", ⟨1, 2⟩, origin⟩,
        ⟨.semicolon, ";", ⟨1, 5⟩, origin⟩, ⟨.eof, "", ⟨1, 6⟩, origin⟩] := by decide +kernel
  have hsigned : parse (tokenize "-007;" origin).tokens "main" 8 = .ok signed := by
    rw [hread]
    subst signed origin
    with_unfolding_all rfl
  exact ⟨hlargest, hsource _ _ hlargest,
    (hdigits _ 9223372036854775808 (by decide) (by simp) (by decide)).2 (by decide),
    hsigned, htokens _ _ _ _ hsigned⟩

end Pidgin
