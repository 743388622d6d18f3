import Mathlib.Data.List.Nodup
import Pidgin.Proofs.Diagnostic.Caret
import Pidgin.Proofs.Grammar.RoundTrip
import Pidgin.Proofs.Parse.Sequence

/-!
# What diagnostics say

A diagnostic of the parser names the token that it was raised at, and what it
says of this token is so.  A number is malformed only if it is an integer out of
range: the digits that spell a token are otherwise always read.

Faults in the text and errors of the parser are never reported together.
-/

namespace Pidgin

open Spelling

/-! ## Numbers that are read -/

namespace Numeral

theorem readInt?_eq_none_iff {text : String} (hsome : text.toList ≠ [])
    (hdigits : ∀ c ∈ text.toList, c.isDigit = true) :
    readInt? text = none ↔ 2 ^ 63 ≤ Nat.ofDigitChars 10 text.toList 0 := by
  have hvalue : value text.toList = Nat.ofDigitChars 10 text.toList 0 := rfl
  rw [readInt?_digits hsome hdigits, hvalue, ite_eq_right_iff]
  simp only [reduceCtorEq, imp_false]
  omega

theorem readDecimal?_point {whole fraction : List Char} (hsome : whole ≠ [])
    (hwhole : ∀ c ∈ whole, c.isDigit = true) (hfraction : ∀ c ∈ fraction, c.isDigit = true)
    (negative : Bool) :
    readDecimal? negative (whole ++ '.' :: fraction) =
      some (.ofDecimal negative (value (whole ++ fraction)) (-fraction.length)) := by
  have hpoint : Maximal Char.isDigit whole ('.' :: fraction) := ⟨hwhole, by simp⟩
  have hend : Maximal Char.isDigit fraction [] := ⟨hfraction, by simp⟩
  have htake := hend.takeWhile_eq
  have hdrop := hend.dropWhile_eq
  rw [List.append_nil] at htake hdrop
  simp [readDecimal?, hpoint.takeWhile_eq, hpoint.dropWhile_eq, htake, hdrop, hsome,
    readExponent?]

theorem exists_readFloat? {text : String} {whole fraction : List Char}
    (htext : text.toList = whole ++ '.' :: fraction) (hsome : whole ≠ [])
    (hwhole : ∀ c ∈ whole, c.isDigit = true) (hfraction : ∀ c ∈ fraction, c.isDigit = true) :
    ∃ x, readFloat? text = some x := by
  have hsign : splitSign text.toList = (false, text.toList) := by
    refine splitSign_of_head fun c hc => hwhole c ?_
    rw [htext, List.head?_append_of_ne_nil _ hsome] at hc
    exact List.mem_of_mem_head? hc
  simp only [readFloat?, hsign]
  split
  · exact ⟨_, rfl⟩
  split
  · exact ⟨_, rfl⟩
  rw [htext]
  exact ⟨_, readDecimal?_point hsome hwhole hfraction _⟩

end Numeral

theorem Spelling.point_of_spells {text lexeme rest : List Char}
    (h : Spells .float text lexeme rest) : ∃ whole fraction, text = whole ++ '.' :: fraction ∧
      whole ≠ [] ∧ (∀ c ∈ whole, c.isDigit = true) ∧ ∀ c ∈ fraction, c.isDigit = true := by
  cases h with
  | verbatim h =>
      cases h with
      | float hwhole hdigits hfraction hmaximal =>
          exact ⟨_, _, rfl, hwhole, hdigits, hmaximal.inside⟩
      | mark hmark => simp [marks] at hmark
      | alone hpair => simp [pairable] at hpair
      | paired hpair => simp [pairable] at hpair
      | keyword hword hkeyword => simp [keywords] at hkeyword

namespace Token.Spelled

variable {token : Token}

theorem exceeds (h : token.Spelled) (hkind : token.kind = .integer)
    (hread : Numeral.readInt? token.text = none) :
    (∀ c ∈ token.text.toList, c.isDigit = true) ∧
      2 ^ 63 ≤ Nat.ofDigitChars 10 token.text.toList 0 := by
  obtain ⟨hsome, hdigits⟩ := h.digits hkind
  exact ⟨hdigits, (Numeral.readInt?_eq_none_iff hsome hdigits).1 hread⟩

theorem exists_float (h : token.Spelled) (hkind : token.kind = .float) :
    ∃ x, Numeral.readFloat? token.text = some x := by
  obtain ⟨lexeme, rest, hspells⟩ := h
  rw [hkind] at hspells
  obtain ⟨whole, fraction, htext, hsome, hwhole, hfraction⟩ := point_of_spells hspells
  exact Numeral.exists_readFloat? htext hsome hwhole hfraction

end Token.Spelled

/-! ## What a cause says of a token -/

namespace Cause

/-- What a report with this cause says of the token that it was raised at. -/
def Tells (limit : Nat) (token : Token) : Cause → Prop
  | invalidChar text => token.kind = .illegal ∧ token.text = text
  | expectedExpression found =>
      token.kind ≠ .illegal ∧ (Rule.ofKind token.kind).opening? = none ∧ found = token.describe
  | unexpectedToken found _ => token.kind ≠ .illegal ∧ found = token.describe
  | invalidTarget => token.kind = .assign
  | malformedNumber text =>
      token.kind = .integer ∧ token.text = text ∧ (∀ c ∈ text.toList, c.isDigit = true) ∧
        2 ^ 63 ≤ Nat.ofDigitChars 10 text.toList 0
  | tooDeep bound => bound = limit
  | unterminatedString | invalidEscape _ | unterminatedComment => False

variable {limit : Nat} {token : Token} {cause : Cause}

theorem Tells.of_illegal (h : cause.Tells limit token) (hkind : token.kind = .illegal) :
    cause = .invalidChar token.text ∨ cause = .tooDeep limit := by
  cases cause with
  | invalidChar text => exact .inl (congrArg _ h.2.symm)
  | tooDeep bound => exact .inr (congrArg _ h)
  | expectedExpression found => exact absurd hkind h.1
  | unexpectedToken found expectation => exact absurd hkind h.1
  | invalidTarget => cases hkind.symm.trans h
  | malformedNumber text => cases hkind.symm.trans h.1
  | unterminatedString => cases h
  | invalidEscape sequence => cases h
  | unterminatedComment => cases h

end Cause

/-! ## What is reported -/

theorem Parser.diagnose_of_ne_illegal (parser : Parser) {token : Token} (cause : Cause)
    (h : token.kind ≠ .illegal) :
    parser.diagnose token cause = ⟨cause, token.pos, parser.file⟩ := by
  unfold diagnose
  split
  · contradiction
  · contradiction
  · rfl

theorem Diagnostic.tells_diagnose {parser : Parser} {limit : Nat} {token : Token} {cause : Cause}
    (h : cause.TrueOf limit token) (hspelled : token.kind ≠ .eof → token.Spelled) :
    (parser.diagnose token cause).cause.Tells limit token := by
  cases h with
  | expectedExpression hrule =>
      by_cases hkind : token.kind = .illegal
      · simp [Parser.diagnose, hkind, Cause.Tells]
      · rw [parser.diagnose_of_ne_illegal _ hkind]
        exact ⟨hkind, hrule, rfl⟩
  | unexpectedToken expectation =>
      by_cases hkind : token.kind = .illegal
      · simp [Parser.diagnose, hkind, Cause.Tells]
      · rw [parser.diagnose_of_ne_illegal _ hkind]
        exact ⟨hkind, rfl⟩
  | invalidTarget hkind =>
      rw [parser.diagnose_of_ne_illegal _ (by simp [hkind])]
      exact hkind
  | malformedInteger hkind hread =>
      rw [parser.diagnose_of_ne_illegal _ (by simp [hkind])]
      exact ⟨hkind, rfl, (hspelled (by simp [hkind])).exceeds hkind hread⟩
  | malformedFloat hkind hread =>
      obtain ⟨x, hx⟩ := (hspelled (by simp [hkind])).exists_float hkind
      cases hread.symm.trans hx
  | tooDeep =>
      by_cases hkind : token.kind = .illegal
      · simp [Parser.diagnose, hkind, Cause.Tells]
      · rw [parser.diagnose_of_ne_illegal _ hkind]
        rfl

section

variable {source file : String} {limit : Nat}

theorem parseSource_of_fault {fault : Diagnostic}
    (h : (tokenize source ⟨file, "."⟩).fault? = some fault) :
    parseSource source file = .error [fault] := by
  simp [parseSource, h]

theorem parseSource_of_read (h : (tokenize source ⟨file, "."⟩).fault? = none) :
    parseSource source file = parse (tokenize source ⟨file, "."⟩).tokens file 512 := by
  simp [parseSource, h, defaultLimit]

theorem reported_parse (tokens : List Token) (file : String) (limit : Nat) :
    reported (parse tokens file limit) = (Parser.ofTokens tokens file limit).run.2.errors := by
  rw [parse_eq_run]
  split
  · rename_i hnone
    exact hnone.symm
  · rfl

theorem exists_program_iff (source file : String) :
    (∃ program, parseSource source file = .ok program) ↔
      reported (parseSource source file) = [] := by
  cases hfault : (tokenize source ⟨file, "."⟩).fault? with
  | some fault => simp [parseSource_of_fault hfault, reported]
  | none =>
      rw [parseSource_of_read hfault, reported_parse, parse_eq_run]
      split
      · rename_i hnone
        simp [hnone]
      · rename_i hsome
        simp [hsome]

theorem Spelling.Breaks.isLexical {cause : Cause} {read rest : List Char}
    (h : Breaks cause read rest) : cause.isLexical = true := by
  cases h <;> rfl

theorem Tokenization.eq_of_pos_eq {origin : Origin} {source : String} {token other : Token}
    (h : token ∈ (tokenize source origin).tokens) (h' : other ∈ (tokenize source origin).tokens)
    (hpos : other.pos = token.pos) : other = token := by
  have hsorted : (tokenize source origin).tokens.Pairwise (·.pos < ·.pos) :=
    (ofCursor_places (Cursor.hasRead_ofText source)).2
  have hdistinct : ((tokenize source origin).tokens.map Token.pos).Nodup := by
    refine List.pairwise_map.2 (hsorted.imp fun hlt heq => ?_)
    rw [heq, Position.lt_iff] at hlt
    omega
  exact List.inj_on_of_nodup_map hdistinct h' h hpos

theorem exists_token_of_reported {d : Diagnostic}
    (hfault : (tokenize source ⟨file, "."⟩).fault? = none)
    (hd : d ∈ reported (parse (tokenize source ⟨file, "."⟩).tokens file limit)) :
    let stream := tokenize source ⟨file, "."⟩
    let parser := Parser.ofTokens stream.tokens file limit
    d.isLexical = false ∧ ∃ index, ∃ token ∈ stream.tokens,
      parser.tokenAt? index = some token ∧ parser.RaisedAt index d ∧ d.pos = token.pos ∧
      d.cause.Tells limit token := by
  intro stream parser
  cases hparse : parse stream.tokens file limit with
  | ok program =>
      rw [hparse] at hd
      cases hd
  | error errors =>
      rw [hparse] at hd
      obtain ⟨index, token, cause, hseen, htrue, rfl⟩ := exists_true_of_parse hparse d hd
      have hmem := Parser.mem_of_tokenAt? (Tokenization.exists_eof hfault) hseen
      have htells : (parser.diagnose token cause).cause.Tells limit token :=
        Diagnostic.tells_diagnose htrue (Tokenization.spelled hmem)
      exact ⟨Diagnostic.isLexical_diagnose htrue, index, token, hmem, hseen,
        Parser.raisedAt_diagnose hseen cause, rfl, htells⟩

end

/--
A source text has no program if and only if something is reported about it.  If the text
breaks off, its fault is all that is reported.  If it is read to its end, what the parser
recorded is reported, and each report was raised at a token, the only one at its place, of
which it tells the truth.
-/
theorem reports_tell_truth (source file : String) :
    let stream := tokenize source ⟨file, "."⟩
    let result := parseSource source file
    let parser := Parser.ofTokens stream.tokens file 512
    ((∀ program, result ≠ .ok program) ↔ reported result ≠ []) ∧
    (stream.complete = false → ∃ fault, stream.fault? = some fault ∧
      reported result = [fault] ∧ fault.isLexical = true) ∧
    (stream.complete = true → reported result = parser.run.2.errors ∧
      ∀ d ∈ reported result, d.isLexical = false ∧ ∃ index, ∃ token ∈ stream.tokens,
        parser.tokenAt? index = some token ∧ parser.RaisedAt index d ∧
        (∀ other ∈ stream.tokens, other.pos = d.pos ↔ other = token) ∧
        d.cause.Tells 512 token ∧
        (token.kind = .illegal →
          d.cause = .invalidChar token.text ∨ d.cause = .tooDeep 512)) := by
  intro stream result parser
  refine ⟨?_, ?_, ?_⟩
  · rw [ne_eq, ← exists_program_iff source file, not_exists]
  · intro hcomplete
    cases hfault : stream.fault? with
    | none => simp [Tokenization.complete, hfault] at hcomplete
    | some fault =>
        obtain ⟨before, read, rest, -, -, hbreaks⟩ :=
          Tokenization.fault_of_hasRead (Cursor.hasRead_ofText source) hfault
        have hresult : result = .error [fault] := parseSource_of_fault hfault
        exact ⟨fault, rfl, by rw [hresult, reported], hbreaks.isLexical⟩
  · intro hcomplete
    have hfault : stream.fault? = none := by simpa [Tokenization.complete] using hcomplete
    have hresult : result = parse stream.tokens file 512 := parseSource_of_read hfault
    rw [hresult]
    refine ⟨reported_parse .., ?_⟩
    intro d hd
    obtain ⟨hlexical, index, token, hmem, hseen, hraised, hpos, htells⟩ :=
      exists_token_of_reported hfault hd
    refine ⟨hlexical, index, token, hmem, hseen, hraised, ?_, htells, htells.of_illegal⟩
    intro other hother
    rw [hpos]
    exact ⟨Tokenization.eq_of_pos_eq hmem hother, congrArg Token.pos⟩

/-- An illegal character, a number out of range and a bad target, and a text that breaks off. -/
theorem reports_tell_truth_three :
    let source := "é; 9223372036854775808; 1 = 2;"
    let origin : Origin := ⟨"main", "."⟩
    (tokenize source origin).complete = true ∧
    reported (parseSource source "main") =
      [⟨.invalidChar "é", ⟨1, 1⟩, "main"⟩, ⟨.malformedNumber "9223372036854775808", ⟨1, 4⟩, "main"⟩,
        ⟨.invalidTarget, ⟨1, 27⟩, "main"⟩] ∧
    (∃ token ∈ (tokenize source origin).tokens, token.pos = ⟨1, 27⟩ ∧ token.kind = .assign) ∧
    (tokenize "'a" origin).complete = false ∧
      ∃ fault, reported (parseSource "'a" "main") = [fault] ∧ fault.isLexical = true := by
  intro source origin
  have htokens : tokenize source origin =
      ⟨[⟨.illegal, "é", ⟨1, 1⟩, origin⟩, ⟨.semicolon, ";", ⟨1, 2⟩, origin⟩,
        ⟨.integer, "9223372036854775808", ⟨1, 4⟩, origin⟩, ⟨.semicolon, ";", ⟨1, 23⟩, origin⟩,
        ⟨.integer, "1", ⟨1, 25⟩, origin⟩, ⟨.assign, "=", ⟨1, 27⟩, origin⟩,
        ⟨.integer, "2", ⟨1, 29⟩, origin⟩, ⟨.semicolon, ";", ⟨1, 30⟩, origin⟩,
        ⟨.eof, "", ⟨1, 31⟩, origin⟩], none⟩ := by decide +kernel
  have hcomplete : (tokenize source origin).complete = true := by
    rw [htokens]
    rfl
  have hreported : reported (parseSource source "main") =
      [⟨.invalidChar "é", ⟨1, 1⟩, "main"⟩, ⟨.malformedNumber "9223372036854775808", ⟨1, 4⟩, "main"⟩,
        ⟨.invalidTarget, ⟨1, 27⟩, "main"⟩] := by
    rw [parseSource, htokens]
    decide +kernel
  have hbroken : (tokenize "'a" origin).complete = false := by decide +kernel
  obtain ⟨fault, -, hfault⟩ := (reports_tell_truth "'a" "main").2.1 hbroken
  refine ⟨hcomplete, hreported, ?_, hbroken, fault, hfault⟩
  obtain ⟨-, index, token, hmem, -, -, halone, htells, -⟩ :=
    ((reports_tell_truth source "main").2.2 hcomplete).2 ⟨.invalidTarget, ⟨1, 27⟩, "main"⟩
      (by rw [hreported]; simp)
  exact ⟨token, hmem, (halone token hmem).2 rfl, htells⟩

end Pidgin
