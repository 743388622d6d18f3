import Pidgin.Proofs.Parse.Sequence

/-!
# What follows an accepted text is read on its own

Where a text is accepted, every statement in it has come to its end with a token
that belongs to it.  A conditional is the one statement that looks further, for
its other branch, and it looks at one token.  So any text can be put behind an
accepted one, unless it starts with the word that a conditional looks for.
-/

namespace Pidgin

open Grammar Parse

namespace Parser

variable {q next : Parser}

/-- Only a run without a report is relied on, and inside a statement only where it goes on. -/
theorem leading_accepted (hnaso : next.check .naso = false) :
    Leading next (fun _ => True) (fun q => q.mode = .normal ∧ q.ahead ≠ [])
      (fun q => q.mode = .normal) True where
  goes_on _ _ _ hlive := hlive.2
  live_of_drifts h hlive := ⟨h.normal_of_normal hlive.1, h.ahead_ne_nil hlive.2⟩
  clean_of_drifts h hclean := h.normal_of_normal hclean
  clean_of_live h := h.1
  live_of_clean h hgoes := by
    refine ⟨h, hgoes.resolve_right ?_⟩
    rw [h]
    nofun
  composite_of_fit _ _ _ := trivial
  ahead_of_live _ _ hlive := hlive.2
  naso _ := hnaso

theorem errors_run (q : Parser) : q.errors <+: q.run.2.errors :=
  errors_declarations (steady_declaration _) _ q

theorem round_of_accepted (hmode : q.mode = .normal) (hlimit : 1 ≤ q.limit)
    (hend : q.atEnd = false) (h : q.run.2.errors = q.errors) :
    ∃ s r, declaration q.limit q = .ok s r ∧ r.mode = .normal ∧ r.run.2.errors = r.errors := by
  rw [run_of_goes hlimit hend] at h
  dsimp only at h
  have hround : (q.round (declaration q.limit)).2.errors = q.errors := by
    refine ((errors_round (steady_declaration _) q).eq_of_length_le ?_).symm
    rw [← h]
    exact (errors_run _).length_le
  obtain ⟨s, r, hresult, hr⟩ := ok_of_errors (steady_declaration q.limit) hmode (by
    rwa [round_eq, errors_recover] at hround)
  have hnext : (q.round (declaration q.limit)).2 = r := by
    rw [round_eq, hresult]
    exact recover_of_normal hr
  rw [hnext] at h hround
  exact ⟨s, r, hresult, hr, h.trans hround.symm⟩

theorem run_of_accepted (hnaso : next.check .naso = false) (hmode : q.mode = .normal)
    (hlimit : 1 ≤ q.limit) (h : q.run.2.errors = q.errors) :
    (q.followedBy next).run =
      (q.run.1 ++ (q.run.2.followedBy next).run.1, (q.run.2.followedBy next).run.2) := by
  refine run_followedBy (fun q => q.mode = .normal ∧ q.run.2.errors = q.errors) hlimit
    ⟨hmode, h⟩ ?_
  rintro q ⟨hmode, h⟩ hlimit hend
  obtain ⟨s, r, hresult, hr, hrest⟩ := round_of_accepted hmode hlimit hend h
  obtain ⟨hitem, hstop⟩ := (leading_accepted hnaso).turn q.limit trivial
    (show q.ahead ≠ [] by simpa [atEnd] using hend) (by rwa [hresult])
  rw [round_eq, round_eq, hitem, hstop, hresult]
  change (_, (r.followedBy next).recover) = (_, r.recover.followedBy next) ∧
    r.recover.mode = .normal ∧ r.recover.run.2.errors = r.recover.errors
  rw [recover_of_normal hr, recover_of_normal (p := r.followedBy next) hr]
  exact ⟨rfl, hr, hrest⟩

theorem check_ofTokens_naso {tokens : List Token}
    (h : (tokens.find? (·.kind ≠ .comment)).map Token.kind ≠ some .naso) (file : String)
    (limit : Nat) : (ofTokens tokens file limit).check .naso = false := by
  rw [Bool.eq_false_iff]
  intro hcheck
  obtain ⟨token, rest, hahead, hkind⟩ := (check_eq_true_iff ..).1 hcheck
  have hfirst : words tokens <+: tokens.filter (·.kind ≠ .comment) := List.takeWhile_prefix _
  rw [show words tokens = token :: rest from hahead] at hfirst
  obtain ⟨more, hmore⟩ := hfirst
  apply h
  rw [← List.head?_filter, ← hmore]
  exact congrArg some hkind

end Parser

/--
Behind a text that is accepted, any text that does not start with the word for the other branch
is read as if it stood alone: if it is accepted, then so are both, as one program, and otherwise
its errors are all there are.
-/
theorem parse_composes (tokens tokens' : List Token) (file : String) (limit : Nat)
    (program : Program) (hlimit : 1 ≤ limit) (heof : ∀ token ∈ tokens, token.kind ≠ .eof)
    (h : parse tokens file limit = .ok program)
    (hnaso : (tokens'.find? (·.kind ≠ .comment)).map Token.kind ≠ some .naso) :
    (∀ program', parse tokens' file limit = .ok program' →
      parse (tokens ++ tokens') file limit =
        .ok ⟨program.statements ++ program'.statements⟩) ∧
    ∀ errors, parse tokens' file limit = .error errors →
      parse (tokens ++ tokens') file limit = .error errors := by
  have hnone : (Parser.ofTokens tokens file limit).run.2.errors = [] := by
    rw [parse_eq_run] at h
    split at h
    · assumption
    · cases h
  have hjoined := parse_append hlimit heof
    (Parser.run_of_accepted (q := .ofTokens tokens file limit)
      (Parser.check_ofTokens_naso hnaso file limit) rfl hlimit hnone)
  rw [h] at hjoined
  constructor
  · intro program' h'
    rw [hjoined, h', joined]
  · intro errors h'
    rw [hjoined, h']
    rfl

/-- A conditional without another branch, and behind it what is no statement. -/
theorem parse_composes_conditional :
    let text (words : List (Kind × String)) : List Token :=
      words.map fun (kind, text) => ⟨kind, text, .start, ⟨"main", "."⟩⟩
    let tokens := text [(.abi, "abi"), (.lparen, "("), (.ident, "a"), (.rparen, ")"),
      (.comment, "# then"), (.ident, "b"), (.semicolon, ";")]
    let tokens' := text [(.comment, "# next"), (.rparen, ")"), (.semicolon, ";")]
    1 ≤ 8 ∧ (∀ token ∈ tokens, token.kind ≠ .eof) ∧
      (tokens'.find? (·.kind ≠ .comment)).map Token.kind ≠ some .naso ∧
      ∃ program errors, parse tokens "main" 8 = .ok program ∧
        parse tokens' "main" 8 = .error errors ∧
        parse (tokens ++ tokens') "main" 8 = .error errors := by
  intro text tokens tokens'
  have heof : ∀ token ∈ tokens, token.kind ≠ .eof := by decide
  have hnaso : (tokens'.find? (·.kind ≠ .comment)).map Token.kind ≠ some .naso := by decide
  obtain ⟨program, hprogram⟩ : ∃ program, parse tokens "main" 8 = .ok program := ⟨_, rfl⟩
  obtain ⟨errors, herrors⟩ : ∃ errors, parse tokens' "main" 8 = .error errors := ⟨_, rfl⟩
  have hcomposes := parse_composes tokens tokens' "main" 8 program (by decide) heof hprogram hnaso
  exact ⟨by decide, heof, hnaso, program, errors, hprogram, herrors, hcomposes.2 errors herrors⟩

end Pidgin
