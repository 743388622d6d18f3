import Pidgin.Proofs.Grammar.Descent

/-!
# The parser accepts the programs of the grammar

A run without errors has stepped from declaration to declaration, so its items
are the trees of a derivation.  Conversely a parser in front of a derivation
reads one declaration a turn and has nothing to recover from.
-/

namespace Pidgin

open Grammar Parse

namespace Parser

variable {declaration : Parse Stmt} {p last : Parser} {turns : List Turn}

theorem recover_of_normal (h : p.mode = .normal) : p.recover = p := by
  unfold recover
  rw [h]

theorem exists_of_added_eq_nil {turn : Turn} (hturn : turn.Accountable)
    (h : turn.added = []) : ∃ s q, turn.result = .ok s q ∧ q.mode = .normal := by
  have hone := hturn.one_iff
  have hfailed := hturn.one_of_failed
  rw [h] at hone hfailed
  cases hresult : turn.result with
  | ok s q =>
      refine ⟨s, q, rfl, ?_⟩
      rw [Turn.stop, hresult] at hone
      cases hmode : q.mode with
      | normal => rfl
      | panicking => exact absurd (hone.2 hmode) (by decide)
  | error d q =>
      rw [Turn.failed, hresult] at hfailed
      exact absurd (hfailed rfl) (by decide)

theorem Run.phrases (hdeclaration : Recognizes declaration Declaration)
    (h : Run declaration p turns last) (hturns : ∀ turn ∈ turns, turn.Accountable)
    (hclean : ∀ turn ∈ turns, turn.added = []) :
    Declarations p.ahead [] (turns.filterMap Turn.item?) := by
  induction h with
  | @done p hend =>
      rw [List.isEmpty_iff.1 hend]
      exact .nil
  | @turn p last turns hend rest ih =>
      rw [List.forall_mem_cons] at hturns hclean
      obtain ⟨s, q, hresult, hq⟩ := exists_of_added_eq_nil hturns.1 hclean.1
      dsimp only at hresult
      obtain ⟨v, hv, hphrase⟩ := hdeclaration p s q hresult hq
      have hmore := ih hturns.2 hclean.2
      rw [round_eq, hresult] at hmore
      change Declarations q.recover.ahead [] _ at hmore
      rw [recover_of_normal hq] at hmore
      rw [List.filterMap_cons, hresult, hv]
      refine .cons ?_ hmore
      rwa [List.append_nil]

theorem declarations_of_takes {v w : List Token} {s : Stmt} (h : Takes declaration v w s)
    (hv : v ≠ []) (hp : p.ahead = v ++ w) (hmode : p.mode = .normal) (rounds : Nat) :
    p.declarations declaration (rounds + 1) =
      (s :: ((p.read v w).declarations declaration rounds).1,
        ((p.read v w).declarations declaration rounds).2) := by
  have hround : p.round declaration = (some s, p.read v w) := by
    rw [round, h p hp]
    exact congrArg (some s, ·) (recover_of_normal hmode)
  have hgoes : p.atEnd = false := by simp [atEnd, hp, hv]
  simp [declarations, hgoes, hround]

theorem declarations_of_phrases {bound : Nat}
    (hdeclaration : TakesUpTo bound declaration Declaration) (rounds : Nat) {p : Parser}
    {ss : List Stmt} (h : Declarations p.ahead [] ss) (hmode : p.mode = .normal)
    (hbound : p.ahead.length ≤ bound) (hrounds : p.ahead.length ≤ rounds) :
    ∃ last, p.declarations declaration rounds = (ss, last) ∧ last.errors = p.errors := by
  induction rounds generalizing p ss with
  | zero =>
      generalize hahead : p.ahead = w at *
      cases h with
      | nil => exact ⟨p, rfl, rfl⟩
      | cons first more =>
          obtain ⟨token, v, rfl, -⟩ := first.head
          contradiction
  | succ rounds ih =>
      generalize hahead : p.ahead = w at *
      cases h with
      | nil => exact ⟨p, by simp [declarations, atEnd, hahead], rfl⟩
      | @cons v w _ s ss first more =>
          rw [List.append_nil] at first
          simp only [List.length_append] at hbound hrounds
          have hread := hdeclaration first (by omega)
          obtain ⟨token, v, rfl, -⟩ := first.head
          simp only [List.length_cons] at hbound hrounds
          obtain ⟨last, hlast, herrors⟩ :=
            ih (p := p.read (token :: v) w) more hmode (by simp; omega) (by simp; omega)
          refine ⟨last, ?_, herrors⟩
          rw [declarations_of_takes hread (by simp) hahead hmode, hlast]

end Parser

/--
Where the limit is out of reach, the parser accepts exactly the programs of the grammar and
yields the trees of their derivations.
-/
theorem parse_eq_ok_iff (tokens : List Token) (file : String) (limit : Nat)
    (program : Program) (hlimit : tokens.length < limit) :
    parse tokens file limit = .ok program ↔
      Declarations ((tokens.filter (·.kind ≠ .comment)).takeWhile (·.kind ≠ .eof)) []
        program.statements := by
  obtain ⟨room, rfl⟩ := Nat.exists_eq_add_of_lt hlimit
  constructor
  · intro h
    obtain ⟨turns, last, hrun, hturns, herrors, hparse⟩ :=
      exists_run_parse tokens file (tokens.length + room)
    rw [hparse] at h
    split at h
    · rename_i hnone
      cases h
      rw [herrors, List.flatMap_eq_nil_iff] at hnone
      exact hrun.phrases (recognizes_declaration _) hturns hnone
    · cases h
  · intro h
    let p := Parser.ofTokens tokens file (tokens.length + room + 1)
    have hlength : p.ahead.length ≤ tokens.length :=
      Nat.le_trans (List.takeWhile_sublist _).length_le (List.filter_sublist).length_le
    obtain ⟨last, hlast, herrors⟩ :=
      Parser.declarations_of_phrases (takes_declaration p.limit) p.ahead.length h rfl
        (show _ ≤ tokens.length + room + 1 by omega) (Nat.le_refl _)
    have hrun : p.run = (program.statements, last) := hlast
    unfold parse
    rw [show Parser.ofTokens tokens file (tokens.length + room + 1) = p from rfl, hrun]
    have hnone : last.errors = [] := herrors
    simp [Parser.hadError, hnone]

/-- The nearest conditional takes the other branch. -/
theorem parse_eq_ok_iff_nearest :
    let tokens : List Token :=
      [(.abi, "abi"), (.lparen, "("), (.ident, "a"), (.rparen, ")"), (.abi, "abi"),
        (.lparen, "("), (.ident, "b"), (.rparen, ")"), (.comot, "comot"), (.semicolon, ";"),
        (.naso, "naso"), (.ident, "c"), (.semicolon, ";")].map
          fun (kind, text) => ⟨kind, text, .start, ⟨"main", "."⟩⟩
    tokens.length < 14 ∧ Declarations tokens []
      [.ifElse (.var "a" .start) (.ifElse (.var "b" .start) (.ret none .start)
        (some (.expr (.var "c" .start) .start)) .start) none .start] := by
  intro tokens
  have hlimit : tokens.length < 14 := by decide
  exact ⟨hlimit, (parse_eq_ok_iff tokens "main" 14 ⟨_⟩ hlimit).1 rfl⟩

end Pidgin
