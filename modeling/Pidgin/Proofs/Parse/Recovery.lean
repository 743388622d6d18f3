import Mathlib.Data.List.Forall2
import Pidgin.Proofs.Parse.Steady

/-!
# One report for each malformed region

A run is the sequence of turns that a parser takes up to the end, one for each
declaration at the top level.  A turn starts in normal mode, adds at most one
error, and adds one exactly when it ends in panic, after which the parser
synchronizes.  The errors of a run are therefore those of its turns, in the
order of the tokens at which they were raised.
-/

namespace Pidgin

open Parse

namespace Parser

/-! ## Recovery -/

theorem cursor_le_seek (behind ahead : List Token) :
    behind.length ≤ (seek behind ahead).1.length := by
  induction ahead generalizing behind with
  | nil => exact Nat.le_refl _
  | cons token ahead ih =>
      rw [seek]
      split
      · exact Nat.le_refl _
      · have := ih (token :: behind)
        rw [List.length_cons] at this
        omega

theorem mode_recover (p : Parser) : p.recover.mode = .normal := by
  unfold recover
  split
  · assumption
  · rfl

theorem errors_recover (p : Parser) : p.recover.errors = p.errors := by
  unfold recover
  split <;> rfl

theorem file_recover (p : Parser) : p.recover.file = p.file := by
  unfold recover
  split <;> rfl

theorem tokens_recover (p : Parser) : p.recover.tokens = p.tokens := by
  unfold recover
  split
  · rfl
  · exact tokens_synchronize p

theorem tokenAt?_recover (p : Parser) (index : Nat) :
    p.recover.tokenAt? index = p.tokenAt? index := by
  unfold tokenAt?
  rw [tokens_recover]
  unfold recover
  split <;> rfl

theorem cursor_le_recover (p : Parser) : p.cursor ≤ p.recover.cursor := by
  unfold recover
  split
  · exact Nat.le_refl _
  · exact cursor_le_seek p.behind p.ahead

theorem RaisedAt.of_eq {p q : Parser} {index : Nat} {d : Diagnostic} (h : q.RaisedAt index d)
    (htoken : ∀ index, q.tokenAt? index = p.tokenAt? index) (hfile : q.file = p.file) :
    p.RaisedAt index d := by
  obtain ⟨token, hat, hpos, hsame, hcause⟩ := h
  exact ⟨token, htoken index ▸ hat, hpos, hsame.trans hfile, hcause⟩

end Parser

/-! ## Turns -/

/-- One declaration: where it started and what came of it. -/
structure Turn where
  start : Parser
  result : EStateM.Result Diagnostic Parser Stmt

namespace Turn

def stop (turn : Turn) : Parser := parserOf turn.result

def item? (turn : Turn) : Option Stmt :=
  match turn.result with
  | .ok item _ => some item
  | .error _ _ => none

def failed (turn : Turn) : Bool :=
  match turn.result with
  | .ok _ _ => false
  | .error _ _ => true

def synchronizes (turn : Turn) : Bool := turn.stop.mode = .panicking

def added (turn : Turn) : List Diagnostic :=
  turn.stop.errors.drop turn.start.errors.length

/-- The turn starts in normal mode and accounts for every error it adds. -/
structure Accountable (turn : Turn) : Prop where
  normal : turn.start.mode = .normal
  kept : turn.stop.errors = turn.start.errors ++ turn.added
  atMostOne : turn.added.length ≤ 1
  one_iff : turn.added.length = 1 ↔ turn.stop.mode = .panicking
  one_of_failed : turn.failed = true → turn.added.length = 1
  raised : ∀ d ∈ turn.added, ∃ index, turn.start.cursor ≤ index ∧
    index ≤ turn.stop.cursor ∧ turn.start.RaisedAt index d

theorem accountable {declaration : Parse Stmt} {p : Parser} (hdeclaration : Steady declaration)
    (hp : p.mode = .normal) : Accountable ⟨p, declaration p⟩ := by
  have hreach : p.Reaches (parserOf (declaration p)) := (hdeclaration p).reaches
  have hfailed : Turn.failed ⟨p, declaration p⟩ = true →
      (parserOf (declaration p)).mode = .panicking := by
    intro h
    have hstays := hdeclaration p
    unfold failed at h
    cases hresult : declaration p with
    | ok item q => simp [hresult] at h
    | error d q =>
        rw [hresult] at hstays
        exact hstays.2
  rcases hreach.of_normal hp with ⟨hmode, herrors⟩ |
    ⟨hmode, d, index, herrors, hlow, hhigh, hraised⟩
  · have hadded : Turn.added ⟨p, declaration p⟩ = [] := by
      simp [added, stop, herrors]
    refine ⟨hp, ?_, ?_, ?_, ?_, ?_⟩
    · rw [hadded]
      simpa [stop] using herrors
    · simp [hadded]
    · simp [hadded, stop, hmode]
    · intro h
      rw [hfailed h] at hmode
      contradiction
    · simp [hadded]
  · have hadded : Turn.added ⟨p, declaration p⟩ = [d] := by
      simp [added, stop, herrors]
    refine ⟨hp, ?_, ?_, ?_, ?_, ?_⟩
    · rw [hadded]
      exact herrors
    · simp [hadded]
    · simp [hadded, stop, hmode]
    · simp [hadded]
    · intro d' hd'
      rw [hadded, List.mem_singleton] at hd'
      subst hd'
      exact ⟨index, hlow, hhigh, hraised⟩

end Turn

/-! ## Runs -/

namespace Parser

inductive Run (declaration : Parse Stmt) : Parser → List Turn → Parser → Prop where
  | done {p : Parser} (hend : p.atEnd = true) : Run declaration p [] p
  | turn {p last : Parser} {turns : List Turn} (hend : p.atEnd = false)
      (rest : Run declaration (p.round declaration).2 turns last) :
      Run declaration p (⟨p, declaration p⟩ :: turns) last

variable {declaration : Parse Stmt} {p last : Parser} {turns : List Turn}

theorem round_eq (declaration : Parse Stmt) (p : Parser) :
    p.round declaration =
      (Turn.item? ⟨p, declaration p⟩, (parserOf (declaration p)).recover) := by
  unfold round Turn.item?
  cases declaration p <;> rfl

theorem tokens_round (hdeclaration : Steady declaration) (p : Parser) :
    (p.round declaration).2.tokens = p.tokens := by
  rw [round_eq]
  exact (tokens_recover _).trans (hdeclaration p).reaches.tokens_eq

theorem length_ahead_round (hdeclaration : Eager declaration) (h : p.ahead ≠ []) :
    (p.round declaration).2.ahead.length < p.ahead.length := by
  have htokens := congrArg List.length (tokens_round hdeclaration.steady p)
  have hmoved := hdeclaration.advances p h
  have hrecover := (parserOf (declaration p)).cursor_le_recover
  rw [length_tokens, length_tokens] at htokens
  rw [round_eq] at htokens ⊢
  dsimp only at htokens ⊢
  omega

theorem exists_run (hdeclaration : Eager declaration) (rounds : Nat) (p : Parser)
    (hrounds : p.ahead.length ≤ rounds) :
    ∃ turns last, Run declaration p turns last ∧
      p.declarations declaration rounds = (turns.filterMap Turn.item?, last) := by
  induction rounds generalizing p with
  | zero =>
      have hend : p.atEnd = true := by
        rw [atEnd, List.isEmpty_iff_length_eq_zero]
        omega
      exact ⟨[], p, .done hend, rfl⟩
  | succ rounds ih =>
      cases hend : p.atEnd with
      | true => exact ⟨[], p, .done hend, by simp [declarations, hend]⟩
      | false =>
          have hahead : p.ahead ≠ [] := by
            rintro h
            simp [atEnd, h] at hend
          have hless := length_ahead_round hdeclaration hahead
          obtain ⟨turns, last, hrun, hloop⟩ := ih (p.round declaration).2 (by omega)
          refine ⟨_, last, .turn hend hrun, ?_⟩
          simp only [declarations, hend, Bool.false_eq_true, if_false, hloop,
            List.filterMap_cons]
          rw [round_eq]
          cases Turn.item? ⟨p, declaration p⟩ <;> rfl

namespace Run

theorem accountable (hdeclaration : Steady declaration) (h : Run declaration p turns last)
    (hp : p.mode = .normal) : ∀ turn ∈ turns, turn.Accountable := by
  induction h with
  | done => simp
  | @turn p last turns hend rest ih =>
      have hnext : (p.round declaration).2.mode = .normal := by
        rw [round_eq]
        exact mode_recover _
      rw [List.forall_mem_cons]
      exact ⟨Turn.accountable hdeclaration hp, ih hnext⟩

theorem errors_eq (h : Run declaration p turns last)
    (hturns : ∀ turn ∈ turns, turn.Accountable) :
    last.errors = p.errors ++ turns.flatMap Turn.added := by
  induction h with
  | done => simp
  | @turn p last turns hend rest ih =>
      rw [List.forall_mem_cons] at hturns
      rw [ih hturns.2, round_eq, errors_recover, List.flatMap_cons, ← List.append_assoc]
      exact congrArg (· ++ _) hturns.1.kept

theorem exists_indices (hdeclaration : Steady declaration) (h : Run declaration p turns last)
    (hturns : ∀ turn ∈ turns, turn.Accountable) :
    ∃ indices : List Nat, indices.Pairwise (· ≤ ·) ∧ (∀ index ∈ indices, p.cursor ≤ index) ∧
      List.Forall₂ p.RaisedAt indices (turns.flatMap Turn.added) := by
  induction h with
  | done => exact ⟨[], .nil, nofun, .nil⟩
  | @turn p last turns hend rest ih =>
      rw [List.forall_mem_cons] at hturns
      obtain ⟨indices, hsorted, hbound, hraised⟩ := ih hturns.2
      have hreach := (hdeclaration p).reaches
      rw [round_eq] at hbound hraised
      have hbound' : ∀ index ∈ indices, (parserOf (declaration p)).cursor ≤ index :=
        fun index hindex => Nat.le_trans (cursor_le_recover _) (hbound index hindex)
      have hraised' : List.Forall₂ p.RaisedAt indices (turns.flatMap Turn.added) := by
        apply hraised.imp
        intro index d hd
        refine hd.of_eq ?_ ?_
        · intro index
          rw [tokenAt?_recover, hreach.tokenAt?_eq]
        · rw [file_recover, hreach.file_eq]
      have hadded := hturns.1.atMostOne
      rw [List.flatMap_cons]
      match hnew : Turn.added ⟨p, declaration p⟩ with
      | [] =>
          refine ⟨indices, hsorted, ?_, hraised'⟩
          intro index hindex
          exact Nat.le_trans hreach.cursor_le (hbound' index hindex)
      | [d] =>
          -- The turn raised it before it stopped, and later ones start no earlier than that.
          obtain ⟨index, hlow, hhigh, hat⟩ := hturns.1.raised d (by simp [hnew])
          refine ⟨index :: indices, ?_, ?_, .cons hat hraised'⟩
          · rw [List.pairwise_cons]
            refine ⟨?_, hsorted⟩
            intro later hlater
            exact Nat.le_trans hhigh (hbound' later hlater)
          · rw [List.forall_mem_cons]
            refine ⟨hlow, ?_⟩
            intro later hlater
            exact Nat.le_trans hreach.cursor_le (hbound' later hlater)
      | _ :: _ :: _ => simp [hnew] at hadded

end Run

end Parser

theorem length_flatMap_added {turns : List Turn} (h : ∀ turn ∈ turns, turn.Accountable) :
    (turns.flatMap Turn.added).length = turns.countP Turn.synchronizes := by
  induction turns with
  | nil => rfl
  | cons turn turns ih =>
      rw [List.forall_mem_cons] at h
      have hone := h.1.one_iff
      have hmost := h.1.atMostOne
      rw [List.flatMap_cons, List.length_append, ih h.2, List.countP_cons]
      by_cases hmode : turn.stop.mode = .panicking
      · simp only [Turn.synchronizes, hmode, decide_true, if_true, hone.2 hmode]
        omega
      · have hnone : turn.added.length ≠ 1 := fun hlength => hmode (hone.1 hlength)
        simp only [Turn.synchronizes, hmode, decide_false, Bool.false_eq_true, if_false]
        omega

theorem exists_run_parse (tokens : List Token) (file : String) (room : Nat) :
    ∃ turns last,
      Parser.Run (declaration (room + 1)) (.ofTokens tokens file (room + 1)) turns last ∧
      (∀ turn ∈ turns, turn.Accountable) ∧
      last.errors = turns.flatMap Turn.added ∧
      parse tokens file (room + 1) =
        if last.errors = [] then .ok ⟨turns.filterMap Turn.item?⟩ else .error last.errors := by
  have heager := eager_declaration room
  let p := Parser.ofTokens tokens file (room + 1)
  obtain ⟨turns, last, hrun, hloop⟩ :=
    Parser.exists_run heager p.ahead.length p (Nat.le_refl _)
  have hturns := hrun.accountable heager.steady rfl
  refine ⟨turns, last, hrun, hturns, hrun.errors_eq hturns, ?_⟩
  have hlast : p.run = (turns.filterMap Turn.item?, last) := hloop
  unfold parse
  rw [show Parser.ofTokens tokens file (room + 1) = p from rfl, hlast]
  simp [Parser.hadError]

/--
Every run of the parser accounts for its errors turn by turn: they are as many as the
synchronizations, stand in the order of their tokens, and decide the result.
-/
theorem parse_accounts_for_errors (tokens : List Token) (file : String) (limit : Nat)
    (hlimit : 1 ≤ limit) :
    ∃ turns last,
      Parser.Run (declaration limit) (.ofTokens tokens file limit) turns last ∧
      (∀ turn ∈ turns, turn.Accountable) ∧
      last.errors = turns.flatMap Turn.added ∧
      last.errors.length = turns.countP Turn.synchronizes ∧
      (∃ indices : List Nat, indices.Pairwise (· ≤ ·) ∧
        List.Forall₂ (Parser.ofTokens tokens file limit).RaisedAt indices last.errors) ∧
      parse tokens file limit =
        (if last.errors = [] then .ok ⟨turns.filterMap Turn.item?⟩ else .error last.errors) ∧
      ((∃ program, parse tokens file limit = .ok program) ↔
        ∀ turn ∈ turns, turn.added = []) := by
  obtain ⟨room, rfl⟩ := Nat.exists_eq_add_of_le' hlimit
  obtain ⟨turns, last, hrun, hturns, herrors, hparse⟩ := exists_run_parse tokens file room
  obtain ⟨indices, hsorted, -, hraised⟩ :=
    hrun.exists_indices (eager_declaration room).steady hturns
  refine ⟨turns, last, hrun, hturns, herrors, ?_, ⟨indices, hsorted, ?_⟩, hparse, ?_⟩
  · rw [herrors, length_flatMap_added hturns]
  · rwa [herrors]
  · rw [hparse, herrors, ← List.flatMap_eq_nil_iff]
    split <;> simp_all

/-- The two errors of `abeg; comot ); a;` are raised where a name and an operand are missing. -/
theorem parse_accounts_for_errors_twice :
    let tokens : List Token :=
      [(.abeg, "abeg", 1), (.semicolon, ";", 5), (.comot, "comot", 7), (.rparen, ")", 13),
        (.semicolon, ";", 14), (.ident, "a", 16), (.semicolon, ";", 17)].map
          fun (kind, text, column) => ⟨kind, text, ⟨1, column⟩, ⟨"main", "."⟩⟩
    let p := Parser.ofTokens tokens "main" 8
    1 ≤ 8 ∧ ∃ turns last, Parser.Run (declaration 8) p turns last ∧
      turns.countP Turn.synchronizes = 2 ∧ List.Forall₂ p.RaisedAt [1, 3] last.errors := by
  intro tokens p
  obtain ⟨turns, last, hrun, -, -, hcount, ⟨indices, -, hraised⟩, hparse, -⟩ :=
    parse_accounts_for_errors tokens "main" 8 (by decide)
  obtain ⟨d, d', htwo, hpos, hpos'⟩ : ∃ d d', parse tokens "main" 8 = .error [d, d'] ∧
      d.pos = ⟨1, 5⟩ ∧ d'.pos = ⟨1, 13⟩ := ⟨_, _, rfl, rfl, rfl⟩
  have herrors : last.errors = [d, d'] := by
    rw [htwo] at hparse
    split at hparse
    · cases hparse
    · injection hparse with herrors
      exact herrors.symm
  refine ⟨by decide, turns, last, hrun, by rw [← hcount, herrors]; rfl, ?_⟩
  have honly : ∀ index < p.tokens.length + 1,
      ((p.tokenAt? index).map Token.pos = some ⟨1, 5⟩ → index = 1) ∧
        ((p.tokenAt? index).map Token.pos = some ⟨1, 13⟩ → index = 3) := by decide
  rw [herrors] at hraised ⊢
  cases hraised with
  | cons hfirst hraised =>
      cases hraised with
      | cons hsecond hraised =>
          obtain rfl := (honly _ hfirst.lt).1 (hfirst.map_pos.trans (congrArg some hpos))
          obtain rfl := (honly _ hsecond.lt).2 (hsecond.map_pos.trans (congrArg some hpos'))
          exact .cons hfirst (.cons hsecond .nil)

end Pidgin
