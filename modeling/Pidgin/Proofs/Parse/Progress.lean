import Pidgin.Proofs.Grammar.Limit

/-!
# Every round makes progress

The loop over the declarations of a program steps over a token in each round,
whatever it reports, so it takes no more rounds than there are tokens.

The loop inside a block goes on after a declaration that failed, and without room
for another level a declaration can fail where it started.  That is the one case
in which nothing is read, and the one in which the block is given up.
-/

namespace Pidgin

open Grammar Parse

/-! ## Declarations that read nothing -/

namespace Turn

def Moves (turn : Turn) : Prop := turn.start.cursor < turn.stop.cursor

/-- The declaration failed at its first token because there is no room for it. -/
def RunsOut (turn : Turn) : Prop := turn.result = tooDeep turn.start

theorem RunsOut.not_moves {turn : Turn} (h : turn.RunsOut) : ¬turn.Moves := by
  have hstop : turn.stop = parserOf (tooDeep turn.start : EStateM.Result _ _ Stmt) :=
    congrArg parserOf h
  simp [Moves, hstop, tooDeep_eq, fail_eq, parserOf]

end Turn

theorem Parse.declaration_zero_eq {p : Parser} (h : p.current.kind ∉ [.abeg, .oya, .comot]) :
    declaration 0 p = tooDeep p := by
  simp only [List.mem_cons, List.not_mem_nil, or_false, not_or] at h
  unfold declaration declarationOf
  split
  · simp_all
  · simp_all
  · rw [statement_eq, statementOf]
    split
    · rfl
    · rfl
    · rfl
    · simp_all
    · rfl

theorem Parse.moves_or_runsOut (room : Nat) {p : Parser} (hahead : p.ahead ≠ []) :
    Turn.Moves ⟨p, declaration room p⟩ ∨ Turn.RunsOut ⟨p, declaration room p⟩ := by
  cases room with
  | succ room => exact .inl ((eager_declaration room).advances p hahead)
  | zero =>
      by_cases hkind : p.current.kind ∈ [.abeg, .oya, .comot]
      · -- These three are read by themselves, and only what follows them needs room.
        left
        simp only [List.mem_cons, List.not_mem_nil, or_false] at hkind
        rcases hkind with h | h | h <;>
          simp only [Turn.Moves, Turn.stop, declaration, declarationOf, statement_eq,
            statementOf, h]
        · exact (headed_varDecl (steady_value 0)).eager.advances p hahead
        · exact (headed_fnDecl (steady_block 0)).eager.advances p hahead
        · exact (headed_ret (steady_value 0)).eager.advances p hahead
      · exact .inr (declaration_zero_eq hkind)

namespace Parser

/-! ## The loop over a program -/

section

variable {declaration : Parse Stmt} {p last : Parser} {turns : List Turn}

theorem cursor_lt_round (hdeclaration : Eager declaration) (h : p.ahead ≠ []) :
    p.cursor < (p.round declaration).2.cursor := by
  rw [round_eq]
  exact Nat.lt_of_lt_of_le (hdeclaration.advances p h) (cursor_le_recover _)

theorem Run.cursor_lt (hdeclaration : Eager declaration) (h : Run declaration p turns last) :
    ∀ turn ∈ turns, turn.start.cursor < (turn.start.round declaration).2.cursor := by
  induction h with
  | done => simp
  | turn hend rest ih =>
      rw [List.forall_mem_cons]
      exact ⟨cursor_lt_round hdeclaration (by simpa [atEnd] using hend), ih⟩

theorem Run.length_le (hdeclaration : Eager declaration) (h : Run declaration p turns last) :
    turns.length ≤ p.ahead.length := by
  induction h with
  | done => simp
  | turn hend rest ih =>
      have hless := length_ahead_round hdeclaration (by simpa [atEnd] using hend)
      simp only [List.length_cons]
      omega

end

/-! ## The loop inside a block -/

/--
The turns that the loop inside a block takes, with no bound on them, and where they leave the
parser.  A declaration that failed is passed on if it has read nothing, and left out if it has
read something.
-/
inductive Fills (declaration : Parse Stmt) :
    Parser → List Turn → Option Diagnostic → Parser → Prop where
  | done {p : Parser} (hcloses : (p.check .rbrace || p.atEnd) = true) :
      Fills declaration p [] none p
  | turn {p last : Parser} {turns : List Turn} {d? : Option Diagnostic}
      (hgoes : (p.check .rbrace || p.atEnd) = false)
      (hkeeps : ∀ d q, declaration p = .error d q → q.cursor ≠ p.cursor)
      (rest : Fills declaration (parserOf (declaration p)) turns d? last) :
      Fills declaration p (⟨p, declaration p⟩ :: turns) d? last
  | left {p q : Parser} {d : Diagnostic} (hgoes : (p.check .rbrace || p.atEnd) = false)
      (hresult : declaration p = .error d q) (hstays : q.cursor = p.cursor) :
      Fills declaration p [⟨p, declaration p⟩] (some d) q

def outcome (turns : List Turn) (last : Parser) :
    Option Diagnostic → EStateM.Result Diagnostic Parser (List Stmt)
  | none => .ok (turns.filterMap Turn.item?) last
  | some d => .error d last

section

variable {declaration : Parse Stmt} {p last : Parser} {turns : List Turn} {d? : Option Diagnostic}

theorem ahead_ne_nil (h : (p.check .rbrace || p.atEnd) = false) : p.ahead ≠ [] := by
  rintro hahead
  simp [atEnd, hahead] at h

theorem length_ahead_lt {q : Parser} (hreach : p.Reaches q) (hcursor : p.cursor < q.cursor) :
    q.ahead.length < p.ahead.length := by
  have htokens := congrArg List.length hreach.tokens_eq
  rw [length_tokens, length_tokens] at htokens
  omega

theorem items_of_keeps (hgoes : (p.check .rbrace || p.atEnd) = false)
    (hkeeps : ∀ d q, declaration p = .error d q → q.cursor ≠ p.cursor) {rounds : Nat}
    (h : items declaration rounds (parserOf (declaration p)) = outcome turns last d?) :
    items declaration (rounds + 1) p = outcome (⟨p, declaration p⟩ :: turns) last d? := by
  cases hresult : declaration p with
  | ok s q =>
      rw [hresult] at h
      cases d? <;>
        simp_all [items, outcome, parserOf, Functor.map, EStateM.map, Turn.item?]
  | error d q =>
      have hmoved := hkeeps d q hresult
      rw [hresult] at h
      cases d? <;> simp_all [items, outcome, parserOf, Turn.item?, List.filterMap_cons]

variable (hmoves : ∀ p : Parser, p.ahead ≠ [] →
  Turn.Moves ⟨p, declaration p⟩ ∨ Turn.RunsOut ⟨p, declaration p⟩)

include hmoves

theorem exists_fills (hsteady : Steady declaration) (rounds : Nat) (p : Parser)
    (hrounds : p.ahead.length ≤ rounds) :
    ∃ turns d? last, Fills declaration p turns d? last ∧
      items declaration rounds p = outcome turns last d? := by
  induction rounds generalizing p with
  | zero =>
      have hend : p.atEnd = true := by simpa [atEnd] using hrounds
      exact ⟨[], none, p, .done (by simp [hend]), rfl⟩
  | succ rounds ih =>
      cases hgoes : p.check .rbrace || p.atEnd with
      | true => exact ⟨[], none, p, .done hgoes, by simp [items, hgoes, outcome]⟩
      | false =>
          rcases hmoves p (ahead_ne_nil hgoes) with hmoved | hout
          · have hless := length_ahead_lt (hsteady p).reaches hmoved
            obtain ⟨turns, d?, last, hfills, hitems⟩ := ih (parserOf (declaration p)) (by omega)
            have hkeeps : ∀ d q, declaration p = .error d q → q.cursor ≠ p.cursor := by
              intro d q hresult
              simp only [Turn.Moves, Turn.stop, hresult, parserOf] at hmoved
              omega
            exact ⟨_, d?, last, .turn hgoes hkeeps hfills, items_of_keeps hgoes hkeeps hitems⟩
          · have hresult : declaration p = .error _ _ := hout
            refine ⟨_, _, _, .left hgoes hresult (cursor_record ..), ?_⟩
            simp [items, hgoes, hresult, outcome]

theorem Fills.progress (h : Fills declaration p turns d? last) :
    ∀ turn ∈ turns, turn.Moves ∧ ¬turn.RunsOut ∨
      turn.RunsOut ∧ turns.getLast? = some turn ∧ outcome turns last d? = tooDeep turn.start := by
  induction h with
  | done => simp
  | @turn p last turns d? hgoes hkeeps rest ih =>
      rw [List.forall_mem_cons]
      constructor
      · left
        rcases hmoves p (ahead_ne_nil hgoes) with hmoved | hout
        · exact ⟨hmoved, fun hout => hout.not_moves hmoved⟩
        · exact absurd (cursor_record ..) (hkeeps _ _ hout)
      · intro turn hturn
        rcases ih turn hturn with hmoved | ⟨hout, hlast, houtcome⟩
        · exact .inl hmoved
        · refine .inr ⟨hout, by simp [List.getLast?_cons, hlast], ?_⟩
          cases d? with
          | none => cases houtcome
          | some d => exact houtcome
  | @left p q d hgoes hresult hstays =>
      simp only [List.mem_singleton, forall_eq]
      right
      have hout : Turn.RunsOut ⟨p, declaration p⟩ := by
        refine (hmoves p (ahead_ne_nil hgoes)).resolve_left ?_
        simp [Turn.Moves, Turn.stop, hresult, parserOf, hstays]
      refine ⟨hout, rfl, ?_⟩
      have hsame := hresult.symm.trans hout
      simp_all [outcome, tooDeep_eq, fail_eq]

theorem Fills.exists_runsOut {d : Diagnostic} (h : Fills declaration p turns (some d) last) :
    ∃ turn ∈ turns, turn.RunsOut := by
  generalize hd : some d = d? at h
  induction h with
  | done => cases hd
  | turn hgoes hkeeps rest ih =>
      obtain ⟨turn, hturn, hout⟩ := ih hd
      exact ⟨turn, List.mem_cons_of_mem _ hturn, hout⟩
  | @left p q d hgoes hresult hstays =>
      refine ⟨_, List.mem_singleton_self _, (hmoves p (ahead_ne_nil hgoes)).resolve_left ?_⟩
      simp [Turn.Moves, Turn.stop, hresult, parserOf, hstays]

end

theorem block_of_items {room : Nat} {p last : Parser} {d : Diagnostic}
    (hbrace : p.check .lbrace = true)
    (h : bounded (items (declaration room)) p.shift = .error d last) :
    block (room + 1) p = .error d last := by
  have hopen : expect .lbrace "expected '\x7b' before block" p = .ok p.current p.shift := by
    rw [expect_eq, if_pos hbrace]
  rw [block_eq]
  change blockOf (declaration room) p = _
  rw [blockOf, bind_of_ok hopen, bind_of_error h]

end Parser

/--
Every round of the loop over a program steps over a token, so there are no more rounds than
tokens.  Every turn of the loop inside a block, with however much room, steps over a token or
gives the block up, and it does the latter exactly if there is no room for its first token.
-/
theorem parse_progresses (tokens : List Token) (file : String) :
    (∀ limit, 1 ≤ limit → ∃ turns last,
      Parser.Run (declaration limit) (.ofTokens tokens file limit) turns last ∧
      parse tokens file limit =
        (if last.errors = [] then .ok ⟨turns.filterMap Turn.item?⟩ else .error last.errors) ∧
      (∀ turn ∈ turns, turn.start.cursor < (turn.start.round (declaration limit)).2.cursor) ∧
      turns.length ≤ (words tokens).length) ∧
    ∀ (room : Nat) (p : Parser), ∃ turns d? last,
      Parser.Fills (declaration room) p turns d? last ∧
      bounded (items (declaration room)) p = Parser.outcome turns last d? ∧
      (∀ turn ∈ turns, turn.Moves ∧ ¬turn.RunsOut ∨
        turn.RunsOut ∧ turns.getLast? = some turn ∧
          Parser.outcome turns last d? = tooDeep turn.start) ∧
      (∀ d, d? = some d → (∃ turn ∈ turns, turn.RunsOut) ∧
        ∀ start : Parser, start.check .lbrace = true → start.shift = p →
          block (room + 1) start = .error d last) := by
  constructor
  · intro limit hlimit
    obtain ⟨room, rfl⟩ := Nat.exists_eq_add_of_le' hlimit
    obtain ⟨turns, last, hrun, -, -, hparse⟩ := exists_run_parse tokens file room
    have heager := eager_declaration room
    exact ⟨turns, last, hrun, hparse, hrun.cursor_lt heager, hrun.length_le heager⟩
  · intro room p
    obtain ⟨turns, d?, last, hfills, hitems⟩ :=
      Parser.exists_fills (fun _ => moves_or_runsOut room) (steady_declaration room) _ p
        (Nat.le_refl _)
    refine ⟨turns, d?, last, hfills, hitems, hfills.progress fun _ => moves_or_runsOut room, ?_⟩
    rintro d rfl
    refine ⟨hfills.exists_runsOut fun _ => moves_or_runsOut room, ?_⟩
    rintro start hbrace rfl
    exact Parser.block_of_items hbrace hitems

/-- With one level the block takes it, and the name inside has no room. -/
theorem parse_progresses_no_room :
    let tokens : List Token :=
      [(.lbrace, "\x7b"), (.ident, "a"), (.semicolon, ";"), (.rbrace, "\x7d")].map
        fun (kind, text) => ⟨kind, text, .start, ⟨"main", "."⟩⟩
    let inside := (Parser.ofTokens tokens "main" 1).shift
    1 ≤ 1 ∧ (∃ turns last, Parser.Run (declaration 1) (.ofTokens tokens "main" 1) turns last ∧
      turns.length ≤ 4) ∧
    ∃ turns d last, Parser.Fills (declaration 0) inside turns (some d) last ∧
      (∃ turn ∈ turns, turn.RunsOut) ∧
      block 1 (.ofTokens tokens "main" 1) = .error d last := by
  intro tokens inside
  obtain ⟨hprogram, hblock⟩ := parse_progresses tokens "main"
  obtain ⟨turns, last, hrun, -, -, hlength⟩ := hprogram 1 (Nat.le_refl 1)
  refine ⟨Nat.le_refl 1, ⟨turns, last, hrun, hlength⟩, ?_⟩
  obtain ⟨turns, d?, last, hfills, hitems, -, hout⟩ := hblock 0 inside
  cases d? with
  | none => cases hitems
  | some d => exact ⟨turns, d, last, hfills, (hout d rfl).1, (hout d rfl).2 _ rfl rfl⟩

end Pidgin
