import Pidgin.Proofs.Grammar.Program

/-!
# The limit is a threshold

A program that is accepted with some limit needs a certain number of levels, no
matter how it is tried: from there on every limit gives the same program, and
below it the first thing that is reported is that the limit was reached.  The
number is the nesting of the tree, as long as no parentheses group.
-/

namespace Pidgin

open Grammar Parse

namespace Parser

theorem Reaches.errors_append {p q : Parser} (h : p.Reaches q) : p.errors <+: q.errors := by
  cases hmode : p.mode with
  | panicking => simp [(h.of_panicking hmode).2]
  | normal =>
      rcases h.of_normal hmode with ⟨-, herrors⟩ | ⟨-, d, -, herrors, -⟩
      · simp [herrors]
      · simp [herrors]

theorem ok_of_errors {α : Type} {m : Parse α} (hm : Steady m) {p : Parser}
    (hmode : p.mode = .normal) (h : (parserOf (m p)).errors = p.errors) :
    ∃ a q, m p = .ok a q ∧ q.mode = .normal := by
  rcases (hm p).reaches.of_normal hmode with ⟨hnormal, -⟩ | ⟨-, d, -, herrors, -⟩
  · exact hm.ok_of_normal hnormal
  · rw [herrors] at h
    simp at h

section

variable {declaration : Parse Stmt} (hsteady : Steady declaration)

include hsteady

theorem errors_round (p : Parser) : p.errors <+: (p.round declaration).2.errors := by
  rw [round_eq, errors_recover]
  exact (hsteady p).reaches.errors_append

theorem errors_declarations (rounds : Nat) (p : Parser) :
    p.errors <+: (p.declarations declaration rounds).2.errors := by
  induction rounds generalizing p with
  | zero => exact List.prefix_refl _
  | succ rounds ih =>
      rw [declarations]
      split
      · exact List.prefix_refl _
      · exact (errors_round hsteady p).trans (ih _)

theorem phrases_of_declarations (hdeclaration : Recognizes declaration Declaration)
    (rounds : Nat) {p : Parser} (hmode : p.mode = .normal) (hrounds : p.ahead.length ≤ rounds)
    (hnone : (p.declarations declaration rounds).2.errors = p.errors) :
    Declarations p.ahead [] (p.declarations declaration rounds).1 := by
  induction rounds generalizing p with
  | zero =>
      rw [List.eq_nil_of_length_eq_zero (Nat.le_zero.1 hrounds)]
      exact .nil
  | succ rounds ih =>
      cases hend : p.atEnd with
      | true =>
          rw [List.isEmpty_iff.1 hend]
          simpa [declarations, hend] using Declarations.nil
      | false =>
          have hloop : p.declarations declaration (rounds + 1) =
              ((p.round declaration).1.toList ++
                ((p.round declaration).2.declarations declaration rounds).1,
                ((p.round declaration).2.declarations declaration rounds).2) := by
            simp [declarations, hend]
          rw [hloop] at hnone ⊢
          -- Errors are never dropped, so the first round has added none either.
          have hround : (p.round declaration).2.errors = p.errors := by
            refine ((errors_round hsteady p).eq_of_length_le ?_).symm
            rw [← hnone]
            exact (errors_declarations hsteady rounds _).length_le
          obtain ⟨s, q, hresult, hq⟩ := ok_of_errors hsteady hmode (by
            rwa [round_eq, errors_recover] at hround)
          have hnext : p.round declaration = (some s, q) := by
            rw [round, hresult]
            exact congrArg (some s, ·) (recover_of_normal hq)
          obtain ⟨v, hv, hphrase⟩ := hdeclaration p s q hresult hq
          rw [hnext] at hnone hround ⊢
          obtain ⟨token, v, rfl, -⟩ := hphrase.head
          have hlength : q.ahead.length ≤ rounds := by
            rw [hv, List.cons_append, List.length_cons, List.length_append] at hrounds
            omega
          have hmore := ih hq hlength (hnone.trans hround.symm)
          rw [hv]
          refine .cons ?_ hmore
          rwa [List.append_nil]

end

theorem errors_of_runsOut {room rounds : Nat} {p : Parser}
    (h : RunsOut (declaration room) p.ahead) (hmode : p.mode = .normal) (hend : p.atEnd = false) :
    ∃ pos, p.errors ++ [⟨.tooDeep p.limit, pos, p.file⟩] <+:
      (p.declarations (declaration room) (rounds + 1)).2.errors := by
  obtain ⟨-, pos, herrors⟩ := h p rfl hmode
  refine ⟨pos, ?_⟩
  have hrest := errors_declarations (steady_declaration room) rounds
    (p.round (declaration room)).2
  rw [round_eq, errors_recover, herrors] at hrest
  simpa [declarations, hend, round_eq] using hrest

/--
A derivation takes so many levels to read: with room for them the loop yields its trees,
with less it reports first that there is no room.
-/
theorem declarations_of_room {w : List Token} {ss : List Stmt} (h : Declarations w [] ss) :
    ∃ depth, Measured w depth (Stmt.nestAll ss) (Stmt.parensAll ss) ∧
      ∀ {room rounds : Nat} {p : Parser}, p.ahead = w → p.mode = .normal → w.length ≤ rounds →
        (depth ≤ room → ∃ last, p.declarations (declaration room) rounds = (ss, last) ∧
          last.errors = p.errors) ∧
        (room < depth → ∃ pos, p.errors ++ [⟨.tooDeep p.limit, pos, p.file⟩] <+:
          (p.declarations (declaration room) rounds).2.errors) := by
  induction ss generalizing w with
  | nil =>
      cases h
      refine ⟨0, .none _, ?_⟩
      intro room rounds p hp hmode _
      refine ⟨fun _ => ⟨p, ?_, rfl⟩, nofun⟩
      cases rounds with
      | zero => rfl
      | succ rounds => simp [declarations, atEnd, hp]
  | cons s ss ih =>
      cases h with
      | @cons v w _ _ _ first more =>
          rw [List.append_nil] at first
          obtain ⟨j, hj, hfirst⟩ := reads_declaration v.length first (Nat.le_refl _)
          obtain ⟨k, hk, hmore⟩ := ih more
          refine ⟨max j k, hj.append hk, ?_⟩
          obtain ⟨token, v, rfl, -⟩ := first.head
          intro room rounds p hp hmode hrounds
          simp only [List.cons_append, List.length_cons, List.length_append] at hrounds
          obtain ⟨rounds, rfl⟩ := Nat.exists_eq_add_of_lt (show 0 < rounds by omega)
          rw [Nat.zero_add]
          have hrest := @hmore room rounds (p.read (token :: v) w) rfl hmode (by omega)
          have hread (hroom : j ≤ room) := declarations_of_takes (hfirst.takes room hroom)
            (by simp) hp hmode rounds
          constructor
          · intro hroom
            obtain ⟨last, hlast, herrors⟩ := hrest.1 (by omega)
            exact ⟨last, by rw [hread (by omega), hlast], herrors⟩
          · intro hroom
            by_cases hlow : room < j
            · refine errors_of_runsOut ?_ hmode (by simp [atEnd, hp])
              rw [hp]
              exact hfirst.runsOut room hlow
            · rw [hread (by omega)]
              exact hrest.2 (by omega)

end Parser

def Grammar.words (tokens : List Token) : List Token :=
  (tokens.filter (·.kind ≠ .comment)).takeWhile (·.kind ≠ .eof)

theorem Grammar.words_append {v : List Token} (w : List Token)
    (h : ∀ token ∈ v, token.kind ≠ .comment ∧ token.kind ≠ .eof) :
    words (v ++ w) = v ++ words w := by
  induction v with
  | nil => rfl
  | cons token v ih =>
      rw [List.forall_mem_cons] at h
      simpa [words, h.1] using ih h.2

theorem Grammar.words_eq_self {w : List Token}
    (h : ∀ token ∈ w, token.kind ≠ .comment ∧ token.kind ≠ .eof) : words w = w := by
  simpa [words] using words_append [] h

/-- Every opening parenthesis belongs to a call, a condition or a list of parameters of the
program: none of them groups. -/
def Grammar.Ungrouped (w : List Token) (program : Program) : Prop :=
  lparens w = program.parens

theorem parse_eq (tokens : List Token) (file : String) (limit : Nat) :
    parse tokens file limit =
      (let loop := (Parser.ofTokens tokens file limit).declarations (declaration limit)
        (words tokens).length
      if loop.2.errors = [] then .ok ⟨loop.1⟩ else .error loop.2.errors) := by
  change (if Parser.hadError _ then _ else _) = _
  simp only [Parser.hadError, Bool.not_eq_true', List.isEmpty_eq_false_iff, ne_eq, ite_not]
  rfl

theorem phrases_of_parse {tokens : List Token} {file : String} {limit : Nat} {program : Program}
    (h : parse tokens file limit = .ok program) :
    Declarations (words tokens) [] program.statements := by
  rw [parse_eq] at h
  dsimp only at h
  split at h
  · rename_i hnone
    cases h
    exact Parser.phrases_of_declarations (p := .ofTokens tokens file limit)
      (steady_declaration limit) (recognizes_declaration limit) _ rfl (Nat.le_refl _) hnone
  · cases h

theorem parse_of_phrases {tokens : List Token} {ss : List Stmt}
    (h : Declarations (words tokens) [] ss) (file : String) :
    ∃ depth, Measured (words tokens) depth (Stmt.nestAll ss) (Stmt.parensAll ss) ∧
      (∀ limit, depth ≤ limit → parse tokens file limit = .ok ⟨ss⟩) ∧
      (∀ limit, limit < depth →
        ∃ pos ds, parse tokens file limit = .error (⟨.tooDeep limit, pos, file⟩ :: ds)) := by
  obtain ⟨depth, hmeasured, hloop⟩ := Parser.declarations_of_room h
  refine ⟨depth, hmeasured, ?_, ?_⟩
  · intro limit hlimit
    obtain ⟨last, hlast, herrors⟩ := (hloop (p := .ofTokens tokens file limit) rfl rfl
      (Nat.le_refl _)).1 hlimit
    rw [parse_eq, hlast]
    exact if_pos herrors
  · intro limit hlimit
    obtain ⟨pos, ds, hfirst⟩ := (hloop (p := .ofTokens tokens file limit) rfl rfl
      (Nat.le_refl _)).2 hlimit
    refine ⟨pos, ds, ?_⟩
    rw [parse_eq]
    dsimp only
    rw [← hfirst]
    exact if_neg (by simp)

theorem nest_le_of_parse {tokens : List Token} {file : String} {limit : Nat} {program : Program}
    (h : parse tokens file limit = .ok program) : program.nest ≤ limit := by
  obtain ⟨depth, hmeasured, -, hbelow⟩ := parse_of_phrases (phrases_of_parse h) file
  refine Nat.le_trans hmeasured.nest_le (Nat.le_of_not_lt fun hlimit => ?_)
  obtain ⟨pos, ds, herror⟩ := hbelow limit hlimit
  rw [h] at herror
  cases herror

theorem parse_of_nest_le {tokens : List Token} {ss : List Stmt} {limit : Nat} (file : String)
    (h : Declarations (words tokens) [] ss) (hparens : Ungrouped (words tokens) ⟨ss⟩)
    (hnest : Stmt.nestAll ss ≤ limit) : parse tokens file limit = .ok ⟨ss⟩ := by
  obtain ⟨depth, hmeasured, hfrom, -⟩ := parse_of_phrases h file
  refine hfrom limit ?_
  rwa [hmeasured.depth_eq hparens.symm]

/--
What is accepted with some limit takes so many levels: every limit from there on gives the
same program, and every lower one is reported first.  These are at least the levels that the
tree takes, and no more than that if no parentheses group.
-/
theorem parse_threshold (tokens : List Token) (file : String) (limit : Nat) (program : Program)
    (h : parse tokens file limit = .ok program) :
    ∃ depth,
      (∀ limit, 1 ≤ limit → depth ≤ limit → parse tokens file limit = .ok program) ∧
      (∀ limit, 1 ≤ limit → limit < depth →
        ∃ d ds, parse tokens file limit = .error (d :: ds) ∧ d.cause = .tooDeep limit) ∧
      program.nest ≤ depth ∧
      (Ungrouped (words tokens) program → depth = program.nest) := by
  obtain ⟨depth, hmeasured, hfrom, hbelow⟩ := parse_of_phrases (phrases_of_parse h) file
  refine ⟨depth, fun limit _ hlimit => hfrom limit hlimit, ?_, hmeasured.nest_le,
    fun hparens => hmeasured.depth_eq hparens.symm⟩
  intro limit _ hlimit
  obtain ⟨pos, ds, herror⟩ := hbelow limit hlimit
  exact ⟨_, ds, herror, rfl⟩

/-- A block around a sum needs three levels, so two are not enough. -/
theorem parse_threshold_block :
    let tokens : List Token :=
      [(.lbrace, "\x7b"), (.ident, "a"), (.plus, "+"), (.ident, "b"), (.semicolon, ";"),
        (.rbrace, "\x7d")].map fun (kind, text) => ⟨kind, text, .start, ⟨"main", "."⟩⟩
    ∃ program, parse tokens "main" 8 = .ok program ∧ program.nest = 3 ∧
      parse tokens "main" 3 = .ok program ∧
      ∃ d ds, parse tokens "main" 2 = .error (d :: ds) ∧ d.cause = .tooDeep 2 := by
  intro tokens
  obtain ⟨program, hprogram, hnest, hparens⟩ : ∃ program, parse tokens "main" 8 = .ok program ∧
      program.nest = 3 ∧ Ungrouped (words tokens) program := ⟨_, rfl, rfl, rfl⟩
  obtain ⟨depth, hfrom, hbelow, -, hdepth⟩ := parse_threshold tokens "main" 8 program hprogram
  rw [hdepth hparens, hnest] at hfrom hbelow
  exact ⟨program, hprogram, hnest, hfrom 3 (by decide) (by decide),
    hbelow 2 (by decide) (by decide)⟩

end Pidgin
