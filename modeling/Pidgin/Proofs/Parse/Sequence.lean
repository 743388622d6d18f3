import Pidgin.Proofs.Parse.Mirror

/-!
# One text behind another

A parser that has come to the end of one text and goes on with another reads the
second text as if it stood alone: what lies behind it and what was reported
before do not matter.  Up to there it reads the first text as if nothing followed,
provided that no statement looks for more where the first text ends.

Together these give what is made of two texts from what is made of each.
-/

namespace Pidgin

open Grammar Parse

/-! ## Outcomes -/

def reported : Except (List Diagnostic) Program → List Diagnostic
  | .ok _ => []
  | .error errors => errors

/-- The outcome for two texts that have nothing to do with each other. -/
def joined : Except (List Diagnostic) Program → Except (List Diagnostic) Program →
    Except (List Diagnostic) Program
  | .ok program, .ok program' => .ok ⟨program.statements ++ program'.statements⟩
  | outcome, outcome' => .error (reported outcome ++ reported outcome')

theorem reported_joined (outcome outcome' : Except (List Diagnostic) Program) :
    reported (joined outcome outcome') = reported outcome ++ reported outcome' := by
  cases outcome <;> cases outcome' <;> rfl

namespace Parser

variable {p q next : Parser}

/-! ## Runs, round by round -/

section

variable {declaration : Parse Stmt}

theorem declarations_of_goes (h : p.atEnd = false) (rounds : Nat) :
    p.declarations declaration (rounds + 1) =
      ((p.round declaration).1.toList ++
          ((p.round declaration).2.declarations declaration rounds).1,
        ((p.round declaration).2.declarations declaration rounds).2) := by
  simp [declarations, h]

theorem declarations_of_atEnd (h : p.atEnd = true) (rounds : Nat) :
    p.declarations declaration rounds = ([], p) := by
  cases rounds <;> simp [declarations, h]

theorem declarations_settle (hdeclaration : Eager declaration) {rounds rounds' : Nat}
    (h : p.ahead.length ≤ rounds) (h' : p.ahead.length ≤ rounds') :
    p.declarations declaration rounds = p.declarations declaration rounds' := by
  induction rounds generalizing p rounds' with
  | zero =>
      have hend : p.atEnd = true := by simpa [atEnd] using h
      rw [declarations_of_atEnd hend, declarations_of_atEnd hend]
  | succ rounds ih =>
      cases hend : p.atEnd with
      | true => rw [declarations_of_atEnd hend, declarations_of_atEnd hend]
      | false =>
          have hahead : p.ahead ≠ [] := by simpa [atEnd] using hend
          have hless := length_ahead_round hdeclaration hahead
          obtain ⟨more, rfl⟩ := Nat.exists_eq_add_of_lt (show 0 < rounds' by omega)
          rw [Nat.zero_add, declarations_of_goes hend, declarations_of_goes hend,
            ih (by omega) (show _ ≤ more by omega)]

end

theorem limit_recover (p : Parser) : p.recover.limit = p.limit := by
  unfold recover
  split <;> rfl

theorem limit_round (room : Nat) (p : Parser) :
    (p.round (declaration room)).2.limit = p.limit := by
  rw [round_eq, limit_recover]
  exact ((steady_declaration room).loose.drifts p).limit_eq

theorem run_of_atEnd (h : p.atEnd = true) : p.run = ([], p) := by
  have hlength : p.ahead.length = 0 := by simpa [atEnd] using h
  rw [run, hlength]
  rfl

theorem run_of_goes (hlimit : 1 ≤ p.limit) (h : p.atEnd = false) :
    p.run = ((p.round (declaration p.limit)).1.toList ++ (p.round (declaration p.limit)).2.run.1,
      (p.round (declaration p.limit)).2.run.2) := by
  obtain ⟨room, hroom⟩ := Nat.exists_eq_add_of_le' hlimit
  have heager := hroom ▸ eager_declaration room
  have hless := length_ahead_round heager (show p.ahead ≠ [] by simpa [atEnd] using h)
  have hmore : p.run = p.declarations (declaration p.limit) (p.ahead.length + 1) :=
    declarations_settle heager (Nat.le_refl _) (Nat.le_succ _)
  have hrest : (p.round (declaration p.limit)).2.run =
      (p.round (declaration p.limit)).2.declarations (declaration p.limit) p.ahead.length := by
    rw [run, limit_round]
    exact declarations_settle heager (Nat.le_refl _) (Nat.le_of_lt hless)
  rw [hmore, declarations_of_goes h, hrest]

structure Finished (p last : Parser) : Prop where
  ahead : last.ahead = []
  mode : last.mode = .normal
  file : last.file = p.file
  limit : last.limit = p.limit

theorem finished_run (hlimit : 1 ≤ p.limit) (hmode : p.mode = .normal) : p.Finished p.run.2 := by
  induction hlength : p.ahead.length using Nat.strong_induction_on generalizing p with
  | h length ih =>
      cases hend : p.atEnd with
      | true =>
          rw [run_of_atEnd hend]
          exact ⟨List.isEmpty_iff.1 hend, hmode, rfl, rfl⟩
      | false =>
          obtain ⟨room, hroom⟩ := Nat.exists_eq_add_of_le' hlimit
          have hless := length_ahead_round (hroom ▸ eager_declaration room)
            (show p.ahead ≠ [] by simpa [atEnd] using hend)
          have hfile : (p.round (declaration p.limit)).2.file = p.file := by
            rw [round_eq, file_recover]
            exact ((steady_declaration _).loose.drifts p).file_eq
          have hrest := ih _ (hlength ▸ hless) (by rwa [limit_round])
            (by rw [round_eq]; exact mode_recover _) rfl
          rw [run_of_goes hlimit hend]
          exact ⟨hrest.ahead, hrest.mode, hrest.file.trans hfile,
            hrest.limit.trans (limit_round _ p)⟩

/-! ## Behind another text -/

def resume (q : Parser) (base : List Token) (olds : List Diagnostic) : Parser :=
  { q with behind := q.behind ++ base, errors := olds ++ q.errors }

section

variable (base : List Token) (olds : List Diagnostic)

theorem shift_resume (q : Parser) : (q.resume base olds).shift = q.shift.resume base olds := by
  cases hahead : q.ahead <;> simp [shift, resume, hahead]

theorem record_resume (q : Parser) (d : Diagnostic) :
    (q.resume base olds).record d = (q.record d).resume base olds := by
  cases hmode : q.mode <;> simp [record, resume, hmode]

/-- What is behind counts only as far as the last token, to see if that is a semicolon. -/
theorem seek_append_behind {behind : List Token} (hbehind : behind ≠ []) (base ahead : List Token) :
    seek (behind ++ base) ahead = ((seek behind ahead).1 ++ base, (seek behind ahead).2) := by
  induction ahead generalizing behind with
  | nil => rfl
  | cons token ahead ih =>
      rw [seek, seek, List.head?_append_of_ne_nil _ hbehind]
      split
      · rfl
      · exact ih (List.cons_ne_nil token behind)

theorem recover_resume (hbehind : q.behind ≠ []) :
    (q.resume base olds).recover = q.recover.resume base olds := by
  unfold recover
  cases hmode : q.mode with
  | normal => simp [resume, hmode]
  | panicking => simp [resume, hmode, synchronize, seek_append_behind hbehind]

theorem diagnose_of_seen {token token' : Token} (h : token.seen id = token'.seen id)
    (hfile : p.file = q.file) (cause : Cause) :
    p.diagnose token cause = q.diagnose token' cause := by
  have hcause := cause_diagnose h cause p q
  have hpos : token.pos = token'.pos := Token.pos_of_seen h
  simp_all [diagnose]

theorem twins_resume : Twins id base.length fun p q => p = q.resume base olds where
  cursor_eq h := by simp [h, resume, cursor]
  seen_current h := by simp [h, resume, current]
  atEnd_eq h := by simp [h, resume, atEnd]
  limit_eq h := by simp [h, resume]
  shift h := by rw [h, shift_resume]
  record h hseen := by
    rw [h, record_resume, diagnose_of_seen hseen]
    rfl

theorem run_resume (hlimit : 1 ≤ q.limit) :
    (q.resume base olds).run = (q.run.1, q.run.2.resume base olds) := by
  obtain ⟨room, hroom⟩ := Nat.exists_eq_add_of_le' hlimit
  have hround {p q : Parser} (h : p = q.resume base olds) (hend : q.atEnd = false) :
      (p.round (declaration (room + 1))).2 =
        (q.round (declaration (room + 1))).2.resume base olds := by
    have hmoved := (eager_declaration room).advances q (by simpa [atEnd] using hend)
    have hbehind : (parserOf (declaration (room + 1) q)).behind ≠ [] := by
      rw [← List.length_pos_iff]
      exact Nat.lt_of_le_of_lt (Nat.zero_le _) hmoved
    rw [round_eq, round_eq, ← recover_resume base olds hbehind]
    exact congrArg recover ((twins_resume base olds).turn (room + 1) h).2
  have hrun := (twins_resume base olds).declarations hround q.ahead.length (q := q) rfl
  rw [funext Stmt.relocate_id, List.map_id', List.map_id', ← hroom] at hrun
  exact Prod.ext hrun.1 hrun.2

end

/-! ## In front of another text -/

def followedBy (q next : Parser) : Parser :=
  { q with ahead := q.ahead ++ next.ahead, stop := next.stop, stop_eof := next.stop_eof }

theorem shift_followedBy (h : q.ahead ≠ []) :
    (q.followedBy next).shift = q.shift.followedBy next := by
  obtain ⟨token, rest, hahead⟩ := List.exists_cons_of_ne_nil h
  simp [shift, followedBy, hahead]

theorem record_followedBy (d : Diagnostic) :
    (q.followedBy next).record d = (q.record d).followedBy next := by
  cases hmode : q.mode <;> simp [record, followedBy, hmode]

theorem current_followedBy (h : q.ahead ≠ []) : (q.followedBy next).current = q.current := by
  obtain ⟨token, rest, hahead⟩ := List.exists_cons_of_ne_nil h
  simp [current, followedBy, hahead]

theorem atEnd_followedBy (h : q.ahead ≠ []) : (q.followedBy next).atEnd = q.atEnd := by
  obtain ⟨token, rest, hahead⟩ := List.exists_cons_of_ne_nil h
  simp [atEnd, followedBy, hahead]

/--
What it takes for a parser to read its own tokens, which `fit`, as if the tokens of `next` did
not follow: no statement that can be relied on ends with a token that is not read, and where a
statement may have statements inside it, none of them goes on with the first token that follows.
-/
structure Leading (next : Parser) (fit : List Token → Prop) (live clean : Parser → Prop)
    (composite : Prop) : Prop where
  goes_on {q : Parser} (hfit : fit q.tokens) (hahead : q.ahead ≠ [])
    (hkind : q.current.kind ≠ .semicolon) (hlive : live q.shift) : q.shift.ahead ≠ []
  live_of_drifts {q r : Parser} (h : q.Drifts r) (hlive : live r) : live q
  clean_of_drifts {q r : Parser} (h : q.Drifts r) (hclean : clean r) : clean q
  clean_of_live {q : Parser} (h : live q) : clean q
  live_of_clean {q : Parser} (h : clean q) (hgoes : q.ahead ≠ [] ∨ q.mode = .panicking) : live q
  composite_of_fit {q : Parser} (hfit : fit q.tokens) (hahead : q.ahead ≠ [])
    (hkind : q.current.kind = .lbrace ∨ q.current.kind = .abi) : composite
  ahead_of_live (hcomposite : composite) {q : Parser} (hlive : live q) : q.ahead ≠ []
  naso (hcomposite : composite) : next.check .naso = false

namespace Leading

variable {fit : List Token → Prop} {live clean : Parser → Prop} {composite : Prop}

def lockstep (h : Leading next fit live clean composite) : Lockstep where
  view := id
  offset := 0
  near p q := (p = q.followedBy next ∧ fit q.tokens) ∧ q.ahead ≠ []
  past p q := p = q.followedBy next ∧ fit q.tokens
  live := live
  clean := clean
  composite := composite
  past_of_near hpq := hpq.1
  cursor_eq hpq := by
    rw [hpq.1]
    rfl
  seen_current hpq := by rw [hpq.1.1, current_followedBy hpq.2]
  atEnd_eq hpq := by rw [hpq.1.1, atEnd_followedBy hpq.2]
  limit_eq hpq := by
    rw [hpq.1.1]
    rfl
  near_shift hpq hkind hlive :=
    ⟨⟨by rw [hpq.1.1, shift_followedBy hpq.2], by simpa using hpq.1.2⟩,
      h.goes_on hpq.1.2 hpq.2 hkind hlive⟩
  past_shift hpq _ := ⟨by rw [hpq.1.1, shift_followedBy hpq.2], by simpa using hpq.1.2⟩
  near_record {p q _ _ _} hpq hseen _ := by
    refine ⟨⟨?_, by simpa using hpq.1.2⟩, by simpa using hpq.2⟩
    rw [hpq.1.1, record_followedBy, diagnose_of_seen hseen]
    rfl
  past_record hpq hseen _ := by
    refine ⟨?_, by simpa using hpq.2⟩
    rw [hpq.1, record_followedBy, diagnose_of_seen hseen]
    rfl
  live_of_drifts := h.live_of_drifts
  clean_of_drifts := h.clean_of_drifts
  clean_of_live := h.clean_of_live
  live_of_clean := h.live_of_clean
  composite_of_near hpq hkind := h.composite_of_fit hpq.1.2 hpq.2 hkind
  near_of_past hcomposite _ _ hpq hlive := ⟨hpq, h.ahead_of_live hcomposite hlive⟩
  check_naso hcomposite p q hpq := by
    have hnaso := h.naso hcomposite
    rw [hpq.1]
    cases hahead : q.ahead with
    | nil => simpa [followedBy, check, hahead] using hnaso
    | cons token rest => simp [followedBy, check, hahead]

theorem turn (h : Leading next fit live clean composite) (room : Nat) (hfit : fit q.tokens)
    (hahead : q.ahead ≠ []) (hclean : clean (parserOf (declaration room q))) :
    Turn.item? ⟨q.followedBy next, declaration room (q.followedBy next)⟩ =
        Turn.item? ⟨q, declaration room q⟩ ∧
      parserOf (declaration room (q.followedBy next)) =
        (parserOf (declaration room q)).followedBy next := by
  have hturn := ((Lockstep.agrees_declaration (L := h.lockstep) room).agree
    ⟨⟨rfl, hfit⟩, hahead⟩ hclean).turn (p := q.followedBy next) (q := q)
  have hitem := hturn.1
  rw [show h.lockstep.view = id from rfl, funext Stmt.relocate_id, Option.map_id'] at hitem
  exact ⟨by simpa only [Option.map_id'] using hitem, hturn.2.1⟩

end Leading

theorem run_followedBy (kept : Parser → Prop) (hlimit : 1 ≤ q.limit) (hkept : kept q)
    (hround : ∀ {q : Parser}, kept q → 1 ≤ q.limit → q.atEnd = false →
      (q.followedBy next).round (declaration q.limit) =
          ((q.round (declaration q.limit)).1,
            (q.round (declaration q.limit)).2.followedBy next) ∧
        kept (q.round (declaration q.limit)).2) :
    (q.followedBy next).run =
      (q.run.1 ++ (q.run.2.followedBy next).run.1, (q.run.2.followedBy next).run.2) := by
  induction hlength : q.ahead.length using Nat.strong_induction_on generalizing q with
  | h length ih =>
      cases hend : q.atEnd with
      | true => simp [run_of_atEnd hend]
      | false =>
          obtain ⟨room, hroom⟩ := Nat.exists_eq_add_of_le' hlimit
          have hahead : q.ahead ≠ [] := by simpa [atEnd] using hend
          have hless := length_ahead_round (hroom ▸ eager_declaration room) hahead
          obtain ⟨hsame, hnext⟩ := hround hkept hlimit hend
          have hrest := ih _ (hlength ▸ hless) (by rwa [limit_round]) hnext rfl
          have hgoes : (q.followedBy next).run =
              ((q.round (declaration q.limit)).1.toList ++
                ((q.round (declaration q.limit)).2.followedBy next).run.1,
                ((q.round (declaration q.limit)).2.followedBy next).run.2) := by
            have := run_of_goes (p := q.followedBy next) hlimit
              (by rw [atEnd_followedBy hahead, hend])
            rwa [show (q.followedBy next).limit = q.limit from rfl, hsame] at this
          rw [hgoes, hrest, run_of_goes hlimit hend, List.append_assoc]

/-! ## Two texts -/

theorem followedBy_of_finished {start last : Parser} (h : start.Finished last)
    (tokens : List Token) :
    last.followedBy (ofTokens tokens start.file start.limit) =
      (ofTokens tokens start.file start.limit).resume last.behind last.errors := by
  obtain ⟨hahead, hmode, hfile, hlimit⟩ := h
  simp [followedBy, resume, ofTokens, hahead, hmode, hfile, hlimit]

theorem firstEnd_append {tokens tokens' : List Token} (file : String)
    (heof : ∀ token ∈ tokens, token.kind ≠ .eof) (h : tokens' ≠ []) :
    firstEnd (tokens ++ tokens') file = firstEnd tokens' file := by
  have hnone : tokens.find? (·.kind = .eof) = none := by simpa using heof
  simp [firstEnd, endMark, hnone, List.getLast?_append_of_ne_nil _ h]

theorem ofTokens_append {tokens tokens' : List Token} (file : String) (limit : Nat)
    (heof : ∀ token ∈ tokens, token.kind ≠ .eof)
    (hwords : tokens'.filter (·.kind ≠ .comment) ≠ []) :
    ofTokens (tokens ++ tokens') file limit =
      (ofTokens tokens file limit).followedBy (ofTokens tokens' file limit) := by
  have heof' : ∀ token ∈ tokens.filter (·.kind ≠ .comment), token.kind ≠ .eof :=
    fun token h => heof token (List.mem_of_mem_filter h)
  have hall : (tokens.filter (·.kind ≠ .comment)).takeWhile (·.kind ≠ .eof) =
      tokens.filter (·.kind ≠ .comment) :=
    List.takeWhile_eq_self_iff.2 fun token h => decide_eq_true (heof' token h)
  have hahead : (tokens.filter (·.kind ≠ .comment) ++ tokens'.filter (·.kind ≠ .comment)).takeWhile
      (·.kind ≠ .eof) = tokens.filter (·.kind ≠ .comment) ++ words tokens' :=
    List.takeWhile_append_of_pos fun token h => decide_eq_true (heof' token h)
  simp only [ofTokens, followedBy, List.filter_append, hahead, hall, words,
    firstEnd_append file heof' hwords]

theorem ofTokens_append_of_comments {tokens tokens' : List Token} (file : String) (limit : Nat)
    (hwords : tokens'.filter (·.kind ≠ .comment) = []) :
    ofTokens (tokens ++ tokens') file limit = ofTokens tokens file limit := by
  simp only [ofTokens, List.filter_append, hwords, List.append_nil]

end Parser

theorem parse_eq_run (tokens : List Token) (file : String) (limit : Nat) :
    parse tokens file limit =
      if (Parser.ofTokens tokens file limit).run.2.errors = [] then
        .ok ⟨(Parser.ofTokens tokens file limit).run.1⟩
      else .error (Parser.ofTokens tokens file limit).run.2.errors :=
  parse_eq tokens file limit

theorem parse_of_comments {tokens : List Token} (h : tokens.filter (·.kind ≠ .comment) = [])
    (file : String) (limit : Nat) : parse tokens file limit = .ok ⟨[]⟩ := by
  have hend : (Parser.ofTokens tokens file limit).atEnd = true := by
    simp only [Parser.atEnd, Parser.ofTokens, h]
    rfl
  rw [parse_eq_run, Parser.run_of_atEnd hend]
  exact if_pos rfl

theorem parse_append {tokens tokens' : List Token} {file : String} {limit : Nat}
    (hlimit : 1 ≤ limit) (heof : ∀ token ∈ tokens, token.kind ≠ .eof)
    (hrun : let p := Parser.ofTokens tokens file limit
      let next := Parser.ofTokens tokens' file limit
      (p.followedBy next).run =
        (p.run.1 ++ (p.run.2.followedBy next).run.1, (p.run.2.followedBy next).run.2)) :
    parse (tokens ++ tokens') file limit =
      joined (parse tokens file limit) (parse tokens' file limit) := by
  by_cases hwords : tokens'.filter (·.kind ≠ .comment) = []
  · rw [parse_of_comments hwords, parse_eq_run, parse_eq_run,
      Parser.ofTokens_append_of_comments _ _ hwords]
    split <;> simp [joined, reported]
  · have hlast := Parser.finished_run (p := .ofTokens tokens file limit) hlimit rfl
    have hnext := Parser.followedBy_of_finished hlast tokens'
    have hresume := Parser.run_resume (q := .ofTokens tokens' file limit)
      (Parser.ofTokens tokens file limit).run.2.behind
      (Parser.ofTokens tokens file limit).run.2.errors hlimit
    dsimp only at hrun
    rw [show (Parser.ofTokens tokens file limit).file = file from rfl,
      show (Parser.ofTokens tokens file limit).limit = limit from rfl] at hnext
    rw [hnext, hresume] at hrun
    rw [parse_eq_run, parse_eq_run, parse_eq_run, Parser.ofTokens_append _ _ heof hwords, hrun]
    simp only [Parser.resume, List.append_eq_nil_iff]
    split <;> split <;> split <;> simp_all [joined, reported]

end Pidgin
