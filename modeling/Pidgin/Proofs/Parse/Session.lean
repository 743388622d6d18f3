import Mathlib.Data.List.TakeWhile
import Pidgin.Proofs.Grammar.Limit
import Pidgin.Proofs.Parse.Levels

/-!
# Any use of a parser

The readers are meant to be called by one another, but nothing forces a caller to
respect that.  An operation is anything that can be asked of a session, readers of
single forms with made-up tokens included.  Whatever operations are carried out one
after another or inside one another, the parser stays on its tokens, remembers what
was reported, and comes back to the level it was on.
-/

namespace Pidgin

open Grammar Parse

/-! ## Operations -/

inductive Operation where
  | advance
  | accept (kind : Kind)
  | expect (kind : Kind) (expectation : String)
  | report (token : Token) (cause : Cause)
  | reportCurrent (cause : Cause)
  | synchronize
  | nested (inside : List Operation)
  | typeName (expectation : String)
  | annotated (expectation : String)
  | varDecl
  | fnDecl
  | block
  | branch
  | conditional
  | whileLoop
  | ret
  | exprStmt
  | statement
  | declaration
  | expression (power : Power)
  | opening (form : Opening) (token : Token)
  | continuation (form : Continuation) (left : Expr) (token : Token)

mutual

def Operation.run : Operation → Session → Session
  | .advance, s => s.after (.ofReader fun _ => Parse.advance)
  | .accept kind, s => s.after (.ofReader fun _ => Parse.accept kind)
  | .expect kind expectation, s => s.after (.ofReader fun _ => Parse.expect kind expectation)
  | .report token cause, s => s.after (.ofReader fun _ => Parse.report token cause)
  | .reportCurrent cause, s => s.after (.ofReader fun _ => Parse.report s.parser.current cause)
  | .synchronize, s => { s with parser := s.parser.synchronize }
  | .nested inside, s => s.after (.nested fun t => .ok () (Operation.runAll inside t))
  | .typeName expectation, s => s.after (.ofReader fun _ => Parse.typeName expectation)
  | .annotated expectation, s => s.after (.ofReader fun _ => annotation? expectation)
  | .varDecl, s => s.after (.ofReader fun room => Parse.varDecl (value room))
  | .fnDecl, s => s.after (.ofReader fun room => Parse.fnDecl (Parse.block room))
  | .block, s => s.after (.ofReader Parse.block)
  | .branch, s => s.after (.ofReader fun room => Parse.branch (value room) (Parse.statement room))
  | .conditional, s =>
      s.after (.ofReader fun room => Parse.conditional (value room) (Parse.statement room))
  | .whileLoop, s =>
      s.after (.ofReader fun room => Parse.whileLoop (value room) (Parse.statement room))
  | .ret, s => s.after (.ofReader fun room => Parse.ret (value room))
  | .exprStmt, s => s.after (.ofReader fun room => Parse.exprStmt (value room))
  | .statement, s => s.after (.ofReader Parse.statement)
  | .declaration, s => s.after (.ofReader Parse.declaration)
  | .expression power, s => s.after (.ofReader fun room => Parse.expression room power)
  | .opening form token, s =>
      s.after (.ofReader fun room => openingAs (Parse.expression room) form token)
  | .continuation form left token, s =>
      s.after (.ofReader fun room => Parse.continuation (Parse.expression room) form left token)

def Operation.runAll : List Operation → Session → Session
  | [], s => s
  | operation :: operations, s => Operation.runAll operations (operation.run s)

end

/-! ## What every operation keeps -/

/-- Wherever the limit is at most `n` levels away, the operation is a step that counts its levels
and always succeeds. -/
def Operation.Counted (n : Nat) (operation : Operation) : Prop :=
  Session.Step.Counted n fun s => .ok () (operation.run s)

open Session in
mutual

theorem Operation.counted : (operation : Operation) → (n : Nat) → operation.Counted n
  | .advance, _ => counted_advance.counted.quiet
  | .accept kind, _ => (counted_accept kind).counted.quiet
  | .expect kind expectation, _ => (counted_expect kind expectation).counted.quiet
  | .report token cause, _ => (counted_report token cause).counted.quiet
  | .reportCurrent cause, _ =>
      (counted_get.bind fun p => counted_report p.current cause).counted.quiet
  | .synchronize, _ => Step.Counting.synchronize.counted
  | .nested inside, _ => (Step.Counted.nested fun k _ => Operation.countedAll inside k).quiet
  | .typeName expectation, _ => (counted_typeName expectation).counted.quiet
  | .annotated expectation, _ => (counted_annotation? expectation).counted.quiet
  | .varDecl, n => (counted_varDecl (counted_value n)).counted.quiet
  | .fnDecl, n => (counted_fnDecl (counted_block n)).counted.quiet
  | .block, n => (counted_block n).counted.quiet
  | .branch, n => (counted_branch (counted_value n) (counted_statement n)).counted.quiet
  | .conditional, n => (counted_conditional (counted_value n) (counted_statement n)).counted.quiet
  | .whileLoop, n => (counted_whileLoop (counted_value n) (counted_statement n)).counted.quiet
  | .ret, n => (counted_ret (counted_value n)).counted.quiet
  | .exprStmt, n => (counted_exprStmt (counted_value n)).counted.quiet
  | .statement, n => (counted_statement n).counted.quiet
  | .declaration, n => (counted_declaration n).counted.quiet
  | .expression power, n => (counted_expression n power).counted.quiet
  | .opening form token, n => (counted_openingAs (counted_expression n) form token).counted.quiet
  | .continuation form left token, n =>
      (counted_continuation (counted_expression n) form left token).counted.quiet

theorem Operation.countedAll : (operations : List Operation) → (n : Nat) →
    Step.Counted n fun s => .ok () (Operation.runAll operations s)
  | [], _ => (Step.Counting.look fun _ => ()).counted
  | operation :: operations, n =>
      (Operation.counted operation n).bind fun _ => Operation.countedAll operations n

end

theorem Operation.keeps (operation : Operation) (s : Session) : s.Keeps (operation.run s) :=
  (operation.counted s.parser.limit).keeps

/-! ## The tokens a parser is made of -/

/-- All tokens but the comments, with an end mark behind them unless the last one is an end
mark. -/
def stream (tokens : List Token) (file : String) : List Token :=
  let words := tokens.filter (·.kind ≠ .comment)
  if words.getLast?.map Token.kind = some .eof then words
  else words ++ [Parser.endMark words file]

theorem words_prefix_stream (tokens : List Token) (file : String) :
    words tokens ++ [Parser.firstEnd (tokens.filter (·.kind ≠ .comment)) file] <+:
      stream tokens file := by
  unfold stream words Parser.firstEnd
  generalize tokens.filter (·.kind ≠ .comment) = words
  cases hfind : words.find? (·.kind = .eof) with
  | some mark =>
      obtain ⟨hmark, before, later, rfl, hbefore⟩ := List.find?_eq_some_iff_append.1 hfind
      have hall : (before ++ mark :: later).takeWhile (·.kind ≠ .eof) = before := by
        rw [List.takeWhile_append_of_pos (by simpa using hbefore)]
        simp_all
      have hprefix : before ++ [mark] <+: before ++ mark :: later := by simp
      dsimp only
      rw [hall]
      split
      · exact hprefix
      · exact hprefix.trans (List.prefix_append _ _)
  | none =>
      have hnone : ∀ token ∈ words, token.kind ≠ .eof := by simpa using hfind
      have hlast : words.getLast?.map Token.kind ≠ some .eof := by
        intro hlast
        obtain ⟨mark, hmark, hkind⟩ := Option.map_eq_some_iff.1 hlast
        exact hnone mark (List.mem_of_getLast? hmark) hkind
      have hall : words.takeWhile (·.kind ≠ .eof) = words :=
        List.takeWhile_eq_self_iff.2 fun token h => decide_eq_true (hnone token h)
      dsimp only
      rw [if_neg hlast, hall]
      exact List.prefix_refl _

/-! ## Sessions from the start -/

namespace Session

/-- What a session can become by operations, those inside a level included. -/
inductive Visits (start : Session) : Session → Prop where
  | start : Visits start start
  | run {s : Session} (before : Visits start s) (operation : Operation) :
      Visits start (operation.run s)
  | enter {s : Session} (before : Visits start s) (hlimit : s.depth < s.parser.limit) :
      Visits start { s with depth := s.depth + 1 }

structure Stems (start s : Session) : Prop where
  tokens : s.parser.tokens = start.parser.tokens
  stop : s.parser.stop = start.parser.stop
  file : s.parser.file = start.parser.file
  limit : s.parser.limit = start.parser.limit
  depth : s.depth ≤ s.parser.limit
  panics : s.parser.mode = .panicking → s.parser.errors ≠ []

/-- The session stands on a token of the stream, in front of which no end mark has been passed. -/
structure Sound (tokens : List Token) (file : String) (s : Session) : Prop where
  within : s.parser.cursor < (stream tokens file).length
  current : (stream tokens file)[s.parser.cursor]? = some s.parser.current
  previous : s.parser.previous? = ((stream tokens file).take s.parser.cursor).getLast?
  unended : ∀ token ∈ (stream tokens file).take s.parser.cursor, token.kind ≠ .eof

variable {start s : Session} {tokens : List Token} {file : String} {limit : Nat}

theorem Keeps.stems {t : Session} (hs : start.Stems s) (h : s.Keeps t) : start.Stems t where
  tokens := h.tokens.trans hs.tokens
  stop := h.stop.trans hs.stop
  file := h.file.trans hs.file
  limit := h.limit.trans hs.limit
  depth := by
    rw [h.depth, h.limit]
    exact hs.depth
  panics := h.panics hs.panics

theorem Visits.stems (hstart : start.Stems start) (h : start.Visits s) : start.Stems s := by
  induction h with
  | start => exact hstart
  | run before operation ih => exact (operation.keeps _).stems ih
  | enter before hlimit ih => exact ⟨ih.tokens, ih.stop, ih.file, ih.limit, hlimit, ih.panics⟩

theorem Stems.sound (h : (ofTokens tokens file limit).Stems s) : s.Sound tokens file := by
  have hprefix : s.parser.tokens ++ [s.parser.stop] <+: stream tokens file := by
    rw [h.tokens, h.stop]
    exact words_prefix_stream tokens file
  obtain ⟨rest, hrest⟩ := hprefix
  have hcurrent : (stream tokens file)[s.parser.cursor]? = some s.parser.current := by
    have hlength : s.parser.cursor < (s.parser.tokens ++ [s.parser.stop]).length := by
      rw [List.length_append, Parser.length_tokens, List.length_singleton]
      omega
    rw [← hrest, List.getElem?_append_left hlength]
    exact Parser.tokenAt?_cursor s.parser
  have hbehind : (stream tokens file).take s.parser.cursor = s.parser.behind.reverse := by
    rw [← hrest, Parser.tokens, List.append_assoc, List.append_assoc]
    exact List.take_left' List.length_reverse
  refine ⟨(List.getElem?_eq_some_iff.1 hcurrent).1, hcurrent, ?_, ?_⟩
  · rw [hbehind, List.getLast?_reverse]
    rfl
  · intro token htoken
    rw [hbehind] at htoken
    have hword : token ∈ words tokens := by
      rw [show words tokens = s.parser.tokens from h.tokens.symm, Parser.tokens]
      exact List.mem_append_left _ htoken
    simpa using List.mem_takeWhile_imp hword

end Session

/--
Whatever is asked of a parser and in whatever order, on any level that the limit allows: it
stands on one of its tokens and has passed no end mark, it panics only over something that was
reported, and the next operation moves it forward if at all, leaves tokens, file, limit and level
as they are, and only adds to what was reported.  Inside the operation the levels are counted one
by one and never pass the limit.
-/
theorem session_invariant (tokens : List Token) (file : String) (limit : Nat) (s : Session)
    (h : (Session.ofTokens tokens file limit).Visits s) :
    s.Sound tokens file ∧ (Session.ofTokens tokens file limit).Stems s ∧
      (∀ operation : Operation, s.Keeps (operation.run s) ∧ operation.Counted limit) ∧
      s.Counts := by
  have hstart : (Session.ofTokens tokens file limit).Stems (.ofTokens tokens file limit) :=
    ⟨rfl, rfl, rfl, rfl, Nat.zero_le _, nofun⟩
  have hstems := h.stems hstart
  exact ⟨hstems.sound, hstems, fun operation => ⟨operation.keeps s, operation.counted limit⟩,
    s.counts⟩

/-- Inside a level, after a declaration without a name, an operator read as a literal and an
operand asked for at the end mark, the parser stands on that mark and has reported two faults. -/
theorem session_invariant_misused :
    let tokens : List Token :=
      [(.abeg, "abeg"), (.integer, "1"), (.eof, ""), (.semicolon, ";")].map
        fun (kind, text) => ⟨kind, text, .start, ⟨"main", "."⟩⟩
    let start := Session.ofTokens tokens "main" 2
    let opened := Operation.runAll [.declaration, .nested [.advance, .synchronize]] start
    let s := Operation.runAll [.opening .literal ⟨.plus, "+", .start, ⟨"main", "."⟩⟩,
      .expression .none] { opened with depth := opened.depth + 1 }
    s.parser.cursor = 2 ∧ s.parser.errors.length = 2 ∧ s.parser.mode = .panicking ∧
      s.depth = 1 ∧ start.Visits s ∧ s.Sound tokens "main" := by
  intro tokens start opened s
  have hopened : start.Visits opened :=
    .run (.run .start .declaration) (.nested [.advance, .synchronize])
  have hvisits : start.Visits s :=
    .run (.run (.enter hopened (by decide)) (.opening .literal ⟨.plus, "+", .start, ⟨"main", "."⟩⟩))
      (.expression .none)
  exact ⟨by decide, by decide, by decide, by decide, hvisits,
    (session_invariant tokens "main" 2 s hvisits).1⟩

end Pidgin
