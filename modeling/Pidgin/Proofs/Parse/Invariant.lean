import Pidgin.Proofs.Parse.Recovery

/-!
# What every reader keeps

A property of parsers is closed if it survives a step over a token and a report
that is true of a token met on the way.  No reader does anything else, so every
reader keeps every closed property; this is proved once, form by form, and any
particular property only has to be shown closed.

What is reported is always true of the token it is reported at: an expression is
missed where none can open, a bad target is an equals sign, a malformed number
does not read as one.
-/

namespace Pidgin

open Parse

inductive Cause.TrueOf (limit : Nat) (token : Token) : Cause → Prop where
  | expectedExpression (hrule : (Rule.ofKind token.kind).opening? = none) :
      TrueOf limit token (.expectedExpression token.describe)
  | unexpectedToken (expectation : String) :
      TrueOf limit token (.unexpectedToken token.describe expectation)
  | invalidTarget (hkind : token.kind = .assign) : TrueOf limit token .invalidTarget
  | malformedInteger (hkind : token.kind = .integer)
      (hread : Numeral.readInt? token.text = none) :
      TrueOf limit token (.malformedNumber token.text)
  | malformedFloat (hkind : token.kind = .float)
      (hread : Numeral.readFloat? token.text = none) :
      TrueOf limit token (.malformedNumber token.text)
  | tooDeep : TrueOf limit token (.tooDeep limit)

namespace Parser

/-- A parser with the property has stood in front of the token. -/
def Met (I : Parser → Prop) (token : Token) : Prop := ∃ p, I p ∧ p.current = token

structure Closed (I : Parser → Prop) : Prop where
  shift {p : Parser} (hp : I p) : I p.shift
  report {p : Parser} {token : Token} {cause : Cause} (hp : I p) (met : Met I token)
    (htrue : cause.TrueOf p.limit token) : I (p.record (p.diagnose token cause))

end Parser

namespace Parse

open Pidgin.Parser

variable {α β : Type} {I : Parser → Prop}

def Keeps (I : Parser → Prop) (m : Parse α) : Prop := ∀ p, I p → I (parserOf (m p))

/-! ## Composition -/

theorem keeps_pure (a : α) : Keeps I (pure a : Parse α) := fun _ hp => hp

theorem keeps_check (kind : Kind) : Keeps I (check kind) := fun _ hp => hp

section

variable {m : Parse α} {f : α → Parse β}

theorem Keeps.bind (hm : Keeps I m) (hf : ∀ a, Keeps I (f a)) : Keeps I (m >>= f) := by
  intro p hp
  have hq := hm p hp
  cases h : m p with
  | ok a q =>
      rw [h] at hq
      rw [bind_of_ok h]
      exact hf a q hq
  | error d q =>
      rw [h] at hq
      rwa [bind_of_error h]

theorem Keeps.map (hm : Keeps I m) (g : α → β) : Keeps I (g <$> m) := by
  rw [← bind_pure_comp]
  exact hm.bind fun a => keeps_pure (g a)

theorem keeps_bounded {loop : Nat → Parse α} (h : ∀ rounds, Keeps I (loop rounds)) :
    Keeps I (bounded loop) :=
  fun p => h p.ahead.length p

end

variable (hI : Closed I)

include hI

theorem keeps_advance_bind {f : Token → Parse β} (hf : ∀ token, Met I token → Keeps I (f token)) :
    Keeps I (advance >>= f) :=
  fun p hp => hf p.current ⟨p, hp, rfl⟩ p.shift (hI.shift hp)

theorem keeps_advance : Keeps I advance := fun _ hp => hI.shift hp

theorem keeps_accept (kind : Kind) : Keeps I (accept kind) := by
  refine (keeps_check kind).bind fun found => ?_
  cases found with
  | true => exact (keeps_advance hI).bind fun _ => keeps_pure true
  | false => exact keeps_pure false

theorem keeps_fail {token : Token} {cause : Cause} (met : Met I token)
    (htrue : ∀ limit, cause.TrueOf limit token) : Keeps I (fail token cause : Parse α) := by
  intro p hp
  rw [fail_eq]
  exact hI.report hp met (htrue _)

theorem keeps_expect (kind : Kind) (expectation : String) : Keeps I (expect kind expectation) := by
  intro p hp
  rw [expect_eq]
  split
  · exact hI.shift hp
  · exact keeps_fail hI ⟨p, hp, rfl⟩ (fun _ => .unexpectedToken expectation) p hp

theorem keeps_tooDeep : Keeps I (tooDeep : Parse α) :=
  fun p hp => hI.report hp ⟨p, hp, rfl⟩ .tooDeep

theorem keeps_commaList {item : Parse α} (h : Keeps I item) (rounds : Nat) :
    Keeps I (commaList item rounds) := by
  induction rounds with
  | zero => exact h.bind fun first => keeps_pure [first]
  | succ rounds ih =>
      refine h.bind fun first => (keeps_accept hI .comma).bind fun found => ?_
      cases found with
      | true => exact ih.bind fun more => keeps_pure (first :: more)
      | false => exact keeps_pure [first]

theorem keeps_listUpTo {item : Parse α} (close : Kind) (expectation : String)
    (h : Keeps I item) : Keeps I (listUpTo close expectation item) := by
  have hclose (items : List α) := (keeps_expect hI close expectation).bind fun _ => keeps_pure items
  refine (keeps_check close).bind fun found => ?_
  cases found with
  | true => exact (keeps_pure []).bind hclose
  | false => exact (keeps_bounded (keeps_commaList hI h)).bind hclose

/-! ## Expressions -/

theorem keeps_literal {token : Token} (met : Met I token)
    (hrule : (Rule.ofKind token.kind).opening? = some .literal) : Keeps I (literal token) := by
  unfold literal
  cases hvalue : Literal.ofToken token with
  | ok value => exact keeps_pure _
  | error cause =>
      refine keeps_fail hI met fun limit => ?_
      unfold Literal.ofToken at hvalue
      split at hvalue <;> rename_i hkind
      · split at hvalue <;> cases hvalue
        exact .malformedInteger hkind ‹_›
      · split at hvalue <;> cases hvalue
        exact .malformedFloat hkind ‹_›
      · cases hvalue
      · cases hvalue
      · cases hvalue
      · revert hrule
        cases h : token.kind <;> simp_all [Rule.ofKind, Rule.absent, Rule.opens, Rule.joins]

section

variable {operand : Power → Parse Expr} (hoperand : ∀ power, Keeps I (operand power))

include hoperand

theorem keeps_opening {token : Token} (met : Met I token) : Keeps I (opening operand token) := by
  unfold opening
  cases hrule : (Rule.ofKind token.kind).opening? with
  | none => exact keeps_fail hI met fun _ => .expectedExpression hrule
  | some form =>
      cases form with
      | literal => exact keeps_literal hI met hrule
      | var => exact keeps_pure _
      | unary => exact (hoperand _).bind fun _ => keeps_pure _
      | grouping =>
          exact (hoperand _).bind fun _ => (keeps_expect hI _ _).bind fun _ => keeps_pure _
      | array => exact (keeps_listUpTo hI _ _ (hoperand _)).bind fun _ => keeps_pure _

theorem keeps_assignment {token : Token} (met : Met I token) (hkind : token.kind = .assign)
    (target : Expr) : Keeps I (assignment operand target token) := by
  unfold assignment
  split
  · exact (hoperand _).bind fun _ => keeps_pure _
  · intro p hp
    exact hI.report hp met (.invalidTarget hkind)

theorem keeps_continuation {token : Token} (met : Met I token) {form : Continuation}
    (hrule : (Rule.ofKind token.kind).continuation? = some form) (left : Expr) :
    Keeps I (continuation operand form left token) := by
  cases form with
  | binary => exact (hoperand _).bind fun _ => keeps_pure _
  | call => exact (keeps_listUpTo hI _ _ (hoperand _)).bind fun _ => keeps_pure _
  | index => exact (hoperand _).bind fun _ => (keeps_expect hI _ _).bind fun _ => keeps_pure _
  | assignment =>
      refine keeps_assignment hI hoperand met ?_ left
      revert hrule
      cases token.kind <;> decide

theorem keeps_climb (power : Power) (rounds : Nat) (left : Expr) :
    Keeps I (climb operand power rounds left) := by
  induction rounds generalizing left with
  | zero => exact keeps_pure left
  | succ rounds ih =>
      intro p hp
      change I (parserOf ((if power ≤ p.current.kind.power then _ else _ : Parse Expr) p))
      split
      · refine keeps_advance_bind hI (fun token met => ?_) p hp
        cases hrule : (Rule.ofKind token.kind).continuation? with
        | none => exact keeps_pure left
        | some form => exact (keeps_continuation hI hoperand met hrule left).bind ih
      · exact hp

theorem keeps_operation (power : Power) : Keeps I (operation operand power) :=
  keeps_advance_bind hI fun _ met => (keeps_opening hI hoperand met).bind fun left =>
    keeps_bounded fun rounds => keeps_climb hI hoperand power rounds left

end

theorem keeps_expression (room : Nat) (power : Power) : Keeps I (expression room power) := by
  induction room generalizing power with
  | zero => exact keeps_tooDeep hI
  | succ room ih => exact keeps_operation hI ih power

theorem keeps_value (room : Nat) : Keeps I (value room) := keeps_expression hI room .assignment

/-! ## Declarations and statements -/

theorem keeps_typeName (expectation : String) : Keeps I (typeName expectation) :=
  (keeps_expect hI _ _).bind fun _ => keeps_pure _

theorem keeps_annotation? (expectation : String) : Keeps I (annotation? expectation) := by
  refine (keeps_accept hI .colon).bind fun found => ?_
  cases found with
  | true => exact (keeps_typeName hI expectation).bind fun _ => keeps_pure _
  | false => exact keeps_pure none

theorem keeps_param : Keeps I param :=
  (keeps_expect hI _ _).bind fun _ => (keeps_expect hI _ _).bind fun _ =>
    (keeps_typeName hI _).bind fun _ => keeps_pure _

section

variable {value : Parse Expr} {block : Parse Block} {statement declaration : Parse Stmt}

theorem keeps_initializer? (hvalue : Keeps I value) : Keeps I (initializer? value) := by
  refine (keeps_accept hI .assign).bind fun found => ?_
  cases found with
  | true => exact hvalue.bind fun _ => keeps_pure _
  | false => exact keeps_pure none

theorem keeps_varDecl (hvalue : Keeps I value) : Keeps I (varDecl value) :=
  (keeps_advance hI).bind fun _ => (keeps_expect hI _ _).bind fun _ =>
    (keeps_annotation? hI _).bind fun _ => (keeps_initializer? hI hvalue).bind fun _ =>
      (keeps_expect hI _ _).bind fun _ => keeps_pure _

theorem keeps_fnDecl (hblock : Keeps I block) : Keeps I (fnDecl block) :=
  (keeps_advance hI).bind fun _ => (keeps_expect hI _ _).bind fun _ =>
    (keeps_expect hI _ _).bind fun _ => (keeps_listUpTo hI _ _ (keeps_param hI)).bind fun _ =>
      (keeps_annotation? hI _).bind fun _ => hblock.bind fun _ => keeps_pure _

omit hI in
theorem keeps_items (hdeclaration : Keeps I declaration) (rounds : Nat) :
    Keeps I (items declaration rounds) := by
  induction rounds with
  | zero => exact keeps_pure []
  | succ rounds ih =>
      intro p hp
      have hq := hdeclaration p hp
      rw [items]
      dsimp only
      split
      · exact hp
      · cases hresult : declaration p with
        | ok item q =>
            rw [hresult] at hq
            exact ih.map (item :: ·) q hq
        | error d q =>
            rw [hresult] at hq
            dsimp only
            split
            · exact hq
            · exact ih q hq

theorem keeps_blockOf (hdeclaration : Keeps I declaration) : Keeps I (blockOf declaration) :=
  (keeps_expect hI _ _).bind fun _ => (keeps_bounded (keeps_items hdeclaration)).bind fun _ =>
    (keeps_expect hI _ _).bind fun _ => keeps_pure _

theorem keeps_condition (keyword : String) (hvalue : Keeps I value) :
    Keeps I (condition keyword value) :=
  (keeps_expect hI _ _).bind fun _ => hvalue.bind fun cond =>
    (keeps_expect hI _ _).bind fun _ => keeps_pure cond

theorem keeps_branch (hvalue : Keeps I value) (hstatement : Keeps I statement) :
    Keeps I (branch value statement) :=
  (keeps_advance hI).bind fun _ => (keeps_condition hI _ hvalue).bind fun _ =>
    hstatement.bind fun _ => keeps_pure _

theorem keeps_links (hvalue : Keeps I value) (hstatement : Keeps I statement) (rounds : Nat) :
    Keeps I (links value statement rounds) := by
  induction rounds with
  | zero => exact keeps_pure ([], none)
  | succ rounds ih =>
      refine (keeps_accept hI .naso).bind fun found => ?_
      cases found with
      | false => exact keeps_pure ([], none)
      | true =>
          refine (keeps_check .abi).bind fun chained => ?_
          cases chained with
          | true =>
              exact (keeps_branch hI hvalue hstatement).bind fun _ => ih.bind fun _ => keeps_pure _
          | false => exact hstatement.bind fun _ => keeps_pure _

theorem keeps_conditional (hvalue : Keeps I value) (hstatement : Keeps I statement) :
    Keeps I (conditional value statement) :=
  (keeps_branch hI hvalue hstatement).bind fun _ =>
    (keeps_bounded (keeps_links hI hvalue hstatement)).bind fun _ => keeps_pure _

theorem keeps_whileLoop (hvalue : Keeps I value) (hstatement : Keeps I statement) :
    Keeps I (whileLoop value statement) :=
  (keeps_advance hI).bind fun _ => (keeps_condition hI _ hvalue).bind fun _ =>
    hstatement.bind fun _ => keeps_pure _

theorem keeps_ret (hvalue : Keeps I value) : Keeps I (ret value) := by
  have hclose (pos : Position) (value? : Option Expr) :=
    (keeps_expect hI .semicolon "expected ';' after return statement").bind fun _ =>
      keeps_pure (Stmt.ret value? pos)
  refine (keeps_advance hI).bind fun start => (keeps_check .semicolon).bind fun found => ?_
  cases found with
  | true => exact (keeps_pure none).bind (hclose start.pos)
  | false => exact (hvalue.map some).bind (hclose start.pos)

theorem keeps_exprStmt (hvalue : Keeps I value) : Keeps I (exprStmt value) := fun p =>
  (hvalue.bind fun result => (keeps_expect hI _ _).bind fun _ =>
    keeps_pure (Stmt.expr result p.current.pos)) p

theorem keeps_statementOf {conditional whileLoop : Parse Stmt} (hvalue : Keeps I value)
    (hblock : Keeps I block) (hconditional : Keeps I conditional)
    (hwhileLoop : Keeps I whileLoop) :
    Keeps I (statementOf value block conditional whileLoop) := by
  intro p hp
  unfold statementOf
  split
  · exact hblock.map Stmt.ofBlock p hp
  · exact hconditional p hp
  · exact hwhileLoop p hp
  · exact keeps_ret hI hvalue p hp
  · exact keeps_exprStmt hI hvalue p hp

theorem keeps_declarationOf (hvalue : Keeps I value) (hblock : Keeps I block)
    (hstatement : Keeps I statement) : Keeps I (declarationOf value block statement) := by
  intro p hp
  unfold declarationOf
  split
  · exact keeps_varDecl hI hvalue p hp
  · exact keeps_fnDecl hI hblock p hp
  · exact hstatement p hp

end

theorem keeps_block_statement (room : Nat) : Keeps I (block room) ∧ Keeps I (statement room) := by
  induction room with
  | zero =>
      have hblock : Keeps I (block 0) := by
        rw [block_eq]
        exact keeps_tooDeep hI
      refine ⟨hblock, ?_⟩
      rw [statement_eq]
      exact keeps_statementOf hI (keeps_value hI 0) hblock (keeps_tooDeep hI) (keeps_tooDeep hI)
  | succ room ih =>
      have hblock : Keeps I (block (room + 1)) := by
        rw [block_eq]
        exact keeps_blockOf hI (keeps_declarationOf hI (keeps_value hI room) ih.1 ih.2)
      refine ⟨hblock, ?_⟩
      rw [statement_eq]
      exact keeps_statementOf hI (keeps_value hI _) hblock
        (keeps_conditional hI (keeps_value hI room) ih.2)
        (keeps_whileLoop hI (keeps_value hI room) ih.2)

theorem keeps_declaration (room : Nat) : Keeps I (declaration room) :=
  keeps_declarationOf hI (keeps_value hI room) (keeps_block_statement hI room).1
    (keeps_block_statement hI room).2

end Parse

/-! ## What is reported -/

namespace Parser

/-- `p` sees the tokens that `start` sees, and each of its errors is true of one of them. -/
structure Honest (start p : Parser) : Prop where
  seen : ∀ index, p.tokenAt? index = start.tokenAt? index
  file : p.file = start.file
  limit : p.limit = start.limit
  errors : ∀ d ∈ p.errors, ∃ index token cause, start.tokenAt? index = some token ∧
    cause.TrueOf start.limit token ∧ d = start.diagnose token cause

variable {start p : Parser}

theorem Honest.recover (h : Honest start p) : Honest start p.recover where
  seen index := (tokenAt?_recover p index).trans (h.seen index)
  file := (file_recover p).trans h.file
  limit := by
    rw [← h.limit, Parser.recover]
    split <;> rfl
  errors := by
    rw [errors_recover]
    exact h.errors

theorem closed_honest (start : Parser) : Closed (Honest start) where
  shift {p} hp := {
    seen := by simpa using hp.seen
    file := by simpa using hp.file
    limit := by
      rw [← hp.limit, shift]
      split <;> rfl
    errors := by simpa using hp.errors }
  report {p token cause} hp met htrue := {
    seen := by simpa using hp.seen
    file := by simpa using hp.file
    limit := by
      rw [← hp.limit, record]
      split <;> rfl
    errors := by
      obtain ⟨q, hq, rfl⟩ := met
      have hnew : ∃ index token cause', start.tokenAt? index = some token ∧
          cause'.TrueOf start.limit token ∧
          p.diagnose q.current cause = start.diagnose token cause' :=
        ⟨q.cursor, q.current, cause, hq.seen q.cursor ▸ q.tokenAt?_cursor, hp.limit ▸ htrue,
          by simp only [diagnose, hp.file]⟩
      rw [record]
      split
      · rw [List.forall_mem_append, List.forall_mem_singleton]
        exact ⟨hp.errors, hnew⟩
      · exact hp.errors }

theorem Honest.declarations (h : Honest start p) (room rounds : Nat) :
    Honest start (p.declarations (declaration room) rounds).2 := by
  induction rounds generalizing p with
  | zero => exact h
  | succ rounds ih =>
      rw [Parser.declarations]
      split
      · exact h
      · refine ih ?_
        rw [round_eq]
        exact (keeps_declaration (closed_honest start) room p h).recover

end Parser

theorem exists_true_of_parse {tokens : List Token} {file : String} {limit : Nat}
    {errors : List Diagnostic} (h : parse tokens file limit = .error errors) :
    ∀ d ∈ errors, ∃ index token cause,
      (Parser.ofTokens tokens file limit).tokenAt? index = some token ∧
      cause.TrueOf limit token ∧ d = (Parser.ofTokens tokens file limit).diagnose token cause := by
  let p := Parser.ofTokens tokens file limit
  have hstart : p.Honest p := ⟨fun _ => rfl, rfl, rfl, nofun⟩
  have hlast := hstart.declarations limit p.ahead.length
  unfold parse at h
  dsimp only at h
  split at h
  · cases h
    exact hlast.errors
  · cases h

end Pidgin
