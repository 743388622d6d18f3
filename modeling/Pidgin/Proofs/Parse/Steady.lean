import Pidgin.Proofs.Parse.Reach

/-!
# Every reader is steady

A reader is steady when it takes a parser only to parsers within its reach, and
leaves it panicking if it fails.  It is eager when, besides, it never leaves a
parser where it found it unless that is the end, as is any reader that steps over
a token first.  All this passes from the parts of a reader to the whole, so one
lemma for each form carries it through the climb and the descent: with room for
one level of nesting a declaration is eager.
-/

namespace Pidgin

namespace Parse

variable {α β : Type}

def StaysWithin (start : Parser) : EStateM.Result Diagnostic Parser α → Prop
  | .ok _ q => start.Reaches q
  | .error _ q => start.Reaches q ∧ q.mode = .panicking

def Steady (m : Parse α) : Prop := ∀ p, StaysWithin p (m p)

def parserOf : EStateM.Result Diagnostic Parser α → Parser
  | .ok _ q => q
  | .error _ q => q

structure Eager (m : Parse α) : Prop where
  steady : Steady m
  advances : ∀ p, p.ahead ≠ [] → p.cursor < (parserOf (m p)).cursor

/-- The reader steps over a token before it does anything else. -/
def Headed (m : Parse α) : Prop := ∀ p : Parser, StaysWithin p.shift (m p)

/-! ## Composition -/

theorem bind_of_ok {m : Parse α} {f : α → Parse β} {p q : Parser} {a : α}
    (h : m p = .ok a q) : (m >>= f) p = f a q := by
  change EStateM.bind m f p = _
  simp only [EStateM.bind, h]

theorem bind_of_error {m : Parse α} {f : α → Parse β} {p q : Parser}
    {d : Diagnostic} (h : m p = .error d q) : (m >>= f) p = .error d q := by
  change EStateM.bind m f p = _
  simp only [EStateM.bind, h]

section

variable {start p : Parser} {m : Parse α} {f : α → Parse β}

theorem StaysWithin.trans {result : EStateM.Result Diagnostic Parser α}
    (h : start.Reaches p) (hp : StaysWithin p result) : StaysWithin start result := by
  cases result with
  | ok a q => exact h.trans hp
  | error d q => exact ⟨h.trans hp.1, hp.2⟩

theorem StaysWithin.bind (hm : StaysWithin start (m p))
    (hf : ∀ a q, start.Reaches q → StaysWithin start (f a q)) :
    StaysWithin start ((m >>= f) p) := by
  cases h : m p with
  | ok a q =>
      rw [h] at hm
      rw [bind_of_ok h]
      exact hf a q hm
  | error d q =>
      rw [h] at hm
      rw [bind_of_error h]
      exact hm

theorem staysWithin_fail {token : Token} (cause : Cause) (h : start.Reaches p)
    (met : start.Between p token) :
    StaysWithin start ((fail token cause : Parse α) p) :=
  ⟨h.report met cause, Parser.mode_record ..⟩

theorem StaysWithin.reaches {result : EStateM.Result Diagnostic Parser α}
    (h : StaysWithin start result) : start.Reaches (parserOf result) := by
  cases result with
  | ok a q => exact h
  | error d q => exact h.1

theorem Steady.reaches (hm : Steady m) {a : α} {q : Parser} (h : m p = .ok a q) :
    p.Reaches q := by
  have hp := hm p
  rwa [h] at hp

theorem Steady.bind (hm : Steady m) (hf : ∀ a, Steady (f a)) : Steady (m >>= f) :=
  fun p => (hm p).bind fun a q h => (hf a q).trans h

theorem Steady.map (hm : Steady m) (g : α → β) : Steady (g <$> m) := by
  rw [← bind_pure_comp]
  exact hm.bind fun _ _ => .refl

theorem steady_pure (a : α) : Steady (pure a : Parse α) := fun _ => .refl

theorem cursor_lt_bind (hm : p.cursor < (parserOf (m p)).cursor)
    (hf : ∀ a, Steady (f a)) : p.cursor < (parserOf ((m >>= f) p)).cursor := by
  cases h : m p with
  | ok a q =>
      rw [h] at hm
      rw [bind_of_ok h]
      exact Nat.lt_of_lt_of_le hm (hf a q).reaches.cursor_le
  | error d q =>
      rw [h] at hm
      rw [bind_of_error h]
      exact hm

theorem Eager.bind (hm : Eager m) (hf : ∀ a, Steady (f a)) : Eager (m >>= f) :=
  ⟨hm.steady.bind hf, fun p h => cursor_lt_bind (hm.advances p h) hf⟩

theorem Headed.bind (hm : Headed m) (hf : ∀ a, Steady (f a)) : Headed (m >>= f) :=
  fun p => (hm p).bind fun a q h => (hf a q).trans h

theorem Headed.eager (hm : Headed m) : Eager m := by
  refine ⟨fun p => (hm p).trans (.shift .refl), ?_⟩
  intro p h
  have hshift := Parser.cursor_shift h
  have hreach := (hm p).reaches.cursor_le
  omega

end

/-! ## Single steps -/

theorem steady_advance : Steady advance := fun _ => .shift .refl

theorem headed_advance : Headed advance := fun _ => .refl

theorem steady_check (kind : Kind) : Steady (check kind) := fun _ => .refl

theorem steady_accept (kind : Kind) : Steady (accept kind) := by
  refine (steady_check kind).bind ?_
  intro found
  cases found with
  | false => exact steady_pure false
  | true => exact steady_advance.bind fun _ => steady_pure true

theorem steady_fail_current (cause : Parser → Cause) :
    Steady (fun p => (fail p.current (cause p) : Parse α) p) :=
  fun _ => staysWithin_fail _ .refl Parser.Reaches.refl.between_current

theorem steady_expect (kind : Kind) (expectation : String) :
    Steady (expect kind expectation) := by
  refine (steady_check kind).bind ?_
  intro found
  cases found with
  | true => exact steady_advance
  | false => exact steady_fail_current fun p => .unexpectedToken p.current.describe expectation

theorem cursor_lt_expect {p : Parser} {kind : Kind} (expectation : String)
    (h : p.ahead ≠ []) (hkind : p.current.kind = kind) :
    p.cursor < (parserOf (expect kind expectation p)).cursor := by
  have hcheck : p.check kind = true := by
    cases hahead : p.ahead with
    | nil => contradiction
    | cons token rest =>
        rw [Parser.current, hahead] at hkind
        rw [Parser.check, hahead]
        exact decide_eq_true hkind
  rw [expect_eq, if_pos hcheck]
  exact headed_advance.eager.advances p h

theorem steady_tooDeep : Steady (tooDeep : Parse α) :=
  steady_fail_current fun p => .tooDeep p.limit

theorem steady_bounded {loop : Nat → Parse α} (h : ∀ rounds, Steady (loop rounds)) :
    Steady (bounded loop) :=
  fun p => h p.ahead.length p

theorem steady_commaTail {more : Parse (List α)} (h : Steady more) (first : α) :
    Steady (do if ← accept .comma then return first :: (← more) else return [first]) := by
  refine (steady_accept .comma).bind fun found => ?_
  cases found with
  | true => exact h.bind fun more => steady_pure (first :: more)
  | false => exact steady_pure [first]

theorem steady_commaList {item : Parse α} (h : Steady item) (rounds : Nat) :
    Steady (commaList item rounds) := by
  induction rounds with
  | zero => exact h.bind fun first => steady_pure [first]
  | succ rounds ih => exact h.bind (steady_commaTail ih)

theorem steady_listUpTo {item : Parse α} (close : Kind) (expectation : String)
    (h : Steady item) : Steady (listUpTo close expectation item) := by
  refine (steady_check close).bind fun found => ?_
  cases found with
  | true =>
      exact (steady_pure []).bind fun items =>
        (steady_expect close expectation).bind fun _ => steady_pure items
  | false =>
      exact (steady_bounded (steady_commaList h)).bind fun items =>
        (steady_expect close expectation).bind fun _ => steady_pure items

/-! ## Expressions -/

theorem staysWithin_literal {start p : Parser} {token : Token} (h : start.Reaches p)
    (met : start.Between p token) : StaysWithin start (literal token p) := by
  unfold literal
  cases Literal.ofToken token with
  | ok value => exact h
  | error cause => exact staysWithin_fail cause h met

section

variable {operand : Power → Parse Expr} (hoperand : ∀ power, Steady (operand power))

include hoperand

theorem steady_unary (token : Token) : Steady (unary operand token) :=
  (hoperand _).bind fun _ => steady_pure _

theorem steady_grouping : Steady (grouping operand) :=
  (hoperand _).bind fun inner => (steady_expect _ _).bind fun _ => steady_pure inner

theorem steady_array (token : Token) : Steady (array operand token) :=
  (steady_listUpTo _ _ (hoperand _)).bind fun _ => steady_pure _

theorem staysWithin_opening {start p : Parser} {token : Token} (h : start.Reaches p)
    (met : start.Between p token) : StaysWithin start (opening operand token p) := by
  unfold opening
  cases (Rule.ofKind token.kind).opening? with
  | none => exact staysWithin_fail _ h met
  | some form =>
      cases form with
      | literal => exact staysWithin_literal h met
      | var => exact h
      | unary => exact (steady_unary hoperand token p).trans h
      | grouping => exact (steady_grouping hoperand p).trans h
      | array => exact (steady_array hoperand token p).trans h

theorem steady_binary (left : Expr) (token : Token) : Steady (binary operand left token) :=
  (hoperand _).bind fun _ => steady_pure _

theorem steady_call (callee : Expr) (token : Token) : Steady (call operand callee token) :=
  (steady_listUpTo _ _ (hoperand _)).bind fun _ => steady_pure _

theorem steady_index (object : Expr) (token : Token) : Steady (index operand object token) :=
  (hoperand _).bind fun _ => (steady_expect _ _).bind fun _ => steady_pure _

theorem staysWithin_assignment {start p : Parser} {token : Token} (target : Expr)
    (h : start.Reaches p) (met : start.Between p token) :
    StaysWithin start (assignment operand target token p) := by
  unfold assignment
  split
  · exact ((hoperand _).bind (fun _ => steady_pure _) p).trans h
  · exact h.report met _

theorem staysWithin_continuation {start p : Parser} {token : Token}
    (form : Continuation) (left : Expr) (h : start.Reaches p)
    (met : start.Between p token) :
    StaysWithin start (continuation operand form left token p) := by
  cases form with
  | binary => exact (steady_binary hoperand left token p).trans h
  | call => exact (steady_call hoperand left token p).trans h
  | index => exact (steady_index hoperand left token p).trans h
  | assignment => exact staysWithin_assignment hoperand left h met

theorem steady_climb (power : Power) (rounds : Nat) (left : Expr) :
    Steady (climb operand power rounds left) := by
  induction rounds generalizing left with
  | zero => exact steady_pure left
  | succ rounds ih =>
      intro p
      change StaysWithin p ((if power ≤ p.current.kind.power then _ else _ : Parse Expr) p)
      split
      · -- The operator stands where `p` does, so a bad target may be reported at it.
        have hshift : p.Reaches p.shift := .shift .refl
        rw [bind_of_ok (show advance p = .ok p.current p.shift from rfl)]
        cases (Rule.ofKind p.current.kind).continuation? with
        | none => exact hshift
        | some form =>
            refine (staysWithin_continuation hoperand form left hshift
              p.between_shift).bind ?_
            intro next r hr
            exact (ih next r).trans hr
      · exact .refl

theorem cursor_le_opening (token : Token) (p : Parser) :
    p.cursor ≤ (parserOf (opening operand token p)).cursor := by
  have hfail : ∀ cause,
      p.cursor ≤ (parserOf ((fail token cause : Parse Expr) p)).cursor := by
    intro cause
    rw [fail_eq]
    simp [parserOf]
  unfold opening
  cases (Rule.ofKind token.kind).opening? with
  | none => exact hfail _
  | some form =>
      cases form with
      | literal =>
          unfold literal
          cases Literal.ofToken token with
          | ok value => exact Nat.le_refl _
          | error cause => exact hfail cause
      | var => exact Nat.le_refl _
      | unary => exact (steady_unary hoperand token p).reaches.cursor_le
      | grouping => exact (steady_grouping hoperand p).reaches.cursor_le
      | array => exact (steady_array hoperand token p).reaches.cursor_le

theorem steady_operation (power : Power) : Steady (operation operand power) := by
  intro p
  have hshift : p.Reaches p.shift := .shift .refl
  unfold operation
  rw [bind_of_ok (show advance p = .ok p.current p.shift from rfl)]
  refine (staysWithin_opening hoperand hshift p.between_shift).bind ?_
  intro left r hr
  exact (steady_bounded (fun rounds => steady_climb hoperand power rounds left) r).trans hr

theorem eager_operation (power : Power) : Eager (operation operand power) := by
  refine ⟨steady_operation hoperand power, ?_⟩
  intro p h
  have hopening : p.cursor < (parserOf ((advance >>= opening operand) p)).cursor := by
    rw [bind_of_ok (show advance p = .ok p.current p.shift from rfl)]
    exact Nat.lt_of_lt_of_le (headed_advance.eager.advances p h) (cursor_le_opening hoperand _ _)
  have hclimb := cursor_lt_bind hopening fun left =>
    steady_bounded fun rounds => steady_climb hoperand power rounds left
  rwa [bind_assoc] at hclimb

end

theorem steady_expression (room : Nat) (power : Power) : Steady (expression room power) := by
  induction room generalizing power with
  | zero => exact steady_tooDeep
  | succ room ih => exact steady_operation ih power

theorem steady_value (room : Nat) : Steady (value room) :=
  steady_expression room .assignment

theorem eager_value (room : Nat) : Eager (value (room + 1)) :=
  eager_operation (steady_expression room) .assignment

/-! ## Declarations and statements -/

theorem steady_typeName (expectation : String) : Steady (typeName expectation) :=
  (steady_expect _ _).bind fun _ => steady_pure _

theorem steady_annotation? (expectation : String) : Steady (annotation? expectation) := by
  refine (steady_accept .colon).bind fun found => ?_
  cases found with
  | true => exact (steady_typeName expectation).bind fun _ => steady_pure _
  | false => exact steady_pure none

theorem steady_param : Steady param :=
  (steady_expect _ _).bind fun _ => (steady_expect _ _).bind fun _ =>
    (steady_typeName _).bind fun _ => steady_pure _

section

variable {value : Parse Expr} {block : Parse Block} {statement declaration : Parse Stmt}

theorem steady_initializer? (hvalue : Steady value) : Steady (initializer? value) := by
  refine (steady_accept .assign).bind fun found => ?_
  cases found with
  | true => exact hvalue.bind fun _ => steady_pure _
  | false => exact steady_pure none

theorem headed_varDecl (hvalue : Steady value) : Headed (varDecl value) :=
  headed_advance.bind fun _ => (steady_expect _ _).bind fun _ =>
    (steady_annotation? _).bind fun _ => (steady_initializer? hvalue).bind fun _ =>
      (steady_expect _ _).bind fun _ => steady_pure _

theorem headed_fnDecl (hblock : Steady block) : Headed (fnDecl block) :=
  headed_advance.bind fun _ => (steady_expect _ _).bind fun _ =>
    (steady_expect _ _).bind fun _ => (steady_listUpTo _ _ steady_param).bind fun _ =>
      (steady_annotation? _).bind fun _ => hblock.bind fun _ => steady_pure _

theorem steady_items (hdeclaration : Steady declaration) (rounds : Nat) :
    Steady (items declaration rounds) := by
  induction rounds with
  | zero => exact steady_pure []
  | succ rounds ih =>
      intro p
      rw [items]
      dsimp only
      split
      · exact .refl
      · have hfirst := hdeclaration p
        cases hresult : declaration p with
        | ok item q =>
            rw [hresult] at hfirst
            exact (ih.map (item :: ·) q).trans hfirst
        | error d q =>
            rw [hresult] at hfirst
            dsimp only
            split
            · exact hfirst
            · exact (ih q).trans hfirst.1

theorem steady_blockOf (hdeclaration : Steady declaration) : Steady (blockOf declaration) :=
  (steady_expect _ _).bind fun _ => (steady_bounded (steady_items hdeclaration)).bind fun _ =>
    (steady_expect _ _).bind fun _ => steady_pure _

theorem steady_condition (keyword : String) (hvalue : Steady value) :
    Steady (condition keyword value) :=
  (steady_expect _ _).bind fun _ => hvalue.bind fun cond =>
    (steady_expect _ _).bind fun _ => steady_pure cond

theorem headed_branch (hvalue : Steady value) (hstatement : Steady statement) :
    Headed (branch value statement) :=
  headed_advance.bind fun _ => (steady_condition _ hvalue).bind fun _ =>
    hstatement.bind fun _ => steady_pure _

theorem steady_links (hvalue : Steady value) (hstatement : Steady statement)
    (rounds : Nat) : Steady (links value statement rounds) := by
  induction rounds with
  | zero => exact steady_pure ([], none)
  | succ rounds ih =>
      refine (steady_accept .naso).bind fun found => ?_
      cases found with
      | false => exact steady_pure ([], none)
      | true =>
          refine (steady_check .abi).bind fun chained => ?_
          cases chained with
          | true =>
              exact (headed_branch hvalue hstatement).eager.steady.bind fun _ =>
                ih.bind fun _ => steady_pure _
          | false => exact hstatement.bind fun _ => steady_pure _

theorem headed_conditional (hvalue : Steady value) (hstatement : Steady statement) :
    Headed (conditional value statement) :=
  (headed_branch hvalue hstatement).bind fun _ =>
    (steady_bounded (steady_links hvalue hstatement)).bind fun _ => steady_pure _

theorem headed_whileLoop (hvalue : Steady value) (hstatement : Steady statement) :
    Headed (whileLoop value statement) :=
  headed_advance.bind fun _ => (steady_condition _ hvalue).bind fun _ =>
    hstatement.bind fun _ => steady_pure _

theorem headed_ret (hvalue : Steady value) : Headed (ret value) := by
  refine headed_advance.bind fun start => (steady_check .semicolon).bind fun found => ?_
  cases found with
  | true =>
      exact (steady_pure none).bind fun value? => (steady_expect _ _).bind fun _ =>
        steady_pure _
  | false =>
      exact (hvalue.map some).bind fun value? => (steady_expect _ _).bind fun _ => steady_pure _

theorem steady_exprStmt (hvalue : Steady value) : Steady (exprStmt value) := fun p =>
  (hvalue.bind fun result => (steady_expect _ _).bind fun _ =>
    steady_pure (Stmt.expr result p.current.pos)) p

theorem eager_exprStmt (hvalue : Eager value) : Eager (exprStmt value) :=
  ⟨steady_exprStmt hvalue.steady, fun p => (hvalue.bind fun result =>
    (steady_expect _ _).bind fun _ =>
      steady_pure (Stmt.expr result p.current.pos)).advances p⟩

theorem steady_statementOf {conditional whileLoop : Parse Stmt} (hvalue : Steady value)
    (hblock : Steady block) (hconditional : Steady conditional)
    (hwhileLoop : Steady whileLoop) :
    Steady (statementOf value block conditional whileLoop) := by
  intro p
  unfold statementOf
  split
  · exact hblock.map Stmt.ofBlock p
  · exact hconditional p
  · exact hwhileLoop p
  · exact (headed_ret hvalue).eager.steady p
  · exact steady_exprStmt hvalue p

theorem steady_declarationOf (hvalue : Steady value) (hblock : Steady block)
    (hstatement : Steady statement) :
    Steady (declarationOf value block statement) := by
  intro p
  unfold declarationOf
  split
  · exact (headed_varDecl hvalue).eager.steady p
  · exact (headed_fnDecl hblock).eager.steady p
  · exact hstatement p

end

theorem steady_block_statement (room : Nat) :
    Steady (block room) ∧ Steady (statement room) := by
  induction room with
  | zero =>
      have hblock : Steady (block 0) := by
        rw [block_eq]
        exact steady_tooDeep
      refine ⟨hblock, ?_⟩
      rw [statement_eq]
      exact steady_statementOf (steady_value 0) hblock steady_tooDeep steady_tooDeep
  | succ room ih =>
      have hblock : Steady (block (room + 1)) := by
        rw [block_eq]
        exact steady_blockOf (steady_declarationOf (steady_value room) ih.1 ih.2)
      refine ⟨hblock, ?_⟩
      rw [statement_eq]
      exact steady_statementOf (steady_value _) hblock
        (headed_conditional (steady_value room) ih.2).eager.steady
        (headed_whileLoop (steady_value room) ih.2).eager.steady

theorem steady_block (room : Nat) : Steady (block room) := (steady_block_statement room).1

theorem steady_statement (room : Nat) : Steady (statement room) :=
  (steady_block_statement room).2

theorem steady_declaration (room : Nat) : Steady (declaration room) :=
  steady_declarationOf (steady_value room) (steady_block room) (steady_statement room)

/-! ## Declarations with room for one level -/

theorem cursor_lt_block (room : Nat) {p : Parser} (h : p.ahead ≠ [])
    (hkind : p.current.kind = .lbrace) :
    p.cursor < (parserOf (block (room + 1) p)).cursor := by
  rw [block_eq]
  exact cursor_lt_bind (cursor_lt_expect _ h hkind) fun _ =>
    (steady_bounded (steady_items (steady_declaration room))).bind fun _ =>
      (steady_expect _ _).bind fun _ => steady_pure _

theorem eager_statement (room : Nat) : Eager (statement (room + 1)) := by
  refine ⟨steady_statement _, ?_⟩
  intro p h
  rw [statement_eq, statementOf]
  split
  · rename_i hkind
    rw [← bind_pure_comp]
    exact cursor_lt_bind (cursor_lt_block room h hkind) fun _ => steady_pure _
  · exact (headed_conditional (steady_value room) (steady_statement room)).eager.advances p h
  · exact (headed_whileLoop (steady_value room) (steady_statement room)).eager.advances p h
  · exact (headed_ret (steady_value _)).eager.advances p h
  · exact (eager_exprStmt (eager_value room)).advances p h

theorem eager_declaration (room : Nat) : Eager (declaration (room + 1)) := by
  refine ⟨steady_declaration _, ?_⟩
  intro p h
  unfold declaration declarationOf
  split
  · exact (headed_varDecl (steady_value _)).eager.advances p h
  · exact (headed_fnDecl (steady_block _)).eager.advances p h
  · exact (eager_statement room).advances p h

end Parse

end Pidgin
