import Pidgin.Proofs.Grammar.Program
import Pidgin.Proofs.Parse.Mirror

/-!
# Chains of conditionals

The links of a chain are read in a loop and put below one another afterwards, so
that they take no level of nesting.  The plain way to read a conditional is by
recursion: its other branch is any statement, a conditional among them.  With more
levels left than tokens the two ways cannot be told apart, neither by the tree or
the fault nor by the parser that is left.

The levels matter only if they run out.  `SameBelow` says of two readers that they
do the same in front of few enough tokens.  Each level is entered with a token, so
readers on different levels are the same below what both of them have room for.
-/

namespace Pidgin

open Grammar

namespace Parse

variable {α β : Type} {n : Nat}

structure SameBelow (n : Nat) (m m' : Parse α) : Prop where
  loose : Loose m
  eq {p : Parser} (h : p.ahead.length < n) : m p = m' p

/-! ## Composition -/

theorem Loose.same {m : Parse α} (hm : Loose m) : SameBelow n m m := ⟨hm, fun _ => rfl⟩

theorem Loose.sameBelow_zero {m : Parse α} (hm : Loose m) (m' : Parse α) : SameBelow 0 m m' :=
  ⟨hm, nofun⟩

namespace SameBelow

variable {m m' : Parse α} {k k' : α → Parse β}

theorem bind (hm : SameBelow n m m') (hk : ∀ a, SameBelow n (k a) (k' a)) :
    SameBelow n (m >>= k) (m' >>= k') where
  loose := hm.loose.bind fun a => (hk a).loose
  eq {p} h := bind_congr_at (hm.eq h) fun a q hq => by
    have hlength := (hm.loose.of_ok ((hm.eq h).trans hq)).length_ahead_le
    exact (hk a).eq (by omega)

/-- What follows a reader that takes a token has one token less to be the same for. -/
theorem bind_succ (hm : SameBelow (n + 1) m m')
    (htakes : ∀ {p a q}, m p = .ok a q → q.ahead.length < p.ahead.length)
    (hk : ∀ a, SameBelow n (k a) (k' a)) : SameBelow (n + 1) (m >>= k) (m' >>= k') where
  loose := hm.loose.bind fun a => (hk a).loose
  eq {p} h := bind_congr_at (hm.eq h) fun a q hq => by
    have hlength := htakes ((hm.eq h).trans hq)
    exact (hk a).eq (by omega)

theorem map (hm : SameBelow n m m') (g : α → β) : SameBelow n (g <$> m) (g <$> m') := by
  rw [← bind_pure_comp, ← bind_pure_comp]
  exact hm.bind fun a => (loose_pure (g a)).same

theorem dispatch {f k : Parser → Parse α} (h : ∀ p, SameBelow n (f p) (k p)) :
    SameBelow n (fun p => f p p) (fun p => k p p) where
  loose := ⟨fun p => (h p).loose.drifts p, fun hp => (h _).loose.panics hp⟩
  eq {p} hp := (h p).eq hp

theorem ite {k k' : Parse α} (hm : SameBelow n m m') (hk : SameBelow n k k')
    (test : Parser → Bool) :
    SameBelow n (fun p => if test p then m p else k p)
      (fun p => if test p then m' p else k' p) where
  loose := hm.loose.ite hk.loose test
  eq {p} h := by
    rw [hm.eq h, hk.eq h]

theorem bounded {loop loop' : Nat → Parse α}
    (h : ∀ rounds, SameBelow n (loop rounds) (loop' rounds)) :
    SameBelow n (bounded loop) (Parse.bounded loop') :=
  dispatch (f := fun p => loop p.ahead.length) (k := fun p => loop' p.ahead.length)
    fun p => h p.ahead.length

end SameBelow

theorem length_ahead_of_expect {kind : Kind} {expectation : String} {p q : Parser} {token : Token}
    (h : expect kind expectation p = .ok token q) : q.ahead.length < p.ahead.length := by
  rw [(expect_ok h).2.1]
  exact Nat.lt_succ_self _

theorem expect_of_nil {p : Parser} (h : p.ahead = []) (kind : Kind) (expectation : String) :
    ∃ d q, expect kind expectation p = .error d q := by
  rw [expect_eq, Parser.check, h]
  exact ⟨_, _, rfl⟩

theorem sameBelow_advance {f f' : Token → Parse β} (hf : ∀ token, SameBelow n (f token) (f' token))
    (hend : ∀ p : Parser, p.ahead = [] → f p.current p = f' p.current p) :
    SameBelow (n + 1) (advance >>= f) (advance >>= f') where
  loose := steady_advance.loose.bind fun token => (hf token).loose
  eq {p} h := by
    rw [bind_of_ok (show advance p = .ok p.current p.shift from rfl),
      bind_of_ok (show advance p = .ok p.current p.shift from rfl)]
    cases hahead : p.ahead with
    | nil =>
        rw [show p.shift = p by simp [Parser.shift, hahead]]
        exact hend p hahead
    | cons token rest =>
        refine (hf p.current).eq ?_
        rw [hahead, List.length_cons] at h
        rw [Parser.ahead_shift, hahead, List.tail_cons]
        omega

/-! ## Expressions -/

theorem sameBelow_commaList {item item' : Parse α} (h : SameBelow n item item') (rounds : Nat) :
    SameBelow n (commaList item rounds) (commaList item' rounds) := by
  induction rounds with
  | zero => exact h.bind fun first => (loose_pure [first]).same
  | succ rounds ih =>
      refine h.bind fun first => (steady_accept .comma).loose.same.bind fun found => ?_
      cases found with
      | true => exact ih.bind fun more => (loose_pure (first :: more)).same
      | false => exact (loose_pure [first]).same

theorem sameBelow_listUpTo {item item' : Parse α} (close : Kind) (expectation : String)
    (h : SameBelow n item item') :
    SameBelow n (listUpTo close expectation item) (listUpTo close expectation item') := by
  have hclose (items : List α) : SameBelow n (expect close expectation >>= fun _ => pure items)
      (expect close expectation >>= fun _ => pure items) :=
    ((steady_expect close expectation).bind fun _ => steady_pure items).loose.same
  refine (steady_check close).loose.same.bind fun found => ?_
  cases found with
  | true => exact (loose_pure []).same.bind hclose
  | false => exact (SameBelow.bounded (sameBelow_commaList h)).bind hclose

section

variable {operand operand' : Power → Parse Expr}
  (hoperand : ∀ power, SameBelow n (operand power) (operand' power))

include hoperand

theorem sameBelow_opening (token : Token) :
    SameBelow n (opening operand token) (opening operand' token) := by
  unfold opening
  split
  · exact (loose_literal token).same
  · exact (loose_pure _).same
  · exact (hoperand _).bind fun _ => (loose_pure _).same
  · exact (hoperand _).bind fun _ => ((steady_expect _ _).bind fun _ => steady_pure _).loose.same
  · exact (sameBelow_listUpTo _ _ (hoperand _)).bind fun _ => (loose_pure _).same
  · exact (loose_fail token _).same

theorem sameBelow_continuation (form : Continuation) (left : Expr) (token : Token) :
    SameBelow n (continuation operand form left token) (continuation operand' form left token) := by
  cases form with
  | binary => exact (hoperand _).bind fun _ => (loose_pure _).same
  | call => exact (sameBelow_listUpTo _ _ (hoperand _)).bind fun _ => (loose_pure _).same
  | index =>
      exact (hoperand _).bind fun _ => ((steady_expect _ _).bind fun _ => steady_pure _).loose.same
  | assignment =>
      change SameBelow n (assignment operand left token) (assignment operand' left token)
      rw [Lockstep.assignment_eq, Lockstep.assignment_eq]
      split
      · exact (hoperand _).bind fun _ => (loose_pure _).same
      · exact ((loose_report token _).bind fun _ => loose_pure _).same

theorem sameBelow_climb (power : Power) (rounds : Nat) (left : Expr) :
    SameBelow n (climb operand power rounds left) (climb operand' power rounds left) := by
  induction rounds generalizing left with
  | zero => exact (loose_pure left).same
  | succ rounds ih =>
      refine SameBelow.dispatch
        (f := fun p => if power ≤ p.current.kind.power then _ else _)
        (k := fun p => if power ≤ p.current.kind.power then _ else _) fun p => ?_
      split
      · refine steady_advance.loose.same.bind fun token => ?_
        cases (Rule.ofKind token.kind).continuation? with
        | none => exact (loose_pure left).same
        | some form => exact (sameBelow_continuation hoperand form left token).bind ih
      · exact (loose_pure left).same

theorem sameBelow_operation (power : Power) :
    SameBelow (n + 1) (operation operand power) (operation operand' power) := by
  refine sameBelow_advance (fun token => (sameBelow_opening hoperand token).bind fun left =>
    SameBelow.bounded fun rounds => sameBelow_climb hoperand power rounds left) ?_
  intro p hend
  have hkind : p.current.kind = .eof := by
    rw [Parser.current, hend]
    exact p.stop_eof
  unfold opening
  rw [hkind]
  rfl

end

theorem sameBelow_expression (n : Nat) {room room' : Nat} (h : n ≤ room) (h' : n ≤ room')
    (power : Power) : SameBelow n (expression room power) (expression room' power) := by
  induction n generalizing room room' power with
  | zero => exact (steady_expression room power).loose.sameBelow_zero _
  | succ n ih =>
      obtain ⟨room, rfl⟩ := Nat.exists_eq_succ_of_ne_zero (Nat.ne_zero_of_lt h)
      obtain ⟨room', rfl⟩ := Nat.exists_eq_succ_of_ne_zero (Nat.ne_zero_of_lt h')
      exact sameBelow_operation (ih (Nat.le_of_succ_le_succ h) (Nat.le_of_succ_le_succ h')) power

theorem sameBelow_value {room room' : Nat} (h : n ≤ room) (h' : n ≤ room') :
    SameBelow n (value room) (value room') :=
  sameBelow_expression n h h' .assignment

/-! ## Statements -/

section

variable {value value' : Parse Expr} {block block' : Parse Block}
  {statement statement' declaration declaration' : Parse Stmt}

theorem sameBelow_initializer? (hvalue : SameBelow n value value') :
    SameBelow n (initializer? value) (initializer? value') := by
  refine (steady_accept .assign).loose.same.bind fun found => ?_
  cases found with
  | true => exact hvalue.bind fun init => (loose_pure (some init)).same
  | false => exact (loose_pure none).same

theorem sameBelow_varDecl (hvalue : SameBelow n value value') :
    SameBelow n (varDecl value) (varDecl value') :=
  steady_advance.loose.same.bind fun _ => (steady_expect _ _).loose.same.bind fun _ =>
    (steady_annotation? _).loose.same.bind fun _ => (sameBelow_initializer? hvalue).bind fun _ =>
      ((steady_expect _ _).bind fun _ => steady_pure _).loose.same

theorem sameBelow_fnDecl (hblock : SameBelow n block block') :
    SameBelow n (fnDecl block) (fnDecl block') :=
  steady_advance.loose.same.bind fun _ => (steady_expect _ _).loose.same.bind fun _ =>
    (steady_expect _ _).loose.same.bind fun _ =>
      (steady_listUpTo _ _ steady_param).loose.same.bind fun _ =>
        (steady_annotation? _).loose.same.bind fun _ => hblock.bind fun _ => (loose_pure _).same

theorem sameBelow_attempt (h : SameBelow n declaration declaration') :
    SameBelow n (attempt declaration) (attempt declaration') where
  loose := loose_attempt h.loose
  eq hp := by rw [attempt, attempt, h.eq hp]

theorem sameBelow_items (h : SameBelow n declaration declaration') (rounds : Nat) :
    SameBelow n (items declaration rounds) (items declaration' rounds) := by
  induction rounds with
  | zero => exact (loose_pure []).same
  | succ rounds ih =>
      rw [items_succ, items_succ]
      exact (loose_pure []).same.ite ((sameBelow_attempt h).bind fun item? => ih.map _) _

theorem sameBelow_blockOf (h : SameBelow n declaration declaration') :
    SameBelow (n + 1) (blockOf declaration) (blockOf declaration') :=
  (steady_expect _ _).loose.same.bind_succ length_ahead_of_expect fun _ =>
    (SameBelow.bounded (sameBelow_items h)).bind fun _ =>
      ((steady_expect _ _).bind fun _ => steady_pure _).loose.same

theorem sameBelow_condition (keyword : String) (hvalue : SameBelow n value value') :
    SameBelow n (condition keyword value) (condition keyword value') :=
  (steady_expect _ _).loose.same.bind fun _ => hvalue.bind fun _ =>
    ((steady_expect _ _).bind fun _ => steady_pure _).loose.same

theorem sameBelow_guarded {α : Type} (keyword : String) {k k' : Token → Expr → Parse α}
    (hvalue : SameBelow n value value')
    (hk : ∀ start cond, SameBelow n (k start cond) (k' start cond)) :
    SameBelow (n + 1) (advance >>= fun start => condition keyword value >>= k start)
      (advance >>= fun start => condition keyword value' >>= k' start) := by
  refine sameBelow_advance
    (fun start => (sameBelow_condition keyword hvalue).bind (hk start)) fun p hend => ?_
  obtain ⟨d, q, hnone⟩ :=
    expect_of_nil hend .lparen ("expected '(' after '" ++ keyword ++ "'")
  have hcondition (value : Parse Expr) : condition keyword value p = .error d q :=
    bind_of_error hnone
  rw [bind_of_error (hcondition value), bind_of_error (hcondition value')]

theorem sameBelow_branch (hvalue : SameBelow n value value')
    (hstatement : SameBelow n statement statement') :
    SameBelow (n + 1) (branch value statement) (branch value' statement') :=
  sameBelow_guarded "abi" hvalue fun _ _ => hstatement.bind fun _ => (loose_pure _).same

theorem sameBelow_whileLoop (hvalue : SameBelow n value value')
    (hstatement : SameBelow n statement statement') :
    SameBelow (n + 1) (whileLoop value statement) (whileLoop value' statement') :=
  sameBelow_guarded "waka" hvalue fun _ _ => hstatement.bind fun _ => (loose_pure _).same

theorem sameBelow_ret (hvalue : SameBelow n value value') :
    SameBelow n (ret value) (ret value') := by
  refine steady_advance.loose.same.bind fun start =>
    (steady_check .semicolon).loose.same.bind fun found => ?_
  have hend (value? : Option Expr) :=
    ((steady_expect .semicolon "expected ';' after return statement").bind fun _ =>
      steady_pure (Stmt.ret value? start.pos)).loose.same (n := n)
  cases found with
  | true => exact (loose_pure none).same.bind hend
  | false => exact (hvalue.map some).bind hend

theorem sameBelow_exprStmt (hvalue : SameBelow n value value') :
    SameBelow n (exprStmt value) (exprStmt value') := by
  rw [exprStmt_eq, exprStmt_eq]
  exact SameBelow.dispatch fun p => hvalue.bind fun _ =>
    ((steady_expect _ _).bind fun _ => steady_pure _).loose.same

theorem sameBelow_statementOf {conditional conditional' whileLoop whileLoop' : Parse Stmt}
    (hvalue : SameBelow n value value') (hblock : SameBelow n block block')
    (hconditional : SameBelow n conditional conditional')
    (hwhileLoop : SameBelow n whileLoop whileLoop') :
    SameBelow n (statementOf value block conditional whileLoop)
      (statementOf value' block' conditional' whileLoop') := by
  rw [statementOf_eq, statementOf_eq]
  refine SameBelow.dispatch fun p => ?_
  unfold statementAt
  split
  · exact hblock.map _
  · exact hconditional
  · exact hwhileLoop
  · exact sameBelow_ret hvalue
  · exact sameBelow_exprStmt hvalue

theorem sameBelow_declarationOf (hvalue : SameBelow n value value')
    (hblock : SameBelow n block block') (hstatement : SameBelow n statement statement') :
    SameBelow n (declarationOf value block statement)
      (declarationOf value' block' statement') := by
  rw [declarationOf_eq, declarationOf_eq]
  refine SameBelow.dispatch fun p => ?_
  unfold declarationAt
  split
  · exact sameBelow_varDecl hvalue
  · exact sameBelow_fnDecl hblock
  · exact hstatement

end

/-! ## A conditional by recursion -/

/-- A branch, and behind `naso` any statement as the other one. -/
def ifElse (value : Parse Expr) (statement : Parse Stmt) : Parse Stmt := do
  let first ← branch value statement
  if ← accept .naso then
    return first.toStmt (some (← statement))
  else
    return first.toStmt none

/-! The descent with another reader of conditionals: `form` makes it from the readers of its
condition and of its branches. -/

mutual

def blockWith (form : Parse Expr → Parse Stmt → Parse Stmt) : (room : Nat) → Parse Block
  | 0 => fun p => tooDeep p
  | room + 1 => fun p =>
      blockOf (declarationOf (value room) (blockWith form room) (statementWith form room)) p

def statementWith (form : Parse Expr → Parse Stmt → Parse Stmt) : (room : Nat) → Parse Stmt
  | 0 => fun p => statementOf (value 0) tooDeep tooDeep tooDeep p
  | room + 1 => fun p =>
      statementOf (value (room + 1))
        (blockOf (declarationOf (value room) (blockWith form room) (statementWith form room)))
        (form (value room) (statementWith form room))
        (whileLoop (value room) (statementWith form room)) p

end

section

variable (form : Parse Expr → Parse Stmt → Parse Stmt)

theorem blockWith_succ (room : Nat) :
    blockWith form (room + 1) =
      blockOf (declarationOf (value room) (blockWith form room) (statementWith form room)) := rfl

theorem statementWith_succ (room : Nat) :
    statementWith form (room + 1) =
      statementOf (value (room + 1)) (blockWith form (room + 1))
        (form (value room) (statementWith form room))
        (whileLoop (value room) (statementWith form room)) := rfl

theorem with_conditional (room : Nat) :
    blockWith conditional room = block room ∧ statementWith conditional room = statement room := by
  induction room with
  | zero => exact ⟨rfl, rfl⟩
  | succ room ih =>
      have hblock : blockWith conditional (room + 1) = block (room + 1) := by
        rw [blockWith_succ, ih.1, ih.2]
        rfl
      refine ⟨hblock, ?_⟩
      rw [statementWith_succ, hblock, ih.2]
      rfl

end

/-! ## The chain, link by link -/

section

variable {value : Parse Expr} {statement : Parse Stmt}

theorem length_ahead_of_branch (hvalue : Loose value) (hstatement : Loose statement)
    {p q : Parser} {b : Branch} (h : branch value statement p = .ok b q) :
    q.ahead.length < p.ahead.length := by
  obtain ⟨start, p₁, hstart, h⟩ := bind_ok h
  obtain ⟨cond, p₂, hcond, h⟩ := bind_ok h
  obtain ⟨body, _, hbody, hpure⟩ := bind_ok h
  cases hpure
  obtain ⟨lparen, p₃, hlparen, hcond⟩ := bind_ok hcond
  have hopens := length_ahead_of_expect hlparen
  have hclose (cond : Expr) := (steady_expect .rparen "expected ')' after condition").bind
    fun _ => steady_pure cond
  have hcloses := ((hvalue.bind fun cond => (hclose cond).loose).of_ok hcond).length_ahead_le
  have hstarts := (steady_advance.loose.of_ok hstart).length_ahead_le
  have hends := (hstatement.of_ok hbody).length_ahead_le
  omega

theorem links_eq (hbranch : Loose (branch value statement)) :
    bounded (links value statement) = (do
      if ← accept .naso then
        if ← check .abi then
          let link ← branch value statement
          let (more, else?) ← bounded (links value statement)
          return (link :: more, else?)
        else
          return ([], some (← statement))
      else
        return ([], none)) := by
  funext p
  have hsettles := settles_links hbranch
  rw [hsettles.bounded_eq (Nat.le_succ _)]
  refine bind_congr_at rfl fun found q hq => ?_
  cases found with
  | false => rfl
  | true =>
      obtain ⟨naso, -, hahead, -⟩ := accept_true hq
      refine bind_congr_at rfl ?_
      rintro chained _ ⟨⟩
      cases q.check .abi with
      | false => rfl
      | true =>
          refine bind_congr_at rfl fun link r hr => bind_congr_at ?_ fun _ _ _ => rfl
          have hlength := (hbranch.of_ok hr).length_ahead_le
          refine (hsettles.bounded_eq ?_).symm
          rw [hahead, List.length_cons]
          omega

/-- What stands behind `naso` in a chain: one that starts there, or the last branch. -/
def chained (value : Parse Expr) (statement : Parse Stmt) : Parse Stmt := do
  if ← check .abi then conditional value statement else statement

theorem conditional_eq (hbranch : Loose (branch value statement)) :
    conditional value statement = (do
      let first ← branch value statement
      if ← accept .naso then
        return first.toStmt (some (← chained value statement))
      else
        return first.toStmt none) := by
  refine bind_congr fun first => ?_
  rw [links_eq hbranch, bind_assoc]
  refine bind_congr fun found => ?_
  cases found with
  | false => rfl
  | true =>
      rw [if_pos rfl, if_pos rfl, chained, bind_assoc, bind_assoc]
      refine bind_congr fun links => ?_
      cases links with
      | false => simp [Branch.chain]
      | true => simp [conditional, Branch.chain]

end

/-! ## The two ways are the same -/

/-- In front of fewer than `n` tokens the two descents do the same, on any levels that cannot
run out before the tokens do. -/
structure PlainBelow (n : Nat) : Prop where
  block {room room' : Nat} (h : n ≤ room) (h' : n ≤ room') :
    SameBelow n (Parse.block room) (blockWith ifElse room')
  statement {room room' : Nat} (h : n ≤ room) (h' : n ≤ room') :
    SameBelow n (Parse.statement room) (statementWith ifElse room')
  conditional {room room' : Nat} (h : n ≤ room + 1) (h' : n ≤ room' + 1) :
    SameBelow n (Parse.conditional (value room) (Parse.statement room))
      (ifElse (value room') (statementWith ifElse room'))

theorem statementWith_of_abi (form : Parse Expr → Parse Stmt → Parse Stmt) (room : Nat)
    {p : Parser} (h : p.current.kind = .abi) :
    statementWith form (room + 1) p = form (value room) (statementWith form room) p := by
  rw [statementWith_succ, statementOf_eq]
  dsimp only
  rw [h]
  rfl

/-- The loop looks for the next link itself, the recursion leaves that to the statement. -/
theorem PlainBelow.chained (hplain : PlainBelow n) {room room' : Nat} (h : n ≤ room)
    (h' : n ≤ room') :
    SameBelow n (chained (value room) (Parse.statement room)) (statementWith ifElse room') where
  loose := (steady_check .abi).loose.bind fun links => by
    cases links with
    | true => exact (hplain.conditional (Nat.le_succ_of_le h) (Nat.le_succ_of_le h)).loose
    | false => exact (hplain.statement h h).loose
  eq {p} hp := by
    obtain ⟨room', rfl⟩ := Nat.exists_eq_add_one_of_ne_zero (show room' ≠ 0 by omega)
    rw [Parse.chained, bind_of_ok (show check .abi p = .ok (p.check .abi) p from rfl)]
    cases hcheck : p.check .abi with
    | false => exact (hplain.statement h h').eq hp
    | true =>
        obtain ⟨abi, rest, hahead, hkind⟩ := (p.check_eq_true_iff .abi).1 hcheck
        rw [statementWith_of_abi ifElse room' (Parser.current_of_ahead hahead ▸ hkind)]
        exact (hplain.conditional (Nat.le_succ_of_le h) h').eq hp

theorem PlainBelow.conditional_succ (hplain : PlainBelow n) {room room' : Nat} (h : n ≤ room)
    (h' : n ≤ room') :
    SameBelow (n + 1) (Parse.conditional (value room) (Parse.statement room))
      (ifElse (value room') (statementWith ifElse room')) := by
  have hbranch := sameBelow_branch (sameBelow_value h h') (hplain.statement h h')
  rw [conditional_eq hbranch.loose]
  refine hbranch.bind_succ
    (length_ahead_of_branch (steady_value room).loose (steady_statement room).loose) fun first => ?_
  refine (steady_accept .naso).loose.same.bind fun found => ?_
  cases found with
  | false => exact (loose_pure _).same
  | true => exact (hplain.chained h h').bind fun other => (loose_pure _).same

theorem PlainBelow.block_succ (hplain : PlainBelow n) {room room' : Nat} (h : n ≤ room)
    (h' : n ≤ room') : SameBelow (n + 1) (Parse.block (room + 1)) (blockWith ifElse (room' + 1)) :=
  sameBelow_blockOf
    (sameBelow_declarationOf (sameBelow_value h h') (hplain.block h h') (hplain.statement h h'))

theorem plainBelow (n : Nat) : PlainBelow n := by
  induction n with
  | zero =>
      refine ⟨fun {room _} _ _ => (steady_block room).loose.sameBelow_zero _,
        fun {room _} _ _ => (steady_statement room).loose.sameBelow_zero _,
        fun {room _} _ _ => Loose.sameBelow_zero ?_ _⟩
      exact (headed_conditional (steady_value room) (steady_statement room)).eager.steady.loose
  | succ n ih =>
      have hconditional {room room' : Nat} (h : n + 1 ≤ room + 1) (h' : n + 1 ≤ room' + 1) :=
        ih.conditional_succ (Nat.le_of_succ_le_succ h) (Nat.le_of_succ_le_succ h')
      refine ⟨?_, ?_, hconditional⟩
      all_goals
        intro room room' h h'
        obtain ⟨room, rfl⟩ := Nat.exists_eq_add_one_of_ne_zero (show room ≠ 0 by omega)
        obtain ⟨room', rfl⟩ := Nat.exists_eq_add_one_of_ne_zero (show room' ≠ 0 by omega)
        have hroom := Nat.le_of_succ_le_succ h
        have hroom' := Nat.le_of_succ_le_succ h'
      · exact ih.block_succ hroom hroom'
      · rw [statement_eq, statementWith_succ]
        exact sameBelow_statementOf (sameBelow_value h h') (ih.block_succ hroom hroom')
          (hconditional h h')
          (sameBelow_whileLoop (sameBelow_value hroom hroom') (ih.statement hroom hroom'))

theorem statement_of_abi (room : Nat) {p : Parser} (h : p.current.kind = .abi) :
    statement (room + 1) p = conditional (value room) (statement room) p := by
  rw [← (with_conditional room).2, ← (with_conditional (room + 1)).2]
  exact statementWith_of_abi conditional room h

theorem takes_statement (room : Nat) : TakesUpTo room (statement room) Statement := by
  intro w rest s h hroom
  obtain ⟨depth, hmeasured, hneeds⟩ := (reads_block_statement room).2 h hroom
  exact hneeds.takes room (Nat.le_trans hmeasured.depth_le hroom)

end Parse

open Parse

/--
With more levels left than tokens, a chain of conditionals is read as by recursion, where the
other branch is whatever the statement behind `naso` is.  In front of `abi` a reading without
a report is a conditional of the grammar, in which a branch goes without its `naso` only where
none follows: each `naso` belongs to the nearest `abi` that can take it.
-/
theorem chain_eq_recursion (room : Nat) (p : Parser) (hroom : p.ahead.length < room) :
    conditional (value room) (statement room) p =
        ifElse (value room) (statementWith ifElse room) p ∧
      (p.current.kind = .abi → p.mode = .normal → ∀ s q,
        conditional (value room) (statement room) p = .ok s q ∧ q.mode = .normal ↔
          ∃ w rest, p.ahead = w ++ rest ∧ Statement w rest s ∧ q = p.read w rest) := by
  refine ⟨((plainBelow room).conditional (Nat.le_succ _) (Nat.le_succ _)).eq hroom, ?_⟩
  intro habi hmode s q
  constructor
  · rintro ⟨hread, hq⟩
    have hsteady := (headed_conditional (steady_value room) (steady_statement room)).eager.steady
    obtain ⟨v, hv, heq⟩ := (hsteady.reaches hread).exists_read hq
    obtain ⟨w, hw, hphrase⟩ := recognizes_conditional (recognizes_value room)
      (recognizes_block_statement room).2 (steady_statement room) (steady_value room) p s q habi
      hread hq
    obtain rfl : v = w := List.append_cancel_right (hv.symm.trans hw)
    exact ⟨v, q.ahead, hv, hphrase, heq⟩
  · rintro ⟨w, rest, hahead, hphrase, rfl⟩
    have hlength : w.length ≤ room + 1 := by
      rw [hahead, List.length_append] at hroom
      omega
    rw [← statement_of_abi room habi]
    exact ⟨takes_statement (room + 1) hphrase hlength p hahead, hmode⟩

/-- The last `naso` belongs to the second link of the inner chain, not to the outer `abi`. -/
theorem chain_eq_recursion_nested :
    let tokens : List Token :=
      [(.abi, "abi"), (.lparen, "("), (.ident, "a"), (.rparen, ")"), (.abi, "abi"),
        (.lparen, "("), (.ident, "b"), (.rparen, ")"), (.comot, "comot"), (.semicolon, ";"),
        (.naso, "naso"), (.abi, "abi"), (.lparen, "("), (.ident, "c"), (.rparen, ")"),
        (.ident, "d"), (.semicolon, ";"), (.naso, "naso"), (.ident, "e"), (.semicolon, ";")].map
          fun (kind, text) => ⟨kind, text, .start, ⟨"main", "."⟩⟩
    let p := Parser.ofTokens tokens "main" 32
    let tree : Stmt :=
      .ifElse (.var "a" .start) (.ifElse (.var "b" .start) (.ret none .start)
        (some (.ifElse (.var "c" .start) (.expr (.var "d" .start) .start)
          (some (.expr (.var "e" .start) .start)) .start)) .start) none .start
    p.ahead.length < 32 ∧ p.current.kind = .abi ∧
      ifElse (value 32) (statementWith ifElse 32) p = .ok tree (p.read tokens []) ∧
      ∃ w rest, p.ahead = w ++ rest ∧ Statement w rest tree := by
  intro tokens p tree
  have hroom : p.ahead.length < 32 := by decide
  have hread : conditional (value 32) (statement 32) p = .ok tree (p.read tokens []) := rfl
  have hchain := chain_eq_recursion 32 p hroom
  refine ⟨hroom, rfl, hchain.1 ▸ hread, ?_⟩
  obtain ⟨w, rest, hahead, hphrase, -⟩ := (hchain.2 rfl rfl tree _).1 ⟨hread, rfl⟩
  exact ⟨w, rest, hahead, hphrase⟩

end Pidgin
