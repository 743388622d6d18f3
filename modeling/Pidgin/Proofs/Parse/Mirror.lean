import Pidgin.Proofs.Parse.Lockstep
import Pidgin.Proofs.Parse.Progress
import Pidgin.Proofs.Tree.Positions

/-!
# Every reader keeps in step

Each reader of the library agrees with itself on parsers that are in step, with
trees that are equal once their positions are moved.  An expression ends inside
the statement that it is part of; a statement or a block may be followed by
something that differs between the two parsers.
-/

namespace Pidgin

open Parse

/-! ## Rounds enough -/

namespace Parse

variable {α β : Type}

/-- Runs of two composed readers are equal if they are step by step. -/
theorem bind_congr_at {m m' : Parse α} {k k' : α → Parse β} {p : Parser} (hm : m p = m' p)
    (hk : ∀ a q, m' p = .ok a q → k a q = k' a q) : (m >>= k) p = (m' >>= k') p := by
  cases hresult : m' p with
  | ok a q => rw [bind_of_ok (hm.trans hresult), bind_of_ok hresult, hk a q hresult]
  | error d q => rw [bind_of_error (hm.trans hresult), bind_of_error hresult]

theorem settles_commaList {item : Parse α} (hitem : Loose item) : Settles (commaList item) := by
  intro rounds
  induction rounds with
  | zero =>
      intro p hp
      refine bind_congr_at rfl fun first q hq => ?_
      have hlength := (hitem.of_ok hq).length_ahead_le
      have hnone : accept .comma q = .ok false q := by
        have hahead := List.eq_nil_of_length_eq_zero (show q.ahead.length = 0 by omega)
        rw [accept_eq, Parser.check, hahead]
        rfl
      rw [bind_of_ok hnone]
      rfl
  | succ rounds ih =>
      intro p hp
      refine bind_congr_at rfl fun first q hq => bind_congr_at rfl fun found r hr => ?_
      have hlength := (hitem.of_ok hq).length_ahead_le
      cases found with
      | false => rfl
      | true =>
          obtain ⟨comma, -, hahead, -⟩ := accept_true hr
          rw [hahead, List.length_cons] at hlength
          exact bind_congr_at (ih r (by omega)) fun _ _ _ => rfl

section

variable {operand : Power → Parse Expr}

/-- At the end there is nothing to continue with. -/
theorem climb_of_nil {p : Parser} (h : p.ahead = []) (power : Power) (rounds : Nat) (left : Expr) :
    climb operand power rounds left p = .ok left p := by
  cases rounds with
  | zero => rfl
  | succ rounds =>
      change (if power ≤ p.current.kind.power then _ else _ : Parse Expr) p = _
      have hshift : p.shift = p := by simp [Parser.shift, h]
      have hkind : p.current.kind = .eof := by
        rw [Parser.current, h]
        exact p.stop_eof
      split
      · rw [bind_of_ok (show advance p = .ok p.current p.shift from rfl), hkind, hshift]
        rfl
      · rfl

theorem settles_climb
    (hcontinuation : ∀ form left token, Loose (continuation operand form left token))
    (power : Power) (left : Expr) : Settles fun rounds => climb operand power rounds left := by
  intro rounds
  induction rounds generalizing left with
  | zero =>
      intro p hp
      have hahead := List.eq_nil_of_length_eq_zero (Nat.le_zero.1 hp)
      dsimp only
      rw [climb_of_nil hahead, climb_of_nil hahead]
  | succ rounds ih =>
      intro p hp
      cases hahead : p.ahead with
      | nil =>
          dsimp only
          rw [climb_of_nil hahead, climb_of_nil hahead]
      | cons token rest =>
          have hrest : p.shift.ahead.length ≤ rounds := by
            rw [Parser.ahead_shift, List.length_tail]
            omega
          change (if power ≤ p.current.kind.power then _ else _ : Parse Expr) p =
            (if power ≤ p.current.kind.power then _ else _ : Parse Expr) p
          split
          · refine bind_congr_at rfl ?_
            rintro _ _ ⟨⟩
            cases (Rule.ofKind p.current.kind).continuation? with
            | none => rfl
            | some form =>
                refine bind_congr_at rfl fun next r hr => ih next r ?_
                exact Nat.le_trans ((hcontinuation form left _).of_ok hr).length_ahead_le hrest
          · rfl

end

theorem settles_links {value : Parse Expr} {statement : Parse Stmt}
    (hbranch : Loose (branch value statement)) : Settles (links value statement) := by
  intro rounds
  induction rounds with
  | zero =>
      intro p hp
      have hnone : accept .naso p = .ok false p := by
        rw [accept_eq, Parser.check, List.eq_nil_of_length_eq_zero (Nat.le_zero.1 hp)]
        rfl
      exact bind_of_ok hnone
  | succ rounds ih =>
      intro p hp
      refine bind_congr_at rfl fun found q hq => ?_
      cases found with
      | false => rfl
      | true =>
          obtain ⟨naso, -, hahead, -⟩ := accept_true hq
          rw [hahead, List.length_cons] at hp
          refine bind_congr_at rfl ?_
          rintro chained _ ⟨⟩
          cases q.check .abi with
          | false => rfl
          | true =>
              refine bind_congr_at rfl fun link r hr => ?_
              have hlength := (hbranch.of_ok hr).length_ahead_le
              exact bind_congr_at (ih r (by omega)) fun _ _ _ => rfl

/-- A reader whose failure is passed over if it has read something. -/
def attempt (m : Parse α) : Parse (Option α) := fun p =>
  match m p with
  | .ok a q => .ok (some a) q
  | .error d q => if q.cursor = p.cursor then .error d q else .ok none q

theorem items_succ (declaration : Parse Stmt) (rounds : Nat) :
    items declaration (rounds + 1) = fun p =>
      if p.check .rbrace || p.atEnd then (pure [] : Parse (List Stmt)) p
      else (attempt declaration >>= fun item? =>
        (item?.toList ++ ·) <$> items declaration rounds) p := by
  funext p
  rw [items]
  dsimp only
  split
  · rfl
  · cases hresult : declaration p with
    | ok item q =>
        have hattempt : attempt declaration p = .ok (some item) q := by rw [attempt, hresult]
        rw [bind_of_ok hattempt]
        rfl
    | error d q =>
        dsimp only
        split
        · rename_i hstays
          have hattempt : attempt declaration p = .error d q := by
            rw [attempt, hresult]
            exact if_pos hstays
          rw [bind_of_error hattempt]
        · rename_i hmoves
          have hattempt : attempt declaration p = .ok none q := by
            rw [attempt, hresult]
            exact if_neg hmoves
          rw [bind_of_ok hattempt]
          exact (congrFun (id_map _) q).symm

theorem parserOf_attempt (m : Parse α) (p : Parser) : parserOf (attempt m p) = parserOf (m p) := by
  unfold attempt
  cases m p with
  | ok a q => rfl
  | error d q =>
      dsimp only
      split <;> rfl

theorem loose_attempt {m : Parse α} (hm : Loose m) : Loose (attempt m) where
  drifts p := by
    rw [parserOf_attempt]
    exact hm.drifts p
  panics {p q d} h := by
    unfold attempt at h
    cases hresult : m p with
    | ok a r =>
        rw [hresult] at h
        cases h
    | error e r =>
        rw [hresult] at h
        dsimp only at h
        split at h <;> cases h
        exact hm.panics hresult

theorem length_ahead_of_attempt {m : Parse α} (hm : Loose m)
    (hmoves : ∀ p a q, p.ahead ≠ [] → m p = .ok a q → q.cursor ≠ p.cursor) {p q : Parser}
    {a? : Option α} (hp : p.ahead ≠ []) (h : attempt m p = .ok a? q) :
    q.ahead.length < p.ahead.length := by
  have hdrifts := (loose_attempt hm).of_ok h
  have hmoved : q.cursor ≠ p.cursor := by
    unfold attempt at h
    cases hresult : m p with
    | ok a r =>
        rw [hresult] at h
        cases h
        exact hmoves p a q hp hresult
    | error d r =>
        rw [hresult] at h
        dsimp only at h
        split at h <;> cases h
        assumption
  have htokens := congrArg List.length hdrifts.tokens_eq
  have hcursor := hdrifts.cursor_le
  rw [Parser.length_tokens, Parser.length_tokens] at htokens
  omega

theorem settles_items {declaration : Parse Stmt} (hdeclaration : Loose declaration)
    (hmoves : ∀ p s q, p.ahead ≠ [] → declaration p = .ok s q → q.cursor ≠ p.cursor) :
    Settles (items declaration) := by
  intro rounds
  induction rounds with
  | zero =>
      intro p hp
      have hend : p.atEnd = true := by simpa [Parser.atEnd] using hp
      rw [items_succ]
      simp only [hend, Bool.or_true, if_true]
      rfl
  | succ rounds ih =>
      intro p hp
      have hmore := congrFun (items_succ declaration (rounds + 1)) p
      have henough := congrFun (items_succ declaration rounds) p
      rw [hmore, henough]
      split
      · rfl
      · rename_i hgoes
        have hahead := Parser.ahead_ne_nil (Bool.eq_false_iff.2 hgoes)
        refine bind_congr_at rfl fun item? q hq => ?_
        have hshorter := length_ahead_of_attempt hdeclaration hmoves hahead hq
        rw [← bind_pure_comp, ← bind_pure_comp]
        exact bind_congr_at (ih q (by omega)) fun _ _ _ => rfl

/-! ## Readers by the token in front -/

section

variable (value : Parse Expr) (block : Parse Block) (statement conditional whileLoop : Parse Stmt)

def exprStmtAt (start : Token) : Parse Stmt := do
  let result ← value
  let _ ← expect .semicolon "expected ';' after expression"
  return .expr result start.pos

theorem exprStmt_eq : exprStmt value = fun p => exprStmtAt value p.current p := rfl

def statementAt : Kind → Parse Stmt
  | .lbrace => Stmt.ofBlock <$> block
  | .abi => conditional
  | .waka => whileLoop
  | .comot => ret value
  | _ => exprStmt value

theorem statementOf_eq :
    statementOf value block conditional whileLoop = fun p =>
      statementAt value block conditional whileLoop p.current.kind p := by
  funext p
  unfold statementOf statementAt
  split <;> simp_all

def declarationAt : Kind → Parse Stmt
  | .abeg => varDecl value
  | .oya => fnDecl block
  | _ => statement

theorem declarationOf_eq :
    declarationOf value block statement = fun p =>
      declarationAt value block statement p.current.kind p := by
  funext p
  unfold declarationOf declarationAt
  split <;> simp_all

end

end Parse

namespace Lockstep

variable {L : Lockstep} {α γ : Type} {g : α → γ}

/-! ## Lists -/

theorem agrees_commaList {item : Parse α} (hitem : L.Agrees .inside .inside g item item)
    (rounds : Nat) :
    L.Agrees .inside .inside (List.map g) (commaList item rounds) (commaList item rounds) := by
  induction rounds with
  | zero => exact hitem.bind_pure fun a b hview => by simp [hview]
  | succ rounds ih =>
      refine hitem.bind fun first first' hfirst => ?_
      refine (agrees_accept .comma (by decide)).bind fun found found' hfound => ?_
      cases hfound
      cases found with
      | false => exact agrees_pure (by simp [hfirst])
      | true => exact ih.bind_pure fun more more' hmore => by simp [hfirst, hmore]

theorem agrees_listUpTo (close : Kind) (expectation : String)
    (hclose : close ≠ .semicolon ∧ close ≠ .eof) {item : Parse α}
    (hitem : L.Agrees .inside .inside g item item) :
    L.Agrees .inside .inside (List.map g) (listUpTo close expectation item)
      (listUpTo close expectation item) := by
  have hend (items items' : List α) (hitems : items.map g = items'.map g) :
      L.Agrees .inside .inside (List.map g)
        (expect close expectation >>= fun _ => pure items)
        (expect close expectation >>= fun _ => pure items') :=
    (agrees_expect close expectation hclose).bind_pure fun _ _ _ => hitems
  have hsettles := settles_commaList hitem.left
  exact agrees_check (((agrees_pure rfl).bind hend).before close)
    ((agrees_bounded hsettles hsettles (agrees_commaList hitem)).bind hend)

/-! ## Expressions -/

def targetName? : Expr → Option String
  | .var name _ => some name
  | _ => none

theorem targetName?_relocate (f : Position → Position) (e : Expr) :
    targetName? (e.relocate f) = targetName? e := by
  cases e <;> rfl

theorem assignment_eq (operand : Power → Parse Expr) (target : Expr) (token : Token) :
    assignment operand target token =
      match targetName? target with
      | some name => operand .assignment >>= fun value => pure (.assign name value token.pos)
      | none => Parse.report token .invalidTarget >>= fun _ => pure target := by
  cases target <;> rfl

section

variable {operand : Power → Parse Expr}
  (hoperand : ∀ power, power ≠ .none →
    L.Agrees .inside .inside (Expr.relocate L.view) (operand power) (operand power))
  {token token' : Token} (hseen : token.seen L.view = token'.seen L.view)

include hseen

theorem agrees_literal :
    L.Agrees .inside .inside (Expr.relocate L.view) (literal token) (literal token') := by
  unfold literal
  rw [Literal.ofToken_of_seen hseen]
  cases Literal.ofToken token' with
  | ok value => exact agrees_pure (by simp [Expr.relocate, Token.pos_of_seen hseen])
  | error cause => exact agrees_fail hseen cause

include hoperand

theorem agrees_unary :
    L.Agrees .inside .inside (Expr.relocate L.view) (unary operand token)
      (unary operand token') :=
  (hoperand .unary nofun).bind_pure fun e e' he => by
    simp [Expr.relocate, he, Token.kind_of_seen hseen, Token.pos_of_seen hseen]

omit hseen in
theorem agrees_grouping :
    L.Agrees .inside .inside (Expr.relocate L.view) (grouping operand) (grouping operand) :=
  (hoperand .assignment nofun).bind fun _ _ he =>
    (agrees_expect .rparen _ (by decide)).bind_pure fun _ _ _ => he

theorem agrees_array :
    L.Agrees .inside .inside (Expr.relocate L.view) (array operand token)
      (array operand token') :=
  (agrees_listUpTo .rbracket _ (by decide) (hoperand .assignment nofun)).bind_pure
    fun es es' hes => by
      simp [Expr.relocate, Expr.relocateAll_eq_map, hes, Token.pos_of_seen hseen]

theorem agrees_opening :
    L.Agrees .inside .inside (Expr.relocate L.view) (opening operand token)
      (opening operand token') := by
  unfold opening
  rw [← Token.kind_of_seen hseen, Token.describe_of_seen hseen]
  cases hform : (Rule.ofKind token.kind).opening? with
  | none => exact agrees_fail hseen _
  | some form =>
      cases form with
      | literal => exact agrees_literal hseen
      | var =>
          have heof : token.kind ≠ .eof := by
            intro heof
            rw [heof] at hform
            cases hform
          exact agrees_pure (by
            simp [Expr.relocate, Token.text_of_seen hseen heof, Token.pos_of_seen hseen])
      | unary => exact agrees_unary hoperand hseen
      | grouping => exact agrees_grouping hoperand
      | array => exact agrees_array hoperand hseen

variable {left left' : Expr} (hleft : left.relocate L.view = left'.relocate L.view)

include hleft

theorem agrees_binary :
    L.Agrees .inside .inside (Expr.relocate L.view) (binary operand left token)
      (binary operand left' token') := by
  have hkind := Token.kind_of_seen hseen
  have hnext : token'.kind.power.next ≠ .none := by
    cases token'.kind.power <;> nofun
  unfold binary
  rw [hkind]
  exact (hoperand _ hnext).bind_pure fun e e' he => by
    simp [Expr.relocate, hleft, he, Token.pos_of_seen hseen]

theorem agrees_call :
    L.Agrees .inside .inside (Expr.relocate L.view) (call operand left token)
      (call operand left' token') :=
  (agrees_listUpTo .rparen _ (by decide) (hoperand .assignment nofun)).bind_pure
    fun es es' hes => by
      simp [Expr.relocate, Expr.relocateAll_eq_map, hleft, hes, Token.pos_of_seen hseen]

theorem agrees_index :
    L.Agrees .inside .inside (Expr.relocate L.view) (index operand left token)
      (index operand left' token') :=
  (hoperand .assignment nofun).bind fun e e' he =>
    (agrees_expect .rbracket _ (by decide)).bind_pure fun _ _ _ => by
      simp [Expr.relocate, hleft, he, Token.pos_of_seen hseen]

/-- Targets that are equal up to positions can both be assigned to or neither can. -/
theorem agrees_assignment :
    L.Agrees .inside .inside (Expr.relocate L.view) (assignment operand left token)
      (assignment operand left' token') := by
  have hname : targetName? left = targetName? left' := by
    rw [← targetName?_relocate L.view, hleft, targetName?_relocate]
  rw [assignment_eq, assignment_eq, hname]
  cases targetName? left' with
  | some name =>
      exact (hoperand .assignment nofun).bind_pure fun e e' he => by
        simp [Expr.relocate, he, Token.pos_of_seen hseen]
  | none => exact (agrees_report hseen _).bind_pure fun _ _ _ => hleft

theorem agrees_continuation (form : Continuation) :
    L.Agrees .inside .inside (Expr.relocate L.view) (continuation operand form left token)
      (continuation operand form left' token') := by
  cases form with
  | binary => exact agrees_binary hoperand hseen hleft
  | call => exact agrees_call hoperand hseen hleft
  | index => exact agrees_index hoperand hseen hleft
  | assignment => exact agrees_assignment hoperand hseen hleft

omit hseen

theorem agrees_climb {power : Power} (hpower : power = .none → L.Seamless) (rounds : Nat) :
    L.Agrees .inside .inside (Expr.relocate L.view) (climb operand power rounds left)
      (climb operand power rounds left') := by
  induction rounds generalizing left left' with
  | zero => exact agrees_pure hleft
  | succ rounds ih =>
      refine agrees_dispatch
        (f := fun kind => if power ≤ kind.power then _ else _)
        (k := fun kind => if power ≤ kind.power then _ else _) fun kind => ?_
      split
      · rename_i hbinds
        -- Only where anything continues an expression can a semicolon do so.
        have hsemicolon : kind = .semicolon → L.Seamless := by
          rintro rfl
          exact hpower (Power.rank_injective (Nat.le_zero.1 hbinds))
        refine (agrees_advance kind hsemicolon).bind fun token token' hseen => ?_
        rw [Token.kind_of_seen hseen]
        cases (Rule.ofKind token'.kind).continuation? with
        | none => exact agrees_pure hleft
        | some form => exact (agrees_continuation hoperand hseen hleft form).bind fun _ _ => ih
      · exact (agrees_pure hleft).before kind

omit hleft

theorem agrees_operation {power : Power} (hpower : power = .none → L.Seamless) :
    L.Agrees .inside .inside (Expr.relocate L.view) (operation operand power)
      (operation operand power) := by
  have hloose (form : Continuation) (left : Expr) (token : Token) :
      Loose (continuation operand form left token) :=
    (agrees_continuation hoperand rfl rfl form).left
  have hrest (left left' : Expr) (hleft : left.relocate L.view = left'.relocate L.view) :
      L.Agrees .inside .inside (Expr.relocate L.view)
        (bounded fun rounds => climb operand power rounds left)
        (bounded fun rounds => climb operand power rounds left') :=
    agrees_bounded (settles_climb hloose power left) (settles_climb hloose power left')
      fun rounds => agrees_climb hoperand hleft hpower rounds
  refine agrees_advance_bind ?_ ?_
  · intro token token' hseen _
    exact (agrees_opening hoperand hseen).bind hrest
  · -- A semicolon opens no expression.
    intro token token' hseen hkind
    have hfails : L.Agrees .after .inside (Expr.relocate L.view) (opening operand token)
        (opening operand token') := by
      unfold opening
      rw [Token.kind_of_seen hseen, Token.describe_of_seen hseen, hkind]
      exact agrees_fail hseen _
    exact hfails.bind hrest

end

theorem agrees_expression (room : Nat) {power : Power} (hpower : power = .none → L.Seamless) :
    L.Agrees .inside .inside (Expr.relocate L.view) (expression room power)
      (expression room power) := by
  induction room generalizing power with
  | zero => exact agrees_tooDeep
  | succ room ih => exact agrees_operation (fun power hnone => ih fun h => absurd h hnone) hpower

theorem agrees_value (room : Nat) :
    L.Agrees .inside .inside (Expr.relocate L.view) (value room) (value room) :=
  agrees_expression room nofun

/-! ## Declarations -/

theorem agrees_typeName (expectation : String) :
    L.Agrees .inside .inside id (typeName expectation) (typeName expectation) :=
  (agrees_expect .typeName _ (by decide)).bind_pure fun _ _ htype => congrArg Prod.fst htype

theorem agrees_annotation? (expectation : String) :
    L.Agrees .inside .inside id (annotation? expectation) (annotation? expectation) := by
  refine (agrees_accept .colon (by decide)).bind fun found found' hfound => ?_
  cases hfound
  cases found with
  | true => exact (agrees_typeName expectation).bind_pure fun _ _ htype => congrArg some htype
  | false => exact agrees_pure rfl

theorem agrees_param : L.Agrees .inside .inside id param param :=
  (agrees_expect .ident _ (by decide)).bind fun name name' hname =>
    (agrees_expect .colon _ (by decide)).bind fun _ _ _ =>
      (agrees_typeName _).bind_pure fun type type' htype => by
        simp_all

section

variable {value : Parse Expr} {block : Parse Block} {statement declaration : Parse Stmt}
  (hvalue : L.Agrees .inside .inside (Expr.relocate L.view) value value)
  (hblock : L.Agrees .inside .after (Block.relocate L.view) block block)
  (hstatement : L.Agrees .inside .after (Stmt.relocate L.view) statement statement)
  (hdeclaration : L.Agrees .inside .after (Stmt.relocate L.view) declaration declaration)
  (kind : Kind) (hkind : kind = .semicolon → L.Seamless)

include hvalue in
theorem agrees_initializer? :
    L.Agrees .inside .inside (Option.map (Expr.relocate L.view)) (initializer? value)
      (initializer? value) := by
  refine (agrees_accept .assign (by decide)).bind fun found found' hfound => ?_
  cases hfound
  cases found with
  | true => exact hvalue.bind_pure fun _ _ hinit => congrArg some hinit
  | false => exact agrees_pure rfl

/-! The forms that start with a word step over it without a look at what it is. -/

include hkind hvalue in
theorem agrees_varDecl :
    L.Agrees (.before kind) .after (Stmt.relocate L.view) (varDecl value) (varDecl value) :=
  (agrees_advance kind hkind).bind fun _ _ hstart =>
    (agrees_expect .ident _ (by decide)).bind fun _ _ hname =>
      (agrees_annotation? _).bind fun _ _ htype =>
        (agrees_initializer? hvalue).bind fun _ _ hinit =>
          (agrees_close .semicolon _).bind_pure fun _ _ _ => by
            simp_all [Stmt.relocate, Token.pos_of_seen hstart]

include hkind hblock in
theorem agrees_fnDecl :
    L.Agrees (.before kind) .after (Stmt.relocate L.view) (fnDecl block) (fnDecl block) :=
  (agrees_advance kind hkind).bind fun _ _ hstart =>
    (agrees_expect .ident _ (by decide)).bind fun _ _ hname =>
      (agrees_expect .lparen _ (by decide)).bind fun _ _ _ =>
        (agrees_listUpTo .rparen _ (by decide) agrees_param).bind fun _ _ hparams =>
          (agrees_annotation? _).bind fun _ _ hreturns =>
            hblock.bind_pure fun body body' hbody => by
              simp_all [Stmt.relocate, Block.relocate, Token.pos_of_seen hstart]

/-! ## Blocks -/

include hdeclaration

/-- Whether anything was read is a matter of the cursors, which keep their distance. -/
theorem agrees_attempt :
    L.Agrees .inside .after (Option.map (Stmt.relocate L.view)) (attempt declaration)
      (attempt declaration) where
  left := loose_attempt hdeclaration.left
  right := loose_attempt hdeclaration.right
  demands halive := hdeclaration.demands (parserOf_attempt declaration _ ▸ halive)
  agree {p q} hpq halive := by
    have hmatch := hdeclaration.agree hpq (parserOf_attempt declaration q ▸ halive)
    unfold attempt
    cases hq : declaration q with
    | ok b r =>
        rw [hq] at hmatch
        obtain ⟨a, p', hp, hview, hpast⟩ := hmatch.exists_ok
        rw [hp]
        exact ⟨congrArg some hview, hpast⟩
    | error e r =>
        rw [hq] at hmatch
        obtain ⟨d, p', hp, hseen, hpast⟩ := hmatch.exists_error
        have hcursor : p'.cursor = p.cursor ↔ r.cursor = q.cursor := by
          rw [L.cursor_eq hpast, L.cursor_eq (L.past_of_near hpq)]
          omega
        rw [hp]
        dsimp only
        simp only [hcursor]
        split
        · exact ⟨hseen, hpast⟩
        · exact ⟨rfl, hpast⟩

theorem agrees_items (hcomposite : L.composite) (rounds : Nat) :
    L.Agrees .inside .inside (List.map (Stmt.relocate L.view)) (items declaration rounds)
      (items declaration rounds) := by
  induction rounds with
  | zero => exact agrees_pure rfl
  | succ rounds ih =>
      rw [items_succ]
      refine agrees_cond ?_ (agrees_pure rfl) ?_
      · intro p q hpq
        rw [check_eq hpq, L.atEnd_eq hpq]
      · refine ((agrees_attempt hdeclaration).reenter hcomposite).bind fun item? item?' hitem => ?_
        refine ih.map fun items items' hitems => ?_
        cases item? <;> cases item?' <;> simp_all

theorem agrees_blockOf (hsteady : Steady declaration)
    (hmoves : ∀ p s q, p.ahead ≠ [] → declaration p = .ok s q → q.cursor ≠ p.cursor) :
    L.Agrees .inside .after (Block.relocate L.view) (blockOf declaration)
      (blockOf declaration) := by
  by_cases hcomposite : L.composite
  · have hsettles := settles_items hsteady.loose hmoves
    exact (agrees_expect .lbrace _ (by decide)).bind fun _ _ hstart =>
      (agrees_bounded hsettles hsettles (agrees_items hdeclaration hcomposite)).bind
        fun _ _ hbody => (agrees_close .rbrace _).bind_pure fun _ _ _ => by
          simp_all [Block.relocate, Stmt.relocateAll_eq_map]
  · -- No statement is inside another one, so no brace is met.
    have hrest (start : Token) := (steady_bounded (steady_items hsteady)).bind fun body =>
      (steady_expect .rbrace "expected '\x7d' after block").bind fun _ =>
        steady_pure (Block.mk body start.pos)
    refine (agrees_close .lbrace _).bind_of_failing (fun start => (hrest start).loose)
      (fun start => (hrest start).loose) ?_
    intro p q start r hpq hstart
    obtain ⟨hkind, hahead, -⟩ := expect_ok hstart
    refine hcomposite (L.composite_of_near hpq (.inl ?_))
    rwa [Parser.current_of_ahead hahead]

omit hdeclaration

/-! ## Conditionals, loops and simple statements -/

include hvalue in
theorem agrees_condition (keyword : String) :
    L.Agrees .inside .inside (Expr.relocate L.view) (condition keyword value)
      (condition keyword value) :=
  (agrees_expect .lparen _ (by decide)).bind fun _ _ _ => hvalue.bind fun _ _ hcond =>
    (agrees_expect .rparen _ (by decide)).bind_pure fun _ _ _ => hcond

include hkind hvalue in
theorem agrees_ret :
    L.Agrees (.before kind) .after (Stmt.relocate L.view) (ret value) (ret value) := by
  refine (agrees_advance kind hkind).bind fun start start' hstart => ?_
  have hend (value? value?' : Option Expr)
      (hvalue? : value?.map (Expr.relocate L.view) = value?'.map (Expr.relocate L.view)) :
      L.Agrees .inside .after (Stmt.relocate L.view)
        (expect .semicolon "expected ';' after return statement" >>= fun _ =>
          pure (.ret value? start.pos))
        (expect .semicolon "expected ';' after return statement" >>= fun _ =>
          pure (.ret value?' start'.pos)) :=
    (agrees_close .semicolon _).bind_pure fun _ _ _ => by
      simp [Stmt.relocate, hvalue?, Token.pos_of_seen hstart]
  have hsome : L.Agrees .inside .inside (Option.map (Expr.relocate L.view)) (some <$> value)
      (some <$> value) :=
    hvalue.map fun _ _ h => congrArg some h
  exact agrees_check (((agrees_pure rfl).bind hend).before .semicolon) (hsome.bind hend)

include hvalue in
theorem agrees_exprStmt :
    L.Agrees .inside .after (Stmt.relocate L.view) (exprStmt value) (exprStmt value) := by
  rw [exprStmt_eq]
  refine agrees_current fun token token' hseen => ?_
  exact hvalue.bind fun _ _ hresult => (agrees_close .semicolon _).bind_pure fun _ _ _ => by
    simp [Stmt.relocate, hresult, Token.pos_of_seen hseen]

include hvalue hstatement

include hkind in
theorem agrees_whileLoop :
    L.Agrees (.before kind) .after (Stmt.relocate L.view) (whileLoop value statement)
      (whileLoop value statement) :=
  (agrees_advance kind hkind).bind fun _ _ hstart =>
    (agrees_condition hvalue _).bind fun _ _ hcond => hstatement.bind_pure fun _ _ hbody => by
      simp [Stmt.relocate, hcond, hbody, Token.pos_of_seen hstart]

include hkind in
theorem agrees_branch :
    L.Agrees (.before kind) .after (Branch.relocate L.view) (branch value statement)
      (branch value statement) :=
  (agrees_advance kind hkind).bind fun _ _ hstart =>
    (agrees_condition hvalue _).bind fun _ _ hcond => hstatement.bind_pure fun _ _ hbody => by
      simp [Branch.relocate, hcond, hbody, Token.pos_of_seen hstart]

theorem agrees_links (hcomposite : L.composite) (rounds : Nat) :
    L.Agrees .after .after
      (fun chain => (chain.1.map (Branch.relocate L.view), chain.2.map (Stmt.relocate L.view)))
      (links value statement rounds) (links value statement rounds) := by
  induction rounds with
  | zero => exact agrees_pure rfl
  | succ rounds ih =>
      refine agrees_accept_naso hcomposite ?_ (agrees_pure rfl)
      refine agrees_check ?_ (hstatement.bind_pure fun _ _ hlast => by simp [hlast])
      refine (agrees_branch hvalue hstatement .abi nofun).bind fun link link' hlink => ?_
      refine ih.bind fun chain chain' hchain => agrees_pure ?_
      simp_all

include hkind in
theorem agrees_conditional (hother : kind ≠ .abi → L.composite) (hvalue' : Steady value)
    (hstatement' : Steady statement) :
    L.Agrees (.before kind) .after (Stmt.relocate L.view) (conditional value statement)
      (conditional value statement) := by
  have hbranch := agrees_branch hvalue hstatement kind hkind
  by_cases hcomposite : L.composite
  · have hsettles := settles_links hbranch.left
    refine hbranch.bind fun first first' hfirst => ?_
    refine (agrees_bounded hsettles hsettles (agrees_links hvalue hstatement hcomposite)).bind
      fun chain chain' hchain => agrees_pure ?_
    simp_all [Branch.relocate_chain]
  · -- No statement is inside another one, so no conditional is met.
    have hrest (first : Branch) := (steady_bounded (steady_links hvalue' hstatement')).bind
      fun chain => steady_pure (first.chain chain.1 chain.2)
    refine hbranch.bind_of_failing (fun first => (hrest first).loose)
      (fun first => (hrest first).loose) ?_
    intro p q first r hpq _
    have habi : kind = .abi := Decidable.byContradiction fun h => hcomposite (hother h)
    exact hcomposite (L.composite_of_near hpq.1 (.inr (hpq.2.trans habi)))

end

/-! ## The descent -/

section

variable {value : Parse Expr} {block : Parse Block} {statement conditional whileLoop : Parse Stmt}
  (hvalue : L.Agrees .inside .inside (Expr.relocate L.view) value value)
  (hblock : L.Agrees .inside .after (Block.relocate L.view) block block)

include hvalue hblock

theorem agrees_statementOf
    (hconditional : L.Agrees (.before .abi) .after (Stmt.relocate L.view) conditional conditional)
    (hwhileLoop : L.Agrees (.before .waka) .after (Stmt.relocate L.view) whileLoop whileLoop) :
    L.Agrees .inside .after (Stmt.relocate L.view)
      (statementOf value block conditional whileLoop)
      (statementOf value block conditional whileLoop) := by
  rw [statementOf_eq]
  refine agrees_dispatch fun kind => ?_
  unfold statementAt
  split
  · exact (hblock.map fun b b' hb => by
      simp_all [Stmt.ofBlock, Stmt.relocate, Block.relocate]).before _
  · exact hconditional
  · exact hwhileLoop
  · exact agrees_ret hvalue .comot nofun
  · exact (agrees_exprStmt hvalue).before _

theorem agrees_declarationOf
    (hstatement : L.Agrees .inside .after (Stmt.relocate L.view) statement statement) :
    L.Agrees .inside .after (Stmt.relocate L.view) (declarationOf value block statement)
      (declarationOf value block statement) := by
  rw [declarationOf_eq]
  refine agrees_dispatch fun kind => ?_
  unfold declarationAt
  split
  · exact agrees_varDecl hvalue .abeg nofun
  · exact agrees_fnDecl hblock .oya nofun
  · exact hstatement.before _

end

theorem agrees_block_statement (room : Nat) :
    L.Agrees .inside .after (Block.relocate L.view) (block room) (block room) ∧
      L.Agrees .inside .after (Stmt.relocate L.view) (statement room) (statement room) := by
  induction room with
  | zero =>
      have hblock : L.Agrees .inside .after (Block.relocate L.view) (block 0) (block 0) := by
        rw [block_eq]
        exact agrees_tooDeep
      refine ⟨hblock, ?_⟩
      rw [statement_eq]
      exact agrees_statementOf (agrees_value 0) hblock (agrees_tooDeep.before _)
        (agrees_tooDeep.before _)
  | succ room ih =>
      have hmoves : ∀ (p : Parser) (s : Stmt) (q : Parser), p.ahead ≠ [] →
          declaration room p = .ok s q → q.cursor ≠ p.cursor := by
        intro p s q hahead hresult
        rcases moves_or_runsOut room hahead with hmoved | hout
        · simp only [Turn.Moves, Turn.stop, hresult, parserOf] at hmoved
          omega
        · rw [Turn.RunsOut, hresult] at hout
          cases hout
      have hblock : L.Agrees .inside .after (Block.relocate L.view) (block (room + 1))
          (block (room + 1)) := by
        rw [block_eq]
        exact agrees_blockOf (agrees_declarationOf (agrees_value room) ih.1 ih.2)
          (steady_declaration room) hmoves
      refine ⟨hblock, ?_⟩
      rw [statement_eq]
      exact agrees_statementOf (agrees_value _) hblock
        (agrees_conditional (agrees_value room) ih.2 .abi (by simp) (absurd rfl) (steady_value room)
          (steady_statement room))
        (agrees_whileLoop (agrees_value room) ih.2 .waka (by simp))

theorem agrees_declaration (room : Nat) :
    L.Agrees .inside .after (Stmt.relocate L.view) (declaration room) (declaration room) :=
  agrees_declarationOf (agrees_value room) (agrees_block_statement room).1
    (agrees_block_statement room).2

/-! ## One turn -/

theorem Matches.turn {t : Stage} {g : Stmt → γ} {p q : Parser}
    {result result' : EStateM.Result Diagnostic Parser Stmt} (h : L.Matches t g result result') :
    (Turn.item? ⟨p, result⟩).map g = (Turn.item? ⟨q, result'⟩).map g ∧
      L.past (parserOf result) (parserOf result') := by
  cases result' with
  | ok b r =>
      obtain ⟨a, p', rfl, hview, hrel⟩ := h.exists_ok
      exact ⟨congrArg some hview, hrel.past⟩
  | error e r =>
      obtain ⟨d, p', rfl, -, hpast⟩ := h.exists_error
      exact ⟨rfl, hpast⟩

end Lockstep

theorem Twins.turn {view : Position → Position} {offset : Nat} {alike : Parser → Parser → Prop}
    (h : Twins view offset alike) (room : Nat) {p q : Parser} (hpq : alike p q) :
    (Turn.item? ⟨p, declaration room p⟩).map (Stmt.relocate view) =
        (Turn.item? ⟨q, declaration room q⟩).map (Stmt.relocate view) ∧
      alike (parserOf (declaration room p)) (parserOf (declaration room q)) :=
  ((Lockstep.agrees_declaration (L := h.lockstep) room).agree hpq trivial).turn

/-- Twins that stay twins over each round have read the same in the end. -/
theorem Twins.declarations {view : Position → Position} {offset : Nat}
    {alike : Parser → Parser → Prop} (h : Twins view offset alike) {room : Nat}
    (hround : ∀ {p q : Parser}, alike p q → q.atEnd = false →
      alike (p.round (declaration room)).2 (q.round (declaration room)).2)
    (rounds : Nat) {p q : Parser} (hpq : alike p q) :
    (p.declarations (declaration room) rounds).1.map (Stmt.relocate view) =
        (q.declarations (declaration room) rounds).1.map (Stmt.relocate view) ∧
      alike (p.declarations (declaration room) rounds).2
        (q.declarations (declaration room) rounds).2 := by
  induction rounds generalizing p q with
  | zero => exact ⟨rfl, hpq⟩
  | succ rounds ih =>
      have hend := h.atEnd_eq hpq
      cases hq : q.atEnd with
      | true => simpa [Parser.declarations, hend, hq] using hpq
      | false =>
          have hitem := (h.turn room hpq).1
          obtain ⟨hitems, hlast⟩ := ih (hround hpq hq)
          simp only [Parser.declarations, hend, hq, Bool.false_eq_true, if_false, List.map_append,
            hitems]
          refine ⟨congrArg (· ++ _) ?_, hlast⟩
          rw [Parser.round_eq, Parser.round_eq, ← Option.toList_map, ← Option.toList_map]
          exact congrArg Option.toList hitem

end Pidgin
