import Pidgin.Parse.Expression

/-!
# Statements

Statements and declarations are read by descent.  The readers of the single
forms take the readers of their parts as parameters; `block`, `statement` and
`declaration` tie them together by recursion on the levels of nesting that are
left.  A block, a conditional and a loop each take one level, the links of an
else-if chain take none.
-/

namespace Pidgin

structure Branch where
  cond : Expr
  body : Stmt
  pos : Position

def Branch.toStmt (branch : Branch) (else? : Option Stmt) : Stmt :=
  .ifElse branch.cond branch.body else? branch.pos

def Branch.chain (first : Branch) (links : List Branch) (else? : Option Stmt) : Stmt :=
  first.toStmt (links.foldr (fun link below? => some (link.toStmt below?)) else?)

namespace Parse

/-! ## Types and declarations -/

def typeName (expectation : String) : Parse String := do
  return (← expect .typeName expectation).text

def annotation? (expectation : String) : Parse (Option String) := do
  if ← accept .colon then
    return some (← typeName expectation)
  else
    return none

def initializer? (value : Parse Expr) : Parse (Option Expr) := do
  if ← accept .assign then
    return some (← value)
  else
    return none

def varDecl (value : Parse Expr) : Parse Stmt := do
  let pos := (← advance).pos
  let name := (← expect .ident "expected variable name").text
  let type? ← annotation? "expected type after ':'"
  let init? ← initializer? value
  let _ ← expect .semicolon "expected ';' after variable declaration"
  return .varDecl name type? init? pos

def param : Parse Param := do
  let name := (← expect .ident "expected parameter name").text
  let _ ← expect .colon "expected ':' after parameter name"
  return ⟨name, ← typeName "expected parameter type"⟩

def fnDecl (block : Parse Block) : Parse Stmt := do
  let pos := (← advance).pos
  let name := (← expect .ident "expected function name after 'oya'").text
  let _ ← expect .lparen "expected '(' after function name"
  let params ← listUpTo .rparen "expected ')' after parameters" param
  let returns? ← annotation? "expected return type"
  let body ← block
  return .fnDecl name params returns? body.body body.pos pos

/-! ## Blocks -/

/--
Declarations up to a closing brace or the end, in at most `rounds` rounds.  A
declaration that failed has been reported, so it is left out and the next one is
read; only a failure that read nothing is passed on.
-/
def items (declaration : Parse Stmt) : (rounds : Nat) → Parse (List Stmt)
  | 0 => return []
  | rounds + 1 => fun p =>
      if p.check .rbrace || p.atEnd then .ok [] p
      else
        match declaration p with
        | .ok item q => (List.cons item <$> items declaration rounds) q
        | .error d q =>
            if q.cursor = p.cursor then .error d q else items declaration rounds q

def blockOf (declaration : Parse Stmt) : Parse Block := do
  let pos := (← expect .lbrace "expected '\x7b' before block").pos
  let body ← bounded (items declaration)
  let _ ← expect .rbrace "expected '\x7d' after block"
  return ⟨body, pos⟩

/-! ## Conditionals, loops and simple statements -/

def condition (keyword : String) (value : Parse Expr) : Parse Expr := do
  let _ ← expect .lparen ("expected '(' after '" ++ keyword ++ "'")
  let cond ← value
  let _ ← expect .rparen "expected ')' after condition"
  return cond

def branch (value : Parse Expr) (statement : Parse Stmt) : Parse Branch := do
  let pos := (← advance).pos
  let cond ← condition "abi" value
  return ⟨cond, ← statement, pos⟩

def links (value : Parse Expr) (statement : Parse Stmt) :
    (rounds : Nat) → Parse (List Branch × Option Stmt)
  | 0 => return ([], none)
  | rounds + 1 => do
      if ← accept .naso then
        if ← check .abi then
          let link ← branch value statement
          let (more, else?) ← links value statement rounds
          return (link :: more, else?)
        else
          return ([], some (← statement))
      else
        return ([], none)

def conditional (value : Parse Expr) (statement : Parse Stmt) : Parse Stmt := do
  let first ← branch value statement
  let (more, else?) ← bounded (links value statement)
  return first.chain more else?

def whileLoop (value : Parse Expr) (statement : Parse Stmt) : Parse Stmt := do
  let pos := (← advance).pos
  let cond ← condition "waka" value
  return .whileLoop cond (← statement) pos

def ret (value : Parse Expr) : Parse Stmt := do
  let pos := (← advance).pos
  let value? ← if ← check .semicolon then pure none else some <$> value
  let _ ← expect .semicolon "expected ';' after return statement"
  return .ret value? pos

def exprStmt (value : Parse Expr) : Parse Stmt := do
  let pos := (← get).current.pos
  let result ← value
  let _ ← expect .semicolon "expected ';' after expression"
  return .expr result pos

/-! ## The descent -/

def statementOf (value : Parse Expr) (block : Parse Block)
    (conditional whileLoop : Parse Stmt) : Parse Stmt := fun p =>
  match p.current.kind with
  | .lbrace => (Stmt.ofBlock <$> block) p
  | .abi => conditional p
  | .waka => whileLoop p
  | .comot => ret value p
  | _ => exprStmt value p

def declarationOf (value : Parse Expr) (block : Parse Block) (statement : Parse Stmt) :
    Parse Stmt := fun p =>
  match p.current.kind with
  | .abeg => varDecl value p
  | .oya => fnDecl block p
  | _ => statement p

def value (room : Nat) : Parse Expr := expression room .assignment

mutual

def block : (room : Nat) → Parse Block
  | 0 => fun p => tooDeep p
  | room + 1 => fun p =>
      blockOf (declarationOf (value room) (block room) (statement room)) p

def statement : (room : Nat) → Parse Stmt
  | 0 => fun p => statementOf (value 0) tooDeep tooDeep tooDeep p
  | room + 1 => fun p =>
      statementOf (value (room + 1))
        (blockOf (declarationOf (value room) (block room) (statement room)))
        (conditional (value room) (statement room))
        (whileLoop (value room) (statement room)) p

end

def declaration (room : Nat) : Parse Stmt :=
  declarationOf (value room) (block room) (statement room)

theorem block_eq (room : Nat) :
    block room = nested room fun inner => blockOf (declaration inner) := by
  cases room <;> rfl

theorem statement_eq (room : Nat) :
    statement room =
      statementOf (value room) (block room)
        (nested room fun inner => conditional (value inner) (statement inner))
        (nested room fun inner => whileLoop (value inner) (statement inner)) := by
  cases room <;> rfl

end Parse

end Pidgin
