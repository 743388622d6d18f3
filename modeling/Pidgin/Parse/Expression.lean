import Pidgin.Numeral.Read
import Pidgin.Parse.Parser
import Pidgin.Parse.Rule
import Pidgin.Tree.Basic

/-!
# Expressions

An expression is an operand followed by continuations, for as long as these bind
at least as tightly as asked for.  The readers of the single forms take the
reader of operands as a parameter: `expression` passes them itself with one
level of room less.

Each continuation takes at least one token, so the tokens ahead bound the number
of rounds of every loop.
-/

namespace Pidgin

def Literal.ofToken (token : Token) : Except Cause Literal :=
  match token.kind with
  | .integer =>
      match Numeral.readInt? token.text with
      | some value => .ok (.int value)
      | none => .error (.malformedNumber token.text)
  | .float =>
      match Numeral.readFloat? token.text with
      | some value => .ok (.float value)
      | none => .error (.malformedNumber token.text)
  | .string => .ok (.string token.text)
  | .litTrue => .ok (.bool true)
  | .litFalse => .ok (.bool false)
  | _ => .error (.expectedExpression token.describe)

namespace Parse

def commaList {α : Type} (item : Parse α) : (rounds : Nat) → Parse (List α)
  | 0 => do
      return [← item]
  | rounds + 1 => do
      let first ← item
      if ← accept .comma then
        return first :: (← commaList item rounds)
      else
        return [first]

def listUpTo {α : Type} (close : Kind) (expectation : String) (item : Parse α) :
    Parse (List α) := do
  let items ←
    if ← check close then pure []
    else bounded (commaList item)
  let _ ← expect close expectation
  return items

/-! ## Forms that open an expression -/

def literal (token : Token) : Parse Expr :=
  match Literal.ofToken token with
  | .ok value => return .literal value token.pos
  | .error cause => fail token cause

def var (token : Token) : Parse Expr :=
  return .var token.text token.pos

def unary (operand : Power → Parse Expr) (token : Token) : Parse Expr := do
  return .unary token.kind (← operand .unary) token.pos

def grouping (operand : Power → Parse Expr) : Parse Expr := do
  let inner ← operand .assignment
  let _ ← expect .rparen "expected ')' after expression"
  return inner

def array (operand : Power → Parse Expr) (token : Token) : Parse Expr := do
  let elements ←
    listUpTo .rbracket "expected ']' after array elements" (operand .assignment)
  return .array elements token.pos

def opening (operand : Power → Parse Expr) (token : Token) : Parse Expr :=
  match (Rule.ofKind token.kind).opening? with
  | some .literal => literal token
  | some .var => var token
  | some .unary => unary operand token
  | some .grouping => grouping operand
  | some .array => array operand token
  | none => fail token (.expectedExpression token.describe)

/-! ## Forms that continue an expression -/

/-- Operators of one power group to the left: the right side binds tighter. -/
def binary (operand : Power → Parse Expr) (left : Expr) (token : Token) : Parse Expr := do
  let right ← operand token.kind.power.next
  return .binary token.kind left right token.pos

def call (operand : Power → Parse Expr) (callee : Expr) (token : Token) : Parse Expr := do
  let args ← listUpTo .rparen "expected ')' after arguments" (operand .assignment)
  return .call callee args token.pos

def index (operand : Power → Parse Expr) (object : Expr) (token : Token) : Parse Expr := do
  let place ← operand .assignment
  let _ ← expect .rbracket "expected ']' after index"
  return .index object place token.pos

/-- Assignments group to the right.  Only a variable can be assigned to; any other target
is reported and stays as it is. -/
def assignment (operand : Power → Parse Expr) (target : Expr) (token : Token) :
    Parse Expr :=
  match target with
  | .var name _ => do
      return .assign name (← operand .assignment) token.pos
  | _ => do
      let _ ← report token .invalidTarget
      return target

def continuation (operand : Power → Parse Expr) :
    Continuation → Expr → Token → Parse Expr
  | .binary => binary operand
  | .call => call operand
  | .index => index operand
  | .assignment => assignment operand

/-! ## The climb -/

/-- Continue `left` for as long as the current token binds at least as tightly as `power`,
in at most `rounds` rounds. -/
def climb (operand : Power → Parse Expr) (power : Power) :
    (rounds : Nat) → Expr → Parse Expr
  | 0, left => return left
  | rounds + 1, left => do
      if power ≤ (← get).current.kind.power then
        let token ← advance
        match (Rule.ofKind token.kind).continuation? with
        | none => return left
        | some form =>
            let next ← continuation operand form left token
            climb operand power rounds next
      else
        return left

def operation (operand : Power → Parse Expr) (power : Power) : Parse Expr := do
  let left ← opening operand (← advance)
  bounded fun rounds => climb operand power rounds left

/-- An expression whose operators bind at least as tightly as `power`; `room` is how many
levels of nesting are left. -/
def expression : (room : Nat) → Power → Parse Expr
  | 0, _ => tooDeep
  | room + 1, power => operation (expression room) power

theorem expression_eq (room : Nat) (power : Power) :
    expression room power =
      nested room fun inner => operation (expression inner) power := by
  cases room <;> rfl

end Parse

end Pidgin
