import Pidgin.Numeral.Binary64
import Pidgin.Source.Position
import Pidgin.Token.Kind

/-!
# Trees

The trees of programs.

Every node carries the position of the token that produced it.  Parentheses
leave no node of their own.
-/

namespace Pidgin

inductive Literal where
  | int (value : Int)
  | float (value : Binary64)
  | string (value : String)
  | bool (value : Bool)
  deriving DecidableEq, Repr

inductive Expr where
  | literal (value : Literal) (pos : Position)
  | var (name : String) (pos : Position)
  | binary (op : Kind) (left right : Expr) (pos : Position)
  | unary (op : Kind) (operand : Expr) (pos : Position)
  | call (callee : Expr) (args : List Expr) (pos : Position)
  | index (object place : Expr) (pos : Position)
  | array (elements : List Expr) (pos : Position)
  | assign (name : String) (value : Expr) (pos : Position)
  deriving Repr

def Expr.pos : Expr → Position
  | literal _ pos | var _ pos | binary _ _ _ pos | unary _ _ pos
  | call _ _ pos | index _ _ pos | array _ pos | assign _ _ pos => pos

structure Param where
  name : String
  type : String
  deriving DecidableEq, Repr

inductive Stmt where
  | expr (value : Expr) (pos : Position)
  | varDecl (name : String) (type? : Option String) (init? : Option Expr) (pos : Position)
  | fnDecl (name : String) (params : List Param) (returns? : Option String)
      (body : List Stmt) (bodyPos : Position) (pos : Position)
  | ifElse (cond : Expr) (body : Stmt) (else? : Option Stmt) (pos : Position)
  | whileLoop (cond : Expr) (body : Stmt) (pos : Position)
  | ret (value? : Option Expr) (pos : Position)
  | block (body : List Stmt) (pos : Position)
  deriving Repr

def Stmt.pos : Stmt → Position
  | expr _ pos | varDecl _ _ _ pos | fnDecl _ _ _ _ _ pos | ifElse _ _ _ pos
  | whileLoop _ _ pos | ret _ pos | block _ pos => pos

/-- The statements between two braces, and the position of the opening one. -/
structure Block where
  body : List Stmt
  pos : Position

def Stmt.ofBlock (b : Block) : Stmt := .block b.body b.pos

structure Program where
  statements : List Stmt

def Program.isEmpty (program : Program) : Bool := program.statements.isEmpty

end Pidgin
