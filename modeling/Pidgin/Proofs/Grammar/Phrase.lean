import Pidgin.Numeral.Read
import Pidgin.Parse.Rule
import Pidgin.Token.Basic
import Pidgin.Tree.Basic

/-!
# The grammar of programs

Which tokens are a phrase, and which tree the phrase has, said without a parser.

Expressions come in levels, one for each power from `assignment`, the loosest, to
`primary`.  A level holds the operators of its own power and every phrase of the
next tighter level.  The phrases of statements are told apart by what follows
them: a conditional may go without its other branch only if the word that would
start this branch is not next.
-/

namespace Pidgin.Grammar

variable {α : Type}

/-- The kind of the first token, where the end of the tokens counts as an end mark. -/
def nextKind : List Token → Kind
  | [] => .eof
  | token :: _ => token.kind

/-! ## Expressions -/

inductive Denotes (token : Token) : Literal → Prop where
  | integer {n : Int} (hkind : token.kind = .integer)
      (hvalue : Numeral.readInt? token.text = some n) : Denotes token (.int n)
  | float {x : Binary64} (hkind : token.kind = .float)
      (hvalue : Numeral.readFloat? token.text = some x) : Denotes token (.float x)
  | string (hkind : token.kind = .string) : Denotes token (.string token.text)
  | litTrue (hkind : token.kind = .litTrue) : Denotes token (.bool true)
  | litFalse (hkind : token.kind = .litFalse) : Denotes token (.bool false)

def operators : Power → List Kind
  | .or => [.or, .orElse]
  | .and => [.and]
  | .equality => [.equal, .notEqual]
  | .comparison => [.less, .greater]
  | .term => [.plus, .minus]
  | .factor => [.star, .slash]
  | _ => []

inductive Separated (item : List Token → α → Prop) : List Token → List α → Prop where
  | one {w : List Token} {a : α} (first : item w a) : Separated item w [a]
  | more {w v : List Token} {a : α} {as : List α} {comma : Token} (first : item w a)
      (hcomma : comma.kind = .comma) (rest : Separated item v as) :
      Separated item (w ++ comma :: v) (a :: as)

inductive Listed (item : List Token → α → Prop) : List Token → List α → Prop where
  | none : Listed item [] []
  | some {w : List Token} {as : List α} (items : Separated item w as) : Listed item w as

/-- The tokens are an expression of the given level, and this is its tree. -/
inductive Expression : Power → List Token → Expr → Prop where
  | tighter {power : Power} {w : List Token} {e : Expr}
      (inner : Expression power.next w e) : Expression power w e
  | assign {v w : List Token} {name : String} {pos : Position} {value : Expr} {equals : Token}
      (target : Expression .primary v (.var name pos)) (hequals : equals.kind = .assign)
      (source : Expression .assignment w value) :
      Expression .assignment (v ++ equals :: w) (.assign name value equals.pos)
  | binary {power : Power} {v w : List Token} {left right : Expr} {operator : Token}
      (first : Expression power v left) (hoperator : operator.kind ∈ operators power)
      (second : Expression power.next w right) :
      Expression power (v ++ operator :: w) (.binary operator.kind left right operator.pos)
  | unary {w : List Token} {operand : Expr} {operator : Token}
      (hoperator : operator.kind = .bang ∨ operator.kind = .minus)
      (inner : Expression .unary w operand) :
      Expression .unary (operator :: w) (.unary operator.kind operand operator.pos)
  | call {v w : List Token} {callee : Expr} {args : List Expr} {lparen rparen : Token}
      (head : Expression .call v callee) (hlparen : lparen.kind = .lparen)
      (items : Listed (Expression .assignment) w args) (hrparen : rparen.kind = .rparen) :
      Expression .call (v ++ lparen :: (w ++ [rparen])) (.call callee args lparen.pos)
  | index {v w : List Token} {object place : Expr} {lbracket rbracket : Token}
      (head : Expression .call v object) (hlbracket : lbracket.kind = .lbracket)
      (inner : Expression .assignment w place) (hrbracket : rbracket.kind = .rbracket) :
      Expression .call (v ++ lbracket :: (w ++ [rbracket])) (.index object place lbracket.pos)
  | literal {token : Token} {value : Literal} (hvalue : Denotes token value) :
      Expression .primary [token] (.literal value token.pos)
  | var {token : Token} (hkind : token.kind = .ident) :
      Expression .primary [token] (.var token.text token.pos)
  | grouping {w : List Token} {e : Expr} {lparen rparen : Token}
      (hlparen : lparen.kind = .lparen) (inner : Expression .assignment w e)
      (hrparen : rparen.kind = .rparen) :
      Expression .primary (lparen :: (w ++ [rparen])) e
  | array {w : List Token} {elements : List Expr} {lbracket rbracket : Token}
      (hlbracket : lbracket.kind = .lbracket)
      (items : Listed (Expression .assignment) w elements)
      (hrbracket : rbracket.kind = .rbracket) :
      Expression .primary (lbracket :: (w ++ [rbracket])) (.array elements lbracket.pos)

/-! ## Declarations and statements -/

inductive Annotation : List Token → Option String → Prop where
  | none : Annotation [] none
  | some {colon type : Token} (hcolon : colon.kind = .colon) (htype : type.kind = .typeName) :
      Annotation [colon, type] (some type.text)

inductive Initializer : List Token → Option Expr → Prop where
  | none : Initializer [] none
  | some {w : List Token} {e : Expr} {equals : Token} (hequals : equals.kind = .assign)
      (value : Expression .assignment w e) : Initializer (equals :: w) (some e)

inductive Parameter : List Token → Param → Prop where
  | mk {name colon type : Token} (hname : name.kind = .ident) (hcolon : colon.kind = .colon)
      (htype : type.kind = .typeName) : Parameter [name, colon, type] ⟨name.text, type.text⟩

mutual

/-- In front of `rest`, the tokens `w` are a statement, and this is its tree. -/
inductive Statement : (w rest : List Token) → Stmt → Prop where
  | block {w rest : List Token} {b : Block} (body : Body w rest b) :
      Statement w rest (.ofBlock b)
  | conditional {c v w rest : List Token} {cond : Expr} {body : Stmt} {else? : Option Stmt}
      {abi lparen rparen : Token} (habi : abi.kind = .abi) (hlparen : lparen.kind = .lparen)
      (condition : Expression .assignment c cond) (hrparen : rparen.kind = .rparen)
      (branch : Statement v (w ++ rest) body) (otherwise : Otherwise w rest else?) :
      Statement (abi :: lparen :: (c ++ rparen :: (v ++ w))) rest
        (.ifElse cond body else? abi.pos)
  | whileLoop {c w rest : List Token} {cond : Expr} {body : Stmt} {waka lparen rparen : Token}
      (hwaka : waka.kind = .waka) (hlparen : lparen.kind = .lparen)
      (condition : Expression .assignment c cond) (hrparen : rparen.kind = .rparen)
      (branch : Statement w rest body) :
      Statement (waka :: lparen :: (c ++ rparen :: w)) rest (.whileLoop cond body waka.pos)
  | ret {rest : List Token} {comot semicolon : Token} (hcomot : comot.kind = .comot)
      (hsemicolon : semicolon.kind = .semicolon) :
      Statement [comot, semicolon] rest (.ret none comot.pos)
  | retValue {w rest : List Token} {e : Expr} {comot semicolon : Token}
      (hcomot : comot.kind = .comot) (value : Expression .assignment w e)
      (hsemicolon : semicolon.kind = .semicolon) :
      Statement (comot :: (w ++ [semicolon])) rest (.ret (some e) comot.pos)
  | expr {w rest : List Token} {e : Expr} {first semicolon : Token}
      (value : Expression .assignment (first :: w) e)
      (hsemicolon : semicolon.kind = .semicolon) :
      Statement (first :: (w ++ [semicolon])) rest (.expr e first.pos)

/-- The other branch of a conditional, which is left out only where it cannot start. -/
inductive Otherwise : (w rest : List Token) → Option Stmt → Prop where
  | none {rest : List Token} (hnext : nextKind rest ≠ .naso) : Otherwise [] rest none
  | some {w rest : List Token} {s : Stmt} {naso : Token} (hnaso : naso.kind = .naso)
      (branch : Statement w rest s) : Otherwise (naso :: w) rest (some s)

inductive Body : (w rest : List Token) → Block → Prop where
  | mk {w rest : List Token} {items : List Stmt} {lbrace rbrace : Token}
      (hlbrace : lbrace.kind = .lbrace) (inner : Declarations w (rbrace :: rest) items)
      (hrbrace : rbrace.kind = .rbrace) :
      Body (lbrace :: (w ++ [rbrace])) rest ⟨items, lbrace.pos⟩

inductive Declaration : (w rest : List Token) → Stmt → Prop where
  | varDecl {v w rest : List Token} {type? : Option String} {init? : Option Expr}
      {abeg name semicolon : Token} (habeg : abeg.kind = .abeg) (hname : name.kind = .ident)
      (ascription : Annotation v type?) (initializer : Initializer w init?)
      (hsemicolon : semicolon.kind = .semicolon) :
      Declaration (abeg :: name :: (v ++ (w ++ [semicolon]))) rest
        (.varDecl name.text type? init? abeg.pos)
  | fnDecl {u v w rest : List Token} {params : List Param} {returns? : Option String}
      {b : Block} {oya name lparen rparen : Token} (hoya : oya.kind = .oya)
      (hname : name.kind = .ident) (hlparen : lparen.kind = .lparen)
      (parameters : Listed Parameter u params) (hrparen : rparen.kind = .rparen)
      (ascription : Annotation v returns?) (body : Body w rest b) :
      Declaration (oya :: name :: lparen :: (u ++ rparen :: (v ++ w))) rest
        (.fnDecl name.text params returns? b.body b.pos oya.pos)
  | statement {w rest : List Token} {s : Stmt} (inner : Statement w rest s) :
      Declaration w rest s

inductive Declarations : (w rest : List Token) → List Stmt → Prop where
  | nil {rest : List Token} : Declarations [] rest []
  | cons {v w rest : List Token} {s : Stmt} {ss : List Stmt}
      (first : Declaration v (w ++ rest) s) (more : Declarations w rest ss) :
      Declarations (v ++ w) rest (s :: ss)

end

end Pidgin.Grammar
