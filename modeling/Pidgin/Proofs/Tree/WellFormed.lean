import Pidgin.Token.Word
import Pidgin.Tree.Basic

/-!
# Well-formed trees

Which trees a program text can have.  Most of it is said of each node alone: its
name is an identifier, its type has a name, its operator is one.  One condition
looks further down: a branch that another branch follows must not end in a
conditional that could take this other branch for its own.
-/

namespace Pidgin

/-- An identifier: a word that is no keyword and does not name a type. -/
structure IsName (text : String) : Prop where
  starts : ∃ c ∈ text.toList.head?, isWordStart c = true
  parts : ∀ c ∈ text.toList, isWordPart c = true
  not_keyword : text ∉ keywords.map Prod.fst
  not_type : text ∉ typeNames

/-! ## Every node of a tree -/

namespace Expr

variable (P : Expr → Prop)

mutual

def Every : Expr → Prop
  | .literal value pos => P (.literal value pos)
  | .var name pos => P (.var name pos)
  | .binary op left right pos => P (.binary op left right pos) ∧ left.Every ∧ right.Every
  | .unary op operand pos => P (.unary op operand pos) ∧ operand.Every
  | .call callee args pos => P (.call callee args pos) ∧ callee.Every ∧ EveryOf args
  | .index object place pos => P (.index object place pos) ∧ object.Every ∧ place.Every
  | .array elements pos => P (.array elements pos) ∧ EveryOf elements
  | .assign name value pos => P (.assign name value pos) ∧ value.Every

def EveryOf : List Expr → Prop
  | [] => True
  | e :: es => e.Every ∧ EveryOf es

end

variable {P} {P' R : Expr → Prop}

theorem Every.here {e : Expr} (h : e.Every P) : P e := by
  cases e with
  | literal value pos | var name pos => exact h
  | _ => exact h.1

mutual

theorem Every.combine (hall : ∀ e, P e → P' e → R e) :
    {e : Expr} → e.Every P → e.Every P' → e.Every R
  | .literal .., h, h' | .var .., h, h' => hall _ h h'
  | .binary .., h, h' | .index .., h, h' =>
      ⟨hall _ h.1 h'.1, h.2.1.combine hall h'.2.1, h.2.2.combine hall h'.2.2⟩
  | .unary .., h, h' | .assign .., h, h' => ⟨hall _ h.1 h'.1, h.2.combine hall h'.2⟩
  | .call .., h, h' => ⟨hall _ h.1 h'.1, h.2.1.combine hall h'.2.1, h.2.2.combine hall h'.2.2⟩
  | .array .., h, h' => ⟨hall _ h.1 h'.1, h.2.combine hall h'.2⟩

theorem EveryOf.combine (hall : ∀ e, P e → P' e → R e) :
    {es : List Expr} → EveryOf P es → EveryOf P' es → EveryOf R es
  | [], _, _ => trivial
  | _ :: _, h, h' => ⟨h.1.combine hall h'.1, h.2.combine hall h'.2⟩

end

end Expr

namespace Stmt

variable (P : Expr → Prop) (Q : Stmt → Prop)

mutual

def Every : Stmt → Prop
  | .expr value pos => Q (.expr value pos) ∧ value.Every P
  | .varDecl name type? init? pos =>
      Q (.varDecl name type? init? pos) ∧ ∀ e ∈ init?, e.Every P
  | .fnDecl name params returns? body bodyPos pos =>
      Q (.fnDecl name params returns? body bodyPos pos) ∧ EveryOf body
  | .ifElse cond body else? pos =>
      Q (.ifElse cond body else? pos) ∧ cond.Every P ∧ body.Every ∧ EveryElse else?
  | .whileLoop cond body pos => Q (.whileLoop cond body pos) ∧ cond.Every P ∧ body.Every
  | .ret value? pos => Q (.ret value? pos) ∧ ∀ e ∈ value?, e.Every P
  | .block body pos => Q (.block body pos) ∧ EveryOf body

def EveryElse : Option Stmt → Prop
  | none => True
  | some s => s.Every

def EveryOf : List Stmt → Prop
  | [] => True
  | s :: ss => s.Every ∧ EveryOf ss

end

variable {P Q} {P' R : Expr → Prop} {Q' S : Stmt → Prop}

theorem Every.here {s : Stmt} (h : s.Every P Q) : Q s := by
  cases s <;> exact h.1

mutual

theorem Every.combine (hexpr : ∀ e, P e → P' e → R e) (hstmt : ∀ s, Q s → Q' s → S s) :
    {s : Stmt} → s.Every P Q → s.Every P' Q' → s.Every R S
  | .expr .., h, h' => ⟨hstmt _ h.1 h'.1, h.2.combine hexpr h'.2⟩
  | .varDecl .., h, h' | .ret .., h, h' =>
      ⟨hstmt _ h.1 h'.1, fun e he => (h.2 e he).combine hexpr (h'.2 e he)⟩
  | .fnDecl .., h, h' | .block .., h, h' => ⟨hstmt _ h.1 h'.1, h.2.combine hexpr hstmt h'.2⟩
  | .ifElse .., h, h' =>
      ⟨hstmt _ h.1 h'.1, h.2.1.combine hexpr h'.2.1, h.2.2.1.combine hexpr hstmt h'.2.2.1,
        h.2.2.2.combine hexpr hstmt h'.2.2.2⟩
  | .whileLoop .., h, h' =>
      ⟨hstmt _ h.1 h'.1, h.2.1.combine hexpr h'.2.1, h.2.2.combine hexpr hstmt h'.2.2⟩

theorem EveryElse.combine (hexpr : ∀ e, P e → P' e → R e) (hstmt : ∀ s, Q s → Q' s → S s) :
    {else? : Option Stmt} → EveryElse P Q else? → EveryElse P' Q' else? → EveryElse R S else?
  | none, _, _ => trivial
  | some _, h, h' => Every.combine hexpr hstmt h h'

theorem EveryOf.combine (hexpr : ∀ e, P e → P' e → R e) (hstmt : ∀ s, Q s → Q' s → S s) :
    {ss : List Stmt} → EveryOf P Q ss → EveryOf P' Q' ss → EveryOf R S ss
  | [], _, _ => trivial
  | _ :: _, h, h' => ⟨h.1.combine hexpr hstmt h'.1, h.2.combine hexpr hstmt h'.2⟩

end

end Stmt

/-! ## The conditions on a node -/

def binaryOperators : List Kind :=
  [.or, .orElse, .and, .equal, .notEqual, .less, .greater, .plus, .minus, .star, .slash]

def unaryOperators : List Kind := [.bang, .minus]

def Expr.Proper : Expr → Prop
  | .literal (.int value) _ => 0 ≤ value ∧ value ≤ 9223372036854775807
  | .literal _ _ | .call _ _ _ | .index _ _ _ | .array _ _ => True
  | .var name _ | .assign name _ _ => IsName name
  | .binary op _ _ _ => op ∈ binaryOperators
  | .unary op _ _ => op ∈ unaryOperators

def Expr.NotFloat (e : Expr) : Prop := ∀ value pos, e ≠ .literal (.float value) pos

def Param.Proper (param : Param) : Prop := IsName param.name ∧ param.type ∈ typeNames

namespace Stmt

/-- Whether an other branch behind the statement would become part of it. -/
def endsOpen : Stmt → Bool
  | .ifElse _ _ none _ => true
  | .ifElse _ _ (some s) _ => s.endsOpen
  | .whileLoop _ body _ => body.endsOpen
  | _ => false

def isBranch : Stmt → Bool
  | .varDecl _ _ _ _ | .fnDecl _ _ _ _ _ _ => false
  | _ => true

def Proper : Stmt → Prop
  | .expr _ _ | .ret _ _ | .block _ _ => True
  | .varDecl name type? _ _ => IsName name ∧ ∀ type ∈ type?, type ∈ typeNames
  | .fnDecl name params returns? _ _ _ =>
      IsName name ∧ (∀ param ∈ params, param.Proper) ∧ ∀ type ∈ returns?, type ∈ typeNames
  | .ifElse _ body else? _ =>
      body.isBranch = true ∧ ∀ s ∈ else?, s.isBranch = true ∧ body.endsOpen = false
  | .whileLoop _ body _ => body.isBranch = true

end Stmt

/-! ## Programs -/

namespace Program

def WellFormed (program : Program) : Prop :=
  Stmt.EveryOf Expr.Proper Stmt.Proper program.statements

def FloatFree (program : Program) : Prop :=
  Stmt.EveryOf Expr.NotFloat (fun _ => True) program.statements

end Program

end Pidgin
