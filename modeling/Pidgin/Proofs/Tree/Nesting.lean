import Mathlib.Algebra.GroupWithZero.Nat
import Pidgin.Token.Basic
import Pidgin.Tree.Basic

/-!
# The nesting of trees

How many levels of nesting it takes to read a tree, and how many parentheses it
cannot be written without.

Levels are counted the way a parser meets them.  What stands to the left of an
operator is held already when the operator is read, so a left operand, a callee
or an indexed object is on the level of the expression it belongs to.  The links
of a chain of conditionals all stand on the level of the first one.
-/

namespace Pidgin

/-! ## Expressions -/

namespace Expr

mutual

/-- How many levels the parts of an expression take below the level it is on itself. -/
def inner : Expr → Nat
  | .literal _ _ | .var _ _ => 0
  | .binary _ left right _ => max left.inner (right.inner + 1)
  | .unary _ operand _ => operand.inner + 1
  | .call callee args _ => max callee.inner (nestAll args)
  | .index object place _ => max object.inner (place.inner + 1)
  | .array elements _ => nestAll elements
  | .assign _ value _ => value.inner + 1

def nestAll : List Expr → Nat
  | [] => 0
  | e :: es => max (e.inner + 1) (nestAll es)

end

def nest (e : Expr) : Nat := e.inner + 1

mutual

def parens : Expr → Nat
  | .literal _ _ | .var _ _ => 0
  | .binary _ left right _ => left.parens + right.parens
  | .unary _ operand _ => operand.parens
  | .call callee args _ => callee.parens + parensAll args + 1
  | .index object place _ => object.parens + place.parens
  | .array elements _ => parensAll elements
  | .assign _ value _ => value.parens

def parensAll : List Expr → Nat
  | [] => 0
  | e :: es => e.parens + parensAll es

end

theorem foldr_nest (es : List Expr) : es.foldr (fun e n => max e.nest n) 0 = nestAll es := by
  induction es with
  | nil => rfl
  | cons e es ih => rw [List.foldr_cons, ih, nestAll, nest]

theorem sum_parens (es : List Expr) : (es.map parens).sum = parensAll es := by
  induction es with
  | nil => rfl
  | cons e es ih => rw [List.map_cons, List.sum_cons, ih, parensAll]

end Expr

/-! ## Statements -/

namespace Stmt

mutual

def nest : Stmt → Nat
  | .expr value _ => value.nest
  | .varDecl _ _ init? _ => init?.elim 0 Expr.nest
  | .fnDecl _ _ _ body _ _ => nestAll body + 1
  | .ifElse cond body else? _ => max cond.nest (max body.nest (nestElse else?)) + 1
  | .whileLoop cond body _ => max cond.nest body.nest + 1
  | .ret value? _ => value?.elim 0 Expr.nest
  | .block body _ => nestAll body + 1

/-- A conditional that stands otherwise is a link, which takes no level of its own. -/
def nestElse : Option Stmt → Nat
  | none => 0
  | some (.ifElse cond body else? _) => max cond.nest (max body.nest (nestElse else?))
  | some s => s.nest

def nestAll : List Stmt → Nat
  | [] => 0
  | s :: ss => max s.nest (nestAll ss)

end

mutual

def parens : Stmt → Nat
  | .expr value _ => value.parens
  | .varDecl _ _ init? _ => init?.elim 0 Expr.parens
  | .fnDecl _ _ _ body _ _ => parensAll body + 1
  | .ifElse cond body else? _ => cond.parens + body.parens + parensElse else? + 1
  | .whileLoop cond body _ => cond.parens + body.parens + 1
  | .ret value? _ => value?.elim 0 Expr.parens
  | .block body _ => parensAll body

def parensElse : Option Stmt → Nat
  | none => 0
  | some s => s.parens

def parensAll : List Stmt → Nat
  | [] => 0
  | s :: ss => s.parens + parensAll ss

end

theorem nestElse_some {s : Stmt} (h : ∀ cond body else? pos, s ≠ .ifElse cond body else? pos) :
    nestElse (some s) = s.nest := by
  cases s with
  | ifElse cond body else? pos => exact absurd rfl (h cond body else? pos)
  | _ => rfl

end Stmt

def Program.nest (program : Program) : Nat := Stmt.nestAll program.statements

def Program.parens (program : Program) : Nat := Stmt.parensAll program.statements

/-! ## Tokens -/

namespace Grammar

def lparens (w : List Token) : Nat := w.countP (·.kind = .lparen)

@[simp] theorem lparens_nil : lparens [] = 0 := rfl

@[simp] theorem lparens_append (v w : List Token) :
    lparens (v ++ w) = lparens v + lparens w := List.countP_append

theorem lparens_cons (token : Token) (w : List Token) :
    lparens (token :: w) = lparens w + if token.kind = .lparen then 1 else 0 := by
  simp [lparens, List.countP_cons]

/--
The tokens `w`, which take `depth` levels to read, have a tree that takes `nest` levels and
accounts for `parens` of their parentheses.  Only parentheses that it does not account for
can make a difference between the two.
-/
structure Measured (w : List Token) (depth nest parens : Nat) : Prop where
  nest_le : nest ≤ depth
  depth_le : depth ≤ w.length
  parens_le : parens ≤ lparens w
  depth_eq : parens = lparens w → depth = nest

namespace Measured

variable {v w : List Token} {token : Token} {depth depth' nest nest' parens parens' : Nat}

theorem none (w : List Token) : Measured w 0 0 0 :=
  ⟨Nat.le_refl 0, Nat.zero_le _, Nat.zero_le _, fun _ => rfl⟩

theorem append (hv : Measured v depth nest parens) (hw : Measured w depth' nest' parens') :
    Measured (v ++ w) (max depth depth') (max nest nest') (parens + parens') := by
  obtain ⟨_, _, _, _⟩ := hv
  obtain ⟨_, _, _, _⟩ := hw
  have hparens := lparens_append v w
  have hlength : (v ++ w).length = v.length + w.length := List.length_append
  constructor <;> omega

theorem cons (token : Token) (h : Measured w depth nest parens) :
    Measured (token :: w) depth nest parens := by
  simpa using (none [token]).append h

theorem concat (h : Measured w depth nest parens) (token : Token) :
    Measured (w ++ [token]) depth nest parens := by
  simpa using h.append (none [token])

theorem paren (hkind : token.kind = .lparen) (h : Measured w depth nest parens) :
    Measured (token :: w) depth nest (parens + 1) := by
  obtain ⟨_, _, _, _⟩ := h
  have hparens := lparens_cons token w
  rw [if_pos hkind] at hparens
  have hlength : (token :: w).length = w.length + 1 := rfl
  constructor <;> omega

theorem level (token : Token) (h : Measured w depth nest parens) :
    Measured (token :: w) (depth + 1) (nest + 1) parens := by
  obtain ⟨_, _, _, _⟩ := h
  have hparens := lparens_cons token w
  have hlength : (token :: w).length = w.length + 1 := rfl
  constructor <;> omega

theorem levelParen (hkind : token.kind = .lparen) (h : Measured w depth nest parens) :
    Measured (token :: w) (depth + 1) (nest + 1) (parens + 1) := by
  obtain ⟨_, _, _, _⟩ := h
  have hparens := lparens_cons token w
  rw [if_pos hkind] at hparens
  have hlength : (token :: w).length = w.length + 1 := rfl
  constructor <;> omega

theorem group {lparen rparen : Token} (hkind : lparen.kind = .lparen)
    (h : Measured w depth nest parens) :
    Measured (lparen :: (w ++ [rparen])) (depth + 1) nest parens := by
  obtain ⟨_, _, _, _⟩ := h
  have hparens := lparens_cons lparen (w ++ [rparen])
  rw [if_pos hkind, lparens_append] at hparens
  have hlength : (lparen :: (w ++ [rparen])).length = w.length + 2 := by simp
  constructor <;> omega

theorem beside (hv : Measured v (depth + 1) (nest + 1) parens)
    (hw : Measured w (depth' + 1) (nest' + 1) parens') :
    Measured (v ++ w) (max depth depth' + 1) (max nest nest' + 1) (parens + parens') := by
  have h := hv.append hw
  rwa [Nat.add_max_add_right, Nat.add_max_add_right] at h

theorem chain {c u : List Token} {lparen rparen : Token} {m n k a b d : Nat}
    (hv : Measured (lparen :: (c ++ rparen :: v)) depth (max m n) (a + b + 1))
    (hu : Measured u depth' k d) :
    Measured (lparen :: (c ++ rparen :: (v ++ u))) (max depth depth') (max m (max n k))
      (a + b + d + 1) := by
  have h := hv.append hu
  rw [Nat.max_assoc, Nat.add_right_comm] at h
  simpa using h

end Measured

end Grammar

end Pidgin
