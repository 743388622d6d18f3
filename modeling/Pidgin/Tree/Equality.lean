import Pidgin.Tree.Basic

/-!
# Equality of trees

Equality of trees is decidable: two trees are compared node by node, positions
included.
-/

namespace Pidgin

mutual

def Expr.same : Expr → Expr → Bool
  | .literal a p, .literal b q => a == b && p == q
  | .var a p, .var b q => a == b && p == q
  | .binary f a b p, .binary g c d q => f == g && a.same c && b.same d && p == q
  | .unary f a p, .unary g b q => f == g && a.same b && p == q
  | .call a xs p, .call b ys q => a.same b && Expr.sameList xs ys && p == q
  | .index a b p, .index c d q => a.same c && b.same d && p == q
  | .array xs p, .array ys q => Expr.sameList xs ys && p == q
  | .assign m a p, .assign n b q => m == n && a.same b && p == q
  | _, _ => false

def Expr.sameList : List Expr → List Expr → Bool
  | [], [] => true
  | a :: xs, b :: ys => a.same b && Expr.sameList xs ys
  | _, _ => false

end

mutual

theorem Expr.same_iff : (a b : Expr) → (a.same b = true ↔ a = b)
  | .literal .., b => by cases b <;> simp [Expr.same]
  | .var .., b => by cases b <;> simp [Expr.same]
  | .binary _ left right _, b => by
      cases b <;> simp [Expr.same, Expr.same_iff left, Expr.same_iff right, and_assoc]
  | .unary _ operand _, b => by
      cases b <;> simp [Expr.same, Expr.same_iff operand, and_assoc]
  | .call callee args _, b => by
      cases b <;> simp [Expr.same, Expr.same_iff callee, Expr.sameList_iff args, and_assoc]
  | .index object place _, b => by
      cases b <;> simp [Expr.same, Expr.same_iff object, Expr.same_iff place, and_assoc]
  | .array elements _, b => by
      cases b <;> simp [Expr.same, Expr.sameList_iff elements]
  | .assign _ value _, b => by
      cases b <;> simp [Expr.same, Expr.same_iff value, and_assoc]

theorem Expr.sameList_iff : (xs ys : List Expr) → (Expr.sameList xs ys = true ↔ xs = ys)
  | [], ys => by cases ys <;> simp [Expr.sameList]
  | a :: xs, ys => by
      cases ys <;> simp [Expr.sameList, Expr.same_iff a, Expr.sameList_iff xs]

end

instance : DecidableEq Expr := fun a b => decidable_of_iff _ (Expr.same_iff a b)

mutual

def Stmt.same : Stmt → Stmt → Bool
  | .expr a p, .expr b q => a == b && p == q
  | .varDecl m s a p, .varDecl n t b q => m == n && s == t && a == b && p == q
  | .fnDecl m ps s xs i p, .fnDecl n qs t ys j q =>
      m == n && ps == qs && s == t && Stmt.sameList xs ys && i == j && p == q
  | .ifElse a s x p, .ifElse b t y q => a == b && s.same t && Stmt.sameOption x y && p == q
  | .whileLoop a s p, .whileLoop b t q => a == b && s.same t && p == q
  | .ret a p, .ret b q => a == b && p == q
  | .block xs p, .block ys q => Stmt.sameList xs ys && p == q
  | _, _ => false

def Stmt.sameList : List Stmt → List Stmt → Bool
  | [], [] => true
  | s :: xs, t :: ys => s.same t && Stmt.sameList xs ys
  | _, _ => false

def Stmt.sameOption : Option Stmt → Option Stmt → Bool
  | none, none => true
  | some s, some t => s.same t
  | _, _ => false

end

mutual

theorem Stmt.same_iff : (s t : Stmt) → (s.same t = true ↔ s = t)
  | .expr .., t => by cases t <;> simp [Stmt.same]
  | .varDecl .., t => by cases t <;> simp [Stmt.same, and_assoc]
  | .fnDecl _ _ _ body _ _, t => by
      cases t <;> simp [Stmt.same, Stmt.sameList_iff body, and_assoc]
  | .ifElse _ body else? _, t => by
      cases t <;>
        simp [Stmt.same, Stmt.same_iff body, Stmt.sameOption_iff else?, and_assoc]
  | .whileLoop _ body _, t => by
      cases t <;> simp [Stmt.same, Stmt.same_iff body, and_assoc]
  | .ret .., t => by cases t <;> simp [Stmt.same]
  | .block body _, t => by cases t <;> simp [Stmt.same, Stmt.sameList_iff body]

theorem Stmt.sameList_iff : (xs ys : List Stmt) → (Stmt.sameList xs ys = true ↔ xs = ys)
  | [], ys => by cases ys <;> simp [Stmt.sameList]
  | s :: xs, ys => by
      cases ys <;> simp [Stmt.sameList, Stmt.same_iff s, Stmt.sameList_iff xs]

theorem Stmt.sameOption_iff :
    (x y : Option Stmt) → (Stmt.sameOption x y = true ↔ x = y)
  | none, y => by cases y <;> simp [Stmt.sameOption]
  | some s, y => by cases y <;> simp [Stmt.sameOption, Stmt.same_iff s]

end

instance : DecidableEq Stmt := fun s t => decidable_of_iff _ (Stmt.same_iff s t)

deriving instance DecidableEq for Block, Program

end Pidgin
