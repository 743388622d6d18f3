import Pidgin.Parse.Statement
import Pidgin.Proofs.Tree.Written

/-!
# Trees with their positions moved

Two trees are compared by moving all their positions first.  Where nothing is
moved this is equality; where every position is moved to the start, it is
equality up to positions.
-/

namespace Pidgin

section

variable (f : Position → Position)

mutual

def Expr.relocate : Expr → Expr
  | .literal value pos => .literal value (f pos)
  | .var name pos => .var name (f pos)
  | .binary op left right pos => .binary op left.relocate right.relocate (f pos)
  | .unary op operand pos => .unary op operand.relocate (f pos)
  | .call callee args pos => .call callee.relocate (Expr.relocateAll args) (f pos)
  | .index object place pos => .index object.relocate place.relocate (f pos)
  | .array elements pos => .array (Expr.relocateAll elements) (f pos)
  | .assign name value pos => .assign name value.relocate (f pos)

def Expr.relocateAll : List Expr → List Expr
  | [] => []
  | e :: es => e.relocate :: Expr.relocateAll es

end

mutual

def Stmt.relocate : Stmt → Stmt
  | .expr value pos => .expr (value.relocate f) (f pos)
  | .varDecl name type? init? pos => .varDecl name type? (init?.map (Expr.relocate f)) (f pos)
  | .fnDecl name params returns? body bodyPos pos =>
      .fnDecl name params returns? (Stmt.relocateAll body) (f bodyPos) (f pos)
  | .ifElse cond body else? pos =>
      .ifElse (cond.relocate f) body.relocate (Stmt.relocateElse else?) (f pos)
  | .whileLoop cond body pos => .whileLoop (cond.relocate f) body.relocate (f pos)
  | .ret value? pos => .ret (value?.map (Expr.relocate f)) (f pos)
  | .block body pos => .block (Stmt.relocateAll body) (f pos)

def Stmt.relocateElse : Option Stmt → Option Stmt
  | none => none
  | some s => some s.relocate

def Stmt.relocateAll : List Stmt → List Stmt
  | [] => []
  | s :: ss => s.relocate :: Stmt.relocateAll ss

end

def Block.relocate (b : Block) : Block := ⟨Stmt.relocateAll f b.body, f b.pos⟩

def Branch.relocate (branch : Branch) : Branch :=
  ⟨branch.cond.relocate f, branch.body.relocate f, f branch.pos⟩

theorem Expr.relocateAll_eq_map (es : List Expr) :
    Expr.relocateAll f es = es.map (Expr.relocate f) := by
  induction es with
  | nil => rfl
  | cons e es ih => rw [Expr.relocateAll, ih, List.map_cons]

theorem Stmt.relocateAll_eq_map (ss : List Stmt) :
    Stmt.relocateAll f ss = ss.map (Stmt.relocate f) := by
  induction ss with
  | nil => rfl
  | cons s ss ih => rw [Stmt.relocateAll, ih, List.map_cons]

theorem Stmt.relocateElse_eq_map (else? : Option Stmt) :
    Stmt.relocateElse f else? = else?.map (Stmt.relocate f) := by
  cases else? <;> rfl

theorem Branch.relocate_chain (first : Branch) (links : List Branch) (else? : Option Stmt) :
    (first.chain links else?).relocate f =
      (first.relocate f).chain (links.map (Branch.relocate f)) (else?.map (Stmt.relocate f)) := by
  induction links generalizing first with
  | nil => simp [chain, toStmt, relocate, Stmt.relocate, Stmt.relocateElse_eq_map]
  | cons link links ih =>
      have hbelow : (first.chain (link :: links) else?).relocate f =
          (first.relocate f).toStmt (some ((link.chain links else?).relocate f)) := by
        simp [chain, toStmt, relocate, Stmt.relocate, Stmt.relocateElse]
      rw [hbelow, ih]
      rfl

end

/-! ## Nothing is moved -/

mutual

@[simp] theorem Expr.relocate_id : (e : Expr) → e.relocate id = e
  | .literal _ _ | .var _ _ => rfl
  | .binary _ left right _ => by simp [Expr.relocate, left.relocate_id, right.relocate_id]
  | .unary _ operand _ => by simp [Expr.relocate, operand.relocate_id]
  | .call callee args _ => by simp [Expr.relocate, callee.relocate_id, Expr.relocateAll_id args]
  | .index object place _ => by simp [Expr.relocate, object.relocate_id, place.relocate_id]
  | .array elements _ => by simp [Expr.relocate, Expr.relocateAll_id elements]
  | .assign _ value _ => by simp [Expr.relocate, value.relocate_id]

theorem Expr.relocateAll_id : (es : List Expr) → Expr.relocateAll id es = es
  | [] => rfl
  | e :: es => by simp [Expr.relocateAll, e.relocate_id, Expr.relocateAll_id es]

end

theorem Expr.map_relocate_id (e? : Option Expr) : e?.map (Expr.relocate id) = e? := by
  cases e? <;> simp

mutual

@[simp] theorem Stmt.relocate_id : (s : Stmt) → s.relocate id = s
  | .expr _ _ => by simp [Stmt.relocate]
  | .varDecl _ _ _ _ | .ret _ _ => by simp [Stmt.relocate, Expr.map_relocate_id]
  | .fnDecl _ _ _ body _ _ => by simp [Stmt.relocate, Stmt.relocateAll_id body]
  | .ifElse _ body else? _ => by
      simp [Stmt.relocate, body.relocate_id, Stmt.relocateElse_id else?]
  | .whileLoop _ body _ => by simp [Stmt.relocate, body.relocate_id]
  | .block body _ => by simp [Stmt.relocate, Stmt.relocateAll_id body]

theorem Stmt.relocateElse_id : (else? : Option Stmt) → Stmt.relocateElse id else? = else?
  | none => rfl
  | some s => by simp [Stmt.relocateElse, s.relocate_id]

theorem Stmt.relocateAll_id : (ss : List Stmt) → Stmt.relocateAll id ss = ss
  | [] => rfl
  | s :: ss => by simp [Stmt.relocateAll, s.relocate_id, Stmt.relocateAll_id ss]

end

/-! ## Everything is moved to the start -/

mutual

theorem Expr.relocate_start : (e : Expr) → e.relocate (fun _ => .start) = e.erase
  | .literal _ _ | .var _ _ => rfl
  | .binary _ left right _ => by
      simp [Expr.relocate, Expr.erase, left.relocate_start, right.relocate_start]
  | .unary _ operand _ => by simp [Expr.relocate, Expr.erase, operand.relocate_start]
  | .call callee args _ => by
      simp [Expr.relocate, Expr.erase, callee.relocate_start, Expr.relocateAll_start args]
  | .index object place _ => by
      simp [Expr.relocate, Expr.erase, object.relocate_start, place.relocate_start]
  | .array elements _ => by simp [Expr.relocate, Expr.erase, Expr.relocateAll_start elements]
  | .assign _ value _ => by simp [Expr.relocate, Expr.erase, value.relocate_start]

theorem Expr.relocateAll_start :
    (es : List Expr) → Expr.relocateAll (fun _ => .start) es = Expr.eraseAll es
  | [] => rfl
  | e :: es => by
      simp [Expr.relocateAll, Expr.eraseAll, e.relocate_start, Expr.relocateAll_start es]

end

mutual

theorem Stmt.relocate_start : (s : Stmt) → s.relocate (fun _ => .start) = s.erase
  | .expr _ _ => by simp [Stmt.relocate, Stmt.erase, Expr.relocate_start]
  | .varDecl _ _ init? _ => by
      cases init? <;> simp [Stmt.relocate, Stmt.erase, Expr.relocate_start]
  | .fnDecl _ _ _ body _ _ => by simp [Stmt.relocate, Stmt.erase, Stmt.relocateAll_start body]
  | .ifElse _ body else? _ => by
      simp [Stmt.relocate, Stmt.erase, Expr.relocate_start, body.relocate_start,
        Stmt.relocateElse_start else?]
  | .whileLoop _ body _ => by
      simp [Stmt.relocate, Stmt.erase, Expr.relocate_start, body.relocate_start]
  | .ret value? _ => by cases value? <;> simp [Stmt.relocate, Stmt.erase, Expr.relocate_start]
  | .block body _ => by simp [Stmt.relocate, Stmt.erase, Stmt.relocateAll_start body]

theorem Stmt.relocateElse_start :
    (else? : Option Stmt) → Stmt.relocateElse (fun _ => .start) else? = Stmt.eraseElse else?
  | none => rfl
  | some s => by simp [Stmt.relocateElse, Stmt.eraseElse, s.relocate_start]

theorem Stmt.relocateAll_start :
    (ss : List Stmt) → Stmt.relocateAll (fun _ => .start) ss = Stmt.eraseAll ss
  | [] => rfl
  | s :: ss => by
      simp [Stmt.relocateAll, Stmt.eraseAll, s.relocate_start, Stmt.relocateAll_start ss]

end

theorem Stmt.eraseAll_eq_map (ss : List Stmt) : Stmt.eraseAll ss = ss.map Stmt.erase := by
  rw [← Stmt.relocateAll_start, Stmt.relocateAll_eq_map, funext Stmt.relocate_start]

end Pidgin
