import Pidgin.Tree.Basic

/-!
# Tree dumps

Trees as indented text, one label a line and two spaces a level.
-/

namespace Pidgin

structure DumpLine where
  level : Nat
  label : String
  deriving DecidableEq, Repr

def DumpLine.text (line : DumpLine) : String :=
  String.ofList (List.replicate (2 * line.level) ' ') ++ line.label ++ "\n"

def dumpText (lines : List DumpLine) : String := String.join (lines.map DumpLine.text)

/-- Floats are written with six places, and strings as they are between quotes. -/
def Literal.label : Literal → String
  | int value => toString value
  | float value => value.fixed 6
  | string value => "\"" ++ value ++ "\""
  | bool value => if value then "true" else "false"

mutual

def Expr.dump (level : Nat) : Expr → List DumpLine
  | .literal value _ => [⟨level, "Literal(" ++ value.label ++ ")"⟩]
  | .var name _ => [⟨level, "Variable(" ++ name ++ ")"⟩]
  | .binary op left right _ =>
      ⟨level, "Binary(" ++ op.symbol ++ ")"⟩ ::
        (left.dump (level + 1) ++ right.dump (level + 1))
  | .unary op operand _ =>
      ⟨level, "Unary(" ++ op.symbol ++ ")"⟩ :: operand.dump (level + 1)
  | .call callee args _ =>
      ⟨level, "Call"⟩ :: ⟨level + 1, "Callee:"⟩ ::
        (callee.dump (level + 2) ++
          ⟨level + 1, "Args(" ++ toString args.length ++ "):"⟩ ::
            Expr.dumpAll (level + 2) args)
  | .index object place _ =>
      ⟨level, "Index"⟩ :: ⟨level + 1, "Object:"⟩ ::
        (object.dump (level + 2) ++ ⟨level + 1, "Index:"⟩ :: place.dump (level + 2))
  | .array elements _ =>
      ⟨level, "Array(" ++ toString elements.length ++ " elements)"⟩ ::
        Expr.dumpAll (level + 1) elements
  | .assign name value _ =>
      ⟨level, "Assign(" ++ name ++ ")"⟩ :: value.dump (level + 1)

def Expr.dumpAll (level : Nat) : List Expr → List DumpLine
  | [] => []
  | e :: rest => e.dump level ++ Expr.dumpAll level rest

end

def Param.label (param : Param) : String := param.name ++ ": " ++ param.type

def blockLabel (statements : Nat) : String :=
  "Block(" ++ toString statements ++ " statements)"

def varDeclLabel (name : String) : Option String → String
  | none => "VarDecl(" ++ name ++ ")"
  | some type => "VarDecl(" ++ name ++ ": " ++ type ++ ")"

mutual

def Stmt.dump (level : Nat) : Stmt → List DumpLine
  | .expr value _ => ⟨level, "ExprStmt"⟩ :: value.dump (level + 1)
  | .varDecl name type? init? _ =>
      ⟨level, varDeclLabel name type?⟩ ::
        (match init? with
        | none => []
        | some init => ⟨level + 1, "Initializer:"⟩ :: init.dump (level + 2))
  | .fnDecl name params returns? body _ _ =>
      ⟨level, "FunctionDecl(" ++ name ++ ")"⟩ ::
        ⟨level + 1, "Params(" ++ toString params.length ++ "):"⟩ ::
        (params.map (fun param => ⟨level + 2, param.label⟩) ++
          (match returns? with
          | none => []
          | some type => [⟨level + 1, "Returns: " ++ type⟩]) ++
          ⟨level + 1, "Body:"⟩ :: ⟨level + 2, blockLabel body.length⟩ ::
            Stmt.dumpAll (level + 3) body)
  | .ifElse cond body else? _ =>
      ⟨level, "IfStmt"⟩ :: ⟨level + 1, "Condition:"⟩ ::
        (cond.dump (level + 2) ++ ⟨level + 1, "Then:"⟩ ::
          (body.dump (level + 2) ++ Stmt.dumpElse level else?))
  | .whileLoop cond body _ =>
      ⟨level, "WhileStmt"⟩ :: ⟨level + 1, "Condition:"⟩ ::
        (cond.dump (level + 2) ++ ⟨level + 1, "Body:"⟩ :: body.dump (level + 2))
  | .ret value? _ =>
      ⟨level, "ReturnStmt"⟩ ::
        (match value? with
        | none => []
        | some value => value.dump (level + 1))
  | .block body _ =>
      ⟨level, blockLabel body.length⟩ :: Stmt.dumpAll (level + 1) body

def Stmt.dumpAll (level : Nat) : List Stmt → List DumpLine
  | [] => []
  | s :: rest => s.dump level ++ Stmt.dumpAll level rest

def Stmt.dumpElse (level : Nat) : Option Stmt → List DumpLine
  | none => []
  | some s => ⟨level + 1, "Else:"⟩ :: s.dump (level + 2)

end

def Program.dump (program : Program) : List DumpLine :=
  ⟨0, "Program(" ++ toString program.statements.length ++ " statements)"⟩ ::
    Stmt.dumpAll 1 program.statements

def Program.text (program : Program) : String := dumpText program.dump

end Pidgin
