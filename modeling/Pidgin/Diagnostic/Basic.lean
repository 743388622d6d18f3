import Pidgin.Diagnostic.Cause
import Pidgin.Source.Lines
import Pidgin.Source.Position

/-!
# Diagnostics

Diagnostics: a fault together with the place where it was found, and its
rendering next to the line of source that it points at.
-/

namespace Pidgin

structure Diagnostic where
  cause : Cause
  pos : Position
  file : String
  deriving DecidableEq, Repr

namespace Diagnostic

def isLexical (d : Diagnostic) : Bool := d.cause.isLexical

def summary (d : Diagnostic) : String :=
  d.file ++ ":" ++ toString d.pos ++ ": " ++ d.cause.message

def header (d : Diagnostic) : String :=
  match d.cause.tip? with
  | none => "Error: " ++ d.cause.name
  | some tip => "Error: " ++ d.cause.name ++ " (" ++ tip ++ ")"

def gutter (line : Nat) : String :=
  String.ofList (List.replicate ((toString line).length + 1) ' ') ++ "|"

/-- Dashes that lead to a caret below the given column. -/
def pointer (column : Nat) : String :=
  String.ofList (List.replicate (column - 1) '-') ++ "^"

/-- The five lines of a report; a line that `source` does not have is left empty. -/
def reportLines (d : Diagnostic) (source : String) : List String :=
  [d.header,
   "-> " ++ d.file ++ ":" ++ toString d.pos,
   gutter d.pos.line,
   toString d.pos.line ++ " | " ++ (sourceLine? source d.pos.line).getD "",
   gutter d.pos.line ++ " " ++ pointer d.pos.column]

def render (d : Diagnostic) (source : String) : String :=
  "\n".intercalate (d.reportLines source)

end Diagnostic

def report (diagnostics : List Diagnostic) (source : String) : String :=
  String.join (diagnostics.map fun d => d.render source ++ "\n")

end Pidgin
