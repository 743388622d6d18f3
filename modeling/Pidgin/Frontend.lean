import Pidgin.Parse.Program
import Pidgin.Token.Tokenize

/-!
# From source text to program

A fault that ends the reading of tokens is the only one reported; otherwise the
errors are those of the parse.
-/

namespace Pidgin

def parseSource (source file : String) : Except (List Diagnostic) Program :=
  let result := tokenize source ⟨file, "."⟩
  match result.fault? with
  | some fault => .error [fault]
  | none => parse result.tokens file defaultLimit

end Pidgin
