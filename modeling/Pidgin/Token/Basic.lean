import Pidgin.Source.Position
import Pidgin.Text.Quoted
import Pidgin.Token.Kind

/-!
# Tokens

Tokens: a kind, the text it carries, and where it was found.
-/

namespace Pidgin

structure Origin where
  file : String := "unknown"
  directory : String := "."
  deriving DecidableEq, Repr

structure Token where
  kind : Kind
  text : String
  pos : Position
  origin : Origin
  deriving DecidableEq, Repr

namespace Token

def display (token : Token) : String :=
  token.kind.name ++ " " ++ quoted token.text ++ " at " ++
    token.origin.file ++ ":" ++ toString token.pos

def describe (token : Token) : String :=
  match token.kind with
  | .eof => "end of input"
  | _ => token.text

end Token

end Pidgin
