import Pidgin.Token.Kind

/-!
# Words

Words: identifiers, keywords and the names of types.
-/

namespace Pidgin

def keywords : List (String × Kind) :=
  [("abeg", .abeg), ("oya", .oya), ("waka", .waka), ("comot", .comot),
   ("abi", .abi), ("naso", .naso), ("true", .litTrue), ("false", .litFalse),
   ("and", .and), ("or", .or), ("orelse", .orElse)]

def keyword? (word : String) : Option Kind := keywords.lookup word

def typeNames : List String :=
  ["int", "float", "string", "bool", "void", "any", "error", "interface"]

def isTypeName (word : String) : Bool := typeNames.contains word

/-- A word is a keyword, or else the name of a type, or else an identifier. -/
def Kind.ofWord (word : String) : Kind :=
  match keyword? word with
  | some kind => kind
  | none => if isTypeName word then .typeName else .ident

def isWordStart (c : Char) : Bool := c.isAlpha || c = '_'

def isWordPart (c : Char) : Bool := c.isAlphanum || c = '_'

end Pidgin
