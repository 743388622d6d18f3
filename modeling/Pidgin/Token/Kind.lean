/-!
# Kinds of token

The kinds of token, their names in diagnostics, and the spelling of the
operators among them.
-/

namespace Pidgin

inductive Kind where
  | illegal
  | eof
  | comment
  | ident
  | integer
  | float
  | string
  | assign
  | plus
  | minus
  | star
  | slash
  | bang
  | equal
  | notEqual
  | less
  | greater
  | comma
  | semicolon
  | colon
  | lparen
  | rparen
  | lbrace
  | rbrace
  | lbracket
  | rbracket
  /-- Declares a variable. -/
  | abeg
  /-- Declares a function. -/
  | oya
  /-- Repeats while a condition holds. -/
  | waka
  /-- Returns from a function. -/
  | comot
  /-- Branches on a condition. -/
  | abi
  /-- The other branch. -/
  | naso
  | litTrue
  | litFalse
  | and
  | or
  | orElse
  | typeName
  deriving DecidableEq, Repr

namespace Kind

def all : List Kind :=
  [illegal, eof, comment, ident, integer, float, string,
   assign, plus, minus, star, slash, bang, equal, notEqual, less, greater,
   comma, semicolon, colon, lparen, rparen, lbrace, rbrace, lbracket, rbracket,
   abeg, oya, waka, comot, abi, naso, litTrue, litFalse, and, or, orElse, typeName]

def name : Kind → String
  | illegal => "ILLEGAL"
  | eof => "EOF"
  | comment => "COMMENT"
  | ident => "IDENT"
  | integer => "INTEGER"
  | float => "FLOAT"
  | string => "STRING"
  | assign => "ASSIGN"
  | plus => "PLUS"
  | minus => "MINUS"
  | star => "ASTERISK"
  | slash => "SLASH"
  | bang => "BANG"
  | equal => "EQUAL"
  | notEqual => "NOT_EQUAL"
  | less => "LESS_THAN"
  | greater => "GREATER_THAN"
  | comma => "COMMA"
  | semicolon => "SEMICOLON"
  | colon => "COLON"
  | lparen => "LPAREN"
  | rparen => "RPAREN"
  | lbrace => "LBRACE"
  | rbrace => "RBRACE"
  | lbracket => "LBRACKET"
  | rbracket => "RBRACKET"
  | abeg => "ABEG"
  | oya => "OYA"
  | waka => "WAKA"
  | comot => "COMOT"
  | abi => "ABI"
  | naso => "NASO"
  | litTrue => "TRUE"
  | litFalse => "FALSE"
  | and => "AND"
  | or => "OR"
  | orElse => "OR_ELSE"
  | typeName => "TYPE"

def ofName? (text : String) : Option Kind :=
  all.find? fun kind => kind.name == text

/-- The spelling of an operator in a tree dump; a question mark for any other kind. -/
def symbol : Kind → String
  | plus => "+"
  | minus => "-"
  | star => "*"
  | slash => "/"
  | bang => "!"
  | equal => "=="
  | notEqual => "!="
  | less => "<"
  | greater => ">"
  | and => "and"
  | or => "or"
  | orElse => "orelse"
  | assign => "="
  | _ => "?"

/-- Whether recovery from an error may resume in front of this kind. -/
def startsDeclaration : Kind → Bool
  | abeg | oya | waka | abi | comot | typeName => true
  | _ => false

theorem mem_all (kind : Kind) : kind ∈ all := by
  cases kind <;> decide

end Kind

end Pidgin
