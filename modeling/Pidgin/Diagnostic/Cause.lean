import Pidgin.Text.Quoted

/-!
# Faults

What can be wrong with a source text, in the words the user reads.
-/

namespace Pidgin

inductive Cause where
  | unterminatedString
  | invalidEscape (sequence : String)
  | unterminatedComment
  | invalidChar (text : String)
  | expectedExpression (found : String)
  | unexpectedToken (found expectation : String)
  | invalidTarget
  | malformedNumber (text : String)
  | tooDeep (limit : Nat)
  deriving DecidableEq, Repr

namespace Cause

def name : Cause → String
  | unterminatedString => "UnterminatedString"
  | invalidEscape _ => "InvalidEscape"
  | unterminatedComment => "UnterminatedComment"
  | invalidChar _ => "InvalidChar"
  | expectedExpression _ => "ExpectedExpression"
  | unexpectedToken _ _ => "UnexpectedToken"
  | invalidTarget => "InvalidAssignmentTarget"
  | malformedNumber _ => "NumberParseError"
  | tooDeep _ => "NestingTooDeep"

def message : Cause → String
  | unterminatedString => "unterminated string literal"
  | invalidEscape sequence => "invalid escape sequence " ++ quoted sequence ++ " in string"
  | unterminatedComment => "unterminated multi-line comment"
  | invalidChar text => "invalid character " ++ quoted text
  | expectedExpression found => "expected expression, found " ++ quoted found
  | unexpectedToken found expectation =>
      "unexpected token (" ++ expectation ++ "): " ++ quoted found
  | invalidTarget => "invalid assignment target"
  | malformedNumber text => "error parsing number: " ++ quoted text
  | tooDeep limit => "nesting deeper than " ++ toString limit ++ " levels"

def tip? : Cause → Option String
  | unterminatedString => some "String literal is never closed, add the matching quote"
  | invalidEscape sequence =>
      some ("Unknown escape `" ++ sequence ++
        "`, supported escapes are \\n \\t \\r \\\\ \\\" \\'")
  | unterminatedComment => some "Block comment is never closed with `*/`"
  | invalidChar text => some ("Unexpected character `" ++ text ++ "`")
  | expectedExpression _ => none
  | unexpectedToken found expectation =>
      some ("Unexpected token: `" ++ found ++ "`, " ++ expectation)
  | invalidTarget => some "Only a variable name can appear on the left of `=`"
  | malformedNumber text =>
      some ("Invalid number: `" ++ text ++ "`, is it above the integer limit?")
  | tooDeep limit =>
      some ("Nesting is limited to " ++ toString limit ++
        " levels, split the expression up")

/-- Whether the fault ends the reading of tokens. -/
def isLexical : Cause → Bool
  | unterminatedString | invalidEscape _ | unterminatedComment => true
  | _ => false

end Cause

end Pidgin
