import Pidgin.Text.Unprinted

/-!
# Quoted texts

Texts as diagnostics quote them: between double quotes, with every character
that a reader could not see written out.
-/

namespace Pidgin

/-- The number of a character in lower-case hexadecimal, without leading zeros. -/
def codeText (c : Char) : List Char := Nat.toDigits 16 c.toNat

def quotedChar (c : Char) : List Char :=
  match c with
  | '\x00' => ['\\', '0']
  | '\t' => ['\\', 't']
  | '\r' => ['\\', 'r']
  | '\n' => ['\\', 'n']
  | '"' => ['\\', '"']
  | '\\' => ['\\', '\\']
  | _ =>
      if Unprinted.holds c then
        ['\\', 'u', '\x7b'] ++ codeText c ++ ['\x7d']
      else [c]

def quoted (text : String) : String :=
  String.ofList ('"' :: text.toList.flatMap quotedChar ++ ['"'])

end Pidgin
