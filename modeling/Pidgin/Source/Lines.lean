/-!
# Lines of a source text

The lines of a source text, as a diagnostic quotes them.

A line ends before its line feed, and one carriage return in front of that line
feed belongs to the line ending and not to the line.
-/

namespace Pidgin

def dropReturn (line : List Char) : List Char :=
  if line.getLast? = some '\r' then line.dropLast else line

/-- The text of a line counted from one; a text with `n` line feeds has `n + 1` lines. -/
def lineOf? : List Char → Nat → Option (List Char)
  | _, 0 => none
  | text, 1 => some (dropReturn (text.takeWhile (· ≠ '\n')))
  | text, line + 2 =>
      match text.dropWhile (· ≠ '\n') with
      | [] => none
      | _ :: rest => lineOf? rest (line + 1)

def sourceLine? (source : String) (line : Nat) : Option String :=
  (lineOf? source.toList line).map String.ofList

end Pidgin
