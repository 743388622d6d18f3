import Pidgin.Diagnostic.Cause
import Pidgin.Token.Word

/-!
# Lexemes

Lexemes: what stands at the front of a text that does not start with a blank.

A lexeme tells how many characters it takes and what they mean, or which fault
ends it.  Words, numbers and comments are as long as possible; a character that
starts nothing else is a lexeme of its own.
-/

namespace Pidgin

structure Lexeme where
  length : Nat
  reading : Except Cause (Kind × String)

namespace Lexeme

def plain (kind : Kind) (text : List Char) : Lexeme :=
  ⟨text.length, .ok (kind, String.ofList text)⟩

def single? : Char → Option Kind
  | '+' => some .plus
  | '-' => some .minus
  | '*' => some .star
  | ';' => some .semicolon
  | ':' => some .colon
  | ',' => some .comma
  | '(' => some .lparen
  | ')' => some .rparen
  | '\x7b' => some .lbrace
  | '\x7d' => some .rbrace
  | '[' => some .lbracket
  | ']' => some .rbracket
  | '<' => some .less
  | '>' => some .greater
  | _ => none

def withEquals (c : Char) (alone paired : Kind) (rest : List Char) : Lexeme :=
  match rest with
  | '=' :: _ => plain paired [c, '=']
  | _ => plain alone [c]

/-- Digits, and a point with more digits if both are there. -/
def number (c : Char) (rest : List Char) : Lexeme :=
  let whole := c :: rest.takeWhile Char.isDigit
  match rest.dropWhile Char.isDigit with
  | '.' :: d :: more =>
      if d.isDigit then plain .float (whole ++ '.' :: d :: more.takeWhile Char.isDigit)
      else plain .integer whole
  | _ => plain .integer whole

def word (c : Char) (rest : List Char) : Lexeme :=
  let letters := c :: rest.takeWhile isWordPart
  plain (.ofWord (String.ofList letters)) letters

def unescape? : Char → Option Char
  | 'n' => some '\n'
  | 't' => some '\t'
  | 'r' => some '\r'
  | '\\' => some '\\'
  | '"' => some '"'
  | '\'' => some '\''
  | _ => none

/-- How far a quoted body was read, and its value or the fault that ended it. -/
structure Body where
  length : Nat
  value : Except Cause (List Char)

def Body.cons (c : Char) (n : Nat) (body : Body) : Body :=
  ⟨n + body.length, body.value.map (c :: ·)⟩

/--
Read up to and including the closing quote.  A backslash that starts no escape
is the last character read.
-/
def body (quote : Char) : List Char → Body
  | [] => ⟨0, .error .unterminatedString⟩
  | c :: rest =>
      if c = quote then ⟨1, .ok []⟩
      else if c = '\\' then
        match rest with
        | [] => ⟨1, .error (.invalidEscape "\\")⟩
        | e :: more =>
            match unescape? e with
            | some value => (body quote more).cons value 2
            | none => ⟨1, .error (.invalidEscape (String.ofList ['\\', e]))⟩
      else (body quote rest).cons c 1

def string (quote : Char) (rest : List Char) : Lexeme :=
  let found := body quote rest
  ⟨1 + found.length, found.value.map fun value => (.string, String.ofList value)⟩

def untilClosed : List Char → Option (List Char)
  | [] => none
  | c :: rest =>
      if c = '*' ∧ rest.head? = some '/' then some []
      else (untilClosed rest).map (c :: ·)

/-- A slash, a comment up to the end of the line, or a comment up to its end mark. -/
def slash (rest : List Char) : Lexeme :=
  match rest with
  | '/' :: more =>
      let text := more.takeWhile (· ≠ '\n')
      ⟨2 + text.length, .ok (.comment, String.ofList text)⟩
  | '*' :: more =>
      match untilClosed more with
      | some text => ⟨2 + text.length + 2, .ok (.comment, String.ofList text)⟩
      | none => ⟨2 + more.length, .error .unterminatedComment⟩
  | _ => plain .slash ['/']

/-- The lexeme at the front of `c :: rest`, where `c` is no blank. -/
def scan (c : Char) (rest : List Char) : Lexeme :=
  match single? c with
  | some kind => plain kind [c]
  | none =>
      if c = '=' then withEquals c .assign .equal rest
      else if c = '!' then withEquals c .bang .notEqual rest
      else if c = '/' then slash rest
      else if c = '"' ∨ c = '\'' then string c rest
      else if c.isDigit then number c rest
      else if isWordStart c then word c rest
      else plain .illegal [c]

theorem length_withEquals_pos (c : Char) (alone paired : Kind) (rest : List Char) :
    0 < (withEquals c alone paired rest).length := by
  unfold withEquals
  split <;> simp [plain]

theorem length_number_pos (c : Char) (rest : List Char) :
    0 < (number c rest).length := by
  unfold number
  dsimp only
  split
  · split <;> simp [plain]
  · simp [plain]

theorem length_slash_pos (rest : List Char) : 0 < (slash rest).length := by
  unfold slash
  split
  · dsimp only
    omega
  · split <;> dsimp only <;> omega
  · simp [plain]

theorem length_scan_pos (c : Char) (rest : List Char) : 0 < (scan c rest).length := by
  unfold scan
  split
  · simp [plain]
  · split
    · exact length_withEquals_pos ..
    split
    · exact length_withEquals_pos ..
    split
    · exact length_slash_pos rest
    split
    · exact Nat.lt_of_lt_of_le Nat.zero_lt_one (Nat.le_add_right ..)
    split
    · exact length_number_pos c rest
    split
    · simp [word, plain]
    · simp [plain]

end Lexeme

end Pidgin
