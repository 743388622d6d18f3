import Pidgin.Diagnostic.Basic
import Pidgin.Token.Basic

/-!
# The state of a parse

A parser stands between the tokens it has read and those it has not.  Comments
are dropped before it starts, and nothing after the first end mark is ever seen:
that mark is kept apart as the token at which the parser stops.

The first error of a malformed region is recorded and turns the parser to panic,
which mutes every later report until it has found a place to resume.
-/

namespace Pidgin

inductive Mode where
  | normal
  | panicking
  deriving DecidableEq, Repr

structure Parser where
  /-- The tokens already read, the last one first. -/
  behind : List Token
  /-- The tokens still to read; none of them marks the end. -/
  ahead : List Token
  stop : Token
  file : String
  limit : Nat
  mode : Mode
  /-- What was reported, oldest first. -/
  errors : List Diagnostic
  stop_eof : stop.kind = .eof
  deriving DecidableEq, Repr

namespace Parser

/-- The end mark of tokens that have none: it stands where the last of them does. -/
def endMark (tokens : List Token) (file : String) : Token :=
  ⟨.eof, "", (tokens.getLast?.map Token.pos).getD .start, ⟨file, "."⟩⟩

def firstEnd (tokens : List Token) (file : String) : Token :=
  (tokens.find? (·.kind = .eof)).getD (endMark tokens file)

theorem kind_firstEnd (tokens : List Token) (file : String) :
    (firstEnd tokens file).kind = .eof := by
  unfold firstEnd
  cases h : tokens.find? (·.kind = .eof) with
  | none => rfl
  | some token => simpa using List.find?_some h

def ofTokens (tokens : List Token) (file : String) (limit : Nat) : Parser :=
  let words := tokens.filter (·.kind ≠ .comment)
  { behind := []
    ahead := words.takeWhile (·.kind ≠ .eof)
    stop := firstEnd words file
    file
    limit
    mode := .normal
    errors := []
    stop_eof := kind_firstEnd words file }

def current (p : Parser) : Token := p.ahead.headD p.stop

def previous? (p : Parser) : Option Token := p.behind.head?

def atEnd (p : Parser) : Bool := p.ahead.isEmpty

def cursor (p : Parser) : Nat := p.behind.length

def hadError (p : Parser) : Bool := !p.errors.isEmpty

/-- Whether the current token is of the given kind; nothing is at the end. -/
def check (p : Parser) (kind : Kind) : Bool :=
  match p.ahead with
  | [] => false
  | token :: _ => token.kind = kind

/-- A fault found at `token`.  What is missing where an illegal character stands is
reported as that character. -/
def diagnose (p : Parser) (token : Token) (cause : Cause) : Diagnostic :=
  let cause :=
    match token.kind, cause with
    | .illegal, .expectedExpression _ => .invalidChar token.text
    | .illegal, .unexpectedToken _ _ => .invalidChar token.text
    | _, _ => cause
  ⟨cause, token.pos, p.file⟩

def tokens (p : Parser) : List Token := p.behind.reverse ++ p.ahead

def shift (p : Parser) : Parser :=
  match p.ahead with
  | [] => p
  | token :: ahead => { p with behind := token :: p.behind, ahead }

def record (p : Parser) (d : Diagnostic) : Parser :=
  match p.mode with
  | .normal => { p with mode := .panicking, errors := p.errors ++ [d] }
  | .panicking => p

/-- Move from the tokens ahead to those behind up to a place to resume: the end, just
after a semicolon, or in front of a token that starts a declaration. -/
def seek : List Token → List Token → List Token × List Token
  | behind, [] => (behind, [])
  | behind, token :: ahead =>
      if behind.head?.map Token.kind = some .semicolon ∨ token.kind.startsDeclaration then
        (behind, token :: ahead)
      else seek (token :: behind) ahead

def synchronize (p : Parser) : Parser :=
  let (behind, ahead) := seek p.behind p.ahead
  { p with behind, ahead, mode := .normal }

def recover (p : Parser) : Parser :=
  match p.mode with
  | .normal => p
  | .panicking => p.synchronize

@[simp] theorem tokens_shift (p : Parser) : p.shift.tokens = p.tokens := by
  unfold shift
  split
  · rfl
  · rename_i token ahead h
    simp [tokens, h]

@[simp] theorem tokens_record (p : Parser) (d : Diagnostic) :
    (p.record d).tokens = p.tokens := by
  unfold record
  split <;> rfl

theorem seek_append (behind ahead : List Token) :
    (seek behind ahead).1.reverse ++ (seek behind ahead).2 = behind.reverse ++ ahead := by
  induction ahead generalizing behind with
  | nil => rfl
  | cons token ahead ih =>
      rw [seek]
      split
      · rfl
      · rw [ih]
        simp

@[simp] theorem tokens_synchronize (p : Parser) : p.synchronize.tokens = p.tokens :=
  seek_append p.behind p.ahead

theorem check_eq_true_iff (p : Parser) (kind : Kind) :
    p.check kind = true ↔ ∃ token ahead, p.ahead = token :: ahead ∧ token.kind = kind := by
  unfold check
  split <;> simp_all

end Parser

/-- A step of a parse: it yields a value or fails with the diagnostic that was built. -/
abbrev Parse := EStateM Diagnostic Parser

namespace Parse

/-- Read one token; at the end this is the end mark, which stays where it is. -/
def advance : Parse Token := fun p => .ok p.current p.shift

def check (kind : Kind) : Parse Bool := fun p => .ok (p.check kind) p

def accept (kind : Kind) : Parse Bool := do
  if ← check kind then
    let _ ← advance
    return true
  else
    return false

def report (token : Token) (cause : Cause) : Parse Diagnostic := fun p =>
  let d := p.diagnose token cause
  .ok d (p.record d)

def fail {α : Type} (token : Token) (cause : Cause) : Parse α := do
  throw (← report token cause)

def expect (kind : Kind) (expectation : String) : Parse Token := do
  if ← check kind then
    advance
  else
    let token := (← get).current
    fail token (.unexpectedToken token.describe expectation)

def tooDeep {α : Type} : Parse α := do
  let p ← get
  fail p.current (.tooDeep p.limit)

def nested {α : Type} : (room : Nat) → (Nat → Parse α) → Parse α
  | 0, _ => tooDeep
  | room + 1, body => body room

def bounded {α : Type} (loop : Nat → Parse α) : Parse α := fun p => loop p.ahead.length p

/-! ## What the steps do to a parser -/

theorem accept_eq (kind : Kind) (p : Parser) :
    accept kind p = if p.check kind then .ok true p.shift else .ok false p := by
  change (if p.check kind then _ else _ : Parse Bool) p = _
  split <;> rfl

theorem fail_eq {α : Type} (token : Token) (cause : Cause) (p : Parser) :
    (fail token cause : Parse α) p =
      .error (p.diagnose token cause) (p.record (p.diagnose token cause)) := rfl

theorem expect_eq (kind : Kind) (expectation : String) (p : Parser) :
    expect kind expectation p =
      if p.check kind then .ok p.current p.shift
      else fail p.current (.unexpectedToken p.current.describe expectation) p := by
  change (if p.check kind then _ else _ : Parse Token) p = _
  split <;> rfl

theorem tooDeep_eq {α : Type} (p : Parser) :
    (tooDeep : Parse α) p = fail p.current (.tooDeep p.limit) p := rfl

end Parse

end Pidgin
