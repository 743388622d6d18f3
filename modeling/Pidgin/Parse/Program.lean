import Pidgin.Parse.Statement

/-!
# Programs

A program is read declaration by declaration up to the end.  After a declaration
that left the parser panicking it skips to a place to resume, which can be the very
token that was blamed.

The number of tokens bounds the number of rounds.  From limit 1 on every round steps
over a token, so the bound is never what ends a run.  With limit 0 a declaration can
fail in front of the very token at which the parser resumes; a loop without a bound
would stay there for ever, and this one ends after as many rounds as there are tokens.
-/

namespace Pidgin

def defaultLimit : Nat := 512

def Parser.round (declaration : Parse Stmt) (p : Parser) : Option Stmt × Parser :=
  match declaration p with
  | .ok item q => (some item, q.recover)
  | .error _ q => (none, q.recover)

def Parser.declarations (declaration : Parse Stmt) :
    (rounds : Nat) → Parser → List Stmt × Parser
  | 0, p => ([], p)
  | rounds + 1, p =>
      if p.atEnd then ([], p)
      else
        let (item?, q) := p.round declaration
        let (items, last) := declarations declaration rounds q
        (item?.toList ++ items, last)

/-- The statements that a parser reads up to the end, and where that leaves it.  From limit 1 on
the tokens ahead are rounds enough; with limit 0 the run may be cut off in front of the end. -/
def Parser.run (p : Parser) : List Stmt × Parser :=
  p.declarations (Parse.declaration p.limit) p.ahead.length

def parse (tokens : List Token) (file : String) (limit : Nat) :
    Except (List Diagnostic) Program :=
  let (statements, last) := (Parser.ofTokens tokens file limit).run
  if last.hadError then .error last.errors else .ok ⟨statements⟩

end Pidgin
