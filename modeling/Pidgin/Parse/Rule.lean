import Pidgin.Token.Kind

/-!
# Binding rules

How a token takes part in an expression: how it opens one, how it continues one
that stands to its left, and how tightly it then binds.
-/

namespace Pidgin

/-- How tightly an operator binds, loosest first. -/
inductive Power where
  | none
  | assignment
  | or
  | and
  | equality
  | comparison
  | term
  | factor
  | unary
  | call
  | primary
  deriving DecidableEq, Repr

namespace Power

def rank : Power → Nat
  | none => 0
  | assignment => 1
  | or => 2
  | and => 3
  | equality => 4
  | comparison => 5
  | term => 6
  | factor => 7
  | unary => 8
  | call => 9
  | primary => 10

instance : Ord Power where
  compare a b := compare a.rank b.rank

instance : LE Power where
  le a b := a.rank ≤ b.rank

instance : LT Power where
  lt a b := a.rank < b.rank

instance (a b : Power) : Decidable (a ≤ b) :=
  inferInstanceAs (Decidable (a.rank ≤ b.rank))

instance (a b : Power) : Decidable (a < b) :=
  inferInstanceAs (Decidable (a.rank < b.rank))

/-- The next tighter power; the tightest is its own successor. -/
def next : Power → Power
  | none => assignment
  | assignment => or
  | or => and
  | and => equality
  | equality => comparison
  | comparison => term
  | term => factor
  | factor => unary
  | unary => call
  | call => primary
  | primary => primary

theorem le_def {a b : Power} : a ≤ b ↔ a.rank ≤ b.rank := Iff.rfl

theorem lt_def {a b : Power} : a < b ↔ a.rank < b.rank := Iff.rfl

theorem rank_injective {a b : Power} (h : a.rank = b.rank) : a = b := by
  cases a <;> cases b <;> first | rfl | contradiction

theorem rank_next (power : Power) : power.next.rank = min (power.rank + 1) 10 := by
  cases power <;> rfl

end Power

inductive Opening where
  | literal
  | var
  | unary
  | grouping
  | array
  deriving DecidableEq, Repr

inductive Continuation where
  | binary
  | call
  | index
  | assignment
  deriving DecidableEq, Repr

structure Rule where
  opening? : Option Opening
  continuation? : Option Continuation
  power : Power
  deriving DecidableEq, Repr

namespace Rule

def absent : Rule := ⟨none, none, .none⟩

def opens (opening : Opening) : Rule := ⟨some opening, none, .none⟩

def joins (power : Power) : Rule := ⟨none, some .binary, power⟩

def ofKind : Kind → Rule
  | .assign => ⟨none, some .assignment, .assignment⟩
  | .or | .orElse => joins .or
  | .and => joins .and
  | .equal | .notEqual => joins .equality
  | .less | .greater => joins .comparison
  | .plus => joins .term
  | .minus => ⟨some .unary, some .binary, .term⟩
  | .star | .slash => joins .factor
  | .lparen => ⟨some .grouping, some .call, .call⟩
  | .lbracket => ⟨some .array, some .index, .call⟩
  | .integer | .float | .string | .litTrue | .litFalse => opens .literal
  | .ident => opens .var
  | .bang => opens .unary
  | _ => absent

end Rule

def Kind.power (kind : Kind) : Power := (Rule.ofKind kind).power

end Pidgin
