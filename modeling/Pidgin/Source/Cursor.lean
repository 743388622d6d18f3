import Pidgin.Source.Position

/-!
# Cursors

A cursor into a source text: the characters still to read, and the position of
the first of them.
-/

namespace Pidgin

structure Cursor where
  rest : List Char
  pos : Position
  deriving DecidableEq, Repr

namespace Cursor

def ofText (source : String) : Cursor := ⟨source.toList, .start⟩

def peek? (cursor : Cursor) (offset : Nat) : Option Char := cursor.rest[offset]?

def atEnd (cursor : Cursor) : Bool := cursor.rest.isEmpty

/-- Read `n` characters, or all that are left if there are fewer. -/
def advance (cursor : Cursor) (n : Nat) : Cursor :=
  ⟨cursor.rest.drop n, cursor.pos.afterAll (cursor.rest.take n)⟩

def isBlank (c : Char) : Bool :=
  c = ' ' || c = '\t' || c = '\r' || c = '\n'

def skipBlanks (cursor : Cursor) : Cursor :=
  cursor.advance (cursor.rest.takeWhile isBlank).length

theorem rest_skipBlanks (cursor : Cursor) :
    cursor.skipBlanks.rest = cursor.rest.dropWhile isBlank := by
  have h := List.takeWhile_append_dropWhile (p := isBlank) (l := cursor.rest)
  calc
    cursor.rest.drop (cursor.rest.takeWhile isBlank).length
        = (cursor.rest.takeWhile isBlank ++ cursor.rest.dropWhile isBlank).drop
            (cursor.rest.takeWhile isBlank).length := by rw [h]
    _ = cursor.rest.dropWhile isBlank := List.drop_left

theorem advance_advance (cursor : Cursor) (m n : Nat) :
    (cursor.advance m).advance n = cursor.advance (m + n) := by
  simp [advance, List.take_add, Position.afterAll_append]

theorem length_rest_advance (cursor : Cursor) (n : Nat) :
    (cursor.advance n).rest.length = cursor.rest.length - n := by
  simp [advance]

end Cursor

end Pidgin
