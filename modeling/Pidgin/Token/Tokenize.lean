import Pidgin.Diagnostic.Basic
import Pidgin.Source.Cursor
import Pidgin.Token.Basic
import Pidgin.Token.Lexeme

/-!
# Reading tokens

From a source text to its tokens.

A token carries the position of the first character of its lexeme.  The first
fault ends the reading, and its position is where reading stopped.
-/

namespace Pidgin

/-- Skip blanks and read one token; at the end of the text the token says so. -/
def Token.next (origin : Origin) (cursor : Cursor) : Except Diagnostic Token × Cursor :=
  let start := cursor.skipBlanks
  match start.rest with
  | [] => (.ok ⟨.eof, "", start.pos, origin⟩, start)
  | c :: rest =>
      let lexeme := Lexeme.scan c rest
      let stop := start.advance lexeme.length
      match lexeme.reading with
      | .ok (kind, text) => (.ok ⟨kind, text, start.pos, origin⟩, stop)
      | .error cause => (.error ⟨cause, stop.pos, origin.file⟩, stop)

theorem Token.length_rest_next {origin : Origin} {cursor cursor' : Cursor} {token : Token}
    (h : Token.next origin cursor = (.ok token, cursor')) (hkind : token.kind ≠ .eof) :
    cursor'.rest.length < cursor.rest.length := by
  have hskip : cursor.skipBlanks.rest.length ≤ cursor.rest.length := by
    rw [Cursor.skipBlanks, Cursor.length_rest_advance]
    exact Nat.sub_le ..
  unfold Token.next at h
  dsimp only at h
  split at h
  · simp only [Prod.mk.injEq, Except.ok.injEq] at h
    exact absurd (h.1 ▸ rfl) hkind
  · rename_i c rest hrest
    have hpos := Lexeme.length_scan_pos c rest
    have hlength : (cursor.skipBlanks.advance (Lexeme.scan c rest).length).rest.length <
        cursor.skipBlanks.rest.length := by
      rw [Cursor.length_rest_advance, hrest, List.length_cons]
      omega
    split at h
    · simp only [Prod.mk.injEq] at h
      rw [← h.2]
      omega
    · simp at h

/-- The tokens of a text, and the fault that ended them if there was one. -/
structure Tokenization where
  tokens : List Token
  fault? : Option Diagnostic
  deriving DecidableEq, Repr

namespace Tokenization

/-- Whether the whole text was read; the last token then marks its end. -/
def complete (t : Tokenization) : Bool := t.fault?.isNone

def cons (token : Token) (t : Tokenization) : Tokenization :=
  ⟨token :: t.tokens, t.fault?⟩

def ofCursor (origin : Origin) (cursor : Cursor) : Tokenization :=
  match h : Token.next origin cursor with
  | (.error fault, _) => ⟨[], some fault⟩
  | (.ok token, cursor') =>
      if hkind : token.kind = .eof then ⟨[token], none⟩
      else
        have := Token.length_rest_next h hkind
        (ofCursor origin cursor').cons token
termination_by cursor.rest.length

variable {origin : Origin} {cursor cursor' : Cursor}

theorem ofCursor_of_fault {fault : Diagnostic}
    (h : Token.next origin cursor = (.error fault, cursor')) :
    ofCursor origin cursor = ⟨[], some fault⟩ := by
  rw [ofCursor]
  split
  · rename_i h'
    cases h.symm.trans h'
    rfl
  · rename_i h'
    cases h.symm.trans h'

theorem ofCursor_of_eof {token : Token}
    (h : Token.next origin cursor = (.ok token, cursor')) (hkind : token.kind = .eof) :
    ofCursor origin cursor = ⟨[token], none⟩ := by
  rw [ofCursor]
  split
  · rename_i h'
    cases h.symm.trans h'
  · rename_i h'
    cases h.symm.trans h'
    exact dif_pos hkind

theorem ofCursor_of_token {token : Token}
    (h : Token.next origin cursor = (.ok token, cursor')) (hkind : token.kind ≠ .eof) :
    ofCursor origin cursor = (ofCursor origin cursor').cons token := by
  rw [ofCursor]
  split
  · rename_i h'
    cases h.symm.trans h'
  · rename_i h'
    cases h.symm.trans h'
    exact dif_neg hkind

end Tokenization

def tokenize (source : String) (origin : Origin) : Tokenization :=
  Tokenization.ofCursor origin (.ofText source)

end Pidgin
