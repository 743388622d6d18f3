import Pidgin.Proofs.Source.Place
import Pidgin.Proofs.Token.Tiling

/-!
# Where tokens stand

However a text is read, by characters or by tokens, a cursor only ever moves
forward over it and knows its place.  A token is found where its lexeme starts,
and the end mark where the text ends, so the tokens of a text stand further and
further on.
-/

namespace Pidgin

open Spelling

namespace Cursor

/-! ## Reading on -/

/-- Of the text, the cursor has read `pre`, and its place is the one behind it. -/
structure HasRead (source pre : List Char) (cursor : Cursor) : Prop where
  text : source = pre ++ cursor.rest
  pos : cursor.pos = .behind pre

variable {source pre : List Char} {cursor : Cursor}

theorem hasRead_ofText (source : String) : HasRead source.toList [] (.ofText source) := ⟨rfl, rfl⟩

theorem HasRead.advance (h : HasRead source pre cursor) (n : Nat) :
    HasRead source (pre ++ cursor.rest.take n) (cursor.advance n) := by
  constructor
  · simp [Cursor.advance, h.text]
  · rw [Cursor.advance, h.pos, Position.afterAll_behind]

theorem take_blanks (cursor : Cursor) :
    cursor.rest.take (cursor.rest.takeWhile isBlank).length = cursor.rest.takeWhile isBlank :=
  (List.prefix_iff_eq_take.1 (List.takeWhile_prefix _)).symm

theorem HasRead.skipBlanks (h : HasRead source pre cursor) :
    HasRead source (pre ++ cursor.rest.takeWhile isBlank) cursor.skipBlanks := by
  rw [← take_blanks]
  exact h.advance _

inductive Operation where
  | advance
  | advanceBy (n : Nat)
  | nextToken

def Operation.run (origin : Origin) (cursor : Cursor) : Operation → Cursor
  | advance => cursor.advance 1
  | advanceBy n => cursor.advance n
  | nextToken => (Token.next origin cursor).2

def runAll (origin : Origin) (cursor : Cursor) (ops : List Operation) : Cursor :=
  ops.foldl (Operation.run origin) cursor

theorem exists_next_eq_advance (origin : Origin) (cursor : Cursor) :
    ∃ n, (Token.next origin cursor).2 = cursor.advance n := by
  unfold Token.next
  dsimp only
  split
  · exact ⟨_, rfl⟩
  · split <;> exact ⟨_, advance_advance ..⟩

theorem exists_run_eq_advance (origin : Origin) (cursor : Cursor) (op : Operation) :
    ∃ n, op.run origin cursor = cursor.advance n := by
  cases op with
  | advance => exact ⟨1, rfl⟩
  | advanceBy n => exact ⟨n, rfl⟩
  | nextToken => exact exists_next_eq_advance origin cursor

theorem HasRead.next (h : HasRead source pre cursor) (origin : Origin) :
    ∃ text, HasRead source (pre ++ text) (Token.next origin cursor).2 := by
  obtain ⟨n, hn⟩ := exists_next_eq_advance origin cursor
  exact ⟨cursor.rest.take n, hn ▸ h.advance n⟩

theorem HasRead.runAll (h : HasRead source pre cursor) (origin : Origin) (ops : List Operation) :
    ∃ text, HasRead source (pre ++ text) (cursor.runAll origin ops) := by
  induction ops generalizing pre cursor with
  | nil => exact ⟨[], by simpa [Cursor.runAll] using h⟩
  | cons op ops ih =>
      obtain ⟨n, hn⟩ := exists_run_eq_advance origin cursor op
      obtain ⟨text, htext⟩ := ih (h.advance n)
      refine ⟨cursor.rest.take n ++ text, ?_⟩
      simpa [Cursor.runAll, hn] using htext

end Cursor

/-! ## The place of a token -/

namespace Token

/-- In front of `rest`, the token has this lexeme; the end mark has none. -/
inductive Written (token : Token) : (lexeme rest : List Char) → Prop where
  | mark (hkind : token.kind = .eof) : Written token [] []
  | lexeme {lexeme rest : List Char} (hsome : lexeme ≠ [])
      (hspells : Spells token.kind token.text.toList lexeme rest) : Written token lexeme rest

def Placed (source pre : List Char) (token : Token) : Prop :=
  token.pos = .behind pre ∧
    ∃ lexeme rest, source = pre ++ (lexeme ++ rest) ∧ token.Written lexeme rest

variable {origin : Origin} {source pre : List Char} {cursor cursor' : Cursor} {token : Token}

theorem pos_next (h : Token.next origin cursor = (.ok token, cursor')) :
    token.pos = cursor.skipBlanks.pos := by
  unfold Token.next at h
  dsimp only at h
  split at h
  · cases h
    rfl
  · split at h <;> cases h
    rfl

theorem next_of_hasRead (hread : cursor.HasRead source pre)
    (h : Token.next origin cursor = (.ok token, cursor')) :
    ∃ blanks lexeme, token.pos = .behind (pre ++ blanks) ∧ token.Written lexeme cursor'.rest ∧
      cursor'.HasRead source (pre ++ blanks ++ lexeme) := by
  have hpos := pos_next h
  rw [hread.skipBlanks.pos] at hpos
  rcases next_cases h with ⟨hreading, hblanks⟩ | ⟨blanks, lexeme, hrest, hblanks, hsome, hspells⟩
  · have hskip : cursor.skipBlanks.rest = [] := by
      rw [Cursor.rest_skipBlanks, List.dropWhile_eq_nil_iff]
      exact hblanks
    have hcursor : cursor' = cursor.skipBlanks := by
      simp only [Token.next, hskip, Prod.mk.injEq] at h
      exact h.2.symm
    refine ⟨_, [], hpos, ?_, ?_⟩
    · rw [hcursor, hskip]
      exact .mark (congrArg Prod.fst hreading)
    · rw [List.append_nil, hcursor]
      exact hread.skipBlanks
  · obtain ⟨text, hstop⟩ := hread.next origin
    rw [h] at hstop
    rw [hrest, hblanks.takeWhile_eq] at hpos
    refine ⟨blanks, lexeme, hpos, .lexeme hsome hspells, ?_⟩
    -- What has been read is told by what is left.
    have htext := hread.text.symm.trans hstop.text
    simp only [hrest, List.append_assoc, List.append_cancel_left_eq] at htext
    rw [← List.append_assoc, List.append_cancel_right_eq] at htext
    rwa [List.append_assoc, htext]

theorem Written.ne_nil {lexeme rest : List Char} (h : token.Written lexeme rest)
    (hkind : token.kind ≠ .eof) : lexeme ≠ [] := by
  cases h with
  | mark hmark => contradiction
  | lexeme hsome hspells => exact hsome

theorem Written.eq_nil {lexeme rest : List Char} (h : token.Written lexeme rest)
    (hkind : token.kind = .eof) : lexeme = [] ∧ rest = [] := by
  cases h with
  | mark hmark => exact ⟨rfl, rfl⟩
  | lexeme hsome hspells => exact absurd hkind hspells.kind_ne_eof

end Token

/-! ## The tokens of a text -/

namespace Tokenization

variable {origin : Origin} {source pre : List Char} {cursor : Cursor}

theorem ofCursor_places (hread : cursor.HasRead source pre) :
    (∀ token ∈ (ofCursor origin cursor).tokens, ∃ text, token.Placed source (pre ++ text)) ∧
      (ofCursor origin cursor).tokens.Pairwise (·.pos < ·.pos) := by
  fun_induction ofCursor origin cursor generalizing pre with
  | case1 => simp
  | case2 cursor token cursor' hnext hkind =>
      obtain ⟨blanks, lexeme, hpos, hwritten, hstop⟩ := Token.next_of_hasRead hread hnext
      have hplaced : token.Placed source (pre ++ blanks) :=
        ⟨hpos, lexeme, _, by rw [← List.append_assoc, ← hstop.text], hwritten⟩
      simpa using ⟨blanks, hplaced⟩
  | case3 cursor token cursor' hnext hkind _ ih =>
      obtain ⟨blanks, lexeme, hpos, hwritten, hstop⟩ := Token.next_of_hasRead hread hnext
      have hplaced : token.Placed source (pre ++ blanks) :=
        ⟨hpos, lexeme, _, by rw [← List.append_assoc, ← hstop.text], hwritten⟩
      have hsome := hwritten.ne_nil hkind
      obtain ⟨hplaces, hsorted⟩ := ih hstop
      simp only [cons, List.forall_mem_cons, List.pairwise_cons]
      refine ⟨⟨⟨blanks, hplaced⟩, ?_⟩, ?_, hsorted⟩
      · intro later hlater
        obtain ⟨text, htext⟩ := hplaces later hlater
        exact ⟨blanks ++ lexeme ++ text, by simpa using htext⟩
      · intro later hlater
        obtain ⟨text, hlaterPos, -⟩ := hplaces later hlater
        rw [hpos, hlaterPos, List.append_assoc]
        exact Position.behind_lt_behind _ (by simp [hsome])

end Tokenization

/--
However a text is read, what has been read is a part of it that only grows, and the place of the
cursor is the one behind it.  A token is found where its lexeme starts and the end mark where the
text ends, so the tokens of the text stand further and further on.
-/
theorem positions_exact (source : String) (origin : Origin)
    (hlength : source.length < 4294967295) :
    (∀ ops more : List Cursor.Operation, ∃ pre text,
      ((Cursor.ofText source).runAll origin ops).HasRead source.toList pre ∧
      ((Cursor.ofText source).runAll origin (ops ++ more)).HasRead source.toList (pre ++ text)) ∧
    (∀ pre, pre <+: source.toList → (Position.behind pre).Fits) ∧
    (∀ (ops : List Cursor.Operation) (token : Token) (cursor : Cursor),
      Token.next origin ((Cursor.ofText source).runAll origin ops) = (.ok token, cursor) →
      ∃ pre lexeme, source.toList = pre ++ (lexeme ++ cursor.rest) ∧
        token.Written lexeme cursor.rest ∧ token.pos = .behind pre ∧
        (token.kind = .eof → pre = source.toList)) ∧
    (tokenize source origin).tokens.Pairwise (·.pos < ·.pos) := by
  have hstart := Cursor.hasRead_ofText source
  refine ⟨?_, ?_, ?_, (Tokenization.ofCursor_places hstart).2⟩
  · intro ops more
    obtain ⟨pre, hpre⟩ := hstart.runAll origin ops
    obtain ⟨text, htext⟩ := hpre.runAll origin more
    refine ⟨pre, text, hpre, ?_⟩
    simpa [Cursor.runAll] using htext
  · intro pre hpre
    have hshort := hpre.length_le
    rw [String.length_toList] at hshort
    exact Position.fits_behind (by omega)
  · intro ops token cursor h
    obtain ⟨pre, hpre⟩ := hstart.runAll origin ops
    obtain ⟨blanks, lexeme, hpos, hwritten, hstop⟩ := Token.next_of_hasRead hpre h
    refine ⟨_, lexeme, by rw [← List.append_assoc, ← hstop.text], hwritten, hpos, ?_⟩
    intro hkind
    obtain ⟨rfl, hrest⟩ := hwritten.eq_nil hkind
    simp [hstop.text, hrest]

/-- Behind an escape that is none, reading goes on across the end of the line. -/
theorem positions_exact_after_fault :
    let source := "'\\q\n é"
    let cursor := (Cursor.ofText source).runAll ⟨"main", "."⟩ [.nextToken, .advanceBy 2]
    source.length < 4294967295 ∧ (∃ pre, cursor.HasRead source.toList pre) ∧
      ∃ token stop pre lexeme, Token.next ⟨"main", "."⟩ cursor = (.ok token, stop) ∧
        source.toList = pre ++ (lexeme ++ stop.rest) ∧ token.pos = .behind pre ∧
        token.pos = ⟨2, 2⟩ := by
  intro source cursor
  have hlength : source.length < 4294967295 := by decide
  obtain ⟨hreads, -, htokens, -⟩ := positions_exact source ⟨"main", "."⟩ hlength
  obtain ⟨pre, -, hread, -⟩ := hreads [.nextToken, .advanceBy 2] []
  refine ⟨hlength, ⟨pre, hread⟩, ?_⟩
  have hnext : Token.next ⟨"main", "."⟩ cursor =
      (.ok ⟨.illegal, "é", ⟨2, 2⟩, ⟨"main", "."⟩⟩, ⟨[], ⟨2, 3⟩⟩) := by decide +kernel
  obtain ⟨pre, lexeme, htext, -, hplace, -⟩ := htokens _ _ _ hnext
  exact ⟨_, _, pre, lexeme, hnext, htext, hplace, rfl⟩

end Pidgin
