import Pidgin.Proofs.Source.Place
import Pidgin.Proofs.Token.Boundary

/-!
# Texts below one another

Nothing but its place is carried across the end of a line, unless quotes or a
block comment are open there.  So if a text can be read to its end, the tokens of
any text below it are those that it has alone, further down; the same holds of the
fault that ends them.
-/

namespace Pidgin

open Spelling

/-! ## Moving down -/

def Position.down (lines : Nat) (pos : Position) : Position := ⟨pos.line + lines, pos.column⟩

def Token.down (lines : Nat) (token : Token) : Token := { token with pos := token.pos.down lines }

def Diagnostic.down (lines : Nat) (d : Diagnostic) : Diagnostic :=
  { d with pos := d.pos.down lines }

def Cursor.down (lines : Nat) (cursor : Cursor) : Cursor := ⟨cursor.rest, cursor.pos.down lines⟩

def Tokenization.down (lines : Nat) (t : Tokenization) : Tokenization :=
  ⟨t.tokens.map (Token.down lines), t.fault?.map (Diagnostic.down lines)⟩

variable {origin : Origin}

theorem Position.after_down (lines : Nat) (pos : Position) (c : Char) :
    (pos.down lines).after c = (pos.after c).down lines := by
  unfold after
  split <;> simp [down, Nat.add_right_comm]

theorem Position.afterAll_down (lines : Nat) (pos : Position) (text : List Char) :
    (pos.down lines).afterAll text = (pos.afterAll text).down lines := by
  induction text generalizing pos with
  | nil => rfl
  | cons c text ih => rw [afterAll_cons, afterAll_cons, after_down, ih]

theorem Cursor.advance_down (lines : Nat) (cursor : Cursor) (n : Nat) :
    (cursor.down lines).advance n = (cursor.advance n).down lines := by
  simp only [advance, down, Position.afterAll_down]

theorem Cursor.skipBlanks_down (lines : Nat) (cursor : Cursor) :
    (cursor.down lines).skipBlanks = cursor.skipBlanks.down lines :=
  advance_down lines cursor _

theorem Token.next_down (origin : Origin) (lines : Nat) (cursor : Cursor) :
    Token.next origin (cursor.down lines) =
      (((Token.next origin cursor).1.mapError (Diagnostic.down lines)).map (Token.down lines),
        (Token.next origin cursor).2.down lines) := by
  unfold Token.next
  rw [Cursor.skipBlanks_down]
  have hrest : (cursor.skipBlanks.down lines).rest = cursor.skipBlanks.rest := rfl
  dsimp only
  rw [hrest]
  cases cursor.skipBlanks.rest with
  | nil => rfl
  | cons c rest =>
      dsimp only
      rw [Cursor.advance_down]
      cases (Lexeme.scan c rest).reading <;> rfl

theorem Tokenization.ofCursor_down (lines : Nat) (cursor : Cursor) :
    ofCursor origin (cursor.down lines) = (ofCursor origin cursor).down lines := by
  fun_induction ofCursor origin cursor with
  | case1 cursor fault cursor' hnext =>
      have hdown := Token.next_down origin lines cursor
      rw [hnext] at hdown
      exact ofCursor_of_fault hdown
  | case2 cursor token cursor' hnext hkind =>
      have hdown := Token.next_down origin lines cursor
      rw [hnext] at hdown
      exact ofCursor_of_eof hdown hkind
  | case3 cursor token cursor' hnext hkind _ ih =>
      have hdown := Token.next_down origin lines cursor
      rw [hnext] at hdown
      rw [ofCursor_of_token hdown hkind, ih]
      rfl

/-! ## The end of a line -/

namespace Tokenization

variable {cursor cursor' : Cursor}

theorem ofCursor_congr (h : Token.next origin cursor = Token.next origin cursor') :
    ofCursor origin cursor = ofCursor origin cursor' := by
  rcases hresult : Token.next origin cursor' with ⟨fault | token, stop⟩
  · rw [hresult] at h
    rw [ofCursor_of_fault h, ofCursor_of_fault hresult]
  · rw [hresult] at h
    by_cases hkind : token.kind = .eof
    · rw [ofCursor_of_eof h hkind, ofCursor_of_eof hresult hkind]
    · rw [ofCursor_of_token h hkind, ofCursor_of_token hresult hkind]

theorem ofCursor_blanks {blanks : List Char} (h : ∀ c ∈ blanks, Cursor.isBlank c = true)
    (rest : List Char) (pos : Position) :
    ofCursor origin ⟨blanks ++ rest, pos⟩ = ofCursor origin ⟨rest, pos.afterAll blanks⟩ := by
  apply ofCursor_congr
  obtain ⟨more, after, rfl, hmore⟩ := exists_maximal Cursor.isBlank rest
  have hall : Maximal Cursor.isBlank (blanks ++ more) after :=
    ⟨List.forall_mem_append.2 ⟨h, hmore.inside⟩, hmore.stops⟩
  unfold Token.next
  rw [Cursor.skipBlanks_eq (List.append_assoc ..).symm hall, Cursor.skipBlanks_eq rfl hmore,
    Position.afterAll_append]

def prepend (first : List Token) (t : Tokenization) : Tokenization := ⟨first ++ t.tokens, t.fault?⟩

/-- What is read up to the end of a text is read in the same way if a line feed and more text
stand there, and the end mark is where reading goes on. -/
theorem ofCursor_line (more : List Char) (h : (ofCursor origin cursor).fault? = none) :
    ∃ w last, (ofCursor origin cursor).tokens = w ++ [last] ∧ last.kind = .eof ∧
      (∀ token ∈ w, token.kind ≠ .eof) ∧
      ofCursor origin ⟨cursor.rest ++ '\n' :: more, cursor.pos⟩ =
        (ofCursor origin ⟨more, cursor.pos.afterAll (cursor.rest ++ ['\n'])⟩).prepend w := by
  fun_induction ofCursor origin cursor with
  | case1 => cases h
  | case2 cursor token cursor' hnext hkind =>
      refine ⟨[], token, rfl, hkind, by simp, ?_⟩
      rcases Token.next_cases hnext with ⟨-, hblanks⟩ | ⟨blanks, lexeme, -, -, -, hspells⟩
      · have hall : ∀ c ∈ cursor.rest ++ ['\n'], Cursor.isBlank c = true := by
          rw [List.forall_mem_append, List.forall_mem_singleton]
          exact ⟨hblanks, rfl⟩
        rw [← ofCursor_blanks hall, List.append_assoc]
        rfl
      · exact absurd hkind hspells.kind_ne_eof
  | case3 cursor token cursor' hnext hkind _ ih =>
      obtain ⟨w, last, htokens, hlast, hw, hmore⟩ := ih h
      obtain ⟨read, hrest, hpos, hswap⟩ := Token.next_swap hnext hkind
      have hnext' := hswap (cursor'.rest ++ '\n' :: more) fun hspells => hspells.line more
      refine ⟨token :: w, last, by simp [cons, htokens], hlast, ?_, ?_⟩
      · exact List.forall_mem_cons.2 ⟨hkind, hw⟩
      · have hstop : cursor.pos.afterAll (cursor.rest ++ ['\n']) =
            cursor'.pos.afterAll (cursor'.rest ++ ['\n']) := by
          rw [hrest, hpos, List.append_assoc, Position.afterAll_append]
        rw [hstop, hrest, List.append_assoc, ofCursor_of_token hnext' hkind, hmore]
        rfl

end Tokenization

theorem Position.afterAll_line (text : List Char) :
    start.afterAll (text ++ ['\n']) = start.down (1 + text.count '\n') := by
  have hbehind : start.afterAll (text ++ ['\n']) = behind (text ++ ['\n']) :=
    afterAll_behind [] (text ++ ['\n'])
  rw [hbehind, behind, lastLine_concat]
  simp [start, down, Nat.add_comm, Nat.add_left_comm]

/--
If a text can be read to its end, then with a line feed and a second text below it the tokens are
those of the first without the end mark and then those of the second, each as many lines further
down as the first text has.  A fault of the second text moves down with them, and there is no
other.
-/
theorem tokenize_below (a b : String) (origin : Origin)
    (h : (tokenize a origin).complete = true) :
    let lines := 1 + a.toList.count '\n'
    let joined := tokenize (a ++ "\n" ++ b) origin
    ∃ w last, (tokenize a origin).tokens = w ++ [last] ∧ last.kind = .eof ∧
      (∀ token ∈ w, token.kind ≠ .eof) ∧
      joined.tokens = w ++ (tokenize b origin).tokens.map (Token.down lines) ∧
      joined.complete = (tokenize b origin).complete ∧
      joined.fault? = (tokenize b origin).fault?.map (Diagnostic.down lines) := by
  intro lines joined
  have hcomplete : (tokenize a origin).fault? = none := Option.isNone_iff_eq_none.1 h
  obtain ⟨w, last, htokens, hlast, hw, hline⟩ := Tokenization.ofCursor_line b.toList hcomplete
  have hjoined : joined = ((tokenize b origin).down lines).prepend w := by
    have htext : Cursor.ofText (a ++ "\n" ++ b) = ⟨a.toList ++ '\n' :: b.toList, .start⟩ := by
      simp [Cursor.ofText]
    have hbelow : (⟨b.toList, Position.start.afterAll (a.toList ++ ['\n'])⟩ : Cursor) =
        (Cursor.ofText b).down lines := by
      rw [Position.afterAll_line]
      rfl
    calc joined = Tokenization.ofCursor origin ⟨a.toList ++ '\n' :: b.toList, .start⟩ := by
          rw [← htext]
          rfl
      _ = (Tokenization.ofCursor origin ((Cursor.ofText b).down lines)).prepend w := by
          rw [← hbelow]
          exact hline
      _ = ((tokenize b origin).down lines).prepend w := by
          rw [Tokenization.ofCursor_down]
          rfl
  refine ⟨w, last, htokens, hlast, hw, ?_, ?_, ?_⟩
  · rw [hjoined]
    rfl
  · rw [hjoined]
    exact Option.isNone_map
  · rw [hjoined]
    rfl

/-- Two slashes with a line feed between them start no comment, and what breaks off behind them
breaks off one line further down. -/
theorem tokenize_below_slashes :
    let origin : Origin := ⟨"main", "."⟩
    (tokenize "x /" origin).complete = true ∧
      tokenize ("x /" ++ "\n" ++ "/ 'z") origin =
        ⟨[⟨.ident, "x", ⟨1, 1⟩, origin⟩, ⟨.slash, "/", ⟨1, 3⟩, origin⟩,
          ⟨.slash, "/", ⟨2, 1⟩, origin⟩], some ⟨.unterminatedString, ⟨2, 5⟩, "main"⟩⟩ := by
  intro origin
  have ha : tokenize "x /" origin =
      ⟨[⟨.ident, "x", ⟨1, 1⟩, origin⟩, ⟨.slash, "/", ⟨1, 3⟩, origin⟩, ⟨.eof, "", ⟨1, 4⟩, origin⟩],
        none⟩ := by decide +kernel
  have hb : tokenize "/ 'z" origin =
      ⟨[⟨.slash, "/", ⟨1, 1⟩, origin⟩], some ⟨.unterminatedString, ⟨1, 5⟩, "main"⟩⟩ := by
    decide +kernel
  have hcomplete : (tokenize "x /" origin).complete = true := by rw [ha]; rfl
  obtain ⟨w, last, hw, -, -, htokens, -, hfault⟩ := tokenize_below "x /" "/ 'z" origin hcomplete
  have hfirst : w = [⟨.ident, "x", ⟨1, 1⟩, origin⟩, ⟨.slash, "/", ⟨1, 3⟩, origin⟩] := by
    simpa [ha] using (congrArg List.dropLast hw).symm
  rw [hb, hfirst] at htokens
  rw [hb] at hfault
  refine ⟨hcomplete, ?_⟩
  cases hjoined : tokenize ("x /" ++ "\n" ++ "/ 'z") origin
  rw [hjoined] at htokens hfault
  cases htokens
  cases hfault
  rfl

end Pidgin
