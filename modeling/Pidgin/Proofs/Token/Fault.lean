import Pidgin.Proofs.Token.Place

/-!
# Faults in a text

A text can break off in three ways: inside quotes, at a backslash there that
starts no escape, and inside a block comment.  The first and the last are found
at the end of the text, the second right behind the backslash.
-/

namespace Pidgin

open Spelling

namespace Spelling

/-- What was read, in front of `rest`, breaks off with this fault. -/
inductive Breaks : Cause → (read rest : List Char) → Prop where
  | string {quote : Char} {raw value : List Char} (hquote : quote = '"' ∨ quote = '\'')
      (hvalue : Resolves quote raw value) : Breaks .unterminatedString (quote :: raw) []
  | backslash {quote : Char} {raw value : List Char} (hquote : quote = '"' ∨ quote = '\'')
      (hvalue : Resolves quote raw value) :
      Breaks (.invalidEscape "\\") (quote :: (raw ++ ['\\'])) []
  | escape {quote e : Char} {raw value rest : List Char} (hquote : quote = '"' ∨ quote = '\'')
      (hvalue : Resolves quote raw value) (hescape : e ∉ escapes.map Prod.fst) :
      Breaks (.invalidEscape (String.ofList ['\\', e])) (quote :: (raw ++ ['\\'])) (e :: rest)
  | comment {text : List Char} (htext : ¬['*', '/'] <:+: text) :
      Breaks .unterminatedComment ('/' :: '*' :: text) []

theorem Breaks.prepend {quote : Char} {cause : Cause} {read rest : List Char} (item : List Char)
    (hquote : quote = '"' ∨ quote = '\'')
    (hitem : ∀ {raw value}, Resolves quote raw value → ∃ value, Resolves quote (item ++ raw) value)
    (h : Breaks cause (quote :: read) rest) : Breaks cause (quote :: (item ++ read)) rest := by
  cases h with
  | string _ hvalue =>
      obtain ⟨value, hvalue⟩ := hitem hvalue
      exact .string hquote hvalue
  | backslash _ hvalue =>
      obtain ⟨value, hvalue⟩ := hitem hvalue
      rw [← List.append_assoc]
      exact .backslash hquote hvalue
  | escape _ hvalue hescape =>
      obtain ⟨value, hvalue⟩ := hitem hvalue
      rw [← List.append_assoc]
      exact .escape hquote hvalue hescape
  | comment => simp at hquote

end Spelling

namespace Lexeme

variable {c : Char} {rest : List Char} {cause : Cause}

theorem cons_value_error {n : Nat} {found : Body} (h : (found.cons c n).value = .error cause) :
    found.value = .error cause := by
  unfold Body.cons at h
  cases hvalue : found.value with
  | error => simpa [hvalue, Except.map] using h
  | ok => simp [hvalue, Except.map] at h

theorem breaks_of_body {quote : Char} {text : List Char} (hquote : quote = '"' ∨ quote = '\'')
    (h : (body quote text).value = .error cause) :
    ∃ read rest, text = read ++ rest ∧ (body quote text).length = read.length ∧
      Breaks cause (quote :: read) rest := by
  fun_induction body quote text with
  | case1 =>
      cases h
      exact ⟨[], [], rfl, rfl, .string hquote .done⟩
  | case2 => cases h
  | case3 =>
      cases h
      exact ⟨['\\'], [], rfl, rfl, .backslash hquote .done⟩
  | case4 e more c hescape hne ih =>
      obtain ⟨read, rest, rfl, hlength, hbreaks⟩ := ih (cons_value_error h)
      refine ⟨'\\' :: e :: read, rest, rfl, ?_, hbreaks.prepend ['\\', e] hquote ?_⟩
      · simp [Body.cons, hlength]
        omega
      · intro raw value hvalue
        exact ⟨_, .escape (unescape?_eq_some_iff.1 hescape) hvalue⟩
  | case5 e more hescape hne =>
      cases h
      refine ⟨['\\'], e :: more, rfl, rfl, .escape hquote .done ?_⟩
      intro hmem
      obtain ⟨⟨_, value⟩, hentry, rfl⟩ := List.mem_map.1 hmem
      rw [unescape?_eq_some_iff.2 hentry] at hescape
      cases hescape
  | case6 c more hne hescape ih =>
      obtain ⟨read, rest, rfl, hlength, hbreaks⟩ := ih (cons_value_error h)
      refine ⟨c :: read, rest, rfl, ?_, hbreaks.prepend [c] hquote ?_⟩
      · simp [Body.cons, hlength, Nat.add_comm]
      · intro raw value hvalue
        exact ⟨_, .plain hne hescape hvalue⟩

theorem open_of_untilClosed {text : List Char} (h : untilClosed text = none) :
    ¬['*', '/'] <:+: text := by
  fun_induction untilClosed text with
  | case1 => simp
  | case2 => cases h
  | case3 c rest hopen ih =>
      rw [List.infix_cons_iff]
      rintro (⟨tail, htail⟩ | hinside)
      · cases htail
        exact hopen ⟨rfl, rfl⟩
      · exact ih (by simpa using h) hinside

theorem breaks_of_slash (h : (slash rest).reading = .error cause) :
    ∃ read after, '/' :: rest = read ++ after ∧ (slash rest).length = read.length ∧
      Breaks cause read after := by
  unfold slash at h ⊢
  split at h
  · cases h
  · rename_i more
    cases hclosed : untilClosed more with
    | some text =>
        rw [hclosed] at h
        cases h
    | none =>
        rw [hclosed] at h
        cases h
        refine ⟨'/' :: '*' :: more, [], by simp, ?_, .comment (open_of_untilClosed hclosed)⟩
        simp
        omega
  · cases h

theorem reading_number (c : Char) (rest : List Char) :
    ∃ reading, (number c rest).reading = .ok reading := by
  unfold number
  dsimp only
  split
  · split <;> exact ⟨_, rfl⟩
  · exact ⟨_, rfl⟩

theorem reading_withEquals (c : Char) (alone paired : Kind) (rest : List Char) :
    ∃ reading, (withEquals c alone paired rest).reading = .ok reading := by
  unfold withEquals
  split <;> exact ⟨_, rfl⟩

theorem breaks_of_scan (h : (scan c rest).reading = .error cause) :
    ∃ read after, c :: rest = read ++ after ∧ (scan c rest).length = read.length ∧
      Breaks cause read after := by
  by_cases hquote : c = '"' ∨ c = '\''
  · rw [scan_quote hquote, string] at h ⊢
    have hvalue : (body c rest).value = .error cause := by
      cases hvalue : (body c rest).value <;> simp_all [Except.map]
    obtain ⟨read, after, rfl, hlength, hbreaks⟩ := breaks_of_body hquote hvalue
    exact ⟨c :: read, after, rfl, by simp [hlength, Nat.add_comm], hbreaks⟩
  · unfold scan at h ⊢
    split at h
    · cases h
    split at h
    · obtain ⟨reading, hreading⟩ := reading_withEquals c .assign .equal rest
      simp [hreading] at h
    split at h
    · obtain ⟨reading, hreading⟩ := reading_withEquals c .bang .notEqual rest
      simp [hreading] at h
    split at h
    · rename_i hslash
      subst hslash
      exact breaks_of_slash h
    split at h
    · obtain ⟨reading, hreading⟩ := reading_number c rest
      simp [hreading] at h
    split at h <;> cases h

end Lexeme

/-! ## The fault that ends the tokens -/

variable {origin : Origin} {source pre : List Char} {cursor cursor' : Cursor} {d : Diagnostic}

theorem Token.breaks_of_next (h : Token.next origin cursor = (.error d, cursor')) :
    ∃ blanks read, cursor.rest = blanks ++ (read ++ cursor'.rest) ∧
      (∀ c ∈ blanks, Cursor.isBlank c = true) ∧ d.pos = cursor'.pos ∧
      cursor'.pos = cursor.pos.afterAll (blanks ++ read) ∧ Breaks d.cause read cursor'.rest := by
  obtain ⟨blanks, after, hrest, hblanks⟩ := exists_maximal Cursor.isBlank cursor.rest
  unfold Token.next at h
  rw [Cursor.skipBlanks_eq hrest hblanks] at h
  dsimp only at h
  split at h
  · cases h
  · rename_i c rest
    split at h
    · cases h
    · rename_i cause hreading
      cases h
      obtain ⟨read, after, htext, hlength, hbreaks⟩ := Lexeme.breaks_of_scan hreading
      rw [hlength, Cursor.advance_append htext]
      refine ⟨blanks, read, by rw [hrest, htext], hblanks.inside, rfl, ?_, hbreaks⟩
      rw [Position.afterAll_append]

theorem Token.fault_of_hasRead (hread : cursor.HasRead source pre)
    (h : Token.next origin cursor = (.error d, cursor')) :
    ∃ blanks read, cursor'.HasRead source (pre ++ blanks ++ read) ∧ d.pos = cursor'.pos ∧
      Breaks d.cause read cursor'.rest := by
  obtain ⟨blanks, read, hrest, -, hpos, hstop, hbreaks⟩ := Token.breaks_of_next h
  refine ⟨blanks, read, ⟨?_, ?_⟩, hpos, hbreaks⟩
  · simp [hread.text, hrest]
  · rw [hstop, hread.pos, Position.afterAll_behind, List.append_assoc]

theorem Tokenization.fault_of_hasRead (hread : cursor.HasRead source pre)
    (h : (ofCursor origin cursor).fault? = some d) :
    ∃ before read rest, source = pre ++ before ++ read ++ rest ∧
      d.pos = .behind (pre ++ before ++ read) ∧ Breaks d.cause read rest := by
  fun_induction ofCursor origin cursor generalizing pre with
  | case1 cursor fault cursor' hnext =>
      cases h
      obtain ⟨blanks, read, hstop, hpos, hbreaks⟩ := Token.fault_of_hasRead hread hnext
      exact ⟨blanks, read, _, hstop.text, hpos.trans hstop.pos, hbreaks⟩
  | case2 => cases h
  | case3 cursor token cursor' hnext hkind _ ih =>
      obtain ⟨blanks, lexeme, -, -, hstop⟩ := Token.next_of_hasRead hread hnext
      obtain ⟨before, read, rest, htext, hpos, hbreaks⟩ := ih hstop h
      refine ⟨blanks ++ lexeme ++ before, read, rest, ?_, ?_, hbreaks⟩
      · simpa using htext
      · simpa using hpos

end Pidgin
