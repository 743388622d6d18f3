import Pidgin.Proofs.Token.Boundary
import Pidgin.Proofs.Token.Fault

/-!
# Where reading fails

A text that breaks off is what stops the reader of tokens, and nothing else does.
The tokens in front of such a place do not depend on it: they are those of the text
that ends there.
-/

namespace Pidgin

open Spelling

/-! ## What breaks off is not read -/

namespace Lexeme

variable {cause : Cause} {read rest text : List Char}

theorem untilClosed_of_open (h : ¬['*', '/'] <:+: text) : untilClosed text = none := by
  cases hclosed : untilClosed text with
  | none => rfl
  | some value =>
      obtain ⟨rest, rfl, -⟩ := closed_of_untilClosed hclosed
      exact absurd ⟨value, rest, by simp⟩ h

theorem body_backslash {quote : Char} (hquote : '\\' ≠ quote) :
    body quote ['\\'] = ⟨1, .error (.invalidEscape "\\")⟩ := by
  rw [body, if_neg hquote, if_pos rfl]

theorem body_no_escape {quote e : Char} (rest : List Char) (hquote : '\\' ≠ quote)
    (h : e ∉ escapes.map Prod.fst) :
    body quote ('\\' :: e :: rest) =
      ⟨1, .error (.invalidEscape (String.ofList ['\\', e]))⟩ := by
  have hnone : unescape? e = none := by
    cases hescape : unescape? e with
    | none => rfl
    | some c => exact absurd (List.mem_map_of_mem (unescape?_eq_some_iff.1 hescape)) h
  rw [body, if_neg hquote, if_pos rfl, hnone]

theorem scan_of_body {quote : Char} {raw value : List Char} {n : Nat}
    (hquote : quote = '"' ∨ quote = '\'') (hvalue : Resolves quote raw value)
    (h : body quote rest = ⟨n, .error cause⟩) :
    scan quote (raw ++ rest) = ⟨1 + (raw.length + n), .error cause⟩ := by
  rw [scan_quote hquote, string, body_append (backslash_ne_quote hquote) hvalue, h]
  rfl

theorem scan_of_breaks (h : Breaks cause read rest) :
    ∃ c tail, read = c :: tail ∧ Cursor.isBlank c = false ∧
      scan c (tail ++ rest) = ⟨read.length, .error cause⟩ := by
  cases h with
  | string hquote hvalue =>
      refine ⟨_, _, rfl, isBlank_quote hquote, ?_⟩
      rw [scan_of_body hquote hvalue rfl, List.length_cons, Nat.add_comm]
  | backslash hquote hvalue =>
      refine ⟨_, _, rfl, isBlank_quote hquote, ?_⟩
      have hbody := body_backslash (backslash_ne_quote hquote)
      rw [List.append_nil, scan_of_body hquote hvalue hbody, List.length_cons,
        List.length_append, Nat.add_comm]
      rfl
  | @escape quote e raw value rest hquote hvalue hnone =>
      refine ⟨_, _, rfl, isBlank_quote hquote, ?_⟩
      have hbody := body_no_escape rest (backslash_ne_quote hquote) hnone
      rw [List.append_assoc, List.singleton_append, scan_of_body hquote hvalue hbody,
        List.length_cons, List.length_append, Nat.add_comm]
      rfl
  | @comment text htext =>
      refine ⟨'/', '*' :: text, rfl, rfl, ?_⟩
      change slash ('*' :: (text ++ [])) = _
      rw [List.append_nil, slash, untilClosed_of_open htext, Nat.add_comm]
      rfl

end Lexeme

variable {origin : Origin} {cursor : Cursor} {cause : Cause} {d : Diagnostic}

theorem Token.next_of_breaks (origin : Origin) {blanks read rest : List Char}
    (hrest : cursor.rest = blanks ++ (read ++ rest))
    (hblanks : ∀ c ∈ blanks, Cursor.isBlank c = true) (h : Breaks cause read rest) :
    ∃ d cursor', Token.next origin cursor = (.error d, cursor') ∧ d.cause = cause := by
  obtain ⟨c, tail, rfl, hblank, hscan⟩ := Lexeme.scan_of_breaks h
  have hmaximal : Maximal Cursor.isBlank blanks (c :: tail ++ rest) := by
    refine ⟨hblanks, ?_⟩
    rintro c' ⟨⟩
    exact hblank
  unfold Token.next
  rw [Cursor.skipBlanks_eq hrest hmaximal]
  dsimp only [List.cons_append]
  rw [hscan]
  exact ⟨_, _, rfl, rfl⟩

/-! ## What stands in front -/

theorem Tokenization.ofCursor_in_front (h : (ofCursor origin cursor).fault? = some d) :
    ∃ pre read rest last, cursor.rest = pre ++ (read ++ rest) ∧ Breaks d.cause read rest ∧
      last.kind = .eof ∧ (∀ token ∈ (ofCursor origin cursor).tokens, token.kind ≠ .eof) ∧
      ofCursor origin ⟨pre, cursor.pos⟩ = ⟨(ofCursor origin cursor).tokens ++ [last], none⟩ := by
  fun_induction ofCursor origin cursor with
  | case1 cursor fault cursor' hnext =>
      cases h
      obtain ⟨blanks, read, hrest, hblanks, -, -, hbreaks⟩ := Token.breaks_of_next hnext
      exact ⟨blanks, read, _, _, hrest, hbreaks, rfl, by simp,
        ofCursor_of_eof (Token.next_of_blanks origin hblanks) rfl⟩
  | case2 => cases h
  | case3 cursor token cursor' hnext hkind _ ih =>
      obtain ⟨pre, read, rest, last, hrest', hbreaks, hlast, hmarks, hpre⟩ := ih h
      obtain ⟨taken, hrest, hpos, hswap⟩ := Token.next_swap hnext hkind
      have hnext' : Token.next origin ⟨taken ++ pre, cursor.pos⟩ =
          (.ok token, ⟨pre, cursor'.pos⟩) := by
        refine hswap pre fun hspells => ?_
        rw [hrest'] at hspells
        exact hspells.cut
      refine ⟨taken ++ pre, read, rest, last, ?_, hbreaks, hlast, ?_, ?_⟩
      · rw [hrest, hrest', List.append_assoc]
      · exact List.forall_mem_cons.2 ⟨hkind, hmarks⟩
      · rw [ofCursor_of_token hnext' hkind, hpre]
        rfl

/--
Reading a token fails exactly if the text behind the blanks breaks off, with the fault that it
breaks off with.  Where a text is not read to its end, it breaks off; the tokens are those of the
part in front without the end mark, no end mark is among them, and there is one fault.
-/
theorem faults_exact (origin : Origin) :
    (∀ (cursor : Cursor) (cause : Cause),
      (∃ d cursor', Token.next origin cursor = (.error d, cursor') ∧ d.cause = cause) ↔
        ∃ blanks read rest, cursor.rest = blanks ++ (read ++ rest) ∧
          (∀ c ∈ blanks, Cursor.isBlank c = true) ∧ Breaks cause read rest) ∧
    ∀ source : String, (tokenize source origin).complete = false →
      ∃ pre bad d last, source = pre ++ bad ∧
        (∃ read rest, bad.toList = read ++ rest ∧ Breaks d.cause read rest) ∧
        (tokenize source origin).fault? = some d ∧
        (∀ token ∈ (tokenize source origin).tokens, token.kind ≠ .eof) ∧ last.kind = .eof ∧
        tokenize pre origin = ⟨(tokenize source origin).tokens ++ [last], none⟩ := by
  constructor
  · intro cursor cause
    constructor
    · rintro ⟨d, cursor', hnext, rfl⟩
      obtain ⟨blanks, read, hrest, hblanks, -, -, hbreaks⟩ := Token.breaks_of_next hnext
      exact ⟨blanks, read, cursor'.rest, hrest, hblanks, hbreaks⟩
    · rintro ⟨blanks, read, rest, hrest, hblanks, hbreaks⟩
      exact Token.next_of_breaks origin hrest hblanks hbreaks
  · intro source h
    obtain ⟨d, hfault⟩ : ∃ d, (tokenize source origin).fault? = some d := by
      cases hfault : (tokenize source origin).fault? with
      | none => simp [Tokenization.complete, hfault] at h
      | some d => exact ⟨d, rfl⟩
    obtain ⟨pre, read, rest, last, htext, hbreaks, hlast, hmarks, hpre⟩ :=
      Tokenization.ofCursor_in_front hfault
    refine ⟨.ofList pre, .ofList (read ++ rest), d, last, ?_, ⟨read, rest, by simp, hbreaks⟩,
      hfault, hmarks, hlast, ?_⟩
    · have hsource : source.toList = pre ++ (read ++ rest) := htext
      rw [← String.toList_inj]
      simpa using hsource
    · rw [tokenize, Cursor.ofText, String.toList_ofList]
      exact hpre

/-- A slash right in front of the quote is read as it would be at the end of the text. -/
theorem faults_exact_behind_slash :
    let origin : Origin := ⟨"main", "."⟩
    let source := "x /'\\q'"
    (tokenize source origin).fault? = some ⟨.invalidEscape "\\q", ⟨1, 6⟩, "main"⟩ ∧
      ∃ pre bad last, source = pre ++ bad ∧ last.kind = .eof ∧
        tokenize pre origin =
          ⟨[⟨.ident, "x", ⟨1, 1⟩, origin⟩, ⟨.slash, "/", ⟨1, 3⟩, origin⟩, last], none⟩ := by
  intro origin source
  have hsource : tokenize source origin =
      ⟨[⟨.ident, "x", ⟨1, 1⟩, origin⟩, ⟨.slash, "/", ⟨1, 3⟩, origin⟩],
        some ⟨.invalidEscape "\\q", ⟨1, 6⟩, "main"⟩⟩ := by decide +kernel
  have hcomplete : (tokenize source origin).complete = false := by
    rw [hsource]
    rfl
  obtain ⟨pre, bad, d, last, htext, -, -, -, hlast, hpre⟩ :=
    (faults_exact origin).2 source hcomplete
  rw [hsource] at hpre
  exact ⟨by rw [hsource], pre, bad, last, htext, hlast, hpre⟩

end Pidgin
