import Pidgin.Proofs.Parse.Sequence

/-!
# Recovery isolates malformed statements

A text is sealed if it ends with a semicolon and has neither braces nor
conditionals.  No statement in it can be read past that semicolon: a statement
that is well formed ends with a semicolon at the latest there, and one that is
not fails there at the latest, after which the parser resumes behind a semicolon.
So whatever is wrong in a sealed text, what follows it is read as if it stood
alone.
-/

namespace Pidgin

open Grammar Parse

/-- The tokens end with a semicolon, and no statement among them has statements inside it. -/
structure Sealed (tokens : List Token) : Prop where
  plain : ∀ token ∈ tokens, token.kind ∉ [.comment, .eof, .lbrace, .abi]
  ends : tokens.getLast?.map Token.kind = some .semicolon

instance (tokens : List Token) : Decidable (Sealed tokens) :=
  decidable_of_iff ((∀ token ∈ tokens, token.kind ∉ [.comment, .eof, .lbrace, .abi]) ∧
    tokens.getLast?.map Token.kind = some .semicolon) ⟨fun h => ⟨h.1, h.2⟩, fun h => ⟨h.1, h.2⟩⟩

namespace Parser

variable {q next : Parser}

theorem current_mem_tokens (h : q.ahead ≠ []) : q.current ∈ q.tokens := by
  obtain ⟨token, rest, hahead⟩ := List.exists_cons_of_ne_nil h
  simp [current_of_ahead hahead, tokens, hahead]

theorem leading_sealed (next : Parser) :
    Leading next Sealed (fun _ => True) (fun _ => True) False where
  goes_on {q} hsealed hahead hkind _ := by
    obtain ⟨token, rest, hq⟩ := List.exists_cons_of_ne_nil hahead
    rw [current_of_ahead hq] at hkind
    rw [ahead_shift, hq]
    rintro rfl
    have hends := hsealed.ends
    simp [tokens, hq] at hends
    exact hkind hends
  live_of_drifts _ _ := trivial
  clean_of_drifts _ _ := trivial
  clean_of_live _ := trivial
  live_of_clean _ _ := trivial
  composite_of_fit hsealed hahead hkind := by
    have hplain := hsealed.plain _ (current_mem_tokens hahead)
    rcases hkind with h | h <;> simp [h] at hplain
  ahead_of_live := nofun
  naso := nofun

/-! ## Recovery in front of another text -/

theorem seek_append_ahead {behind ahead : List Token}
    (h : (behind.reverse ++ ahead).getLast?.map Token.kind = some .semicolon) (rest : List Token) :
    seek behind (ahead ++ rest) = ((seek behind ahead).1, (seek behind ahead).2 ++ rest) := by
  induction ahead generalizing behind with
  | nil =>
      have hlast : behind.head?.map Token.kind = some .semicolon := by
        simpa [List.getLast?_reverse] using h
      cases rest with
      | nil => rfl
      | cons token rest => simp [seek, hlast]
  | cons token ahead ih =>
      rw [List.cons_append, seek, seek]
      split
      · rfl
      · exact ih (by simpa using h)

theorem recover_followedBy (h : q.tokens.getLast?.map Token.kind = some .semicolon) :
    (q.followedBy next).recover = q.recover.followedBy next := by
  unfold recover
  cases hmode : q.mode with
  | normal => simp [followedBy, hmode]
  | panicking => simp [followedBy, hmode, synchronize, seek_append_ahead h]

theorem run_of_sealed (hsealed : Sealed q.tokens) (hlimit : 1 ≤ q.limit) :
    (q.followedBy next).run =
      (q.run.1 ++ (q.run.2.followedBy next).run.1, (q.run.2.followedBy next).run.2) := by
  refine run_followedBy (fun q => Sealed q.tokens) hlimit hsealed ?_
  intro q hsealed hlimit hend
  have htokens : (q.round (declaration q.limit)).2.tokens = q.tokens :=
    tokens_round (steady_declaration _) q
  obtain ⟨hitem, hstop⟩ := (leading_sealed next).turn q.limit hsealed
    (by simpa [atEnd] using hend) trivial
  have hends : (parserOf (declaration q.limit q)).tokens.getLast?.map Token.kind =
      some .semicolon := by
    rw [((steady_declaration q.limit) q).reaches.tokens_eq]
    exact hsealed.ends
  rw [htokens, round_eq, round_eq, hitem, hstop, recover_followedBy hends]
  exact ⟨rfl, hsealed⟩

end Parser

theorem parse_append_of_sealed {tokens : List Token} (hsealed : Sealed tokens)
    (tokens' : List Token) (file : String) {limit : Nat} (hlimit : 1 ≤ limit) :
    parse (tokens ++ tokens') file limit =
      joined (parse tokens file limit) (parse tokens' file limit) := by
  have hplain (token : Token) (h : token ∈ tokens) :
      token.kind ≠ .comment ∧ token.kind ≠ .eof := by
    have := hsealed.plain token h
    simp_all
  refine parse_append hlimit (fun token h => (hplain token h).2) ?_
  refine Parser.run_of_sealed ?_ hlimit
  have htokens : (Parser.ofTokens tokens file limit).tokens = words tokens := rfl
  rwa [htokens, words_eq_self hplain]

theorem reported_flatten {file : String} {limit : Nat} (hlimit : 1 ≤ limit)
    {texts : List (List Token)} {errors : List Diagnostic}
    (hsealed : ∀ tokens ∈ texts.dropLast, Sealed tokens)
    (hone : List.Forall₂ (fun tokens d => parse tokens file limit = .error [d]) texts errors) :
    reported (parse texts.flatten file limit) = errors := by
  induction hone with
  | nil => rw [List.flatten_nil, parse_of_comments rfl, reported]
  | @cons tokens d texts errors hfirst hrest ih =>
      cases texts with
      | nil =>
          cases hrest
          rw [List.flatten_singleton, hfirst, reported]
      | cons tokens' texts =>
          rw [List.dropLast_cons_cons, List.forall_mem_cons] at hsealed
          rw [List.flatten_cons, parse_append_of_sealed hsealed.1 _ _ hlimit, reported_joined,
            hfirst, ih hsealed.2]
          rfl

/--
A text that is sealed has nothing to do with the one behind it.  Both are accepted exactly if
each of them is, as one program, and otherwise the errors of the first are followed by those of
the second.  So as many texts as have one fault each have that many faults, in the same order.
-/
theorem parse_isolates (file : String) (limit : Nat) (hlimit : 1 ≤ limit) :
    (∀ tokens tokens' : List Token, Sealed tokens →
      parse (tokens ++ tokens') file limit =
        joined (parse tokens file limit) (parse tokens' file limit)) ∧
    ∀ (texts : List (List Token)) (errors : List Diagnostic),
      (∀ tokens ∈ texts.dropLast, Sealed tokens) →
      List.Forall₂ (fun tokens d => parse tokens file limit = .error [d]) texts errors →
      reported (parse texts.flatten file limit) = errors ∧ errors.length = texts.length := by
  constructor
  · intro tokens tokens' hsealed
    exact parse_append_of_sealed hsealed tokens' file hlimit
  · intro texts errors hsealed hone
    exact ⟨reported_flatten hlimit hsealed hone, hone.length_eq.symm⟩

/-- A name is missing and then a value; the tokens behind them are read on their own. -/
theorem parse_isolates_two_faults :
    let text (words : List (Kind × String)) : List Token :=
      words.map fun (kind, text) => ⟨kind, text, .start, ⟨"main", "."⟩⟩
    let first := text [(.abeg, "abeg"), (.integer, "1"), (.semicolon, ";")]
    let second := text [(.comot, "comot"), (.rparen, ")"), (.semicolon, ";")]
    let last := text [(.ident, "a"), (.semicolon, ";")]
    1 ≤ 8 ∧ Sealed first ∧ Sealed (first ++ second) ∧
      ∃ d d', parse first "main" 8 = .error [d] ∧ parse second "main" 8 = .error [d'] ∧
        reported (parse (first ++ second) "main" 8) = [d, d'] ∧
        parse (first ++ second ++ last) "main" 8 =
          joined (parse (first ++ second) "main" 8) (parse last "main" 8) := by
  intro text first second last
  have hfirst : Sealed first := by decide
  have hboth : Sealed (first ++ second) := by decide
  obtain ⟨hjoined, hcount⟩ := parse_isolates "main" 8 (by decide)
  obtain ⟨d, hd⟩ : ∃ d, parse first "main" 8 = .error [d] := ⟨_, rfl⟩
  obtain ⟨d', hd'⟩ : ∃ d', parse second "main" 8 = .error [d'] := ⟨_, rfl⟩
  obtain ⟨hreported, -⟩ := hcount [first, second] [d, d'] (by simpa using hfirst)
    (.cons hd (.cons hd' .nil))
  refine ⟨by decide, hfirst, hboth, d, d', hd, hd', ?_, hjoined (first ++ second) last hboth⟩
  simpa using hreported

end Pidgin
