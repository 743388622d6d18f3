import Pidgin.Proofs.Prefix.Descent

/-!
# The first error is at the right token

Up to its first error a run is clean: it steps from declaration to declaration,
and every other run that sees the same tokens takes the same steps.  So the token
that the first error blames is the first one that no program can go on with.
-/

namespace Pidgin

open Grammar Parse

def Grammar.Refuses (u : List Token) (next? : Option Token) : Prop :=
  ∀ rest ss, rest.head? = next? → ¬Declarations (u ++ rest) [] ss

namespace Parse

theorem exists_takes_first {w : List Token} {ss : List Stmt} (h : Declarations w [] ss)
    (hw : w ≠ []) : ∃ (b : Budget) (p : Parser) (v rest : List Token) (s : Stmt) (more : List Stmt),
      b.Covers w ∧ p.mode = .normal ∧ p.ahead = w ∧
        declaration b.room p = .ok s (p.read v rest) ∧ Declarations rest [] more := by
  cases h with
  | nil => exact absurd rfl hw
  | @cons v rest _ s ss first more =>
      rw [List.append_nil] at first
      let p := (Parser.ofTokens [] "" 0).read [] (v ++ rest)
      refine ⟨⟨(v ++ rest).length + 1, (v ++ rest).length⟩, p, v, rest, s, ss,
        ⟨Nat.lt_succ_self _, Nat.le_refl _⟩, rfl, rfl, ?_, more⟩
      exact takes_declaration _ first (by simp; omega) p rfl

theorem Stuck.refuses {u : List Token} {next? : Option Token}
    (h : Stuck (fun b => declaration b.room) u next?) (hstart : u ≠ [] ∨ next? ≠ none) :
    Refuses u next? := by
  rintro rest ss rfl hphrases
  have hne : u ++ rest ≠ [] := by simpa [imp_iff_not_or] using hstart
  obtain ⟨b, p, v, rest', s, more, hcovers, hmode, hp, hread, -⟩ := exists_takes_first hphrases hne
  have hpanics := h b p rest (hp ▸ hcovers) hmode hp rfl
  unfold Panics at hpanics
  dsimp only at hpanics
  rw [hread] at hpanics
  exact absurd (hmode.symm.trans hpanics) (by decide)

theorem refuses_append {w u v : List Token} {s : Stmt} (hw : w ≠ [])
    (htakes : ∀ (b : Budget) (rest : List Token), b.Covers (w ++ rest) →
      rest.head? = (u ++ v).head? → Takes (declaration b.room) w rest s)
    (h : Refuses u v.head?) : Refuses (w ++ u) v.head? := by
  intro rest ss hhead hphrases
  have hne : w ++ u ++ rest ≠ [] := by simp [hw]
  obtain ⟨b, p, v', rest', s', more, hcovers, -, hp, hread, hmore⟩ :=
    exists_takes_first hphrases hne
  rw [List.append_assoc] at hcovers hp
  rw [htakes b (u ++ rest) hcovers (head?_append u hhead) p hp] at hread
  injection hread with _ hread
  have hrest : u ++ rest = rest' := congrArg Parser.ahead hread
  exact h rest more hhead (hrest ▸ hmore)

end Parse

namespace Parser

/-- `d` blames the first token ahead that no derivation goes on with. -/
def Pinpointed (p : Parser) (d : Diagnostic) : Prop :=
  ∃ u v cause, p.ahead = u ++ v ∧ d = p.diagnose (v.headD p.stop) cause ∧
    Completes (fun w ss => Declarations w [] ss) u ∧ Refuses u v.head?

theorem pinpointed_of_panics {b : Budget} {p : Parser} (hcovers : b.Covers p.ahead)
    (hmode : p.mode = .normal) (hahead : p.ahead ≠ []) (h : Panics (declaration b.room) p) :
    ∃ d, (parserOf (declaration b.room p)).errors = p.errors ++ [d] ∧ p.Pinpointed d := by
  obtain ⟨u, v, ⟨huv, ⟨cause, hraised⟩, hstuck⟩, c, s, hphrase⟩ :=
    pinpoints_declaration b.room b.rounds p hcovers hmode h
  refine ⟨_, hraised, u, v, cause, huv, rfl, ⟨c, [s], ?_⟩, hstuck.refuses ?_⟩
  · simpa using hphrase.cons .nil
  · simpa [huv, imp_iff_not_or] using hahead

theorem Pinpointed.of_read {p : Parser} {d : Diagnostic} {w rest : List Token} {s : Stmt}
    (h : (p.read w rest).Pinpointed d) (hp : p.ahead = w ++ rest)
    (hphrase : Declaration w rest s)
    (htakes : ∀ (b : Budget) (rest' : List Token), b.Covers (w ++ rest') →
      rest'.head? = rest.head? → Takes (declaration b.room) w rest' s) : p.Pinpointed d := by
  obtain ⟨u, v, cause, huv, hd, ⟨c, ss, hrest⟩, hrefuses⟩ := h
  rw [ahead_read] at huv
  refine ⟨w ++ u, v, cause, by rw [hp, huv, List.append_assoc], hd, ⟨c, s :: ss, ?_⟩, ?_⟩
  · simpa using hphrase.cons hrest
  · obtain ⟨token, w, rfl, -⟩ := hphrase.head
    exact refuses_append (by simp) (huv ▸ htakes) hrefuses

theorem pinpointed_of_declarations {room : Nat} (rounds : Nat) {p : Parser} {d : Diagnostic}
    {ds : List Diagnostic} (hcovers : Budget.Covers ⟨room, rounds⟩ p.ahead)
    (hmode : p.mode = .normal)
    (h : (p.declarations (declaration room) rounds).2.errors = p.errors ++ d :: ds) :
    p.Pinpointed d := by
  induction rounds generalizing p with
  | zero => simp [declarations] at h
  | succ rounds ih =>
      cases hend : p.atEnd with
      | true => simp [declarations, hend] at h
      | false =>
          have hahead : p.ahead ≠ [] := by simpa [atEnd] using hend
          by_cases hpanics : Panics (declaration room) p
          · obtain ⟨d', hraised, hpinpointed⟩ :=
              pinpointed_of_panics hcovers hmode hahead hpanics
            -- The rest of the run adds its errors behind the one of this round.
            have hkept := errors_declarations (steady_declaration room) rounds
              (p.round (declaration room)).2
            have hloop : (p.declarations (declaration room) (rounds + 1)).2 =
                ((p.round (declaration room)).2.declarations (declaration room) rounds).2 := by
              simp [declarations, hend]
            rw [← hloop, h, round_eq, errors_recover, hraised] at hkept
            have hsame : d' = d := by simpa using hkept
            exact hsame ▸ hpinpointed
          · obtain ⟨s, q, hresult, hq⟩ := ok_of_not_panics (steady_declaration room) hpanics
            obtain ⟨w, hw, -, hphrase, htakes⟩ := (firm_declaration p).exists_phrase
              (b := ⟨room, rounds + 1⟩) (recognizes_declaration room) hcovers hresult hq
            rw [hw] at hcovers
            obtain ⟨token, v, rfl, -⟩ := hphrase.head
            rw [declarations_of_takes (htakes _ q.ahead hcovers rfl) (by simp) hw hmode] at h
            have hread : (p.read (token :: v) q.ahead).Pinpointed d :=
              ih hcovers.spend.of_append hmode h
            exact hread.of_read hw hphrase htakes

end Parser

theorem Grammar.exists_of_take_eq {u v w : List Token}
    (h : w.take (u.length + 1) = (u ++ v).take (u.length + 1)) :
    ∃ rest, w = u ++ rest ∧ rest.head? = v.head? := by
  have hu : w.take u.length = u := by
    simpa [List.take_take] using congrArg (List.take u.length) h
  have hnext : w[u.length]? = v.head? := by
    simpa [List.getElem?_take, List.getElem?_append_right, List.head?_eq_getElem?] using
      congrArg (·[u.length]?) h
  refine ⟨w.drop u.length, ?_, by rw [List.head?_drop, hnext]⟩
  calc
    w = w.take u.length ++ w.drop u.length := (List.take_append_drop ..).symm
    _ = u ++ w.drop u.length := by rw [hu]

/--
The first error blames the first token that no program can go on with.  The tokens before it
are the beginning of a program that is accepted with some limit.  And whatever stands behind
it, no limit accepts tokens that agree up to and including it, where the end of the tokens
counts as one more token.
-/
theorem parse_pinpoints (tokens : List Token) (file : String) (limit : Nat)
    (errors : List Diagnostic) (hlimit : tokens.length < limit)
    (h : parse tokens file limit = .error errors) :
    ∃ d ds index, errors = d :: ds ∧
      (Parser.ofTokens tokens file limit).RaisedAt index d ∧
      (∃ c limit' program, 1 ≤ limit' ∧
        parse ((words tokens).take index ++ c) file limit' = .ok program) ∧
      ∀ tokens' file' limit' program, 1 ≤ limit' →
        (words tokens').take (index + 1) = (words tokens).take (index + 1) →
          parse tokens' file' limit' ≠ .ok program := by
  let p := Parser.ofTokens tokens file limit
  have hlength : p.ahead.length ≤ tokens.length :=
    Nat.le_trans (List.takeWhile_sublist _).length_le List.filter_sublist.length_le
  rw [parse_eq] at h
  dsimp only at h
  split at h
  · cases h
  rename_i hne
  cases h
  obtain ⟨d, ds, herrors⟩ := List.exists_cons_of_ne_nil hne
  obtain ⟨u, v, cause, huv, hd, ⟨c, ss, hphrases⟩, hrefuses⟩ : p.Pinpointed d :=
    Parser.pinpointed_of_declarations p.ahead.length ⟨by dsimp only; omega, Nat.le_refl _⟩ rfl
      herrors
  have hwords : words tokens = u ++ v := huv
  refine ⟨d, ds, u.length, herrors, ?_, ?_, ?_⟩
  · rw [hd]
    refine Parser.raisedAt_diagnose ?_ cause
    change (p.ahead ++ [p.stop])[u.length]? = _
    rw [huv]
    cases v <;> simp
  · have hseen : Declarations (words (u ++ c)) [] ss := by
      rwa [words_eq_self hphrases.plain]
    obtain ⟨depth, -, haccepted, -⟩ := parse_of_phrases hseen file
    refine ⟨c, depth + 1, ⟨ss⟩, Nat.le_add_left .., ?_⟩
    simpa [hwords] using haccepted (depth + 1) (Nat.le_add_right ..)
  · intro tokens' file' limit' program _ hsame hparse
    rw [hwords] at hsame
    obtain ⟨rest, hrest, hhead⟩ := exists_of_take_eq hsame
    exact hrefuses rest _ hhead (hrest ▸ phrases_of_parse hparse)

/-- A sum that lacks its right operand is blamed at the semicolon behind it, and could have
been completed up to there. -/
theorem parse_pinpoints_operand :
    let tokens : List Token :=
      [(.oya, "oya", 1), (.ident, "f", 5), (.lparen, "(", 6), (.ident, "a", 7), (.colon, ":", 8),
        (.typeName, "int", 10), (.rparen, ")", 13), (.lbrace, "\x7b", 15), (.comot, "comot", 17),
        (.ident, "a", 23), (.plus, "+", 25), (.semicolon, ";", 27), (.rbrace, "\x7d", 29)].map
          fun (kind, text, column) => ⟨kind, text, ⟨1, column⟩, ⟨"main", "."⟩⟩
    tokens.length < 16 ∧ ∃ errors, parse tokens "main" 16 = .error errors ∧
      (∃ c limit program, 1 ≤ limit ∧
        parse (tokens.take 11 ++ c) "main" limit = .ok program) ∧
      ∀ tokens' file limit program, 1 ≤ limit → (words tokens').take 12 = tokens.take 12 →
        parse tokens' file limit ≠ .ok program := by
  intro tokens
  let p := Parser.ofTokens tokens "main" 16
  obtain ⟨errors, herrors, hpos⟩ : ∃ errors, parse tokens "main" 16 = .error errors ∧
      errors.head?.map Diagnostic.pos = some ⟨1, 27⟩ := ⟨_, rfl, rfl⟩
  obtain ⟨d, ds, index, rfl, hraised, haccepted, hrefused⟩ :=
    parse_pinpoints tokens "main" 16 errors (by decide) herrors
  -- The positions of the tokens differ, so the semicolon is found by its position.
  have honly : ∀ index < p.tokens.length + 1,
      (p.tokenAt? index).map Token.pos = some ⟨1, 27⟩ → index = 11 := by decide
  obtain rfl : index = 11 := honly index hraised.lt (hraised.map_pos.trans hpos)
  exact ⟨by decide, _, herrors, haccepted, hrefused⟩

end Pidgin
