import Pidgin.Proofs.Parse.Recovery

/-!
# Which tokens are blamed

The errors of a run are raised further and further on, but not at a new token
each time.  A parser that recovers need not step over the token it has just
blamed: it stays where it is behind a semicolon, and in front of any token that
is taken to start a declaration.  The name of a type is one of these tokens
although no declaration starts with it, so the next turn blames it once more.
Nothing is blamed a third time, since every turn steps over a token.
-/

namespace Pidgin

open Parse

namespace Parser

/-- The token with this index is the name of a type, or stands behind a semicolon. -/
def Retried (p : Parser) (index : Nat) : Prop :=
  (∃ token, p.tokenAt? index = some token ∧ token.kind = .typeName) ∨
    ∃ before token, index = before + 1 ∧ p.tokenAt? before = some token ∧
      token.kind = .semicolon

def marks : List Kind := [.abeg, .oya, .waka, .abi, .comot]

theorem mem_marks_or_typeName {kind : Kind} (h : kind.startsDeclaration = true) :
    kind ∈ marks ∨ kind = .typeName := by
  revert h
  cases kind <;> decide

/-! ## Recovery that skips nothing -/

theorem seek_stays {behind ahead : List Token}
    (h : (seek behind ahead).1.length = behind.length) :
    seek behind ahead = (behind, ahead) ∧ (ahead = [] ∨
      behind.head?.map Token.kind = some .semicolon ∨
        ∃ token rest, ahead = token :: rest ∧ token.kind.startsDeclaration = true) := by
  cases ahead with
  | nil => exact ⟨rfl, .inl rfl⟩
  | cons token ahead =>
      rw [seek] at h ⊢
      split at h
      · rename_i hstops
        refine ⟨if_pos hstops, .inr ?_⟩
        rcases hstops with hsemicolon | hstarts
        · exact .inl hsemicolon
        · exact .inr ⟨token, ahead, rfl, hstarts⟩
      · have hmoved := cursor_le_seek (token :: behind) ahead
        simp only [List.length_cons] at hmoved
        omega

/-- A parser that recovers where it stands goes on with a mark, or with a token that may be
blamed again. -/
theorem recover_stays {q : Parser} (hmode : q.mode = .panicking)
    (hcursor : q.recover.cursor = q.cursor) (hend : q.recover.atEnd = false) :
    q.recover.current.kind ∈ marks ∨ q.Retried q.cursor := by
  have hrecover : q.recover = q.synchronize := by simp [recover, hmode]
  rw [hrecover] at hcursor hend ⊢
  obtain ⟨hseek, hstops⟩ := seek_stays hcursor
  have hahead : q.synchronize.ahead = q.ahead := congrArg Prod.snd hseek
  have hcurrent : q.synchronize.current = q.current := by
    rw [current, current, hahead]
    rfl
  rw [hcurrent]
  rcases hstops with hnone | hsemicolon | ⟨token, rest, htoken, hstarts⟩
  · simp [atEnd, hahead, hnone] at hend
  · right; right
    cases hbehind : q.behind with
    | nil => simp [hbehind] at hsemicolon
    | cons before behind =>
        refine ⟨behind.length, before, ?_, ?_, ?_⟩
        · simp [cursor, hbehind]
        · simp [tokenAt?, tokens, hbehind]
        · simpa [hbehind] using hsemicolon
  · have hkind : q.current = token := by simp [current, htoken]
    rcases mem_marks_or_typeName hstarts with hmark | htype
    · exact .inl (hkind ▸ hmark)
    · exact .inr (.inl ⟨token, hkind ▸ q.tokenAt?_cursor, htype⟩)

/-! ## Turns in front of a mark -/

theorem reaches_of_mark (room : Nat) {p : Parser} (hkind : p.current.kind ∈ marks) :
    p.shift.Reaches (parserOf (declaration (room + 1) p)) := by
  have hvalue := steady_value (room + 1)
  have hinner := steady_value room
  have hstatement := steady_statement room
  simp only [marks, List.mem_cons, List.not_mem_nil, or_false] at hkind
  rw [declaration, statement_eq]
  rcases hkind with h | h | h | h | h <;> simp only [declarationOf, statementOf, h]
  · exact (headed_varDecl hvalue p).reaches
  · exact (headed_fnDecl (steady_block _) p).reaches
  · exact (headed_whileLoop hinner hstatement p).reaches
  · exact (headed_conditional hinner hstatement p).reaches
  · exact (headed_ret hvalue p).reaches

theorem exists_raised {room : Nat} {p : Parser} {d : Diagnostic}
    (hturn : Turn.Accountable ⟨p, declaration (room + 1) p⟩) (hahead : p.ahead ≠ [])
    (hadded : Turn.added ⟨p, declaration (room + 1) p⟩ = [d]) :
    ∃ index, p.cursor ≤ index ∧ index ≤ (parserOf (declaration (room + 1) p)).cursor ∧
      p.RaisedAt index d ∧ (p.cursor = index → p.current.kind ∉ marks) := by
  by_cases hkind : p.current.kind ∈ marks
  · have hnormal : p.shift.mode = .normal := by simpa using hturn.normal
    rcases (reaches_of_mark room hkind).of_normal hnormal with ⟨-, herrors⟩ |
      ⟨-, d', index, herrors, hlow, hhigh, hraised⟩
    · simp [Turn.added, Turn.stop, herrors] at hadded
    · have hsame : d' = d := by simpa [Turn.added, Turn.stop, herrors] using hadded
      subst hsame
      rw [cursor_shift hahead] at hlow
      refine ⟨index, by omega, hhigh, hraised.of_eq (tokenAt?_shift p) (file_shift p), ?_⟩
      omega
  · obtain ⟨index, hlow, hhigh, hraised⟩ := hturn.raised d (by simp [hadded])
    exact ⟨index, hlow, hhigh, hraised, fun _ => hkind⟩

/-! ## Runs -/

/-- The errors of a run from `p` on, and the indices of the tokens that they blame. -/
structure Blamed (p : Parser) (indices : List Nat) (errors : List Diagnostic) : Prop where
  raised : List.Forall₂ p.RaisedAt indices errors
  ordered : indices.IsChain fun i j => i < j ∨ i = j ∧ p.Retried j
  twice : ∀ index, indices.count index ≤ 2
  low : ∀ index ∈ indices, p.cursor ≤ index
  low_tail : ∀ index ∈ indices.tail, p.cursor < index
  mark : p.cursor ∈ indices → p.atEnd = false ∧ p.current.kind ∉ marks

namespace Blamed

variable {p q : Parser} {indices : List Nat} {errors : List Diagnostic}

theorem of_later (h : Blamed q indices errors) (hcursor : p.cursor < q.cursor)
    (htoken : ∀ index, q.tokenAt? index = p.tokenAt? index) (hfile : q.file = p.file) :
    Blamed p indices errors := by
  have hlow : ∀ index ∈ indices, p.cursor < index := fun index hindex =>
    Nat.lt_of_lt_of_le hcursor (h.low index hindex)
  refine ⟨?_, ?_, h.twice, ?_, ?_, ?_⟩
  · exact h.raised.imp fun index d hd => hd.of_eq htoken hfile
  · simpa only [Retried, htoken] using h.ordered
  · exact fun index hindex => Nat.le_of_lt (hlow index hindex)
  · exact fun index hindex => hlow index (List.mem_of_mem_tail hindex)
  · exact fun hindex => absurd (hlow _ hindex) (Nat.lt_irrefl _)

theorem cons {index : Nat} {d : Diagnostic} (h : Blamed q indices errors)
    (hcursor : p.cursor < q.cursor) (hlow : p.cursor ≤ index) (hhigh : index ≤ q.cursor)
    (hraised : p.RaisedAt index d) (hmark : p.cursor = index → p.current.kind ∉ marks)
    (hend : p.atEnd = false) (hstays : q.cursor = index → q.atEnd = false →
      q.current.kind ∉ marks → p.Retried index)
    (htoken : ∀ index, q.tokenAt? index = p.tokenAt? index) (hfile : q.file = p.file) :
    Blamed p (index :: indices) (d :: errors) := by
  have hlater := h.of_later hcursor htoken hfile
  refine ⟨.cons hraised hlater.raised, ?_, ?_, ?_, ?_, ?_⟩
  · cases indices with
    | nil => exact .singleton index
    | cons later rest =>
        refine .cons_cons ?_ hlater.ordered
        have hmem : later ∈ later :: rest := List.mem_cons_self
        rcases Nat.eq_or_lt_of_le (Nat.le_trans hhigh (h.low later hmem)) with rfl | hlt
        · -- The next turn starts with the token that it blames, so the parser has not moved.
          have hstart : q.cursor = index := Nat.le_antisymm (h.low index hmem) hhigh
          obtain ⟨hgoes, hkind⟩ := h.mark (hstart ▸ hmem)
          exact .inr ⟨rfl, hstays hstart hgoes hkind⟩
        · exact .inl hlt
  · intro other
    rw [List.count_cons]
    split
    · rename_i hother
      have hother : index = other := by simpa using hother
      subst hother
      have htail : indices.tail.count index = 0 :=
        List.count_eq_zero.2 fun hmem =>
          absurd (Nat.lt_of_le_of_lt hhigh (h.low_tail index hmem)) (Nat.lt_irrefl _)
      cases indices with
      | nil => simp
      | cons later rest =>
          have hfirst := List.count_cons (a := index) (b := later) (l := rest)
          rw [List.tail_cons] at htail
          split at hfirst <;> omega
    · exact h.twice other
  · rw [List.forall_mem_cons]
    exact ⟨hlow, hlater.low⟩
  · exact fun later hmem => Nat.lt_of_lt_of_le hcursor (h.low later hmem)
  · intro hmem
    refine ⟨hend, ?_⟩
    rcases List.mem_cons.1 hmem with heq | hmem
    · exact hmark heq
    · exact absurd (Nat.lt_of_lt_of_le hcursor (h.low _ hmem)) (Nat.lt_irrefl _)

end Blamed

theorem Run.exists_blamed {room : Nat} {p last : Parser} {turns : List Turn}
    (h : Run (declaration (room + 1)) p turns last)
    (hturns : ∀ turn ∈ turns, turn.Accountable) :
    ∃ indices, Blamed p indices (turns.flatMap Turn.added) := by
  induction h with
  | done => exact ⟨[], ⟨.nil, .nil, by simp, by simp, by simp, by simp⟩⟩
  | @turn p last turns hend rest ih =>
      rw [List.forall_mem_cons] at hturns
      obtain ⟨indices, hblamed⟩ := ih hturns.2
      have heager := eager_declaration room
      have hahead : p.ahead ≠ [] := by simpa [atEnd] using hend
      have hmoves := heager.advances p hahead
      have hreach := (heager.steady p).reaches
      have hrecover := cursor_le_recover (parserOf (declaration (room + 1) p))
      have htoken (index : Nat) : (p.round (declaration (room + 1))).2.tokenAt? index =
          p.tokenAt? index := by
        rw [round_eq, tokenAt?_recover, hreach.tokenAt?_eq]
      have hfile : (p.round (declaration (room + 1))).2.file = p.file := by
        rw [round_eq, file_recover, hreach.file_eq]
      rw [List.flatMap_cons]
      have hone := hturns.1.atMostOne
      rcases hadded : Turn.added ⟨p, declaration (room + 1) p⟩ with _ | ⟨d, _ | ⟨d', more⟩⟩
      · refine ⟨indices, hblamed.of_later ?_ htoken hfile⟩
        rw [round_eq]
        exact Nat.lt_of_lt_of_le hmoves hrecover
      · have hpanics : (parserOf (declaration (room + 1) p)).mode = .panicking :=
          hturns.1.one_iff.1 (by rw [hadded]; rfl)
        obtain ⟨index, hlow, hhigh, hraised, hmark⟩ := exists_raised hturns.1 hahead hadded
        rw [round_eq] at hblamed htoken hfile
        refine ⟨index :: indices, hblamed.cons (Nat.lt_of_lt_of_le hmoves hrecover) hlow
          (Nat.le_trans hhigh hrecover) hraised hmark hend ?_ htoken hfile⟩
        intro hstart hgoes hkind
        have hcursor := Nat.le_antisymm (hstart ▸ hhigh) hrecover
        have hretried := (recover_stays hpanics hcursor hgoes).resolve_left hkind
        rw [← hcursor] at hretried
        simpa only [Retried, hreach.tokenAt?_eq, hstart] using hretried
      · simp [hadded] at hone

end Parser

/--
The errors of a parse blame tokens further and further on.  No token is blamed three times,
and only the name of a type or a token behind a semicolon is blamed twice.
-/
theorem parse_blames (tokens : List Token) (file : String) (limit : Nat)
    (errors : List Diagnostic) (hlimit : 1 ≤ limit)
    (h : parse tokens file limit = .error errors) :
    ∃ indices : List Nat,
      List.Forall₂ (Parser.ofTokens tokens file limit).RaisedAt indices errors ∧
      indices.IsChain (fun i j =>
        i < j ∨ i = j ∧ (Parser.ofTokens tokens file limit).Retried j) ∧
      ∀ index, indices.count index ≤ 2 := by
  obtain ⟨room, rfl⟩ := Nat.exists_eq_add_of_le' hlimit
  obtain ⟨turns, last, hrun, hturns, herrors, hparse⟩ := exists_run_parse tokens file room
  obtain ⟨indices, hblamed⟩ := hrun.exists_blamed hturns
  rw [hparse] at h
  split at h
  · cases h
  · cases h
    rw [herrors]
    exact ⟨indices, hblamed.raised, hblamed.ordered, hblamed.twice⟩

/-- Each of the three errors of `abeg; comot ); int;` blames another token. -/
theorem parse_blames_missing_name :
    let tokens : List Token :=
      [(.abeg, "abeg", 1), (.semicolon, ";", 5), (.comot, "comot", 7), (.rparen, ")", 13),
        (.semicolon, ";", 14), (.typeName, "int", 16), (.semicolon, ";", 19)].map
          fun (kind, text, column) => ⟨kind, text, ⟨1, column⟩, ⟨"main", "."⟩⟩
    let p := Parser.ofTokens tokens "main" 8
    1 ≤ 8 ∧ ∃ d d' d'', parse tokens "main" 8 = .error [d, d', d''] ∧
      List.Forall₂ p.RaisedAt [1, 3, 5] [d, d', d''] ∧
      [1, 3, 5].IsChain (fun i j => i < j ∨ i = j ∧ p.Retried j) ∧
      ∀ index, [1, 3, 5].count index ≤ 2 := by
  intro tokens p
  obtain ⟨d, d', d'', herror, hpos, hpos', hpos''⟩ :
      ∃ d d' d'', parse tokens "main" 8 = .error [d, d', d''] ∧
        d.pos = ⟨1, 5⟩ ∧ d'.pos = ⟨1, 13⟩ ∧ d''.pos = ⟨1, 16⟩ :=
    ⟨_, _, _, rfl, rfl, rfl, rfl⟩
  obtain ⟨indices, hraised, hordered, htwice⟩ :=
    parse_blames tokens "main" 8 _ (by decide) herror
  have honly : ∀ index < p.tokens.length + 1,
      ((p.tokenAt? index).map Token.pos = some ⟨1, 5⟩ → index = 1) ∧
        ((p.tokenAt? index).map Token.pos = some ⟨1, 13⟩ → index = 3) ∧
        ((p.tokenAt? index).map Token.pos = some ⟨1, 16⟩ → index = 5) := by decide
  obtain rfl : indices = [1, 3, 5] := by
    cases hraised with
    | cons h hraised =>
        cases hraised with
        | cons h' hraised =>
            cases hraised with
            | cons h'' hraised =>
                cases hraised
                rw [(honly _ h.lt).1 (h.map_pos.trans (congrArg some hpos)),
                  (honly _ h'.lt).2.1 (h'.map_pos.trans (congrArg some hpos')),
                  (honly _ h''.lt).2.2 (h''.map_pos.trans (congrArg some hpos''))]
  exact ⟨by decide, d, d', d'', herror, hraised, hordered, htwice⟩

/-- `abeg int;` blames its second token, for the name that is missing there and for the
expression that it does not open. -/
theorem parse_blames_type_twice :
    let tokens : List Token :=
      [(.abeg, "abeg", 1), (.typeName, "int", 6), (.semicolon, ";", 9)].map
        fun (kind, text, column) => ⟨kind, text, ⟨1, column⟩, ⟨"main", "."⟩⟩
    ∃ d d', parse tokens "main" 8 = .error [d, d'] ∧
      ¬∃ indices : List Nat, indices.Pairwise (· < ·) ∧
        List.Forall₂ (Parser.ofTokens tokens "main" 8).RaisedAt indices [d, d'] := by
  intro tokens
  let p := Parser.ofTokens tokens "main" 8
  -- The positions of the tokens differ, so the second one is found by its position.
  have honly : ∀ index < p.tokens.length + 1,
      (p.tokenAt? index).map Token.pos = some ⟨1, 6⟩ → index = 1 := by decide
  have hindex {index : Nat} {d : Diagnostic} (hd : p.RaisedAt index d) (hpos : d.pos = ⟨1, 6⟩) :
      index = 1 := by
    exact honly index hd.lt (hd.map_pos.trans (congrArg some hpos))
  refine ⟨_, _, rfl, ?_⟩
  rintro ⟨indices, hsorted, hraised⟩
  cases hraised with
  | cons hfirst hraised =>
      cases hraised with
      | cons hsecond hraised =>
          have hfirst := hindex hfirst rfl
          have hsecond := hindex hsecond rfl
          simp [hfirst, hsecond] at hsorted

end Pidgin
