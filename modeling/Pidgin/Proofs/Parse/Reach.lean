import Pidgin.Parse.Program

/-!
# What a parse can do to a parser

Whatever is read, a parser only ever steps over tokens and reports faults at
tokens it has come across.  `Parser.Reaches` is the closure of these two moves;
every reader of the library is shown to stay within it, and to be panicking
whenever it fails.  Everything else about the state of a parser, such as how
many errors a declaration adds, follows from the two moves alone.
-/

namespace Pidgin

namespace Parser

/-- The token with a given index; the end mark stands behind the last one. -/
def tokenAt? (p : Parser) (index : Nat) : Option Token :=
  (p.tokens ++ [p.stop])[index]?

def Between (p q : Parser) (token : Token) : Prop :=
  ∃ index, p.cursor ≤ index ∧ index ≤ q.cursor ∧ p.tokenAt? index = some token

/-- `d` was raised at the token with the given index: it has the place of that token and the file
of the parser, and of an illegal character it does not say what is missing there. -/
def RaisedAt (p : Parser) (index : Nat) (d : Diagnostic) : Prop :=
  ∃ token, p.tokenAt? index = some token ∧ d.pos = token.pos ∧ d.file = p.file ∧
    (token.kind = .illegal → (∀ found, d.cause ≠ .expectedExpression found) ∧
      ∀ found expectation, d.cause ≠ .unexpectedToken found expectation)

inductive Reaches (p : Parser) : Parser → Prop where
  | refl : Reaches p p
  | shift {q : Parser} (before : Reaches p q) : Reaches p q.shift
  | report {q : Parser} {token : Token} (before : Reaches p q)
      (met : p.Between q token) (cause : Cause) :
      Reaches p (q.record (q.diagnose token cause))

theorem length_tokens (p : Parser) : p.tokens.length = p.cursor + p.ahead.length := by
  simp [tokens, cursor]

theorem raisedAt_diagnose {p : Parser} {index : Nat} {token : Token}
    (h : p.tokenAt? index = some token) (cause : Cause) :
    p.RaisedAt index (p.diagnose token cause) := by
  refine ⟨token, h, rfl, rfl, ?_⟩
  intro hkind
  unfold diagnose
  rw [hkind]
  cases cause <;> simp

theorem RaisedAt.lt {p : Parser} {index : Nat} {d : Diagnostic} (h : p.RaisedAt index d) :
    index < p.tokens.length + 1 := by
  obtain ⟨token, htoken, -⟩ := h
  simpa using (List.getElem?_eq_some_iff.1 htoken).1

theorem RaisedAt.map_pos {p : Parser} {index : Nat} {d : Diagnostic} (h : p.RaisedAt index d) :
    (p.tokenAt? index).map Token.pos = some d.pos := by
  obtain ⟨token, htoken, hpos, -⟩ := h
  rw [htoken, hpos]
  rfl

/-! ## The two moves -/

@[simp] theorem tokenAt?_shift (p : Parser) (index : Nat) :
    p.shift.tokenAt? index = p.tokenAt? index := by
  unfold tokenAt?
  rw [tokens_shift]
  unfold shift
  split <;> rfl

@[simp] theorem tokenAt?_record (p : Parser) (d : Diagnostic) (index : Nat) :
    (p.record d).tokenAt? index = p.tokenAt? index := by
  unfold tokenAt?
  rw [tokens_record]
  unfold record
  split <;> rfl

theorem tokenAt?_cursor (p : Parser) : p.tokenAt? p.cursor = some p.current := by
  unfold tokenAt? tokens cursor current
  cases p.ahead <;> simp

@[simp] theorem file_shift (p : Parser) : p.shift.file = p.file := by
  unfold shift
  split <;> rfl

@[simp] theorem file_record (p : Parser) (d : Diagnostic) :
    (p.record d).file = p.file := by
  unfold record
  split <;> rfl

@[simp] theorem mode_shift (p : Parser) : p.shift.mode = p.mode := by
  unfold shift
  split <;> rfl

@[simp] theorem mode_record (p : Parser) (d : Diagnostic) :
    (p.record d).mode = .panicking := by
  unfold record
  split <;> simp_all

@[simp] theorem errors_shift (p : Parser) : p.shift.errors = p.errors := by
  unfold shift
  split <;> rfl

@[simp] theorem cursor_record (p : Parser) (d : Diagnostic) :
    (p.record d).cursor = p.cursor := by
  unfold record
  split <;> rfl

theorem cursor_le_shift (p : Parser) : p.cursor ≤ p.shift.cursor := by
  unfold shift
  split
  · exact Nat.le_refl _
  · simp [cursor]

theorem cursor_shift {p : Parser} (h : p.ahead ≠ []) :
    p.shift.cursor = p.cursor + 1 := by
  unfold shift
  split
  · contradiction
  · simp [cursor]

theorem between_shift (p : Parser) : p.Between p.shift p.current :=
  ⟨p.cursor, Nat.le_refl _, p.cursor_le_shift, p.tokenAt?_cursor⟩

/-! ## What they keep -/

namespace Reaches

variable {p q r : Parser}

theorem cursor_le (h : p.Reaches q) : p.cursor ≤ q.cursor := by
  induction h with
  | refl => exact Nat.le_refl _
  | shift _ ih => exact Nat.le_trans ih (cursor_le_shift _)
  | report _ _ _ ih => simpa using ih

theorem tokenAt?_eq (h : p.Reaches q) (index : Nat) :
    q.tokenAt? index = p.tokenAt? index := by
  induction h with
  | refl => rfl
  | shift _ ih => simpa using ih
  | report _ _ _ ih => simpa using ih

theorem tokens_eq (h : p.Reaches q) : q.tokens = p.tokens := by
  induction h with
  | refl => rfl
  | shift _ ih => simpa using ih
  | report _ _ _ ih => simpa using ih

theorem file_eq (h : p.Reaches q) : q.file = p.file := by
  induction h with
  | refl => rfl
  | shift _ ih => simpa using ih
  | report _ _ _ ih => simpa using ih

theorem between_current (h : p.Reaches q) : p.Between q q.current :=
  ⟨q.cursor, h.cursor_le, Nat.le_refl _, by
    rw [← h.tokenAt?_eq, tokenAt?_cursor]⟩

theorem between_trans {token : Token} (hpq : p.Reaches q)
    (hq : q.Between r token) : p.Between r token := by
  obtain ⟨index, hlow, hhigh, htoken⟩ := hq
  refine ⟨index, Nat.le_trans hpq.cursor_le hlow, hhigh, ?_⟩
  rw [← hpq.tokenAt?_eq, htoken]

theorem trans (hpq : p.Reaches q) (hqr : q.Reaches r) : p.Reaches r := by
  induction hqr with
  | refl => exact hpq
  | shift _ ih => exact ih.shift
  | report _ met cause ih => exact ih.report (hpq.between_trans met) cause

theorem of_panicking (h : p.Reaches q) (hp : p.mode = .panicking) :
    q.mode = .panicking ∧ q.errors = p.errors := by
  induction h with
  | refl => exact ⟨hp, rfl⟩
  | shift _ ih => simpa using ih
  | @report q _ _ _ cause ih =>
      refine ⟨mode_record .., ?_⟩
      rw [record, ih.1]
      exact ih.2

/-- From normal mode the first report is kept, and it is the only one. -/
theorem of_normal (h : p.Reaches q) (hp : p.mode = .normal) :
    (q.mode = .normal ∧ q.errors = p.errors) ∨
      (q.mode = .panicking ∧ ∃ d index, q.errors = p.errors ++ [d] ∧
        p.cursor ≤ index ∧ index ≤ q.cursor ∧ p.RaisedAt index d) := by
  induction h with
  | refl => exact .inl ⟨hp, rfl⟩
  | @shift q before ih =>
      rcases ih with ⟨hmode, herrors⟩ | ⟨hmode, d, index, herrors, hlow, hhigh, hraised⟩
      · exact .inl (by simpa using ⟨hmode, herrors⟩)
      · exact .inr ⟨by simpa using hmode, d, index, by simpa using herrors, hlow,
          Nat.le_trans hhigh q.cursor_le_shift, hraised⟩
  | @report q token before met cause ih =>
      rcases ih with ⟨hmode, herrors⟩ | ⟨hmode, d, index, herrors, hlow, hhigh, hraised⟩
      · obtain ⟨index, hlow, hhigh, htoken⟩ := met
        have hraised : p.RaisedAt index (q.diagnose token cause) := by
          simpa only [diagnose, before.file_eq] using raisedAt_diagnose htoken cause
        refine .inr ⟨mode_record .., q.diagnose token cause, index, ?_, hlow,
          by simpa using hhigh, hraised⟩
        rw [record, hmode]
        simp only [herrors]
      · refine .inr ⟨mode_record .., d, index, ?_, hlow, by simpa using hhigh, hraised⟩
        rw [record, hmode]
        exact herrors

theorem normal_of_normal (h : p.Reaches q) (hq : q.mode = .normal) :
    p.mode = .normal := by
  cases hp : p.mode with
  | normal => rfl
  | panicking =>
      rw [(h.of_panicking hp).1] at hq
      contradiction

end Reaches

end Parser

end Pidgin
