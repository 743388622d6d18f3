import Pidgin.Proofs.Parse.Steady

/-!
# Readers called out of turn

A reader of a single form may be handed a token that the parser has never stood
in front of, and then it reports at that token.  What it does to a parser is
still little: it steps over tokens and it reports.  `Parser.Drifts` is the
closure of these moves with no condition on what is reported, and a reader is
loose when it makes no other move and is panicking whenever it fails.
-/

namespace Pidgin

namespace Parser

/-- What `p` can become before it recovers, whatever is reported on the way. -/
inductive Drifts (p : Parser) : Parser → Prop where
  | refl : Drifts p p
  | shift {q : Parser} (before : Drifts p q) : Drifts p q.shift
  | record {q : Parser} (before : Drifts p q) (d : Diagnostic) : Drifts p (q.record d)

theorem Reaches.drifts {p q : Parser} (h : p.Reaches q) : p.Drifts q := by
  induction h with
  | refl => exact .refl
  | shift _ ih => exact ih.shift
  | report _ _ _ ih => exact ih.record _

/-! ## The two moves -/

@[simp] theorem stop_shift (p : Parser) : p.shift.stop = p.stop := by
  unfold shift
  split <;> rfl

@[simp] theorem stop_record (p : Parser) (d : Diagnostic) : (p.record d).stop = p.stop := by
  unfold record
  split <;> rfl

@[simp] theorem limit_shift (p : Parser) : p.shift.limit = p.limit := by
  unfold shift
  split <;> rfl

@[simp] theorem limit_record (p : Parser) (d : Diagnostic) : (p.record d).limit = p.limit := by
  unfold record
  split <;> rfl

@[simp] theorem ahead_record (p : Parser) (d : Diagnostic) : (p.record d).ahead = p.ahead := by
  unfold record
  split <;> rfl

theorem ahead_shift (p : Parser) : p.shift.ahead = p.ahead.tail := by
  unfold shift
  split <;> simp_all

theorem errors_prefix_record (p : Parser) (d : Diagnostic) : p.errors <+: (p.record d).errors := by
  unfold record
  split <;> simp

theorem errors_record_ne_nil {p : Parser} (h : p.mode = .panicking → p.errors ≠ [])
    (d : Diagnostic) : (p.record d).errors ≠ [] := by
  unfold record
  split
  · simp
  · exact h ‹_›

/-! ## What they keep -/

namespace Drifts

variable {p q r : Parser}

theorem trans (hpq : p.Drifts q) (hqr : q.Drifts r) : p.Drifts r := by
  induction hqr with
  | refl => exact hpq
  | shift _ ih => exact ih.shift
  | record _ d ih => exact ih.record d

theorem cursor_le (h : p.Drifts q) : p.cursor ≤ q.cursor := by
  induction h with
  | refl => exact Nat.le_refl _
  | shift _ ih => exact Nat.le_trans ih (cursor_le_shift _)
  | record _ _ ih => simpa using ih

theorem tokens_eq (h : p.Drifts q) : q.tokens = p.tokens := by
  induction h with
  | refl => rfl
  | shift _ ih => simpa using ih
  | record _ _ ih => simpa using ih

theorem stop_eq (h : p.Drifts q) : q.stop = p.stop := by
  induction h with
  | refl => rfl
  | shift _ ih => simpa using ih
  | record _ _ ih => simpa using ih

theorem file_eq (h : p.Drifts q) : q.file = p.file := by
  induction h with
  | refl => rfl
  | shift _ ih => simpa using ih
  | record _ _ ih => simpa using ih

theorem limit_eq (h : p.Drifts q) : q.limit = p.limit := by
  induction h with
  | refl => rfl
  | shift _ ih => simpa using ih
  | record _ _ ih => simpa using ih

theorem length_ahead_le (h : p.Drifts q) : q.ahead.length ≤ p.ahead.length := by
  have htokens := congrArg List.length h.tokens_eq
  have hcursor := h.cursor_le
  rw [length_tokens, length_tokens] at htokens
  omega

theorem ahead_ne_nil (h : p.Drifts q) (hq : q.ahead ≠ []) : p.ahead ≠ [] := by
  have hlength := h.length_ahead_le
  rw [← List.length_pos_iff] at hq ⊢
  omega

theorem errors_prefix (h : p.Drifts q) : p.errors <+: q.errors := by
  induction h with
  | refl => exact List.prefix_refl _
  | shift _ ih => simpa using ih
  | record _ d ih => exact ih.trans (errors_prefix_record _ d)

theorem panicking (h : p.Drifts q) (hp : p.mode = .panicking) : q.mode = .panicking := by
  induction h with
  | refl => exact hp
  | shift _ ih => simpa using ih
  | record _ _ _ => exact mode_record ..

theorem normal_of_normal (h : p.Drifts q) (hq : q.mode = .normal) : p.mode = .normal := by
  cases hp : p.mode with
  | normal => rfl
  | panicking =>
      rw [h.panicking hp] at hq
      contradiction

theorem errors_eq (h : p.Drifts q) (hp : p.mode = .panicking) : q.errors = p.errors := by
  induction h with
  | refl => rfl
  | shift _ ih => simpa using ih
  | record before d ih =>
      rw [Parser.record, before.panicking hp]
      exact ih

theorem errors_ne_nil (h : p.Drifts q) (hp : p.mode = .panicking → p.errors ≠ [])
    (hq : q.mode = .panicking) : q.errors ≠ [] := by
  induction h with
  | refl => exact hp hq
  | shift _ ih => simpa using ih (by simpa using hq)
  | record _ d ih => exact errors_record_ne_nil ih d

end Drifts

end Parser

namespace Parse

variable {α β : Type}

structure Loose (m : Parse α) : Prop where
  drifts (p : Parser) : p.Drifts (parserOf (m p))
  panics {p q : Parser} {d : Diagnostic} (h : m p = .error d q) : q.mode = .panicking

theorem Steady.loose {m : Parse α} (hm : Steady m) : Loose m where
  drifts p := (hm p).reaches.drifts
  panics {p q d} h := by
    have hstays := hm p
    rw [h] at hstays
    exact hstays.2

namespace Loose

variable {m : Parse α} {f : α → Parse β} {p q : Parser}

theorem of_ok (hm : Loose m) {a : α} (h : m p = .ok a q) : p.Drifts q := by
  have hdrifts := hm.drifts p
  rwa [h] at hdrifts

theorem of_error (hm : Loose m) {d : Diagnostic} (h : m p = .error d q) : p.Drifts q := by
  have hdrifts := hm.drifts p
  rwa [h] at hdrifts

theorem bind (hm : Loose m) (hf : ∀ a, Loose (f a)) : Loose (m >>= f) where
  drifts p := by
    cases h : m p with
    | ok a q =>
        rw [bind_of_ok h]
        exact (hm.of_ok h).trans ((hf a).drifts q)
    | error d q =>
        rw [bind_of_error h]
        exact hm.of_error h
  panics {p r d} hresult := by
    cases h : m p with
    | ok a q =>
        rw [bind_of_ok h] at hresult
        exact (hf a).panics hresult
    | error d' q =>
        rw [bind_of_error h] at hresult
        cases hresult
        exact hm.panics h

theorem ite {k : Parse α} (hm : Loose m) (hk : Loose k) (test : Parser → Bool) :
    Loose fun p => if test p then m p else k p where
  drifts p := by
    split
    · exact hm.drifts p
    · exact hk.drifts p
  panics h := by
    split at h
    · exact hm.panics h
    · exact hk.panics h

end Loose

theorem loose_pure (a : α) : Loose (pure a : Parse α) := (steady_pure a).loose

theorem loose_report (token : Token) (cause : Cause) : Loose (Parse.report token cause) :=
  ⟨fun _ => .record .refl _, nofun⟩

theorem loose_fail (token : Token) (cause : Cause) : Loose (fail token cause : Parse α) where
  drifts _ := .record .refl _
  panics h := by
    rw [fail_eq] at h
    cases h
    exact Parser.mode_record ..

theorem loose_literal (token : Token) : Loose (literal token) := by
  unfold literal
  cases Literal.ofToken token with
  | ok value => exact loose_pure _
  | error cause => exact loose_fail token cause

end Parse

end Pidgin
