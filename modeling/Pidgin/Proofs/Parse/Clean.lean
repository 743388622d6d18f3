import Pidgin.Proofs.Parse.Steady
import Pidgin.Proofs.Grammar.Phrase

/-!
# Runs that report nothing

A run that ends in normal mode has done nothing but step over tokens, so what it
leaves behind is known from these tokens alone.  `Recognizes` says which tokens
such a run can have read, `Takes` which tokens are sure to be read by one.
-/

namespace Pidgin

open Grammar

namespace Parser

/-- The parser after it has stepped over `w`, with `rest` still ahead. -/
def read (p : Parser) (w rest : List Token) : Parser :=
  { p with behind := w.reverse ++ p.behind, ahead := rest }

@[simp] theorem ahead_read (p : Parser) (w rest : List Token) :
    (p.read w rest).ahead = rest := rfl

@[simp] theorem cursor_read (p : Parser) (w rest : List Token) :
    (p.read w rest).cursor = p.cursor + w.length := by
  simp [cursor, read, Nat.add_comm]

@[simp] theorem read_read (p : Parser) (v w rest rest' : List Token) :
    (p.read v rest').read w rest = p.read (v ++ w) rest := by
  simp [read]

theorem shift_eq_read {p : Parser} {token : Token} {rest : List Token}
    (h : p.ahead = token :: rest) : p.shift = p.read [token] rest := by
  simp [shift, h, read]

theorem current_of_ahead {p : Parser} {token : Token} {rest : List Token}
    (h : p.ahead = token :: rest) : p.current = token := by
  rw [current, h]
  rfl

theorem kind_current (p : Parser) : p.current.kind = nextKind p.ahead := by
  unfold current
  cases p.ahead with
  | nil => exact p.stop_eof
  | cons token rest => rfl

theorem ahead_of_kind {p : Parser} (h : p.current.kind ≠ .eof) :
    p.ahead = p.current :: p.shift.ahead := by
  cases hahead : p.ahead with
  | nil =>
      rw [kind_current, hahead] at h
      exact absurd rfl h
  | cons token rest => rw [shift_eq_read hahead, current_of_ahead hahead, ahead_read]

theorem check_eq {kind : Kind} (h : kind ≠ .eof) (p : Parser) :
    p.check kind = decide (nextKind p.ahead = kind) := by
  unfold check
  cases p.ahead with
  | nil => exact (decide_eq_false h.symm).symm
  | cons token rest => rfl

theorem Reaches.exists_read {p q : Parser} (h : p.Reaches q) (hq : q.mode = .normal) :
    ∃ w, p.ahead = w ++ q.ahead ∧ q = p.read w q.ahead := by
  induction h with
  | refl => exact ⟨[], rfl, rfl⟩
  | @shift q before ih =>
      obtain ⟨w, hw, hread⟩ := ih (by simpa using hq)
      cases hahead : q.ahead with
      | nil =>
          rw [show q.shift = q by simp [Parser.shift, hahead]]
          exact ⟨w, hw, hread⟩
      | cons token rest =>
          rw [shift_eq_read hahead]
          refine ⟨w ++ [token], ?_, ?_⟩
          · simp [hw, hahead]
          · rw [hread, read_read, ahead_read]
  | report => simp at hq

end Parser

namespace Parse

variable {α β : Type}

/-! ## Outcomes of composed readers -/

theorem bind_ok {m : Parse α} {f : α → Parse β} {p r : Parser} {b : β}
    (h : (m >>= f) p = .ok b r) : ∃ a q, m p = .ok a q ∧ f a q = .ok b r := by
  cases hm : m p with
  | ok a q =>
      rw [bind_of_ok hm] at h
      exact ⟨a, q, rfl, h⟩
  | error d q =>
      rw [bind_of_error hm] at h
      contradiction

theorem map_ok {m : Parse α} {g : α → β} {p q : Parser} {b : β}
    (h : (g <$> m) p = .ok b q) : ∃ a, m p = .ok a q ∧ g a = b := by
  rw [← bind_pure_comp] at h
  obtain ⟨a, q', hm, hpure⟩ := bind_ok h
  cases hpure
  exact ⟨a, hm, rfl⟩

theorem advance_ok {f : Token → Parse β} {p r : Parser} {b : β} {kind : Kind}
    (h : (advance >>= f) p = .ok b r) (hkind : p.current.kind = kind) (heof : kind ≠ .eof) :
    ∃ token q, token.kind = kind ∧ p.ahead = token :: q.ahead ∧ f token q = .ok b r := by
  refine ⟨p.current, p.shift, hkind, ?_, h⟩
  apply Parser.ahead_of_kind
  rwa [hkind]

theorem expect_ok {kind : Kind} {expectation : String} {p q : Parser} {token : Token}
    (h : expect kind expectation p = .ok token q) :
    token.kind = kind ∧ p.ahead = token :: q.ahead ∧ q.mode = p.mode := by
  rw [expect_eq] at h
  split at h
  · rename_i hcheck
    obtain ⟨token', rest, hahead, hkind⟩ := (Parser.check_eq_true_iff ..).1 hcheck
    cases h
    rw [Parser.shift_eq_read hahead, Parser.current_of_ahead hahead]
    exact ⟨hkind, hahead, rfl⟩
  · rw [fail_eq] at h
    contradiction

theorem accept_true {kind : Kind} {p q : Parser} (h : accept kind p = .ok true q) :
    ∃ token, token.kind = kind ∧ p.ahead = token :: q.ahead ∧ q.mode = p.mode := by
  rw [accept_eq] at h
  split at h
  · rename_i hcheck
    obtain ⟨token, rest, hahead, hkind⟩ := (Parser.check_eq_true_iff ..).1 hcheck
    cases h
    rw [Parser.shift_eq_read hahead]
    exact ⟨token, hkind, hahead, rfl⟩
  · cases h

theorem accept_false {kind : Kind} {p q : Parser} (h : accept kind p = .ok false q) :
    q = p ∧ p.check kind = false := by
  rw [accept_eq] at h
  split at h
  · cases h
  · rename_i hcheck
    cases h
    exact ⟨rfl, by simpa using hcheck⟩

/-! ## What a clean run has read -/

/-- Whatever a run that reports nothing has read, it is a phrase for what it yields, given
what follows. -/
def Recognizes (m : Parse α) (phrase : List Token → List Token → α → Prop) : Prop :=
  ∀ p a q, m p = .ok a q → q.mode = .normal →
    ∃ w, p.ahead = w ++ q.ahead ∧ phrase w q.ahead a

def RecognizesAt (kind : Kind) (m : Parse α)
    (phrase : List Token → List Token → α → Prop) : Prop :=
  ∀ p a q, p.current.kind = kind → m p = .ok a q → q.mode = .normal →
    ∃ w, p.ahead = w ++ q.ahead ∧ phrase w q.ahead a

theorem Recognizes.bounded {loop : Nat → Parse α}
    {phrase : List Token → List Token → α → Prop} (h : ∀ rounds, Recognizes (loop rounds) phrase) :
    Recognizes (bounded loop) phrase :=
  fun p => h p.ahead.length p

theorem Steady.normal_of_ok {m : Parse α} (hm : Steady m) {p q : Parser} {a : α}
    (h : m p = .ok a q) (hq : q.mode = .normal) : p.mode = .normal :=
  (hm.reaches h).normal_of_normal hq

theorem Steady.ok_of_normal {m : Parse α} (hm : Steady m) {p : Parser}
    (h : (parserOf (m p)).mode = .normal) : ∃ a q, m p = .ok a q ∧ q.mode = .normal := by
  have hstays := hm p
  cases hresult : m p with
  | ok a q =>
      rw [hresult] at h
      exact ⟨a, q, rfl, h⟩
  | error d q =>
      rw [hresult] at h hstays
      exact absurd (hstays.2.symm.trans h) (by decide)

/-! ## What is sure to be read -/

/-- In front of `w`, with `rest` behind it, the reader steps over `w` and yields `a`. -/
def Takes (m : Parse α) (w rest : List Token) (a : α) : Prop :=
  ∀ p : Parser, p.ahead = w ++ rest → m p = .ok a (p.read w rest)

def TakesUpTo (bound : Nat) (m : Parse α)
    (phrase : List Token → List Token → α → Prop) : Prop :=
  ∀ ⦃w rest a⦄, phrase w rest a → w.length ≤ bound → Takes m w rest a

variable {rest : List Token}

theorem takes_pure (a : α) (rest : List Token) : Takes (pure a : Parse α) [] rest a := by
  intro p h
  rw [List.nil_append] at h
  subst h
  rfl

theorem Takes.bind {m : Parse α} {f : α → Parse β} {u w : List Token} {a : α} {b : β}
    (v : List Token) (hm : Takes m u (v ++ rest) a) (hf : Takes (f a) v rest b)
    (hw : w = u ++ v) : Takes (m >>= f) w rest b := by
  intro p h
  rw [hw, List.append_assoc] at h
  rw [hw, bind_of_ok (hm p h), hf _ (Parser.ahead_read ..), Parser.read_read]

theorem Takes.bind_pure {m : Parse α} {w : List Token} {a : α} (hm : Takes m w rest a)
    (g : α → β) : Takes (m >>= fun a => pure (g a)) w rest (g a) := by
  intro p h
  rw [bind_of_ok (hm p h)]
  rfl

theorem Takes.map {m : Parse α} {w : List Token} {a : α} (hm : Takes m w rest a)
    (g : α → β) : Takes (g <$> m) w rest (g a) := by
  rw [← bind_pure_comp]
  exact hm.bind_pure g

theorem takes_advance (token : Token) (rest : List Token) :
    Takes advance [token] rest token := by
  intro p h
  change EStateM.Result.ok p.current p.shift = _
  rw [Parser.current_of_ahead h, Parser.shift_eq_read h]
  rfl

theorem takes_check_true {kind : Kind} (hkind : kind ≠ .eof) (h : nextKind rest = kind) :
    Takes (check kind) [] rest true := by
  intro p hp
  rw [List.nil_append] at hp
  subst hp
  rw [← decide_eq_true h, ← Parser.check_eq hkind]
  rfl

theorem takes_check_false {kind : Kind} (hkind : kind ≠ .eof) (h : nextKind rest ≠ kind) :
    Takes (check kind) [] rest false := by
  intro p hp
  rw [List.nil_append] at hp
  subst hp
  rw [← decide_eq_false h, ← Parser.check_eq hkind]
  rfl

theorem takes_expect {token : Token} {kind : Kind} (hkind : token.kind = kind)
    (expectation : String) (rest : List Token) :
    Takes (expect kind expectation) [token] rest token := by
  intro p h
  have hcheck : p.check kind = true := by
    rw [Parser.check, h]
    exact decide_eq_true hkind
  rw [expect_eq, if_pos hcheck]
  exact takes_advance token rest p h

theorem takes_accept {token : Token} {kind : Kind} (hkind : token.kind = kind)
    (rest : List Token) : Takes (accept kind) [token] rest true := by
  intro p h
  have hcheck : p.check kind = true := by
    rw [Parser.check, h]
    exact decide_eq_true hkind
  rw [accept_eq, if_pos hcheck, Parser.shift_eq_read h]
  rfl

theorem takes_accept_none {kind : Kind} (hkind : kind ≠ .eof) (h : nextKind rest ≠ kind) :
    Takes (accept kind) [] rest false := by
  intro p hp
  rw [List.nil_append] at hp
  subst hp
  rw [accept_eq, Parser.check_eq hkind, decide_eq_false h]
  rfl

end Parse

end Pidgin
