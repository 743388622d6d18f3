import Pidgin.Proofs.Parse.Clean

/-!
# Blaming the right token

A reader that panics has come to a token that it cannot go past.  `Pinpoints`
says that this is the token it blames: the tokens before it can be completed, and
no matter what follows the token, every reader of the family panics on it.  For
that the runs of two readers are compared which differ in what lies further
ahead, and with it in their room and in the rounds of their loops; `Firm` says
that what is read by one of them is read by the other.
-/

namespace Pidgin

open Grammar

namespace Parser

def Echoes (p q : Parser) : Prop := q.mode = p.mode ∧ q.errors = p.errors

variable {p q r : Parser}

@[simp] theorem diagnose_shift (p : Parser) (token : Token) (cause : Cause) :
    p.shift.diagnose token cause = p.diagnose token cause := by
  unfold diagnose
  rw [file_shift]

theorem echoes_shift_record (p : Parser) (d : Diagnostic) :
    (p.record d).Echoes (p.shift.record d) := by
  unfold Echoes record
  rw [mode_shift]
  cases hmode : p.mode <;> simp [hmode]

theorem Echoes.reaches (h : p.Echoes q) (hmode : p.mode = .panicking) (hreach : q.Reaches r) :
    p.Echoes r := by
  obtain ⟨hmode', herrors⟩ := hreach.of_panicking (h.1.trans hmode)
  exact ⟨hmode'.trans hmode.symm, herrors.trans h.2⟩

end Parser

namespace Parse

variable {α β : Type}

/-! ## Budgets -/

/-- Levels of nesting to go down, and rounds for a loop. -/
structure Budget where
  room : Nat
  rounds : Nat

namespace Budget

structure Covers (b : Budget) (w : List Token) : Prop where
  room : w.length < b.room
  rounds : w.length ≤ b.rounds

def down (b : Budget) : Budget := ⟨b.room - 1, b.rounds⟩

def spend (b : Budget) : Budget := ⟨b.room, b.rounds - 1⟩

variable {b : Budget} {token : Token} {v w : List Token}

theorem Covers.of_append (h : b.Covers (v ++ w)) : b.Covers w := by
  obtain ⟨hroom, hrounds⟩ := h
  rw [List.length_append] at hroom hrounds
  constructor <;> omega

theorem Covers.down (h : b.Covers (token :: w)) : b.down.Covers w := by
  obtain ⟨hroom, hrounds⟩ := h
  rw [List.length_cons] at hroom hrounds
  constructor <;> simp only [Budget.down] <;> omega

theorem Covers.spend (h : b.Covers (token :: w)) : b.spend.Covers w := by
  obtain ⟨hroom, hrounds⟩ := h
  rw [List.length_cons] at hroom hrounds
  constructor <;> simp only [Budget.spend] <;> omega

end Budget

/-! ## Panics -/

def Panics (m : Parse α) (p : Parser) : Prop := (parserOf (m p)).mode = .panicking

theorem Panics.bind {m : Parse α} {f : α → Parse β} {p : Parser} (h : Panics m p)
    (hf : ∀ a, Steady (f a)) : (parserOf (m p)).Echoes (parserOf ((m >>= f) p)) := by
  unfold Panics at h
  cases hresult : m p with
  | ok a q =>
      rw [hresult] at h
      rw [bind_of_ok hresult]
      exact Parser.Echoes.reaches ⟨rfl, rfl⟩ h (hf a q).reaches
  | error d q =>
      rw [bind_of_error hresult]
      exact ⟨rfl, rfl⟩

theorem bind_of_eq {m m' : Parse α} {f : α → Parse β} {p q : Parser} (h : m p = m' q) :
    (m >>= f) p = (m' >>= f) q := by
  change EStateM.bind m f p = EStateM.bind m' f q
  unfold EStateM.bind
  rw [h]

theorem parserOf_bind_pure (m : Parse α) (g : α → β) (p : Parser) :
    parserOf ((m >>= fun a => pure (g a)) p) = parserOf (m p) := by
  cases hresult : m p with
  | ok a q =>
      rw [bind_of_ok hresult]
      rfl
  | error d q =>
      rw [bind_of_error hresult]
      rfl

theorem parserOf_map (m : Parse α) (g : α → β) (p : Parser) :
    parserOf ((g <$> m) p) = parserOf (m p) := by
  rw [← bind_pure_comp]
  exact parserOf_bind_pure m g p

theorem ok_of_not_panics {m : Parse α} (hm : Steady m) {p : Parser} (h : ¬Panics m p) :
    ∃ a q, m p = .ok a q ∧ q.mode = .normal := by
  apply hm.ok_of_normal
  cases hmode : (parserOf (m p)).mode with
  | normal => rfl
  | panicking => exact absurd hmode h

/-! ## The token to come -/

theorem head?_append {v v' : List Token} (u : List Token) (h : v'.head? = v.head?) :
    (u ++ v').head? = (u ++ v).head? := by
  cases u with
  | nil => exact h
  | cons token u => rfl

theorem cons_of_head? {v v' : List Token} {token : Token} (h : v'.head? = v.head?)
    (hv : v.head? = some token) : ∃ rest, v' = token :: rest :=
  List.head?_eq_some_iff.1 (h.trans hv)

theorem nextKind_of_head? {v v' : List Token} (h : v'.head? = v.head?) :
    nextKind v' = nextKind v := by
  cases v <;> cases v' <;> simp_all [nextKind]

/-! ## Firm readers -/

/--
What is read in front of `p` does not depend on what follows, beyond the next token, nor on
the budget.
-/
def Firm (m : Budget → Parse α) (p : Parser) : Prop :=
  ∀ b a q, b.Covers p.ahead → m b p = .ok a q → q.mode = .normal →
    ∃ w, p.ahead = w ++ q.ahead ∧ ∀ (b' : Budget) (rest : List Token), b'.Covers (w ++ rest) →
      rest.head? = q.ahead.head? → Takes (m b') w rest a

section

variable {m : Budget → Parse α} {p : Parser}

theorem firm_of_phrase {phrase : List Token → List Token → α → Prop}
    (hrecognizes : ∀ b, Recognizes (m b) phrase)
    (hcongr : ∀ {w rest rest' a}, phrase w rest a → rest'.head? = rest.head? →
      phrase w rest' a)
    (htakes : ∀ {b : Budget} {w rest a}, phrase w rest a → b.Covers (w ++ rest) →
      Takes (m b) w rest a) : Firm m p := by
  intro b a q _ h hq
  obtain ⟨w, hw, hphrase⟩ := hrecognizes b p a q h hq
  exact ⟨w, hw, fun b' rest hcovers hhead => htakes (hcongr hphrase hhead) hcovers⟩

theorem firm_of_not_ok (h : ∀ b a q, m b p = .ok a q → q.mode ≠ .normal) : Firm m p :=
  fun b a q _ hok hq => absurd hq (h b a q hok)

theorem Firm.exists_phrase {phrase : List Token → List Token → α → Prop} {b : Budget} {a : α}
    {q : Parser} (h : Firm m p) (hphrase : Recognizes (m b) phrase) (hcovers : b.Covers p.ahead)
    (hresult : m b p = .ok a q) (hq : q.mode = .normal) :
    ∃ w, p.ahead = w ++ q.ahead ∧ q = p.read w q.ahead ∧ phrase w q.ahead a ∧
      ∀ (b' : Budget) (rest : List Token), b'.Covers (w ++ rest) →
        rest.head? = q.ahead.head? → Takes (m b') w rest a := by
  obtain ⟨w, hw, htakes⟩ := h b a q hcovers hresult hq
  obtain ⟨w', hw', hphrase⟩ := hphrase p a q hresult hq
  obtain rfl : w' = w := List.append_cancel_right (hw'.symm.trans hw)
  have hread := htakes b q.ahead (hw ▸ hcovers) rfl p hw
  rw [hresult] at hread
  injection hread with _ hread
  exact ⟨w', hw, hread, hphrase, htakes⟩

theorem firm_pure (a : α) : Firm (fun _ => pure a) p := by
  intro b a' q _ h _
  cases h
  exact ⟨[], rfl, fun _ rest _ _ => takes_pure a rest⟩

theorem Firm.bind {f : Budget → α → Parse β} (hm : Firm m p)
    (hsteady : ∀ b a, Steady (f b a)) (hf : ∀ a q, Firm (f · a) q) :
    Firm (fun b => m b >>= f b) p := by
  intro b c r hcovers h hr
  obtain ⟨a, q, hresult, hrest⟩ := bind_ok h
  have hq := (hsteady b a).normal_of_ok hrest hr
  obtain ⟨u, hu, htakes⟩ := hm b a q hcovers hresult hq
  rw [hu] at hcovers
  obtain ⟨v, hv, htakes'⟩ := hf a q b c r hcovers.of_append hrest hr
  refine ⟨u ++ v, by rw [hu, hv, List.append_assoc], ?_⟩
  intro b' rest hcovers' hhead
  rw [List.append_assoc] at hcovers'
  refine .bind v (htakes b' (v ++ rest) hcovers' ?_) (htakes' b' rest hcovers'.of_append hhead) rfl
  rw [hv]
  exact head?_append v hhead

theorem Firm.bind_pure (hm : Firm m p) (g : α → β) :
    Firm (fun b => m b >>= fun a => pure (g a)) p :=
  hm.bind (fun _ a => steady_pure (g a)) fun a _ => firm_pure (g a)

theorem firm_expect (kind : Kind) (expectation : String) :
    Firm (fun _ => expect kind expectation) p := by
  intro b token q _ h _
  obtain ⟨hkind, hahead, -⟩ := expect_ok h
  exact ⟨[token], hahead, fun _ rest _ _ => takes_expect hkind expectation rest⟩

theorem firm_check {kind : Kind} (hkind : kind ≠ .eof) : Firm (fun _ => check kind) p := by
  intro b found q _ h _
  cases h
  refine ⟨[], rfl, fun _ rest _ hhead => ?_⟩
  rw [Parser.check_eq hkind, ← nextKind_of_head? hhead]
  by_cases hnext : nextKind rest = kind
  · rw [decide_eq_true hnext]
    exact takes_check_true hkind hnext
  · rw [decide_eq_false hnext]
    exact takes_check_false hkind hnext

theorem firm_accept {kind : Kind} (hkind : kind ≠ .eof) : Firm (fun _ => accept kind) p := by
  intro b found q _ h _
  cases found with
  | true =>
      obtain ⟨token, htoken, hahead, -⟩ := accept_true h
      exact ⟨[token], hahead, fun _ rest _ _ => takes_accept htoken rest⟩
  | false =>
      obtain ⟨rfl, hnext⟩ := accept_false h
      rw [Parser.check_eq hkind, decide_eq_false_iff_not] at hnext
      refine ⟨[], rfl, fun _ rest _ hhead => takes_accept_none hkind ?_⟩
      rwa [nextKind_of_head? hhead]

theorem Firm.bounded (loop : Nat → Nat → Parse α)
    (h : ∀ p, Firm (fun b => loop b.room b.rounds) p) :
    Firm (fun b => bounded (loop b.room)) p := by
  intro b a q hcovers hresult hq
  obtain ⟨w, hw, htakes⟩ := h p ⟨b.room, p.ahead.length⟩ a q
    ⟨hcovers.room, Nat.le_refl _⟩ hresult hq
  refine ⟨w, hw, fun b' rest hcovers' hhead p' hp' => ?_⟩
  exact htakes ⟨b'.room, p'.ahead.length⟩ rest ⟨hcovers'.room, by simp [hp']⟩ hhead p' hp'

end

/-! ## Pinpointing readers -/

/-- Behind `u`, with `next?` to come, the reader cannot but panic. -/
def Stuck (m : Budget → Parse α) (u : List Token) (next? : Option Token) : Prop :=
  ∀ (b : Budget) (p : Parser) (v : List Token), b.Covers p.ahead → p.mode = .normal →
    p.ahead = u ++ v → v.head? = next? → Panics (m b) p

structure Blames (m : Budget → Parse α) (b : Budget) (p : Parser) (u v : List Token) :
    Prop where
  ahead : p.ahead = u ++ v
  raised : ∃ cause, (parserOf (m b p)).errors =
    p.errors ++ [p.diagnose (v.headD p.stop) cause]
  stuck : Stuck m u v.head?

/-- If the reader panics in front of `p`, the tokens before the one it blames are `viable`. -/
def Pinpoints (m : Budget → Parse α) (viable : List Token → Prop) (b : Budget)
    (p : Parser) : Prop :=
  b.Covers p.ahead → p.mode = .normal → Panics (m b) p →
    ∃ u v, Blames m b p u v ∧ viable u

namespace Pinpoints

variable {m : Budget → Parse α} {viable : List Token → Prop} {b : Budget} {p : Parser}

theorem mono {viable' : List Token → Prop} (h : Pinpoints m viable b p)
    (himp : ∀ u, viable u → viable' u) : Pinpoints m viable' b p := by
  intro hcovers hmode hpanics
  obtain ⟨u, v, hblames, hviable⟩ := h hcovers hmode hpanics
  exact ⟨u, v, hblames, himp u hviable⟩

theorem congr {m' : Budget → Parse β} (h : Pinpoints m viable b p)
    (heq : ∀ {b' : Budget} {p' : Parser}, b'.Covers p'.ahead → p'.mode = .normal →
      p'.ahead.head? = p.ahead.head? → (parserOf (m b' p')).Echoes (parserOf (m' b' p'))) :
    Pinpoints m' viable b p := by
  intro hcovers hmode hpanics
  obtain ⟨hmodes, herrors⟩ := heq hcovers hmode rfl
  obtain ⟨u, v, ⟨hahead, ⟨cause, hraised⟩, hstuck⟩, hviable⟩ :=
    h hcovers hmode (hmodes.symm.trans hpanics)
  refine ⟨u, v, ⟨hahead, ⟨cause, herrors.trans hraised⟩, ?_⟩, hviable⟩
  intro b' p' v' hcovers' hmode' hahead' hhead
  have hsame : p'.ahead.head? = p.ahead.head? := by
    rw [hahead, hahead']
    exact head?_append u hhead
  exact (heq hcovers' hmode' hsame).1.trans (hstuck b' p' v' hcovers' hmode' hahead' hhead)

theorem of_parserOf {m' : Budget → Parse β} (h : Pinpoints m viable b p)
    (heq : ∀ {b' : Budget} {p' : Parser}, b'.Covers p'.ahead →
      p'.ahead.head? = p.ahead.head? → parserOf (m' b' p') = parserOf (m b' p')) :
    Pinpoints m' viable b p :=
  h.congr fun hcovers _ hhead => by rw [heq hcovers hhead]; exact ⟨rfl, rfl⟩

theorem bind_pure (h : Pinpoints m viable b p) (g : α → β) :
    Pinpoints (fun b => m b >>= fun a => pure (g a)) viable b p :=
  h.of_parserOf fun _ _ => parserOf_bind_pure ..

theorem map (h : Pinpoints m viable b p) (g : α → β) :
    Pinpoints (fun b => g <$> m b) viable b p :=
  h.of_parserOf fun _ _ => parserOf_map ..

/-- What follows a reader goes on where the reader has stopped, as long as it has not
panicked. -/
theorem bindWith {f : Budget → α → Parse β} {phrase : List Token → List Token → α → Prop}
    (g : Budget → Budget)
    (hg : ∀ {b w rest rest' a}, phrase w rest a → b.Covers (w ++ rest') → (g b).Covers rest')
    (hm : Pinpoints m viable b p) (hfirm : Firm m p) (hread : ∀ b, Steady (m b))
    (hphrase : ∀ b, Recognizes (m b) phrase) (hsteady : ∀ b a, Steady (f b a))
    (hf : ∀ {w q a}, phrase w q.ahead a →
      Pinpoints (f · a) (fun u => viable (w ++ u)) (g b) q) :
    Pinpoints (fun b => m b >>= f (g b)) viable b p := by
  intro hcovers hmode hpanics
  by_cases hfirst : Panics (m b) p
  · -- What follows a panic only echoes it.
    obtain ⟨u, v, ⟨hahead, ⟨cause, hraised⟩, hstuck⟩, hviable⟩ := hm hcovers hmode hfirst
    refine ⟨u, v, ⟨hahead, ⟨cause, ?_⟩, ?_⟩, hviable⟩
    · exact (hfirst.bind (hsteady (g b))).2.trans hraised
    · intro b' p' v' hcovers' hmode' hahead' hhead
      have hstops := hstuck b' p' v' hcovers' hmode' hahead' hhead
      exact (hstops.bind (hsteady (g b'))).1.trans hstops
  · -- What has been read is read by every other reader that sees the same next token.
    obtain ⟨a, q, hresult, hq⟩ := ok_of_not_panics (hread b) hfirst
    obtain ⟨w, hw, hq', hphrase, htakes⟩ :=
      hfirm.exists_phrase (hphrase b) hcovers hresult hq
    rw [hw] at hcovers
    have hrest : parserOf ((m b >>= f (g b)) p) = parserOf (f (g b) a q) := by
      rw [bind_of_ok hresult]
    unfold Panics at hpanics
    rw [hrest] at hpanics
    obtain ⟨u, v, ⟨hahead, ⟨cause, hraised⟩, hstuck⟩, hviable⟩ :=
      hf hphrase (hg hphrase hcovers) hq hpanics
    refine ⟨w ++ u, v, ⟨by rw [hw, hahead, List.append_assoc], ⟨cause, ?_⟩, ?_⟩, hviable⟩
    · rw [hrest, hraised, hq']
      rfl
    · intro b' p' v' hcovers' hmode' hahead' hhead
      rw [List.append_assoc] at hahead'
      have hread := htakes b' (u ++ v') (hahead' ▸ hcovers')
        (by rw [hahead]; exact head?_append u hhead) p' hahead'
      change (parserOf ((m b' >>= f (g b')) p')).mode = _
      rw [bind_of_ok hread]
      exact hstuck (g b') _ v' (hg hphrase (hahead' ▸ hcovers')) hmode' (Parser.ahead_read ..)
        hhead

theorem bind {f : Budget → α → Parse β} {phrase : List Token → List Token → α → Prop}
    (hm : Pinpoints m viable b p) (hfirm : Firm m p) (hread : ∀ b, Steady (m b))
    (hphrase : ∀ b, Recognizes (m b) phrase) (hsteady : ∀ b a, Steady (f b a))
    (hf : ∀ {w q a}, phrase w q.ahead a → Pinpoints (f · a) (fun u => viable (w ++ u)) b q) :
    Pinpoints (fun b => m b >>= f b) viable b p :=
  hm.bindWith id (fun _ => Budget.Covers.of_append) hfirm hread hphrase hsteady hf

theorem after {m : Parse α} {f : Budget → α → Parse β} {w rest : List Token} {a : α}
    (g : Budget → Budget) (hg : ∀ {b rest}, b.Covers (w ++ rest) → (g b).Covers rest)
    (hp : p.ahead = w ++ rest)
    (hm : ∀ {rest'}, rest'.head? = rest.head? → Takes m w rest' a)
    (hf : Pinpoints (f · a) (fun u => viable (w ++ u)) (g b) (p.read w rest)) :
    Pinpoints (fun b => m >>= f (g b)) viable b p := by
  intro hcovers hmode hpanics
  have hrest : parserOf ((m >>= f (g b)) p) = parserOf (f (g b) a (p.read w rest)) := by
    rw [bind_of_ok (hm rfl p hp)]
  unfold Panics at hpanics
  rw [hrest] at hpanics
  rw [hp] at hcovers
  obtain ⟨u, v, ⟨hahead, ⟨cause, hraised⟩, hstuck⟩, hviable⟩ := hf (hg hcovers) hmode hpanics
  rw [Parser.ahead_read] at hahead
  refine ⟨w ++ u, v, ⟨by rw [hp, hahead, List.append_assoc], ⟨cause, ?_⟩, ?_⟩, hviable⟩
  · rw [hrest, hraised]
    rfl
  · intro b' p' v' hcovers' hmode' hahead' hhead
    rw [List.append_assoc] at hahead'
    have hread := hm (by rw [hahead]; exact head?_append u hhead) p' hahead'
    change (parserOf ((m >>= f (g b')) p')).mode = _
    rw [bind_of_ok hread]
    exact hstuck (g b') _ v' (hg (hahead' ▸ hcovers')) hmode' (Parser.ahead_read ..) hhead

theorem advanceWith {f : Budget → Token → Parse β} (g : Budget → Budget)
    (hg : ∀ {b token rest}, b.Covers (token :: rest) → (g b).Covers rest)
    (hkind : nextKind p.ahead ≠ .eof)
    (hf : ∀ {token q}, token.kind = nextKind p.ahead →
      Pinpoints (f · token) (fun u => viable (token :: u)) (g b) q) :
    Pinpoints (fun b => Parse.advance >>= f (g b)) viable b p := by
  cases hp : p.ahead with
  | nil =>
      rw [hp] at hkind
      exact absurd rfl hkind
  | cons token rest =>
      refine .after g hg hp (fun _ => takes_advance token _) (hf ?_)
      rw [hp]
      rfl

theorem advance {f : Budget → Token → Parse β} (hkind : nextKind p.ahead ≠ .eof)
    (hf : ∀ {token q}, token.kind = nextKind p.ahead →
      Pinpoints (f · token) (fun u => viable (token :: u)) b q) :
    Pinpoints (fun b => Parse.advance >>= f b) viable b p :=
  .advanceWith id (Budget.Covers.of_append (v := [_])) hkind hf

theorem accept {f : Budget → Bool → Parse β} {kind : Kind} (hkind : kind ≠ .eof)
    (htrue : ∀ {token q}, token.kind = kind →
      Pinpoints (f · true) (fun u => viable (token :: u)) b q)
    (hfalse : Pinpoints (f · false) viable b p) :
    Pinpoints (fun b => Parse.accept kind >>= f b) viable b p := by
  by_cases hnext : nextKind p.ahead = kind
  · cases hp : p.ahead with
    | nil =>
        rw [hp] at hnext
        exact absurd hnext.symm hkind
    | cons token rest =>
        rw [hp] at hnext
        exact .after id Budget.Covers.of_append hp (fun _ => takes_accept hnext _) (htrue hnext)
  · refine .after (w := []) id id rfl (fun hhead => takes_accept_none hkind ?_) hfalse
    rwa [nextKind_of_head? hhead]

theorem check {f : Budget → Bool → Parse β} {kind : Kind} (hkind : kind ≠ .eof)
    (hf : ∀ {found}, found = decide (nextKind p.ahead = kind) →
      Pinpoints (f · found) viable b p) :
    Pinpoints (fun b => Parse.check kind >>= f b) viable b p := by
  by_cases hnext : nextKind p.ahead = kind
  · refine .after (w := []) id id rfl (fun hhead => takes_check_true hkind ?_)
      (hf (decide_eq_true hnext).symm)
    rwa [nextKind_of_head? hhead]
  · refine .after (w := []) id id rfl (fun hhead => takes_check_false hkind ?_)
      (hf (decide_eq_false hnext).symm)
    rwa [nextKind_of_head? hhead]

theorem of_normal (h : b.Covers p.ahead → p.mode = .normal →
    (parserOf (m b p)).mode = .normal) : Pinpoints m viable b p := by
  intro hcovers hmode hpanics
  exact absurd ((h hcovers hmode).symm.trans hpanics) (by decide)

theorem pure (a : α) : Pinpoints (fun _ => Pure.pure a) viable b p :=
  .of_normal fun _ hmode => hmode

theorem refused (hnil : viable [])
    (hm : ∀ {b' : Budget} {p' : Parser}, b'.Covers p'.ahead → p'.ahead.head? = p.ahead.head? →
      ∃ cause, (p'.record (p'.diagnose p'.current cause)).Echoes (parserOf (m b' p'))) :
    Pinpoints m viable b p := by
  intro hcovers hmode _
  refine ⟨[], p.ahead, ⟨rfl, ?_, ?_⟩, hnil⟩
  · obtain ⟨cause, -, herrors⟩ := hm hcovers rfl
    exact ⟨cause, by simpa [Parser.record, hmode, Parser.current] using herrors⟩
  · intro b' p' v hcovers' _ hahead hhead
    obtain ⟨cause, hmodes, -⟩ := hm hcovers' (by rw [hahead]; exact hhead)
    exact hmodes.trans (Parser.mode_record ..)

theorem expectWith {f : Budget → Token → Parse β} {kind : Kind} (expectation : String)
    (g : Budget → Budget) (hg : ∀ {b token rest}, b.Covers (token :: rest) → (g b).Covers rest)
    (hkind : kind ≠ .eof) (hnil : viable [])
    (hf : ∀ {token q}, token.kind = kind →
      Pinpoints (f · token) (fun u => viable (token :: u)) (g b) q) :
    Pinpoints (fun b => Parse.expect kind expectation >>= f (g b)) viable b p := by
  by_cases hnext : nextKind p.ahead = kind
  · cases hp : p.ahead with
    | nil =>
        rw [hp] at hnext
        exact absurd hnext.symm hkind
    | cons token rest =>
        rw [hp] at hnext
        exact .after g hg hp (fun _ => takes_expect hnext expectation _) (hf hnext)
  · refine .refused hnil fun {b' p'} _ hhead =>
      ⟨.unexpectedToken p'.current.describe expectation, ?_⟩
    have hcheck : p'.check kind = false := by
      rw [Parser.check_eq hkind, nextKind_of_head? hhead]
      exact decide_eq_false hnext
    have hexpect : Parse.expect kind expectation p' =
        Parse.fail p'.current (.unexpectedToken p'.current.describe expectation) p' := by
      rw [expect_eq, hcheck]
      rfl
    rw [bind_of_error hexpect]
    exact ⟨rfl, rfl⟩

theorem expect {f : Budget → Token → Parse β} {kind : Kind} (expectation : String)
    (hkind : kind ≠ .eof) (hnil : viable [])
    (hf : ∀ {token q}, token.kind = kind →
      Pinpoints (f · token) (fun u => viable (token :: u)) b q) :
    Pinpoints (fun b => Parse.expect kind expectation >>= f b) viable b p :=
  .expectWith expectation id (Budget.Covers.of_append (v := [_])) hkind hnil hf

theorem bounded (loop : Nat → Nat → Parse α)
    (h : ∀ rounds, Pinpoints (fun b => loop b.room b.rounds) viable ⟨b.room, rounds⟩ p) :
    Pinpoints (fun b => Parse.bounded (loop b.room)) viable b p := by
  intro hcovers hmode hpanics
  obtain ⟨u, v, ⟨hahead, hraised, hstuck⟩, hviable⟩ :=
    h p.ahead.length ⟨hcovers.room, Nat.le_refl _⟩ hmode hpanics
  refine ⟨u, v, ⟨hahead, hraised, ?_⟩, hviable⟩
  intro b' p' v' hcovers' hmode' hahead' hhead
  exact hstuck ⟨b'.room, p'.ahead.length⟩ p' v' ⟨hcovers'.room, Nat.le_refl _⟩ hmode' hahead'
    hhead

theorem nested {m : Nat → Parse α} (h : Pinpoints (fun b => m b.down.room) viable b p) :
    Pinpoints (fun b => Parse.nested b.room m) viable b p := by
  refine h.of_parserOf fun {b' p'} hcovers _ => ?_
  obtain ⟨_ | room', rounds'⟩ := b'
  · exact absurd hcovers.room (Nat.not_lt_zero _)
  · rfl

end Pinpoints

end Parse

end Pidgin
