import Pidgin.Proofs.Parse.Clean
import Pidgin.Proofs.Parse.Drift

/-!
# Two parsers in step

Two parsers that see the same tokens ahead read the same, and it does not matter
if they differ in what lies behind them, in what was reported before or in the
positions of their tokens.  It does not even matter what stands behind the
statement that is read, as long as no reader looks there.

`Lockstep` is what there is to know about such a pair: how the two are related
while a statement is read, how they are related behind it, and when the relation
can be relied on.  `Lockstep.Agrees` says of two readers that they keep a pair in
step.  It is closed under composition, so each form needs one lemma.
-/

namespace Pidgin

open Parse

/-! ## What can be told of a token -/

/-- What a reader can tell of a token, with its position moved by `view`. -/
def Token.seen (view : Position → Position) (token : Token) : Kind × String × Position :=
  (token.kind, token.describe, view token.pos)

/-- What is said in a diagnostic and where, with the position moved by `view`. -/
def Diagnostic.seen (view : Position → Position) (d : Diagnostic) : Cause × Position :=
  (d.cause, view d.pos)

section

variable {view : Position → Position} {token token' : Token}

theorem Token.kind_of_seen (h : token.seen view = token'.seen view) :
    token.kind = token'.kind :=
  congrArg Prod.fst h

theorem Token.describe_of_seen (h : token.seen view = token'.seen view) :
    token.describe = token'.describe :=
  congrArg (fun seen => seen.2.1) h

theorem Token.pos_of_seen (h : token.seen view = token'.seen view) :
    view token.pos = view token'.pos :=
  congrArg (fun seen => seen.2.2) h

theorem Token.describe_of_ne (h : token.kind ≠ .eof) : token.describe = token.text := by
  unfold Token.describe
  split
  · contradiction
  · rfl

theorem Token.text_of_seen (h : token.seen view = token'.seen view) (heof : token.kind ≠ .eof) :
    token.text = token'.text := by
  rw [← describe_of_ne heof, describe_of_seen h, describe_of_ne]
  rwa [← kind_of_seen h]

theorem Parser.cause_diagnose (h : token.seen view = token'.seen view) (cause : Cause)
    (p q : Parser) : (p.diagnose token cause).cause = (q.diagnose token' cause).cause := by
  have hkind := Token.kind_of_seen h
  by_cases hillegal : token.kind = .illegal
  · have htext := Token.text_of_seen h (by simp [hillegal])
    rw [hillegal] at hkind
    simp only [diagnose, hillegal, ← hkind, htext]
  · simp only [diagnose]
    rw [← hkind]
    split <;> simp_all

theorem Parser.seen_diagnose (h : token.seen view = token'.seen view) (cause : Cause)
    (p q : Parser) : (p.diagnose token cause).seen view = (q.diagnose token' cause).seen view :=
  Prod.ext (cause_diagnose h cause p q) (Token.pos_of_seen h)

theorem Literal.ofToken_of_seen (h : token.seen view = token'.seen view) :
    Literal.ofToken token = Literal.ofToken token' := by
  have hkind := Token.kind_of_seen h
  have hdescribe := Token.describe_of_seen h
  unfold Literal.ofToken
  rw [← hkind, ← hdescribe]
  split
  iterate 3
    rename_i hword
    rw [Token.text_of_seen h (by simp [hword])]
  all_goals rfl

end

theorem Parser.check_eq_current (p : Parser) (kind : Kind) :
    p.check kind = (!p.atEnd && decide (p.current.kind = kind)) := by
  unfold check atEnd current
  cases p.ahead <;> simp

namespace Parse

variable {α : Type}

/-- The loop needs no more rounds than there are tokens ahead. -/
def Settles (loop : Nat → Parse α) : Prop :=
  ∀ (rounds : Nat) (p : Parser), p.ahead.length ≤ rounds → loop (rounds + 1) p = loop rounds p

theorem Settles.bounded_eq {loop : Nat → Parse α} (hloop : Settles loop) {p : Parser}
    {rounds : Nat} (h : p.ahead.length ≤ rounds) : bounded loop p = loop rounds p := by
  induction h with
  | refl => rfl
  | step h ih => rw [ih, hloop _ p h]

end Parse

/-! ## The pair -/

/-- Where a pair of parsers stands: inside a statement, inside it and in front of a token of
a known kind, or behind it. -/
inductive Stage where
  | inside
  | before (kind : Kind)
  | after

structure Lockstep where
  view : Position → Position
  /-- How many tokens more the first parser has behind it. -/
  offset : Nat
  near : Parser → Parser → Prop
  past : Parser → Parser → Prop
  /-- The second parser can go on to read a statement. -/
  live : Parser → Prop
  /-- The second parser can have come to the end of a statement. -/
  clean : Parser → Prop
  /-- Statements may have statements inside them. -/
  composite : Prop
  past_of_near {p q : Parser} (h : near p q) : past p q
  cursor_eq {p q : Parser} (h : past p q) : p.cursor = q.cursor + offset
  seen_current {p q : Parser} (h : near p q) : p.current.seen view = q.current.seen view
  atEnd_eq {p q : Parser} (h : near p q) : p.atEnd = q.atEnd
  limit_eq {p q : Parser} (h : near p q) : p.limit = q.limit
  near_shift {p q : Parser} (h : near p q) (hkind : q.current.kind ≠ .semicolon)
    (hlive : live q.shift) : near p.shift q.shift
  past_shift {p q : Parser} (h : near p q) (hclean : clean q.shift) : past p.shift q.shift
  near_record {p q : Parser} {token token' : Token} {cause : Cause} (h : near p q)
    (hseen : token.seen view = token'.seen view)
    (hlive : live (q.record (q.diagnose token' cause))) :
    near (p.record (p.diagnose token cause)) (q.record (q.diagnose token' cause))
  past_record {p q : Parser} {token token' : Token} {cause : Cause} (h : past p q)
    (hseen : token.seen view = token'.seen view)
    (hclean : clean (q.record (q.diagnose token' cause))) :
    past (p.record (p.diagnose token cause)) (q.record (q.diagnose token' cause))
  live_of_drifts {q r : Parser} (h : q.Drifts r) (hlive : live r) : live q
  clean_of_drifts {q r : Parser} (h : q.Drifts r) (hclean : clean r) : clean q
  clean_of_live {q : Parser} (h : live q) : clean q
  live_of_clean {q : Parser} (h : clean q) (hgoes : q.ahead ≠ [] ∨ q.mode = .panicking) : live q
  composite_of_near {p q : Parser} (h : near p q)
    (hkind : q.current.kind = .lbrace ∨ q.current.kind = .abi) : composite
  near_of_past (hcomposite : composite) {p q : Parser} (h : past p q) (hlive : live q) : near p q
  check_naso (hcomposite : composite) {p q : Parser} (h : past p q) :
    p.check .naso = q.check .naso

namespace Lockstep

variable {L : Lockstep} {s t u : Stage} {p q r : Parser}

def Related (L : Lockstep) : Stage → Parser → Parser → Prop
  | .inside => L.near
  | .before kind => fun p q => L.near p q ∧ q.current.kind = kind
  | .after => L.past

/-- The relation can be relied on up to this point. -/
def Alive (L : Lockstep) : Stage → Parser → Prop
  | .after => L.clean
  | _ => L.live

theorem Related.past (h : L.Related s p q) : L.past p q := by
  cases s with
  | inside => exact L.past_of_near h
  | before kind => exact L.past_of_near h.1
  | after => exact h

theorem Alive.clean (h : L.Alive s q) : L.clean q := by
  cases s with
  | inside => exact L.clean_of_live h
  | before kind => exact L.clean_of_live h
  | after => exact h

theorem Alive.of_drifts (hr : L.Alive s r) (h : q.Drifts r) : L.Alive s q := by
  cases s with
  | inside => exact L.live_of_drifts h hr
  | before kind => exact L.live_of_drifts h hr
  | after => exact L.clean_of_drifts h hr

theorem Alive.of_goes (h : L.Alive s q) (hgoes : q.ahead ≠ [] ∨ q.mode = .panicking)
    (t : Stage) : L.Alive t q := by
  cases t with
  | inside => exact L.live_of_clean h.clean hgoes
  | before kind => exact L.live_of_clean h.clean hgoes
  | after => exact h.clean

theorem Alive.of_panicking (h : L.Alive s q) (hmode : q.mode = .panicking) (t : Stage) :
    L.Alive t q :=
  h.of_goes (.inr hmode) t

/-- What stands behind a statement differs no more than what stands inside it. -/
def Seamless (L : Lockstep) : Prop := ∀ {p q : Parser}, L.past p q → L.near p q

theorem kind_current (h : L.near p q) : p.current.kind = q.current.kind :=
  Token.kind_of_seen (L.seen_current h)

theorem check_eq (h : L.near p q) (kind : Kind) : p.check kind = q.check kind := by
  rw [Parser.check_eq_current, Parser.check_eq_current, L.atEnd_eq h, kind_current h]

/-! ## Readers that agree -/

section

variable {α β γ δ : Type}

def Matches (L : Lockstep) (t : Stage) (g : α → γ) :
    EStateM.Result Diagnostic Parser α → EStateM.Result Diagnostic Parser α → Prop
  | .ok a p, .ok b q => g a = g b ∧ L.Related t p q
  | .error d p, .error e q => d.seen L.view = e.seen L.view ∧ L.past p q
  | _, _ => False

/--
Two readers agree if they take a pair at stage `s` to one at stage `t`, with outcomes that
match, wherever the second one comes to an end that can be relied on.  Such an end asks for
a start that can be.
-/
structure Agrees (L : Lockstep) (s t : Stage) (g : α → γ) (m m' : Parse α) : Prop where
  left : Loose m
  right : Loose m'
  demands {q : Parser} (halive : L.Alive t (parserOf (m' q))) : L.Alive s q
  agree {p q : Parser} (h : L.Related s p q) (halive : L.Alive t (parserOf (m' q))) :
    L.Matches t g (m p) (m' q)

variable {g : α → γ} {h : β → δ} {m m' : Parse α} {k k' : α → Parse β}

theorem Matches.exists_ok {result : EStateM.Result Diagnostic Parser α} {b : α}
    (h : L.Matches t g result (.ok b q)) :
    ∃ a p, result = .ok a p ∧ g a = g b ∧ L.Related t p q := by
  cases result with
  | ok a p => exact ⟨a, p, rfl, h⟩
  | error d p => exact h.elim

theorem Matches.exists_error {result : EStateM.Result Diagnostic Parser α} {e : Diagnostic}
    (h : L.Matches t g result (.error e q)) :
    ∃ d p, result = .error d p ∧ d.seen L.view = e.seen L.view ∧ L.past p q := by
  cases result with
  | ok a p => exact h.elim
  | error d p => exact ⟨d, p, rfl, h⟩

theorem demands_of_loose (hm : Loose m') (halive : L.Alive s (parserOf (m' q))) : L.Alive s q :=
  halive.of_drifts (hm.drifts q)

theorem demands_of_ahead (hm : Loose m')
    (hahead : ∀ b r, m' q = .ok b r → q.ahead ≠ []) (halive : L.Alive t (parserOf (m' q))) :
    L.Alive s q := by
  cases hresult : m' q with
  | ok b r =>
      rw [hresult] at halive
      exact (halive.of_drifts (hm.of_ok hresult)).of_goes (.inl (hahead b r hresult)) s
  | error e r =>
      rw [hresult] at halive
      exact (halive.of_panicking (hm.panics hresult) s).of_drifts (hm.of_error hresult)

theorem Agrees.bind (hm : L.Agrees s t g m m')
    (hk : ∀ a b, g a = g b → L.Agrees t u h (k a) (k' b)) :
    L.Agrees s u h (m >>= k) (m' >>= k') where
  left := hm.left.bind fun a => (hk a a rfl).left
  right := hm.right.bind fun b => (hk b b rfl).right
  demands {q} halive := by
    apply hm.demands
    cases hq : m' q with
    | ok b r =>
        rw [bind_of_ok hq] at halive
        exact (hk b b rfl).demands halive
    | error e r =>
        rw [bind_of_error hq] at halive
        exact halive.of_panicking (hm.right.panics hq) t
  agree {p q} hpq halive := by
    cases hq : m' q with
    | ok b r =>
        rw [bind_of_ok hq] at halive ⊢
        have hmatch := hm.agree hpq (by
          rw [hq]
          exact (hk b b rfl).demands halive)
        rw [hq] at hmatch
        obtain ⟨a, p', hp, hview, hrel⟩ := hmatch.exists_ok
        rw [bind_of_ok hp]
        exact (hk a b hview).agree hrel halive
    | error e r =>
        rw [bind_of_error hq] at halive ⊢
        have hmatch := hm.agree hpq (by
          rw [hq]
          exact halive.of_panicking (hm.right.panics hq) t)
        rw [hq] at hmatch
        obtain ⟨d, p', hp, hseen, hpast⟩ := hmatch.exists_error
        rw [bind_of_error hp]
        exact ⟨hseen, hpast⟩

theorem agrees_pure {a b : α} (hview : g a = g b) : L.Agrees s s g (pure a) (pure b) where
  left := loose_pure a
  right := loose_pure b
  demands halive := halive
  agree hpq _ := ⟨hview, hpq⟩

theorem Agrees.bind_pure (hm : L.Agrees s t g m m') {c c' : α → β}
    (hc : ∀ a b, g a = g b → h (c a) = h (c' b)) :
    L.Agrees s t h (m >>= fun a => pure (c a)) (m' >>= fun b => pure (c' b)) :=
  hm.bind fun a b hview => agrees_pure (hc a b hview)

theorem Agrees.map (hm : L.Agrees s t g m m') {c c' : α → β}
    (hc : ∀ a b, g a = g b → h (c a) = h (c' b)) : L.Agrees s t h (c <$> m) (c' <$> m') := by
  rw [← bind_pure_comp, ← bind_pure_comp]
  exact hm.bind_pure hc

theorem Agrees.before (hm : L.Agrees .inside t g m m') (kind : Kind) :
    L.Agrees (.before kind) t g m m' :=
  ⟨hm.left, hm.right, hm.demands, fun hpq => hm.agree hpq.1⟩

theorem Agrees.reenter (hm : L.Agrees s .after g m m') (hcomposite : L.composite) :
    L.Agrees s .inside g m m' where
  left := hm.left
  right := hm.right
  demands halive := hm.demands (L.clean_of_live halive)
  agree {p q} hpq halive := by
    have hmatch := hm.agree hpq (L.clean_of_live halive)
    cases hq : m' q with
    | ok b r =>
        rw [hq] at hmatch halive
        obtain ⟨a, p', hp, hview, hpast⟩ := hmatch.exists_ok
        rw [hp]
        exact ⟨hview, L.near_of_past hcomposite hpast halive⟩
    | error e r =>
        rw [hq] at hmatch
        obtain ⟨d, p', hp, hseen, hpast⟩ := hmatch.exists_error
        rw [hp]
        exact ⟨hseen, hpast⟩

/-! ## Single steps -/

theorem agrees_fail {token token' : Token} (hseen : token.seen L.view = token'.seen L.view)
    (cause : Cause) : L.Agrees s t g (fail token cause) (fail token' cause) where
  left := loose_fail token cause
  right := loose_fail token' cause
  demands := demands_of_ahead (loose_fail token' cause) nofun
  agree {p q} hpq halive :=
    ⟨Parser.seen_diagnose hseen cause p q, L.past_record hpq.past hseen halive.clean⟩

theorem agrees_current {f k : Token → Parse α}
    (hf : ∀ token token', token.seen L.view = token'.seen L.view →
      L.Agrees .inside t g (f token) (k token')) :
    L.Agrees .inside t g (fun p => f p.current p) (fun q => k q.current q) where
  left := ⟨fun p => (hf p.current _ rfl).left.drifts p, fun h => (hf _ _ rfl).left.panics h⟩
  right := ⟨fun q => (hf q.current _ rfl).right.drifts q, fun h => (hf _ _ rfl).right.panics h⟩
  demands {q} halive := (hf q.current _ rfl).demands halive
  agree hpq halive := (hf _ _ (L.seen_current hpq)).agree hpq halive

theorem agrees_dispatch {f k : Kind → Parse α}
    (hf : ∀ kind, L.Agrees (.before kind) t g (f kind) (k kind)) :
    L.Agrees .inside t g (fun p => f p.current.kind p) (fun q => k q.current.kind q) where
  left := ⟨fun p => (hf p.current.kind).left.drifts p, fun h => (hf _).left.panics h⟩
  right := ⟨fun q => (hf q.current.kind).right.drifts q, fun h => (hf _).right.panics h⟩
  demands {q} halive := (hf q.current.kind).demands halive
  agree {p q} hpq halive := by
    rw [kind_current hpq]
    exact (hf q.current.kind).agree ⟨hpq, rfl⟩ halive

theorem agrees_cond {test : Parser → Bool} {k k' : Parse α}
    (htest : ∀ {p q}, L.near p q → test p = test q) (htrue : L.Agrees .inside t g m m')
    (hfalse : L.Agrees .inside t g k k') :
    L.Agrees .inside t g (fun p => if test p then m p else k p)
      (fun q => if test q then m' q else k' q) where
  left := htrue.left.ite hfalse.left test
  right := htrue.right.ite hfalse.right test
  demands {q} halive := by
    split at halive
    · exact htrue.demands halive
    · exact hfalse.demands halive
  agree {p q} hpq halive := by
    rw [htest hpq]
    split at halive <;> rename_i hcase
    · simp only [hcase, if_true]
      exact htrue.agree hpq halive
    · simp only [hcase]
      exact hfalse.agree hpq halive

theorem agrees_check {kind : Kind} {f f' : Bool → Parse α}
    (htrue : L.Agrees (.before kind) t g (f true) (f' true))
    (hfalse : L.Agrees .inside t g (f false) (f' false)) :
    L.Agrees .inside t g (check kind >>= f) (check kind >>= f') where
  left := (steady_check kind).loose.bind fun found => by
    cases found with
    | true => exact htrue.left
    | false => exact hfalse.left
  right := (steady_check kind).loose.bind fun found => by
    cases found with
    | true => exact htrue.right
    | false => exact hfalse.right
  demands {q} halive := by
    rw [bind_of_ok (show check kind q = .ok (q.check kind) q from rfl)] at halive
    cases hcheck : q.check kind <;> rw [hcheck] at halive
    · exact hfalse.demands halive
    · exact htrue.demands halive
  agree {p q} hpq halive := by
    rw [bind_of_ok (show check kind q = .ok (q.check kind) q from rfl)] at halive ⊢
    rw [bind_of_ok (show check kind p = .ok (p.check kind) p from rfl), check_eq hpq kind]
    cases hcheck : q.check kind <;> rw [hcheck] at halive
    · exact hfalse.agree hpq halive
    · refine htrue.agree ⟨hpq, ?_⟩ halive
      rw [Parser.check_eq_current, Bool.and_eq_true] at hcheck
      exact of_decide_eq_true hcheck.2

theorem agrees_advance (kind : Kind) (hkind : kind = .semicolon → L.Seamless) :
    L.Agrees (.before kind) .inside (Token.seen L.view) advance advance where
  left := steady_advance.loose
  right := steady_advance.loose
  demands := demands_of_loose (s := .inside) steady_advance.loose
  agree {p q} hpq halive := by
    refine ⟨L.seen_current hpq.1, ?_⟩
    by_cases hsemicolon : kind = .semicolon
    · exact hkind hsemicolon (L.past_shift hpq.1 (L.clean_of_live halive))
    · exact L.near_shift hpq.1 (hpq.2 ▸ hsemicolon) halive

/-- Readers that step over a token first.  If that token ends a statement, then what follows
must not rely on what stands behind it. -/
theorem agrees_advance_bind {f k : Token → Parse α}
    (hinside : ∀ token token', token.seen L.view = token'.seen L.view →
      token'.kind ≠ .semicolon → L.Agrees .inside .inside g (f token) (k token'))
    (hafter : ∀ token token', token.seen L.view = token'.seen L.view →
      token'.kind = .semicolon → L.Agrees .after .inside g (f token) (k token')) :
    L.Agrees .inside .inside g (advance >>= f) (advance >>= k) := by
  have hright : Loose (advance >>= k) := steady_advance.loose.bind fun token => by
    by_cases hkind : token.kind = .semicolon
    · exact (hafter token token rfl hkind).right
    · exact (hinside token token rfl hkind).right
  refine ⟨steady_advance.loose.bind fun token => ?_, hright,
    fun {q} => demands_of_loose (s := .inside) hright, ?_⟩
  · by_cases hkind : token.kind = .semicolon
    · exact (hafter token token rfl hkind).left
    · exact (hinside token token rfl hkind).left
  · intro p q hpq halive
    rw [bind_of_ok (show advance q = .ok q.current q.shift from rfl)] at halive ⊢
    rw [bind_of_ok (show advance p = .ok p.current p.shift from rfl)]
    have hseen := L.seen_current hpq
    by_cases hkind : q.current.kind = .semicolon
    · have hk := hafter _ _ hseen hkind
      exact hk.agree (L.past_shift hpq (hk.demands halive)) halive
    · have hk := hinside _ _ hseen hkind
      exact hk.agree (L.near_shift hpq hkind (hk.demands halive)) halive

theorem agrees_word {kind : Kind} (hkind : kind ≠ .semicolon ∧ kind ≠ .eof) :
    L.Agrees (.before kind) .inside (fun token => (token.text, L.view token.pos))
      advance advance where
  left := steady_advance.loose
  right := steady_advance.loose
  demands := demands_of_loose (s := .inside) steady_advance.loose
  agree {p q} hpq halive := by
    have hseen := L.seen_current hpq.1
    refine ⟨Prod.ext (Token.text_of_seen hseen ?_) (Token.pos_of_seen hseen),
      L.near_shift hpq.1 (hpq.2 ▸ hkind.1) halive⟩
    rw [kind_current hpq.1, hpq.2]
    exact hkind.2

theorem agrees_missing (expectation : String) :
    L.Agrees .inside t g
      (fun p => fail p.current (.unexpectedToken p.current.describe expectation) p)
      (fun q => fail q.current (.unexpectedToken q.current.describe expectation) q) := by
  refine agrees_current (f := fun token => fail token (.unexpectedToken token.describe expectation))
    (k := fun token => fail token (.unexpectedToken token.describe expectation)) ?_
  intro token token' hseen
  rw [Token.describe_of_seen hseen]
  exact agrees_fail hseen _

theorem agrees_expect (kind : Kind) (expectation : String)
    (hkind : kind ≠ .semicolon ∧ kind ≠ .eof) :
    L.Agrees .inside .inside (fun token => (token.text, L.view token.pos))
      (expect kind expectation) (expect kind expectation) :=
  agrees_check (agrees_word hkind) (agrees_missing expectation)

theorem agrees_close (kind : Kind) (expectation : String) :
    L.Agrees .inside .after (fun _ => ()) (expect kind expectation) (expect kind expectation) where
  left := (steady_expect kind expectation).loose
  right := (steady_expect kind expectation).loose
  demands {q} := demands_of_ahead (steady_expect kind expectation).loose fun token r h => by
    rw [(expect_ok h).2.1]
    exact List.cons_ne_nil _ _
  agree {p q} hpq halive := by
    rw [expect_eq] at halive
    rw [expect_eq, expect_eq, check_eq hpq kind]
    split at halive
    · rename_i hcheck
      rw [if_pos hcheck, if_pos hcheck]
      exact ⟨rfl, L.past_shift hpq halive⟩
    · rename_i hcheck
      rw [if_neg hcheck, if_neg hcheck]
      exact (agrees_missing expectation).agree hpq halive

theorem agrees_accept (kind : Kind) (hkind : kind ≠ .semicolon) :
    L.Agrees .inside .inside id (accept kind) (accept kind) :=
  agrees_check ((agrees_advance kind fun h => absurd h hkind).bind_pure fun _ _ _ => rfl)
    (agrees_pure rfl)

/-- Behind a statement the one thing that is looked for is its other branch, and where that is
found the statement goes on. -/
theorem agrees_accept_naso (hcomposite : L.composite) {f f' : Bool → Parse α}
    (htrue : L.Agrees .inside .after g (f true) (f' true))
    (hfalse : L.Agrees .after .after g (f false) (f' false)) :
    L.Agrees .after .after g (accept .naso >>= f) (accept .naso >>= f') := by
  have hright : Loose (accept .naso >>= f') := (steady_accept .naso).loose.bind fun found => by
    cases found with
    | true => exact htrue.right
    | false => exact hfalse.right
  refine ⟨(steady_accept .naso).loose.bind fun found => ?_, hright,
    fun {q} => demands_of_loose (s := .after) hright, ?_⟩
  · cases found with
    | true => exact htrue.left
    | false => exact hfalse.left
  · intro p q hpq halive
    have hnaso := L.check_naso hcomposite hpq
    cases hcheck : q.check .naso with
    | false =>
        have hq : accept .naso q = .ok false q := by simp [accept_eq, hcheck]
        have hp : accept .naso p = .ok false p := by simp [accept_eq, hnaso, hcheck]
        rw [bind_of_ok hq] at halive ⊢
        rw [bind_of_ok hp]
        exact hfalse.agree hpq halive
    | true =>
        have hq : accept .naso q = .ok true q.shift := by simp [accept_eq, hcheck]
        have hp : accept .naso p = .ok true p.shift := by simp [accept_eq, hnaso, hcheck]
        rw [bind_of_ok hq] at halive ⊢
        rw [bind_of_ok hp]
        have hlive := htrue.demands halive
        have hnear := L.near_of_past hcomposite hpq (L.live_of_drifts (.shift .refl) hlive)
        have hkind : q.current.kind ≠ .semicolon := by
          obtain ⟨token, rest, hahead, hkind⟩ := (Parser.check_eq_true_iff ..).1 hcheck
          rw [Parser.current_of_ahead hahead, hkind]
          nofun
        exact htrue.agree (L.near_shift hnear hkind hlive) halive

theorem agrees_report {token token' : Token} (hseen : token.seen L.view = token'.seen L.view)
    (cause : Cause) :
    L.Agrees .inside .inside (Diagnostic.seen L.view) (Parse.report token cause)
      (Parse.report token' cause) where
  left := loose_report token cause
  right := loose_report token' cause
  demands halive := halive.of_drifts (.record .refl _)
  agree {p q} hpq halive := ⟨Parser.seen_diagnose hseen cause p q, L.near_record hpq hseen halive⟩

theorem agrees_tooDeep : L.Agrees .inside t g tooDeep tooDeep where
  left := steady_tooDeep.loose
  right := steady_tooDeep.loose
  demands {q} := demands_of_ahead steady_tooDeep.loose nofun
  agree {p q} hpq halive := by
    rw [tooDeep_eq, tooDeep_eq, L.limit_eq hpq]
    exact (agrees_fail (s := .inside) (L.seen_current hpq) _).agree hpq halive

theorem agrees_bounded {loop loop' : Nat → Parse α} (hleft : Settles loop)
    (hright : Settles loop') (h : ∀ rounds, L.Agrees s t g (loop rounds) (loop' rounds)) :
    L.Agrees s t g (bounded loop) (bounded loop') where
  left := ⟨fun p => (h p.ahead.length).left.drifts p, fun hp => (h _).left.panics hp⟩
  right := ⟨fun q => (h q.ahead.length).right.drifts q, fun hq => (h _).right.panics hq⟩
  demands {q} halive := (h q.ahead.length).demands halive
  agree {p q} hpq halive := by
    rw [hright.bounded_eq (Nat.le_max_right p.ahead.length q.ahead.length)] at halive ⊢
    rw [hleft.bounded_eq (Nat.le_max_left p.ahead.length q.ahead.length)]
    exact (h _).agree hpq halive

theorem Agrees.bind_of_failing (hm : L.Agrees s .after g m m') (hk : ∀ a, Loose (k a))
    (hk' : ∀ b, Loose (k' b))
    (hfails : ∀ {p q b r}, L.Related s p q → m' q = .ok b r → False) :
    L.Agrees s .after h (m >>= k) (m' >>= k') where
  left := hm.left.bind hk
  right := hm.right.bind hk'
  demands {q} halive := by
    apply hm.demands
    cases hq : m' q with
    | ok b r =>
        rw [bind_of_ok hq] at halive
        exact halive.of_drifts ((hk' b).drifts r)
    | error e r =>
        rw [bind_of_error hq] at halive
        exact halive
  agree {p q} hpq halive := by
    cases hq : m' q with
    | ok b r => exact (hfails hpq hq).elim
    | error e r =>
        rw [bind_of_error hq] at halive ⊢
        have hmatch := hm.agree hpq (by rwa [hq])
        rw [hq] at hmatch
        obtain ⟨d, p', hp, hseen, hpast⟩ := hmatch.exists_error
        rw [bind_of_error hp]
        exact ⟨hseen, hpast⟩

end

end Lockstep

/-! ## Twins -/

/-- A relation that tells nothing apart that a reader could see, neither inside a statement nor
behind it. -/
structure Twins (view : Position → Position) (offset : Nat) (alike : Parser → Parser → Prop) :
    Prop where
  cursor_eq {p q : Parser} (h : alike p q) : p.cursor = q.cursor + offset
  seen_current {p q : Parser} (h : alike p q) : p.current.seen view = q.current.seen view
  atEnd_eq {p q : Parser} (h : alike p q) : p.atEnd = q.atEnd
  limit_eq {p q : Parser} (h : alike p q) : p.limit = q.limit
  shift {p q : Parser} (h : alike p q) : alike p.shift q.shift
  record {p q : Parser} {token token' : Token} {cause : Cause} (h : alike p q)
    (hseen : token.seen view = token'.seen view) :
    alike (p.record (p.diagnose token cause)) (q.record (q.diagnose token' cause))

/-- Twins are in step, and this can be relied on everywhere. -/
def Twins.lockstep {view : Position → Position} {offset : Nat} {alike : Parser → Parser → Prop}
    (h : Twins view offset alike) : Lockstep where
  view
  offset
  near := alike
  past := alike
  live _ := True
  clean _ := True
  composite := True
  past_of_near hpq := hpq
  cursor_eq := h.cursor_eq
  seen_current := h.seen_current
  atEnd_eq := h.atEnd_eq
  limit_eq := h.limit_eq
  near_shift hpq _ _ := h.shift hpq
  past_shift hpq _ := h.shift hpq
  near_record hpq hseen _ := h.record hpq hseen
  past_record hpq hseen _ := h.record hpq hseen
  live_of_drifts _ _ := trivial
  clean_of_drifts _ _ := trivial
  clean_of_live _ := trivial
  live_of_clean _ _ := trivial
  composite_of_near _ _ := trivial
  near_of_past _ _ _ hpq _ := hpq
  check_naso _ p q hpq := by
    rw [Parser.check_eq_current, Parser.check_eq_current, h.atEnd_eq hpq,
      Token.kind_of_seen (h.seen_current hpq)]

end Pidgin
