import Mathlib.Tactic.Choose
import Pidgin.Proofs.Parse.Mirror

/-!
# Levels

A reader is handed the room that is left below the limit.  A session keeps the
level instead, as a counter that goes up where a level is entered and down again
where it is left, with or without a value.

A step that is made of the moves of a parser, and whose levels are those of the
counter, comes back to the level it was on.  Every reader is such a step on every
level, with the room that the counter leaves it.
-/

namespace Pidgin

open Parse

def Parse.openingAs (operand : Power → Parse Expr) : Opening → Token → Parse Expr
  | .literal => literal
  | .var => var
  | .unary => unary operand
  | .grouping => fun _ => grouping operand
  | .array => array operand

theorem Parse.opening_eq (operand : Power → Parse Expr) (token : Token) :
    opening operand token =
      match (Rule.ofKind token.kind).opening? with
      | some form => openingAs operand form token
      | none => fail token (.expectedExpression token.describe) := by
  unfold opening
  cases (Rule.ofKind token.kind).opening? with
  | none => rfl
  | some form => cases form <;> rfl

structure Session where
  parser : Parser
  depth : Nat

namespace Session

def ofTokens (tokens : List Token) (file : String) (limit : Nat) : Session :=
  ⟨.ofTokens tokens file limit, 0⟩

abbrev Step := EStateM Diagnostic Session

variable {α β : Type}

def after (s : Session) (step : Step α) : Session :=
  match step s with
  | .ok _ t => t
  | .error _ t => t

namespace Step

/-- A reader with the room that is left on the level of the session. -/
def ofReader (m : (room : Nat) → Parse α) : Step α := fun s =>
  match m (s.parser.limit - s.depth) s.parser with
  | .ok a p => .ok a { s with parser := p }
  | .error d p => .error d { s with parser := p }

/-- Go one level down and come back, with or without a value, if the limit allows it. -/
def nested (body : Step α) : Step α := fun s =>
  if s.parser.limit ≤ s.depth then ofReader (fun _ => tooDeep) s
  else
    match body { s with depth := s.depth + 1 } with
    | .ok a t => .ok a { t with depth := t.depth - 1 }
    | .error d t => .error d { t with depth := t.depth - 1 }

def attempt (step : Step α) : Step (Option α) := fun s =>
  match step s with
  | .ok a t => .ok (some a) t
  | .error d t => if t.parser.cursor = s.parser.cursor then .error d t else .ok none t

/-- Take the step and go on, whether it fails or not. -/
def quiet (step : Step α) : Step Unit := fun s => .ok () (s.after step)

def look (view : Parser → α) : Step α := fun s => .ok (view s.parser) s

def move (f : Parser → Parser) : Step Unit := fun s => .ok () { s with parser := f s.parser }

theorem after_ofReader (m : Nat → Parse α) (s : Session) :
    s.after (ofReader m) =
      { s with parser := parserOf (m (s.parser.limit - s.depth) s.parser) } := by
  unfold after ofReader
  cases m (s.parser.limit - s.depth) s.parser <;> rfl

theorem after_nested (body : Step α) (s : Session) :
    s.after (nested body) =
      if s.parser.limit ≤ s.depth then s.after (ofReader fun _ => (tooDeep : Parse α))
      else
        let t := { s with depth := s.depth + 1 }.after body
        { t with depth := t.depth - 1 } := by
  unfold after nested
  by_cases hlimit : s.parser.limit ≤ s.depth
  · simp only [if_pos hlimit]
  · simp only [if_neg hlimit]
    cases body { s with depth := s.depth + 1 } <;> rfl

section

variable {step : Step α} {next : α → Step β} {handler : Diagnostic → Step α} {s t : Session}

theorem bind_of_ok {a : α} (h : step s = .ok a t) : (step >>= next) s = next a t := by
  change EStateM.bind step next s = _
  simp only [EStateM.bind, h]

theorem bind_of_error {d : Diagnostic} (h : step s = .error d t) :
    (step >>= next) s = .error d t := by
  change EStateM.bind step next s = _
  simp only [EStateM.bind, h]

theorem tryCatch_of_ok {a : α} (h : step s = .ok a t) : tryCatch step handler s = .ok a t := by
  change EStateM.tryCatch step handler s = _
  simp only [EStateM.tryCatch, h]

theorem tryCatch_of_error {d : Diagnostic} (h : step s = .error d t) :
    tryCatch step handler s = handler d t := by
  change EStateM.tryCatch step handler s = _
  simp only [EStateM.tryCatch, h]
  rfl

theorem after_of_ok {a : α} (h : step s = .ok a t) : s.after step = t := by
  rw [after, h]

theorem after_of_error {d : Diagnostic} (h : step s = .error d t) : s.after step = t := by
  rw [after, h]

end

theorem attempt_eq (step : Step α) :
    attempt step = (look Parser.cursor >>= fun before =>
      tryCatch (step >>= fun a => look fun _ => some a) fun d =>
        look Parser.cursor >>= fun now =>
          if now = before then throw d else look fun _ => none) := by
  funext s
  rw [bind_of_ok (show look Parser.cursor s = .ok s.parser.cursor s from rfl), attempt]
  cases h : step s with
  | ok a t =>
      have hsome : (step >>= fun a => look fun _ => some a) s = .ok (some a) t := bind_of_ok h
      exact (tryCatch_of_ok hsome).symm
  | error d t =>
      have hfails : (step >>= fun a => look fun _ => some a) s = .error d t := bind_of_error h
      refine .trans ?_ (tryCatch_of_error hfails).symm
      rw [bind_of_ok (show look Parser.cursor t = .ok t.parser.cursor t from rfl)]
      dsimp only
      split <;> rfl

theorem quiet_eq (step : Step α) :
    quiet step = tryCatch (step >>= fun _ => look fun _ => ()) fun _ => look fun _ => () := by
  funext s
  cases h : step s with
  | ok a t =>
      have hdone : (step >>= fun _ => look fun _ => ()) s = .ok () t := bind_of_ok h
      rw [quiet, after_of_ok h]
      exact (tryCatch_of_ok hdone).symm
  | error d t =>
      have hfails : (step >>= fun _ => look fun _ => ()) s = .error d t := bind_of_error h
      rw [quiet, after_of_error h]
      refine .trans ?_ (tryCatch_of_error hfails).symm
      rfl

/-- The step is made of the moves of a parser.  It cannot look at the level that it is on, and
enters another one only by counting it. -/
inductive Counting : {α : Type} → Step α → Prop where
  | look {α : Type} (view : Parser → α) : Counting (look view)
  | shift : Counting (move Parser.shift)
  | record (d : Diagnostic) : Counting (move (·.record d))
  | synchronize : Counting (move Parser.synchronize)
  | throw {α : Type} (d : Diagnostic) : Counting (throw d : Step α)
  | bind {α β : Type} {step : Step α} {next : α → Step β} (hstep : Counting step)
      (hnext : ∀ a, Counting (next a)) : Counting (step >>= next)
  | tryCatch {α : Type} {step : Step α} {handler : Diagnostic → Step α} (hstep : Counting step)
      (hhandler : ∀ d, Counting (handler d)) : Counting (tryCatch step handler)
  | nested {α : Type} {body : Step α} (hbody : Counting body) : Counting (nested body)

theorem Counting.attempt {step : Step α} (h : step.Counting) : step.attempt.Counting := by
  rw [attempt_eq]
  refine .bind (.look _) fun before => .tryCatch (.bind h fun a => .look _) fun d => ?_
  refine .bind (.look _) fun now => ?_
  split
  · exact .throw d
  · exact .look _

theorem Counting.quiet {step : Step α} (h : step.Counting) : step.quiet.Counting := by
  rw [quiet_eq]
  exact .tryCatch (.bind h fun _ => .look _) fun _ => .look _

end Step

/-! ## What every step keeps -/

structure Keeps (s t : Session) : Prop where
  cursor : s.parser.cursor ≤ t.parser.cursor
  tokens : t.parser.tokens = s.parser.tokens
  stop : t.parser.stop = s.parser.stop
  file : t.parser.file = s.parser.file
  limit : t.parser.limit = s.parser.limit
  depth : t.depth = s.depth
  errors : s.parser.errors <+: t.parser.errors
  panics : (s.parser.mode = .panicking → s.parser.errors ≠ []) →
    t.parser.mode = .panicking → t.parser.errors ≠ []

namespace Keeps

variable {s t u : Session}

theorem refl (s : Session) : s.Keeps s :=
  ⟨Nat.le_refl _, rfl, rfl, rfl, rfl, rfl, List.prefix_refl _, id⟩

theorem trans (hst : s.Keeps t) (htu : t.Keeps u) : s.Keeps u where
  cursor := Nat.le_trans hst.cursor htu.cursor
  tokens := htu.tokens.trans hst.tokens
  stop := htu.stop.trans hst.stop
  file := htu.file.trans hst.file
  limit := htu.limit.trans hst.limit
  depth := htu.depth.trans hst.depth
  errors := hst.errors.trans htu.errors
  panics h := htu.panics (hst.panics h)

theorem of_drifts {p : Parser} (h : s.parser.Drifts p) : s.Keeps { s with parser := p } :=
  ⟨h.cursor_le, h.tokens_eq, h.stop_eq, h.file_eq, h.limit_eq, rfl, h.errors_prefix,
    h.errors_ne_nil⟩

theorem synchronize (s : Session) : s.Keeps { s with parser := s.parser.synchronize } where
  cursor := Parser.cursor_le_seek _ _
  tokens := Parser.tokens_synchronize _
  stop := rfl
  file := rfl
  limit := rfl
  depth := rfl
  errors := List.prefix_refl _
  panics _ := nofun

end Keeps

theorem Step.Counting.keeps {step : Step α} (h : step.Counting) (s : Session) :
    s.Keeps (s.after step) := by
  induction h generalizing s with
  | look view => exact .refl s
  | shift => exact .of_drifts (.shift .refl)
  | record d => exact .of_drifts (.record .refl d)
  | synchronize => exact .synchronize s
  | throw d => exact .refl s
  | @bind α β step next hstep hnext ihstep ihnext =>
      have hkeeps := ihstep s
      cases hresult : step s with
      | ok a t =>
          rw [after_of_ok hresult] at hkeeps
          have hnext := ihnext a t
          rw [after, bind_of_ok hresult]
          exact hkeeps.trans hnext
      | error d t =>
          rw [after_of_error hresult] at hkeeps
          rwa [after_of_error (bind_of_error hresult)]
  | @tryCatch α step handler hstep hhandler ihstep ihhandler =>
      have hkeeps := ihstep s
      cases hresult : step s with
      | ok a t =>
          rw [after_of_ok hresult] at hkeeps
          rwa [after_of_ok (tryCatch_of_ok hresult)]
      | error d t =>
          rw [after_of_error hresult] at hkeeps
          have hhandler := ihhandler d t
          rw [after, tryCatch_of_error hresult]
          exact hkeeps.trans hhandler
  | nested hbody ih =>
      rw [after_nested]
      split
      · rw [after_ofReader]
        exact .of_drifts (steady_tooDeep.loose.drifts s.parser)
      · -- One level down the counter is one higher, and it is back when the level is left.
        have hinside := ih { s with depth := s.depth + 1 }
        exact ⟨hinside.cursor, hinside.tokens, hinside.stop, hinside.file, hinside.limit,
          by simp [hinside.depth], hinside.errors, hinside.panics⟩

/-! ## Room and level -/

section

variable (m : Nat → Parse α)

theorem Step.ofReader_nested :
    ofReader (fun room => Parse.nested room m) = nested (ofReader m) := by
  funext s
  unfold nested
  split
  · have hroom : s.parser.limit - s.depth = 0 := by omega
    rw [ofReader, hroom]
    rfl
  · have hroom : s.parser.limit - s.depth = s.parser.limit - (s.depth + 1) + 1 := by omega
    rw [ofReader, hroom, ofReader, Parse.nested]
    cases m (s.parser.limit - (s.depth + 1)) s.parser <;> rfl

theorem Step.ofReader_attempt :
    ofReader (fun room => Parse.attempt (m room)) = attempt (ofReader m) := by
  funext s
  cases hresult : m (s.parser.limit - s.depth) s.parser with
  | ok a p => simp only [attempt, ofReader, Parse.attempt, hresult]
  | error d p =>
      by_cases hstays : p.cursor = s.parser.cursor <;>
        simp only [attempt, ofReader, Parse.attempt, hresult, hstays, if_true, if_false]

variable {m}

theorem Step.ofReader_bind (hm : ∀ room, Loose (m room)) (f : α → Nat → Parse β) :
    ofReader (fun room => m room >>= fun a => f a room) =
      ofReader m >>= fun a => ofReader (f a) := by
  funext s
  change ofReader _ s = EStateM.bind _ _ s
  unfold EStateM.bind ofReader
  cases hresult : m (s.parser.limit - s.depth) s.parser with
  | ok a p => simp only [Parse.bind_of_ok hresult, ((hm _).of_ok hresult).limit_eq]
  | error d p => simp only [Parse.bind_of_error hresult]

end

/--
Readers are handed the room that a counter leaves them: it goes up with each level and down
again behind it, along any composition of readers, and also where a failure is passed over.
-/
structure Counts (s : Session) : Prop where
  nested {α : Type} (body : Nat → Parse α) :
    Step.ofReader (fun room => Parse.nested room body) s = Step.nested (.ofReader body) s
  bind {α β : Type} {m : Nat → Parse α} (hm : ∀ room, Loose (m room)) (f : α → Nat → Parse β) :
    Step.ofReader (fun room => m room >>= fun a => f a room) s =
      (Step.ofReader m >>= fun a => Step.ofReader (f a)) s
  attempt {α : Type} (m : Nat → Parse α) :
    Step.ofReader (fun room => Parse.attempt (m room)) s = Step.attempt (.ofReader m) s

theorem counts (s : Session) : s.Counts where
  nested body := congrFun (Step.ofReader_nested body) s
  bind hm f := congrFun (Step.ofReader_bind hm f) s
  attempt m := congrFun (Step.ofReader_attempt m) s

/-- Wherever the limit is at most `n` levels away, the step is one that counts its levels. -/
def Step.Counted (n : Nat) (step : Step α) : Prop :=
  ∃ counting : Step α, counting.Counting ∧
    ∀ s : Session, s.parser.limit ≤ s.depth + n → step s = counting s

variable {n : Nat}

namespace Step

theorem Counting.counted {step : Step α} (h : step.Counting) : step.Counted n :=
  ⟨step, h, fun _ _ => rfl⟩

namespace Counted

variable {step : Step α}

theorem bind {next : α → Step β} (hstep : step.Counted n) (hnext : ∀ a, (next a).Counted n) :
    (step >>= next).Counted n := by
  obtain ⟨counting, hcounting, hsame⟩ := hstep
  choose more hmore hsames using hnext
  refine ⟨counting >>= more, .bind hcounting hmore, fun s hs => ?_⟩
  have hkeeps := hcounting.keeps s
  cases hresult : counting s with
  | ok a t =>
      rw [after_of_ok hresult] at hkeeps
      rw [bind_of_ok hresult, bind_of_ok ((hsame s hs).trans hresult)]
      exact hsames a t (by rwa [hkeeps.limit, hkeeps.depth])
  | error d t => rw [bind_of_error hresult, bind_of_error ((hsame s hs).trans hresult)]

theorem attempt (hstep : step.Counted n) : step.attempt.Counted n := by
  obtain ⟨counting, hcounting, hsame⟩ := hstep
  refine ⟨counting.attempt, hcounting.attempt, fun s hs => ?_⟩
  rw [Step.attempt, Step.attempt, hsame s hs]

theorem quiet (hstep : step.Counted n) : step.quiet.Counted n := by
  obtain ⟨counting, hcounting, hsame⟩ := hstep
  refine ⟨counting.quiet, hcounting.quiet, fun s hs => ?_⟩
  rw [Step.quiet, Step.quiet, after, after, hsame s hs]

/-- One level down the limit is one level nearer, and at the limit there is no level below. -/
theorem nested {body : Step α} (h : ∀ k, n = k + 1 → body.Counted k) :
    (Step.nested body).Counted n := by
  cases n with
  | zero =>
      let idle : Step α := Step.look (fun p => p.diagnose p.current (.tooDeep p.limit)) >>= throw
      have hidle : idle.Counting := .bind (.look _) fun d => .throw d
      refine ⟨.nested idle, .nested hidle, fun s hs => ?_⟩
      have hlimit : s.parser.limit ≤ s.depth := hs
      rw [Step.nested, Step.nested, if_pos hlimit, if_pos hlimit]
  | succ n =>
      obtain ⟨counting, hcounting, hsame⟩ := h n rfl
      refine ⟨.nested counting, .nested hcounting, fun s hs => ?_⟩
      have hinside : s.parser.limit ≤ s.depth + 1 + n := by omega
      rw [Step.nested, Step.nested, hsame { s with depth := s.depth + 1 } hinside]

theorem keeps {s : Session} (h : step.Counted s.parser.limit) : s.Keeps (s.after step) := by
  obtain ⟨counting, hcounting, hsame⟩ := h
  rw [after, hsame s (Nat.le_add_left ..)]
  exact hcounting.keeps s

end Counted

end Step

/-- The reader is loose, and a step that counts its levels wherever the limit is at most `n` levels
away. -/
structure Counted (n : Nat) (m : (room : Nat) → Parse α) : Prop where
  loose (room : Nat) : Loose (m room)
  counted : (Step.ofReader m).Counted n

namespace Counted

theorem bind {m : Nat → Parse α} {f : α → Nat → Parse β} (hm : Counted n m)
    (hf : ∀ a, Counted n (f a)) : Counted n fun room => m room >>= fun a => f a room where
  loose room := (hm.loose room).bind fun a => (hf a).loose room
  counted := by
    rw [Step.ofReader_bind hm.loose f]
    exact hm.counted.bind fun a => (hf a).counted

/-- A reader that is chosen by a look at the parser. -/
theorem dispatch {f : β → Nat → Parse α} (view : Parser → β) (h : ∀ b, Counted n (f b)) :
    Counted n fun room p => f (view p) room p where
  loose room := ⟨fun p => ((h _).loose room).drifts p, fun hp => ((h _).loose room).panics hp⟩
  counted := (Step.Counting.look view).counted.bind fun b => (h b).counted

theorem ite {m k : Nat → Parse α} (hm : Counted n m) (hk : Counted n k) (test : Parser → Bool) :
    Counted n fun room p => if test p then m room p else k room p := by
  refine dispatch (f := fun (b : Bool) room p => if b then m room p else k room p) test fun b => ?_
  cases b with
  | true => exact hm
  | false => exact hk

theorem attempt {m : Nat → Parse α} (hm : Counted n m) :
    Counted n fun room => Parse.attempt (m room) where
  loose room := loose_attempt (hm.loose room)
  counted := by
    rw [Step.ofReader_attempt m]
    exact hm.counted.attempt

theorem nested {body : Nat → Parse α} (hloose : ∀ room, Loose (body room))
    (h : ∀ k, n = k + 1 → Counted k body) : Counted n fun room => Parse.nested room body where
  loose room := by
    cases room with
    | zero => exact steady_tooDeep.loose
    | succ room => exact hloose room
  counted := by
    rw [Step.ofReader_nested body]
    exact .nested fun k hk => (h k hk).counted

theorem bounded {loop : Nat → Nat → Parse α}
    (h : ∀ rounds, Counted n fun room => loop room rounds) :
    Counted n fun room => Parse.bounded (loop room) :=
  dispatch (f := fun rounds room => loop room rounds) (fun p => p.ahead.length) h

end Counted

theorem counted_look (view : Parser → α) : Counted n fun _ p => .ok (view p) p where
  loose _ := ⟨fun _ => .refl, by rintro _ _ _ ⟨⟩⟩
  counted := (Step.Counting.look view).counted

theorem counted_pure (a : α) : Counted n fun _ => (pure a : Parse α) := counted_look fun _ => a

theorem Counted.map {m : Nat → Parse α} (hm : Counted n m) (g : α → β) :
    Counted n fun room => g <$> m room := by
  simp only [← bind_pure_comp]
  exact hm.bind fun a => counted_pure (g a)

/-! ## Moves -/

theorem counted_get : Counted n fun _ => (get : Parse Parser) := counted_look id

theorem counted_check (kind : Kind) : Counted n fun _ => Parse.check kind :=
  counted_look (·.check kind)

theorem counted_advance : Counted n fun _ => Parse.advance where
  loose _ := steady_advance.loose
  counted :=
    (Step.Counting.bind (.look Parser.current) fun token =>
      .bind .shift fun _ => .look fun _ => token).counted

theorem counted_report (token : Token) (cause : Cause) :
    Counted n fun _ => Parse.report token cause where
  loose _ := loose_report token cause
  counted :=
    (Step.Counting.bind (.look (·.diagnose token cause)) fun d =>
      .bind (.record d) fun _ => .look fun _ => d).counted

theorem counted_fail (token : Token) (cause : Cause) :
    Counted n fun _ => (fail token cause : Parse α) where
  loose _ := loose_fail token cause
  counted :=
    (Step.Counting.bind (.look (·.diagnose token cause)) fun d =>
      .bind (.record d) fun _ => .throw d).counted

theorem counted_accept (kind : Kind) : Counted n fun _ => Parse.accept kind := by
  refine (counted_check kind).bind fun found => ?_
  cases found with
  | true => exact counted_advance.bind fun _ => counted_pure true
  | false => exact counted_pure false

theorem counted_expect (kind : Kind) (expectation : String) :
    Counted n fun _ => Parse.expect kind expectation := by
  refine (counted_check kind).bind fun found => ?_
  cases found with
  | true => exact counted_advance
  | false => exact counted_get.bind fun p => counted_fail p.current _

/-! ## Lists -/

theorem counted_commaList {item : Nat → Parse α} (hitem : Counted n item) (rounds : Nat) :
    Counted n fun room => commaList (item room) rounds := by
  induction rounds with
  | zero => exact hitem.bind fun first => counted_pure [first]
  | succ rounds ih =>
      refine hitem.bind fun first => (counted_accept .comma).bind fun found => ?_
      cases found with
      | true => exact ih.bind fun more => counted_pure (first :: more)
      | false => exact counted_pure [first]

theorem counted_listUpTo (close : Kind) (expectation : String) {item : Nat → Parse α}
    (hitem : Counted n item) : Counted n fun room => listUpTo close expectation (item room) := by
  have hend (items : List α) :
      Counted n fun _ => expect close expectation >>= fun _ => pure items :=
    (counted_expect close expectation).bind fun _ => counted_pure items
  refine (counted_check close).bind fun found => ?_
  cases found with
  | true => exact (counted_pure []).bind hend
  | false => exact (Counted.bounded (counted_commaList hitem)).bind hend

/-! ## Expressions -/

theorem counted_literal (token : Token) : Counted n fun _ => literal token := by
  unfold literal
  cases Literal.ofToken token with
  | ok value => exact counted_pure _
  | error cause => exact counted_fail token cause

section

variable {operand : Nat → Power → Parse Expr}
  (hoperand : ∀ power, Counted n fun room => operand room power)

include hoperand

theorem counted_openingAs (form : Opening) (token : Token) :
    Counted n fun room => openingAs (operand room) form token := by
  cases form with
  | literal => exact counted_literal token
  | var => exact counted_pure _
  | unary => exact (hoperand .unary).bind fun _ => counted_pure _
  | grouping =>
      exact (hoperand .assignment).bind fun inner =>
        (counted_expect .rparen _).bind fun _ => counted_pure inner
  | array =>
      exact (counted_listUpTo .rbracket _ (hoperand .assignment)).bind fun _ => counted_pure _

theorem counted_opening (token : Token) :
    Counted n fun room => opening (operand room) token := by
  simp only [opening_eq]
  cases (Rule.ofKind token.kind).opening? with
  | none => exact counted_fail token _
  | some form => exact counted_openingAs hoperand form token

theorem counted_continuation (form : Continuation) (left : Expr) (token : Token) :
    Counted n fun room => continuation (operand room) form left token := by
  cases form with
  | binary => exact (hoperand _).bind fun _ => counted_pure _
  | call =>
      exact (counted_listUpTo .rparen _ (hoperand .assignment)).bind fun _ => counted_pure _
  | index =>
      exact (hoperand .assignment).bind fun _ =>
        (counted_expect .rbracket _).bind fun _ => counted_pure _
  | assignment =>
      simp only [continuation, Lockstep.assignment_eq]
      cases Lockstep.targetName? left with
      | some name => exact (hoperand .assignment).bind fun _ => counted_pure _
      | none => exact (counted_report token .invalidTarget).bind fun _ => counted_pure left

theorem counted_climb (power : Power) (rounds : Nat) (left : Expr) :
    Counted n fun room => climb (operand room) power rounds left := by
  induction rounds generalizing left with
  | zero => exact counted_pure left
  | succ rounds ih =>
      refine counted_get.bind fun p => ?_
      split
      · refine counted_advance.bind fun token => ?_
        cases (Rule.ofKind token.kind).continuation? with
        | none => exact counted_pure left
        | some form => exact (counted_continuation hoperand form left token).bind ih
      · exact counted_pure left

theorem counted_operation (power : Power) :
    Counted n fun room => operation (operand room) power :=
  counted_advance.bind fun token => (counted_opening hoperand token).bind fun left =>
    .bounded fun rounds => counted_climb hoperand power rounds left

end

theorem counted_expression (n : Nat) (power : Power) :
    Counted n fun room => expression room power := by
  induction n using Nat.strongRecOn generalizing power with
  | ind n ih =>
      simp only [expression_eq]
      refine Counted.nested (fun room => (steady_operation (steady_expression room) power).loose) ?_
      rintro k rfl
      exact counted_operation (ih k (Nat.lt_succ_self k)) power

theorem counted_value (n : Nat) : Counted n value := counted_expression n .assignment

/-! ## Declarations -/

theorem counted_typeName (expectation : String) : Counted n fun _ => typeName expectation :=
  (counted_expect _ _).bind fun _ => counted_pure _

theorem counted_annotation? (expectation : String) :
    Counted n fun _ => annotation? expectation := by
  refine (counted_accept .colon).bind fun found => ?_
  cases found with
  | true => exact (counted_typeName expectation).bind fun _ => counted_pure _
  | false => exact counted_pure none

theorem counted_param : Counted n fun _ => param :=
  (counted_expect _ _).bind fun _ => (counted_expect _ _).bind fun _ =>
    (counted_typeName _).bind fun _ => counted_pure _

section

variable {value : Nat → Parse Expr} {block : Nat → Parse Block}
  {statement declaration : Nat → Parse Stmt} (hvalue : Counted n value) (hblock : Counted n block)
  (hstatement : Counted n statement) (hdeclaration : Counted n declaration)

include hvalue in
theorem counted_initializer? : Counted n fun room => initializer? (value room) := by
  refine (counted_accept .assign).bind fun found => ?_
  cases found with
  | true => exact hvalue.bind fun _ => counted_pure _
  | false => exact counted_pure none

include hvalue in
theorem counted_varDecl : Counted n fun room => varDecl (value room) :=
  counted_advance.bind fun _ => (counted_expect _ _).bind fun _ =>
    (counted_annotation? _).bind fun _ => (counted_initializer? hvalue).bind fun _ =>
      (counted_expect _ _).bind fun _ => counted_pure _

include hblock in
theorem counted_fnDecl : Counted n fun room => fnDecl (block room) :=
  counted_advance.bind fun _ => (counted_expect _ _).bind fun _ =>
    (counted_expect _ _).bind fun _ => (counted_listUpTo _ _ counted_param).bind fun _ =>
      (counted_annotation? _).bind fun _ => hblock.bind fun _ => counted_pure _

/-! ## Blocks -/

include hdeclaration in
theorem counted_items (rounds : Nat) :
    Counted n fun room => items (declaration room) rounds := by
  induction rounds with
  | zero => exact counted_pure []
  | succ rounds ih =>
      simp only [items_succ]
      have hnext : Counted n fun room => Parse.attempt (declaration room) >>= fun item? =>
          (item?.toList ++ ·) <$> items (declaration room) rounds :=
        hdeclaration.attempt.bind fun item? => ih.map (item?.toList ++ ·)
      exact (counted_pure []).ite hnext fun p => p.check .rbrace || p.atEnd

include hdeclaration in
theorem counted_blockOf : Counted n fun room => blockOf (declaration room) :=
  (counted_expect _ _).bind fun _ => (Counted.bounded (counted_items hdeclaration)).bind fun _ =>
    (counted_expect _ _).bind fun _ => counted_pure _

/-! ## Conditionals, loops and simple statements -/

include hvalue

theorem counted_condition (keyword : String) :
    Counted n fun room => condition keyword (value room) :=
  (counted_expect _ _).bind fun _ => hvalue.bind fun cond =>
    (counted_expect _ _).bind fun _ => counted_pure cond

theorem counted_ret : Counted n fun room => ret (value room) := by
  refine counted_advance.bind fun start => (counted_check .semicolon).bind fun found => ?_
  cases found with
  | true =>
      exact (counted_pure none).bind fun value? => (counted_expect _ _).bind fun _ =>
        counted_pure _
  | false =>
      exact (hvalue.map some).bind fun value? => (counted_expect _ _).bind fun _ =>
        counted_pure _

theorem counted_exprStmt : Counted n fun room => exprStmt (value room) :=
  counted_get.bind fun _ => hvalue.bind fun _ => (counted_expect _ _).bind fun _ =>
    counted_pure _

include hstatement

theorem counted_branch : Counted n fun room => branch (value room) (statement room) :=
  counted_advance.bind fun _ => (counted_condition hvalue _).bind fun _ =>
    hstatement.bind fun _ => counted_pure _

theorem counted_links (rounds : Nat) :
    Counted n fun room => links (value room) (statement room) rounds := by
  induction rounds with
  | zero => exact counted_pure ([], none)
  | succ rounds ih =>
      refine (counted_accept .naso).bind fun found => ?_
      cases found with
      | false => exact counted_pure ([], none)
      | true =>
          refine (counted_check .abi).bind fun chained => ?_
          cases chained with
          | true =>
              exact (counted_branch hvalue hstatement).bind fun _ => ih.bind fun _ =>
                counted_pure _
          | false => exact hstatement.bind fun _ => counted_pure _

theorem counted_conditional :
    Counted n fun room => conditional (value room) (statement room) :=
  (counted_branch hvalue hstatement).bind fun _ =>
    (Counted.bounded (counted_links hvalue hstatement)).bind fun _ => counted_pure _

theorem counted_whileLoop : Counted n fun room => whileLoop (value room) (statement room) :=
  counted_advance.bind fun _ => (counted_condition hvalue _).bind fun _ =>
    hstatement.bind fun _ => counted_pure _

/-! ## The descent -/

include hblock

omit hstatement in
theorem counted_statementOf {conditional whileLoop : Nat → Parse Stmt}
    (hconditional : Counted n conditional) (hwhileLoop : Counted n whileLoop) :
    Counted n fun room =>
      statementOf (value room) (block room) (conditional room) (whileLoop room) := by
  simp only [statementOf_eq]
  refine .dispatch (f := fun kind room =>
    statementAt (value room) (block room) (conditional room) (whileLoop room) kind)
    (fun p => p.current.kind) fun kind => ?_
  cases kind with
  | lbrace => exact hblock.map Stmt.ofBlock
  | abi => exact hconditional
  | waka => exact hwhileLoop
  | comot => exact counted_ret hvalue
  | _ => exact counted_exprStmt hvalue

theorem counted_declarationOf :
    Counted n fun room => declarationOf (value room) (block room) (statement room) := by
  simp only [declarationOf_eq]
  refine .dispatch (f := fun kind room =>
    declarationAt (value room) (block room) (statement room) kind)
    (fun p => p.current.kind) fun kind => ?_
  cases kind with
  | abeg => exact counted_varDecl hvalue
  | oya => exact counted_fnDecl hblock
  | _ => exact hstatement

end

theorem counted_block_statement (n : Nat) : Counted n block ∧ Counted n statement := by
  induction n using Nat.strongRecOn with
  | ind n ih =>
      have hblock : Counted n block := by
        rw [funext block_eq]
        refine Counted.nested (fun room => (steady_blockOf (steady_declaration room)).loose) ?_
        rintro k rfl
        obtain ⟨hblock, hstatement⟩ := ih k (Nat.lt_succ_self k)
        exact counted_blockOf (counted_declarationOf (counted_value k) hblock hstatement)
      refine ⟨hblock, ?_⟩
      rw [funext statement_eq]
      refine counted_statementOf (counted_value n) hblock (Counted.nested (fun room =>
        (headed_conditional (steady_value room) (steady_statement room)).eager.steady.loose) ?_)
        (Counted.nested (fun room =>
          (headed_whileLoop (steady_value room) (steady_statement room)).eager.steady.loose) ?_)
      · rintro k rfl
        exact counted_conditional (counted_value k) (ih k (Nat.lt_succ_self k)).2
      · rintro k rfl
        exact counted_whileLoop (counted_value k) (ih k (Nat.lt_succ_self k)).2

theorem counted_block (n : Nat) : Counted n block := (counted_block_statement n).1

theorem counted_statement (n : Nat) : Counted n statement := (counted_block_statement n).2

theorem counted_declaration (n : Nat) : Counted n declaration :=
  counted_declarationOf (counted_value n) (counted_block n) (counted_statement n)

end Session

end Pidgin
