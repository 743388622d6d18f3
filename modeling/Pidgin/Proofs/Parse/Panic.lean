import Pidgin.Proofs.Parse.Mirror
import Pidgin.Proofs.Parse.Session

/-!
# Panic only mutes

What a parser reads does not depend on its mode, nor on what was reported before.
Two parsers at the same place of the same tokens are twins, so any reader leaves
them at the same place with the same tree or the same fault.  All that the mode
decides is whether a fault is recorded: one that panics records none.
-/

namespace Pidgin

open Parse

namespace Parser

/-- The two parsers stand at the same place of the same tokens.  Their modes may differ, and so
may what was reported. -/
structure Abreast (p q : Parser) : Prop where
  tokens : p.tokens = q.tokens
  cursor : p.cursor = q.cursor
  stop : p.stop = q.stop
  file : p.file = q.file
  limit : p.limit = q.limit

namespace Abreast

variable {p q : Parser}

theorem behind_and_ahead (h : p.Abreast q) : p.behind = q.behind ∧ p.ahead = q.ahead := by
  have hlength : p.behind.reverse.length = q.behind.reverse.length := by
    simpa [Parser.cursor] using h.cursor
  simpa using List.append_inj h.tokens hlength

theorem atEnd_eq (h : p.Abreast q) : p.atEnd = q.atEnd := by
  rw [Parser.atEnd, Parser.atEnd, h.behind_and_ahead.2]

theorem current_eq (h : p.Abreast q) : p.current = q.current := by
  rw [Parser.current, Parser.current, h.behind_and_ahead.2, h.stop]

theorem shift (h : p.Abreast q) : p.shift.Abreast q.shift where
  tokens := by simpa using h.tokens
  cursor := by
    obtain ⟨hbehind, hahead⟩ := h.behind_and_ahead
    unfold Parser.shift
    rw [hahead]
    split
    · exact h.cursor
    · simp [Parser.cursor, hbehind]
  stop := by simpa using h.stop
  file := by simpa using h.file
  limit := by simpa using h.limit

theorem record (h : p.Abreast q) (d e : Diagnostic) : (p.record d).Abreast (q.record e) where
  tokens := by simpa using h.tokens
  cursor := by simpa using h.cursor
  stop := by simpa using h.stop
  file := by simpa using h.file
  limit := by simpa using h.limit

theorem twins : Twins id 0 Abreast where
  cursor_eq := Abreast.cursor
  seen_current h := by rw [h.current_eq]
  atEnd_eq := atEnd_eq
  limit_eq := Abreast.limit
  shift := shift
  record h _ := h.record _ _

end Abreast

end Parser

/-! ## Readers -/

/-- What can be read from a parser, by the type of the result.  The readers of single forms take
the token that is said to open the form, whatever it is. -/
inductive Reader : Type → Type where
  | typeName (expectation : String) : Reader String
  | annotation? (expectation : String) : Reader (Option String)
  | varDecl : Reader Stmt
  | fnDecl : Reader Stmt
  | block : Reader Block
  | branch : Reader Branch
  | conditional : Reader Stmt
  | whileLoop : Reader Stmt
  | ret : Reader Stmt
  | exprStmt : Reader Stmt
  | statement : Reader Stmt
  | declaration : Reader Stmt
  | value : Reader Expr
  | expression (power : Power) : Reader Expr
  | opening (form : Opening) (token : Token) : Reader Expr
  | continuation (form : Continuation) (left : Expr) (token : Token) : Reader Expr

def Reader.read {α : Type} : Reader α → (room : Nat) → Parse α
  | .typeName expectation, _ => Parse.typeName expectation
  | .annotation? expectation, _ => Parse.annotation? expectation
  | .varDecl, room => Parse.varDecl (Parse.value room)
  | .fnDecl, room => Parse.fnDecl (Parse.block room)
  | .block, room => Parse.block room
  | .branch, room => Parse.branch (Parse.value room) (Parse.statement room)
  | .conditional, room => Parse.conditional (Parse.value room) (Parse.statement room)
  | .whileLoop, room => Parse.whileLoop (Parse.value room) (Parse.statement room)
  | .ret, room => Parse.ret (Parse.value room)
  | .exprStmt, room => Parse.exprStmt (Parse.value room)
  | .statement, room => Parse.statement room
  | .declaration, room => Parse.declaration room
  | .value, room => Parse.value room
  | .expression power, room => Parse.expression room power
  | .opening form token, room => openingAs (Parse.expression room) form token
  | .continuation form left token, room =>
      Parse.continuation (Parse.expression room) form left token

/-! ## Outcomes -/

namespace Parse

variable {α γ : Type} {p q : Parser}

def SameOutcome :
    EStateM.Result Diagnostic Parser α → EStateM.Result Diagnostic Parser α → Prop
  | .ok a p, .ok b q => a = b ∧ p.Abreast q
  | .error d p, .error e q => d.cause = e.cause ∧ d.pos = e.pos ∧ p.Abreast q
  | _, _ => False

abbrev abreast : Lockstep := Parser.Abreast.twins.lockstep

theorem sameOutcome_of_matches {t : Stage} {g : α → γ} (hg : Function.Injective g)
    {result result' : EStateM.Result Diagnostic Parser α}
    (h : abreast.Matches t g result result') : SameOutcome result result' := by
  cases result' with
  | ok b r =>
      obtain ⟨a, p', rfl, hview, hrel⟩ := h.exists_ok
      exact ⟨hg hview, hrel.past⟩
  | error e r =>
      obtain ⟨d, p', rfl, hseen, hpast⟩ := h.exists_error
      exact ⟨congrArg Prod.fst hseen, congrArg Prod.snd hseen, hpast⟩

structure Indifferent (m : Parse α) : Prop where
  loose : Loose m
  same {p q : Parser} (h : p.Abreast q) : SameOutcome (m p) (m q)

theorem indifferent_of_agrees {t : Stage} {g : α → γ} {m : Parse α}
    (hm : abreast.Agrees .inside t g m m) (hg : Function.Injective g) : Indifferent m where
  loose := hm.left
  same h := sameOutcome_of_matches hg (hm.agree h (by cases t <;> trivial))

theorem indifferent_of_before {t : Stage} {g : α → γ} {m : Parse α}
    (hm : ∀ kind, abreast.Agrees (.before kind) t g m m) (hg : Function.Injective g) :
    Indifferent m :=
  indifferent_of_agrees (Lockstep.agrees_dispatch (f := fun _ => m) (k := fun _ => m) hm) hg

end Parse

/-! ## No reader looks at the mode -/

theorem Expr.relocate_id_injective : Function.Injective (Expr.relocate id) :=
  fun a b h => by simpa using h

theorem Stmt.relocate_id_injective : Function.Injective (Stmt.relocate id) :=
  fun a b h => by simpa using h

theorem Block.relocate_id_injective : Function.Injective (Block.relocate id) := by
  rintro ⟨body, pos⟩ ⟨body', pos'⟩ h
  simpa [Block.relocate, Stmt.relocateAll_id] using h

theorem Branch.relocate_id_injective : Function.Injective (Branch.relocate id) := by
  rintro ⟨cond, body, pos⟩ ⟨cond', body', pos'⟩ h
  simpa [Branch.relocate] using h

namespace Reader

open Lockstep

theorem seamless_abreast : abreast.Seamless := fun h => h

theorem agrees_operand (room : Nat) (power : Power) (_ : power ≠ .none) :
    abreast.Agrees .inside .inside (Expr.relocate abreast.view) (Parse.expression room power)
      (Parse.expression room power) :=
  agrees_expression room fun _ => seamless_abreast

theorem indifferent_opening (room : Nat) (form : Opening) (token : Token) :
    Indifferent (openingAs (Parse.expression room) form token) := by
  have hoperand := agrees_operand room
  cases form with
  | literal => exact indifferent_of_agrees (agrees_literal rfl) Expr.relocate_id_injective
  | var => exact ⟨loose_pure _, fun h => ⟨rfl, h⟩⟩
  | unary => exact indifferent_of_agrees (agrees_unary hoperand rfl) Expr.relocate_id_injective
  | grouping => exact indifferent_of_agrees (agrees_grouping hoperand) Expr.relocate_id_injective
  | array => exact indifferent_of_agrees (agrees_array hoperand rfl) Expr.relocate_id_injective

theorem indifferent {α : Type} (reader : Reader α) (room : Nat) :
    Indifferent (reader.read room) := by
  have hvalue := agrees_value (L := abreast) room
  obtain ⟨hblock, hstatement⟩ := agrees_block_statement (L := abreast) room
  cases reader with
  | typeName expectation =>
      exact indifferent_of_agrees (agrees_typeName expectation) Function.injective_id
  | annotation? expectation =>
      exact indifferent_of_agrees (agrees_annotation? expectation) Function.injective_id
  | varDecl =>
      exact indifferent_of_before (fun kind => agrees_varDecl hvalue kind fun _ => seamless_abreast)
        Stmt.relocate_id_injective
  | fnDecl =>
      exact indifferent_of_before (fun kind => agrees_fnDecl hblock kind fun _ => seamless_abreast)
        Stmt.relocate_id_injective
  | block => exact indifferent_of_agrees hblock Block.relocate_id_injective
  | branch =>
      exact indifferent_of_before
        (fun kind => agrees_branch hvalue hstatement kind fun _ => seamless_abreast)
        Branch.relocate_id_injective
  | conditional =>
      exact indifferent_of_before
        (fun kind => agrees_conditional hvalue hstatement kind (fun _ => seamless_abreast)
          (fun _ => trivial) (steady_value room) (steady_statement room))
        Stmt.relocate_id_injective
  | whileLoop =>
      exact indifferent_of_before
        (fun kind => agrees_whileLoop hvalue hstatement kind fun _ => seamless_abreast)
        Stmt.relocate_id_injective
  | ret =>
      exact indifferent_of_before (fun kind => agrees_ret hvalue kind fun _ => seamless_abreast)
        Stmt.relocate_id_injective
  | exprStmt => exact indifferent_of_agrees (agrees_exprStmt hvalue) Stmt.relocate_id_injective
  | statement => exact indifferent_of_agrees hstatement Stmt.relocate_id_injective
  | declaration =>
      exact indifferent_of_agrees (agrees_declaration room) Stmt.relocate_id_injective
  | value => exact indifferent_of_agrees hvalue Expr.relocate_id_injective
  | expression power =>
      exact indifferent_of_agrees (agrees_expression room fun _ => seamless_abreast)
        Expr.relocate_id_injective
  | opening form token => exact indifferent_opening room form token
  | continuation form left token =>
      exact indifferent_of_agrees (agrees_continuation (agrees_operand room) rfl rfl form)
        Expr.relocate_id_injective

end Reader

/--
Whatever is read by two parsers at the same place of the same tokens and on the same level, they
come to the same tree, or to the same fault at the same place, and stand side by side again.  It
does not matter what their modes are and what was reported before; one that panics records
nothing more.
-/
theorem panic_only_mutes {α : Type} (reader : Reader α) (depth : Nat) (p q : Parser)
    (h : p.Abreast q) :
    SameOutcome (reader.read (p.limit - depth) p) (reader.read (q.limit - depth) q) ∧
      (p.mode = .panicking →
        (parserOf (reader.read (p.limit - depth) p)).errors = p.errors) := by
  have hreader := reader.indifferent (p.limit - depth)
  rw [← h.limit]
  exact ⟨hreader.same h, (hreader.loose.drifts p).errors_eq⟩

/-- Behind a declaration without a name the block goes on, and its tree is the same in panic. -/
theorem panic_only_mutes_block :
    let tokens : List Token :=
      [(.lbrace, "\x7b"), (.abeg, "abeg"), (.semicolon, ";"), (.ident, "x"), (.semicolon, ";"),
        (.rbrace, "\x7d")].map fun (kind, text) => ⟨kind, text, .start, ⟨"main", "."⟩⟩
    let p := Parser.ofTokens tokens "main" 8
    let q : Parser := { p with mode := .panicking, errors := [⟨.invalidTarget, .start, "lib"⟩] }
    p.Abreast q ∧ (∃ b p', block 8 p = .ok b p' ∧ p'.errors.length = 1) ∧
      SameOutcome (block 8 p) (block 8 q) ∧ (parserOf (block 8 q)).errors = q.errors := by
  intro tokens p q
  have h : p.Abreast q := ⟨rfl, rfl, rfl, rfl, rfl⟩
  have h' : q.Abreast p := ⟨rfl, rfl, rfl, rfl, rfl⟩
  exact ⟨h, ⟨_, _, rfl, rfl⟩, (panic_only_mutes .block 0 p q h).1,
    (panic_only_mutes .block 0 q p h').2 rfl⟩

end Pidgin
