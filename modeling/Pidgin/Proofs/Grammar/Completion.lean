import Pidgin.Proofs.Grammar.Limit

/-!
# Completing phrases

Tokens complete a phrase if some further tokens make them one.  What a phrase
holds is neither a comment nor an end mark, so a completion is seen by a parser
as it stands.  And what follows a phrase matters in one way alone: a statement
that ends in a conditional must not be followed by the word that starts the other
branch.
-/

namespace Pidgin.Grammar

variable {α : Type}

/-! ## Completions -/

def Completes (phrase : List Token → α → Prop) (u : List Token) : Prop :=
  ∃ c a, phrase (u ++ c) a

theorem Completes.of_phrase {phrase : List Token → α → Prop} {w : List Token} {a : α}
    (h : phrase w a) : Completes phrase w :=
  ⟨[], a, by rwa [List.append_nil]⟩

theorem Completes.shorten {phrase : List Token → α → Prop} {u w : List Token}
    (h : Completes phrase w) (hu : u <+: w) : Completes phrase u := by
  obtain ⟨v, rfl⟩ := hu
  obtain ⟨c, a, h⟩ := h
  exact ⟨v ++ c, a, by rwa [← List.append_assoc]⟩

def sample (kind : Kind) : Token := ⟨kind, "", .start, ⟨"", ""⟩⟩

theorem expression_sample (power : Power) :
    Expression power [sample .ident] (.var "" .start) :=
  .loosen (.var rfl) (by cases power <;> decide)

/-! ## What follows a phrase -/

theorem nextKind_append_imp {rest rest' : List Token} {kind : Kind}
    (h : nextKind rest' = kind → nextKind rest = kind) (w : List Token) :
    nextKind (w ++ rest') = kind → nextKind (w ++ rest) = kind := by
  cases w with
  | nil => exact h
  | cons token w => exact id

mutual

theorem Statement.congr {w rest rest' : List Token} {s : Stmt}
    (hnext : nextKind rest' = .naso → nextKind rest = .naso) :
    Statement w rest s → Statement w rest' s
  | .block body => .block (body.congr rest')
  | .conditional habi hlparen condition hrparen branch otherwise =>
      .conditional habi hlparen condition hrparen
        (branch.congr (nextKind_append_imp hnext _)) (otherwise.congr hnext)
  | .whileLoop hwaka hlparen condition hrparen branch =>
      .whileLoop hwaka hlparen condition hrparen (branch.congr hnext)
  | .ret hcomot hsemicolon => .ret hcomot hsemicolon
  | .retValue hcomot value hsemicolon => .retValue hcomot value hsemicolon
  | .expr value hsemicolon => .expr value hsemicolon

theorem Otherwise.congr {w rest rest' : List Token} {else? : Option Stmt}
    (hnext : nextKind rest' = .naso → nextKind rest = .naso) :
    Otherwise w rest else? → Otherwise w rest' else?
  | .none hnaso => .none fun h => hnaso (hnext h)
  | .some hnaso branch => .some hnaso (branch.congr hnext)

theorem Body.congr {w rest : List Token} {b : Block} (rest' : List Token) :
    Body w rest b → Body w rest' b
  | .mk hlbrace inner hrbrace => .mk hlbrace (inner.congr (by exact id)) hrbrace

theorem Declaration.congr {w rest rest' : List Token} {s : Stmt}
    (hnext : nextKind rest' = .naso → nextKind rest = .naso) :
    Declaration w rest s → Declaration w rest' s
  | .varDecl habeg hname ascription initializer hsemicolon =>
      .varDecl habeg hname ascription initializer hsemicolon
  | .fnDecl hoya hname hlparen parameters hrparen ascription body =>
      .fnDecl hoya hname hlparen parameters hrparen ascription (body.congr rest')
  | .statement inner => .statement (inner.congr hnext)

theorem Declarations.congr {w rest rest' : List Token} {ss : List Stmt}
    (hnext : nextKind rest' = .naso → nextKind rest = .naso) :
    Declarations w rest ss → Declarations w rest' ss
  | .nil => .nil
  | .cons first more => .cons (first.congr (nextKind_append_imp hnext _)) (more.congr hnext)

end

theorem Declaration.ne_naso {w rest : List Token} {s : Stmt} (h : Declaration w rest s) :
    nextKind w ≠ .naso := by
  cases h with
  | varDecl habeg hname ascription initializer hsemicolon => simp [nextKind, habeg]
  | fnDecl hoya hname hlparen parameters hrparen ascription body => simp [nextKind, hoya]
  | statement inner =>
      obtain ⟨first, v, rfl, hkind⟩ := inner.head
      intro hnaso
      rw [show first.kind = .naso from hnaso] at hkind
      exact absurd hkind (by decide)

theorem Declarations.ne_naso {w : List Token} {ss : List Stmt} (h : Declarations w [] ss) :
    nextKind w ≠ .naso := by
  cases h with
  | nil => decide
  | cons first more =>
      have hnaso := first.ne_naso
      obtain ⟨token, v, rfl, -⟩ := first.head
      exact hnaso

theorem Declaration.cons {v w rest : List Token} {s : Stmt} {ss : List Stmt}
    (first : Declaration v rest s) (more : Declarations w [] ss) :
    Declarations (v ++ w) [] (s :: ss) := by
  refine .cons (first.congr fun hnaso => ?_) more
  rw [List.append_nil] at hnaso
  exact absurd hnaso more.ne_naso

/-! ## What a phrase holds -/

def Plain (w : List Token) : Prop :=
  ∀ token ∈ w, token.kind ≠ .comment ∧ token.kind ≠ .eof

@[simp] theorem plain_nil : Plain [] := by simp [Plain]

@[simp] theorem plain_cons {token : Token} {w : List Token} :
    Plain (token :: w) ↔ (token.kind ≠ .comment ∧ token.kind ≠ .eof) ∧ Plain w := by
  simp [Plain]

@[simp] theorem plain_append {v w : List Token} : Plain (v ++ w) ↔ Plain v ∧ Plain w :=
  List.forall_mem_append

theorem ne_of_mem_operators {power : Power} {kind : Kind} (h : kind ∈ operators power) :
    kind ≠ .comment ∧ kind ≠ .eof := by
  constructor <;>
    · rintro rfl
      cases power <;> simp [operators] at h

mutual

theorem Expression.plain {power : Power} {w : List Token} {e : Expr} :
    Expression power w e → Plain w
  | .tighter inner => inner.plain
  | .assign target hequals source => by simp [target.plain, hequals, source.plain]
  | .binary first hoperator second => by
      simp [first.plain, ne_of_mem_operators hoperator, second.plain]
  | .unary hoperator inner => by rcases hoperator with h | h <;> simp [h, inner.plain]
  | .call head hlparen items hrparen => by
      simp [head.plain, hlparen, plain_of_listed items, hrparen]
  | .index head hlbracket inner hrbracket => by
      simp [head.plain, hlbracket, inner.plain, hrbracket]
  | .literal hvalue => by cases hvalue <;> simp [*]
  | .var hkind => by simp [hkind]
  | .grouping hlparen inner hrparen => by simp [hlparen, inner.plain, hrparen]
  | .array hlbracket items hrbracket => by simp [hlbracket, plain_of_listed items, hrbracket]

theorem plain_of_listed {w : List Token} {es : List Expr} :
    Listed (Expression .assignment) w es → Plain w
  | .none => plain_nil
  | .some items => plain_of_separated items

theorem plain_of_separated {w : List Token} {es : List Expr} :
    Separated (Expression .assignment) w es → Plain w
  | .one first => first.plain
  | .more first hcomma rest => by simp [first.plain, hcomma, plain_of_separated rest]

end

theorem Annotation.plain {w : List Token} {type? : Option String} (h : Annotation w type?) :
    Plain w := by
  cases h with
  | none => exact plain_nil
  | some hcolon htype => simp [hcolon, htype]

theorem Initializer.plain {w : List Token} {init? : Option Expr} (h : Initializer w init?) :
    Plain w := by
  cases h with
  | none => exact plain_nil
  | some hequals value => simp [hequals, value.plain]

theorem plain_of_parameters {w : List Token} {params : List Param}
    (h : Listed Parameter w params) : Plain w := by
  cases h with
  | none => exact plain_nil
  | some items =>
      induction items with
      | one first =>
          cases first with
          | mk hname hcolon htype => simp [hname, hcolon, htype]
      | more first hcomma rest ih =>
          cases first with
          | mk hname hcolon htype => simp [hname, hcolon, htype, hcomma, ih]

mutual

theorem Statement.plain {w rest : List Token} {s : Stmt} : Statement w rest s → Plain w
  | .block body => body.plain
  | .conditional habi hlparen condition hrparen branch otherwise => by
      simp [habi, hlparen, condition.plain, hrparen, branch.plain, otherwise.plain]
  | .whileLoop hwaka hlparen condition hrparen branch => by
      simp [hwaka, hlparen, condition.plain, hrparen, branch.plain]
  | .ret hcomot hsemicolon => by simp [hcomot, hsemicolon]
  | .retValue hcomot value hsemicolon => by simp [hcomot, value.plain, hsemicolon]
  | .expr value hsemicolon => by
      have hvalue := value.plain
      rw [plain_cons] at hvalue
      simp [hvalue, hsemicolon]

theorem Otherwise.plain {w rest : List Token} {else? : Option Stmt} :
    Otherwise w rest else? → Plain w
  | .none _ => plain_nil
  | .some hnaso branch => by simp [hnaso, branch.plain]

theorem Body.plain {w rest : List Token} {b : Block} : Body w rest b → Plain w
  | .mk hlbrace inner hrbrace => by simp [hlbrace, inner.plain, hrbrace]

theorem Declaration.plain {w rest : List Token} {s : Stmt} : Declaration w rest s → Plain w
  | .varDecl habeg hname ascription initializer hsemicolon => by
      simp [habeg, hname, ascription.plain, initializer.plain, hsemicolon]
  | .fnDecl hoya hname hlparen parameters hrparen ascription body => by
      simp [hoya, hname, hlparen, plain_of_parameters parameters, hrparen, ascription.plain,
        body.plain]
  | .statement inner => inner.plain

theorem Declarations.plain {w rest : List Token} {ss : List Stmt} :
    Declarations w rest ss → Plain w
  | .nil => plain_nil
  | .cons first more => by simp [first.plain, more.plain]

end

end Pidgin.Grammar
