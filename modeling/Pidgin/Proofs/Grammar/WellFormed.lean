import Pidgin.Proofs.Grammar.Phrase
import Pidgin.Proofs.Token.Tiling
import Pidgin.Proofs.Tree.WellFormed

/-!
# Phrases have well-formed trees

If each token of a phrase was spelled out somewhere, the tree of the phrase is
well-formed: the kinds of the tokens settle the shape of the nodes, and their
spellings settle names, types and the range of integers.  That the nearest
conditional takes the other branch shows in what may follow a statement: behind
one that ends open, no other branch starts.

The induction over phrases is made once, for whatever the nodes of a tree have if
the tokens of its phrase have something.
-/

namespace Pidgin

open Spelling

/-! ## What the spelling of a token tells -/

def Token.Spelled (token : Token) : Prop :=
  ∃ lexeme rest, Spells token.kind token.text.toList lexeme rest

namespace Spelling

variable {text lexeme rest : List Char}

theorem isName_of_spells (h : Spells .ident text lexeme rest) : IsName (String.ofList text) := by
  cases h with
  | verbatim h =>
      cases h with
      | ident hword hkeyword htype =>
          exact ⟨by simpa using hword.starts, by simpa using hword.maximal.inside, hkeyword, htype⟩
      | mark hmark => simp [marks] at hmark
      | alone hpair => simp [pairable] at hpair
      | paired hpair => simp [pairable] at hpair
      | keyword hword hkeyword => simp [keywords] at hkeyword

theorem mem_typeNames_of_spells (h : Spells .typeName text lexeme rest) :
    String.ofList text ∈ typeNames := by
  cases h with
  | verbatim h =>
      cases h with
      | typeName hword hkeyword htype => exact htype
      | mark hmark => simp [marks] at hmark
      | alone hpair => simp [pairable] at hpair
      | paired hpair => simp [pairable] at hpair
      | keyword hword hkeyword => simp [keywords] at hkeyword

theorem digits_of_spells (h : Spells .integer text lexeme rest) :
    text ≠ [] ∧ ∀ c ∈ text, c.isDigit = true := by
  cases h with
  | verbatim h =>
      cases h with
      | integer hsome hdigits hpoint => exact ⟨hsome, hdigits.inside⟩
      | mark hmark => simp [marks] at hmark
      | alone hpair => simp [pairable] at hpair
      | paired hpair => simp [pairable] at hpair
      | keyword hword hkeyword => simp [keywords] at hkeyword

end Spelling

namespace Numeral

theorem splitSign_of_head {text : List Char} (h : ∀ c ∈ text.head?, c.isDigit = true) :
    splitSign text = (false, text) := by
  unfold splitSign
  split
  · exact absurd (h '-' (by simp)) (by decide)
  · exact absurd (h '+' (by simp)) (by decide)
  · rfl

theorem splitSign_digits {text : List Char} (h : ∀ c ∈ text, c.isDigit = true) :
    splitSign text = (false, text) :=
  splitSign_of_head fun c hc => h c (List.mem_of_mem_head? hc)

theorem readInt?_digits {text : String} (hsome : text.toList ≠ [])
    (hdigits : ∀ c ∈ text.toList, c.isDigit = true) :
    readInt? text =
      if value text.toList ≤ 9223372036854775807 then some (value text.toList : Int)
      else none := by
  have hall : isDigits text.toList = true := by
    simpa [isDigits] using ⟨by simpa using hsome, hdigits⟩
  have hfits : fits (value text.toList) = decide (value text.toList ≤ 9223372036854775807) := by
    rw [fits, ← Bool.decide_and, decide_eq_decide]
    omega
  simp [readInt?, splitSign_digits hdigits, hall, hfits]

theorem readInt?_range {text : String} {n : Int} (hsome : text.toList ≠ [])
    (hdigits : ∀ c ∈ text.toList, c.isDigit = true) (h : readInt? text = some n) :
    0 ≤ n ∧ n ≤ 9223372036854775807 := by
  rw [readInt?_digits hsome hdigits, Option.ite_none_right_eq_some] at h
  obtain ⟨hle, hvalue⟩ := h
  cases hvalue
  omega

end Numeral

namespace Token.Spelled

variable {token : Token}

theorem isName (h : token.Spelled) (hkind : token.kind = .ident) : IsName token.text := by
  obtain ⟨lexeme, rest, hspells⟩ := h
  rw [hkind] at hspells
  simpa using isName_of_spells hspells

theorem mem_typeNames (h : token.Spelled) (hkind : token.kind = .typeName) :
    token.text ∈ typeNames := by
  obtain ⟨lexeme, rest, hspells⟩ := h
  rw [hkind] at hspells
  simpa using mem_typeNames_of_spells hspells

theorem digits (h : token.Spelled) (hkind : token.kind = .integer) :
    token.text.toList ≠ [] ∧ ∀ c ∈ token.text.toList, c.isDigit = true := by
  obtain ⟨lexeme, rest, hspells⟩ := h
  rw [hkind] at hspells
  exact digits_of_spells hspells

theorem range (h : token.Spelled) (hkind : token.kind = .integer) {n : Int}
    (hvalue : Numeral.readInt? token.text = some n) : 0 ≤ n ∧ n ≤ 9223372036854775807 := by
  obtain ⟨hsome, hdigits⟩ := h.digits hkind
  exact Numeral.readInt?_range hsome hdigits hvalue

end Token.Spelled

/-! ## Expressions -/

namespace Grammar

theorem Denotes.proper {token : Token} {value : Literal} (h : Denotes token value)
    (hspelled : token.Spelled) (pos : Position) : (Expr.literal value pos).Proper := by
  cases h with
  | integer hkind hvalue => exact hspelled.range hkind hvalue
  | float | string | litTrue | litFalse => trivial

theorem mem_binaryOperators {power : Power} {kind : Kind} (h : kind ∈ operators power) :
    kind ∈ binaryOperators := by
  revert kind
  cases power <;> decide

/-- What the expressions in a tree have, if each token of its phrase has the property `T`. -/
structure ExprRules (T : Token → Prop) (P : Expr → Prop) : Prop where
  literal {token : Token} {value : Literal} (htoken : T token) (hvalue : Denotes token value) :
    P (.literal value token.pos)
  var {token : Token} (htoken : T token) (hkind : token.kind = .ident) :
    P (.var token.text token.pos)
  binary {op : Kind} (left right : Expr) (pos : Position) (hop : op ∈ binaryOperators) :
    P (.binary op left right pos)
  unary {op : Kind} (operand : Expr) (pos : Position) (hop : op ∈ unaryOperators) :
    P (.unary op operand pos)
  call (callee : Expr) (args : List Expr) (pos : Position) : P (.call callee args pos)
  index (object place : Expr) (pos : Position) : P (.index object place pos)
  array (elements : List Expr) (pos : Position) : P (.array elements pos)
  assign {name : String} {pos : Position} (htarget : P (.var name pos)) (value : Expr)
    (pos' : Position) : P (.assign name value pos')

section

variable {T : Token → Prop} {P : Expr → Prop}

mutual

theorem Expression.every (hexpr : ExprRules T P) {power : Power} {w : List Token} {e : Expr} :
    Expression power w e → (∀ token ∈ w, T token) → e.Every P
  | .tighter inner, h => inner.every hexpr h
  | .assign target hequals source, h => by
      simp only [List.forall_mem_append, List.forall_mem_cons] at h
      exact ⟨hexpr.assign (target.every hexpr h.1).here _ _, source.every hexpr h.2.2⟩
  | .binary first hoperator second, h => by
      simp only [List.forall_mem_append, List.forall_mem_cons] at h
      exact ⟨hexpr.binary _ _ _ (mem_binaryOperators hoperator), first.every hexpr h.1,
        second.every hexpr h.2.2⟩
  | .unary hoperator inner, h => by
      rw [List.forall_mem_cons] at h
      exact ⟨hexpr.unary _ _ (by simpa [unaryOperators] using hoperator), inner.every hexpr h.2⟩
  | .call head hlparen items hrparen, h => by
      simp only [List.forall_mem_append, List.forall_mem_cons] at h
      exact ⟨hexpr.call _ _ _, head.every hexpr h.1, every_of_listed hexpr items h.2.2.1⟩
  | .index head hlbracket inner hrbracket, h => by
      simp only [List.forall_mem_append, List.forall_mem_cons] at h
      exact ⟨hexpr.index _ _ _, head.every hexpr h.1, inner.every hexpr h.2.2.1⟩
  | .literal hvalue, h => hexpr.literal (h _ (by simp)) hvalue
  | .var hkind, h => hexpr.var (h _ (by simp)) hkind
  | .grouping hlparen inner hrparen, h => by
      simp only [List.forall_mem_append, List.forall_mem_cons] at h
      exact inner.every hexpr h.2.1
  | .array hlbracket items hrbracket, h => by
      simp only [List.forall_mem_append, List.forall_mem_cons] at h
      exact ⟨hexpr.array _ _, every_of_listed hexpr items h.2.1⟩

theorem every_of_listed (hexpr : ExprRules T P) {w : List Token} {es : List Expr} :
    Listed (Expression .assignment) w es → (∀ token ∈ w, T token) → Expr.EveryOf P es
  | .none, _ => trivial
  | .some items, h => every_of_separated hexpr items h

theorem every_of_separated (hexpr : ExprRules T P) {w : List Token} {es : List Expr} :
    Separated (Expression .assignment) w es → (∀ token ∈ w, T token) → Expr.EveryOf P es
  | .one first, h => ⟨first.every hexpr h, trivial⟩
  | .more first hcomma rest, h => by
      simp only [List.forall_mem_append, List.forall_mem_cons] at h
      exact ⟨first.every hexpr h.1, every_of_separated hexpr rest h.2.2⟩

end

theorem Initializer.every (hexpr : ExprRules T P) {w : List Token} {init? : Option Expr}
    (h : Initializer w init?) (hw : ∀ token ∈ w, T token) : ∀ e ∈ init?, e.Every P := by
  cases h with
  | none => simp
  | some hequals value =>
      rw [List.forall_mem_cons] at hw
      simpa using value.every hexpr hw.2

end

theorem exprRules_proper : ExprRules Token.Spelled Expr.Proper where
  literal htoken hvalue := hvalue.proper htoken _
  var htoken hkind := htoken.isName hkind
  binary _ _ _ hop := hop
  unary _ _ hop := hop
  call _ _ _ := trivial
  index _ _ _ := trivial
  array _ _ := trivial
  assign htarget _ _ := htarget

/-! ## Statements -/

theorem Statement.isBranch {w rest : List Token} {s : Stmt} (h : Statement w rest s) :
    s.isBranch = true := by
  cases h <;> simp [Stmt.isBranch, Stmt.ofBlock]

mutual

theorem Statement.nextKind_ne {w rest : List Token} {s : Stmt} :
    Statement w rest s → s.endsOpen = true → nextKind rest ≠ .naso
  | .block _, hopen => by simp [Stmt.ofBlock, Stmt.endsOpen] at hopen
  | .conditional _ _ _ _ _ otherwise, hopen => otherwise.nextKind_ne hopen
  | .whileLoop _ _ _ _ branch, hopen => branch.nextKind_ne (by simpa [Stmt.endsOpen] using hopen)
  | .ret _ _, hopen => by simp [Stmt.endsOpen] at hopen
  | .retValue _ _ _, hopen => by simp [Stmt.endsOpen] at hopen
  | .expr _ _, hopen => by simp [Stmt.endsOpen] at hopen

theorem Otherwise.nextKind_ne {w rest : List Token} {else? : Option Stmt} {cond : Expr}
    {body : Stmt} {pos : Position} : Otherwise w rest else? →
      (Stmt.ifElse cond body else? pos).endsOpen = true → nextKind rest ≠ .naso
  | .none hnext, _ => hnext
  | .some _ branch, hopen => branch.nextKind_ne (by simpa [Stmt.endsOpen] using hopen)

end

theorem Annotation.mem_typeNames {w : List Token} {type? : Option String}
    (h : Annotation w type?) (hspelled : ∀ token ∈ w, token.Spelled) :
    ∀ type ∈ type?, type ∈ typeNames := by
  cases h with
  | none => simp
  | some hcolon htype => simpa using (hspelled _ (by simp)).mem_typeNames htype

theorem Parameter.proper {w : List Token} {param : Param} (h : Parameter w param)
    (hspelled : ∀ token ∈ w, token.Spelled) : param.Proper := by
  cases h with
  | mk hname hcolon htype =>
      simp only [List.forall_mem_cons] at hspelled
      exact ⟨hspelled.1.isName hname, hspelled.2.2.1.mem_typeNames htype⟩

theorem proper_of_parameters {w : List Token} {params : List Param}
    (h : Listed Parameter w params) (hspelled : ∀ token ∈ w, token.Spelled) :
    ∀ param ∈ params, param.Proper := by
  cases h with
  | none => simp
  | some items =>
      induction items with
      | one first => simpa using first.proper hspelled
      | more first hcomma rest ih =>
          simp only [List.forall_mem_append, List.forall_mem_cons] at hspelled ⊢
          exact ⟨first.proper hspelled.1, ih hspelled.2.2⟩

structure StmtRules (T : Token → Prop) (Q : Stmt → Prop) : Prop where
  expr (value : Expr) (pos : Position) : Q (.expr value pos)
  ret (value? : Option Expr) (pos : Position) : Q (.ret value? pos)
  block (body : List Stmt) (pos : Position) : Q (.block body pos)
  varDecl {name : Token} {v : List Token} {type? : Option String} (init? : Option Expr)
    (pos : Position) (hname : T name) (hkind : name.kind = .ident) (hv : ∀ token ∈ v, T token)
    (ascription : Annotation v type?) : Q (.varDecl name.text type? init? pos)
  fnDecl {name : Token} {u v : List Token} {params : List Param} {returns? : Option String}
    (body : List Stmt) (bodyPos pos : Position) (hname : T name) (hkind : name.kind = .ident)
    (hu : ∀ token ∈ u, T token) (parameters : Listed Parameter u params)
    (hv : ∀ token ∈ v, T token) (ascription : Annotation v returns?) :
    Q (.fnDecl name.text params returns? body bodyPos pos)
  conditional {v w rest : List Token} {body : Stmt} {else? : Option Stmt} (cond : Expr)
    (pos : Position) (branch : Statement v (w ++ rest) body)
    (otherwise : Otherwise w rest else?) : Q (.ifElse cond body else? pos)
  whileLoop {w rest : List Token} {body : Stmt} (cond : Expr) (pos : Position)
    (branch : Statement w rest body) : Q (.whileLoop cond body pos)

section

variable {T : Token → Prop} {P : Expr → Prop} {Q : Stmt → Prop}

mutual

theorem Statement.every (hexpr : ExprRules T P) (hstmt : StmtRules T Q)
    {w rest : List Token} {s : Stmt} :
    Statement w rest s → (∀ token ∈ w, T token) → s.Every P Q
  | .block body, h => ⟨hstmt.block _ _, body.every hexpr hstmt h⟩
  | .conditional habi hlparen condition hrparen branch otherwise, h => by
      simp only [List.forall_mem_append, List.forall_mem_cons] at h
      obtain ⟨-, -, hcond, -, hbody, helse⟩ := h
      exact ⟨hstmt.conditional _ _ branch otherwise, condition.every hexpr hcond,
        branch.every hexpr hstmt hbody, otherwise.every hexpr hstmt helse⟩
  | .whileLoop hwaka hlparen condition hrparen branch, h => by
      simp only [List.forall_mem_append, List.forall_mem_cons] at h
      obtain ⟨-, -, hcond, -, hbody⟩ := h
      exact ⟨hstmt.whileLoop _ _ branch, condition.every hexpr hcond,
        branch.every hexpr hstmt hbody⟩
  | .ret hcomot hsemicolon, h => ⟨hstmt.ret _ _, by simp⟩
  | .retValue hcomot value hsemicolon, h => by
      simp only [List.forall_mem_append, List.forall_mem_cons] at h
      exact ⟨hstmt.ret _ _, by simpa using value.every hexpr h.2.1⟩
  | .expr value hsemicolon, h => by
      rw [← List.cons_append, List.forall_mem_append] at h
      exact ⟨hstmt.expr _ _, value.every hexpr h.1⟩

theorem Otherwise.every (hexpr : ExprRules T P) (hstmt : StmtRules T Q)
    {w rest : List Token} {else? : Option Stmt} :
    Otherwise w rest else? → (∀ token ∈ w, T token) → Stmt.EveryElse P Q else?
  | .none _, _ => trivial
  | .some hnaso branch, h => by
      rw [List.forall_mem_cons] at h
      exact branch.every hexpr hstmt h.2

theorem Body.every (hexpr : ExprRules T P) (hstmt : StmtRules T Q)
    {w rest : List Token} {b : Block} :
    Body w rest b → (∀ token ∈ w, T token) → Stmt.EveryOf P Q b.body
  | .mk hlbrace inner hrbrace, h => by
      simp only [List.forall_mem_append, List.forall_mem_cons] at h
      exact inner.every hexpr hstmt h.2.1

theorem Declaration.every (hexpr : ExprRules T P) (hstmt : StmtRules T Q)
    {w rest : List Token} {s : Stmt} :
    Declaration w rest s → (∀ token ∈ w, T token) → s.Every P Q
  | .varDecl habeg hname ascription initializer hsemicolon, h => by
      simp only [List.forall_mem_append, List.forall_mem_cons] at h
      obtain ⟨-, hident, htype, hinit, -⟩ := h
      exact ⟨hstmt.varDecl _ _ hident hname htype ascription, initializer.every hexpr hinit⟩
  | .fnDecl hoya hname hlparen parameters hrparen ascription body, h => by
      simp only [List.forall_mem_append, List.forall_mem_cons] at h
      obtain ⟨-, hident, -, hparams, -, htype, hbody⟩ := h
      exact ⟨hstmt.fnDecl _ _ _ hident hname hparams parameters htype ascription,
        body.every hexpr hstmt hbody⟩
  | .statement inner, h => inner.every hexpr hstmt h

theorem Declarations.every (hexpr : ExprRules T P) (hstmt : StmtRules T Q)
    {w rest : List Token} {ss : List Stmt} :
    Declarations w rest ss → (∀ token ∈ w, T token) → Stmt.EveryOf P Q ss
  | .nil, _ => trivial
  | .cons first more, h => by
      rw [List.forall_mem_append] at h
      exact ⟨first.every hexpr hstmt h.1, more.every hexpr hstmt h.2⟩

end

end

theorem stmtRules_proper : StmtRules Token.Spelled Stmt.Proper where
  expr _ _ := trivial
  ret _ _ := trivial
  block _ _ := trivial
  varDecl _ _ hname hkind hv ascription := ⟨hname.isName hkind, ascription.mem_typeNames hv⟩
  fnDecl _ _ _ hname hkind hu parameters hv ascription :=
    ⟨hname.isName hkind, proper_of_parameters parameters hu, ascription.mem_typeNames hv⟩
  conditional {v w rest body else?} _ _ branch otherwise := by
    refine ⟨branch.isBranch, ?_⟩
    cases otherwise with
    | none => simp
    | some hnaso inner =>
        have hclosed := mt branch.nextKind_ne (by simp [nextKind, hnaso])
        simpa using ⟨inner.isBranch, Bool.eq_false_iff.2 hclosed⟩
  whileLoop _ _ branch := branch.isBranch

theorem Declarations.proper {w rest : List Token} {ss : List Stmt} (h : Declarations w rest ss)
    (hspelled : ∀ token ∈ w, token.Spelled) : Stmt.EveryOf Expr.Proper Stmt.Proper ss :=
  h.every exprRules_proper stmtRules_proper hspelled

end Grammar

end Pidgin
