import Pidgin.Proofs.Grammar.Completion
import Pidgin.Proofs.Grammar.WellFormed
import Pidgin.Proofs.Tree.Written

/-!
# What is written is a phrase

The tokens that are written for a well-formed tree are a phrase with this tree, up
to positions.  The parentheses among them are needed: no phrase with this tree has
fewer.
-/

namespace Pidgin

open Grammar

theorem Token.reading_eq {token : Token} {kind : Kind} {text : String}
    (h : token.reading = (kind, text)) : token.kind = kind ∧ token.text = text :=
  Prod.mk.inj h

theorem Numeral.readInt?_toString {n : Nat} (h : n ≤ 9223372036854775807) :
    readInt? (toString n) = some (n : Int) := by
  have hdigits : ∀ c ∈ Nat.toDigits 10 n, c.isDigit = true := fun c hc =>
    Nat.isDigit_of_mem_toDigits (by decide) (by decide) hc
  have hvalue : value (Nat.toDigits 10 n) = n := Nat.ofDigitChars_toDigits (by decide) (by decide)
  have hall : isDigits (Nat.toDigits 10 n) = true := by
    simpa [isDigits, Nat.toDigits_ne_nil] using hdigits
  have hfits : fits (n : Int) = true := by
    simp only [fits, Bool.and_eq_true, decide_eq_true_eq]
    omega
  rw [Nat.toString_eq_repr, readInt?, Nat.toList_repr, splitSign_digits hdigits]
  simp [hall, hvalue, hfits]

theorem Grammar.denotes_reading {token : Token} {value : Literal} {pos : Position}
    (h : (Expr.literal value pos).Proper) (hfloat : (Expr.literal value pos).NotFloat)
    (htoken : token.reading = value.reading) : Denotes token value := by
  cases value with
  | int n =>
      obtain ⟨hkind, htext⟩ := Token.reading_eq htoken
      obtain ⟨m, rfl⟩ := Int.eq_ofNat_of_zero_le h.1
      refine .integer hkind ?_
      rw [htext]
      exact Numeral.readInt?_toString (Int.ofNat_le.1 h.2)
  | float x => exact absurd rfl (hfloat x pos)
  | string text =>
      obtain ⟨hkind, rfl⟩ := Token.reading_eq htoken
      exact .string hkind
  | bool b =>
      cases b with
      | true => exact .litTrue (Token.reading_eq htoken).1
      | false => exact .litFalse (Token.reading_eq htoken).1

/-! ## Lists and brackets -/

section

variable {w : List Token} {readings : List (Kind × String)} {kind : Kind}

theorem exists_cons_kind (h : w.map Token.reading = kind.reading :: readings) :
    ∃ token v, w = token :: v ∧ token.kind = kind ∧ v.map Token.reading = readings := by
  obtain ⟨token, v, rfl, htoken, hv⟩ := List.map_eq_cons_iff.1 h
  exact ⟨token, v, rfl, (Token.reading_eq htoken).1, hv⟩

theorem exists_concat_kind (h : w.map Token.reading = readings ++ [kind.reading]) :
    ∃ v token, w = v ++ [token] ∧ v.map Token.reading = readings ∧ token.kind = kind := by
  obtain ⟨v, last, rfl, hv, hlast⟩ := List.map_eq_append_iff.1 h
  obtain ⟨token, rfl, htoken⟩ := List.map_eq_singleton_iff.1 hlast
  exact ⟨v, token, rfl, hv, (Token.reading_eq htoken).1⟩

theorem exists_bracketed {opened closed : Kind}
    (h : w.map Token.reading = opened.reading :: (readings ++ [closed.reading])) :
    ∃ first inner last, w = first :: (inner ++ [last]) ∧ first.kind = opened ∧
      inner.map Token.reading = readings ∧ last.kind = closed := by
  obtain ⟨first, more, rfl, hfirst, hmore⟩ := exists_cons_kind h
  obtain ⟨inner, last, rfl, hinner, hlast⟩ := exists_concat_kind hmore
  exact ⟨first, inner, last, rfl, hfirst, hinner, hlast⟩

end

section

variable {α β : Type} {item : List Token → α → Prop} {same : α → β → Prop}
  {write : β → List (Kind × String)}

theorem separated_of_readings {x : β} {xs : List β} {w : List Token}
    (h : ∀ y ∈ x :: xs, ∀ w, w.map Token.reading = write y → ∃ a, item w a ∧ same a y)
    (hw : w.map Token.reading = commaSeparated ((x :: xs).map write)) :
    ∃ as, Separated item w as ∧ List.Forall₂ same as (x :: xs) := by
  induction xs generalizing x w with
  | nil =>
      obtain ⟨a, ha, hsame⟩ := h x (by simp) w hw
      exact ⟨[a], .one ha, .cons hsame .nil⟩
  | cons y ys ih =>
      obtain ⟨v, more, rfl, hv, hmore⟩ := List.map_eq_append_iff.1 hw
      obtain ⟨comma, u, rfl, hcomma, hu⟩ := exists_cons_kind hmore
      rw [List.forall_mem_cons] at h
      obtain ⟨a, ha, hsame⟩ := h.1 v hv
      obtain ⟨as, has, hsames⟩ := ih h.2 hu
      exact ⟨a :: as, .more ha hcomma has, .cons hsame hsames⟩

theorem listed_of_readings {xs : List β} {w : List Token}
    (h : ∀ y ∈ xs, ∀ w, w.map Token.reading = write y → ∃ a, item w a ∧ same a y)
    (hw : w.map Token.reading = commaSeparated (xs.map write)) :
    ∃ as, Listed item w as ∧ List.Forall₂ same as xs := by
  cases xs with
  | nil =>
      obtain rfl := List.map_eq_nil_iff.1 hw
      exact ⟨[], .none, .nil⟩
  | cons x xs =>
      obtain ⟨as, has, hsames⟩ := separated_of_readings h hw
      exact ⟨as, .some has, hsames⟩

end

/-! ## Expressions -/

theorem Expr.readingsAll_eq (es : List Expr) :
    Expr.readingsAll es = es.map (·.readings .assignment) := by
  induction es with
  | nil => rfl
  | cons e es ih => rw [Expr.readingsAll, ih, List.map_cons]

theorem Expr.eraseAll_congr {as es : List Expr} (h : List.Forall₂ (·.erase = ·.erase) as es) :
    Expr.eraseAll as = Expr.eraseAll es := by
  induction h with
  | nil => rfl
  | cons h _ ih => rw [Expr.eraseAll, Expr.eraseAll, h, ih]

/-- Tokens that read so are an expression with this tree, up to positions. -/
def Derives (power : Power) (readings : List (Kind × String)) (e : Expr) : Prop :=
  ∀ w : List Token, w.map Token.reading = readings →
    ∃ e', Expression power w e' ∧ e'.erase = e.erase

theorem Derives.grouped {own asked : Power} {readings : List (Kind × String)} {e : Expr}
    (hown : .assignment ≤ own) (h : Derives own readings e) :
    Derives asked (grouped own asked readings) e := by
  intro w hw
  unfold Pidgin.grouped at hw
  split at hw
  · obtain ⟨lparen, inner, rparen, rfl, hlparen, hinner, hrparen⟩ := exists_bracketed hw
    obtain ⟨e', he, hsame⟩ := h inner hinner
    have hgroup := Expression.grouping hlparen (he.loosen hown) hrparen
    exact ⟨e', hgroup.loosen (by cases asked <;> decide), hsame⟩
  · rename_i htight
    obtain ⟨e', he, hsame⟩ := h w hw
    exact ⟨e', he.loosen (Nat.le_of_not_lt htight), hsame⟩

theorem mem_operators_power {op : Kind} (h : op ∈ binaryOperators) :
    op ∈ operators op.power ∧ .assignment ≤ op.power := by
  revert op
  decide

mutual

theorem Expr.derives : (e : Expr) → e.Every Expr.Proper → e.Every Expr.NotFloat →
    ∀ asked, Derives asked (e.readings asked) e
  | .literal value pos, h, hfloat, asked => by
      intro w hw
      obtain ⟨token, rfl, htoken⟩ := List.map_eq_singleton_iff.1 hw
      have hprimary := Expression.literal (denotes_reading h hfloat htoken)
      exact ⟨_, hprimary.loosen (by cases asked <;> decide), rfl⟩
  | .var name pos, _, _, asked => by
      intro w hw
      obtain ⟨token, rfl, htoken⟩ := List.map_eq_singleton_iff.1 hw
      obtain ⟨hkind, rfl⟩ := Token.reading_eq htoken
      exact ⟨_, (Expression.var hkind).loosen (by cases asked <;> decide), rfl⟩
  | .binary op left right pos, ⟨hop, hleft, hright⟩, ⟨_, hleft', hright'⟩, asked => by
      obtain ⟨hmem, hpower⟩ := mem_operators_power hop
      refine Derives.grouped hpower fun w hw => ?_
      obtain ⟨v, more, rfl, hv, hmore⟩ := List.map_eq_append_iff.1 hw
      obtain ⟨operator, u, rfl, hoperator, hu⟩ := List.map_eq_cons_iff.1 hmore
      obtain ⟨a, ha, hsame⟩ := left.derives hleft hleft' _ v hv
      obtain ⟨b, hb, hsame'⟩ := right.derives hright hright' _ u hu
      obtain ⟨rfl, -⟩ := Token.reading_eq hoperator
      exact ⟨_, .binary ha hmem hb, by simp [Expr.erase, hsame, hsame']⟩
  | .unary op operand pos, ⟨hop, hoperand⟩, ⟨_, hoperand'⟩, asked => by
      refine Derives.grouped (by decide) fun w hw => ?_
      obtain ⟨operator, u, rfl, hoperator, hu⟩ := List.map_eq_cons_iff.1 hw
      obtain ⟨a, ha, hsame⟩ := operand.derives hoperand hoperand' _ u hu
      obtain ⟨rfl, -⟩ := Token.reading_eq hoperator
      have hkind : operator.kind = .bang ∨ operator.kind = .minus := by
        simpa [Expr.Proper, unaryOperators] using hop
      exact ⟨_, .unary hkind ha, by simp [Expr.erase, hsame]⟩
  | .call callee args pos, ⟨_, hcallee, hargs⟩, ⟨_, hcallee', hargs'⟩, asked => by
      refine Derives.grouped (by decide) fun w hw => ?_
      obtain ⟨v, more, rfl, hv, hmore⟩ := List.map_eq_append_iff.1 hw
      obtain ⟨lparen, inner, rparen, rfl, hlparen, hinner, hrparen⟩ := exists_bracketed hmore
      obtain ⟨a, ha, hsame⟩ := callee.derives hcallee hcallee' _ v hv
      rw [Expr.readingsAll_eq] at hinner
      obtain ⟨as, has, hsames⟩ :=
        listed_of_readings (fun e he => Expr.derives_all args hargs hargs' e he .assignment) hinner
      refine ⟨_, .call ha hlparen has hrparen, ?_⟩
      simp [Expr.erase, hsame, Expr.eraseAll_congr hsames]
  | .index object place pos, ⟨_, hobject, hplace⟩, ⟨_, hobject', hplace'⟩, asked => by
      refine Derives.grouped (by decide) fun w hw => ?_
      obtain ⟨v, more, rfl, hv, hmore⟩ := List.map_eq_append_iff.1 hw
      obtain ⟨lbracket, inner, rbracket, rfl, hlbracket, hinner, hrbracket⟩ :=
        exists_bracketed hmore
      obtain ⟨a, ha, hsame⟩ := object.derives hobject hobject' _ v hv
      obtain ⟨b, hb, hsame'⟩ := place.derives hplace hplace' _ inner hinner
      exact ⟨_, .index ha hlbracket hb hrbracket, by simp [Expr.erase, hsame, hsame']⟩
  | .array elements pos, ⟨_, helements⟩, ⟨_, helements'⟩, asked => by
      intro w hw
      obtain ⟨lbracket, inner, rbracket, rfl, hlbracket, hinner, hrbracket⟩ := exists_bracketed hw
      rw [Expr.readingsAll_eq] at hinner
      obtain ⟨as, has, hsames⟩ := listed_of_readings
        (fun e he => Expr.derives_all elements helements helements' e he .assignment) hinner
      have hprimary := Expression.array hlbracket has hrbracket
      refine ⟨_, hprimary.loosen (by cases asked <;> decide), ?_⟩
      simp [Expr.erase, Expr.eraseAll_congr hsames]
  | .assign name value pos, ⟨_, hvalue⟩, ⟨_, hvalue'⟩, asked => by
      refine Derives.grouped (by decide) fun w hw => ?_
      obtain ⟨target, more, rfl, htarget, hmore⟩ := List.map_eq_cons_iff.1 hw
      obtain ⟨equals, u, rfl, hequals, hu⟩ := exists_cons_kind hmore
      obtain ⟨a, ha, hsame⟩ := value.derives hvalue hvalue' _ u hu
      obtain ⟨hkind, rfl⟩ := Token.reading_eq htarget
      have hassign := Expression.assign (.var hkind) hequals ha
      exact ⟨_, hassign, by simp [Expr.erase, hsame]⟩

theorem Expr.derives_all : (es : List Expr) → Expr.EveryOf Expr.Proper es →
    Expr.EveryOf Expr.NotFloat es → ∀ e ∈ es, ∀ asked, Derives asked (e.readings asked) e
  | [], _, _ => by simp
  | e :: es, ⟨he, hes⟩, ⟨he', hes'⟩ => by
      rw [List.forall_mem_cons]
      exact ⟨e.derives he he', Expr.derives_all es hes hes'⟩

end

/-! ## Statements -/

theorem Stmt.endsOpen_ifElse (cond : Expr) (body : Stmt) (else? : Option Stmt) (pos : Position) :
    (Stmt.ifElse cond body else? pos).endsOpen = else?.all Stmt.endsOpen := by
  cases else? <;> simp [Stmt.endsOpen]

theorem Grammar.Declarations.append_ne_naso {w rest : List Token} {ss : List Stmt}
    (h : Declarations w rest ss) (hrest : nextKind rest ≠ .naso) :
    nextKind (w ++ rest) ≠ .naso := by
  cases h with
  | nil => exact hrest
  | cons first more =>
      have hnaso := first.ne_naso
      obtain ⟨token, v, rfl, -⟩ := first.head
      exact hnaso

theorem annotation_of_readings {type? : Option String} {w : List Token}
    (hw : w.map Token.reading = annotationReadings type?) : Annotation w type? := by
  cases type? with
  | none =>
      obtain rfl := List.map_eq_nil_iff.1 hw
      exact .none
  | some type =>
      obtain ⟨colon, more, rfl, hcolon, hmore⟩ := exists_cons_kind hw
      obtain ⟨name, rfl, hname⟩ := List.map_eq_singleton_iff.1 hmore
      obtain ⟨hkind, rfl⟩ := Token.reading_eq hname
      exact .some hcolon hkind

theorem initializer_of_readings {init? : Option Expr} (h : ∀ e ∈ init?, e.Every Expr.Proper)
    (hfloat : ∀ e ∈ init?, e.Every Expr.NotFloat) {w : List Token}
    (hw : w.map Token.reading = initializerReadings init?) :
    ∃ init', Initializer w init' ∧ init'.map Expr.erase = init?.map Expr.erase := by
  cases init? with
  | none =>
      obtain rfl := List.map_eq_nil_iff.1 hw
      exact ⟨none, .none, rfl⟩
  | some e =>
      obtain ⟨equals, u, rfl, hequals, hu⟩ := exists_cons_kind hw
      obtain ⟨a, ha, hsame⟩ := e.derives (h e rfl) (hfloat e rfl) _ u hu
      exact ⟨some a, .some hequals ha, by simp [hsame]⟩

theorem parameters_of_readings {params : List Param} {w : List Token}
    (hw : w.map Token.reading = commaSeparated (params.map Param.readings)) :
    Listed Parameter w params := by
  have hparam : ∀ param ∈ params, ∀ w, w.map Token.reading = param.readings →
      ∃ param', Parameter w param' ∧ param' = param := by
    intro param _ w hw
    obtain ⟨name, more, rfl, hname, hmore⟩ := List.map_eq_cons_iff.1 hw
    obtain ⟨colon, more, rfl, hcolon, hmore⟩ := exists_cons_kind hmore
    obtain ⟨type, rfl, htype⟩ := List.map_eq_singleton_iff.1 hmore
    obtain ⟨hident, htext⟩ := Token.reading_eq hname
    obtain ⟨hkind, htext'⟩ := Token.reading_eq htype
    exact ⟨_, .mk hident hcolon hkind, by rw [htext, htext']⟩
  obtain ⟨params', hparams, hsame⟩ := listed_of_readings hparam hw
  rw [List.forall₂_eq_eq_eq] at hsame
  exact hsame ▸ hparams

theorem body_of_readings {body : List Stmt}
    (h : ∀ {w rest : List Token}, w.map Token.reading = Stmt.readingsAll body →
      nextKind rest ≠ .naso → ∃ ts, Declarations w rest ts ∧ Stmt.eraseAll ts = Stmt.eraseAll body)
    {w : List Token} (hw : w.map Token.reading =
      Kind.reading .lbrace :: (Stmt.readingsAll body ++ [Kind.reading .rbrace]))
    (rest : List Token) : ∃ b, Body w rest b ∧ Stmt.eraseAll b.body = Stmt.eraseAll body := by
  obtain ⟨lbrace, inner, rbrace, rfl, hlbrace, hinner, hrbrace⟩ := exists_bracketed hw
  have hnext : nextKind (rbrace :: rest) ≠ .naso := by simp [nextKind, hrbrace]
  obtain ⟨ts, hts, hsame⟩ := h hinner hnext
  exact ⟨⟨ts, lbrace.pos⟩, .mk hlbrace hts hrbrace, hsame⟩

/-- In front of `rest`, the tokens are a phrase with the tree `t`, which is `s` up to positions,
and a statement unless `s` is a declaration. -/
structure Stmt.ReadAs (s : Stmt) (w rest : List Token) (t : Stmt) : Prop where
  declaration : Declaration w rest t
  statement : s.isBranch = true → Statement w rest t
  same : t.erase = s.erase

theorem Stmt.readAs_of_statement {s t : Stmt} {w rest : List Token} (h : Statement w rest t)
    (hsame : t.erase = s.erase) : s.ReadAs w rest t :=
  ⟨.statement h, fun _ => h, hsame⟩

mutual

theorem Stmt.derives : (s : Stmt) → s.Every Expr.Proper Stmt.Proper →
    s.Every Expr.NotFloat (fun _ => True) → ∀ {w rest : List Token},
      w.map Token.reading = s.readings → (s.endsOpen = true → nextKind rest ≠ .naso) →
      ∃ t, s.ReadAs w rest t
  | .expr value pos, ⟨_, hvalue⟩, ⟨_, hvalue'⟩, w, rest, hw, _ => by
      obtain ⟨v, semicolon, rfl, hv, hsemicolon⟩ := exists_concat_kind hw
      obtain ⟨e, he, hsame⟩ := value.derives hvalue hvalue' _ v hv
      cases v with
      | nil => exact absurd rfl (he.opens [])
      | cons first v =>
          exact ⟨_, readAs_of_statement (.expr he hsemicolon) (by simp [Stmt.erase, hsame])⟩
  | .varDecl name type? init? pos, ⟨_, hinit⟩, ⟨_, hinit'⟩, w, rest, hw, _ => by
      obtain ⟨abeg, more, rfl, habeg, hmore⟩ := exists_cons_kind hw
      obtain ⟨ident, more, rfl, hident, hmore⟩ := List.map_eq_cons_iff.1 hmore
      obtain ⟨v, more, rfl, hv, hmore⟩ := List.map_eq_append_iff.1 hmore
      obtain ⟨u, semicolon, rfl, hu, hsemicolon⟩ := exists_concat_kind hmore
      obtain ⟨init', hinitializer, hsame⟩ := initializer_of_readings hinit hinit' hu
      obtain ⟨hkind, rfl⟩ := Token.reading_eq hident
      have hphrase : Declaration _ rest _ := .varDecl habeg hkind (annotation_of_readings hv)
        hinitializer hsemicolon
      exact ⟨_, hphrase, by simp [Stmt.isBranch], by simp [Stmt.erase, hsame]⟩
  | .fnDecl name params returns? body bodyPos pos, ⟨_, hbody⟩, ⟨_, hbody'⟩, w, rest, hw, _ => by
      obtain ⟨oya, more, rfl, hoya, hmore⟩ := exists_cons_kind hw
      obtain ⟨ident, more, rfl, hident, hmore⟩ := List.map_eq_cons_iff.1 hmore
      obtain ⟨lparen, more, rfl, hlparen, hmore⟩ := exists_cons_kind hmore
      obtain ⟨u, more, rfl, hu, hmore⟩ := List.map_eq_append_iff.1 hmore
      obtain ⟨rparen, more, rfl, hrparen, hmore⟩ := exists_cons_kind hmore
      obtain ⟨v, more, rfl, hv, hmore⟩ := List.map_eq_append_iff.1 hmore
      obtain ⟨b, hb, hsame⟩ := body_of_readings (Stmt.derives_all body hbody hbody') hmore rest
      obtain ⟨hkind, rfl⟩ := Token.reading_eq hident
      have hphrase : Declaration _ rest _ := .fnDecl hoya hkind hlparen
        (parameters_of_readings hu) hrparen (annotation_of_readings hv) hb
      exact ⟨_, hphrase, by simp [Stmt.isBranch], by simp [Stmt.erase, hsame]⟩
  | .ifElse cond body else? pos, ⟨hnode, hcond, hbody, helse⟩, ⟨_, hcond', hbody', helse'⟩,
      w, rest, hw, hopen => by
      rw [Stmt.endsOpen_ifElse] at hopen
      obtain ⟨abi, more, rfl, habi, hmore⟩ := exists_cons_kind hw
      obtain ⟨lparen, more, rfl, hlparen, hmore⟩ := exists_cons_kind hmore
      obtain ⟨c, more, rfl, hc, hmore⟩ := List.map_eq_append_iff.1 hmore
      obtain ⟨rparen, more, rfl, hrparen, hmore⟩ := exists_cons_kind hmore
      obtain ⟨v, u, rfl, hv, hu⟩ := List.map_eq_append_iff.1 hmore
      obtain ⟨e, he, hsame⟩ := cond.derives hcond hcond' _ c hc
      obtain ⟨t?, hotherwise, hsame'⟩ := Stmt.derives_else else? helse helse'
        (fun s hs => (hnode.2 s hs).1) hu hopen
      -- With an other branch behind it, the first one does not end open.
      have hnext : body.endsOpen = true → nextKind (u ++ rest) ≠ .naso := by
        intro hbodyOpen
        cases else? with
        | none =>
            obtain rfl := List.map_eq_nil_iff.1 hu
            exact hopen rfl
        | some s => simp [(hnode.2 s rfl).2] at hbodyOpen
      obtain ⟨t, ht⟩ := body.derives hbody hbody' hv hnext
      have hphrase : Statement _ rest _ := .conditional habi hlparen he hrparen
        (ht.statement hnode.1) hotherwise
      exact ⟨_, readAs_of_statement hphrase (by simp [Stmt.erase, hsame, ht.same, hsame'])⟩
  | .whileLoop cond body pos, ⟨hnode, hcond, hbody⟩, ⟨_, hcond', hbody'⟩, w, rest, hw, hopen => by
      obtain ⟨waka, more, rfl, hwaka, hmore⟩ := exists_cons_kind hw
      obtain ⟨lparen, more, rfl, hlparen, hmore⟩ := exists_cons_kind hmore
      obtain ⟨c, more, rfl, hc, hmore⟩ := List.map_eq_append_iff.1 hmore
      obtain ⟨rparen, v, rfl, hrparen, hv⟩ := exists_cons_kind hmore
      obtain ⟨e, he, hsame⟩ := cond.derives hcond hcond' _ c hc
      obtain ⟨t, ht⟩ := body.derives hbody hbody' hv (by simpa [Stmt.endsOpen] using hopen)
      have hphrase : Statement _ rest _ := .whileLoop hwaka hlparen he hrparen
        (ht.statement hnode)
      exact ⟨_, readAs_of_statement hphrase (by simp [Stmt.erase, hsame, ht.same])⟩
  | .ret none pos, _, _, w, rest, hw, _ => by
      obtain ⟨comot, more, rfl, hcomot, hmore⟩ := exists_cons_kind hw
      obtain ⟨semicolon, more, rfl, hsemicolon, hmore⟩ := exists_cons_kind hmore
      obtain rfl := List.map_eq_nil_iff.1 hmore
      exact ⟨_, readAs_of_statement (.ret hcomot hsemicolon) rfl⟩
  | .ret (some value) pos, ⟨_, hvalue⟩, ⟨_, hvalue'⟩, w, rest, hw, _ => by
      obtain ⟨comot, more, rfl, hcomot, hmore⟩ := exists_cons_kind hw
      obtain ⟨v, semicolon, rfl, hv, hsemicolon⟩ := exists_concat_kind hmore
      obtain ⟨e, he, hsame⟩ := value.derives (hvalue value rfl) (hvalue' value rfl) _ v hv
      exact ⟨_, readAs_of_statement (.retValue hcomot he hsemicolon)
        (by simp [Stmt.erase, hsame])⟩
  | .block body pos, ⟨_, hbody⟩, ⟨_, hbody'⟩, w, rest, hw, _ => by
      obtain ⟨b, hb, hsame⟩ := body_of_readings (Stmt.derives_all body hbody hbody') hw rest
      exact ⟨_, readAs_of_statement (.block hb) (by simp [Stmt.ofBlock, Stmt.erase, hsame])⟩

theorem Stmt.derives_else : (else? : Option Stmt) → Stmt.EveryElse Expr.Proper Stmt.Proper else? →
    Stmt.EveryElse Expr.NotFloat (fun _ => True) else? → (∀ s ∈ else?, s.isBranch = true) →
      ∀ {w rest : List Token}, w.map Token.reading = Stmt.readingsElse else? →
      (else?.all Stmt.endsOpen = true → nextKind rest ≠ .naso) →
      ∃ t?, Otherwise w rest t? ∧ Stmt.eraseElse t? = Stmt.eraseElse else?
  | none, _, _, _, w, rest, hw, hopen => by
      obtain rfl := List.map_eq_nil_iff.1 hw
      exact ⟨none, .none (hopen rfl), rfl⟩
  | some s, h, h', hbranch, w, rest, hw, hopen => by
      obtain ⟨naso, v, rfl, hnaso, hv⟩ := exists_cons_kind hw
      obtain ⟨t, ht⟩ := s.derives h h' hv hopen
      exact ⟨some t, .some hnaso (ht.statement (hbranch s rfl)),
        by simp [Stmt.eraseElse, ht.same]⟩

theorem Stmt.derives_all : (ss : List Stmt) → Stmt.EveryOf Expr.Proper Stmt.Proper ss →
    Stmt.EveryOf Expr.NotFloat (fun _ => True) ss → ∀ {w rest : List Token},
      w.map Token.reading = Stmt.readingsAll ss → nextKind rest ≠ .naso →
      ∃ ts, Declarations w rest ts ∧ Stmt.eraseAll ts = Stmt.eraseAll ss
  | [], _, _, w, rest, hw, _ => by
      obtain rfl := List.map_eq_nil_iff.1 hw
      exact ⟨[], .nil, rfl⟩
  | s :: ss, ⟨hs, hss⟩, ⟨hs', hss'⟩, w, rest, hw, hrest => by
      obtain ⟨v, u, rfl, hv, hu⟩ := List.map_eq_append_iff.1 hw
      obtain ⟨ts, hts, hsame⟩ := Stmt.derives_all ss hss hss' hu hrest
      obtain ⟨t, ht⟩ := s.derives hs hs' hv fun _ => hts.append_ne_naso hrest
      exact ⟨t :: ts, .cons ht.declaration hts, by simp [Stmt.eraseAll, ht.same, hsame]⟩

end

end Pidgin
