import Pidgin.Proofs.Grammar.Climb
import Pidgin.Proofs.Parse.Recovery

/-!
# The descent reads the phrases of the grammar

Statements and declarations follow the grammar form by form.  Two forms need
more than that.  A block drops the declarations that failed, but such a failure
leaves the parser panicking, so a clean run has dropped none.  And the links of
a chain of conditionals are read in a loop, where the grammar nests each link in
the branch before it.
-/

namespace Pidgin

open Grammar

namespace Parse

/-! ## What the descent has read is a phrase -/

theorem recognizes_typeName (expectation : String) :
    Recognizes (typeName expectation) fun w _ name =>
      ∃ type, w = [type] ∧ type.kind = .typeName ∧ name = type.text := by
  intro p name q h hq
  obtain ⟨type, r, hexpect, hpure⟩ := bind_ok h
  cases hpure
  obtain ⟨hkind, hahead, -⟩ := expect_ok hexpect
  exact ⟨[type], hahead, type, rfl, hkind, rfl⟩

theorem recognizes_annotation? (expectation : String) :
    Recognizes (annotation? expectation) fun w _ type? => Annotation w type? := by
  intro p type? q h hq
  obtain ⟨found, r, haccept, h⟩ := bind_ok h
  cases found with
  | false =>
      cases h
      obtain ⟨rfl, -⟩ := accept_false haccept
      exact ⟨[], rfl, .none⟩
  | true =>
      obtain ⟨colon, hcolon, hahead, -⟩ := accept_true haccept
      obtain ⟨name, r', htype, hpure⟩ := bind_ok h
      cases hpure
      obtain ⟨_, hw, type, rfl, hkind, rfl⟩ := recognizes_typeName _ r name q htype hq
      refine ⟨[colon, type], ?_, .some hcolon hkind⟩
      rw [hahead, hw]
      rfl

theorem recognizes_param : Recognizes param fun w _ param => Parameter w param := by
  intro p result q h hq
  obtain ⟨name, r, hname, h⟩ := bind_ok h
  obtain ⟨colon, r', hcolon, h⟩ := bind_ok h
  obtain ⟨_, r'', htype, hpure⟩ := bind_ok h
  cases hpure
  obtain ⟨hname, hahead, -⟩ := expect_ok hname
  obtain ⟨hcolon, hahead', -⟩ := expect_ok hcolon
  obtain ⟨_, hw, type, rfl, hkind, rfl⟩ := recognizes_typeName _ r' _ q htype hq
  refine ⟨[name, colon, type], ?_, .mk hname hcolon hkind⟩
  rw [hahead, hahead', hw]
  rfl

section

variable {value : Parse Expr} {block : Parse Block} {statement declaration : Parse Stmt}

section

variable (hvalue : Recognizes value (Level .assignment))

include hvalue

theorem recognizes_initializer? :
    Recognizes (initializer? value) fun w _ init? => Initializer w init? := by
  intro p init? q h hq
  obtain ⟨found, r, haccept, h⟩ := bind_ok h
  cases found with
  | false =>
      cases h
      obtain ⟨rfl, -⟩ := accept_false haccept
      exact ⟨[], rfl, .none⟩
  | true =>
      obtain ⟨equals, hequals, hahead, -⟩ := accept_true haccept
      obtain ⟨e, r', he, hpure⟩ := bind_ok h
      cases hpure
      obtain ⟨w, hw, hlevel, -⟩ := hvalue r e q he hq
      refine ⟨equals :: w, ?_, .some hequals hlevel⟩
      rw [hahead, hw]
      rfl

theorem recognizes_varDecl (hsteady : Steady value) :
    RecognizesAt .abeg (varDecl value) Declaration := by
  intro p s q hkind h hq
  obtain ⟨abeg, p₀, habeg, hahead, h⟩ := advance_ok h hkind (by decide)
  obtain ⟨name, p₁, hname, h⟩ := bind_ok h
  obtain ⟨type?, p₂, htype, h⟩ := bind_ok h
  obtain ⟨init?, p₃, hinit, h⟩ := bind_ok h
  obtain ⟨semicolon, _, hsemicolon, hpure⟩ := bind_ok h
  cases hpure
  obtain ⟨hname, hahead₁, -⟩ := expect_ok hname
  obtain ⟨hsemicolon, hahead₃, hmode⟩ := expect_ok hsemicolon
  have hq₃ : p₃.mode = .normal := hmode ▸ hq
  have hq₂ := (steady_initializer? hsteady).normal_of_ok hinit hq₃
  obtain ⟨v, hv, hascribed⟩ := recognizes_annotation? _ p₁ type? p₂ htype hq₂
  obtain ⟨w, hw, hinitializer⟩ := recognizes_initializer? hvalue p₂ init? p₃ hinit hq₃
  refine ⟨abeg :: name :: (v ++ (w ++ [semicolon])), ?_,
    .varDecl habeg hname hascribed hinitializer hsemicolon⟩
  rw [hahead, hahead₁, hv, hw, hahead₃]
  simp

end

theorem recognizes_fnDecl (hsteady : Steady block) (hblock : Recognizes block Body) :
    RecognizesAt .oya (fnDecl block) Declaration := by
  intro p s q hkind h hq
  obtain ⟨oya, p₀, hoya, hahead, h⟩ := advance_ok h hkind (by decide)
  obtain ⟨name, p₁, hname, h⟩ := bind_ok h
  obtain ⟨lparen, p₂, hlparen, h⟩ := bind_ok h
  obtain ⟨params, p₃, hparams, h⟩ := bind_ok h
  obtain ⟨returns?, p₄, hreturns, h⟩ := bind_ok h
  obtain ⟨b, _, hbody, hpure⟩ := bind_ok h
  cases hpure
  obtain ⟨hname, hahead₁, -⟩ := expect_ok hname
  obtain ⟨hlparen, hahead₂, -⟩ := expect_ok hlparen
  have hq₄ := hsteady.normal_of_ok hbody hq
  have hq₃ := (steady_annotation? _).normal_of_ok hreturns hq₄
  obtain ⟨_, hu, u, rparen, rfl, hrparen, hlisted⟩ :=
    recognizes_listUpTo steady_param recognizes_param p₂ params p₃ hparams hq₃
  obtain ⟨v, hv, hascribed⟩ := recognizes_annotation? _ p₃ returns? p₄ hreturns hq₄
  obtain ⟨w, hw, hphrase⟩ := hblock p₄ b q hbody hq
  refine ⟨oya :: name :: lparen :: (u ++ rparen :: (v ++ w)), ?_,
    .fnDecl hoya hname hlparen hlisted hrparen hascribed hphrase⟩
  rw [hahead, hahead₁, hahead₂, hu, hv, hw]
  simp

/-! ### Blocks -/

theorem recognizes_items (hsteady : Steady declaration)
    (hdeclaration : Recognizes declaration Declaration) (rounds : Nat) :
    Recognizes (items declaration rounds) Declarations := by
  induction rounds with
  | zero =>
      intro p ss q h hq
      cases h
      exact ⟨[], rfl, .nil⟩
  | succ rounds ih =>
      intro p ss q h hq
      rw [items] at h
      dsimp only at h
      split at h
      · cases h
        exact ⟨[], rfl, .nil⟩
      · cases hfirst : declaration p with
        | ok s r =>
            rw [hfirst] at h
            obtain ⟨more, hmore, rfl⟩ := map_ok h
            have hr := (steady_items hsteady rounds).normal_of_ok hmore hq
            obtain ⟨v, hv, hphrase⟩ := hdeclaration p s r hfirst hr
            obtain ⟨w, hw, hrest⟩ := ih r more q hmore hq
            rw [hw] at hv hphrase
            exact ⟨v ++ w, by rw [hv, List.append_assoc], .cons hphrase hrest⟩
        | error d r =>
            -- The failure has left the parser panicking, and that lasts.
            have hstays := hsteady p
            rw [hfirst] at h hstays
            dsimp only at h
            split at h
            · cases h
            · have hr := (steady_items hsteady rounds).normal_of_ok h hq
              rw [hstays.2] at hr
              contradiction

theorem recognizes_blockOf (hsteady : Steady declaration)
    (hdeclaration : Recognizes declaration Declaration) :
    Recognizes (blockOf declaration) Body := by
  intro p b q h hq
  obtain ⟨lbrace, p₁, hlbrace, h⟩ := bind_ok h
  obtain ⟨ss, p₂, hitems, h⟩ := bind_ok h
  obtain ⟨rbrace, _, hrbrace, hpure⟩ := bind_ok h
  cases hpure
  obtain ⟨hlbrace, hahead, -⟩ := expect_ok hlbrace
  obtain ⟨hrbrace, hahead₂, hmode⟩ := expect_ok hrbrace
  obtain ⟨w, hw, hinner⟩ :=
    recognizes_items hsteady hdeclaration _ p₁ ss p₂ hitems (hmode ▸ hq)
  rw [hahead₂] at hw hinner
  refine ⟨lbrace :: (w ++ [rbrace]), ?_, .mk hlbrace hinner hrbrace⟩
  rw [hahead, hw]
  simp

/-! ### Conditionals, loops and simple statements -/

section

variable (hvalue : Recognizes value (Level .assignment))
  (hstatement : Recognizes statement Statement) (hsteady : Steady statement)

include hvalue

theorem recognizes_condition (keyword : String) :
    Recognizes (condition keyword value) fun w _ cond => ∃ c lparen rparen,
      w = lparen :: (c ++ [rparen]) ∧ lparen.kind = .lparen ∧ rparen.kind = .rparen ∧
        Expression .assignment c cond := by
  intro p cond q h hq
  obtain ⟨lparen, p₁, hlparen, h⟩ := bind_ok h
  obtain ⟨cond', p₂, hcond, h⟩ := bind_ok h
  obtain ⟨rparen, _, hrparen, hpure⟩ := bind_ok h
  cases hpure
  obtain ⟨hlparen, hahead, -⟩ := expect_ok hlparen
  obtain ⟨hrparen, hahead₂, hmode⟩ := expect_ok hrparen
  obtain ⟨c, hc, hlevel, -⟩ := hvalue p₁ cond p₂ hcond (hmode ▸ hq)
  refine ⟨_, ?_, c, lparen, rparen, rfl, hlparen, hrparen, hlevel⟩
  rw [hahead, hc, hahead₂]
  simp

theorem recognizes_ret : RecognizesAt .comot (ret value) Statement := by
  intro p s q hkind h hq
  obtain ⟨comot, p₀, hcomot, hahead, h⟩ := advance_ok h hkind (by decide)
  obtain ⟨found, _, hcheck, h⟩ := bind_ok h
  cases hcheck
  cases hfound : p₀.check .semicolon with
  | true =>
      rw [hfound] at h
      obtain ⟨_, _, hnone, h⟩ := bind_ok h
      cases hnone
      obtain ⟨semicolon, _, hsemicolon, hpure⟩ := bind_ok h
      cases hpure
      obtain ⟨hsemicolon, hahead₁, -⟩ := expect_ok hsemicolon
      exact ⟨[comot, semicolon], by rw [hahead, hahead₁]; rfl, .ret hcomot hsemicolon⟩
  | false =>
      rw [hfound] at h
      obtain ⟨value?, p₁, hvalue?, h⟩ := bind_ok h
      obtain ⟨semicolon, _, hsemicolon, hpure⟩ := bind_ok h
      cases hpure
      obtain ⟨e, he, rfl⟩ := map_ok hvalue?
      obtain ⟨hsemicolon, hahead₁, hmode⟩ := expect_ok hsemicolon
      obtain ⟨w, hw, hlevel, -⟩ := hvalue p₀ e p₁ he (hmode ▸ hq)
      refine ⟨comot :: (w ++ [semicolon]), ?_, .retValue hcomot hlevel hsemicolon⟩
      rw [hahead, hw, hahead₁]
      simp

theorem recognizes_exprStmt : Recognizes (exprStmt value) Statement := by
  intro p s q h hq
  obtain ⟨_, _, hget, h⟩ := bind_ok h
  cases hget
  obtain ⟨e, p₁, he, h⟩ := bind_ok h
  obtain ⟨semicolon, _, hsemicolon, hpure⟩ := bind_ok h
  cases hpure
  obtain ⟨hsemicolon, hahead₁, hmode⟩ := expect_ok hsemicolon
  obtain ⟨w, hw, hlevel, -⟩ := hvalue p e p₁ he (hmode ▸ hq)
  cases w with
  | nil => exact absurd rfl (hlevel.opens [])
  | cons first w =>
      rw [Parser.current_of_ahead hw]
      refine ⟨first :: (w ++ [semicolon]), ?_, .expr hlevel hsemicolon⟩
      rw [hw, hahead₁]
      simp

include hstatement hsteady

theorem recognizes_whileLoop : RecognizesAt .waka (whileLoop value statement) Statement := by
  intro p s q hkind h hq
  obtain ⟨waka, p₀, hwaka, hahead, h⟩ := advance_ok h hkind (by decide)
  obtain ⟨cond, p₁, hcond, h⟩ := bind_ok h
  obtain ⟨body, _, hbody, hpure⟩ := bind_ok h
  cases hpure
  have hq₁ := hsteady.normal_of_ok hbody hq
  obtain ⟨_, hc, c, lparen, rparen, rfl, hlparen, hrparen, hlevel⟩ :=
    recognizes_condition hvalue _ p₀ cond p₁ hcond hq₁
  obtain ⟨w, hw, hphrase⟩ := hstatement p₁ body q hbody hq
  refine ⟨waka :: lparen :: (c ++ rparen :: w), ?_,
    .whileLoop hwaka hlparen hlevel hrparen hphrase⟩
  rw [hahead, hc, hw]
  simp

theorem branch_phrase {p q : Parser} {b : Branch} (hkind : p.current.kind = .abi)
    (h : branch value statement p = .ok b q) (hq : q.mode = .normal) :
    ∃ v, v ≠ [] ∧ p.ahead = v ++ q.ahead ∧ ∀ {w rest else?}, q.ahead = w ++ rest →
      Otherwise w rest else? → Statement (v ++ w) rest (b.toStmt else?) := by
  obtain ⟨abi, p₀, habi, hahead, h⟩ := advance_ok h hkind (by decide)
  obtain ⟨cond, p₁, hcond, h⟩ := bind_ok h
  obtain ⟨body, _, hbody, hpure⟩ := bind_ok h
  cases hpure
  have hq₁ := hsteady.normal_of_ok hbody hq
  obtain ⟨_, hc, c, lparen, rparen, rfl, hlparen, hrparen, hlevel⟩ :=
    recognizes_condition hvalue _ p₀ cond p₁ hcond hq₁
  obtain ⟨v, hv, hphrase⟩ := hstatement p₁ body q hbody hq
  refine ⟨abi :: lparen :: (c ++ rparen :: v), by simp, ?_, ?_⟩
  · rw [hahead, hc, hv]
    simp
  · intro w rest else? hrest hotherwise
    rw [hrest] at hphrase
    simpa [Branch.toStmt] using
      Statement.conditional habi hlparen hlevel hrparen hphrase hotherwise

theorem links_phrase (hsteady' : Steady value) (rounds : Nat) {p q : Parser}
    {more : List Branch} {else? : Option Stmt} (hrounds : p.ahead.length ≤ rounds)
    (h : links value statement rounds p = .ok (more, else?) q) (hq : q.mode = .normal) :
    ∃ w, p.ahead = w ++ q.ahead ∧ Otherwise w q.ahead
      (more.foldr (fun link below? => some (link.toStmt below?)) else?) := by
  induction rounds generalizing p more else? with
  | zero =>
      cases h
      have hend : q.ahead = [] := List.eq_nil_of_length_eq_zero (by omega)
      exact ⟨[], rfl, .none (by rw [hend]; decide)⟩
  | succ rounds ih =>
      obtain ⟨found, p₁, haccept, h⟩ := bind_ok h
      cases found with
      | false =>
          cases h
          obtain ⟨rfl, hnaso⟩ := accept_false haccept
          rw [Parser.check_eq (by decide), decide_eq_false_iff_not] at hnaso
          exact ⟨[], rfl, .none hnaso⟩
      | true =>
          obtain ⟨naso, hnaso, hahead, -⟩ := accept_true haccept
          obtain ⟨found, _, hcheck, h⟩ := bind_ok h
          cases hcheck
          cases habi : p₁.check .abi with
          | false =>
              rw [habi] at h
              obtain ⟨s, _, hs, hpure⟩ := bind_ok h
              cases hpure
              obtain ⟨w, hw, hphrase⟩ := hstatement p₁ s q hs hq
              exact ⟨naso :: w, by rw [hahead, hw]; rfl, .some hnaso hphrase⟩
          | true =>
              rw [habi] at h
              obtain ⟨link, p₂, hlink, h⟩ := bind_ok h
              obtain ⟨⟨more', below?⟩, _, hmore, hpure⟩ := bind_ok h
              cases hpure
              have hkind : p₁.current.kind = .abi := by
                rw [Parser.check_eq (by decide), decide_eq_true_eq] at habi
                rw [Parser.kind_current, habi]
              have hq₂ := (steady_links hsteady' hsteady rounds).normal_of_ok hmore hq
              obtain ⟨v, hnonempty, hv, hbranch⟩ :=
                branch_phrase hvalue hstatement hsteady hkind hlink hq₂
              -- The link has taken tokens, so the rounds that are left suffice for the rest.
              have hpositive := List.length_pos_of_ne_nil hnonempty
              have hlength : p₂.ahead.length ≤ rounds := by
                rw [hahead, hv, List.length_cons, List.length_append] at hrounds
                omega
              obtain ⟨w, hw, hotherwise⟩ := ih hlength hmore
              refine ⟨naso :: (v ++ w), ?_, .some hnaso (hbranch hw hotherwise)⟩
              rw [hahead, hv, hw]
              simp

theorem recognizes_conditional (hsteady' : Steady value) :
    RecognizesAt .abi (conditional value statement) Statement := by
  intro p s q hkind h hq
  obtain ⟨first, p₁, hfirst, h⟩ := bind_ok h
  obtain ⟨⟨more, else?⟩, _, hlinks, hpure⟩ := bind_ok h
  cases hpure
  have hq₁ := (steady_bounded (steady_links hsteady' hsteady)).normal_of_ok hlinks hq
  obtain ⟨v, -, hv, hbranch⟩ := branch_phrase hvalue hstatement hsteady hkind hfirst hq₁
  obtain ⟨w, hw, hotherwise⟩ :=
    links_phrase hvalue hstatement hsteady hsteady' _ (Nat.le_refl _) hlinks hq
  exact ⟨v ++ w, by rw [hv, hw, List.append_assoc], hbranch hw hotherwise⟩

end

/-! ### The descent -/

theorem recognizes_statementOf {conditional whileLoop : Parse Stmt}
    (hvalue : Recognizes value (Level .assignment)) (hblock : Recognizes block Body)
    (hconditional : RecognizesAt .abi conditional Statement)
    (hwhileLoop : RecognizesAt .waka whileLoop Statement) :
    Recognizes (statementOf value block conditional whileLoop) Statement := by
  intro p s q h hq
  unfold statementOf at h
  split at h
  · obtain ⟨b, hb, rfl⟩ := map_ok h
    obtain ⟨w, hw, hphrase⟩ := hblock p b q hb hq
    exact ⟨w, hw, .block hphrase⟩
  · rename_i hkind
    exact hconditional p s q hkind h hq
  · rename_i hkind
    exact hwhileLoop p s q hkind h hq
  · rename_i hkind
    exact recognizes_ret hvalue p s q hkind h hq
  · exact recognizes_exprStmt hvalue p s q h hq

theorem recognizes_declarationOf (hsteady : Steady value) (hsteady' : Steady block)
    (hvalue : Recognizes value (Level .assignment)) (hblock : Recognizes block Body)
    (hstatement : Recognizes statement Statement) :
    Recognizes (declarationOf value block statement) Declaration := by
  intro p s q h hq
  unfold declarationOf at h
  split at h
  · rename_i hkind
    exact recognizes_varDecl hvalue hsteady p s q hkind h hq
  · rename_i hkind
    exact recognizes_fnDecl hsteady' hblock p s q hkind h hq
  · obtain ⟨w, hw, hphrase⟩ := hstatement p s q h hq
    exact ⟨w, hw, .statement hphrase⟩

end

theorem recognizes_value (room : Nat) : Recognizes (value room) (Level .assignment) :=
  recognizes_expression room (by decide) (by decide)

theorem recognizes_tooDeep {α : Type} (phrase : List Token → List Token → α → Prop) :
    Recognizes tooDeep phrase := by
  intro p a q h
  rw [tooDeep_eq, fail_eq] at h
  contradiction

theorem recognizes_block_statement (room : Nat) :
    Recognizes (block room) Body ∧ Recognizes (statement room) Statement := by
  induction room with
  | zero =>
      refine ⟨recognizes_tooDeep _, ?_⟩
      rw [statement_eq]
      refine recognizes_statementOf (recognizes_value 0) (recognizes_tooDeep _) ?_ ?_
      · intro p s q _
        exact recognizes_tooDeep _ p s q
      · intro p s q _
        exact recognizes_tooDeep _ p s q
  | succ room ih =>
      have hvalue := recognizes_value room
      have hblock : Recognizes (block (room + 1)) Body :=
        recognizes_blockOf (steady_declaration room)
          (recognizes_declarationOf (steady_value room) (steady_block room) hvalue ih.1 ih.2)
      refine ⟨hblock, ?_⟩
      rw [statement_eq]
      exact recognizes_statementOf (recognizes_value _) hblock
        (recognizes_conditional hvalue ih.2 (steady_statement room) (steady_value room))
        (recognizes_whileLoop hvalue ih.2 (steady_statement room))

theorem recognizes_declaration (room : Nat) : Recognizes (declaration room) Declaration :=
  recognizes_declarationOf (steady_value room) (steady_block room) (recognizes_value room)
    (recognizes_block_statement room).1 (recognizes_block_statement room).2

/-! ## How phrases start -/

end Parse

namespace Grammar

variable {w rest : List Token} {s : Stmt}

theorem Body.head {b : Block} (h : Body w rest b) :
    ∃ first v, w = first :: v ∧ first.kind = .lbrace := by
  cases h with
  | mk hlbrace inner hrbrace => exact ⟨_, _, rfl, hlbrace⟩

theorem Statement.head (h : Statement w rest s) :
    ∃ first v, w = first :: v ∧ (first.kind ∈ [.lbrace, .abi, .waka, .comot] ∨
      (Rule.ofKind first.kind).opening? ≠ none) := by
  cases h with
  | block body =>
      obtain ⟨first, v, rfl, hkind⟩ := body.head
      exact ⟨first, v, rfl, .inl (by simp [hkind])⟩
  | conditional habi hlparen condition hrparen branch otherwise =>
      exact ⟨_, _, rfl, .inl (by simp [habi])⟩
  | whileLoop hwaka hlparen condition hrparen branch =>
      exact ⟨_, _, rfl, .inl (by simp [hwaka])⟩
  | ret hcomot hsemicolon => exact ⟨_, _, rfl, .inl (by simp [hcomot])⟩
  | retValue hcomot value hsemicolon => exact ⟨_, _, rfl, .inl (by simp [hcomot])⟩
  | expr value hsemicolon => exact ⟨_, _, rfl, .inr (value.opens [])⟩

theorem Declaration.head (h : Declaration w rest s) :
    ∃ first v, w = first :: v ∧ first.kind ≠ .rbrace := by
  cases h with
  | varDecl habeg hname ascription initializer hsemicolon =>
      exact ⟨_, _, rfl, by simp [habeg]⟩
  | fnDecl hoya hname hlparen parameters hrparen ascription body =>
      exact ⟨_, _, rfl, by simp [hoya]⟩
  | statement inner =>
      obtain ⟨first, v, rfl, hkind⟩ := inner.head
      refine ⟨first, v, rfl, ?_⟩
      intro hrbrace
      rw [hrbrace] at hkind
      exact absurd hkind (by decide)

end Grammar

namespace Parse

/-! ## Every phrase is read -/

theorem takes_typeName {type : Token} (h : type.kind = .typeName) (expectation : String)
    (rest : List Token) : Takes (typeName expectation) [type] rest type.text :=
  (takes_expect h expectation rest).bind_pure Token.text

theorem takes_annotation? {w rest : List Token} {type? : Option String}
    (h : Annotation w type?) (expectation : String) (hnext : nextKind rest ≠ .colon) :
    Takes (annotation? expectation) w rest type? := by
  cases h with
  | none => exact .bind [] (takes_accept_none (by decide) hnext) (takes_pure none rest) rfl
  | some hcolon htype =>
      exact .bind [_] (takes_accept hcolon _)
        ((takes_typeName htype expectation rest).bind_pure some) rfl

theorem takes_param {w rest : List Token} {result : Param} (h : Parameter w result) :
    Takes param w rest result := by
  cases h with
  | @mk name colon type hname hcolon htype =>
      exact .bind [colon, type] (takes_expect hname _ _)
        (.bind [type] (takes_expect hcolon _ _)
          ((takes_typeName htype _ rest).bind_pure (Param.mk name.text)) rfl) rfl

theorem takes_params {w rest : List Token} {params : List Param} {rparen : Token}
    (h : Listed Parameter w params) (hrparen : rparen.kind = .rparen) :
    Takes (listUpTo .rparen "expected ')' after parameters" param) (w ++ [rparen]) rest
      params := by
  have hitem : ReadsUpTo w.length (fun _ => param) (fun w rest param => Parameter w param ∧
      (nextKind rest = .comma ∨ nextKind rest = .rparen)) (fun _ => 0) (fun _ => 0) :=
    fun w _ _ h _ => ⟨0, .none w, .of_takes fun _ => takes_param h.1⟩
  have hfirst : ∀ {w params rest}, Separated Parameter w params →
      nextKind (w ++ rest) ≠ .rparen := by
    intro w params rest h
    cases h with
    | one first =>
        cases first with
        | mk hname hcolon htype => simp [nextKind, hname]
    | more first hcomma rest =>
        cases first with
        | mk hname hcolon htype => simp [nextKind, hname]
  obtain ⟨depth, -, hneeds⟩ := needs_listUpTo rest hrparen (by decide) (by decide)
    (fun _ => steady_param) hitem hfirst h (Nat.le_refl _)
  exact hneeds.takes depth (Nat.le_refl _)

/-! ### Values -/

theorem needs_value {w : List Token} (rest : List Token) {e : Expr} {last : Token}
    (h : Expression .assignment w e) (hlast : last.kind = .semicolon ∨ last.kind = .rparen) :
    ∃ depth, Measured w depth e.nest e.parens ∧ Needs value depth w (last :: rest) e := by
  refine reads_expression w.length (by decide) (by decide) ⟨h, ?_⟩ (Nat.le_refl _)
  change last.kind.power < _
  rcases hlast with h | h <;> rw [h] <;> decide

theorem needs_initializer? {w : List Token} (rest : List Token) {init? : Option Expr}
    {semicolon : Token} (h : Initializer w init?) (hsemicolon : semicolon.kind = .semicolon) :
    ∃ depth, Measured w depth (init?.elim 0 Expr.nest) (init?.elim 0 Expr.parens) ∧
      Needs (fun room => initializer? (value room)) depth w (semicolon :: rest) init? := by
  cases h with
  | none =>
      have hnext : nextKind (semicolon :: rest) ≠ .assign := by simp [nextKind, hsemicolon]
      refine ⟨0, .none _, .of_takes fun room => ?_⟩
      exact .bind [] (takes_accept_none (by decide) hnext) (takes_pure none _) rfl
  | @some w e equals hequals hexpr =>
      obtain ⟨depth, hmeasured, hvalue⟩ := needs_value rest hexpr (.inl hsemicolon)
      refine ⟨depth, hmeasured.cons equals, ?_⟩
      exact .after w (takes_accept hequals _) (hvalue.bind_pure some) rfl

theorem needs_varDecl {v w rest : List Token} {type? : Option String} {init? : Option Expr}
    {abeg name semicolon : Token} (hname : name.kind = .ident) (htype : Annotation v type?)
    (hinit : Initializer w init?) (hsemicolon : semicolon.kind = .semicolon) :
    ∃ depth, Measured (abeg :: name :: (v ++ (w ++ [semicolon]))) depth
        (init?.elim 0 Expr.nest) (init?.elim 0 Expr.parens) ∧
      Needs (fun room => varDecl (value room)) depth
        (abeg :: name :: (v ++ (w ++ [semicolon]))) rest
        (.varDecl name.text type? init? abeg.pos) := by
  have hnext : nextKind ((w ++ [semicolon]) ++ rest) ≠ .colon := by
    cases hinit with
    | none => simp [nextKind, hsemicolon]
    | some hequals value => simp [nextKind, hequals]
  obtain ⟨depth, hmeasured, hinitializer⟩ := needs_initializer? rest hinit hsemicolon
  refine ⟨depth, ?_, ?_⟩
  · have h := (Measured.none v).append (hmeasured.concat semicolon)
    simpa using (h.cons name).cons abeg
  · refine .after (name :: (v ++ (w ++ [semicolon]))) (takes_advance abeg _) ?_ rfl
    refine .after (v ++ (w ++ [semicolon])) (takes_expect hname _ _) ?_ rfl
    refine .after (w ++ [semicolon]) (takes_annotation? htype _ hnext) ?_ rfl
    exact .before [semicolon] hinitializer
      (fun _ => (takes_expect hsemicolon _ rest).bind_pure fun _ => _)
      (fun _ _ => (steady_expect _ _).bind fun _ => steady_pure _) rfl

theorem needs_condition {c : List Token} (rest : List Token) {cond : Expr}
    {lparen rparen : Token} (keyword : String) (hlparen : lparen.kind = .lparen)
    (h : Expression .assignment c cond) (hrparen : rparen.kind = .rparen) :
    ∃ depth, Measured c depth cond.nest cond.parens ∧
      Needs (fun room => condition keyword (value room)) depth (lparen :: (c ++ [rparen])) rest
        cond := by
  obtain ⟨depth, hmeasured, hvalue⟩ := needs_value rest h (.inr hrparen)
  refine ⟨depth, hmeasured, ?_⟩
  refine .after (c ++ [rparen]) (takes_expect hlparen _ _) ?_ rfl
  exact .before [rparen] hvalue (fun _ => (takes_expect hrparen _ rest).bind_pure fun _ => cond)
    (fun _ cond => (steady_expect _ _).bind fun _ => steady_pure cond) rfl

theorem takes_ret {value : Parse Expr} {rest : List Token} {comot semicolon : Token}
    (hsemicolon : semicolon.kind = .semicolon) :
    Takes (ret value) [comot, semicolon] rest (.ret none comot.pos) := by
  refine .bind [semicolon] (takes_advance comot _) ?_ rfl
  refine .bind [semicolon] (takes_check_true (by decide) hsemicolon) ?_ rfl
  exact .bind [semicolon] (takes_pure none _)
    ((takes_expect hsemicolon _ rest).bind_pure fun _ => _) rfl

theorem needs_retValue {w rest : List Token} {e : Expr} {comot semicolon : Token}
    (h : Expression .assignment w e) (hsemicolon : semicolon.kind = .semicolon) :
    ∃ depth, Measured w depth e.nest e.parens ∧
      Needs (fun room => ret (value room)) depth (comot :: (w ++ [semicolon])) rest
        (.ret (some e) comot.pos) := by
  have hnext : nextKind ((w ++ [semicolon]) ++ rest) ≠ .semicolon := by
    rw [List.append_assoc]
    exact Rule.ne_of_opens (h.opens _) rfl
  obtain ⟨depth, hmeasured, hvalue⟩ := needs_value rest h (.inl hsemicolon)
  refine ⟨depth, hmeasured, ?_⟩
  refine .after (w ++ [semicolon]) (takes_advance comot _) ?_ rfl
  refine .after (w ++ [semicolon]) (takes_check_false (by decide) hnext) ?_ rfl
  exact .before [semicolon] (hvalue.map some)
    (fun _ => (takes_expect hsemicolon _ rest).bind_pure fun _ => _)
    (fun _ _ => (steady_expect _ _).bind fun _ => steady_pure _) rfl

theorem needs_exprStmt {w rest : List Token} {e : Expr} {first semicolon : Token}
    (h : Expression .assignment (first :: w) e) (hsemicolon : semicolon.kind = .semicolon) :
    ∃ depth, Measured (first :: w) depth e.nest e.parens ∧
      Needs (fun room => exprStmt (value room)) depth (first :: (w ++ [semicolon])) rest
        (.expr e first.pos) := by
  obtain ⟨depth, hmeasured, hvalue⟩ := needs_value rest h (.inl hsemicolon)
  refine ⟨depth, hmeasured, ?_⟩
  have hread : Needs (fun room => value room >>= fun result => do
      let _ ← expect .semicolon "expected ';' after expression"
      return Stmt.expr result first.pos) depth (first :: (w ++ [semicolon])) rest
        (.expr e first.pos) :=
    .before [semicolon] hvalue (fun _ => (takes_expect hsemicolon _ rest).bind_pure fun _ => _)
      (fun _ _ => (steady_expect _ _).bind fun _ => steady_pure _) rfl
  refine hread.congr fun room p hp => ?_
  rw [← Parser.current_of_ahead hp]
  rfl

/-! ### Blocks -/

section

variable {bound : Nat}

theorem takes_items_none {declaration : Parse Stmt} {rest : List Token}
    (hrest : nextKind rest = .rbrace ∨ rest = []) (rounds : Nat) :
    Takes (items declaration rounds) [] rest [] := by
  intro p hp
  have hstops : (p.check .rbrace || p.atEnd) = true := by
    rw [Parser.check_eq (by decide), Parser.atEnd, hp]
    rcases hrest with h | h <;> simp [h]
  cases rounds with
  | zero => exact takes_pure [] rest p hp
  | succ rounds =>
      rw [items]
      dsimp only
      rw [if_pos hstops]
      exact takes_pure [] rest p hp

theorem RunsOut.items {declaration : Parse Stmt} {ahead : List Token} (hsteady : Steady declaration)
    (h : RunsOut declaration ahead) (hstart : ahead ≠ [] ∧ nextKind ahead ≠ .rbrace)
    (rounds : Nat) : RunsOut (items declaration (rounds + 1)) ahead := by
  intro p hp hmode
  have hout := h p hp hmode
  have hgoes : ¬(p.check .rbrace || p.atEnd) = true := by
    rw [Parser.check_eq (by decide), Parser.atEnd, hp]
    simpa using hstart.symm
  rw [Parse.items]
  dsimp only
  rw [if_neg hgoes]
  cases hfirst : declaration p with
  | ok item q =>
      rw [hfirst] at hout
      exact hout.reaches ((steady_items hsteady rounds).map (item :: ·) q).reaches
  | error d q =>
      rw [hfirst] at hout
      dsimp only
      split
      · exact hout
      · exact hout.reaches (steady_items hsteady rounds q).reaches

theorem needs_items (hdeclaration : ReadsUpTo bound declaration Declaration Stmt.nest Stmt.parens)
    {w rest : List Token} {ss : List Stmt} (h : Declarations w rest ss)
    (hrest : nextKind rest = .rbrace) (hbound : w.length ≤ bound) :
    ∃ depth, Measured w depth (Stmt.nestAll ss) (Stmt.parensAll ss) ∧
      ∀ rounds, w.length ≤ rounds →
        Needs (fun room => items (declaration room) rounds) depth w rest ss := by
  induction ss generalizing w with
  | nil =>
      cases h
      exact ⟨0, .none _, fun rounds _ => .of_takes fun _ => takes_items_none (.inl hrest) rounds⟩
  | cons s ss ih =>
      cases h with
      | @cons v w _ _ _ first more =>
          rw [List.length_append] at hbound
          obtain ⟨j, hj, hfirst⟩ := hdeclaration first (by omega)
          obtain ⟨k, hk, hmore⟩ := ih more (by omega)
          refine ⟨max j k, hj.append hk, ?_⟩
          obtain ⟨token, v, rfl, hkind⟩ := first.head
          intro rounds hrounds
          simp only [List.cons_append, List.length_cons, List.length_append] at hrounds
          cases rounds with
          | zero => omega
          | succ rounds =>
              have hrest := hmore rounds (by omega)
              have hgoes {p : Parser} (hp : p.ahead = (token :: v ++ w) ++ rest) :
                  ¬(p.check .rbrace || p.atEnd) = true := by
                rw [Parser.check, Parser.atEnd, hp]
                simpa using hkind
              have hread {room : Nat} {p : Parser} (hroom : j ≤ room)
                  (hp : p.ahead = (token :: v ++ w) ++ rest) :
                  items (declaration room) (rounds + 1) p =
                    (List.cons s <$> items (declaration room) rounds)
                      (p.read (token :: v) (w ++ rest)) := by
                rw [items]
                dsimp only
                rw [if_neg (hgoes hp), hfirst.takes room hroom p (by rw [hp, List.append_assoc])]
              constructor
              · intro room hroom p hp
                rw [hread (by omega) hp,
                  (hrest.map (List.cons s)).takes room (by omega) _ (Parser.ahead_read ..),
                  Parser.read_read]
              · intro room hroom p hp hmode
                by_cases hlow : room < j
                · exact (hfirst.runsOut room hlow).items (steady_declaration room)
                    ⟨by simp, hkind⟩ rounds p (by rw [hp, List.append_assoc]) hmode
                · rw [hread (by omega) hp]
                  exact (hrest.map (List.cons s)).runsOut room (by omega) _
                    (Parser.ahead_read ..) hmode

theorem reads_block (hdeclaration : ReadsUpTo bound declaration Declaration Stmt.nest Stmt.parens) :
    ReadsUpTo (bound + 1) block Body (fun b => Stmt.nestAll b.body + 1)
      (fun b => Stmt.parensAll b.body) := by
  intro w rest b h hbound
  cases h with
  | @mk w _ ss lbrace rbrace hlbrace inner hrbrace =>
      simp only [List.length_cons, List.length_append] at hbound
      obtain ⟨depth, hmeasured, hitems⟩ := needs_items hdeclaration inner hrbrace (by omega)
      refine ⟨depth + 1, (hmeasured.concat rbrace).level lbrace, ?_⟩
      have hbody : Needs (fun room => blockOf (declaration room)) depth
          (lbrace :: (w ++ [rbrace])) rest ⟨ss, lbrace.pos⟩ := by
        refine .after (w ++ [rbrace]) (takes_expect hlbrace _ _) ?_ rfl
        exact .before [rbrace] (.bounded hitems)
          (fun _ => (takes_expect hrbrace _ rest).bind_pure fun _ => _)
          (fun _ _ => (steady_expect _ _).bind fun _ => steady_pure _) rfl
      exact hbody.nested.congr fun room p _ => by rw [block_eq]

end

theorem needs_fnDecl {u v w rest : List Token} {params : List Param}
    {returns? : Option String} {b : Block} {oya name lparen rparen : Token} {depth : Nat}
    (hname : name.kind = .ident) (hlparen : lparen.kind = .lparen)
    (hparams : Listed Parameter u params) (hrparen : rparen.kind = .rparen)
    (hreturns : Annotation v returns?) (hbody : Body w rest b)
    (hblock : Needs block depth w rest b) :
    Needs (fun room => fnDecl (block room)) depth
      (oya :: name :: lparen :: (u ++ rparen :: (v ++ w))) rest
      (.fnDecl name.text params returns? b.body b.pos oya.pos) := by
  have hnext : nextKind (w ++ rest) ≠ .colon := by
    obtain ⟨first, v, rfl, hkind⟩ := hbody.head
    simp [nextKind, hkind]
  refine .after (name :: lparen :: (u ++ rparen :: (v ++ w))) (takes_advance oya _) ?_ rfl
  refine .after (lparen :: (u ++ rparen :: (v ++ w))) (takes_expect hname _ _) ?_ rfl
  refine .after (u ++ rparen :: (v ++ w)) (takes_expect hlparen _ _) ?_ rfl
  refine .after (v ++ w) (takes_params hparams hrparen) ?_ (by simp)
  exact .after w (takes_annotation? hreturns _ hnext) (hblock.bind_pure fun b => _) rfl

/-! ### Conditionals and loops -/

section

variable {bound : Nat}
  (hstatement : ReadsUpTo bound statement Statement Stmt.nest Stmt.parens)

include hstatement

theorem needs_guarded {α : Type} (keyword : String) (result : Expr → Stmt → Position → α)
    {c v : List Token} (rest : List Token) {cond : Expr} {body : Stmt}
    (mark : Token) {lparen rparen : Token} (hlparen : lparen.kind = .lparen)
    (hcond : Expression .assignment c cond) (hrparen : rparen.kind = .rparen)
    (hbody : Statement v rest body) (hbound : v.length ≤ bound) :
    ∃ depth, Measured (lparen :: (c ++ rparen :: v)) depth (max cond.nest body.nest)
        (cond.parens + body.parens + 1) ∧
      Needs (fun room => do
          let pos := (← advance).pos
          let cond ← condition keyword (value room)
          return result cond (← statement room) pos)
        depth (mark :: lparen :: (c ++ rparen :: v)) rest (result cond body mark.pos) := by
  obtain ⟨j, hj, hcondition⟩ := needs_condition (v ++ rest) keyword hlparen hcond hrparen
  obtain ⟨k, hk, hbranch⟩ := hstatement hbody hbound
  refine ⟨max j k, (hj.append (hk.cons rparen)).paren hlparen, ?_⟩
  refine .after (lparen :: (c ++ rparen :: v)) (takes_advance mark _) ?_ rfl
  exact .bind v hcondition (hbranch.bind_pure fun body => result cond body mark.pos)
    (fun room _ => (steady_statement room).bind fun _ => steady_pure _) (by simp)

theorem needs_last_link {w rest : List Token} {s : Stmt} {naso : Token}
    (hnaso : naso.kind = .naso) (h : Statement w rest s) (hbound : w.length ≤ bound)
    (habi : nextKind (w ++ rest) ≠ .abi) :
    ∃ depth, Measured (naso :: w) depth s.nest s.parens ∧
      ∀ rounds, Needs (fun room => links (value room) (statement room) (rounds + 1)) depth
        (naso :: w) rest ([], some s) := by
  obtain ⟨depth, hmeasured, hlast⟩ := hstatement h hbound
  refine ⟨depth, hmeasured.cons naso, fun rounds => ?_⟩
  refine .after w (takes_accept hnaso _) ?_ rfl
  refine .after w (takes_check_false (by decide) habi) ?_ rfl
  exact hlast.bind_pure fun s => ([], some s)

/-- A conditional in the other branch is one more link, any other statement the last. -/
theorem needs_links {w rest : List Token} {else? : Option Stmt} (h : Otherwise w rest else?)
    (hbound : w.length ≤ bound) :
    ∃ depth, Measured w depth (Stmt.nestElse else?) (Stmt.parensElse else?) ∧
      ∃ more last?, more.foldr (fun link below? => some (Branch.toStmt link below?)) last? = else? ∧
        ∀ rounds, w.length ≤ rounds →
          Needs (fun room => links (value room) (statement room) rounds) depth w rest
            (more, last?) := by
  induction hlength : w.length using Nat.strongRecOn generalizing w else? with
  | _ length ih =>
  cases h with
  | none hnext =>
      refine ⟨0, .none _, [], none, rfl, fun rounds _ => .of_takes fun room => ?_⟩
      cases rounds with
      | zero => exact takes_pure _ rest
      | succ rounds =>
          exact .bind [] (takes_accept_none (by decide) hnext) (takes_pure _ rest) rfl
  | @some w _ s naso hnaso branch =>
      rw [List.length_cons] at hbound hlength
      have hlast (habi : nextKind (w ++ rest) ≠ .abi)
          (hlink : ∀ cond body else? pos, s ≠ .ifElse cond body else? pos) :
          ∃ depth, Measured (naso :: w) depth (Stmt.nestElse (some s)) s.parens ∧
            ∃ more last?, more.foldr (fun link below? => some (Branch.toStmt link below?)) last? =
                some s ∧
              ∀ rounds, length ≤ rounds →
                Needs (fun room => links (value room) (statement room) rounds) depth (naso :: w)
                  rest (more, last?) := by
        obtain ⟨depth, hmeasured, hneeds⟩ :=
          needs_last_link hstatement hnaso branch (by omega) habi
        rw [Stmt.nestElse_some hlink]
        refine ⟨depth, hmeasured, [], some s, rfl, fun rounds hrounds => ?_⟩
        obtain ⟨rounds, rfl⟩ := Nat.exists_eq_add_of_lt (show 0 < rounds by omega)
        rw [Nat.zero_add]
        exact hneeds rounds
      cases branch with
      | block body =>
          obtain ⟨first, v, rfl, hkind⟩ := body.head
          exact hlast (by simp [nextKind, hkind]) (by simp [Stmt.ofBlock])
      | @conditional c v u _ cond body else? abi lparen rparen habi hlparen hcond hrparen hbody
          otherwise =>
          simp only [List.length_cons, List.length_append] at hbound hlength
          obtain ⟨j, hj, hlink⟩ := needs_guarded hstatement "abi" Branch.mk (u ++ rest) abi
            hlparen hcond hrparen hbody (by omega)
          obtain ⟨k, hk, more, last?, rfl, hmore⟩ := ih u.length (by omega) otherwise (by omega) rfl
          refine ⟨max j k, ?_, ⟨cond, body, abi.pos⟩ :: more, last?, rfl, ?_⟩
          · exact ((hj.chain hk).cons abi).cons naso
          · intro rounds hrounds
            obtain ⟨rounds, rfl⟩ := Nat.exists_eq_add_of_lt (show 0 < rounds by omega)
            rw [Nat.zero_add]
            refine .after (abi :: lparen :: (c ++ rparen :: (v ++ u))) (takes_accept hnaso _) ?_ rfl
            refine .after (abi :: lparen :: (c ++ rparen :: (v ++ u)))
              (takes_check_true (by decide) habi) ?_ rfl
            refine .bind u hlink ((hmore rounds (by omega)).bind_pure fun below =>
              (Branch.mk cond body abi.pos :: below.1, below.2)) ?_ (by simp)
            exact fun room link => (steady_links (steady_value room) (steady_statement room)
              rounds).bind fun _ => steady_pure _
      | whileLoop hwaka hlparen hcond hrparen hbody =>
          exact hlast (by simp [nextKind, hwaka]) (by simp)
      | ret hcomot hsemicolon => exact hlast (by simp [nextKind, hcomot]) (by simp)
      | retValue hcomot hexpr hsemicolon => exact hlast (by simp [nextKind, hcomot]) (by simp)
      | @expr w _ e first semicolon hexpr hsemicolon =>
          exact hlast (Rule.ne_of_opens (hexpr.opens []) rfl) (by simp)

theorem needs_conditional {c v u rest : List Token} {cond : Expr} {body : Stmt}
    {else? : Option Stmt} {abi lparen rparen : Token} (hlparen : lparen.kind = .lparen)
    (hcond : Expression .assignment c cond) (hrparen : rparen.kind = .rparen)
    (hbody : Statement v (u ++ rest) body) (hotherwise : Otherwise u rest else?)
    (hbound : v.length + u.length ≤ bound) :
    ∃ depth, Measured (lparen :: (c ++ rparen :: (v ++ u))) depth
        (max cond.nest (max body.nest (Stmt.nestElse else?)))
        (cond.parens + body.parens + Stmt.parensElse else? + 1) ∧
      Needs (fun room => conditional (value room) (statement room)) depth
        (abi :: lparen :: (c ++ rparen :: (v ++ u))) rest (.ifElse cond body else? abi.pos) := by
  obtain ⟨j, hj, hfirst⟩ := needs_guarded hstatement "abi" Branch.mk (u ++ rest) abi
    hlparen hcond hrparen hbody (by omega)
  obtain ⟨k, hk, more, last?, rfl, hmore⟩ := needs_links hstatement hotherwise (by omega)
  refine ⟨max j k, hj.chain hk, ?_⟩
  refine .bind u hfirst ((Needs.bounded hmore).bind_pure fun below =>
    Branch.chain ⟨cond, body, abi.pos⟩ below.1 below.2) ?_ (by simp)
  exact fun room link => (steady_bounded (steady_links (steady_value room)
    (steady_statement room))).bind fun _ => steady_pure _

end

/-! ### The descent -/

theorem needs_statementOf {first : Token} {w rest : List Token} {s : Stmt} {depth : Nat}
    (h : Needs (fun room =>
      match first.kind with
        | .lbrace => Stmt.ofBlock <$> block room
        | .abi => nested room fun inner => conditional (value inner) (statement inner)
        | .waka => nested room fun inner => whileLoop (value inner) (statement inner)
        | .comot => ret (value room)
        | _ => exprStmt (value room)) depth (first :: w) rest s) :
    Needs statement depth (first :: w) rest s := by
  refine h.congr fun room p hp => ?_
  rw [statement_eq, statementOf, Parser.current_of_ahead hp]
  generalize first.kind = kind
  cases kind <;> rfl

theorem needs_declarationOf {first : Token} {w rest : List Token} {s : Stmt} {depth : Nat}
    (h : Needs (fun room =>
      match first.kind with
        | .abeg => varDecl (value room)
        | .oya => fnDecl (block room)
        | _ => statement room) depth (first :: w) rest s) :
    Needs declaration depth (first :: w) rest s := by
  refine h.congr fun room p hp => ?_
  rw [declaration, declarationOf, Parser.current_of_ahead hp]
  generalize first.kind = kind
  cases kind <;> rfl

theorem reads_declaration_of {bound : Nat}
    (hblock : ReadsUpTo bound block Body (fun b => Stmt.nestAll b.body + 1)
      (fun b => Stmt.parensAll b.body))
    (hstatement : ReadsUpTo bound statement Statement Stmt.nest Stmt.parens) :
    ReadsUpTo bound declaration Declaration Stmt.nest Stmt.parens := by
  intro w rest s h hbound
  cases h with
  | varDecl habeg hname ascription initializer hsemicolon =>
      obtain ⟨depth, hmeasured, hneeds⟩ := needs_varDecl hname ascription initializer hsemicolon
      refine ⟨depth, hmeasured, needs_declarationOf ?_⟩
      rw [habeg]
      exact hneeds
  | @fnDecl u v w _ _ _ b oya name lparen rparen hoya hname hlparen parameters hrparen ascription
      body =>
      simp only [List.length_cons, List.length_append] at hbound
      obtain ⟨depth, hmeasured, hneeds⟩ := hblock body (by omega)
      refine ⟨depth, ?_, needs_declarationOf ?_⟩
      · have h := (Measured.none u).append (((Measured.none v).append hmeasured).cons rparen)
        simpa [Stmt.nest, Stmt.parens] using ((h.paren hlparen).cons name).cons oya
      · rw [hoya]
        exact needs_fnDecl hname hlparen parameters hrparen ascription body hneeds
  | statement inner =>
      obtain ⟨depth, hmeasured, hneeds⟩ := hstatement inner hbound
      obtain ⟨first, v, rfl, hkind⟩ := inner.head
      refine ⟨depth, hmeasured, needs_declarationOf ?_⟩
      split
      · rename_i habeg
        rw [habeg] at hkind
        exact absurd hkind (by decide)
      · rename_i hoya
        rw [hoya] at hkind
        exact absurd hkind (by decide)
      · exact hneeds

theorem reads_block_statement (bound : Nat) :
    ReadsUpTo bound block Body (fun b => Stmt.nestAll b.body + 1)
        (fun b => Stmt.parensAll b.body) ∧
      ReadsUpTo bound statement Statement Stmt.nest Stmt.parens := by
  induction bound with
  | zero =>
      constructor
      · intro w rest b h hbound
        obtain ⟨first, v, rfl, -⟩ := h.head
        contradiction
      · intro w rest s h hbound
        obtain ⟨first, v, rfl, -⟩ := h.head
        contradiction
  | succ bound ih =>
      have hblock := reads_block (reads_declaration_of ih.1 ih.2)
      refine ⟨hblock, ?_⟩
      intro w rest s h hbound
      cases h with
      | block body =>
          obtain ⟨depth, hmeasured, hneeds⟩ := hblock body hbound
          obtain ⟨first, v, rfl, hkind⟩ := body.head
          refine ⟨depth, hmeasured, needs_statementOf ?_⟩
          rw [hkind]
          exact hneeds.map Stmt.ofBlock
      | @conditional c v u _ cond body else? abi lparen rparen habi hlparen hcond hrparen branch
          otherwise =>
          simp only [List.length_cons, List.length_append] at hbound
          obtain ⟨depth, hmeasured, hneeds⟩ :=
            needs_conditional ih.2 hlparen hcond hrparen branch otherwise (by omega)
          refine ⟨depth + 1, hmeasured.level abi, needs_statementOf ?_⟩
          rw [habi]
          exact hneeds.nested
      | @whileLoop c w _ cond body waka lparen rparen hwaka hlparen hcond hrparen branch =>
          simp only [List.length_cons, List.length_append] at hbound
          obtain ⟨depth, hmeasured, hneeds⟩ := needs_guarded ih.2 "waka" Stmt.whileLoop rest waka
            hlparen hcond hrparen branch (by omega)
          refine ⟨depth + 1, hmeasured.level waka, needs_statementOf ?_⟩
          rw [hwaka]
          exact hneeds.nested
      | ret hcomot hsemicolon =>
          refine ⟨0, .none _, needs_statementOf ?_⟩
          rw [hcomot]
          exact .of_takes fun _ => takes_ret hsemicolon
      | @retValue w _ e comot semicolon hcomot value hsemicolon =>
          obtain ⟨depth, hmeasured, hneeds⟩ := needs_retValue value hsemicolon
          refine ⟨depth, (hmeasured.concat semicolon).cons comot, needs_statementOf ?_⟩
          rw [hcomot]
          exact hneeds
      | @expr w _ e first semicolon value hsemicolon =>
          have hopens : (Rule.ofKind first.kind).opening? ≠ none := value.opens []
          obtain ⟨depth, hmeasured, hneeds⟩ := needs_exprStmt value hsemicolon
          refine ⟨depth, hmeasured.concat semicolon, needs_statementOf ?_⟩
          split
          · exact absurd ‹first.kind = .lbrace› (Rule.ne_of_opens hopens rfl)
          · exact absurd ‹first.kind = .abi› (Rule.ne_of_opens hopens rfl)
          · exact absurd ‹first.kind = .waka› (Rule.ne_of_opens hopens rfl)
          · exact absurd ‹first.kind = .comot› (Rule.ne_of_opens hopens rfl)
          · exact hneeds

theorem reads_declaration (bound : Nat) :
    ReadsUpTo bound declaration Declaration Stmt.nest Stmt.parens :=
  reads_declaration_of (reads_block_statement bound).1 (reads_block_statement bound).2

theorem takes_declaration (room : Nat) : TakesUpTo room (declaration room) Declaration := by
  intro w rest s h hroom
  obtain ⟨depth, hmeasured, hneeds⟩ := reads_declaration room h hroom
  exact hneeds.takes room (Nat.le_trans hmeasured.depth_le hroom)

end Parse

end Pidgin
