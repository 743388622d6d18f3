import Pidgin.Proofs.Prefix.Climb

/-!
# The descent blames the right token

Each form of statement and declaration is completed in its own way from wherever
its reader stops.  What has been read of it is kept as phrases, which leave open
what follows them; only the branch of a conditional remembers that the other
branch is next.
-/

namespace Pidgin

open Grammar

namespace Parse

/-! ## Parts of declarations -/

theorem firm_annotation? (expectation : String) (p : Parser) :
    Firm (fun _ => annotation? expectation) p := by
  refine (firm_accept (by decide)).bind ?_ ?_
  · intro b found
    cases found with
    | true => exact (steady_typeName expectation).bind fun _ => steady_pure _
    | false => exact steady_pure none
  · intro found q
    cases found with
    | true => exact ((firm_expect _ expectation).bind_pure _).bind_pure _
    | false => exact firm_pure none

theorem pinpoints_annotation? (expectation : String) (b : Budget) (p : Parser) :
    Pinpoints (fun _ => annotation? expectation) (Completes Annotation) b p := by
  refine .accept (by decide) (fun {colon q} hcolon => ?_) (.pure none)
  simp only [if_true, typeName, bind_assoc, pure_bind]
  refine .expect expectation (by decide) ?_ fun htype => .pure _
  exact .shorten (.of_phrase (.some hcolon (rfl : (sample .typeName).kind = _))) (by simp)

theorem firm_initializer? (p : Parser) : Firm (fun b => initializer? (value b.room)) p := by
  refine (firm_accept (by decide)).bind ?_ ?_
  · intro b found
    cases found with
    | true => exact (steady_value b.room).bind fun _ => steady_pure _
    | false => exact steady_pure none
  · intro found q
    cases found with
    | true => exact (firm_expression (by decide) (by decide) q).bind_pure _
    | false => exact firm_pure none

theorem pinpoints_initializer? (room : Nat) :
    PinpointsIn room (fun room => initializer? (value room)) Initializer := by
  intro rounds p
  refine .accept (by decide) (fun {equals q} hequals => ?_) (.pure none)
  refine .bind_pure (.mono (pinpoints_expression room (by decide) (by decide) rounds q) ?_) _
  rintro u ⟨c, e, h⟩
  exact ⟨c, _, .some hequals h⟩

theorem pinpoints_param (b : Budget) (p : Parser) :
    Pinpoints (fun _ => param) (Completes Parameter) b p := by
  have hdone {name colon type : Token} (hname : name.kind = .ident)
      (hcolon : colon.kind = .colon) (htype : type.kind = .typeName) :
      Completes Parameter [name, colon, type] := .of_phrase (.mk hname hcolon htype)
  have hident : (sample .ident).kind = .ident := rfl
  have hcolon : (sample .colon).kind = .colon := rfl
  have htype : (sample .typeName).kind = .typeName := rfl
  unfold param typeName
  simp only [bind_assoc, pure_bind]
  refine .expect _ (by decide) ((hdone hident hcolon htype).shorten (by simp)) fun hname => ?_
  refine .expect _ (by decide) ((hdone hname hcolon htype).shorten (by simp)) fun hcolon => ?_
  exact .expect _ (by decide) ((hdone hname hcolon htype).shorten (by simp)) fun _ => .pure _

theorem firm_param (p : Parser) : Firm (fun _ => param) p :=
  firm_of_phrase (fun _ => recognizes_param) (fun h _ => h) fun h _ => takes_param h

theorem pinpoints_varDecl (room rounds : Nat) {p : Parser} (hkind : nextKind p.ahead = .abeg) :
    Pinpoints (fun b => varDecl (value b.room)) (Completes fun w s => Declaration w [] s)
      ⟨room, rounds⟩ p := by
  have hstart : nextKind p.ahead ≠ .eof := by simp [hkind]
  refine .advance hstart fun {abeg q} habeg => ?_
  -- Up to wherever the reader stops, this is the beginning of a whole declaration.
  have hdone {name : Token} {v w : List Token} {type? : Option String} {init? : Option Expr}
      (hname : name.kind = .ident) (htype : Annotation v type?) (hinit : Initializer w init?) :
      Completes (fun w s => Declaration w [] s) (abeg :: name :: (v ++ w)) := by
    refine .shorten (.of_phrase (.varDecl (habeg.trans hkind) hname htype hinit
      (rfl : (sample .semicolon).kind = _))) (by simp)
  have hident : (sample .ident).kind = .ident := rfl
  refine .expect _ (by decide) ((hdone hident .none .none).shorten (by simp)) fun hname => ?_
  refine .bind (.mono (pinpoints_annotation? _ _ _) ?_) (firm_annotation? _ _)
    (fun _ => steady_annotation? _) (fun _ => recognizes_annotation? _) ?_ fun htype => ?_
  · rintro u ⟨c, type?, h⟩
    exact (hdone hname h .none).shorten (by simp)
  · exact fun b _ => (steady_initializer? (steady_value b.room)).bind fun _ =>
      (steady_expect _ _).bind fun _ => steady_pure _
  refine .bind (.mono (pinpoints_initializer? room rounds _) ?_) (firm_initializer? _)
    (fun b => steady_initializer? (steady_value b.room))
    (fun b => recognizes_initializer? (recognizes_value b.room))
    (fun _ _ => (steady_expect _ _).bind fun _ => steady_pure _) fun hinit => ?_
  · rintro u ⟨c, init?, h⟩
    exact (hdone hname htype h).shorten (by simp)
  · exact .expect _ (by decide) ((hdone hname htype hinit).shorten (by simp)) fun _ => .pure _

/-! ## Blocks -/

theorem firm_declaration (p : Parser) : Firm (fun b => declaration b.room) p :=
  firm_of_reads recognizes_declaration
    (fun h hhead => h.congr (by rw [nextKind_of_head? hhead]; exact id)) reads_declaration p

theorem items_echoes {β : Type} {declaration : Parse Stmt} {k : List Stmt → Parse β}
    (hsteady : Steady declaration) (hk : ∀ ss, Steady (k ss)) (rounds : Nat) {p : Parser}
    (hnext : ¬(nextKind p.ahead = .rbrace ∨ p.ahead = [])) :
    (parserOf ((declaration >>= fun s =>
        items declaration rounds >>= fun ss => k (s :: ss)) p)).Echoes
      (parserOf ((items declaration (rounds + 1) >>= k) p)) := by
  have hgoes : ¬(p.check .rbrace || p.atEnd) = true := by
    rw [Parser.check_eq (by decide), Parser.atEnd]
    simpa using hnext
  cases hfirst : declaration p with
  | ok s q =>
      have hstep : items declaration (rounds + 1) p =
          (List.cons s <$> items declaration rounds) q := by
        rw [items]
        exact (if_neg hgoes).trans (by rw [hfirst])
      rw [bind_of_ok hfirst, bind_of_eq hstep, bind_map_left]
      exact ⟨rfl, rfl⟩
  | error d q =>
      have hstep : items declaration (rounds + 1) p =
          if q.cursor = p.cursor then .error d q else items declaration rounds q := by
        rw [items]
        exact (if_neg hgoes).trans (by rw [hfirst])
      have hq := hsteady p
      rw [hfirst] at hq
      rw [bind_of_error hfirst]
      split at hstep
      · rw [bind_of_error hstep]
        exact ⟨rfl, rfl⟩
      · rw [bind_of_eq hstep]
        exact Parser.Echoes.reaches ⟨rfl, rfl⟩ hq.2
          ((steady_items hsteady rounds).bind hk q).reaches

theorem pinpoints_items_none {β : Type} {k : List Stmt → Parse β} {viable : List Token → Prop}
    {b : Budget} {p : Parser} (hnext : nextKind p.ahead = .rbrace ∨ p.ahead = [])
    (hrest : Pinpoints (fun _ => k []) viable b p) :
    Pinpoints (fun b => items (declaration b.room) b.rounds >>= k) viable b p := by
  refine hrest.of_parserOf fun {b' p'} _ hhead => ?_
  have hnext' : nextKind p'.ahead = .rbrace ∨ p'.ahead = [] := by
    rwa [nextKind_of_head? hhead, ← List.head?_eq_none_iff, hhead, List.head?_eq_none_iff]
  rw [bind_of_ok (takes_items_none hnext' b'.rounds p' rfl)]
  rfl

section

variable {room : Nat}
  (hdeclaration : PinpointsIn room declaration fun w s => Declaration w [] s)

include hdeclaration

theorem pinpoints_items {β : Type} {k : List Stmt → Parse β} (hk : ∀ ss, Steady (k ss))
    {viable : List Token → Prop} (rounds : Nat) (p : Parser)
    (hviable : ∀ u, Completes (fun w ss => Declarations w [] ss) u → viable u)
    (hrest : ∀ {w ss rounds q}, Declarations w [] ss →
      Pinpoints (fun _ => k ss) (fun u => viable (w ++ u)) ⟨room, rounds⟩ q) :
    Pinpoints (fun b => items (declaration b.room) b.rounds >>= k) viable ⟨room, rounds⟩ p := by
  induction rounds generalizing k viable p with
  | zero =>
      intro hcovers
      have hnone := List.eq_nil_of_length_eq_zero (Nat.le_zero.1 hcovers.rounds)
      exact pinpoints_items_none (.inr hnone) (hrest .nil) hcovers
  | succ rounds ih =>
      by_cases hnext : nextKind p.ahead = .rbrace ∨ p.ahead = []
      · exact pinpoints_items_none hnext (hrest .nil)
      have hstep : Pinpoints (fun b => declaration b.room >>= fun s =>
          items (declaration b.spend.room) b.spend.rounds >>= fun ss => k (s :: ss))
          viable ⟨room, rounds + 1⟩ p := by
        refine .bindWith (f := fun b s => items (declaration b.room) b.rounds >>= fun ss =>
          k (s :: ss)) Budget.spend ?_ (.mono (hdeclaration (rounds + 1) p) ?_)
          (firm_declaration p) (fun b => steady_declaration b.room)
          (fun b => recognizes_declaration b.room)
          (fun b _ => (steady_items (steady_declaration b.room) b.rounds).bind fun _ => hk _) ?_
        · intro b w rest rest' s h hcovers
          obtain ⟨token, v, rfl, -⟩ := h.head
          exact hcovers.spend.of_append
        · rintro u ⟨c, s, h⟩
          exact hviable u ⟨c, [s], by simpa using h.cons .nil⟩
        · intro w q s hfirst
          refine ih (fun _ => hk _) q ?_ ?_
          · rintro u ⟨c, ss, h⟩
            exact hviable _ ⟨c, s :: ss, by simpa using hfirst.cons h⟩
          · intro w' ss rounds q h
            simpa using hrest (hfirst.cons h)
      refine hstep.congr fun {b' p'} hcovers _ hhead => ?_
      have hnext' : ¬(nextKind p'.ahead = .rbrace ∨ p'.ahead = []) := by
        rwa [nextKind_of_head? hhead, ← List.head?_eq_none_iff, hhead, List.head?_eq_none_iff]
      obtain ⟨room', _ | rounds'⟩ := b'
      · exact absurd (.inr (List.eq_nil_of_length_eq_zero (Nat.le_zero.1 hcovers.rounds))) hnext'
      · exact items_echoes (steady_declaration room') hk rounds' hnext'

theorem pinpoints_block : PinpointsIn (room + 1) block fun w b => Body w [] b := by
  intro rounds p
  have hdone {lbrace : Token} {w : List Token} {ss : List Stmt} (hlbrace : lbrace.kind = .lbrace)
      (h : Declarations w [] ss) : Completes (fun w b => Body w [] b) (lbrace :: w) :=
    ⟨[sample .rbrace], _, .mk hlbrace (h.congr (by decide)) rfl⟩
  have hnil := (hdone (rfl : (sample .lbrace).kind = .lbrace) .nil).shorten List.nil_prefix
  simp only [block_eq]
  apply Pinpoints.nested
  refine .expectWith (f := fun b lbrace => do
      let body ← bounded (items (declaration b.room))
      let _ ← expect .rbrace "expected '\x7d' after block"
      return Block.mk body lbrace.pos) "expected '\x7b' before block" Budget.down
    Budget.Covers.down (by decide) hnil fun {lbrace q} hlbrace => ?_
  refine .bounded (fun room rounds => items (declaration room) rounds >>= fun ss => do
    let _ ← expect .rbrace "expected '\x7d' after block"
    return Block.mk ss lbrace.pos) fun rounds => ?_
  refine pinpoints_items hdeclaration (fun ss => (steady_expect _ _).bind fun _ => steady_pure _)
    rounds q ?_ ?_
  · rintro u ⟨c, ss, h⟩
    exact (hdone hlbrace h).shorten (by simp)
  · intro w ss rounds q h
    exact .expect _ (by decide) ((hdone hlbrace h).shorten (by simp)) fun _ => .pure _

end

theorem pinpoints_fnDecl {room : Nat}
    (hblock : PinpointsIn room block fun w b => Body w [] b) (rounds : Nat) {p : Parser}
    (hkind : nextKind p.ahead = .oya) :
    Pinpoints (fun b => fnDecl (block b.room)) (Completes fun w s => Declaration w [] s)
      ⟨room, rounds⟩ p := by
  have hstart : nextKind p.ahead ≠ .eof := by simp [hkind]
  refine .advance hstart fun {oya q} hoya => ?_
  have hdone {name lparen : Token} {u v w : List Token} {params : List Param}
      {returns? : Option String} {b : Block} (hname : name.kind = .ident)
      (hlparen : lparen.kind = .lparen) (hparams : ListedUpTo .rparen Parameter u params)
      (hreturns : Annotation v returns?) (hbody : Body w [] b) :
      Completes (fun w s => Declaration w [] s) (oya :: name :: lparen :: (u ++ (v ++ w))) := by
    obtain ⟨u, rparen, rfl, hrparen, hparams⟩ := hparams
    have hphrase := Declaration.fnDecl (hoya.trans hkind) hname hlparen hparams hrparen hreturns
      hbody
    exact ⟨[], _, by simpa using hphrase⟩
  have hident : (sample .ident).kind = .ident := rfl
  have hopen : (sample .lparen).kind = .lparen := rfl
  have hparams : ListedUpTo .rparen Parameter [sample .rparen] [] := ⟨[], _, rfl, rfl, .none⟩
  have hbody : Body [sample .lbrace, sample .rbrace] [] ⟨[], .start⟩ :=
    .mk (w := []) rfl .nil rfl
  refine .expect _ (by decide) ((hdone hident hopen hparams .none hbody).shorten (by simp))
    fun hname => ?_
  refine .expect _ (by decide) ((hdone hname hopen hparams .none hbody).shorten (by simp))
    fun hlparen => ?_
  refine .bind (.mono (pinpoints_listUpTo (fun _ => steady_param) firm_param _ (by decide)
    (fun _ => recognizes_param) (fun _ => pinpoints_param _) rounds _) ?_)
    (firm_listUpTo (fun _ => steady_param) firm_param _ (by decide) _)
    (fun _ => steady_listUpTo _ _ steady_param)
    (fun _ => recognizes_listUpTo steady_param recognizes_param) ?_ fun hparams => ?_
  · rintro u ⟨c, params, h⟩
    exact (hdone hname hlparen h .none hbody).shorten (by simp)
  · exact fun b _ => (steady_annotation? _).bind fun _ => (steady_block b.room).bind fun _ =>
      steady_pure _
  refine .bind (.mono (pinpoints_annotation? _ _ _) ?_) (firm_annotation? _ _)
    (fun _ => steady_annotation? _) (fun _ => recognizes_annotation? _)
    (fun b _ => (steady_block b.room).bind fun _ => steady_pure _) fun hreturns => ?_
  · rintro u ⟨c, returns?, h⟩
    exact (hdone hname hlparen hparams h hbody).shorten (by simp)
  refine .bind_pure (.mono (hblock rounds _) ?_) _
  rintro u ⟨c, b, h⟩
  exact (hdone hname hlparen hparams hreturns h).shorten (by simp)

/-! ## Conditionals, loops and simple statements -/

def Guard (w : List Token) (cond : Expr) : Prop :=
  ∃ c lparen rparen, w = lparen :: (c ++ [rparen]) ∧ lparen.kind = .lparen ∧
    rparen.kind = .rparen ∧ Expression .assignment c cond

section

variable {c v w : List Token} {cond : Expr} {body : Stmt}

theorem Guard.conditional {else? : Option Stmt} {abi : Token} (h : Guard c cond)
    (habi : abi.kind = .abi) (hbody : Statement v w body) (hotherwise : Otherwise w [] else?) :
    Statement (abi :: (c ++ (v ++ w))) [] (.ifElse cond body else? abi.pos) := by
  obtain ⟨c, lparen, rparen, rfl, hlparen, hrparen, hcond⟩ := h
  rw [← List.append_nil w] at hbody
  simpa using Statement.conditional habi hlparen hcond hrparen hbody hotherwise

theorem Guard.whileLoop {waka : Token} (h : Guard c cond) (hwaka : waka.kind = .waka)
    (hbody : Statement v [] body) :
    Statement (waka :: (c ++ v)) [] (.whileLoop cond body waka.pos) := by
  obtain ⟨c, lparen, rparen, rfl, hlparen, hrparen, hcond⟩ := h
  simpa using Statement.whileLoop hwaka hlparen hcond hrparen hbody

end

theorem firm_condition (keyword : String) (p : Parser) :
    Firm (fun b => condition keyword (value b.room)) p :=
  (firm_expect _ _).bind (fun b _ => (steady_value b.room).bind fun _ =>
    (steady_expect _ _).bind fun _ => steady_pure _) fun _ q => firm_closed _ _ id q

theorem pinpoints_condition (keyword : String) (room : Nat) :
    PinpointsIn room (fun room => condition keyword (value room)) Guard := by
  intro rounds p
  have hdone {lparen rparen : Token} {c : List Token} {cond : Expr}
      (hlparen : lparen.kind = .lparen) (hcond : Expression .assignment c cond)
      (hrparen : rparen.kind = .rparen) : Completes Guard ([lparen] ++ (c ++ [rparen])) :=
    .of_phrase ⟨c, lparen, rparen, rfl, hlparen, hrparen, hcond⟩
  have hnil := (hdone (rfl : (sample .lparen).kind = .lparen) (expression_sample _)
    (rfl : (sample .rparen).kind = .rparen)).shorten List.nil_prefix
  refine .expect _ (by decide) hnil fun hlparen => ?_
  exact pinpoints_closed (pinpoints_expression room) [_] _ (by decide) id (hdone hlparen) rounds _

theorem firm_statement (p : Parser) : Firm (fun b => statement b.room) p :=
  firm_of_reads (fun room => (recognizes_block_statement room).2)
    (fun h hhead => h.congr (by rw [nextKind_of_head? hhead]; exact id))
    (fun bound => (reads_block_statement bound).2) p

theorem pinpoints_ret (room rounds : Nat) {p : Parser} (hkind : nextKind p.ahead = .comot) :
    Pinpoints (fun b => ret (value b.room)) (Completes fun w s => Statement w [] s)
      ⟨room, rounds⟩ p := by
  have hstart : nextKind p.ahead ≠ .eof := by simp [hkind]
  have hsemicolon : (sample .semicolon).kind = .semicolon := rfl
  refine .advance hstart fun {comot q} hcomot => .check (by decide) fun {found} _ => ?_
  cases found with
  | true =>
      refine .expect _ (by decide) ?_ fun _ => .pure _
      exact .shorten (.of_phrase (.ret (hcomot.trans hkind) hsemicolon)) (by simp)
  | false =>
      simp only [Bool.false_eq_true, if_false, bind_map_left]
      refine pinpoints_closed (pinpoints_expression room) [comot] _ (by decide) _ ?_ rounds q
      intro w e last h hlast
      exact .of_phrase (.retValue (hcomot.trans hkind) h hlast)

theorem pinpoints_exprStmt (room : Nat) :
    PinpointsIn room (fun room => exprStmt (value room)) fun w s => Statement w [] s := by
  intro rounds p
  have hstatement {w : List Token} {e : Expr} {last : Token} (h : Expression .assignment w e)
      (hlast : last.kind = .semicolon) :
      Completes (fun w s => Statement w [] s) ([] ++ (w ++ [last])) := by
    cases w with
    | nil => exact absurd rfl (h.opens [])
    | cons first w => exact .of_phrase (.expr h hlast)
  have hclosed := pinpoints_closed (pinpoints_expression room) [] "expected ';' after expression"
    (by decide) id hstatement rounds p
  refine hclosed.of_parserOf fun {b' p'} _ _ => ?_
  -- The statement keeps the place where it starts, which is not seen in the parser it leaves.
  have hmap : exprStmt (value b'.room) p' =
      ((fun e => Stmt.expr e p'.current.pos) <$> (do
        let e ← expression b'.room .assignment
        let _ ← expect .semicolon "expected ';' after expression"
        return id e)) p' := by
    simp only [map_bind, map_pure]
    rfl
  change parserOf (exprStmt (value b'.room) p') = _
  rw [hmap, parserOf_map]

def otherBranch (value : Parse Expr) (statement : Parse Stmt)
    (links : Parse (List Branch × Option Stmt)) : Parse (List Branch × Option Stmt) := do
  if ← check .abi then
    let link ← branch value statement
    let (more, else?) ← links
    return (link :: more, else?)
  else
    return ([], some (← statement))

section

variable {room : Nat}
  (hstatement : PinpointsIn room statement fun w s => Statement w [] s)

include hstatement

theorem pinpoints_guarded {β : Type} {f : Budget → Expr → Stmt → Parse β}
    {viable : List Token → Prop} (keyword : String) (rounds : Nat) (p : Parser)
    (hsteady : ∀ b cond body, Steady (f b cond body))
    (hviable : ∀ {c cond v body}, Guard c cond → Statement v [] body →
      ∀ u, u <+: c ++ v → viable u)
    (hf : ∀ {c cond v body q}, Guard c cond → Statement v q.ahead body →
      Pinpoints (fun b => f b cond body) (fun u => viable (c ++ (v ++ u))) ⟨room, rounds⟩ q) :
    Pinpoints (fun b => condition keyword (value b.room) >>= fun cond =>
      statement b.room >>= f b cond) viable ⟨room, rounds⟩ p := by
  have hlast : Statement [sample .comot, sample .semicolon] [] (.ret none .start) := .ret rfl rfl
  refine .bind (.mono (pinpoints_condition keyword room rounds p) ?_) (firm_condition keyword p)
    (fun b => steady_condition keyword (steady_value b.room))
    (fun b => recognizes_condition (recognizes_value b.room) keyword)
    (fun b _ => (steady_statement b.room).bind fun _ => hsteady _ _ _) fun hguard => ?_
  · rintro u ⟨c, cond, h⟩
    exact hviable h hlast u (by simp)
  refine .bind (.mono (hstatement rounds _) ?_) (firm_statement _)
    (fun b => steady_statement b.room) (fun b => (recognizes_block_statement b.room).2)
    (fun b _ => hsteady b _ _) fun hbody => hf hguard hbody
  rintro u ⟨c, body, h⟩
  exact hviable hguard h _ (by simp)

theorem pinpoints_whileLoop (rounds : Nat) {p : Parser} (hkind : nextKind p.ahead = .waka) :
    Pinpoints (fun b => whileLoop (value b.down.room) (statement b.down.room))
      (Completes fun w s => Statement w [] s) ⟨room + 1, rounds⟩ p := by
  have hstart : nextKind p.ahead ≠ .eof := by simp [hkind]
  refine .advanceWith (f := fun b waka => do
      let cond ← condition "waka" (value b.room)
      return Stmt.whileLoop cond (← statement b.room) waka.pos)
    Budget.down Budget.Covers.down hstart fun {waka q} hwaka => ?_
  refine pinpoints_guarded hstatement "waka" rounds q (fun _ _ _ => steady_pure _) ?_
    fun _ _ => .pure _
  intro c cond v body hguard hbody u hu
  have hphrase := hguard.whileLoop (hwaka.trans hkind) hbody
  exact .shorten (.of_phrase hphrase) (by simpa using hu)

/-- The first branch of a conditional can stand alone.  If links follow it, the other branch
is next. -/
theorem pinpoints_chain {β : Type} {f : Budget → Expr → Stmt → Parse β}
    {viable : List Token → Prop} {abi : Token} (habi : abi.kind = .abi) (rounds : Nat)
    (p : Parser) (hsteady : ∀ b cond body, Steady (f b cond body))
    (hviable : ∀ u, Completes (fun w s => Statement w [] s) (abi :: u) → viable u)
    (hlinks : ∀ {viable : List Token → Prop} {cond body q},
      (nextKind q.ahead = .naso →
        ∀ u, Completes (fun w else? => Otherwise w [] else?) u → viable u) →
      Pinpoints (fun b => f b cond body) viable ⟨room, rounds⟩ q) :
    Pinpoints (fun b => condition "abi" (value b.room) >>= fun cond =>
      statement b.room >>= f b cond) viable ⟨room, rounds⟩ p := by
  refine pinpoints_guarded hstatement "abi" rounds p hsteady ?_ ?_
  · intro c cond v body hguard hbody u hu
    have hphrase := hguard.conditional habi hbody (.none (by decide))
    exact hviable u (.shorten (.of_phrase hphrase) (by simpa using hu))
  · intro c cond v body q hguard hbody
    -- The other branch is next, so whatever completes it may follow the first.
    refine hlinks fun hnaso u ⟨w, else?, h⟩ => hviable _ ⟨w, .ifElse cond body else? abi.pos, ?_⟩
    simpa using hguard.conditional habi (hbody.congr fun _ => hnaso) h

theorem pinpoints_otherBranch {viable : List Token → Prop} {naso : Token}
    (hnaso : naso.kind = .naso) (rounds : Nat) (p : Parser)
    (hviable : ∀ u, Completes (fun w else? => Otherwise w [] else?) (naso :: u) → viable u)
    (hlinks : ∀ {viable : List Token → Prop} {q : Parser},
      (nextKind q.ahead = .naso →
        ∀ u, Completes (fun w else? => Otherwise w [] else?) u → viable u) →
      Pinpoints (fun b => links (value b.room) (statement b.room) b.rounds) viable
        ⟨room, rounds⟩ q) :
    Pinpoints (fun b => otherBranch (value b.room) (statement b.room)
      (links (value b.room) (statement b.room) b.rounds)) viable ⟨room, rounds⟩ p := by
  refine .check (by decide) fun {found} hfound => ?_
  cases found with
  | true =>
      have habi := of_decide_eq_true hfound.symm
      simp only [if_true, branch, bind_assoc, pure_bind]
      refine .advance (by rw [habi]; decide) fun {abi q} hkind => ?_
      refine pinpoints_chain hstatement (hkind.trans habi) rounds q ?_ ?_ ?_
      · exact fun b _ _ => (steady_links (steady_value b.room) (steady_statement b.room)
          b.rounds).bind fun _ => steady_pure _
      · rintro u ⟨c, s, h⟩
        exact hviable _ ⟨c, _, .some hnaso h⟩
      · intro viable cond body q hviable
        exact (hlinks hviable).bind_pure fun below => (⟨cond, body, abi.pos⟩ :: below.1, below.2)
  | false =>
      refine .bind_pure (.mono (hstatement rounds p) ?_) fun s => ([], some s)
      rintro u ⟨c, s, h⟩
      exact hviable _ ⟨c, _, .some hnaso h⟩

theorem pinpoints_links {viable : List Token → Prop} (rounds : Nat) {p : Parser}
    (hviable : nextKind p.ahead = .naso →
      ∀ u, Completes (fun w else? => Otherwise w [] else?) u → viable u) :
    Pinpoints (fun b => links (value b.room) (statement b.room) b.rounds) viable
      ⟨room, rounds⟩ p := by
  induction rounds generalizing viable p with
  | zero => exact .of_normal fun _ hmode => hmode
  | succ rounds ih =>
      by_cases hnext : nextKind p.ahead = .naso
      · cases hp : p.ahead with
        | nil => simp [hp, nextKind] at hnext
        | cons naso rest =>
            have hviable := hviable hnext
            rw [hp] at hnext
            have hrest := pinpoints_otherBranch hstatement hnext rounds (p.read [naso] rest)
              (fun u => hviable (naso :: u)) ih
            have hstep : Pinpoints (fun b => do
                  if ← accept .naso then
                    otherBranch (value b.spend.room) (statement b.spend.room)
                      (links (value b.spend.room) (statement b.spend.room) b.spend.rounds)
                  else
                    return ([], none)) viable ⟨room, rounds + 1⟩ p :=
              .after (f := fun b found => if found then
                  otherBranch (value b.room) (statement b.room)
                    (links (value b.room) (statement b.room) b.rounds)
                else pure ([], none))
                Budget.spend Budget.Covers.spend hp (fun _ => takes_accept hnext _) hrest
            refine hstep.of_parserOf fun {b' p'} hcovers hhead => ?_
            obtain ⟨rest', hp'⟩ := cons_of_head? hhead (congrArg List.head? hp)
            obtain ⟨room', _ | rounds'⟩ := b'
            · simpa [hp'] using hcovers.rounds
            · rfl
      · refine .of_normal fun _ hmode => ?_
        have hnone : links (value room) (statement room) (rounds + 1) p = .ok ([], none) p :=
          bind_of_ok (takes_accept_none (by decide) hnext p rfl)
        dsimp only
        rw [hnone]
        exact hmode

theorem pinpoints_conditional (rounds : Nat) {p : Parser} (hkind : nextKind p.ahead = .abi) :
    Pinpoints (fun b => conditional (value b.down.room) (statement b.down.room))
      (Completes fun w s => Statement w [] s) ⟨room + 1, rounds⟩ p := by
  have hstart : nextKind p.ahead ≠ .eof := by simp [hkind]
  simp only [conditional, branch, bind_assoc, pure_bind]
  refine .advanceWith (f := fun b abi => do
      let cond ← condition "abi" (value b.room)
      let body ← statement b.room
      let (more, else?) ← bounded (links (value b.room) (statement b.room))
      return Branch.chain ⟨cond, body, abi.pos⟩ more else?)
    Budget.down Budget.Covers.down hstart fun {abi q} habi => ?_
  refine pinpoints_chain hstatement (habi.trans hkind) rounds q ?_ (fun _ h => h) ?_
  · exact fun b _ _ => (steady_bounded (steady_links (steady_value b.room)
      (steady_statement b.room))).bind fun _ => steady_pure _
  · intro viable cond body q hviable
    refine .bind_pure (.bounded (fun room => links (value room) (statement room)) fun rounds =>
      pinpoints_links hstatement rounds hviable) fun below =>
        Branch.chain ⟨cond, body, abi.pos⟩ below.1 below.2

end

/-! ## The descent -/

theorem pinpoints_statementOf {viable : List Token → Prop} {b : Budget} {p : Parser}
    (h : Pinpoints (fun b =>
      match nextKind p.ahead with
        | .lbrace => Stmt.ofBlock <$> block b.room
        | .abi => nested b.room fun inner => conditional (value inner) (statement inner)
        | .waka => nested b.room fun inner => whileLoop (value inner) (statement inner)
        | .comot => ret (value b.room)
        | _ => exprStmt (value b.room)) viable b p) :
    Pinpoints (fun b => statement b.room) viable b p := by
  refine h.of_parserOf fun {b' p'} _ hhead => ?_
  rw [statement_eq, statementOf, Parser.kind_current, nextKind_of_head? hhead]
  generalize nextKind p.ahead = kind
  cases kind <;> rfl

theorem pinpoints_declarationOf {viable : List Token → Prop} {b : Budget} {p : Parser}
    (h : Pinpoints (fun b =>
      match nextKind p.ahead with
        | .abeg => varDecl (value b.room)
        | .oya => fnDecl (block b.room)
        | _ => statement b.room) viable b p) :
    Pinpoints (fun b => declaration b.room) viable b p := by
  refine h.of_parserOf fun {b' p'} _ hhead => ?_
  rw [declaration, declarationOf, Parser.kind_current, nextKind_of_head? hhead]
  generalize nextKind p.ahead = kind
  cases kind <;> rfl

theorem pinpoints_declaration_of {room : Nat}
    (hblock : PinpointsIn room block fun w b => Body w [] b)
    (hstatement : PinpointsIn room statement fun w s => Statement w [] s) :
    PinpointsIn room declaration fun w s => Declaration w [] s := by
  intro rounds p
  apply pinpoints_declarationOf
  split
  · exact pinpoints_varDecl room rounds ‹_›
  · exact pinpoints_fnDecl hblock rounds ‹_›
  · refine (hstatement rounds p).mono ?_
    rintro u ⟨c, s, h⟩
    exact ⟨c, s, .statement h⟩

theorem pinpoints_block_statement (room : Nat) :
    (PinpointsIn room block fun w b => Body w [] b) ∧
      PinpointsIn room statement fun w s => Statement w [] s := by
  induction room with
  | zero =>
      constructor <;>
        exact fun rounds p hcovers => absurd hcovers.room (Nat.not_lt_zero _)
  | succ room ih =>
      have hblock := pinpoints_block (pinpoints_declaration_of ih.1 ih.2)
      refine ⟨hblock, fun rounds p => pinpoints_statementOf ?_⟩
      split
      · refine .map (.mono (hblock rounds p) ?_) Stmt.ofBlock
        rintro u ⟨c, b, h⟩
        exact ⟨c, .ofBlock b, .block h⟩
      · exact .nested (pinpoints_conditional ih.2 rounds ‹_›)
      · exact .nested (pinpoints_whileLoop ih.2 rounds ‹_›)
      · exact pinpoints_ret (room + 1) rounds ‹_›
      · exact pinpoints_exprStmt (room + 1) rounds p

theorem pinpoints_declaration (room : Nat) :
    PinpointsIn room declaration fun w s => Declaration w [] s :=
  pinpoints_declaration_of (pinpoints_block_statement room).1 (pinpoints_block_statement room).2

end Parse

end Pidgin
