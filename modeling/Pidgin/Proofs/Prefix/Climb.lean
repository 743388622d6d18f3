import Pidgin.Proofs.Grammar.Completion
import Pidgin.Proofs.Prefix.Pinpoint

/-!
# The climb blames the right token

Where an expression cannot go on, what has been read of it is completed from the
inside out: a missing operand by a name, an open list or index by its closing
token.  The left operand that the climb holds is an expression of some level, so
every later reader comes to hold it too, and fails at the same operator.
-/

namespace Pidgin

open Grammar

theorem Rule.next_of_mem_operators {power : Power} {kind : Kind} (h : kind ∈ operators power) :
    .assignment ≤ power.next ∧ power.next ≤ .unary := by
  cases power <;> first | contradiction | decide

namespace Parse

variable {α : Type}

/-- With this much room, what the reader has read before it panics can be completed. -/
def PinpointsIn (room : Nat) (m : Nat → Parse α) (phrase : List Token → α → Prop) : Prop :=
  ∀ rounds p, Pinpoints (fun b => m b.room) (Completes phrase) ⟨room, rounds⟩ p

/-! ## Lists -/

def commaTail (item : Parse α) : (rounds : Nat) → α → Parse (List α)
  | 0, first => return [first]
  | rounds + 1, first => do
      if ← accept .comma then return first :: (← commaList item rounds) else return [first]

theorem commaList_eq (item : Parse α) (rounds : Nat) :
    commaList item rounds = item >>= commaTail item rounds := by
  cases rounds <;> rfl

section

variable {item : Parse α} {w rest : List Token} {a : α}

theorem takes_commaTail_none (rounds : Nat) (a : α) (hnext : nextKind rest ≠ .comma) :
    Takes (commaTail item rounds a) [] rest [a] := by
  cases rounds with
  | zero => exact takes_pure [a] rest
  | succ rounds =>
      exact .bind [] (takes_accept_none (by decide) hnext) (takes_pure [a] rest) rfl

theorem takes_commaList_one {rounds : Nat} (h : Takes item w rest a)
    (hnext : nextKind rest ≠ .comma) : Takes (commaList item rounds) w rest [a] := by
  rw [commaList_eq]
  exact .bind [] h (takes_commaTail_none rounds a hnext) (List.append_nil w).symm

theorem takes_commaList_more {rounds : Nat} {comma : Token} {v : List Token} {as : List α}
    (h : Takes item w (comma :: (v ++ rest)) a) (hcomma : comma.kind = .comma)
    (hmore : Takes (commaList item rounds) v rest as) :
    Takes (commaList item (rounds + 1)) (w ++ comma :: v) rest (a :: as) :=
  .bind (comma :: v) h (.bind v (takes_accept hcomma _) (hmore.bind_pure (a :: ·)) rfl) rfl

end

def ListedUpTo (close : Kind) (item : List Token → α → Prop) (w : List Token) (as : List α) :
    Prop :=
  ∃ v last, w = v ++ [last] ∧ last.kind = close ∧ Listed item v as

section

variable {item : Nat → Parse α} {phrase : List Token → α → Prop} {room : Nat}
  (hsteady : ∀ room, Steady (item room)) (hfirm : ∀ p, Firm (fun b => item b.room) p)

include hsteady hfirm

theorem firm_commaList (p : Parser) : Firm (fun b => commaList (item b.room) b.rounds) p := by
  rintro ⟨room, rounds⟩ as q hcovers h hq
  induction rounds generalizing p as q with
  | zero =>
      obtain ⟨first, r, hfirst, hpure⟩ := bind_ok h
      cases hpure
      obtain ⟨w, hw, htakes⟩ := hfirm p ⟨room, 0⟩ first q hcovers hfirst hq
      refine ⟨w, hw, fun b' rest hcovers' hhead => ?_⟩
      refine takes_commaList_one (htakes b' _ hcovers' hhead) ?_
      -- No round is left, so no token is left either.
      have hnone := List.eq_nil_of_length_eq_zero (Nat.le_zero.1 hcovers.rounds)
      rw [nextKind_of_head? hhead, (List.append_eq_nil_iff.1 (hw.symm.trans hnone)).2]
      decide
  | succ rounds ih =>
      obtain ⟨first, r, hfirst, h⟩ := bind_ok h
      have hr := (steady_commaTail (steady_commaList (hsteady room) rounds) first).normal_of_ok h hq
      obtain ⟨w, hw, htakes⟩ := hfirm p ⟨room, rounds + 1⟩ first r hcovers hfirst hr
      obtain ⟨found, r', haccept, h⟩ := bind_ok h
      cases found with
      | false =>
          cases h
          obtain ⟨rfl, hcomma⟩ := accept_false haccept
          rw [Parser.check_eq (by decide), decide_eq_false_iff_not] at hcomma
          refine ⟨w, hw, fun b' rest hcovers' hhead => ?_⟩
          refine takes_commaList_one (htakes b' _ hcovers' hhead) ?_
          rwa [nextKind_of_head? hhead]
      | true =>
          obtain ⟨comma, hcomma, hahead, -⟩ := accept_true haccept
          obtain ⟨more, _, hmore, hpure⟩ := bind_ok h
          cases hpure
          rw [hw, hahead] at hcovers
          obtain ⟨v, hv, htakes'⟩ := ih r' more q hcovers.of_append.spend hmore hq
          refine ⟨w ++ comma :: v, by rw [hw, hahead, hv]; simp, ?_⟩
          rintro ⟨room', _ | rounds'⟩ rest hcovers' hhead
          · exact absurd hcovers'.rounds (by simp)
          · rw [List.append_assoc] at hcovers'
            exact takes_commaList_more (htakes _ _ hcovers' (by rw [hahead]; rfl)) hcomma
              (htakes' ⟨room', rounds'⟩ rest hcovers'.of_append.spend hhead)

theorem firm_listUpTo {close : Kind} (expectation : String) (hclose : close ≠ .eof)
    (p : Parser) : Firm (fun b => listUpTo close expectation (item b.room)) p := by
  have hclosed (as : List α) :
      Steady (do let _ ← expect close expectation; return as) :=
    (steady_expect close expectation).bind fun _ => steady_pure as
  have hitems (room : Nat) : Steady (bounded (commaList (item room))) :=
    steady_bounded (steady_commaList (hsteady room))
  refine (firm_check hclose).bind ?_ ?_
  · intro b found
    cases found with
    | true => exact (steady_pure []).bind hclosed
    | false => exact (hitems b.room).bind hclosed
  · intro found q
    have hend (as : List α) (q : Parser) :
        Firm (fun _ => expect close expectation >>= fun _ => pure as) q :=
      (firm_expect close expectation).bind_pure fun _ => as
    cases found with
    | true => exact (firm_pure []).bind (fun _ => hclosed) hend
    | false =>
        exact .bind (.bounded (fun room => commaList (item room)) (firm_commaList hsteady hfirm))
          (fun _ => hclosed) hend

omit hsteady hfirm in
theorem pinpoints_commaTail {viable : List Token → Prop} {first : α} {rounds : Nat}
    {p : Parser}
    (hmore : ∀ {comma q}, comma.kind = .comma →
      Pinpoints (fun b => commaList (item b.room) b.rounds) (fun u => viable (comma :: u))
        ⟨room, rounds⟩ q) :
    Pinpoints (fun b => commaTail (item b.room) b.rounds first) viable ⟨room, rounds + 1⟩ p := by
  by_cases hnext : nextKind p.ahead = .comma
  · cases hp : p.ahead with
    | nil => simp [hp, nextKind] at hnext
    | cons comma rest =>
        rw [hp] at hnext
        have hrest := Pinpoints.after (p := p) (b := ⟨room, rounds + 1⟩) (f := fun b found => do
            if found then return first :: (← commaList (item b.room) b.rounds)
            else return [first]) Budget.spend Budget.Covers.spend hp
          (fun _ => takes_accept hnext _) ((hmore hnext).bind_pure (first :: ·))
        refine hrest.of_parserOf fun {b' p'} hcovers hhead => ?_
        obtain ⟨room', _ | rounds'⟩ := b'
        · rw [List.eq_nil_of_length_eq_zero (Nat.le_zero.1 hcovers.rounds), hp] at hhead
          cases hhead
        · rfl
  · refine .of_normal fun _ hmode => ?_
    change (parserOf (commaTail (item room) (rounds + 1) first p)).mode = _
    rw [takes_commaTail_none (rounds + 1) first hnext p rfl]
    exact hmode

theorem pinpoints_commaList
    (hrecognizes : ∀ room, Recognizes (item room) fun w _ a => phrase w a)
    (hitem : PinpointsIn room item phrase)
    (rounds : Nat) (p : Parser) :
    Pinpoints (fun b => commaList (item b.room) b.rounds) (Completes (Separated phrase))
      ⟨room, rounds⟩ p := by
  have hlist {rounds : Nat} {p : Parser}
      (htail : ∀ {w first q}, phrase w first →
        Pinpoints (fun b => commaTail (item b.room) b.rounds first)
          (fun u => Completes (Separated phrase) (w ++ u)) ⟨room, rounds⟩ q) :
      Pinpoints (fun b => commaList (item b.room) b.rounds) (Completes (Separated phrase))
        ⟨room, rounds⟩ p := by
    have hone : Pinpoints (fun b => item b.room) (Completes (Separated phrase)) ⟨room, rounds⟩ p :=
      (hitem rounds p).mono fun u ⟨c, a, h⟩ => ⟨c, [a], .one h⟩
    simp only [commaList_eq]
    refine hone.bind (hfirm p) (fun b => hsteady b.room) (fun b => hrecognizes b.room) ?_ htail
    intro b first
    cases b.rounds with
    | zero => exact steady_pure [first]
    | succ rounds => exact steady_commaTail (steady_commaList (hsteady b.room) rounds) first
  induction rounds generalizing p with
  | zero => exact hlist fun _ => .of_normal fun _ hmode => hmode
  | succ rounds ih =>
      refine hlist fun hfirst => pinpoints_commaTail fun hcomma => (ih _).mono ?_
      rintro u ⟨c, as, h⟩
      exact ⟨c, _ :: as, by simpa using Separated.more hfirst hcomma h⟩

theorem pinpoints_listUpTo {close : Kind} (expectation : String) (hclose : close ≠ .eof)
    (hrecognizes : ∀ room, Recognizes (item room) fun w _ a => phrase w a)
    (hitem : PinpointsIn room item phrase) :
    PinpointsIn room (fun room => listUpTo close expectation (item room))
      (ListedUpTo close phrase) := by
  intro rounds p
  have hend {w : List Token} {as : List α} (h : Listed phrase w as) :
      ListedUpTo close phrase (w ++ [sample close]) as := ⟨w, sample close, rfl, rfl, h⟩
  have hclosed {w : List Token} {as : List α} {q : Parser} (h : Listed phrase w as) :
      Pinpoints (fun _ => expect close expectation >>= fun _ => pure as)
        (fun u => Completes (ListedUpTo close phrase) (w ++ u)) ⟨room, rounds⟩ q :=
    .expect expectation hclose ⟨[sample close], as, by simpa using hend h⟩ fun _ => .pure as
  refine .check hclose fun {found} _ => ?_
  cases found with
  | true => exact hclosed (w := []) .none
  | false =>
      have hitems : Pinpoints (fun b => bounded (commaList (item b.room)))
          (Completes (ListedUpTo close phrase)) ⟨room, rounds⟩ p := by
        refine .mono (.bounded (fun room => commaList (item room)) fun rounds =>
          pinpoints_commaList hsteady hfirm hrecognizes hitem rounds p) ?_
        rintro u ⟨c, as, h⟩
        exact ⟨c ++ [sample close], as, by simpa using hend (.some h)⟩
      refine hitems.bind
        (.bounded (fun room => commaList (item room)) (firm_commaList hsteady hfirm))
        (fun b => steady_bounded (steady_commaList (hsteady b.room)))
        (fun b => .bounded (recognizes_commaList (hsteady b.room) (hrecognizes b.room)))
        (fun _ as => (steady_expect _ _).bind fun _ => steady_pure as) ?_
      exact fun h => hclosed (.some h)

end

/-! ## Operands -/

theorem firm_of_reads {m : Nat → Parse α} {phrase : List Token → List Token → α → Prop}
    {nest parens : α → Nat} (hrecognizes : ∀ room, Recognizes (m room) phrase)
    (hcongr : ∀ {w rest rest' a}, phrase w rest a → rest'.head? = rest.head? →
      phrase w rest' a)
    (hreads : ∀ bound, ReadsUpTo bound m phrase nest parens) (p : Parser) :
    Firm (fun b => m b.room) p := by
  refine firm_of_phrase (fun b => hrecognizes b.room) hcongr fun {b w rest a} h hcovers => ?_
  have hroom := hcovers.room
  rw [List.length_append] at hroom
  obtain ⟨depth, hmeasured, hneeds⟩ := hreads w.length h (Nat.le_refl _)
  have hdepth := hmeasured.depth_le
  exact hneeds.takes b.room (by omega)

theorem firm_expression {power : Power} (hlow : .assignment ≤ power) (hhigh : power ≤ .unary)
    (p : Parser) : Firm (fun b => expression b.room power) p := by
  refine firm_of_reads (fun room => recognizes_expression room hlow hhigh) ?_
    (fun bound => reads_expression bound hlow hhigh) p
  rintro w rest rest' e ⟨h, hnext⟩ hhead
  exact ⟨h, by rwa [nextKind_of_head? hhead]⟩

theorem firm_arguments {close : Kind} (expectation : String) (hclose : close ≠ .eof)
    (p : Parser) :
    Firm (fun b => listUpTo close expectation (expression b.room .assignment)) p :=
  firm_listUpTo (fun room => steady_expression room _)
    (firm_expression (by decide) (by decide)) expectation hclose p

theorem firm_closed {β : Type} (close : Kind) (expectation : String) (g : Expr → β)
    (p : Parser) :
    Firm (fun b => do
      let e ← expression b.room .assignment
      let _ ← expect close expectation
      return g e) p :=
  (firm_expression (by decide) (by decide) p).bind
    (fun _ _ => (steady_expect _ _).bind fun _ => steady_pure _)
    fun e _ => (firm_expect close expectation).bind_pure fun _ => g e

def Opens (token : Token) : Prop :=
  (Rule.ofKind token.kind).opening? ≠ none ∧
    ((Rule.ofKind token.kind).opening? = some .literal →
      ∃ value, Literal.ofToken token = .ok value)

theorem opening_of_not_opens {token : Token} (h : ¬Opens token) :
    ∃ cause, ∀ operand, opening operand token = fail token cause := by
  unfold opening
  cases hform : (Rule.ofKind token.kind).opening? with
  | none => exact ⟨_, fun _ => rfl⟩
  | some form =>
      cases form with
      | literal =>
          cases hvalue : Literal.ofToken token with
          | ok value => exact absurd ⟨by simp [hform], fun _ => ⟨value, hvalue⟩⟩ h
          | error cause => exact ⟨cause, fun _ => by simp [literal, hvalue]⟩
      | _ => exact absurd ⟨by simp [hform], by simp [hform]⟩ h

theorem steady_opening {operand : Power → Parse Expr}
    (hsteady : ∀ power, Steady (operand power)) {token : Token} (h : Opens token) :
    Steady (opening operand token) := by
  obtain ⟨hopens, hliteral⟩ := h
  unfold opening
  cases hform : (Rule.ofKind token.kind).opening? with
  | none => exact absurd hform hopens
  | some form =>
      cases form with
      | literal =>
          obtain ⟨value, hvalue⟩ := hliteral hform
          simp only [literal, hvalue]
          exact steady_pure _
      | var => exact steady_pure _
      | unary => exact steady_unary hsteady token
      | grouping => exact steady_grouping hsteady
      | array => exact steady_array hsteady token

theorem firm_opening (token : Token) (p : Parser) :
    Firm (fun b => opening (expression b.room) token) p := by
  unfold opening
  cases (Rule.ofKind token.kind).opening? with
  | none => exact firm_of_not_ok nofun
  | some form =>
      cases form with
      | literal =>
          dsimp only
          unfold literal
          cases Literal.ofToken token with
          | ok value => exact firm_pure _
          | error cause => exact firm_of_not_ok nofun
      | var => exact firm_pure _
      | unary => exact (firm_expression (by decide) (by decide) p).bind_pure _
      | grouping => exact firm_closed _ _ id p
      | array => exact (firm_arguments _ (by decide) p).bind_pure _

theorem firm_continuation {form : Continuation} {token : Token}
    (hform : (Rule.ofKind token.kind).continuation? = some form) (left : Expr) (p : Parser) :
    Firm (fun b => continuation (expression b.room) form left token) p := by
  rcases Rule.continuation_cases hform with ⟨rfl, hkind⟩ | ⟨rfl, -⟩ | ⟨rfl, -⟩ | ⟨rfl, -⟩
  · obtain ⟨hlow, hhigh⟩ := Rule.next_of_mem_operators hkind
    exact (firm_expression hlow hhigh p).bind_pure _
  · exact (firm_arguments _ (by decide) p).bind_pure _
  · exact firm_closed _ _ _ p
  · cases left with
    | var name pos => exact (firm_expression (by decide) (by decide) p).bind_pure _
    | _ =>
        refine firm_of_not_ok fun b e q h => ?_
        cases h
        simp

section

variable {room : Nat}
  (hoperand : ∀ {power}, .assignment ≤ power → power ≤ .unary →
    PinpointsIn room (expression · power) (Expression power))

include hoperand

theorem pinpoints_arguments {close : Kind} (expectation : String) (hclose : close ≠ .eof) :
    PinpointsIn room (fun room => listUpTo close expectation (expression room .assignment))
      (ListedUpTo close (Expression .assignment)) := by
  refine pinpoints_listUpTo (fun room => steady_expression room _)
    (firm_expression (by decide) (by decide)) expectation hclose ?_
    (hoperand (by decide) (by decide))
  intro room p e q h hq
  obtain ⟨w, hw, hlevel⟩ := recognizes_expression room (by decide) (by decide) p e q h hq
  exact ⟨w, hw, hlevel.1⟩

theorem pinpoints_closed {β γ : Type} {close : Kind} {phrase : List Token → γ → Prop}
    (before : List Token) (expectation : String) (hclose : close ≠ .eof) (g : Expr → β)
    (hphrase : ∀ {w e last}, Expression .assignment w e → last.kind = close →
      Completes phrase (before ++ (w ++ [last]))) (rounds : Nat) (p : Parser) :
    Pinpoints (fun b => do
        let e ← expression b.room .assignment
        let _ ← expect close expectation
        return g e)
      (fun u => Completes phrase (before ++ u)) ⟨room, rounds⟩ p := by
  have hclosed {w c : List Token} {e : Expr} (h : Expression .assignment (w ++ c) e) :
      Completes phrase (before ++ w) :=
    (hphrase h (rfl : (sample close).kind = close)).shorten (by simp)
  refine (hoperand (by decide) (by decide) rounds p).mono (fun u ⟨c, e, h⟩ => hclosed h) |>.bind
    (firm_expression (by decide) (by decide) p) (fun b => steady_expression b.room _)
    (fun b => recognizes_expression b.room (by decide) (by decide))
    (fun _ _ => (steady_expect _ _).bind fun _ => steady_pure _) ?_
  rintro w q e ⟨h, -⟩
  exact .expect expectation hclose (hclosed (c := []) (by simpa using h)) fun _ => .pure _

theorem pinpoints_opening {token : Token} (hopens : Opens token) (rounds : Nat) (p : Parser) :
    Pinpoints (fun b => opening (expression b.room) token)
      (fun u => Completes (Expression .unary) (token :: u)) ⟨room, rounds⟩ p := by
  unfold opening
  cases hform : (Rule.ofKind token.kind).opening? with
  | none => exact absurd hform hopens.1
  | some form =>
      rcases Rule.opening_cases hform with rfl | ⟨rfl, hkind⟩ | ⟨rfl, hkind⟩ |
        ⟨rfl, hkind⟩ | ⟨rfl, hkind⟩
      · obtain ⟨value, hvalue⟩ := hopens.2 hform
        refine .of_normal fun _ hmode => ?_
        simp only [literal, hvalue]
        exact hmode
      · exact .pure _
      · refine ((hoperand (by decide) (by decide) rounds p).mono ?_).bind_pure _
        rintro u ⟨c, e, h⟩
        exact ⟨c, _, .unary hkind h⟩
      · have hgroup {w : List Token} {e : Expr} {last : Token} (h : Expression .assignment w e)
            (hlast : last.kind = .rparen) :
            Completes (Expression .unary) ([token] ++ (w ++ [last])) :=
          .of_phrase (.loosen (.grouping hkind h hlast) (by decide))
        exact pinpoints_closed hoperand [token] _ (by decide) id hgroup rounds p
      · refine ((pinpoints_arguments hoperand _ (by decide) rounds p).mono ?_).bind_pure _
        rintro u ⟨c, es, v, last, hw, hlast, h⟩
        have harray := Expression.array hkind h hlast
        rw [← hw] at harray
        exact ⟨c, _, harray.loosen (by decide)⟩

theorem pinpoints_continuation {form : Continuation} {level : Power} {u : List Token}
    {left : Expr} {token : Token} (hform : (Rule.ofKind token.kind).continuation? = some form)
    (hleft : Expression level u left) (hlevel : token.kind.power ≤ level)
    (htarget : form = .assignment → ∃ name pos, left = .var name pos) (rounds : Nat)
    (p : Parser) :
    Pinpoints (fun b => continuation (expression b.room) form left token)
      (fun v => Completes (Expression token.kind.power) (u ++ token :: v)) ⟨room, rounds⟩ p := by
  have hloose := hleft.loosen hlevel
  rcases Rule.continuation_cases hform with ⟨rfl, hkind⟩ | ⟨rfl, hkind⟩ | ⟨rfl, hkind⟩ |
    ⟨rfl, hkind⟩
  · obtain ⟨hlow, hhigh⟩ := Rule.next_of_mem_operators hkind
    refine ((hoperand hlow hhigh rounds p).mono ?_).bind_pure _
    rintro v ⟨c, right, h⟩
    exact ⟨c, _, by simpa using Expression.binary hloose hkind h⟩
  · have hpower : token.kind.power = .call := by rw [hkind]; rfl
    rw [hpower] at hloose ⊢
    refine ((pinpoints_arguments hoperand _ (by decide) rounds p).mono ?_).bind_pure _
    rintro v ⟨c, args, w, last, hw, hlast, h⟩
    have hcall := Expression.call hloose hkind h hlast
    rw [← hw] at hcall
    exact ⟨c, _, by simpa using hcall⟩
  · have hpower : token.kind.power = .call := by rw [hkind]; rfl
    rw [hpower] at hloose ⊢
    have hindex {w : List Token} {place : Expr} {last : Token}
        (h : Expression .assignment w place) (hlast : last.kind = .rbracket) :
        Completes (Expression .call) ((u ++ [token]) ++ (w ++ [last])) :=
      .of_phrase (by simpa using Expression.index hloose hkind h hlast)
    refine (pinpoints_closed hoperand (u ++ [token]) _ (by decide)
      (fun place => Expr.index left place token.pos) hindex rounds p).mono ?_
    intro v h
    simpa using h
  · have hpower : token.kind.power = .assignment := by rw [hkind]; rfl
    obtain ⟨name, pos, rfl⟩ := htarget rfl
    refine ((hoperand (by decide) (by decide) rounds p).mono ?_).bind_pure _
    rintro v ⟨c, value, h⟩
    rw [hpower]
    exact ⟨c, _, by simpa using Expression.assign (hleft.primary_of_var rfl) hkind h⟩

/-! ## The climb -/

omit hoperand in
theorem steady_continuation {operand : Power → Parse Expr}
    (hsteady : ∀ power, Steady (operand power)) {form : Continuation} {left : Expr}
    (htarget : form = .assignment → ∃ name pos, left = .var name pos) (token : Token) :
    Steady (continuation operand form left token) := by
  cases form with
  | binary => exact steady_binary hsteady left token
  | call => exact steady_call hsteady left token
  | index => exact steady_index hsteady left token
  | assignment =>
      obtain ⟨name, pos, rfl⟩ := htarget rfl
      exact (hsteady _).bind fun _ => steady_pure _

omit hoperand in
theorem pinpoints_climb_target {power level : Power} {u rest : List Token} {left : Expr}
    {token : Token} {rounds : Nat} {p : Parser}
    (hform : (Rule.ofKind token.kind).continuation? = some .assignment)
    (hleft : Expression level u left) (hlevel : power ≤ level)
    (htarget : ∀ name pos, left ≠ .var name pos) (hbinds : power ≤ token.kind.power)
    (hp : p.ahead = token :: rest) :
    Pinpoints (fun b => climb (expression b.room) power b.rounds left)
      (fun w => Completes (Expression power) (u ++ w)) ⟨room, rounds⟩ p := by
  refine .refused ⟨[], left, by simpa using hleft.loosen hlevel⟩
    fun {b' p'} hcovers hhead => ⟨.invalidTarget, ?_⟩
  obtain ⟨rest', hp'⟩ := cons_of_head? hhead (congrArg List.head? hp)
  obtain ⟨room', _ | rounds'⟩ := b'
  · simpa [hp'] using hcovers.rounds
  have hreport : continuation (expression room') .assignment left token p'.shift =
      .ok left (p'.shift.record (p'.shift.diagnose token .invalidTarget)) := by
    cases left with
    | var name pos => exact absurd rfl (htarget name pos)
    | _ => rfl
  dsimp only
  rw [climb_of_binds hform hbinds hp', ← Parser.shift_eq_read hp', Parser.current_of_ahead hp',
    bind_of_ok hreport, Parser.diagnose_shift]
  exact (Parser.echoes_shift_record ..).reaches (Parser.mode_record ..)
    (steady_climb (steady_expression room') power rounds' left _).reaches

theorem pinpoints_climb_step {power level : Power} {u rest : List Token} {left : Expr}
    {token : Token} {form : Continuation} {rounds : Nat} {p : Parser}
    (hform : (Rule.ofKind token.kind).continuation? = some form)
    (hleft : Expression level u left) (hlevel : token.kind.power ≤ level)
    (htarget : form = .assignment → ∃ name pos, left = .var name pos)
    (hbinds : power ≤ token.kind.power) (hp : p.ahead = token :: rest)
    (hmore : ∀ {w q e}, Expression token.kind.power (u ++ token :: w) e →
      (nextKind q.ahead).power ≤ token.kind.power →
        Pinpoints (fun b => climb (expression b.room) power b.rounds e)
          (fun v => Completes (Expression power) (u ++ token :: w ++ v)) ⟨room, rounds⟩ q) :
    Pinpoints (fun b => climb (expression b.room) power b.rounds left)
      (fun w => Completes (Expression power) (u ++ w)) ⟨room, rounds + 1⟩ p := by
  have hrest : Pinpoints (fun b => continuation (expression b.room) form left token >>=
        climb (expression b.room) power b.rounds)
      (fun v => Completes (Expression power) (u ++ ([token] ++ v))) ⟨room, rounds⟩
      (p.read [token] rest) := by
    have hright := pinpoints_continuation hoperand hform hleft hlevel htarget rounds
      (p.read [token] rest)
    refine (hright.mono ?_).bind (firm_continuation hform left _)
      (fun b => steady_continuation (steady_expression b.room) htarget token)
      (fun b => recognizes_continuation (steady_expression b.room)
        (fun _ => recognizes_expression b.room) hform hleft hlevel)
      (fun b => steady_climb (steady_expression b.room) power b.rounds) ?_
    · rintro v ⟨c, e, h⟩
      exact ⟨c, e, by simpa using h.loosen hbinds⟩
    · rintro w q e ⟨h, hbelow⟩
      simpa using hmore h hbelow
  have hstep : Pinpoints (fun b => advance >>= fun token =>
        continuation (expression b.spend.room) form left token >>=
          climb (expression b.spend.room) power b.spend.rounds)
      (fun w => Completes (Expression power) (u ++ w)) ⟨room, rounds + 1⟩ p :=
    .after (f := fun b token => continuation (expression b.room) form left token >>=
        climb (expression b.room) power b.rounds)
      Budget.spend Budget.Covers.spend hp (fun _ => takes_advance token _) hrest
  refine hstep.of_parserOf fun {b' p'} hcovers hhead => ?_
  obtain ⟨rest', hp'⟩ := cons_of_head? hhead (congrArg List.head? hp)
  obtain ⟨room', _ | rounds'⟩ := b'
  · simpa [hp'] using hcovers.rounds
  · dsimp only
    rw [climb_of_binds hform hbinds hp', bind_of_ok (takes_advance token rest' p' hp')]
    rfl

/-- The climb holds an expression of some level, which the next token may continue or end. -/
theorem pinpoints_climb {power : Power} (hpower : .assignment ≤ power) (rounds : Nat)
    {left : Expr} {level : Power} {u : List Token} {p : Parser}
    (hleft : Expression level u left) (hlevel : power ≤ level)
    (hnext : (nextKind p.ahead).power ≤ level) :
    Pinpoints (fun b => climb (expression b.room) power b.rounds left)
      (fun w => Completes (Expression power) (u ++ w)) ⟨room, rounds⟩ p := by
  induction rounds generalizing left level u p with
  | zero => exact .of_normal fun _ hmode => hmode
  | succ rounds ih =>
      by_cases hbinds : power ≤ (nextKind p.ahead).power
      · cases hp : p.ahead with
        | nil =>
            rw [hp] at hbinds
            exact absurd (Nat.le_trans hpower hbinds) (by decide)
        | cons token rest =>
            rw [hp] at hbinds hnext
            cases hform : (Rule.ofKind token.kind).continuation? with
            | none =>
                exact absurd hform (Rule.continuation_of_power (Nat.le_trans hpower hbinds))
            | some form =>
                by_cases htarget : form = .assignment → ∃ name pos, left = .var name pos
                · exact pinpoints_climb_step hoperand hform hleft hnext htarget hbinds hp
                    fun h hbelow => ih h hbinds hbelow
                · simp only [Classical.not_imp, not_exists] at htarget
                  obtain ⟨rfl, htarget⟩ := htarget
                  exact pinpoints_climb_target hform hleft hlevel htarget hbinds hp
      · refine .of_normal fun _ hmode => ?_
        dsimp only
        rw [takes_climb_none (Nat.lt_of_not_le hbinds) (rounds + 1) left p rfl]
        exact hmode

end

theorem pinpoints_expression (room : Nat) {power : Power} (hlow : .assignment ≤ power)
    (hhigh : power ≤ .unary) : PinpointsIn room (expression · power) (Expression power) := by
  induction room generalizing power with
  | zero => exact fun _ _ hcovers => absurd hcovers.room (Nat.not_lt_zero _)
  | succ room ih =>
      intro rounds p
      by_cases hopens : ∃ token rest, p.ahead = token :: rest ∧ Opens token
      · obtain ⟨token, rest, hp, hopens⟩ := hopens
        have hrest : Pinpoints (fun b => opening (expression b.room) token >>= fun left =>
              bounded fun rounds => climb (expression b.room) power rounds left)
            (fun u => Completes (Expression power) ([token] ++ u)) ⟨room, rounds⟩
            (p.read [token] rest) := by
          have hfirst := pinpoints_opening ih hopens rounds (p.read [token] rest)
          refine (hfirst.mono fun u ⟨c, e, h⟩ => ⟨c, e, h.loosen hhigh⟩).bind
            (firm_opening token _) (fun b => steady_opening (steady_expression b.room) hopens)
            (fun b => recognizes_opening (steady_expression b.room)
              (fun _ => recognizes_expression b.room) token)
            (fun b => steady_climb_bounded power b.room) ?_
          rintro w q left ⟨level, hunary, hnext, hleft⟩
          refine .bounded (fun room rounds => climb (expression room) power rounds left) ?_
          exact fun rounds => pinpoints_climb ih hlow rounds hleft (Nat.le_trans hhigh hunary) hnext
        simp only [expression_eq]
        exact .nested (.after (f := fun b token => opening (expression b.room) token >>= fun left =>
            bounded fun rounds => climb (expression b.room) power rounds left)
          Budget.down Budget.Covers.down hp (fun _ => takes_advance token _) hrest)
      · refine .refused ⟨_, _, expression_sample power⟩ fun {b' p'} hcovers hhead => ?_
        -- At the end this is the end mark, which need not be the same in all parsers.
        have hrefused : ¬Opens p'.current := by
          cases hp' : p'.ahead with
          | nil =>
              intro h
              rw [Opens, Parser.kind_current, hp'] at h
              exact h.1 rfl
          | cons token rest' =>
              obtain ⟨rest, hp⟩ := cons_of_head? hhead.symm (congrArg List.head? hp')
              rw [Parser.current_of_ahead hp']
              exact fun h => hopens ⟨token, rest, hp, h⟩
        obtain ⟨cause, hfail⟩ := opening_of_not_opens hrefused
        obtain ⟨_ | room', rounds'⟩ := b'
        · exact absurd hcovers.room (Nat.not_lt_zero _)
        · refine ⟨cause, ?_⟩
          have hopening := congrFun (hfail (expression room')) p'.shift
          rw [fail_eq, Parser.diagnose_shift] at hopening
          dsimp only
          rw [expression, operation,
            bind_of_ok (show advance p' = .ok p'.current p'.shift from rfl),
            bind_of_error hopening]
          exact Parser.echoes_shift_record ..

end Parse

end Pidgin
