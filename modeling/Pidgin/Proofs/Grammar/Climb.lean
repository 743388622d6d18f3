import Pidgin.Proofs.Parse.Room
import Pidgin.Proofs.Tree.Nesting

/-!
# The climb reads the levels of the grammar

One loop with a least power stands for all the levels of the grammar.  What it
has read so far is an expression of some level, and the token it looks at binds
no tighter than that level: this is the invariant that makes the loop sound.
Conversely, an expression of a level is read operand by operand, and whatever
binds looser is left to the loop that is waiting for it.
-/

namespace Pidgin

open Grammar Parse

/-! ## Kinds and their rules -/

namespace Rule

theorem power_le_call (kind : Kind) : kind.power ≤ .call := by
  cases kind <;> decide

theorem power_lt_unary {kind : Kind} (h : kind.power ≤ .unary) : kind.power < .unary := by
  revert h
  cases kind <;> decide

theorem continuation_of_power {kind : Kind} (h : Power.assignment ≤ kind.power) :
    (ofKind kind).continuation? ≠ none := by
  revert h
  cases kind <;> decide

theorem continuation_cases {kind : Kind} {form : Continuation}
    (h : (ofKind kind).continuation? = some form) :
    form = .binary ∧ kind ∈ operators kind.power ∨ form = .call ∧ kind = .lparen ∨
      form = .index ∧ kind = .lbracket ∨ form = .assignment ∧ kind = .assign := by
  revert h
  cases kind <;> cases form <;> decide

theorem opening_cases {kind : Kind} {form : Opening}
    (h : (ofKind kind).opening? = some form) :
    form = .literal ∨ form = .var ∧ kind = .ident ∨
      form = .unary ∧ (kind = .bang ∨ kind = .minus) ∨ form = .grouping ∧ kind = .lparen ∨
      form = .array ∧ kind = .lbracket := by
  revert h
  cases kind <;> cases form <;> decide

theorem ne_of_opens {kind other : Kind} (h : (ofKind kind).opening? ≠ none)
    (hother : (ofKind other).opening? = none) : kind ≠ other := by
  rintro rfl
  exact h hother

theorem of_mem_operators {power : Power} {kind : Kind} (h : kind ∈ operators power) :
    kind.power = power ∧ (ofKind kind).continuation? = some .binary ∧
      .assignment < power ∧ power < .unary := by
  revert h
  cases power <;> cases kind <;> decide

end Rule

theorem Literal.ofToken_eq_ok_iff {token : Token} {value : Literal} :
    Literal.ofToken token = .ok value ↔ Denotes token value := by
  constructor
  · intro h
    unfold Literal.ofToken at h
    split at h
    · rename_i hkind
      split at h
      · cases h
        exact .integer hkind ‹_›
      · cases h
    · rename_i hkind
      split at h
      · cases h
        exact .float hkind ‹_›
      · cases h
    · cases h
      exact .string ‹_›
    · cases h
      exact .litTrue ‹_›
    · cases h
      exact .litFalse ‹_›
    · cases h
  · intro h
    cases h with
    | integer hkind hvalue => simp [Literal.ofToken, hkind, hvalue]
    | float hkind hvalue => simp [Literal.ofToken, hkind, hvalue]
    | string hkind => simp [Literal.ofToken, hkind]
    | litTrue hkind => simp [Literal.ofToken, hkind]
    | litFalse hkind => simp [Literal.ofToken, hkind]

/-! ## Levels -/

namespace Grammar.Expression

variable {w : List Token} {e : Expr}

theorem loosen {tight loose : Power} (h : Expression tight w e) (hle : loose ≤ tight) :
    Expression loose w e := by
  obtain ⟨gap, hgap⟩ := Nat.exists_eq_add_of_le (Power.le_def.1 hle)
  induction gap generalizing loose with
  | zero =>
      rw [← Power.rank_injective hgap]
      exact h
  | succ gap ih =>
      have hrank := loose.rank_next
      have hbound : tight.rank ≤ 10 := by cases tight <;> decide
      refine .tighter (ih ?_ ?_)
      · rw [Power.le_def]
        omega
      · omega

theorem primary_of_var : ∀ {power : Power} {w : List Token} {e : Expr},
    Expression power w e → ∀ {name pos}, e = .var name pos → Expression .primary w e
  | _, _, _, .tighter inner, _, _, h => primary_of_var inner h
  | _, _, _, .var hkind, _, _, _ => .var hkind
  | _, _, _, .grouping hlparen inner hrparen, _, _, _ => .grouping hlparen inner hrparen
  | _, _, _, .assign .., _, _, h => nomatch h
  | _, _, _, .binary .., _, _, h => nomatch h
  | _, _, _, .unary .., _, _, h => nomatch h
  | _, _, _, .call .., _, _, h => nomatch h
  | _, _, _, .index .., _, _, h => nomatch h
  | _, _, _, .literal .., _, _, h => nomatch h
  | _, _, _, .array .., _, _, h => nomatch h

theorem opens : ∀ {power : Power} {w : List Token} {e : Expr}, Expression power w e →
    ∀ rest, (Rule.ofKind (nextKind (w ++ rest))).opening? ≠ none
  | _, _, _, .tighter inner, rest => opens inner rest
  | _, _, _, .assign target _ _, rest => by simpa using opens target _
  | _, _, _, .binary first _ _, rest => by simpa using opens first _
  | _, _, _, .unary hoperator _, rest => by
      rcases hoperator with h | h <;> simp [nextKind, h, Rule.ofKind, Rule.opens]
  | _, _, _, .call head _ _ _, rest => by simpa using opens head _
  | _, _, _, .index head _ _ _, rest => by simpa using opens head _
  | _, _, _, .literal hvalue, rest => by
      cases hvalue <;> simp_all [nextKind, Rule.ofKind, Rule.opens]
  | _, _, _, .var hkind, rest => by simp [nextKind, hkind, Rule.ofKind, Rule.opens]
  | _, _, _, .grouping hlparen _ _, rest => by simp [nextKind, hlparen, Rule.ofKind]
  | _, _, _, .array hlbracket _ _, rest => by simp [nextKind, hlbracket, Rule.ofKind]

end Grammar.Expression

/-! ## What the climb has read is an expression -/

namespace Parse

/-- An expression of a level, in front of a token that does not belong to that level. -/
def Level (power : Power) (w rest : List Token) (e : Expr) : Prop :=
  Expression power w e ∧ (nextKind rest).power < power

section

variable {α : Type} {item : Parse α} {phrase : List Token → α → Prop}

theorem recognizes_commaList (hsteady : Steady item)
    (hitem : Recognizes item fun w _ a => phrase w a) (rounds : Nat) :
    Recognizes (commaList item rounds) fun w _ as => Separated phrase w as := by
  induction rounds with
  | zero =>
      intro p as q h hq
      obtain ⟨first, r, hfirst, hpure⟩ := bind_ok h
      cases hpure
      obtain ⟨w, hw, hphrase⟩ := hitem p first q hfirst hq
      exact ⟨w, hw, .one hphrase⟩
  | succ rounds ih =>
      intro p as q h hq
      obtain ⟨first, r, hfirst, h⟩ := bind_ok h
      obtain ⟨found, r', haccept, h⟩ := bind_ok h
      cases found with
      | false =>
          cases h
          obtain ⟨rfl, -⟩ := accept_false haccept
          obtain ⟨w, hw, hphrase⟩ := hitem p first q hfirst hq
          exact ⟨w, hw, .one hphrase⟩
      | true =>
          obtain ⟨comma, hcomma, hahead, hmode⟩ := accept_true haccept
          obtain ⟨more, q', hmore, hpure⟩ := bind_ok h
          cases hpure
          have hr' := (steady_commaList hsteady rounds).normal_of_ok hmore hq
          obtain ⟨v, hv, hrest⟩ := ih r' more q hmore hq
          obtain ⟨w, hw, hphrase⟩ := hitem p first r hfirst (hmode ▸ hr')
          refine ⟨w ++ comma :: v, ?_, .more hphrase hcomma hrest⟩
          rw [hw, hahead, hv]
          simp

theorem recognizes_listUpTo {close : Kind} {expectation : String} (hsteady : Steady item)
    (hitem : Recognizes item fun w _ a => phrase w a) :
    Recognizes (listUpTo close expectation item) fun w _ as =>
      ∃ v last, w = v ++ [last] ∧ last.kind = close ∧ Listed phrase v as := by
  intro p as q h hq
  obtain ⟨found, r, hcheck, h⟩ := bind_ok h
  cases hcheck
  have hclosed : ∀ {items : List α} {r : Parser},
      (expect close expectation >>= fun _ => pure items : Parse (List α)) r = .ok as q →
        items = as ∧ r.mode = .normal ∧
          ∃ last, last.kind = close ∧ r.ahead = [last] ++ q.ahead := by
    intro items r h
    obtain ⟨last, r', hexpect, hpure⟩ := bind_ok h
    cases hpure
    obtain ⟨hkind, hahead, hmode⟩ := expect_ok hexpect
    exact ⟨rfl, hmode ▸ hq, last, hkind, hahead⟩
  cases hfound : p.check close with
  | true =>
      rw [hfound] at h
      obtain ⟨rfl, -, last, hkind, hahead⟩ := hclosed h
      exact ⟨[last], hahead, [], last, rfl, hkind, .none⟩
  | false =>
      rw [hfound] at h
      obtain ⟨items, r, hitems, h⟩ := bind_ok h
      obtain ⟨rfl, hr, last, hkind, hahead⟩ := hclosed h
      obtain ⟨v, hv, hlisted⟩ := recognizes_commaList hsteady hitem _ p items r hitems hr
      refine ⟨v ++ [last], ?_, v, last, rfl, hkind, .some hlisted⟩
      rw [hv, hahead, List.append_assoc]

end

section

variable {operand : Power → Parse Expr} (hsteady : ∀ power, Steady (operand power))
  (hoperand : ∀ power, .assignment ≤ power → power ≤ .unary →
    Recognizes (operand power) (Level power))

include hsteady hoperand

theorem recognizes_arguments {close : Kind} {expectation : String} :
    Recognizes (listUpTo close expectation (operand .assignment)) fun w _ es =>
      ∃ v last, w = v ++ [last] ∧ last.kind = close ∧
        Listed (Expression .assignment) v es := by
  refine recognizes_listUpTo (hsteady _) ?_
  intro p e q h hq
  obtain ⟨w, hw, hlevel⟩ := hoperand .assignment (by decide) (by decide) p e q h hq
  exact ⟨w, hw, hlevel.1⟩

theorem recognizes_opening (token : Token) :
    Recognizes (opening operand token) fun w rest e =>
      ∃ level, .unary ≤ level ∧ (nextKind rest).power ≤ level ∧
        Expression level (token :: w) e := by
  intro p e q h hq
  have hprimary : ∀ {w : List Token}, p.ahead = w ++ q.ahead →
      Expression .primary (token :: w) e →
        ∃ w, p.ahead = w ++ q.ahead ∧ ∃ level, .unary ≤ level ∧
          (nextKind q.ahead).power ≤ level ∧ Expression level (token :: w) e := by
    intro w hw hprimary
    exact ⟨w, hw, .call, by decide, Rule.power_le_call _, hprimary.loosen (by decide)⟩
  unfold opening at h
  cases hform : (Rule.ofKind token.kind).opening? with
  | none =>
      rw [hform] at h
      cases h
  | some form =>
      rw [hform] at h
      rcases Rule.opening_cases hform with rfl | ⟨rfl, hkind⟩ | ⟨rfl, hkind⟩ |
        ⟨rfl, hkind⟩ | ⟨rfl, hkind⟩
      · dsimp only at h
        unfold literal at h
        cases hvalue : Literal.ofToken token with
        | error cause =>
            rw [hvalue] at h
            cases h
        | ok value =>
            rw [hvalue] at h
            cases h
            exact hprimary (w := []) rfl (.literal (Literal.ofToken_eq_ok_iff.1 hvalue))
      · cases h
        exact hprimary (w := []) rfl (.var hkind)
      · obtain ⟨inner, r, hinner, hpure⟩ := bind_ok h
        cases hpure
        obtain ⟨w, hw, hlevel, hnext⟩ :=
          hoperand .unary (by decide) (by decide) p inner q hinner hq
        exact ⟨w, hw, .unary, by decide, Nat.le_of_lt hnext, .unary hkind hlevel⟩
      · obtain ⟨inner, r, hinner, h⟩ := bind_ok h
        obtain ⟨last, r', hexpect, hpure⟩ := bind_ok h
        cases hpure
        obtain ⟨hlast, hahead, hmode⟩ := expect_ok hexpect
        obtain ⟨w, hw, hlevel, -⟩ :=
          hoperand .assignment (by decide) (by decide) p _ r hinner (hmode ▸ hq)
        refine hprimary (w := w ++ [last]) ?_ (.grouping hkind hlevel hlast)
        rw [hw, hahead, List.append_assoc, List.singleton_append]
      · obtain ⟨elements, r, helements, hpure⟩ := bind_ok h
        cases hpure
        obtain ⟨w, hw, v, last, rfl, hlast, hlisted⟩ :=
          recognizes_arguments hsteady hoperand p elements q helements hq
        exact hprimary hw (.array hkind hlisted hlast)

theorem recognizes_continuation {form : Continuation} {level : Power} {u : List Token}
    {left : Expr} {token : Token} (hform : (Rule.ofKind token.kind).continuation? = some form)
    (hleft : Expression level u left) (hlevel : token.kind.power ≤ level) :
    Recognizes (continuation operand form left token) fun w rest e =>
      Expression token.kind.power (u ++ token :: w) e ∧
        (nextKind rest).power ≤ token.kind.power := by
  intro p e q h hq
  have hloose := hleft.loosen hlevel
  rcases Rule.continuation_cases hform with ⟨rfl, hkind⟩ | ⟨rfl, hkind⟩ | ⟨rfl, hkind⟩ |
    ⟨rfl, hkind⟩
  · obtain ⟨-, -, hlow, hhigh⟩ := Rule.of_mem_operators hkind
    have hrank := token.kind.power.rank_next
    rw [Power.lt_def] at hlow hhigh
    change _ < 8 at hhigh
    obtain ⟨right, r, hright, hpure⟩ := bind_ok h
    cases hpure
    obtain ⟨w, hw, hinner, hnext⟩ := hoperand token.kind.power.next
      (by rw [Power.le_def]; omega) (by rw [Power.le_def]; change _ ≤ 8; omega)
      p right q hright hq
    refine ⟨w, hw, .binary hloose hkind hinner, ?_⟩
    rw [Power.lt_def] at hnext
    rw [Power.le_def]
    omega
  · obtain ⟨args, r, hargs, hpure⟩ := bind_ok h
    cases hpure
    obtain ⟨w, hw, v, last, rfl, hlast, hlisted⟩ :=
      recognizes_arguments hsteady hoperand p args q hargs hq
    have hpower : token.kind.power = .call := by rw [hkind]; rfl
    rw [hpower] at hloose ⊢
    exact ⟨_, hw, .call hloose hkind hlisted hlast, Rule.power_le_call _⟩
  · obtain ⟨place, r, hplace, h⟩ := bind_ok h
    obtain ⟨last, r', hexpect, hpure⟩ := bind_ok h
    cases hpure
    obtain ⟨hlast, hahead, hmode⟩ := expect_ok hexpect
    obtain ⟨w, hw, hinner, -⟩ :=
      hoperand .assignment (by decide) (by decide) p _ r hplace (hmode ▸ hq)
    have hpower : token.kind.power = .call := by rw [hkind]; rfl
    rw [hpower] at hloose ⊢
    refine ⟨w ++ [last], ?_, .index hloose hkind hinner hlast, Rule.power_le_call _⟩
    rw [hw, hahead, List.append_assoc, List.singleton_append]
  · have hpower : token.kind.power = .assignment := by rw [hkind]; rfl
    cases left with
    | var name pos =>
        obtain ⟨value, r, hvalue, hpure⟩ := bind_ok h
        cases hpure
        obtain ⟨w, hw, hinner, hnext⟩ :=
          hoperand .assignment (by decide) (by decide) p _ q hvalue hq
        rw [hpower]
        exact ⟨w, hw, .assign (hleft.primary_of_var rfl) hkind hinner, Nat.le_of_lt hnext⟩
    | _ =>
        cases h
        simp at hq

/-- The invariant of the climb: `u` is an expression of some level that is no looser than
`power`, and the next token binds no tighter than that level. -/
theorem climb_level {power : Power} (hpower : .assignment ≤ power) (rounds : Nat)
    {p q : Parser} {left e : Expr} {level : Power} {u : List Token}
    (hleft : Expression level u left) (hlevel : power ≤ level)
    (hnext : (nextKind p.ahead).power ≤ level) (hrounds : p.ahead.length ≤ rounds)
    (h : climb operand power rounds left p = .ok e q) (hq : q.mode = .normal) :
    ∃ w, p.ahead = w ++ q.ahead ∧ Level power (u ++ w) q.ahead e := by
  induction rounds generalizing p left level u with
  | zero =>
      have hahead : p.ahead = [] := List.eq_nil_of_length_eq_zero (by omega)
      cases h
      refine ⟨[], rfl, ?_, ?_⟩
      · rw [List.append_nil]
        exact hleft.loosen hlevel
      · rw [hahead]
        exact hpower
  | succ rounds ih =>
      change (if power ≤ p.current.kind.power then _ else _ : Parse Expr) p = _ at h
      rw [← Parser.kind_current] at hnext
      split at h
      · rename_i hbinds
        have hsome : Power.assignment ≤ p.current.kind.power := Nat.le_trans hpower hbinds
        have hahead : p.ahead = p.current :: p.shift.ahead := by
          apply Parser.ahead_of_kind
          intro heof
          rw [heof] at hsome
          contradiction
        rw [bind_of_ok (show advance p = .ok p.current p.shift from rfl)] at h
        cases hform : (Rule.ofKind p.current.kind).continuation? with
        | none => exact absurd hform (Rule.continuation_of_power hsome)
        | some form =>
            rw [hform] at h
            obtain ⟨folded, r, hcontinuation, h⟩ := bind_ok h
            have hr := (steady_climb hsteady power rounds folded).normal_of_ok h hq
            obtain ⟨v, hv, hfolded, hbelow⟩ := recognizes_continuation hsteady hoperand
              hform hleft hnext p.shift folded r hcontinuation hr
            have hlength : r.ahead.length ≤ rounds := by
              rw [hahead, hv] at hrounds
              simp only [List.length_cons, List.length_append] at hrounds
              omega
            -- What was folded is of the operator's own level, which keeps the invariant.
            obtain ⟨w, hw, hresult⟩ := ih hfolded hbinds hbelow hlength h
            refine ⟨p.current :: (v ++ w), ?_, ?_⟩
            · rw [hahead, hv, hw, List.cons_append, List.append_assoc]
            · simpa using hresult
      · rename_i hbinds
        cases h
        refine ⟨[], rfl, ?_, ?_⟩
        · rw [List.append_nil]
          exact hleft.loosen hlevel
        · rw [← Parser.kind_current]
          exact Nat.lt_of_not_le hbinds

theorem recognizes_operation {power : Power} (hlow : .assignment ≤ power)
    (hhigh : power ≤ .unary) : Recognizes (operation operand power) (Level power) := by
  intro p e q h hq
  obtain ⟨token, p', hadvance, h⟩ := bind_ok h
  cases hadvance
  obtain ⟨left, r, hopening, hclimb⟩ := bind_ok h
  have hr := (steady_climb hsteady power _ left).normal_of_ok hclimb hq
  obtain ⟨u, hu, level, hunary, hnext, hleft⟩ :=
    recognizes_opening hsteady hoperand p.current p.shift left r hopening hr
  have hahead : p.ahead = p.current :: p.shift.ahead := by
    apply Parser.ahead_of_kind
    intro heof
    rw [opening, heof] at hopening
    cases hopening
  obtain ⟨w, hw, hlevel⟩ := climb_level hsteady hoperand hlow _ hleft
    (Nat.le_trans hhigh hunary) hnext (Nat.le_refl _) hclimb hq
  refine ⟨p.current :: (u ++ w), ?_, hlevel⟩
  rw [hahead, hu, hw, List.cons_append, List.append_assoc]

end

theorem recognizes_expression (room : Nat) {power : Power} (hlow : .assignment ≤ power)
    (hhigh : power ≤ .unary) : Recognizes (expression room power) (Level power) := by
  induction room generalizing power with
  | zero =>
      intro p e q h
      cases h
  | succ room ih =>
      exact recognizes_operation (steady_expression room) (fun _ => ih) hlow hhigh

/-! ## Every expression is read -/

/--
Every phrase of at most `bound` tokens is read by a reader with room enough, where the room
is measured by what the phrase yields.
-/
def ReadsUpTo {α : Type} (bound : Nat) (m : Nat → Parse α)
    (phrase : List Token → List Token → α → Prop) (nest parens : α → Nat) : Prop :=
  ∀ ⦃w rest a⦄, phrase w rest a → w.length ≤ bound →
    ∃ depth, Measured w depth (nest a) (parens a) ∧ Needs m depth w rest a

section

variable {α : Type} {item : Nat → Parse α} {phrase : List Token → α → Prop} {close : Kind}
  {bound : Nat} {nest parens : α → Nat}

theorem needs_commaList (hclose : close ≠ .comma) (hsteady : ∀ room, Steady (item room))
    (hitem : ReadsUpTo bound item (fun w rest a => phrase w a ∧
      (nextKind rest = .comma ∨ nextKind rest = close)) nest parens)
    {w rest : List Token} {as : List α} (h : Separated phrase w as)
    (hbound : w.length ≤ bound) (hrest : nextKind rest = close) :
    ∃ depth, Measured w depth (as.foldr (fun a n => max (nest a) n) 0) (as.map parens).sum ∧
      ∀ rounds, w.length ≤ rounds →
        Needs (fun room => commaList (item room) rounds) depth w rest as := by
  have htail (rounds room : Nat) := steady_commaTail (steady_commaList (hsteady room) rounds)
  induction h with
  | @one w a first =>
      obtain ⟨depth, hmeasured, hfirst⟩ := hitem ⟨first, .inr hrest⟩ hbound
      refine ⟨depth, by simpa using hmeasured, ?_⟩
      intro rounds _
      cases rounds with
      | zero => exact hfirst.bind_pure fun a => [a]
      | succ rounds =>
          have hnone : nextKind rest ≠ .comma := hrest ▸ hclose
          refine hfirst.before [] (fun room => ?_) (htail rounds) (List.append_nil w).symm
          exact .bind [] (takes_accept_none (by decide) hnone) (takes_pure [a] rest) rfl
  | @more w v a as comma first hcomma more ih =>
      simp only [List.length_append, List.length_cons] at hbound
      obtain ⟨j, hj, hfirst⟩ := @hitem w (comma :: (v ++ rest)) a
        ⟨first, .inl hcomma⟩ (by omega)
      obtain ⟨k, hk, hmore⟩ := ih (by omega)
      refine ⟨max j k, ?_, ?_⟩
      · obtain ⟨_, _, _, _⟩ := hj
        obtain ⟨_, _, _, _⟩ := hk
        constructor <;>
          simp only [List.foldr_cons, List.map_cons, List.sum_cons, lparens_append,
            lparens_cons, hcomma, List.length_append, List.length_cons, reduceCtorEq,
            if_false] <;>
          omega
      · intro rounds hrounds
        simp only [List.length_append, List.length_cons] at hrounds
        cases rounds with
        | zero => omega
        | succ rounds =>
            refine hfirst.bind (comma :: v) ?_ (htail rounds) rfl
            exact .after v (takes_accept hcomma _)
              ((hmore rounds (by omega)).bind_pure (a :: ·)) rfl

theorem needs_listUpTo {expectation : String} (rest : List Token) {last : Token}
    (hlast : last.kind = close)
    (hcomma : close ≠ .comma) (heof : close ≠ .eof) (hsteady : ∀ room, Steady (item room))
    (hitem : ReadsUpTo bound item (fun w rest a => phrase w a ∧
      (nextKind rest = .comma ∨ nextKind rest = close)) nest parens)
    (hfirst : ∀ {w as rest}, Separated phrase w as → nextKind (w ++ rest) ≠ close)
    {w : List Token} {as : List α} (h : Listed phrase w as) (hbound : w.length ≤ bound) :
    ∃ depth, Measured w depth (as.foldr (fun a n => max (nest a) n) 0) (as.map parens).sum ∧
      Needs (fun room => listUpTo close expectation (item room)) depth (w ++ [last]) rest as := by
  have hclosed (as : List α) :
      Takes (do let _ ← expect close expectation; return as) [last] rest as :=
    (takes_expect hlast expectation rest).bind_pure fun _ => as
  cases h with
  | none =>
      refine ⟨0, ⟨by simp, by simp, by simp, by simp⟩, .of_takes fun room => ?_⟩
      refine .bind [last] (takes_check_true heof hlast) ?_ rfl
      exact .bind [last] (takes_pure [] _) (hclosed []) rfl
  | some items =>
      obtain ⟨depth, hmeasured, hitems⟩ :=
        needs_commaList hcomma hsteady hitem items hbound
          (show nextKind (last :: rest) = close from hlast)
      refine ⟨depth, hmeasured, ?_⟩
      have hnext : nextKind ((w ++ [last]) ++ rest) ≠ close := by
        rw [List.append_assoc]
        exact hfirst items
      refine .after (w ++ [last]) (takes_check_false heof hnext) ?_ rfl
      refine .before [last] (.bounded hitems) (fun _ => hclosed as) (fun _ as => ?_) rfl
      exact (steady_expect close expectation).bind fun _ => steady_pure as

end

section

variable {operand : Power → Parse Expr} {power : Power} {rest : List Token}

theorem climb_of_binds {token : Token} {form : Continuation} {p : Parser}
    (hform : (Rule.ofKind token.kind).continuation? = some form)
    (hbinds : power ≤ token.kind.power) (hp : p.ahead = token :: rest) (rounds : Nat)
    (left : Expr) :
    climb operand power (rounds + 1) left p =
      (continuation operand form left token >>= climb operand power rounds)
        (p.read [token] rest) := by
  change (if power ≤ p.current.kind.power then _ else _ : Parse Expr) p = _
  rw [Parser.current_of_ahead hp, if_pos hbinds, bind_of_ok (takes_advance token rest p hp), hform]

theorem takes_climb_none (hnext : (nextKind rest).power < power) (rounds : Nat) (left : Expr) :
    Takes (climb operand power rounds left) [] rest left := by
  intro p hp
  rw [List.nil_append] at hp
  subst hp
  cases rounds with
  | zero => rfl
  | succ rounds =>
      have hstop : ¬ power ≤ p.current.kind.power := by
        rw [Parser.kind_current]
        exact Nat.not_le_of_lt hnext
      change (if power ≤ p.current.kind.power then _ else _ : Parse Expr) p = _
      rw [if_neg hstop]
      rfl

end

/-- In front of `w`, the operand reader comes to hold `e` and to look at `rest`. -/
def Climbs (operand : Power → Parse Expr) (power : Power) (w rest : List Token)
    (e : Expr) : Prop :=
  ∀ p : Parser, p.ahead = w ++ rest → ∃ rounds, rest.length ≤ rounds ∧
    operation operand power p = climb operand power rounds e (p.read w rest)

/-- The same with room for `depth` levels, and with less of it the operand reader runs out. -/
structure NeedsClimb (depth : Nat) (power : Power) (w rest : List Token) (e : Expr) :
    Prop where
  climbs : ∀ room, depth ≤ room → Climbs (expression room) power w rest e
  runsOut : ∀ room, room < depth → RunsOut (operation (expression room) power) (w ++ rest)

section

variable {power : Power} {j k : Nat} {w rest : List Token} {e : Expr}

theorem steady_climb_bounded (power : Power) (room : Nat) (left : Expr) :
    Steady (bounded fun rounds => climb (expression room) power rounds left) :=
  steady_bounded fun rounds => steady_climb (steady_expression room) power rounds left

theorem needsClimb_opening {token : Token}
    (h : Needs (fun room => opening (expression room) token) k w rest e) :
    NeedsClimb k power (token :: w) rest e := by
  constructor
  · intro room hroom p hp
    refine ⟨rest.length, Nat.le_refl _, ?_⟩
    unfold operation
    rw [bind_of_ok (takes_advance token (w ++ rest) p hp),
      bind_of_ok (h.takes room hroom _ (Parser.ahead_read ..)), Parser.read_read]
    rfl
  · intro room hroom
    exact (takes_advance token (w ++ rest)).bind_runsOut
      ((h.runsOut room hroom).bind (steady_climb_bounded power room))

namespace NeedsClimb

theorem step {left : Expr} {token : Token} {form : Continuation}
    (hleft : NeedsClimb k power w (token :: rest) left)
    (hform : (Rule.ofKind token.kind).continuation? = some form)
    (hbinds : power ≤ token.kind.power) {room : Nat} {p : Parser} (hroom : k ≤ room)
    (hp : p.ahead = w ++ token :: rest) :
    ∃ rounds, rest.length ≤ rounds ∧ operation (expression room) power p =
      (continuation (expression room) form left token >>=
        climb (expression room) power rounds) (p.read (w ++ [token]) rest) := by
  obtain ⟨rounds, hrounds, hclimb⟩ := hleft.climbs room hroom p hp
  cases rounds with
  | zero => simp at hrounds
  | succ rounds =>
      refine ⟨rounds, Nat.le_of_succ_le_succ hrounds, ?_⟩
      rw [hclimb, climb_of_binds hform hbinds (Parser.ahead_read ..), Parser.read_read]

theorem extend {v : List Token} {left : Expr} {token : Token} {form : Continuation}
    (hleft : NeedsClimb j power v (token :: (w ++ rest)) left)
    (hform : (Rule.ofKind token.kind).continuation? = some form)
    (hbinds : power ≤ token.kind.power)
    (hnext : Needs (fun room => continuation (expression room) form left token) k w rest e) :
    NeedsClimb (max j k) power (v ++ token :: w) rest e := by
  constructor
  · intro room hroom p hp
    obtain ⟨rounds, hrounds, hclimb⟩ :=
      hleft.step hform hbinds (show j ≤ room by omega) (by simpa using hp)
    rw [List.length_append] at hrounds
    refine ⟨rounds, by omega, ?_⟩
    rw [hclimb, bind_of_ok (hnext.takes room (by omega) _ (Parser.ahead_read ..))]
    simp
  · intro room hroom p hp hmode
    by_cases hj : room < j
    · exact hleft.runsOut room hj p (by simpa using hp) hmode
    · obtain ⟨rounds, -, hclimb⟩ :=
        hleft.step hform hbinds (show j ≤ room by omega) (by simpa using hp)
      rw [hclimb]
      exact (hnext.runsOut room (by omega)).bind
        (steady_climb (steady_expression room) power rounds) _ (Parser.ahead_read ..) hmode

theorem needs (h : NeedsClimb k power w rest e) (hnext : (nextKind rest).power < power) :
    Needs (fun room => expression room power) (k + 1) w rest e := by
  have hoperation : Needs (fun room => operation (expression room) power) k w rest e := by
    refine ⟨?_, h.runsOut⟩
    intro room hroom p hp
    obtain ⟨rounds, -, hclimb⟩ := h.climbs room hroom p hp
    rw [hclimb]
    exact takes_climb_none hnext rounds e _ (Parser.ahead_read ..)
  exact hoperation.nested.congr fun room p _ => by rw [expression_eq]

theorem assign {v : List Token} {name : String} {pos : Position} {value : Expr}
    {equals : Token} (htarget : NeedsClimb j power v (equals :: (w ++ rest)) (.var name pos))
    (hequals : equals.kind = .assign) (hpower : power ≤ .assignment)
    (hvalue : Needs (fun room => expression room .assignment) k w rest value) :
    NeedsClimb (max j k) power (v ++ equals :: w) rest (.assign name value equals.pos) := by
  have hform : (Rule.ofKind equals.kind).continuation? = some .assignment := by
    rw [hequals]
    rfl
  refine htarget.extend hform ?_ (hvalue.bind_pure _)
  rw [hequals]
  exact hpower

theorem binary {level : Power} {v : List Token} {left right : Expr} {operator : Token}
    (hleft : NeedsClimb j power v (operator :: (w ++ rest)) left)
    (hoperator : operator.kind ∈ operators level) (hlevel : power ≤ level)
    (hright : Needs (fun room => expression room level.next) k w rest right) :
    NeedsClimb (max j k) power (v ++ operator :: w) rest
      (.binary operator.kind left right operator.pos) := by
  obtain ⟨rfl, hform, -, -⟩ := Rule.of_mem_operators hoperator
  exact hleft.extend hform hlevel (hright.bind_pure _)

theorem call {v : List Token} {callee : Expr} {args : List Expr} {lparen : Token}
    (hcallee : NeedsClimb j power v (lparen :: (w ++ rest)) callee)
    (hlparen : lparen.kind = .lparen) (hpower : power ≤ .call)
    (hargs : Needs (fun room => listUpTo .rparen "expected ')' after arguments"
      (expression room .assignment)) k w rest args) :
    NeedsClimb (max j k) power (v ++ lparen :: w) rest (.call callee args lparen.pos) := by
  have hform : (Rule.ofKind lparen.kind).continuation? = some .call := by
    rw [hlparen]
    rfl
  refine hcallee.extend hform ?_ (hargs.bind_pure _)
  rw [hlparen]
  exact hpower

theorem index {v : List Token} {object place : Expr} {lbracket rbracket : Token}
    (hobject : NeedsClimb j power v (lbracket :: (w ++ [rbracket] ++ rest)) object)
    (hlbracket : lbracket.kind = .lbracket) (hpower : power ≤ .call)
    (hplace : Needs (fun room => expression room .assignment) k w ([rbracket] ++ rest) place)
    (hrbracket : rbracket.kind = .rbracket) :
    NeedsClimb (max j k) power (v ++ lbracket :: (w ++ [rbracket])) rest
      (.index object place lbracket.pos) := by
  have hform : (Rule.ofKind lbracket.kind).continuation? = some .index := by
    rw [hlbracket]
    rfl
  refine hobject.extend hform ?_ ?_
  · rw [hlbracket]
    exact hpower
  · exact .before [rbracket] hplace
      (fun _ => (takes_expect hrbracket _ rest).bind_pure fun _ => _)
      (fun _ _ => (steady_expect _ _).bind fun _ => steady_pure _) rfl

end NeedsClimb

theorem needsClimb_unary {operator : Token}
    (hoperator : operator.kind = .bang ∨ operator.kind = .minus)
    (hinner : Needs (fun room => expression room .unary) k w rest e) :
    NeedsClimb k power (operator :: w) rest (.unary operator.kind e operator.pos) := by
  have hform : (Rule.ofKind operator.kind).opening? = some .unary := by
    rcases hoperator with h | h <;> rw [h] <;> rfl
  apply needsClimb_opening
  unfold opening
  rw [hform]
  exact hinner.bind_pure _

theorem needsClimb_literal {token : Token} {value : Literal} (hvalue : Denotes token value) :
    NeedsClimb 0 power [token] rest (.literal value token.pos) := by
  have hform : (Rule.ofKind token.kind).opening? = some .literal := by
    cases hvalue <;> simp_all [Rule.ofKind, Rule.opens]
  apply needsClimb_opening
  unfold opening
  rw [hform]
  dsimp only
  unfold literal
  rw [Literal.ofToken_eq_ok_iff.2 hvalue]
  exact .of_takes fun _ => takes_pure _ rest

theorem needsClimb_var {token : Token} (hkind : token.kind = .ident) :
    NeedsClimb 0 power [token] rest (.var token.text token.pos) := by
  apply needsClimb_opening
  unfold opening
  rw [hkind]
  exact .of_takes fun _ => takes_pure _ rest

theorem needsClimb_grouping {lparen rparen : Token} (hlparen : lparen.kind = .lparen)
    (hinner : Needs (fun room => expression room .assignment) k w ([rparen] ++ rest) e)
    (hrparen : rparen.kind = .rparen) :
    NeedsClimb k power (lparen :: (w ++ [rparen])) rest e := by
  apply needsClimb_opening
  unfold opening
  rw [hlparen]
  exact .before [rparen] hinner
    (fun _ => (takes_expect hrparen _ rest).bind_pure fun _ => e)
    (fun _ inner => (steady_expect _ _).bind fun _ => steady_pure inner) rfl

theorem needsClimb_array {elements : List Expr} {lbracket : Token}
    (hlbracket : lbracket.kind = .lbracket)
    (helements : Needs (fun room => listUpTo .rbracket "expected ']' after array elements"
      (expression room .assignment)) k w rest elements) :
    NeedsClimb k power (lbracket :: w) rest (.array elements lbracket.pos) := by
  apply needsClimb_opening
  unfold opening
  rw [hlbracket]
  exact helements.bind_pure _

end

/-- The expression, of at most one token more than `bound`, is climbed up to the next token that
does not continue it. -/
def ClimbsUpTo (bound : Nat) (level : Power) (w : List Token) (e : Expr) : Prop :=
  ∀ ⦃power : Power⦄ (rest : List Token), .assignment ≤ power → power ≤ level →
    w.length ≤ bound + 1 → (nextKind rest).power ≤ level →
      (level = .assignment → (nextKind rest).power < .assignment) →
        ∃ depth, Measured w (depth + 1) e.nest e.parens ∧ NeedsClimb depth power w rest e

theorem ClimbsUpTo.tighter {bound : Nat} {level : Power} {w : List Token} {e : Expr}
    (h : ClimbsUpTo bound level.next w e) : ClimbsUpTo bound level w e := by
  intro power rest hlow hlevel hbound hnext _
  have hrank := level.rank_next
  rw [Power.le_def] at hlow hlevel hnext
  change 1 ≤ _ at hlow
  have hbelow : level.rank ≤ 10 := by cases level <;> decide
  refine h rest hlow ?_ hbound ?_ ?_
  · rw [Power.le_def]
    omega
  · rw [Power.le_def]
    omega
  · intro heq
    rw [heq] at hrank
    change 1 = _ at hrank
    omega

section

variable {bound : Nat}
  (hoperand : ∀ {power}, .assignment ≤ power → power ≤ .unary →
    ReadsUpTo bound (expression · power) (Level power) Expr.nest Expr.parens)

include hoperand

theorem needs_arguments {close : Kind} (expectation : String) {w : List Token}
    (rest : List Token) {es : List Expr} {last : Token} (hlast : last.kind = close)
    (hclose : close = .rparen ∨ close = .rbracket)
    (h : Listed (Expression .assignment) w es) (hbound : w.length ≤ bound) :
    ∃ depth, Measured w depth (Expr.nestAll es) (Expr.parensAll es) ∧
      Needs (fun room => listUpTo close expectation (expression room .assignment)) depth
        (w ++ [last]) rest es := by
  have hopening : (Rule.ofKind close).opening? = none := by
    rcases hclose with rfl | rfl <;> rfl
  rw [← Expr.foldr_nest, ← Expr.sum_parens]
  refine needs_listUpTo rest hlast ?_ ?_ (fun room => steady_expression room _) ?_ ?_ h hbound
  · rcases hclose with rfl | rfl <;> decide
  · rcases hclose with rfl | rfl <;> decide
  · rintro w rest e ⟨hitem, hrest⟩ hlength
    refine hoperand (by decide) (by decide) ⟨hitem, ?_⟩ hlength
    rcases hrest with hrest | hrest
    · rw [hrest]
      decide
    · rw [hrest]
      rcases hclose with rfl | rfl <;> decide
  · intro w es rest hitems
    have hopens : (Rule.ofKind (nextKind (w ++ rest))).opening? ≠ none := by
      cases hitems with
      | one first => exact first.opens rest
      | more first _ _ => simpa using first.opens _
    exact Rule.ne_of_opens hopens hopening

theorem needs_operand_closed {w : List Token} (rest : List Token) {e : Expr} {last : Token}
    (h : Expression .assignment w e) (hbound : w.length ≤ bound)
    (hlast : last.kind = .rparen ∨ last.kind = .rbracket) :
    ∃ depth, Measured w depth e.nest e.parens ∧
      Needs (fun room => expression room .assignment) depth w ([last] ++ rest) e := by
  refine hoperand (by decide) (by decide) ⟨h, ?_⟩ hbound
  change last.kind.power < _
  rcases hlast with h | h <;> rw [h] <;> decide

theorem climbsUpTo_assign {v w : List Token} {name : String} {pos : Position} {value : Expr}
    {equals : Token} (htarget : ClimbsUpTo bound .primary v (.var name pos))
    (hequals : equals.kind = .assign) (source : Expression .assignment w value) :
    ClimbsUpTo bound .assignment (v ++ equals :: w) (.assign name value equals.pos) := by
  intro power rest hlow hlevel hbound _ hnext
  simp only [List.length_append, List.length_cons] at hbound
  obtain ⟨j, hj, hclimb⟩ := htarget (equals :: (w ++ rest)) hlow
    (Nat.le_trans hlevel (by decide)) (by omega) (by rw [nextKind, hequals]; decide) (by simp)
  obtain ⟨k, hk, hsource⟩ := hoperand (by decide) (by decide) ⟨source, hnext rfl⟩ (by omega)
  refine ⟨max j k, ?_, hclimb.assign hequals hlevel hsource⟩
  simpa [Expr.nest, Expr.inner, Expr.parens] using hj.beside (hk.level equals)

theorem climbsUpTo_binary {level : Power} {v w : List Token} {left right : Expr}
    {operator : Token} (hfirst : ClimbsUpTo bound level v left)
    (hoperator : operator.kind ∈ operators level) (second : Expression level.next w right) :
    ClimbsUpTo bound level (v ++ operator :: w)
      (.binary operator.kind left right operator.pos) := by
  intro power rest hlow hlevel hbound hnext _
  simp only [List.length_append, List.length_cons] at hbound
  obtain ⟨hpower, -, hloose, htight⟩ := Rule.of_mem_operators hoperator
  have hrank := level.rank_next
  rw [Power.lt_def] at hloose htight
  rw [Power.le_def] at hnext
  change _ < 8 at htight
  have hcontinues : (nextKind (operator :: (w ++ rest))).power ≤ level := by
    rw [nextKind, hpower]
    exact Nat.le_refl _
  obtain ⟨j, hj, hleft⟩ := hfirst _ hlow hlevel (by omega) hcontinues (by rintro rfl; omega)
  obtain ⟨k, hk, hright⟩ := @hoperand level.next (by rw [Power.le_def]; omega)
    (by rw [Power.le_def]; change _ ≤ 8; omega) w rest right
    ⟨second, by rw [Power.lt_def]; omega⟩ (by omega)
  exact ⟨max j k, hj.beside (hk.level operator), hleft.binary hoperator hlevel hright⟩

theorem climbsUpTo_unary {w : List Token} {operand : Expr} {operator : Token}
    (hoperator : operator.kind = .bang ∨ operator.kind = .minus)
    (inner : Expression .unary w operand) :
    ClimbsUpTo bound .unary (operator :: w) (.unary operator.kind operand operator.pos) := by
  intro power rest hlow hlevel hbound hnext _
  obtain ⟨k, hk, hinner⟩ := hoperand (by decide) (by decide)
    ⟨inner, Rule.power_lt_unary hnext⟩ (Nat.le_of_succ_le_succ hbound)
  exact ⟨k, hk.level operator, needsClimb_unary hoperator hinner⟩

theorem climbsUpTo_call {v w : List Token} {callee : Expr} {args : List Expr}
    {lparen rparen : Token} (hhead : ClimbsUpTo bound .call v callee)
    (hlparen : lparen.kind = .lparen) (items : Listed (Expression .assignment) w args)
    (hrparen : rparen.kind = .rparen) :
    ClimbsUpTo bound .call (v ++ lparen :: (w ++ [rparen])) (.call callee args lparen.pos) := by
  intro power rest hlow hlevel hbound _ _
  simp only [List.length_append, List.length_cons, List.length_nil] at hbound
  obtain ⟨j, hj, hcallee⟩ := hhead (lparen :: (w ++ [rparen] ++ rest)) hlow hlevel (by omega)
    (Rule.power_le_call _) (by simp)
  obtain ⟨k, hk, hargs⟩ := needs_arguments hoperand "expected ')' after arguments" rest
    hrparen (.inl rfl) items (by omega)
  exact ⟨max j k, hj.beside ((hk.concat rparen).levelParen hlparen),
    hcallee.call hlparen hlevel hargs⟩

theorem climbsUpTo_index {v w : List Token} {object place : Expr} {lbracket rbracket : Token}
    (hhead : ClimbsUpTo bound .call v object) (hlbracket : lbracket.kind = .lbracket)
    (inner : Expression .assignment w place) (hrbracket : rbracket.kind = .rbracket) :
    ClimbsUpTo bound .call (v ++ lbracket :: (w ++ [rbracket]))
      (.index object place lbracket.pos) := by
  intro power rest hlow hlevel hbound _ _
  simp only [List.length_append, List.length_cons, List.length_nil] at hbound
  obtain ⟨j, hj, hobject⟩ := hhead (lbracket :: (w ++ [rbracket] ++ rest)) hlow hlevel (by omega)
    (Rule.power_le_call _) (by simp)
  obtain ⟨k, hk, hplace⟩ :=
    needs_operand_closed hoperand rest inner (by omega) (.inr hrbracket)
  exact ⟨max j k, hj.beside ((hk.concat rbracket).level lbracket),
    hobject.index hlbracket hlevel hplace hrbracket⟩

theorem climbsUpTo_grouping {w : List Token} {e : Expr} {lparen rparen : Token}
    (hlparen : lparen.kind = .lparen) (inner : Expression .assignment w e)
    (hrparen : rparen.kind = .rparen) :
    ClimbsUpTo bound .primary (lparen :: (w ++ [rparen])) e := by
  intro power rest _ _ hbound _ _
  simp only [List.length_append, List.length_cons, List.length_nil] at hbound
  obtain ⟨k, hk, hinner⟩ :=
    needs_operand_closed hoperand rest inner (by omega) (.inl hrparen)
  exact ⟨k, hk.group hlparen, needsClimb_grouping hlparen hinner hrparen⟩

theorem climbsUpTo_array {w : List Token} {elements : List Expr} {lbracket rbracket : Token}
    (hlbracket : lbracket.kind = .lbracket)
    (items : Listed (Expression .assignment) w elements)
    (hrbracket : rbracket.kind = .rbracket) :
    ClimbsUpTo bound .primary (lbracket :: (w ++ [rbracket])) (.array elements lbracket.pos) := by
  intro power rest _ _ hbound _ _
  simp only [List.length_append, List.length_cons, List.length_nil] at hbound
  obtain ⟨k, hk, helements⟩ := needs_arguments hoperand
    "expected ']' after array elements" rest hrbracket (.inr rfl) items (by omega)
  exact ⟨k, (hk.concat rbracket).level lbracket, needsClimb_array hlbracket helements⟩

/-- An expression is climbed from its first operand on: what stands to the left of an
operator is held by the time the operator is read, and the rest is left to operands. -/
theorem climbsUpTo_expression : ∀ {level : Power} {w : List Token} {e : Expr},
    Expression level w e → ClimbsUpTo bound level w e
  | _, _, _, .tighter inner => (climbsUpTo_expression inner).tighter
  | _, _, _, .assign target hequals source =>
      climbsUpTo_assign hoperand (climbsUpTo_expression target) hequals source
  | _, _, _, .binary first hoperator second =>
      climbsUpTo_binary hoperand (climbsUpTo_expression first) hoperator second
  | _, _, _, .unary hoperator inner => climbsUpTo_unary hoperand hoperator inner
  | _, _, _, .call head hlparen items hrparen =>
      climbsUpTo_call hoperand (climbsUpTo_expression head) hlparen items hrparen
  | _, _, _, .index head hlbracket inner hrbracket =>
      climbsUpTo_index hoperand (climbsUpTo_expression head) hlbracket inner hrbracket
  | _, _, _, @Expression.literal token _ hvalue => fun _ _ _ _ _ _ _ =>
      ⟨0, (Measured.none []).level token, needsClimb_literal hvalue⟩
  | _, _, _, @Expression.var token hkind => fun _ _ _ _ _ _ _ =>
      ⟨0, (Measured.none []).level token, needsClimb_var hkind⟩
  | _, _, _, .grouping hlparen inner hrparen =>
      climbsUpTo_grouping hoperand hlparen inner hrparen
  | _, _, _, .array hlbracket items hrbracket =>
      climbsUpTo_array hoperand hlbracket items hrbracket

end

theorem reads_expression (bound : Nat) {power : Power} (hlow : .assignment ≤ power)
    (hhigh : power ≤ .unary) :
    ReadsUpTo bound (expression · power) (Level power) Expr.nest Expr.parens := by
  induction bound generalizing power with
  | zero =>
      rintro w rest e ⟨h, -⟩ hbound
      have hopens := h.opens []
      rw [List.eq_nil_of_length_eq_zero (Nat.le_zero.1 hbound)] at hopens
      exact absurd rfl hopens
  | succ bound ih =>
      rintro w rest e ⟨h, hnext⟩ hbound
      obtain ⟨depth, hmeasured, hclimb⟩ := climbsUpTo_expression ih h rest hlow (Nat.le_refl _)
        hbound (Nat.le_of_lt hnext) (by rintro rfl; exact hnext)
      exact ⟨depth + 1, hmeasured, hclimb.needs hnext⟩

theorem takes_expression (room : Nat) {power : Power} {w rest : List Token} {e : Expr}
    (h : Expression power w e) (hlow : .assignment ≤ power) (hhigh : power ≤ .unary)
    (hroom : w.length ≤ room) (hnext : (nextKind rest).power < power) :
    Takes (expression room power) w rest e := by
  obtain ⟨depth, hmeasured, hneeds⟩ :=
    reads_expression w.length hlow hhigh ⟨h, hnext⟩ (Nat.le_refl _)
  exact hneeds.takes room (Nat.le_trans hmeasured.depth_le hroom)

end Parse

/-- Climbing from a least power reads exactly the expressions of that level which the next
token does not continue. -/
theorem expression_reads_level (p : Parser) (room : Nat) (power : Power) (e : Expr) (j : Nat)
    (hmode : p.mode = .normal) (hroom : p.ahead.length < room)
    (hlow : .assignment ≤ power) (hhigh : power ≤ .unary) :
    (∃ q, expression room power p = .ok e q ∧ q.errors = p.errors ∧ q.cursor = j) ↔
      ∃ w rest, p.ahead = w ++ rest ∧ j = p.cursor + w.length ∧
        Expression power w e ∧ (nextKind rest).power < power := by
  constructor
  · rintro ⟨q, hq, herrors, rfl⟩
    have hreach := (steady_expression room power).reaches hq
    have hnormal : q.mode = .normal := by
      rcases hreach.of_normal hmode with ⟨hmode, -⟩ | ⟨-, d, index, hnew, -⟩
      · exact hmode
      · rw [herrors] at hnew
        simp at hnew
    obtain ⟨w, hw, hlevel⟩ := recognizes_expression room hlow hhigh p e q hq hnormal
    obtain ⟨v, hv, hread⟩ := hreach.exists_read hnormal
    have hvw : v = w := List.append_cancel_right (hv.symm.trans hw)
    refine ⟨w, q.ahead, hw, ?_, hlevel⟩
    rw [hread, Parser.cursor_read, hvw]
  · rintro ⟨w, rest, hahead, rfl, hexpression, hnext⟩
    have hlength : w.length ≤ room := by
      rw [hahead, List.length_append] at hroom
      omega
    refine ⟨p.read w rest, ?_, rfl, Parser.cursor_read ..⟩
    exact takes_expression room hexpression hlow hhigh hlength hnext p hahead

theorem expression_reads_level_mixed :
    let p := Parser.ofTokens ([(.ident, "a"), (.assign, "="), (.minus, "-"), (.ident, "b"),
      (.star, "*"), (.ident, "d"), (.plus, "+"), (.ident, "c"), (.semicolon, ";")].map
        fun (kind, text) => ⟨kind, text, .start, ⟨"main", "."⟩⟩) "main" 16
    p.mode = .normal ∧ p.ahead.length < 16 ∧
      ∃ w rest, p.ahead = w ++ rest ∧ 8 = p.cursor + w.length ∧
        Expression .assignment w
          (.assign "a" (.binary .plus (.binary .star (.unary .minus (.var "b" .start) .start)
            (.var "d" .start) .start) (.var "c" .start) .start) .start) ∧
        (nextKind rest).power < .assignment := by
  intro p
  have hroom : p.ahead.length < 16 := by decide
  refine ⟨rfl, hroom, ?_⟩
  exact (expression_reads_level p 16 .assignment _ 8 rfl hroom (by decide) (by decide)).1
    ⟨p.read (p.ahead.take 8) (p.ahead.drop 8), rfl, rfl, rfl⟩

end Pidgin
