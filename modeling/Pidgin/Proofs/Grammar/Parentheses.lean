import Pidgin.Proofs.Grammar.Phrase
import Pidgin.Proofs.Token.Tiling
import Pidgin.Proofs.Tree.Nesting
import Pidgin.Proofs.Tree.Written

/-!
# Parentheses that are needed

What is written for a tree has no parentheses too many: every phrase with this
tree has at least as many.  A tighter power to be met never takes parentheses
away, and a pair of them meets every power.
-/

namespace Pidgin

open Grammar

def openings (readings : List (Kind × String)) : Nat := readings.countP (·.1 = .lparen)

section

variable {a b : List (Kind × String)} {reading : Kind × String}

@[simp] theorem openings_nil : openings [] = 0 := rfl

@[simp] theorem openings_append : openings (a ++ b) = openings a + openings b := List.countP_append

@[simp] theorem openings_cons :
    openings (reading :: a) = openings a + if reading.1 = .lparen then 1 else 0 := by
  simp [openings, List.countP_cons]

@[simp] theorem kind_reading (kind : Kind) : kind.reading.1 = kind := rfl

theorem openings_map (w : List Token) : openings (w.map Token.reading) = lparens w := by
  simp only [openings, List.countP_map]
  rfl

@[simp] theorem grouped_self (power : Power) : grouped power power a = a :=
  if_neg (Nat.lt_irrefl power.rank)

theorem openings_grouped (own asked : Power) :
    openings (grouped own asked a) = openings a + if own < asked then 1 else 0 := by
  unfold grouped
  split <;> simp

@[simp] theorem openings_commaSeparated (items : List (List (Kind × String))) :
    openings (commaSeparated (a :: items)) = openings a + openings (commaSeparated items) := by
  cases items <;> simp [commaSeparated]

@[simp] theorem openings_annotation (type? : Option String) :
    openings (annotationReadings type?) = 0 := by
  cases type? <;> simp [annotationReadings]

@[simp] theorem openings_parameters (params : List Param) :
    openings (commaSeparated (params.map Param.readings)) = 0 := by
  induction params with
  | nil => rfl
  | cons param params ih => simpa [Param.readings] using ih

end

/-! ## Expressions -/

/-- What stands between the parentheses does not depend on the power that is asked for. -/
theorem Expr.exists_grouped (e : Expr) :
    ∃ own readings, ∀ asked, e.readings asked = grouped own asked readings := by
  -- Nothing is tighter than an expression that is never put into parentheses.
  have hprimary (readings : List (Kind × String)) (asked : Power) :
      readings = grouped .primary asked readings := by
    rw [grouped, if_neg (by cases asked <;> decide)]
  cases e with
  | literal | var | array => exact ⟨.primary, _, hprimary _⟩
  | binary | unary | call | index | assign => exact ⟨_, _, fun asked => rfl⟩

theorem Expr.openings_mono (e : Expr) {loose tight : Power} (h : loose ≤ tight) :
    openings (e.readings loose) ≤ openings (e.readings tight) := by
  obtain ⟨own, readings, hreadings⟩ := e.exists_grouped
  rw [hreadings, hreadings, openings_grouped, openings_grouped]
  have hlt : own < loose → own < tight := fun hown => Nat.lt_of_lt_of_le hown h
  split <;> simp_all

theorem Expr.openings_le_succ (e : Expr) (asked given : Power) :
    openings (e.readings asked) ≤ openings (e.readings given) + 1 := by
  obtain ⟨own, readings, hreadings⟩ := e.exists_grouped
  rw [hreadings, hreadings, openings_grouped, openings_grouped]
  split <;> omega

theorem Power.le_next (power : Power) : power ≤ power.next := by
  cases power <;> decide

namespace Grammar

theorem power_of_mem_operators {power : Power} {kind : Kind} (h : kind ∈ operators power) :
    kind.power = power ∧ kind ≠ .lparen := by
  revert kind
  cases power <;> decide

mutual

theorem Expression.openings_le {power : Power} {w : List Token} {e : Expr} :
    Expression power w e → openings (e.readings power) ≤ lparens w
  | .tighter (e := e) inner => Nat.le_trans (e.openings_mono power.le_next) inner.openings_le
  | .assign target hequals source => by
      have hsource := source.openings_le
      simp [Expr.readings, lparens_cons, hequals]
      omega
  | .binary first hoperator second => by
      have hfirst := first.openings_le
      have hsecond := second.openings_le
      obtain ⟨hpower, hkind⟩ := power_of_mem_operators hoperator
      simp [Expr.readings, hpower, lparens_cons, hkind]
      omega
  | .unary hoperator inner => by
      have hinner := inner.openings_le
      rcases hoperator with hkind | hkind <;>
        simpa [Expr.readings, lparens_cons, hkind] using hinner
  | .call head hlparen items hrparen => by
      have hhead := head.openings_le
      have hitems := openings_le_of_listed items
      simp [Expr.readings, lparens_cons, hlparen, hrparen]
      omega
  | .index head hlbracket inner hrbracket => by
      have hhead := head.openings_le
      have hinner := inner.openings_le
      simp [Expr.readings, lparens_cons, hlbracket, hrbracket]
      omega
  | @Expression.literal token value hvalue => by
      cases hvalue <;> simp [Expr.readings, Literal.reading]
  | .var hkind => by simp [Expr.readings]
  | .grouping (e := e) hlparen inner hrparen => by
      have hinner := inner.openings_le
      have hpair := e.openings_le_succ .primary .assignment
      simp [lparens_cons, hlparen, hrparen]
      omega
  | .array hlbracket items hrbracket => by
      have hitems := openings_le_of_listed items
      simp [Expr.readings, lparens_cons, hlbracket, hrbracket]
      omega

theorem openings_le_of_listed {w : List Token} {es : List Expr} :
    Listed (Expression .assignment) w es →
      openings (commaSeparated (Expr.readingsAll es)) ≤ lparens w
  | .none => by simp [Expr.readingsAll, commaSeparated]
  | .some items => openings_le_of_separated items

theorem openings_le_of_separated {w : List Token} {es : List Expr} :
    Separated (Expression .assignment) w es →
      openings (commaSeparated (Expr.readingsAll es)) ≤ lparens w
  | .one first => first.openings_le
  | .more first hcomma rest => by
      have hfirst := first.openings_le
      have hrest := openings_le_of_separated rest
      simp [Expr.readingsAll, lparens_cons, hcomma]
      omega

end

/-! ## Statements -/

theorem Initializer.openings_le {w : List Token} {init? : Option Expr} (h : Initializer w init?) :
    openings (initializerReadings init?) ≤ lparens w := by
  cases h with
  | none => simp [initializerReadings]
  | some hequals value => simpa [initializerReadings, lparens_cons, hequals] using value.openings_le

mutual

theorem Statement.openings_le {w rest : List Token} {s : Stmt} :
    Statement w rest s → openings s.readings ≤ lparens w
  | .block body => by simpa [Stmt.ofBlock, Stmt.readings] using body.openings_le
  | .conditional habi hlparen condition hrparen branch otherwise => by
      have hcondition := condition.openings_le
      have hbranch := branch.openings_le
      have hotherwise := otherwise.openings_le
      simp [Stmt.readings, lparens_cons, habi, hlparen, hrparen]
      omega
  | .whileLoop hwaka hlparen condition hrparen branch => by
      have hcondition := condition.openings_le
      have hbranch := branch.openings_le
      simp [Stmt.readings, lparens_cons, hwaka, hlparen, hrparen]
      omega
  | .ret hcomot hsemicolon => by simp [Stmt.readings]
  | .retValue hcomot value hsemicolon => by
      simpa [Stmt.readings, lparens_cons, hcomot, hsemicolon] using value.openings_le
  | .expr value hsemicolon => by
      rw [← List.cons_append, lparens_append]
      simpa [Stmt.readings] using Nat.le_add_right_of_le value.openings_le

theorem Otherwise.openings_le {w rest : List Token} {else? : Option Stmt} :
    Otherwise w rest else? → openings (Stmt.readingsElse else?) ≤ lparens w
  | .none _ => by simp [Stmt.readingsElse]
  | .some hnaso branch => by
      simpa [Stmt.readingsElse, lparens_cons, hnaso] using branch.openings_le

theorem Body.openings_le {w rest : List Token} {b : Block} :
    Body w rest b → openings (Stmt.readingsAll b.body) ≤ lparens w
  | .mk hlbrace inner hrbrace => by
      simpa [lparens_cons, hlbrace, hrbrace] using inner.openings_le

theorem Declaration.openings_le {w rest : List Token} {s : Stmt} :
    Declaration w rest s → openings s.readings ≤ lparens w
  | .varDecl habeg hname ascription initializer hsemicolon => by
      have hinitializer := initializer.openings_le
      simp [Stmt.readings, lparens_cons, habeg, hname, hsemicolon]
      omega
  | .fnDecl hoya hname hlparen parameters hrparen ascription body => by
      have hbody := body.openings_le
      simp [Stmt.readings, lparens_cons, hoya, hname, hlparen, hrparen]
      omega
  | .statement inner => inner.openings_le

theorem Declarations.openings_le {w rest : List Token} {ss : List Stmt} :
    Declarations w rest ss → openings (Stmt.readingsAll ss) ≤ lparens w
  | .nil => by simp [Stmt.readingsAll]
  | .cons first more => by
      have hfirst := first.openings_le
      have hmore := more.openings_le
      simp [Stmt.readingsAll]
      omega

end

end Grammar

end Pidgin
