import Pidgin.Proofs.Grammar.Completion

/-!
# The height of accepted trees

The limit does not bound trees by itself.  A left operand, a callee and an
indexed object are wrapped in a loop, and so are the links of a chain of
conditionals: each such step makes the tree higher and takes no level of
nesting.  These runs are the only way around the limit, since a tree whose runs
are short is no higher than its nesting allows.
-/

namespace Pidgin

open Grammar Parse

/-! ## Expressions -/

namespace Expr

mutual

def height : Expr → Nat
  | .literal _ _ | .var _ _ => 1
  | .binary _ left right _ => max left.height right.height + 1
  | .unary _ operand _ => operand.height + 1
  | .call callee args _ => max callee.height (heightAll args) + 1
  | .index object place _ => max object.height place.height + 1
  | .array elements _ => heightAll elements + 1
  | .assign _ value _ => value.height + 1

def heightAll : List Expr → Nat
  | [] => 0
  | e :: es => max e.height (heightAll es)

end

/-- How many times an expression goes on to the right of its first operand. -/
def steps : Expr → Nat
  | .binary _ left _ _ => left.steps + 1
  | .call callee _ _ => callee.steps + 1
  | .index object _ _ => object.steps + 1
  | _ => 0

mutual

def longestRun : Expr → Nat
  | .literal _ _ | .var _ _ => 0
  | .binary _ left right _ => max (left.steps + 1) (max left.longestRun right.longestRun)
  | .unary _ operand _ => operand.longestRun
  | .call callee args _ => max (callee.steps + 1) (max callee.longestRun (longestRunAll args))
  | .index object place _ => max (object.steps + 1) (max object.longestRun place.longestRun)
  | .array elements _ => longestRunAll elements
  | .assign _ value _ => value.longestRun

def longestRunAll : List Expr → Nat
  | [] => 0
  | e :: es => max e.longestRun (longestRunAll es)

end

theorem steps_le_longestRun (e : Expr) : e.steps ≤ e.longestRun := by
  cases e <;> simp only [steps, longestRun] <;> omega

variable {run : Nat}

mutual

/-- Along a run the tree grows by one for each step, and below it by a run for each level. -/
theorem height_le_inner : (e : Expr) → e.longestRun ≤ run →
    e.height ≤ e.inner * (run + 1) + e.steps + 1
  | .literal _ _, _ => by simp [height]
  | .var _ _, _ => by simp [height]
  | .binary _ left right _, h => by
      simp only [longestRun, Nat.max_le] at h
      have hleft := height_le_inner left h.2.1
      have hright := height_le_inner right h.2.2
      have hsteps := steps_le_longestRun right
      simp only [height, inner, steps, ← Nat.mul_max_mul_right, Nat.add_one_mul]
      omega
  | .unary _ operand _, h => by
      simp only [longestRun] at h
      have hoperand := height_le_inner operand h
      have hsteps := steps_le_longestRun operand
      simp only [height, inner, steps, Nat.add_one_mul]
      omega
  | .call callee args _, h => by
      simp only [longestRun, Nat.max_le] at h
      have hcallee := height_le_inner callee h.2.1
      have hargs := heightAll_le_nestAll args h.2.2
      simp only [height, inner, steps, ← Nat.mul_max_mul_right]
      omega
  | .index object place _, h => by
      simp only [longestRun, Nat.max_le] at h
      have hobject := height_le_inner object h.2.1
      have hplace := height_le_inner place h.2.2
      have hsteps := steps_le_longestRun place
      simp only [height, inner, steps, ← Nat.mul_max_mul_right, Nat.add_one_mul]
      omega
  | .array elements _, h => by
      have helements := heightAll_le_nestAll elements h
      simp only [height, inner, steps]
      omega
  | .assign _ value _, h => by
      simp only [longestRun] at h
      have hvalue := height_le_inner value h
      have hsteps := steps_le_longestRun value
      simp only [height, inner, steps, Nat.add_one_mul]
      omega

theorem heightAll_le_nestAll : (es : List Expr) → longestRunAll es ≤ run →
    heightAll es ≤ nestAll es * (run + 1)
  | [], _ => by simp [heightAll]
  | e :: es, h => by
      simp only [longestRunAll, Nat.max_le] at h
      have hfirst := height_le_inner e h.1
      have hmore := heightAll_le_nestAll es h.2
      have hsteps := steps_le_longestRun e
      simp only [heightAll, nestAll, ← Nat.mul_max_mul_right, Nat.add_one_mul]
      omega

end

theorem height_le_nest {e : Expr} (h : e.longestRun ≤ run) :
    e.height ≤ e.nest * (run + 1) := by
  have hinner := height_le_inner e h
  have hsteps := steps_le_longestRun e
  rw [nest, Nat.add_one_mul]
  omega

end Expr

/-! ## Statements -/

namespace Stmt

mutual

def height : Stmt → Nat
  | .expr value _ => value.height + 1
  | .varDecl _ _ init? _ => init?.elim 0 Expr.height + 1
  | .fnDecl _ _ _ body _ _ => heightAll body + 1
  | .ifElse cond body else? _ => max cond.height (max body.height (heightElse else?)) + 1
  | .whileLoop cond body _ => max cond.height body.height + 1
  | .ret value? _ => value?.elim 0 Expr.height + 1
  | .block body _ => heightAll body + 1

def heightElse : Option Stmt → Nat
  | none => 0
  | some s => s.height

def heightAll : List Stmt → Nat
  | [] => 0
  | s :: ss => max s.height (heightAll ss)

end

def links : Option Stmt → Nat
  | some (.ifElse _ _ else? _) => links else? + 1
  | _ => 0

mutual

def longestRun : Stmt → Nat
  | .expr value _ => value.longestRun
  | .varDecl _ _ init? _ => init?.elim 0 Expr.longestRun
  | .fnDecl _ _ _ body _ _ => longestRunAll body
  | .ifElse cond body else? _ =>
      max (links else?) (max cond.longestRun (max body.longestRun (longestRunElse else?)))
  | .whileLoop cond body _ => max cond.longestRun body.longestRun
  | .ret value? _ => value?.elim 0 Expr.longestRun
  | .block body _ => longestRunAll body

def longestRunElse : Option Stmt → Nat
  | none => 0
  | some s => s.longestRun

def longestRunAll : List Stmt → Nat
  | [] => 0
  | s :: ss => max s.longestRun (longestRunAll ss)

end

variable {run : Nat}

theorem height_value?_le {value? : Option Expr} (h : value?.elim 0 Expr.longestRun ≤ run) :
    value?.elim 0 Expr.height ≤ value?.elim 0 Expr.nest * (run + 1) := by
  cases value? with
  | none => simp
  | some e => exact Expr.height_le_nest h

mutual

theorem height_le_nest : (s : Stmt) → s.longestRun ≤ run → s.height ≤ s.nest * (run + 1) + 1
  | .expr value _, h => by
      have hvalue := Expr.height_le_nest h
      simp only [height, nest]
      omega
  | .varDecl _ _ init? _, h => by
      have hinit := height_value?_le h
      simp only [height, nest]
      omega
  | .fnDecl _ _ _ body _ _, h => by
      have hbody := heightAll_le_nestAll body h
      simp only [height, nest, Nat.add_one_mul]
      omega
  | .ifElse cond body else? _, h => by
      simp only [longestRun, Nat.max_le] at h
      have hcond := Expr.height_le_nest h.2.1
      have hbody := height_le_nest body h.2.2.1
      have helse := heightElse_le_nestElse else? h.2.2.2
      simp only [height, nest, ← Nat.mul_max_mul_right, Nat.add_one_mul]
      omega
  | .whileLoop cond body _, h => by
      simp only [longestRun, Nat.max_le] at h
      have hcond := Expr.height_le_nest h.1
      have hbody := height_le_nest body h.2
      simp only [height, nest, ← Nat.mul_max_mul_right, Nat.add_one_mul]
      omega
  | .ret value? _, h => by
      have hvalue := height_value?_le h
      simp only [height, nest]
      omega
  | .block body _, h => by
      have hbody := heightAll_le_nestAll body h
      simp only [height, nest, Nat.add_one_mul]
      omega

theorem heightElse_le_nestElse : (else? : Option Stmt) → longestRunElse else? ≤ run →
    heightElse else? ≤ nestElse else? * (run + 1) + links else? + 1
  | none, _ => by simp [heightElse]
  | some s, h => by
      cases s with
      | ifElse cond body else? pos =>
          simp only [longestRunElse, longestRun, Nat.max_le] at h
          have hcond := Expr.height_le_nest h.2.1
          have hbody := height_le_nest body h.2.2.1
          have helse := heightElse_le_nestElse else? h.2.2.2
          simp only [heightElse, height, nestElse, links, ← Nat.mul_max_mul_right]
          omega
      | _ => simpa [heightElse, nestElse, links] using height_le_nest _ h

theorem heightAll_le_nestAll : (ss : List Stmt) → longestRunAll ss ≤ run →
    heightAll ss ≤ nestAll ss * (run + 1) + 1
  | [], _ => by simp [heightAll]
  | s :: ss, h => by
      simp only [longestRunAll, Nat.max_le] at h
      have hfirst := height_le_nest s h.1
      have hmore := heightAll_le_nestAll ss h.2
      simp only [heightAll, nestAll, ← Nat.mul_max_mul_right]
      omega

end

end Stmt

/-! ## Programs -/

def Program.height (program : Program) : Nat := Stmt.heightAll program.statements

def Program.longestRun (program : Program) : Nat := Stmt.longestRunAll program.statements

/-- An accepted tree is no higher than one run for each level of the limit. -/
theorem height_le_of_parse (tokens : List Token) (file : String) (limit run : Nat)
    (program : Program) (h : parse tokens file limit = .ok program)
    (hrun : program.longestRun ≤ run) : program.height ≤ limit * (run + 1) + 1 := by
  have hnest := Nat.mul_le_mul_right (run + 1) (nest_le_of_parse h)
  have hheight := Stmt.heightAll_le_nestAll program.statements hrun
  unfold Program.nest at hnest
  unfold Program.height
  omega

theorem height_le_of_parse_sum :
    let tokens : List Token :=
      [(.ident, "a"), (.plus, "+"), (.minus, "-"), (.ident, "b"), (.plus, "+"), (.ident, "c"),
        (.semicolon, ";")].map fun (kind, text) => ⟨kind, text, .start, ⟨"main", "."⟩⟩
    ∃ program, parse tokens "main" 3 = .ok program ∧ program.longestRun ≤ 2 ∧
      program.height ≤ 10 := by
  intro tokens
  obtain ⟨program, hprogram, hrun⟩ : ∃ program, parse tokens "main" 3 = .ok program ∧
      program.longestRun ≤ 2 := ⟨_, rfl, by decide⟩
  exact ⟨program, hprogram, hrun, height_le_of_parse tokens "main" 3 2 program hprogram hrun⟩

/-! ## Trees that the limit lets grow -/

namespace Tall

def word (kind : Kind) (text : String) : Token := ⟨kind, text, .start, ⟨"main", "."⟩⟩

def name : Token := word .ident "a"

def plus : Token := word .plus "+"

def semicolon : Token := word .semicolon ";"

theorem expression_name (power : Power) : Expression power [name] (.var "a" .start) :=
  .loosen (.var rfl) (by cases power <;> decide)

/-! ### Sums -/

def sumTokens : Nat → List Token
  | 0 => [name]
  | n + 1 => sumTokens n ++ [plus, name]

def sum : Nat → Expr
  | 0 => .var "a" .start
  | n + 1 => .binary .plus (sum n) (.var "a" .start) .start

theorem height_sum (n : Nat) : (sum n).height = n + 1 := by
  induction n with
  | zero => rfl
  | succ n ih => simp [sum, Expr.height, ih]

theorem inner_sum_le (n : Nat) : (sum n).inner ≤ 1 := by
  induction n with
  | zero => decide
  | succ n ih => simp [sum, Expr.inner, ih]

theorem parens_sum (n : Nat) : lparens (sumTokens n) = (sum n).parens := by
  induction n with
  | zero => rfl
  | succ n ih => simp [sum, sumTokens, Expr.parens, ih, lparens_cons, plus, name, word]

theorem expression_sum (n : Nat) : Expression .term (sumTokens n) (sum n) := by
  induction n with
  | zero => exact expression_name .term
  | succ n ih =>
      exact @Expression.binary .term _ _ _ _ plus ih (by decide) (expression_name .factor)

theorem parse_sum (n : Nat) :
    ∃ pos, parse (sumTokens n ++ [semicolon]) "main" 2 = .ok ⟨[.expr (sum n) pos]⟩ := by
  have hsum : Expression .assignment (sumTokens n) (sum n) :=
    (expression_sum n).loosen (by decide)
  have hwords : words (sumTokens n ++ [semicolon]) = sumTokens n ++ [semicolon] :=
    words_append [semicolon] hsum.plain
  have hparens := parens_sum n
  have hinner := inner_sum_le n
  cases htokens : sumTokens n with
  | nil => exact absurd rfl (htokens ▸ hsum.opens [])
  | cons first w =>
      rw [htokens] at hsum hwords hparens
      refine ⟨first.pos, parse_of_nest_le "main" ?_ ?_ ?_⟩
      · have hstatement : Statement (first :: (w ++ [semicolon])) [] (.expr (sum n) first.pos) :=
          .expr hsum rfl
        rw [hwords]
        simpa using Declarations.cons (.statement hstatement) .nil
      · rw [hwords, Ungrouped, lparens_append, hparens]
        rfl
      · simp only [Stmt.nestAll, Stmt.nest, Expr.nest]
        omega

/-! ### Chains -/

def branch : List Token :=
  [word .abi "abi", word .lparen "(", name, word .rparen ")", name, semicolon]

def chainTokens : Nat → List Token
  | 0 => branch
  | n + 1 => branch ++ word .naso "naso" :: chainTokens n

def chain : Nat → Stmt
  | 0 => .ifElse (.var "a" .start) (.expr (.var "a" .start) .start) none .start
  | n + 1 => .ifElse (.var "a" .start) (.expr (.var "a" .start) .start) (some (chain n)) .start

theorem height_chain (n : Nat) : (chain n).height = n + 3 := by
  induction n with
  | zero => rfl
  | succ n ih => simp [chain, Stmt.height, Stmt.heightElse, Expr.height, ih]

theorem nest_chain (n : Nat) : (chain n).nest = 2 ∧ Stmt.nestElse (some (chain n)) = 1 := by
  induction n with
  | zero => decide
  | succ n ih => simp [chain, Stmt.nest, Stmt.nestElse, Expr.nest, Expr.inner, ih]

theorem parens_chain (n : Nat) : lparens (chainTokens n) = (chain n).parens := by
  induction n with
  | zero => rfl
  | succ n ih =>
      simp [chain, chainTokens, Stmt.parens, Stmt.parensElse, Expr.parens, ih, lparens_cons,
        branch, word, name, semicolon]

theorem statement_branch {w : List Token} {else? : Option Stmt} (h : Otherwise w [] else?) :
    Statement (branch ++ w) []
      (.ifElse (.var "a" .start) (.expr (.var "a" .start) .start) else? .start) := by
  have hbody : Statement [name, semicolon] (w ++ []) (.expr (.var "a" .start) .start) :=
    .expr (expression_name .assignment) rfl
  exact @Statement.conditional [name] _ _ _ _ _ _ (word .abi "abi") (word .lparen "(")
    (word .rparen ")") rfl rfl (expression_name .assignment) rfl hbody h

theorem statement_chain (n : Nat) : Statement (chainTokens n) [] (chain n) := by
  induction n with
  | zero => exact statement_branch (.none (by decide))
  | succ n ih => exact statement_branch (.some rfl ih)

theorem parse_chain (n : Nat) : parse (chainTokens n) "main" 2 = .ok ⟨[chain n]⟩ := by
  have hwords := words_eq_self (statement_chain n).plain
  refine parse_of_nest_le "main" ?_ ?_ ?_
  · rw [hwords]
    simpa using Declarations.cons (.statement (statement_chain n)) .nil
  · rw [hwords, Ungrouped, parens_chain]
    rfl
  · simp [Stmt.nestAll, nest_chain n]

end Tall

/-- No bound that depends on the limit alone holds for every accepted tree: sums outgrow it,
and so do chains. -/
theorem height_unbounded :
    (¬∃ bound : Nat → Nat, ∀ tokens file limit program,
      parse tokens file limit = .ok program → program.height ≤ bound limit) ∧
    ∀ bound, ∃ tokens, parse tokens "main" 2 = .ok ⟨[Tall.chain bound]⟩ ∧
      bound < Program.height ⟨[Tall.chain bound]⟩ := by
  constructor
  · rintro ⟨bound, h⟩
    obtain ⟨pos, hsum⟩ := Tall.parse_sum (bound 2)
    have hheight := h _ _ _ _ hsum
    simp only [Program.height, Stmt.heightAll, Stmt.height, Tall.height_sum] at hheight
    omega
  · intro bound
    refine ⟨Tall.chainTokens bound, Tall.parse_chain bound, ?_⟩
    simp only [Program.height, Stmt.heightAll, Tall.height_chain]
    omega

end Pidgin
