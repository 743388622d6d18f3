import Pidgin.Parse.Rule
import Pidgin.Proofs.Token.Written
import Pidgin.Proofs.Tree.WellFormed

/-!
# Writing trees

A tree is written as the tokens of a phrase that has this tree.  An expression is
put into parentheses exactly where the power asked for is tighter than its own;
the left side of an operator is asked for the power of the operator and the right
side for the next one.  Positions do not matter to what is written.
-/

namespace Pidgin

/-! ## Trees without positions -/

mutual

def Expr.erase : Expr → Expr
  | .literal value _ => .literal value .start
  | .var name _ => .var name .start
  | .binary op left right _ => .binary op left.erase right.erase .start
  | .unary op operand _ => .unary op operand.erase .start
  | .call callee args _ => .call callee.erase (Expr.eraseAll args) .start
  | .index object place _ => .index object.erase place.erase .start
  | .array elements _ => .array (Expr.eraseAll elements) .start
  | .assign name value _ => .assign name value.erase .start

def Expr.eraseAll : List Expr → List Expr
  | [] => []
  | e :: es => e.erase :: Expr.eraseAll es

end

mutual

def Stmt.erase : Stmt → Stmt
  | .expr value _ => .expr value.erase .start
  | .varDecl name type? init? _ => .varDecl name type? (init?.map Expr.erase) .start
  | .fnDecl name params returns? body _ _ =>
      .fnDecl name params returns? (Stmt.eraseAll body) .start .start
  | .ifElse cond body else? _ => .ifElse cond.erase body.erase (Stmt.eraseElse else?) .start
  | .whileLoop cond body _ => .whileLoop cond.erase body.erase .start
  | .ret value? _ => .ret (value?.map Expr.erase) .start
  | .block body _ => .block (Stmt.eraseAll body) .start

def Stmt.eraseElse : Option Stmt → Option Stmt
  | none => none
  | some s => some s.erase

def Stmt.eraseAll : List Stmt → List Stmt
  | [] => []
  | s :: ss => s.erase :: Stmt.eraseAll ss

end

/-- The program with every position put to the start: two programs are equal up to positions
if this leaves the same. -/
def Program.erase (program : Program) : Program := ⟨Stmt.eraseAll program.statements⟩

/-! ## Tokens -/

def Literal.reading : Literal → Kind × String
  | .int value => (.integer, toString value)
  | .float value => (.float, value.fixed 6)
  | .string value => (.string, value)
  | .bool true => Kind.reading .litTrue
  | .bool false => Kind.reading .litFalse

/-! ## Trees -/

def commaSeparated : List (List (Kind × String)) → List (Kind × String)
  | [] => []
  | [item] => item
  | item :: next :: items => item ++ Kind.reading .comma :: commaSeparated (next :: items)

/-- Tokens of a phrase of the power `own`, in parentheses if one of a tighter power is asked
for. -/
def grouped (own asked : Power) (readings : List (Kind × String)) : List (Kind × String) :=
  if own < asked then Kind.reading .lparen :: (readings ++ [Kind.reading .rparen]) else readings

mutual

def Expr.readings : Expr → Power → List (Kind × String)
  | .literal value _, _ => [value.reading]
  | .var name _, _ => [(.ident, name)]
  | .binary op left right _, asked =>
      grouped op.power asked
        (left.readings op.power ++ op.reading :: right.readings op.power.next)
  | .unary op operand _, asked => grouped .unary asked (op.reading :: operand.readings .unary)
  | .call callee args _, asked =>
      grouped .call asked
        (callee.readings .call ++ Kind.reading .lparen ::
          (commaSeparated (Expr.readingsAll args) ++ [Kind.reading .rparen]))
  | .index object place _, asked =>
      grouped .call asked
        (object.readings .call ++ Kind.reading .lbracket ::
          (place.readings .assignment ++ [Kind.reading .rbracket]))
  | .array elements _, _ =>
      Kind.reading .lbracket ::
        (commaSeparated (Expr.readingsAll elements) ++ [Kind.reading .rbracket])
  | .assign name value _, asked =>
      grouped .assignment asked
        ((.ident, name) :: Kind.reading .assign :: value.readings .assignment)

def Expr.readingsAll : List Expr → List (List (Kind × String))
  | [] => []
  | e :: es => e.readings .assignment :: Expr.readingsAll es

end

def annotationReadings : Option String → List (Kind × String)
  | none => []
  | some type => [Kind.reading .colon, (.typeName, type)]

def initializerReadings : Option Expr → List (Kind × String)
  | none => []
  | some e => Kind.reading .assign :: e.readings .assignment

def Param.readings (param : Param) : List (Kind × String) :=
  [(.ident, param.name), Kind.reading .colon, (.typeName, param.type)]

mutual

def Stmt.readings : Stmt → List (Kind × String)
  | .expr value _ => value.readings .assignment ++ [Kind.reading .semicolon]
  | .varDecl name type? init? _ =>
      Kind.reading .abeg :: (.ident, name) ::
        (annotationReadings type? ++ (initializerReadings init? ++ [Kind.reading .semicolon]))
  | .fnDecl name params returns? body _ _ =>
      Kind.reading .oya :: (.ident, name) :: Kind.reading .lparen ::
        (commaSeparated (params.map Param.readings) ++ Kind.reading .rparen ::
          (annotationReadings returns? ++ Kind.reading .lbrace ::
            (Stmt.readingsAll body ++ [Kind.reading .rbrace])))
  | .ifElse cond body else? _ =>
      Kind.reading .abi :: Kind.reading .lparen ::
        (cond.readings .assignment ++ Kind.reading .rparen ::
          (body.readings ++ Stmt.readingsElse else?))
  | .whileLoop cond body _ =>
      Kind.reading .waka :: Kind.reading .lparen ::
        (cond.readings .assignment ++ Kind.reading .rparen :: body.readings)
  | .ret none _ => [Kind.reading .comot, Kind.reading .semicolon]
  | .ret (some value) _ =>
      Kind.reading .comot :: (value.readings .assignment ++ [Kind.reading .semicolon])
  | .block body _ => Kind.reading .lbrace :: (Stmt.readingsAll body ++ [Kind.reading .rbrace])

def Stmt.readingsElse : Option Stmt → List (Kind × String)
  | none => []
  | some s => Kind.reading .naso :: s.readings

def Stmt.readingsAll : List Stmt → List (Kind × String)
  | [] => []
  | s :: ss => s.readings ++ Stmt.readingsAll ss

end

def Program.readings (program : Program) : List (Kind × String) :=
  Stmt.readingsAll program.statements

def Program.write (program : Program) : String := String.ofList (textOf program.readings)

/-! ## Positions do not matter -/

mutual

@[simp] theorem Expr.readings_erase :
    (e : Expr) → ∀ asked, e.erase.readings asked = e.readings asked
  | .literal _ _, _ | .var _ _, _ => rfl
  | .binary op left right _, asked => by
      simp [Expr.erase, Expr.readings, left.readings_erase, right.readings_erase]
  | .unary _ operand _, asked => by simp [Expr.erase, Expr.readings, operand.readings_erase]
  | .call callee args _, asked => by
      simp [Expr.erase, Expr.readings, callee.readings_erase, Expr.readingsAll_erase args]
  | .index object place _, asked => by
      simp [Expr.erase, Expr.readings, object.readings_erase, place.readings_erase]
  | .array elements _, _ => by
      simp [Expr.erase, Expr.readings, Expr.readingsAll_erase elements]
  | .assign _ value _, asked => by simp [Expr.erase, Expr.readings, value.readings_erase]

theorem Expr.readingsAll_erase :
    (es : List Expr) → Expr.readingsAll (Expr.eraseAll es) = Expr.readingsAll es
  | [] => rfl
  | e :: es => by
      simp [Expr.eraseAll, Expr.readingsAll, e.readings_erase, Expr.readingsAll_erase es]

end

mutual

theorem Stmt.readings_erase : (s : Stmt) → s.erase.readings = s.readings
  | .expr value _ => by simp [Stmt.erase, Stmt.readings]
  | .varDecl _ _ none _ => rfl
  | .varDecl _ _ (some e) _ => by simp [Stmt.erase, Stmt.readings, initializerReadings]
  | .fnDecl _ _ _ body _ _ => by simp [Stmt.erase, Stmt.readings, Stmt.readingsAll_erase body]
  | .ifElse cond body else? _ => by
      simp [Stmt.erase, Stmt.readings, body.readings_erase, Stmt.readingsElse_erase else?]
  | .whileLoop cond body _ => by simp [Stmt.erase, Stmt.readings, body.readings_erase]
  | .ret none _ => rfl
  | .ret (some value) _ => by simp [Stmt.erase, Stmt.readings]
  | .block body _ => by simp [Stmt.erase, Stmt.readings, Stmt.readingsAll_erase body]

theorem Stmt.readingsElse_erase :
    (else? : Option Stmt) → Stmt.readingsElse (Stmt.eraseElse else?) = Stmt.readingsElse else?
  | none => rfl
  | some s => by simp [Stmt.eraseElse, Stmt.readingsElse, s.readings_erase]

theorem Stmt.readingsAll_erase :
    (ss : List Stmt) → Stmt.readingsAll (Stmt.eraseAll ss) = Stmt.readingsAll ss
  | [] => rfl
  | s :: ss => by
      simp [Stmt.eraseAll, Stmt.readingsAll, s.readings_erase, Stmt.readingsAll_erase ss]

end

theorem Program.readings_erase (program : Program) : program.erase.readings = program.readings :=
  Stmt.readingsAll_erase program.statements

/-! ## Every token can be spelled -/

theorem IsName.legible {name : String} (h : IsName name) : Legible (.ident, name) := by
  have hstarts : name.toList.head?.any isWordStart = true := by
    obtain ⟨c, hc, hstart⟩ := h.starts
    rwa [show name.toList.head? = some c from hc]
  have hparts : name.toList.all isWordPart = true := by simpa using h.parts
  exact legible_verbatim (by decide) fun rest =>
    .ident (word_blank hstarts hparts rest) (by simpa using h.not_keyword)
      (by simpa using h.not_type)

theorem Literal.legible {value : Literal} {pos : Position} (h : (Expr.literal value pos).Proper)
    (hfloat : (Expr.literal value pos).NotFloat) : Legible value.reading := by
  cases value with
  | int n =>
      obtain ⟨n, rfl⟩ := Int.eq_ofNat_of_zero_le h.1
      exact legible_integer n
  | float x => exact absurd rfl (hfloat x pos)
  | string text => exact legible_string text
  | bool b => cases b <;> exact legible_reading (by decide)

def AllLegible (readings : List (Kind × String)) : Prop := ∀ reading ∈ readings, Legible reading

section

variable {a b : List (Kind × String)} {reading : Kind × String}

@[simp] theorem allLegible_nil : AllLegible [] := by simp [AllLegible]

@[simp] theorem allLegible_cons :
    AllLegible (reading :: a) ↔ Legible reading ∧ AllLegible a := by simp [AllLegible]

@[simp] theorem allLegible_append : AllLegible (a ++ b) ↔ AllLegible a ∧ AllLegible b :=
  List.forall_mem_append

theorem AllLegible.grouped (h : AllLegible a) (own asked : Power) :
    AllLegible (grouped own asked a) := by
  unfold Pidgin.grouped
  split
  · simp (disch := decide) [h, legible_reading]
  · exact h

theorem AllLegible.commaSeparated {items : List (List (Kind × String))}
    (h : ∀ item ∈ items, AllLegible item) : AllLegible (commaSeparated items) := by
  fun_induction Pidgin.commaSeparated items with
  | case1 => exact allLegible_nil
  | case2 item => exact h item (by simp)
  | case3 item next items ih =>
      rw [List.forall_mem_cons] at h
      simp (disch := decide) [h.1, ih h.2, legible_reading]

end

theorem spelling_ne_of_binary {op : Kind} (h : op ∈ binaryOperators) : op.spelling ≠ "" := by
  revert op
  decide

theorem spelling_ne_of_unary {op : Kind} (h : op ∈ unaryOperators) : op.spelling ≠ "" := by
  revert op
  decide

mutual

theorem Expr.legible : (e : Expr) → e.Every Expr.Proper → e.Every Expr.NotFloat →
    ∀ asked, AllLegible (e.readings asked)
  | .literal value pos, h, hfloat, _ => by simp [Expr.readings, Literal.legible h hfloat]
  | .var name pos, h, _, _ => by simp [Expr.readings, IsName.legible h]
  | .binary op left right pos, ⟨hop, hleft, hright⟩, ⟨_, hleft', hright'⟩, asked => by
      refine AllLegible.grouped ?_ _ _
      simp [left.legible hleft hleft', right.legible hright hright',
        legible_reading (spelling_ne_of_binary hop)]
  | .unary op operand pos, ⟨hop, hoperand⟩, ⟨_, hoperand'⟩, asked => by
      refine AllLegible.grouped ?_ _ _
      simp [operand.legible hoperand hoperand', legible_reading (spelling_ne_of_unary hop)]
  | .call callee args pos, ⟨_, hcallee, hargs⟩, ⟨_, hcallee', hargs'⟩, asked => by
      refine AllLegible.grouped ?_ _ _
      have hitems := AllLegible.commaSeparated (Expr.legible_all args hargs hargs')
      simp (disch := decide) [callee.legible hcallee hcallee', hitems, legible_reading]
  | .index object place pos, ⟨_, hobject, hplace⟩, ⟨_, hobject', hplace'⟩, asked => by
      refine AllLegible.grouped ?_ _ _
      simp (disch := decide) [object.legible hobject hobject', place.legible hplace hplace',
        legible_reading]
  | .array elements pos, ⟨_, helements⟩, ⟨_, helements'⟩, _ => by
      have hitems := AllLegible.commaSeparated (Expr.legible_all elements helements helements')
      simp (disch := decide) [Expr.readings, hitems, legible_reading]
  | .assign name value pos, ⟨hname, hvalue⟩, ⟨_, hvalue'⟩, asked => by
      refine AllLegible.grouped ?_ _ _
      simp (disch := decide) [IsName.legible hname, value.legible hvalue hvalue', legible_reading]

theorem Expr.legible_all : (es : List Expr) → Expr.EveryOf Expr.Proper es →
    Expr.EveryOf Expr.NotFloat es → ∀ item ∈ Expr.readingsAll es, AllLegible item
  | [], _, _ => by simp [Expr.readingsAll]
  | e :: es, ⟨he, hes⟩, ⟨he', hes'⟩ => by
      rw [Expr.readingsAll, List.forall_mem_cons]
      exact ⟨e.legible he he' .assignment, Expr.legible_all es hes hes'⟩

end

theorem legible_annotation {type? : Option String} (h : ∀ type ∈ type?, type ∈ typeNames) :
    AllLegible (annotationReadings type?) := by
  cases type? with
  | none => simp [annotationReadings]
  | some type =>
      simp (disch := decide) [annotationReadings, legible_reading, legible_typeName (h type rfl)]

theorem legible_initializer {init? : Option Expr} (h : ∀ e ∈ init?, e.Every Expr.Proper)
    (hfloat : ∀ e ∈ init?, e.Every Expr.NotFloat) : AllLegible (initializerReadings init?) := by
  cases init? with
  | none => simp [initializerReadings]
  | some e =>
      simp (disch := decide) [initializerReadings, legible_reading,
        e.legible (h e rfl) (hfloat e rfl)]

theorem legible_parameters {params : List Param} (h : ∀ param ∈ params, param.Proper) :
    AllLegible (commaSeparated (params.map Param.readings)) := by
  refine AllLegible.commaSeparated ?_
  rw [List.forall_mem_map]
  intro param hparam
  simp (disch := decide) [Param.readings, legible_reading, (h param hparam).1.legible,
    legible_typeName (h param hparam).2]

mutual

theorem Stmt.legible : (s : Stmt) → s.Every Expr.Proper Stmt.Proper →
    s.Every Expr.NotFloat (fun _ => True) → AllLegible s.readings
  | .expr value pos, ⟨_, hvalue⟩, ⟨_, hvalue'⟩ => by
      simp (disch := decide) [Stmt.readings, value.legible hvalue hvalue', legible_reading]
  | .varDecl name type? init? pos, ⟨hnode, hinit⟩, ⟨_, hinit'⟩ => by
      simp (disch := decide) [Stmt.readings, legible_reading, hnode.1.legible,
        legible_annotation hnode.2, legible_initializer hinit hinit']
  | .fnDecl name params returns? body bodyPos pos, ⟨hnode, hbody⟩, ⟨_, hbody'⟩ => by
      simp (disch := decide) [Stmt.readings, legible_reading, hnode.1.legible,
        legible_parameters hnode.2.1, legible_annotation hnode.2.2,
        Stmt.legible_all body hbody hbody']
  | .ifElse cond body else? pos, ⟨_, hcond, hbody, helse⟩, ⟨_, hcond', hbody', helse'⟩ => by
      simp (disch := decide) [Stmt.readings, legible_reading, cond.legible hcond hcond',
        body.legible hbody hbody', Stmt.legible_else else? helse helse']
  | .whileLoop cond body pos, ⟨_, hcond, hbody⟩, ⟨_, hcond', hbody'⟩ => by
      simp (disch := decide) [Stmt.readings, legible_reading, cond.legible hcond hcond',
        body.legible hbody hbody']
  | .ret none pos, _, _ => by simp (disch := decide) [Stmt.readings, legible_reading]
  | .ret (some value) pos, ⟨_, hvalue⟩, ⟨_, hvalue'⟩ => by
      simp (disch := decide) [Stmt.readings, legible_reading,
        value.legible (hvalue value rfl) (hvalue' value rfl)]
  | .block body pos, ⟨_, hbody⟩, ⟨_, hbody'⟩ => by
      simp (disch := decide) [Stmt.readings, legible_reading, Stmt.legible_all body hbody hbody']

theorem Stmt.legible_else : (else? : Option Stmt) → Stmt.EveryElse Expr.Proper Stmt.Proper else? →
    Stmt.EveryElse Expr.NotFloat (fun _ => True) else? → AllLegible (Stmt.readingsElse else?)
  | none, _, _ => by simp [Stmt.readingsElse]
  | some s, h, hfloat => by
      simp (disch := decide) [Stmt.readingsElse, legible_reading, s.legible h hfloat]

theorem Stmt.legible_all : (ss : List Stmt) → Stmt.EveryOf Expr.Proper Stmt.Proper ss →
    Stmt.EveryOf Expr.NotFloat (fun _ => True) ss → AllLegible (Stmt.readingsAll ss)
  | [], _, _ => by simp [Stmt.readingsAll]
  | s :: ss, ⟨hs, hss⟩, ⟨hs', hss'⟩ => by
      simp [Stmt.readingsAll, s.legible hs hs', Stmt.legible_all ss hss hss']

end

end Pidgin
