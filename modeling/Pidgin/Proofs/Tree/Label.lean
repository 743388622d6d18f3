import Pidgin.Proofs.Token.Tiling
import Pidgin.Proofs.Tree.WellFormed
import Pidgin.Tree.Dump

/-!
# Lines and labels

A dump is a text of lines, and the first line of a node shows the node without
what is below it.  Both can be read off: the line breaks part the lines, the
spaces in front of a label give its level, and a label tells the form of the node
and what it holds, as long as the node is no float and no string with a line break.
-/

namespace Pidgin

open Spelling

theorem Spelling.Maximal.append_inj {belongs : Char → Bool} {run rest run' rest' : List Char}
    (h : Maximal belongs run rest) (h' : Maximal belongs run' rest')
    (heq : run ++ rest = run' ++ rest') : run = run' ∧ rest = rest' := by
  constructor
  · rw [← h.takeWhile_eq, heq, h'.takeWhile_eq]
  · rw [← h.dropWhile_eq, heq, h'.dropWhile_eq]

/-! ## Lines -/

/-- A label does not look like an indent and stays in its line. -/
structure IsLabel (label : String) : Prop where
  starts : ∃ c ∈ label.toList.head?, c ≠ ' '
  oneLine : '\n' ∉ label.toList

theorem IsLabel.append {label more : String} (h : IsLabel label) (hmore : '\n' ∉ more.toList) :
    IsLabel (label ++ more) := by
  obtain ⟨c, hc, hspace⟩ := h.starts
  refine ⟨⟨c, ?_, hspace⟩, ?_⟩
  · rw [String.toList_append, List.head?_append, Option.mem_def.1 hc]
    rfl
  · simpa using ⟨h.oneLine, hmore⟩

theorem DumpLine.toList_text (line : DumpLine) :
    line.text.toList = List.replicate (2 * line.level) ' ' ++ line.label.toList ++ ['\n'] := by
  simp [text]

theorem DumpLine.text_append_inj {line line' : DumpLine} (h : IsLabel line.label)
    (h' : IsLabel line'.label) {rest rest' : List Char}
    (heq : line.text.toList ++ rest = line'.text.toList ++ rest') :
    line = line' ∧ rest = rest' := by
  have hline {line : DumpLine} (h : IsLabel line.label) (rest : List Char) :
      Maximal (· ≠ '\n') (List.replicate (2 * line.level) ' ' ++ line.label.toList)
        ('\n' :: rest) := by
    refine ⟨fun c hc => ?_, by simp⟩
    rcases List.mem_append.1 hc with hspace | hlabel
    · rw [List.eq_of_mem_replicate hspace]
      decide
    · exact decide_eq_true fun heq => h.oneLine (heq ▸ hlabel)
  have hindent {line : DumpLine} (h : IsLabel line.label) :
      Maximal (· = ' ') (List.replicate (2 * line.level) ' ') line.label.toList := by
    obtain ⟨c, hc, hne⟩ := h.starts
    refine ⟨fun c hc => decide_eq_true (List.eq_of_mem_replicate hc), fun d hd => ?_⟩
    rw [Option.mem_unique hd hc]
    exact decide_eq_false hne
  simp only [toList_text, List.append_assoc _ ['\n'], List.singleton_append] at heq
  obtain ⟨hsame, hrest⟩ := (hline h rest).append_inj (hline h' rest') heq
  obtain ⟨hlevel, hlabel⟩ := (hindent h).append_inj (hindent h') hsame
  have hlength : line.level = line'.level := by
    have htwice := congrArg List.length hlevel
    simp only [List.length_replicate] at htwice
    omega
  refine ⟨?_, (List.cons.inj hrest).2⟩
  cases line
  cases line'
  cases hlength
  cases String.toList_inj.1 hlabel
  rfl

theorem dumpText_inj {lines lines' : List DumpLine} (h : ∀ line ∈ lines, IsLabel line.label)
    (h' : ∀ line ∈ lines', IsLabel line.label) (heq : dumpText lines = dumpText lines') :
    lines = lines' := by
  have hchars := congrArg String.toList heq
  simp only [dumpText, String.toList_join, List.flatMap_map] at hchars
  clear heq
  induction lines generalizing lines' with
  | nil =>
      cases lines' with
      | nil => rfl
      | cons line' lines' => simp [DumpLine.toList_text] at hchars
  | cons line lines ih =>
      cases lines' with
      | nil => simp [DumpLine.toList_text] at hchars
      | cons line' lines' =>
          rw [List.forall_mem_cons] at h h'
          rw [List.flatMap_cons, List.flatMap_cons] at hchars
          obtain ⟨rfl, hmore⟩ := DumpLine.text_append_inj h.1 h'.1 hchars
          rw [ih h.2 h'.2 hmore]

/-! ## Numerals and names -/

theorem Numeral.repr_inj {n n' : Nat} : n.repr = n'.repr ↔ n = n' := by
  refine ⟨fun heq => ?_, congrArg Nat.repr⟩
  have hvalue := congrArg (fun text => Nat.ofDigitChars 10 text.toList 0) heq
  simpa only [Nat.toList_repr, Nat.ofDigitChars_ten_toDigits] using hvalue

theorem toList_repr_ne_cons {n : Int} (hn : 0 ≤ n) {c : Char} (hc : c.isDigit = false)
    (rest : List Char) : n.repr.toList ≠ c :: rest := by
  obtain ⟨k, rfl⟩ := Int.eq_ofNat_of_zero_le hn
  change k.repr.toList ≠ c :: rest
  intro heq
  have hmem : c ∈ Nat.toDigits 10 k := by simp [← Nat.toList_repr, heq]
  have hdigit := Nat.isDigit_of_mem_toDigits (by decide) (by decide) hmem
  rw [hc] at hdigit
  cases hdigit

theorem newline_notMem_repr (n : Nat) : '\n' ∉ n.repr.toList := by
  intro hc
  rw [Nat.toList_repr] at hc
  exact absurd (Nat.isDigit_of_mem_toDigits (by decide) (by decide) hc) (by decide)

theorem IsName.append_inj {name name' : String} (h : IsName name) (h' : IsName name')
    {rest rest' : List Char} (hrest : ∀ c ∈ rest.head?, isWordPart c = false)
    (hrest' : ∀ c ∈ rest'.head?, isWordPart c = false)
    (heq : name.toList ++ rest = name'.toList ++ rest') : name = name' ∧ rest = rest' := by
  have hmaximal : Maximal isWordPart name.toList rest := ⟨h.parts, hrest⟩
  have hmaximal' : Maximal isWordPart name'.toList rest' := ⟨h'.parts, hrest'⟩
  exact (hmaximal.append_inj hmaximal' heq).imp_left String.toList_inj.1

theorem IsName.newline_notMem {name : String} (h : IsName name) : '\n' ∉ name.toList :=
  fun hc => absurd (h.parts _ hc) (by decide)

theorem newline_notMem_typeName {type : String} (h : type ∈ typeNames) : '\n' ∉ type.toList := by
  have hall : ∀ type ∈ typeNames, '\n' ∉ type.toList := by decide
  exact hall type h

theorem Param.label_inj {param param' : Param} (h : param.Proper) (h' : param'.Proper)
    (heq : param.label = param'.label) : param = param' := by
  have hchars := congrArg String.toList heq
  simp only [label, String.toList_append, List.append_assoc] at hchars
  obtain ⟨hname, htype⟩ := h.1.append_inj h'.1 (by simp; decide) (by simp; decide) hchars
  cases param
  cases param'
  simp_all [String.toList_inj]

/-! ## Expressions -/

def Expr.OneLine (e : Expr) : Prop :=
  ∀ value pos, e = .literal (.string value) pos → '\n' ∉ value.toList

def Program.OneLine (program : Program) : Prop :=
  Stmt.EveryOf Expr.OneLine (fun _ => True) program.statements

structure Expr.Clear (e : Expr) : Prop where
  proper : e.Proper
  notFloat : e.NotFloat
  oneLine : e.OneLine

theorem Literal.label_inj {value value' : Literal} {pos pos' : Position}
    (h : (Expr.literal value pos).Clear) (h' : (Expr.literal value' pos').Clear)
    (heq : value.label = value'.label) : value = value' := by
  have hchars := congrArg String.toList heq
  cases value with
  | float x => exact absurd rfl (h.notFloat x pos)
  | int n =>
      -- The label of an integer starts with a digit, which no other label does.
      have hdigit {c : Char} (hc : c.isDigit = false) := toList_repr_ne_cons h.proper.1 hc
      cases value' with
      | float x => exact absurd rfl (h'.notFloat x pos')
      | int n' =>
          obtain ⟨k, rfl⟩ := Int.eq_ofNat_of_zero_le h.proper.1
          obtain ⟨k', rfl⟩ := Int.eq_ofNat_of_zero_le h'.proper.1
          rw [Numeral.repr_inj.1 heq]
      | string text => exact absurd (by simpa [label] using hchars) (hdigit (by decide) _)
      | bool b =>
          cases b <;> exact absurd (by simpa [label] using hchars) (hdigit (by decide) _)
  | string text =>
      cases value' with
      | float x => exact absurd rfl (h'.notFloat x pos')
      | int n' =>
          exact absurd (by simpa [label] using hchars.symm)
            (toList_repr_ne_cons h'.proper.1 (by decide) _)
      | string text' => simpa [label, String.toList_inj] using hchars
      | bool b => cases b <;> simp [label] at hchars
  | bool b =>
      cases value' with
      | float x => exact absurd rfl (h'.notFloat x pos')
      | int n' =>
          cases b <;> exact absurd (by simpa [label] using hchars.symm)
            (toList_repr_ne_cons h'.proper.1 (by decide) _)
      | string text => cases b <;> simp [label] at hchars
      | bool b' => cases b <;> cases b' <;> simp_all [label]

theorem Literal.newline_notMem_label {value : Literal} {pos : Position}
    (h : (Expr.literal value pos).Clear) : '\n' ∉ value.label.toList := by
  cases value with
  | float x => exact absurd rfl (h.notFloat x pos)
  | int n =>
      obtain ⟨k, rfl⟩ := Int.eq_ofNat_of_zero_le h.proper.1
      exact newline_notMem_repr k
  | string text => simpa [label] using h.oneLine text pos rfl
  | bool b => cases b <;> decide

namespace Expr

def tag : Expr → String
  | .literal _ _ => "Literal"
  | .var _ _ => "Variable"
  | .binary _ _ _ _ => "Binary"
  | .unary _ _ _ => "Unary"
  | .call _ _ _ => "Call"
  | .index _ _ _ => "Index"
  | .array _ _ => "Array"
  | .assign _ _ _ => "Assign"

def argument : Expr → String
  | .literal value _ => "(" ++ value.label ++ ")"
  | .var name _ | .assign name _ _ => "(" ++ name ++ ")"
  | .binary op _ _ _ | .unary op _ _ => "(" ++ op.symbol ++ ")"
  | .call _ _ _ | .index _ _ _ => ""
  | .array elements _ => "(" ++ toString elements.length ++ " elements)"

theorem binary_symbol_inj : ∀ op ∈ binaryOperators, ∀ op' ∈ binaryOperators,
    op.symbol = op'.symbol → op = op' := by decide

theorem unary_symbol_inj : ∀ op ∈ unaryOperators, ∀ op' ∈ unaryOperators,
    op.symbol = op'.symbol → op = op' := by decide

theorem newline_notMem_symbol (op : Kind) : '\n' ∉ op.symbol.toList := by
  cases op <;> decide

theorem head?_dump (e : Expr) (level : Nat) :
    (e.dump level).head? = some ⟨level, e.tag ++ e.argument⟩ := by
  cases e <;> simp [dump, tag, argument, ← String.toList_inj]

theorem maximal_tag (e : Expr) : Maximal (· ≠ '(') e.tag.toList e.argument.toList := by
  cases e <;> constructor <;> simp [tag, argument]

inductive SameHead : Expr → Expr → Prop where
  | literal {value : Literal} {pos pos' : Position} :
      SameHead (.literal value pos) (.literal value pos')
  | var {name : String} {pos pos' : Position} : SameHead (.var name pos) (.var name pos')
  | binary {op : Kind} {left right left' right' : Expr} {pos pos' : Position} :
      SameHead (.binary op left right pos) (.binary op left' right' pos')
  | unary {op : Kind} {operand operand' : Expr} {pos pos' : Position} :
      SameHead (.unary op operand pos) (.unary op operand' pos')
  | call {callee callee' : Expr} {args args' : List Expr} {pos pos' : Position} :
      SameHead (.call callee args pos) (.call callee' args' pos')
  | index {object place object' place' : Expr} {pos pos' : Position} :
      SameHead (.index object place pos) (.index object' place' pos')
  | array {elements elements' : List Expr} {pos pos' : Position}
      (h : elements.length = elements'.length) :
      SameHead (.array elements pos) (.array elements' pos')
  | assign {name : String} {value value' : Expr} {pos pos' : Position} :
      SameHead (.assign name value pos) (.assign name value' pos')

theorem sameHead {e e' : Expr} (h : e.Clear) (h' : e'.Clear)
    (heq : e.tag ++ e.argument = e'.tag ++ e'.argument) : SameHead e e' := by
  have hchars := congrArg String.toList heq
  rw [String.toList_append, String.toList_append] at hchars
  obtain ⟨htag, hargument⟩ := e.maximal_tag.append_inj e'.maximal_tag hchars
  cases e with
  | literal value pos =>
      cases e' with
      | literal value' pos' =>
          have hlabel : value.label = value'.label := by
            simpa [argument, String.toList_inj] using hargument
          obtain rfl := Literal.label_inj h h' hlabel
          exact .literal
      | _ => simp [tag] at htag
  | var name pos =>
      cases e' with
      | var name' pos' =>
          obtain rfl : name = name' := by simpa [argument, String.toList_inj] using hargument
          exact .var
      | _ => simp [tag] at htag
  | binary op left right pos =>
      cases e' with
      | binary op' left' right' pos' =>
          have hsymbol : op.symbol = op'.symbol := by
            simpa [argument, String.toList_inj] using hargument
          obtain rfl := binary_symbol_inj op h.proper op' h'.proper hsymbol
          exact .binary
      | _ => simp [tag] at htag
  | unary op operand pos =>
      cases e' with
      | unary op' operand' pos' =>
          have hsymbol : op.symbol = op'.symbol := by
            simpa [argument, String.toList_inj] using hargument
          obtain rfl := unary_symbol_inj op h.proper op' h'.proper hsymbol
          exact .unary
      | _ => simp [tag] at htag
  | call callee args pos =>
      cases e' with
      | call => exact .call
      | _ => simp [tag] at htag
  | index object place pos =>
      cases e' with
      | index => exact .index
      | _ => simp [tag] at htag
  | array elements pos =>
      cases e' with
      | array elements' pos' =>
          have hcount : elements.length = elements'.length := by
            simpa [argument, -Nat.toList_repr, String.toList_inj, Numeral.repr_inj] using hargument
          exact .array hcount
      | _ => simp [tag] at htag
  | assign name value pos =>
      cases e' with
      | assign name' value' pos' =>
          obtain rfl : name = name' := by simpa [argument, String.toList_inj] using hargument
          exact .assign
      | _ => simp [tag] at htag

theorem isLabel {e : Expr} (h : e.Clear) : IsLabel (e.tag ++ e.argument) := by
  refine ⟨by cases e <;> simp [tag], ?_⟩
  cases e with
  | literal value pos => simpa [tag, argument] using Literal.newline_notMem_label h
  | var name pos => simpa [tag, argument] using IsName.newline_notMem h.proper
  | binary op left right pos => simpa [tag, argument] using newline_notMem_symbol op
  | unary op operand pos => simpa [tag, argument] using newline_notMem_symbol op
  | call callee args pos => simp [tag, argument]
  | index object place pos => simp [tag, argument]
  | array elements pos => simpa [tag, argument] using newline_notMem_repr elements.length
  | assign name value pos => simpa [tag, argument] using IsName.newline_notMem h.proper

end Expr

/-! ## Statements -/

def typeLabel : Option String → String
  | none => ""
  | some type => ": " ++ type

theorem typeLabel_inj {type? type?' : Option String} (heq : typeLabel type? = typeLabel type?') :
    type? = type?' := by
  cases type? <;> cases type?' <;> simp_all [typeLabel, ← String.toList_inj]

theorem isWordPart_head?_typeLabel (type? : Option String) :
    ∀ c ∈ (typeLabel type?).toList.head?, isWordPart c = false := by
  cases type? with
  | none => simp [typeLabel]
  | some type => simp [typeLabel]; decide

theorem newline_notMem_typeLabel {type? : Option String} (h : ∀ type ∈ type?, type ∈ typeNames) :
    '\n' ∉ (typeLabel type?).toList := by
  cases type? with
  | none => simp [typeLabel]
  | some type => simpa [typeLabel] using newline_notMem_typeName (h type rfl)

namespace Stmt

def tag : Stmt → String
  | .expr _ _ => "ExprStmt"
  | .varDecl _ _ _ _ => "VarDecl"
  | .fnDecl _ _ _ _ _ _ => "FunctionDecl"
  | .ifElse _ _ _ _ => "IfStmt"
  | .whileLoop _ _ _ => "WhileStmt"
  | .ret _ _ => "ReturnStmt"
  | .block _ _ => "Block"

def argument : Stmt → String
  | .varDecl name type? _ _ => "(" ++ name ++ typeLabel type? ++ ")"
  | .fnDecl name _ _ _ _ _ => "(" ++ name ++ ")"
  | .block body _ => "(" ++ toString body.length ++ " statements)"
  | .expr _ _ | .ifElse _ _ _ _ | .whileLoop _ _ _ | .ret _ _ => ""

theorem head?_dump (s : Stmt) (level : Nat) :
    (s.dump level).head? = some ⟨level, s.tag ++ s.argument⟩ := by
  cases s with
  | varDecl name type? init? pos =>
      cases type? <;>
        simp [dump, tag, argument, varDeclLabel, typeLabel, ← String.toList_inj]
  | block body pos => simp [dump, tag, argument, blockLabel, ← String.toList_inj]
  | _ => simp [dump, tag, argument, ← String.toList_inj]

theorem maximal_tag (s : Stmt) : Maximal (· ≠ '(') s.tag.toList s.argument.toList := by
  cases s <;> constructor <;> simp [tag, argument]

inductive SameHead : Stmt → Stmt → Prop where
  | expr {value value' : Expr} {pos pos' : Position} :
      SameHead (.expr value pos) (.expr value' pos')
  | varDecl {name : String} {type? : Option String} {init? init?' : Option Expr}
      {pos pos' : Position} :
      SameHead (.varDecl name type? init? pos) (.varDecl name type? init?' pos')
  | fnDecl {name : String} {params params' : List Param} {returns? returns?' : Option String}
      {body body' : List Stmt} {bodyPos bodyPos' pos pos' : Position} :
      SameHead (.fnDecl name params returns? body bodyPos pos)
        (.fnDecl name params' returns?' body' bodyPos' pos')
  | ifElse {cond cond' : Expr} {body body' : Stmt} {else? else?' : Option Stmt}
      {pos pos' : Position} :
      SameHead (.ifElse cond body else? pos) (.ifElse cond' body' else?' pos')
  | whileLoop {cond cond' : Expr} {body body' : Stmt} {pos pos' : Position} :
      SameHead (.whileLoop cond body pos) (.whileLoop cond' body' pos')
  | ret {value? value?' : Option Expr} {pos pos' : Position} :
      SameHead (.ret value? pos) (.ret value?' pos')
  | block {body body' : List Stmt} {pos pos' : Position} (h : body.length = body'.length) :
      SameHead (.block body pos) (.block body' pos')

theorem sameHead {s s' : Stmt} (h : s.Proper) (h' : s'.Proper)
    (heq : s.tag ++ s.argument = s'.tag ++ s'.argument) : SameHead s s' := by
  have hchars := congrArg String.toList heq
  rw [String.toList_append, String.toList_append] at hchars
  obtain ⟨htag, hargument⟩ := s.maximal_tag.append_inj s'.maximal_tag hchars
  cases s with
  | expr value pos =>
      cases s' with
      | expr => exact .expr
      | _ => simp [tag] at htag
  | varDecl name type? init? pos =>
      cases s' with
      | varDecl name' type?' init?' pos' =>
          have hshown : name.toList ++ (typeLabel type?).toList =
              name'.toList ++ (typeLabel type?').toList := by
            simpa [argument, ← List.append_assoc] using hargument
          obtain ⟨rfl, htype⟩ := h.1.append_inj h'.1 (isWordPart_head?_typeLabel _)
            (isWordPart_head?_typeLabel _) hshown
          obtain rfl := typeLabel_inj (String.toList_inj.1 htype)
          exact .varDecl
      | _ => simp [tag] at htag
  | fnDecl name params returns? body bodyPos pos =>
      cases s' with
      | fnDecl name' params' returns?' body' bodyPos' pos' =>
          obtain rfl : name = name' := by simpa [argument, String.toList_inj] using hargument
          exact .fnDecl
      | _ => simp [tag] at htag
  | ifElse cond body else? pos =>
      cases s' with
      | ifElse => exact .ifElse
      | _ => simp [tag] at htag
  | whileLoop cond body pos =>
      cases s' with
      | whileLoop => exact .whileLoop
      | _ => simp [tag] at htag
  | ret value? pos =>
      cases s' with
      | ret => exact .ret
      | _ => simp [tag] at htag
  | block body pos =>
      cases s' with
      | block body' pos' =>
          have hcount : body.length = body'.length := by
            simpa [argument, -Nat.toList_repr, String.toList_inj, Numeral.repr_inj] using hargument
          exact .block hcount
      | _ => simp [tag] at htag

theorem isLabel {s : Stmt} (h : s.Proper) : IsLabel (s.tag ++ s.argument) := by
  refine ⟨by cases s <;> simp [tag], ?_⟩
  cases s with
  | varDecl name type? init? pos =>
      simpa [tag, argument] using ⟨h.1.newline_notMem, newline_notMem_typeLabel h.2⟩
  | fnDecl name params returns? body bodyPos pos =>
      simpa [tag, argument] using h.1.newline_notMem
  | block body pos => simpa [tag, argument] using newline_notMem_repr body.length
  | _ => simp [tag, argument]

end Stmt

end Pidgin
