import Pidgin.Proofs.Grammar.RoundTrip
import Pidgin.Proofs.Tree.Label

/-!
# A dump identifies its tree

Two accepted programs with the same dump are equal up to positions.  The first
line of a node tells which node it is, and so what the next lines are: a fixed
label, a number of nodes that was announced, or a part that may be missing.  Such
a part stands deeper than everything that can follow the node, so its absence
shows.
-/

namespace Pidgin

/-! ## Every line has a label -/

theorem isLabel_counted {label last : String} (hlabel : IsLabel label) (count : Nat)
    (hlast : '\n' ∉ last.toList) : IsLabel (label ++ toString count ++ last) :=
  (hlabel.append (newline_notMem_repr count)).append hlast

theorem Param.isLabel {param : Param} (h : param.Proper) : IsLabel param.label := by
  obtain ⟨c, hc, hstarts⟩ := h.1.starts
  have hname : IsLabel param.name := by
    refine ⟨⟨c, hc, ?_⟩, h.1.newline_notMem⟩
    rintro rfl
    exact absurd hstarts (by decide)
  exact (hname.append (by decide)).append (newline_notMem_typeName h.2)

theorem Expr.isLabel_of_tail {e : Expr} (h : e.Clear) (level : Nat)
    (htail : ∀ line ∈ (e.dump level).tail, IsLabel line.label) :
    ∀ line ∈ e.dump level, IsLabel line.label := by
  rw [List.eq_cons_of_mem_head? (e.head?_dump level), List.forall_mem_cons]
  exact ⟨isLabel h, htail⟩

theorem Stmt.isLabel_of_tail {s : Stmt} (h : s.Proper) (level : Nat)
    (htail : ∀ line ∈ (s.dump level).tail, IsLabel line.label) :
    ∀ line ∈ s.dump level, IsLabel line.label := by
  rw [List.eq_cons_of_mem_head? (s.head?_dump level), List.forall_mem_cons]
  exact ⟨isLabel h, htail⟩

mutual

theorem Expr.isLabel_dump : (e : Expr) → e.Every Clear → ∀ level, ∀ line ∈ e.dump level,
    IsLabel line.label
  | .literal value pos, h, level => isLabel_of_tail h level (by simp [dump])
  | .var name pos, h, level => isLabel_of_tail h level (by simp [dump])
  | .binary op left right pos, h, level => by
      refine isLabel_of_tail h.1 level ?_
      simp only [dump, List.tail_cons, List.forall_mem_append]
      exact ⟨left.isLabel_dump h.2.1 _, right.isLabel_dump h.2.2 _⟩
  | .unary op operand pos, h, level =>
      isLabel_of_tail h.1 level (operand.isLabel_dump h.2 _)
  | .call callee args pos, h, level => by
      refine isLabel_of_tail h.1 level ?_
      simp only [dump, List.tail_cons, List.forall_mem_cons, List.forall_mem_append]
      exact ⟨⟨by simp, by simp⟩, callee.isLabel_dump h.2.1 _,
        isLabel_counted ⟨by simp, by simp⟩ _ (by decide), isLabel_dumpAll args h.2.2 _⟩
  | .index object place pos, h, level => by
      refine isLabel_of_tail h.1 level ?_
      simp only [dump, List.tail_cons, List.forall_mem_cons, List.forall_mem_append]
      exact ⟨⟨by simp, by simp⟩, object.isLabel_dump h.2.1 _, ⟨by simp, by simp⟩,
        place.isLabel_dump h.2.2 _⟩
  | .array elements pos, h, level =>
      isLabel_of_tail h.1 level (isLabel_dumpAll elements h.2 _)
  | .assign name value pos, h, level =>
      isLabel_of_tail h.1 level (value.isLabel_dump h.2 _)

theorem Expr.isLabel_dumpAll : (es : List Expr) → EveryOf Clear es → ∀ level,
    ∀ line ∈ dumpAll level es, IsLabel line.label
  | [], _, _ => nofun
  | e :: es, h, level => by
      simp only [dumpAll, List.forall_mem_append]
      exact ⟨e.isLabel_dump h.1 level, isLabel_dumpAll es h.2 level⟩

end

mutual

theorem Stmt.isLabel_dump : (s : Stmt) → s.Every Expr.Clear Proper → ∀ level,
    ∀ line ∈ s.dump level, IsLabel line.label
  | .expr value pos, h, level =>
      isLabel_of_tail h.1 level (value.isLabel_dump h.2 _)
  | .varDecl name type? init? pos, h, level => by
      refine isLabel_of_tail h.1 level ?_
      cases init? with
      | none => simp [dump]
      | some init =>
          simp only [dump, List.tail_cons, List.forall_mem_cons]
          exact ⟨⟨by simp, by simp⟩, init.isLabel_dump (h.2 init rfl) _⟩
  | .fnDecl name params returns? body bodyPos pos, h, level => by
      refine isLabel_of_tail h.1 level ?_
      have hreturns : ∀ type ∈ returns?, IsLabel ("Returns: " ++ type) := fun type htype =>
        .append ⟨by simp, by simp⟩ (newline_notMem_typeName (h.1.2.2 type htype))
      have hbody := isLabel_dumpAll body h.2 (level + 3)
      have hparams : ∀ param ∈ params, IsLabel param.label := fun param hparam =>
        Param.isLabel (h.1.2.1 param hparam)
      simp only [dump, List.tail_cons, List.forall_mem_cons, List.forall_mem_append,
        List.forall_mem_map]
      refine ⟨isLabel_counted ⟨by simp, by simp⟩ _ (by decide), ⟨hparams, ?_⟩, ⟨by simp, by simp⟩,
        isLabel_counted ⟨by simp, by simp⟩ _ (by decide), hbody⟩
      cases returns? with
      | none => simp
      | some type => simpa using hreturns
  | .ifElse cond body else? pos, h, level => by
      refine isLabel_of_tail h.1 level ?_
      simp only [dump, List.tail_cons, List.forall_mem_cons, List.forall_mem_append]
      exact ⟨⟨by simp, by simp⟩, cond.isLabel_dump h.2.1 _, ⟨by simp, by simp⟩,
        body.isLabel_dump h.2.2.1 _, isLabel_dumpElse else? h.2.2.2 _⟩
  | .whileLoop cond body pos, h, level => by
      refine isLabel_of_tail h.1 level ?_
      simp only [dump, List.tail_cons, List.forall_mem_cons, List.forall_mem_append]
      exact ⟨⟨by simp, by simp⟩, cond.isLabel_dump h.2.1 _, ⟨by simp, by simp⟩,
        body.isLabel_dump h.2.2 _⟩
  | .ret value? pos, h, level => by
      refine isLabel_of_tail h.1 level ?_
      cases value? with
      | none => simp [dump]
      | some value => exact value.isLabel_dump (h.2 value rfl) _
  | .block body pos, h, level => isLabel_of_tail h.1 level (isLabel_dumpAll body h.2 _)

theorem Stmt.isLabel_dumpElse : (else? : Option Stmt) → EveryElse Expr.Clear Proper else? →
    ∀ level, ∀ line ∈ dumpElse level else?, IsLabel line.label
  | none, _, _ => nofun
  | some s, h, level => by
      simp only [dumpElse, List.forall_mem_cons]
      exact ⟨⟨by simp, by simp⟩, s.isLabel_dump h _⟩

theorem Stmt.isLabel_dumpAll : (ss : List Stmt) → EveryOf Expr.Clear Proper ss → ∀ level,
    ∀ line ∈ dumpAll level ss, IsLabel line.label
  | [], _, _ => nofun
  | s :: ss, h, level => by
      simp only [dumpAll, List.forall_mem_append]
      exact ⟨s.isLabel_dump h.1 level, isLabel_dumpAll ss h.2 level⟩

end

/-! ## Expressions -/

theorem counted_inj {label last : String} {count count' : Nat}
    (heq : label ++ toString count ++ last = label ++ toString count' ++ last) :
    count = count' := by
  simpa [Numeral.repr_inj] using heq

theorem Expr.sameHead_of_dump {e e' : Expr} {level : Nat} {rest rest' : List DumpLine}
    (h : e.Every Clear) (h' : e'.Every Clear)
    (heq : e.dump level ++ rest = e'.dump level ++ rest') : SameHead e e' := by
  have hhead := congrArg List.head? heq
  rw [List.head?_append, List.head?_append, e.head?_dump, e'.head?_dump] at hhead
  exact sameHead h.here h'.here (by simpa using hhead)

mutual

theorem Expr.dump_inj : (e : Expr) → {e' : Expr} → {level : Nat} → {rest rest' : List DumpLine} →
    e.Every Clear → e'.Every Clear → e.dump level ++ rest = e'.dump level ++ rest' →
      e.erase = e'.erase ∧ rest = rest'
  | .literal value pos, _, _, _, _, h, h', heq => by
      cases sameHead_of_dump h h' heq
      simpa [dump, erase] using heq
  | .var name pos, _, _, _, _, h, h', heq => by
      cases sameHead_of_dump h h' heq
      simpa [dump, erase] using heq
  | .binary op left right pos, _, _, _, _, h, h', heq => by
      cases sameHead_of_dump h h' heq
      simp only [dump, List.cons_append, List.append_assoc, List.cons.injEq, true_and] at heq
      obtain ⟨hleft, heq⟩ := left.dump_inj h.2.1 h'.2.1 heq
      obtain ⟨hright, heq⟩ := right.dump_inj h.2.2 h'.2.2 heq
      exact ⟨by rw [erase, erase, hleft, hright], heq⟩
  | .unary op operand pos, _, _, _, _, h, h', heq => by
      cases sameHead_of_dump h h' heq
      simp only [dump, List.cons_append, List.cons.injEq, true_and] at heq
      obtain ⟨hoperand, heq⟩ := operand.dump_inj h.2 h'.2 heq
      exact ⟨by rw [erase, erase, hoperand], heq⟩
  | .call callee args pos, _, _, _, _, h, h', heq => by
      cases sameHead_of_dump h h' heq
      simp only [dump, List.cons_append, List.append_assoc, List.cons.injEq, true_and] at heq
      obtain ⟨hcallee, heq⟩ := callee.dump_inj h.2.1 h'.2.1 heq
      obtain ⟨hcount, heq⟩ := List.cons.inj heq
      have hlength := counted_inj (DumpLine.mk.inj hcount).2
      obtain ⟨hargs, heq⟩ := dumpAll_inj args h.2.2 h'.2.2 hlength heq
      exact ⟨by rw [erase, erase, hcallee, hargs], heq⟩
  | .index object place pos, _, _, _, _, h, h', heq => by
      cases sameHead_of_dump h h' heq
      simp only [dump, List.cons_append, List.append_assoc, List.cons.injEq, true_and] at heq
      obtain ⟨hobject, heq⟩ := object.dump_inj h.2.1 h'.2.1 heq
      simp only [List.cons.injEq, true_and] at heq
      obtain ⟨hplace, heq⟩ := place.dump_inj h.2.2 h'.2.2 heq
      exact ⟨by rw [erase, erase, hobject, hplace], heq⟩
  | .array elements pos, _, _, _, _, h, h', heq => by
      cases sameHead_of_dump h h' heq with
      | array hlength =>
          simp only [dump, List.cons_append, List.cons.injEq, hlength, true_and] at heq
          obtain ⟨helements, heq⟩ := dumpAll_inj elements h.2 h'.2 hlength heq
          exact ⟨by rw [erase, erase, helements], heq⟩
  | .assign name value pos, _, _, _, _, h, h', heq => by
      cases sameHead_of_dump h h' heq
      simp only [dump, List.cons_append, List.cons.injEq, true_and] at heq
      obtain ⟨hvalue, heq⟩ := value.dump_inj h.2 h'.2 heq
      exact ⟨by rw [erase, erase, hvalue], heq⟩

theorem Expr.dumpAll_inj : (es : List Expr) → {es' : List Expr} → {level : Nat} →
    {rest rest' : List DumpLine} → EveryOf Clear es → EveryOf Clear es' → es.length = es'.length →
      dumpAll level es ++ rest = dumpAll level es' ++ rest' →
        eraseAll es = eraseAll es' ∧ rest = rest'
  | [], [], _, _, _, _, _, _, heq => ⟨rfl, heq⟩
  | e :: es, e' :: es', _, _, _, h, h', hlength, heq => by
      simp only [dumpAll, List.append_assoc] at heq
      obtain ⟨hfirst, heq⟩ := e.dump_inj h.1 h'.1 heq
      obtain ⟨hmore, heq⟩ := dumpAll_inj es h.2 h'.2 (Nat.succ.inj hlength) heq
      exact ⟨by rw [eraseAll, eraseAll, hfirst, hmore], heq⟩

end

/-! ## Parts that may be missing -/

def Shallow (level : Nat) (rest : List DumpLine) : Prop :=
  ∀ line ∈ rest.head?, line.level ≤ level

theorem shallow_nil (level : Nat) : Shallow level [] := nofun

theorem shallow_cons {level : Nat} {line : DumpLine} (h : line.level ≤ level)
    (rest : List DumpLine) : Shallow level (line :: rest) := by
  rintro _ ⟨⟩
  exact h

theorem Shallow.mono {level level' : Nat} {rest : List DumpLine} (h : Shallow level rest)
    (hle : level ≤ level') : Shallow level' rest :=
  fun line hline => Nat.le_trans (h line hline) hle

section

variable {α β : Type} {part : α → List DumpLine} {view : α → β} {level : Nat}
  {rest rest' : List DumpLine}

/-- A part that stands deeper than all that can follow is seen to be missing. -/
theorem optional_inj {a? a?' : Option α}
    (hdeep : ∀ a, ∃ line ∈ (part a).head?, level < line.level) (hrest : Shallow level rest)
    (hrest' : Shallow level rest')
    (hpart : ∀ a ∈ a?, ∀ a' ∈ a?', part a ++ rest = part a' ++ rest' →
      view a = view a' ∧ rest = rest')
    (heq : a?.elim [] part ++ rest = a?'.elim [] part ++ rest') :
    a?.map view = a?'.map view ∧ rest = rest' := by
  have habsent {rest rest' : List DumpLine} (hrest : Shallow level rest) (a : α)
      (heq : rest = part a ++ rest') : False := by
    obtain ⟨line, hline, hlevel⟩ := hdeep a
    have hhead : line ∈ rest.head? := by
      rw [heq, List.head?_append, Option.mem_def.1 hline]
      rfl
    exact absurd (hrest line hhead) (Nat.not_le_of_lt hlevel)
  cases a? with
  | none =>
      cases a?' with
      | none => exact ⟨rfl, heq⟩
      | some a' => exact (habsent hrest a' heq).elim
  | some a =>
      cases a?' with
      | none => exact (habsent hrest' a heq.symm).elim
      | some a' =>
          obtain ⟨hview, hsame⟩ := hpart a rfl a' rfl heq
          exact ⟨congrArg some hview, hsame⟩

end

/-! ## Functions -/

theorem Param.labels_inj {level : Nat} {params params' : List Param}
    (h : ∀ param ∈ params, param.Proper) (h' : ∀ param ∈ params', param.Proper)
    (heq : params.map (fun param => DumpLine.mk level param.label) =
      params'.map fun param => DumpLine.mk level param.label) : params = params' := by
  induction params generalizing params' with
  | nil => exact (List.map_eq_nil_iff.1 heq.symm).symm
  | cons param params ih =>
      obtain ⟨param', more', rfl, hfirst, hmore⟩ := List.map_eq_cons_iff.1 heq.symm
      rw [List.forall_mem_cons] at h h'
      rw [Param.label_inj h.1 h'.1 (DumpLine.mk.inj hfirst).2.symm, ih h.2 h'.2 hmore.symm]

theorem returns_inj {level : Nat} {returns? returns?' : Option String} {rest rest' : List DumpLine}
    (heq : returns?.elim [] (fun type => [⟨level, "Returns: " ++ type⟩]) ++
        ⟨level, "Body:"⟩ :: rest =
      returns?'.elim [] (fun type => [⟨level, "Returns: " ++ type⟩]) ++
        ⟨level, "Body:"⟩ :: rest') : returns? = returns?' ∧ rest = rest' := by
  have hother (type : String) : "Body:" ≠ "Returns: " ++ type := by
    simp [← String.toList_inj]
  cases returns? <;> cases returns?' <;> simp_all [eq_comm]

/-! ## Statements -/

namespace Stmt

theorem dump_varDecl (level : Nat) (name : String) (type? : Option String) (init? : Option Expr)
    (pos : Position) :
    dump level (.varDecl name type? init? pos) = ⟨level, varDeclLabel name type?⟩ ::
      init?.elim [] fun init => ⟨level + 1, "Initializer:"⟩ :: init.dump (level + 2) := by
  cases init? <;> rfl

theorem dump_fnDecl (level : Nat) (name : String) (params : List Param) (returns? : Option String)
    (body : List Stmt) (bodyPos pos : Position) :
    dump level (.fnDecl name params returns? body bodyPos pos) =
      ⟨level, "FunctionDecl(" ++ name ++ ")"⟩ ::
        ⟨level + 1, "Params(" ++ toString params.length ++ "):"⟩ ::
          (params.map (fun param => ⟨level + 2, param.label⟩) ++
            (returns?.elim [] (fun type => [⟨level + 1, "Returns: " ++ type⟩]) ++
              ⟨level + 1, "Body:"⟩ :: ⟨level + 2, blockLabel body.length⟩ ::
                dumpAll (level + 3) body)) := by
  cases returns? <;> simp [dump]

theorem dump_ret (level : Nat) (value? : Option Expr) (pos : Position) :
    dump level (.ret value? pos) =
      ⟨level, "ReturnStmt"⟩ :: value?.elim [] fun value => value.dump (level + 1) := by
  cases value? <;> rfl

theorem dumpElse_eq (level : Nat) (else? : Option Stmt) :
    dumpElse level else? = else?.elim [] fun s => ⟨level + 1, "Else:"⟩ :: s.dump (level + 2) := by
  cases else? <;> rfl

theorem eraseElse_eq_map (else? : Option Stmt) : eraseElse else? = else?.map erase := by
  cases else? <;> rfl

theorem sameHead_of_dump {s s' : Stmt} {level : Nat} {rest rest' : List DumpLine}
    (h : s.Every Expr.Clear Proper) (h' : s'.Every Expr.Clear Proper)
    (heq : s.dump level ++ rest = s'.dump level ++ rest') : SameHead s s' := by
  have hhead := congrArg List.head? heq
  rw [List.head?_append, List.head?_append, s.head?_dump, s'.head?_dump] at hhead
  exact sameHead h.here h'.here (by simpa using hhead)

theorem shallow_dumpAll (level : Nat) (ss : List Stmt) {rest : List DumpLine}
    (hrest : Shallow level rest) : Shallow level (dumpAll level ss ++ rest) := by
  cases ss with
  | nil => exact hrest
  | cons s ss =>
      intro line hline
      simp only [dumpAll, List.append_assoc, List.head?_append, s.head?_dump] at hline
      cases hline
      exact Nat.le_refl level

theorem shallow_dumpElse (level : Nat) (else? : Option Stmt) {rest : List DumpLine}
    (hrest : Shallow level rest) : Shallow (level + 1) (dumpElse level else? ++ rest) := by
  cases else? with
  | none => exact hrest.mono (Nat.le_succ level)
  | some s => exact shallow_cons (Nat.le_refl _) _

mutual

theorem dump_inj : (s : Stmt) → {s' : Stmt} → {level : Nat} → {rest rest' : List DumpLine} →
    s.Every Expr.Clear Proper → s'.Every Expr.Clear Proper → Shallow level rest →
      Shallow level rest' → s.dump level ++ rest = s'.dump level ++ rest' →
        s.erase = s'.erase ∧ rest = rest'
  | .expr value pos, _, _, _, _, h, h', _, _, heq => by
      cases sameHead_of_dump h h' heq
      simp only [dump, List.cons_append, List.cons.injEq, true_and] at heq
      obtain ⟨hvalue, heq⟩ := value.dump_inj h.2 h'.2 heq
      exact ⟨by rw [erase, erase, hvalue], heq⟩
  | .varDecl name type? init? pos, _, _, _, _, h, h', hrest, hrest', heq => by
      cases sameHead_of_dump h h' heq
      simp only [dump_varDecl, List.cons_append, List.cons.injEq, true_and] at heq
      obtain ⟨hinit, heq⟩ := optional_inj (fun _ => ⟨_, rfl, Nat.lt_succ_self _⟩) hrest hrest'
        (fun init hinit init' hinit' heq =>
          init.dump_inj (h.2 init hinit) (h'.2 init' hinit') (List.cons.inj heq).2) heq
      exact ⟨by rw [erase, erase, hinit], heq⟩
  | .fnDecl name params returns? body bodyPos pos, _, _, _, _, h, h', hrest, hrest', heq => by
      cases sameHead_of_dump h h' heq
      simp only [dump_fnDecl, List.cons_append, List.append_assoc, List.cons.injEq, true_and] at heq
      obtain ⟨hcount, heq⟩ := heq
      have hlength := counted_inj (DumpLine.mk.inj hcount).2
      obtain ⟨hlabels, heq⟩ := List.append_inj heq (by simpa using hlength)
      have hparams := Param.labels_inj h.1.2.1 h'.1.2.1 hlabels
      obtain ⟨hreturns, heq⟩ := returns_inj heq
      obtain ⟨hblock, heq⟩ := List.cons.inj heq
      have hstatements := counted_inj (DumpLine.mk.inj hblock).2
      obtain ⟨hbody, heq⟩ := dumpAll_inj body h.2 h'.2 hstatements
        (hrest.mono (Nat.le_add_right _ 3)) (hrest'.mono (Nat.le_add_right _ 3)) heq
      exact ⟨by rw [erase, erase, hparams, hreturns, hbody], heq⟩
  | .ifElse cond body else? pos, _, _, _, _, h, h', hrest, hrest', heq => by
      cases sameHead_of_dump h h' heq
      simp only [dump, List.cons_append, List.append_assoc, List.cons.injEq, true_and] at heq
      obtain ⟨hcond, heq⟩ := cond.dump_inj h.2.1 h'.2.1 heq
      simp only [List.cons.injEq, true_and] at heq
      obtain ⟨hbody, heq⟩ := body.dump_inj h.2.2.1 h'.2.2.1
        ((shallow_dumpElse _ _ hrest).mono (Nat.le_succ _))
        ((shallow_dumpElse _ _ hrest').mono (Nat.le_succ _)) heq
      obtain ⟨helse, heq⟩ := dumpElse_inj else? h.2.2.2 h'.2.2.2 hrest hrest' heq
      exact ⟨by rw [erase, erase, hcond, hbody, helse], heq⟩
  | .whileLoop cond body pos, _, _, _, _, h, h', hrest, hrest', heq => by
      cases sameHead_of_dump h h' heq
      simp only [dump, List.cons_append, List.append_assoc, List.cons.injEq, true_and] at heq
      obtain ⟨hcond, heq⟩ := cond.dump_inj h.2.1 h'.2.1 heq
      simp only [List.cons.injEq, true_and] at heq
      obtain ⟨hbody, heq⟩ := body.dump_inj h.2.2 h'.2.2
        (hrest.mono (Nat.le_add_right _ 2)) (hrest'.mono (Nat.le_add_right _ 2)) heq
      exact ⟨by rw [erase, erase, hcond, hbody], heq⟩
  | .ret value? pos, _, _, _, _, h, h', hrest, hrest', heq => by
      cases sameHead_of_dump h h' heq
      simp only [dump_ret, List.cons_append, List.cons.injEq, true_and] at heq
      obtain ⟨hvalue, heq⟩ := optional_inj
        (fun value => ⟨_, value.head?_dump _, Nat.lt_succ_self _⟩) hrest hrest'
        (fun value hvalue value' hvalue' heq =>
          value.dump_inj (h.2 value hvalue) (h'.2 value' hvalue') heq) heq
      exact ⟨by rw [erase, erase, hvalue], heq⟩
  | .block body pos, _, _, _, _, h, h', hrest, hrest', heq => by
      cases sameHead_of_dump h h' heq with
      | block hlength =>
          simp only [dump, List.cons_append, List.cons.injEq, hlength, true_and] at heq
          obtain ⟨hbody, heq⟩ := dumpAll_inj body h.2 h'.2 hlength
            (hrest.mono (Nat.le_succ _)) (hrest'.mono (Nat.le_succ _)) heq
          exact ⟨by rw [erase, erase, hbody], heq⟩

theorem dumpElse_inj : (else? : Option Stmt) → {else?' : Option Stmt} → {level : Nat} →
    {rest rest' : List DumpLine} → EveryElse Expr.Clear Proper else? →
      EveryElse Expr.Clear Proper else?' → Shallow level rest → Shallow level rest' →
        dumpElse level else? ++ rest = dumpElse level else?' ++ rest' →
          eraseElse else? = eraseElse else?' ∧ rest = rest'
  | none, _, _, _, _, _, _, hrest, hrest', heq => by
      rw [dumpElse_eq, dumpElse_eq] at heq
      rw [eraseElse_eq_map, eraseElse_eq_map]
      exact optional_inj (fun _ => ⟨_, rfl, Nat.lt_succ_self _⟩) hrest hrest' nofun heq
  | some s, _, _, _, _, h, h', hrest, hrest', heq => by
      rw [dumpElse_eq, dumpElse_eq] at heq
      rw [eraseElse_eq_map, eraseElse_eq_map]
      refine optional_inj (fun _ => ⟨_, rfl, Nat.lt_succ_self _⟩) hrest hrest' ?_ heq
      rintro _ ⟨⟩ s' ⟨⟩ heq
      exact s.dump_inj h h' (hrest.mono (Nat.le_add_right _ 2)) (hrest'.mono (Nat.le_add_right _ 2))
        (List.cons.inj heq).2

theorem dumpAll_inj : (ss : List Stmt) → {ss' : List Stmt} → {level : Nat} →
    {rest rest' : List DumpLine} → EveryOf Expr.Clear Proper ss → EveryOf Expr.Clear Proper ss' →
      ss.length = ss'.length → Shallow level rest → Shallow level rest' →
        dumpAll level ss ++ rest = dumpAll level ss' ++ rest' →
          eraseAll ss = eraseAll ss' ∧ rest = rest'
  | [], [], _, _, _, _, _, _, _, _, heq => ⟨rfl, heq⟩
  | s :: ss, s' :: ss', _, _, _, h, h', hlength, hrest, hrest', heq => by
      simp only [dumpAll, List.append_assoc] at heq
      obtain ⟨hfirst, heq⟩ := s.dump_inj h.1 h'.1 (shallow_dumpAll _ _ hrest)
        (shallow_dumpAll _ _ hrest') heq
      obtain ⟨hmore, heq⟩ := dumpAll_inj ss h.2 h'.2 (Nat.succ.inj hlength) hrest hrest' heq
      exact ⟨by rw [eraseAll, eraseAll, hfirst, hmore], heq⟩

end

end Stmt

/-! ## Programs -/

namespace Program

theorem clear {program : Program} (h : program.WellFormed) (hfloat : program.FloatFree)
    (hline : program.OneLine) : Stmt.EveryOf Expr.Clear Stmt.Proper program.statements := by
  have hnodes := Stmt.EveryOf.combine (fun _ hproper hfloat => And.intro hproper hfloat)
    (fun _ hproper _ => hproper) h hfloat
  exact hnodes.combine (fun _ hnode hline => ⟨hnode.1, hnode.2, hline⟩) (fun _ hproper _ => hproper)
    hline

theorem text_inj {program program' : Program}
    (h : Stmt.EveryOf Expr.Clear Stmt.Proper program.statements)
    (h' : Stmt.EveryOf Expr.Clear Stmt.Proper program'.statements)
    (heq : program.text = program'.text) : program.erase = program'.erase := by
  have hlabels {program : Program}
      (h : Stmt.EveryOf Expr.Clear Stmt.Proper program.statements) :
      ∀ line ∈ program.dump, IsLabel line.label :=
    List.forall_mem_cons.2 ⟨isLabel_counted ⟨by simp, by simp⟩ _ (by decide),
      Stmt.isLabel_dumpAll _ h 1⟩
  obtain ⟨hcount, hlines⟩ := List.cons.inj (dumpText_inj (hlabels h) (hlabels h') heq)
  have hlength := counted_inj (DumpLine.mk.inj hcount).2
  have hsame := Stmt.dumpAll_inj _ h h' hlength (shallow_nil 1) (shallow_nil 1)
    (by rw [List.append_nil, List.append_nil, hlines])
  exact congrArg Program.mk hsame.1

end Program

/--
The dump identifies the tree: two programs that are accepted from source texts, without floats
and without line breaks inside of strings, are equal up to positions if their dumps are the
same text.
-/
theorem dump_identifies (source source' : String) (origin origin' : Origin) (file file' : String)
    (limit limit' : Nat) (program program' : Program)
    (h : parse (tokenize source origin).tokens file limit = .ok program)
    (h' : parse (tokenize source' origin').tokens file' limit' = .ok program')
    (hfloat : program.FloatFree) (hfloat' : program'.FloatFree)
    (hline : program.OneLine) (hline' : program'.OneLine)
    (heq : program.text = program'.text) : program.erase = program'.erase :=
  Program.text_inj (Program.clear (wellFormed_of_parse h) hfloat hline)
    (Program.clear (wellFormed_of_parse h') hfloat' hline') heq

/-- Parentheses and leading zeros do not show in a dump, and neither do they in the tree. -/
theorem dump_identifies_call :
    let origin : Origin := ⟨"main", "."⟩
    ∃ program program' : Program,
      parse (tokenize "abeg x: int = f(1);" origin).tokens "main" 8 = .ok program ∧
      parse (tokenize "abeg x :int\n= (f)(01);" origin).tokens "main" 8 = .ok program' ∧
      program.text = program'.text ∧ program ≠ program' ∧ program.erase = program'.erase := by
  intro origin
  let program : Program :=
    ⟨[.varDecl "x" (some "int") (some (.call (.var "f" ⟨1, 15⟩) [.literal (.int 1) ⟨1, 17⟩]
      ⟨1, 16⟩)) ⟨1, 1⟩]⟩
  let program' : Program :=
    ⟨[.varDecl "x" (some "int") (some (.call (.var "f" ⟨2, 4⟩) [.literal (.int 1) ⟨2, 7⟩]
      ⟨2, 6⟩)) ⟨1, 1⟩]⟩
  have htokens : (tokenize "abeg x: int = f(1);" origin).tokens =
      [⟨.abeg, "abeg", ⟨1, 1⟩, origin⟩, ⟨.ident, "x", ⟨1, 6⟩, origin⟩,
        ⟨.colon, ":", ⟨1, 7⟩, origin⟩, ⟨.typeName, "int", ⟨1, 9⟩, origin⟩,
        ⟨.assign, "=", ⟨1, 13⟩, origin⟩, ⟨.ident, "f", ⟨1, 15⟩, origin⟩,
        ⟨.lparen, "(", ⟨1, 16⟩, origin⟩, ⟨.integer, "1", ⟨1, 17⟩, origin⟩,
        ⟨.rparen, ")", ⟨1, 18⟩, origin⟩, ⟨.semicolon, ";", ⟨1, 19⟩, origin⟩,
        ⟨.eof, "", ⟨1, 20⟩, origin⟩] := by decide +kernel
  have htokens' : (tokenize "abeg x :int\n= (f)(01);" origin).tokens =
      [⟨.abeg, "abeg", ⟨1, 1⟩, origin⟩, ⟨.ident, "x", ⟨1, 6⟩, origin⟩,
        ⟨.colon, ":", ⟨1, 8⟩, origin⟩, ⟨.typeName, "int", ⟨1, 9⟩, origin⟩,
        ⟨.assign, "=", ⟨2, 1⟩, origin⟩, ⟨.lparen, "(", ⟨2, 3⟩, origin⟩,
        ⟨.ident, "f", ⟨2, 4⟩, origin⟩, ⟨.rparen, ")", ⟨2, 5⟩, origin⟩,
        ⟨.lparen, "(", ⟨2, 6⟩, origin⟩, ⟨.integer, "01", ⟨2, 7⟩, origin⟩,
        ⟨.rparen, ")", ⟨2, 9⟩, origin⟩, ⟨.semicolon, ";", ⟨2, 10⟩, origin⟩,
        ⟨.eof, "", ⟨2, 11⟩, origin⟩] := by decide +kernel
  have hparse : parse (tokenize "abeg x: int = f(1);" origin).tokens "main" 8 = .ok program := by
    rw [htokens]
    subst program origin
    with_unfolding_all rfl
  have hparse' :
      parse (tokenize "abeg x :int\n= (f)(01);" origin).tokens "main" 8 = .ok program' := by
    rw [htokens']
    subst program' origin
    with_unfolding_all rfl
  have htext : program.text = program'.text := rfl
  refine ⟨program, program', hparse, hparse', htext, by simp [program, program'], ?_⟩
  refine dump_identifies _ _ _ _ _ _ _ _ _ _ hparse hparse' ?_ ?_ ?_ ?_ htext
  all_goals
    simp [program, program', Program.FloatFree, Program.OneLine, Stmt.EveryOf, Stmt.Every,
      Expr.Every, Expr.EveryOf, Expr.NotFloat, Expr.OneLine]

end Pidgin
