import Mathlib.Data.List.DropRight
import Pidgin.Source.Cursor
import Pidgin.Source.Lines

/-!
# Places in a source text

The place behind a part of a text that has been read is told by that part alone:
its line is one more than the line feeds in it, its column one more than the
characters behind the last of them.  A cursor that starts at the front of a text
and reads on, in whatever steps, keeps in step with this.
-/

namespace Pidgin

def lastLine (text : List Char) : List Char := text.rtakeWhile (· ≠ '\n')

@[simp] theorem lastLine_concat (text : List Char) (c : Char) :
    lastLine (text ++ [c]) = if c = '\n' then [] else lastLine text ++ [c] := by
  by_cases h : c = '\n' <;> simp [lastLine, h]

theorem lastLine_append_newline (first text : List Char) :
    lastLine (first ++ '\n' :: text) = lastLine text := by
  induction text using List.reverseRecOn with
  | nil => simp [lastLine]
  | append_singleton text c ih =>
      rw [← List.cons_append, ← List.append_assoc, lastLine_concat, lastLine_concat, ih]

theorem lastLine_eq_self {text : List Char} (h : '\n' ∉ text) : lastLine text = text := by
  rw [lastLine, List.rtakeWhile_eq_self_iff]
  intro c hc
  simpa using ne_of_mem_of_not_mem hc h

theorem length_lastLine_le (text : List Char) : (lastLine text).length ≤ text.length :=
  (List.rtakeWhile_suffix _ _).length_le

namespace Position

/-- The place behind a text that starts at the start. -/
def behind (text : List Char) : Position := ⟨1 + text.count '\n', 1 + (lastLine text).length⟩

/-- Thirty-two bits hold the line and the column. -/
def Fits (pos : Position) : Prop := pos.line < 4294967296 ∧ pos.column < 4294967296

theorem behind_concat (text : List Char) (c : Char) :
    behind (text ++ [c]) = (behind text).after c := by
  by_cases h : c = '\n' <;> simp [behind, after, h] <;> omega

theorem afterAll_behind (first text : List Char) :
    (behind first).afterAll text = behind (first ++ text) := by
  induction text generalizing first with
  | nil => simp
  | cons c text ih => simp [← behind_concat, ih]

theorem fits_behind {text : List Char} (h : text.length < 4294967295) : (behind text).Fits := by
  have hline : text.count '\n' ≤ text.length := List.count_le_length
  have hcolumn := length_lastLine_le text
  simp only [Fits, behind]
  omega

/-! ## The order of positions -/

variable {a b c : Position}

theorem lt_iff : a < b ↔ a.line < b.line ∨ a.line = b.line ∧ a.column < b.column := by
  change (compare a.line b.line).then (compare a.column b.column) = .lt ↔ _
  rw [Ordering.then_eq_lt, Nat.compare_eq_lt, Nat.compare_eq_eq, Nat.compare_eq_lt]

theorem lt_trans (hab : a < b) (hbc : b < c) : a < c := by
  rw [lt_iff] at *
  omega

theorem lt_after (pos : Position) (c : Char) : pos < pos.after c := by
  rw [lt_iff, after]
  split <;> simp

theorem lt_afterAll (pos : Position) {text : List Char} (h : text ≠ []) :
    pos < pos.afterAll text := by
  induction text generalizing pos with
  | nil => contradiction
  | cons c text ih =>
      rw [afterAll_cons]
      cases text with
      | nil => exact pos.lt_after c
      | cons d text => exact lt_trans (pos.lt_after c) (ih _ (by simp))

theorem behind_lt_behind (first : List Char) {text : List Char} (h : text ≠ []) :
    behind first < behind (first ++ text) := by
  rw [← afterAll_behind]
  exact lt_afterAll _ h

end Position

/-! ## The line of a place -/

theorem dropReturn_append (first : List Char) {second : List Char} (h : second ≠ []) :
    dropReturn (first ++ second) = first ++ dropReturn second := by
  simp [dropReturn, List.getLast?_append_of_ne_nil first h, List.dropLast_append_of_ne_nil h,
    apply_ite (first ++ ·)]

theorem lineOf?_behind (pre rest : List Char) :
    lineOf? (pre ++ rest) (Position.behind pre).line =
      some (dropReturn (lastLine pre ++ rest.takeWhile (· ≠ '\n'))) := by
  -- Each line feed in `pre` takes one line off the front.
  induction hcount : pre.count '\n' generalizing pre with
  | zero =>
      have hnone : '\n' ∉ pre := List.count_eq_zero.1 hcount
      have hall : ∀ c ∈ pre, decide (c ≠ '\n') = true := by
        intro c hc
        simpa using ne_of_mem_of_not_mem hc hnone
      rw [Position.behind, hcount, lastLine_eq_self hnone, lineOf?,
        List.takeWhile_append_of_pos hall]
  | succ n ih =>
      have hmem : '\n' ∈ pre := List.count_pos_iff.1 (by omega)
      obtain ⟨first, more, rfl, hfirst⟩ := List.eq_append_cons_of_mem hmem
      have hall : ∀ c ∈ first, decide (c ≠ '\n') = true := by
        intro c hc
        simpa using ne_of_mem_of_not_mem hc hfirst
      have hmore : more.count '\n' = n := by
        simpa [List.count_eq_zero.2 hfirst] using hcount
      have hline := ih more hmore
      rw [Position.behind, hmore, Nat.add_comm 1 n] at hline
      rw [Position.behind, hcount, lastLine_append_newline, List.append_assoc, Nat.add_comm,
        lineOf?, List.dropWhile_append_of_pos hall]
      exact hline

theorem getElem?_line_cons (pre : List Char) {c : Char} (more : List Char) (h : c ≠ '\n') :
    let text := dropReturn (lastLine pre ++ (c :: more).takeWhile (· ≠ '\n'))
    text[(lastLine pre).length]? = some c ∨ c = '\r' ∧ text.length = (lastLine pre).length := by
  have htake : (c :: more).takeWhile (· ≠ '\n') = c :: more.takeWhile (· ≠ '\n') := by simp [h]
  rw [htake, dropReturn_append _ (by simp)]
  cases more.takeWhile (· ≠ '\n') with
  | nil => by_cases hreturn : c = '\r' <;> simp [dropReturn, hreturn]
  | cons e tail =>
      left
      rw [← List.singleton_append, dropReturn_append _ (by simp)]
      simp

/-- At the end of a text the place is one past its line, or two if the line lost a return. -/
theorem length_line_nil (pre : List Char) :
    let text := dropReturn (lastLine pre)
    text.length = (lastLine pre).length ∨
      pre.getLast? = some '\r' ∧ text.length + 1 = (lastLine pre).length := by
  by_cases hreturn : (lastLine pre).getLast? = some '\r'
  · right
    have hsome : lastLine pre ≠ [] := by
      rintro h
      simp [h] at hreturn
    have hlength := List.length_pos_iff.2 hsome
    refine ⟨?_, ?_⟩
    · obtain ⟨before, hbefore⟩ : lastLine pre <:+ pre := List.rtakeWhile_suffix _ pre
      calc pre.getLast? = (before ++ lastLine pre).getLast? := by rw [hbefore]
        _ = some '\r' := by rw [List.getLast?_append_of_ne_nil _ hsome, hreturn]
    · simp only [dropReturn, hreturn, if_true, List.length_dropLast]
      omega
  · left
    simp [dropReturn, hreturn]

end Pidgin
