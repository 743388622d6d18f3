import Pidgin.Proofs.Parse.Mirror
import Pidgin.Proofs.Token.Tiling

/-!
# Kinds and texts are all that counts

Parsers whose tokens agree in kind and text are twins, wherever these tokens
stand and whatever file they come from.  They recover at the same places, so they
stay twins over a whole run: the programs are equal up to positions, and so are
the faults that are found.
-/

namespace Pidgin

open Grammar Parse

structure Parser.Alike (p q : Parser) : Prop where
  behind : p.behind.map Token.reading = q.behind.map Token.reading
  ahead : p.ahead.map Token.reading = q.ahead.map Token.reading
  limit : p.limit = q.limit
  mode : p.mode = q.mode
  causes : p.errors.map Diagnostic.cause = q.errors.map Diagnostic.cause

theorem Token.seen_of_reading {token token' : Token} (h : token.reading = token'.reading) :
    token.seen (fun _ => .start) = token'.seen fun _ => .start := by
  obtain ⟨hkind, htext⟩ := Prod.ext_iff.1 h
  dsimp only [Token.reading] at hkind htext
  simp only [Token.seen, Token.describe, hkind, htext]

namespace Parser

variable {p q : Parser}

namespace Alike

theorem atEnd_eq (h : p.Alike q) : p.atEnd = q.atEnd := by
  simpa [atEnd] using congrArg List.isEmpty h.ahead

theorem seen_current (h : p.Alike q) :
    p.current.seen (fun _ => .start) = q.current.seen fun _ => .start := by
  have hahead := h.ahead
  unfold current
  cases hp : p.ahead <;> cases hq : q.ahead <;> rw [hp, hq] at hahead
  · simp [Token.seen, Token.describe, p.stop_eof, q.stop_eof]
  · simp at hahead
  · simp at hahead
  · exact Token.seen_of_reading (List.cons.inj hahead).1

theorem shift (h : p.Alike q) : p.shift.Alike q.shift := by
  have hahead := h.ahead
  cases hp : p.ahead <;> cases hq : q.ahead <;> rw [hp, hq] at hahead
  · simpa [Parser.shift, hp, hq] using h
  · simp at hahead
  · simp at hahead
  · rename_i token rest token' rest'
    rw [List.map_cons, List.map_cons, List.cons.injEq] at hahead
    simp only [Parser.shift, hp, hq]
    exact ⟨by simp [hahead.1, h.behind], hahead.2, h.limit, h.mode, h.causes⟩

theorem record (h : p.Alike q) {d e : Diagnostic} (hcause : d.cause = e.cause) :
    (p.record d).Alike (q.record e) := by
  have hmode := h.mode
  unfold Parser.record
  cases hp : p.mode <;> cases hq : q.mode <;> rw [hp, hq] at hmode
  · exact ⟨h.behind, h.ahead, h.limit, rfl, by simp [h.causes, hcause]⟩
  · cases hmode
  · cases hmode
  · exact h

theorem twins : Twins (fun _ => .start) 0 Alike where
  cursor_eq h := by simpa [cursor] using congrArg List.length h.behind
  seen_current := seen_current
  atEnd_eq := atEnd_eq
  limit_eq h := h.limit
  shift := shift
  record h hseen := h.record (cause_diagnose hseen _ _ _)

end Alike

/-! ## Recovery -/

theorem seek_alike {behind behind' ahead ahead' : List Token}
    (hbehind : behind.map Token.reading = behind'.map Token.reading)
    (hahead : ahead.map Token.reading = ahead'.map Token.reading) :
    (seek behind ahead).1.map Token.reading = (seek behind' ahead').1.map Token.reading ∧
      (seek behind ahead).2.map Token.reading = (seek behind' ahead').2.map Token.reading := by
  induction ahead generalizing behind behind' ahead' with
  | nil =>
      cases ahead' with
      | nil => exact ⟨hbehind, rfl⟩
      | cons token' ahead' => simp at hahead
  | cons token ahead ih =>
      cases ahead' with
      | nil => simp at hahead
      | cons token' ahead' =>
          rw [List.map_cons, List.map_cons, List.cons.injEq] at hahead
          have hkind : token.kind = token'.kind := congrArg Prod.fst hahead.1
          have hlast : behind.head?.map Token.kind = behind'.head?.map Token.kind := by
            simpa [Token.reading, Option.map_map, Function.comp_def] using
              congrArg (fun readings => readings.head?.map Prod.fst) hbehind
          rw [seek, seek, hkind, hlast]
          split
          · exact ⟨hbehind, by simp [hahead]⟩
          · exact ih (by simp [hahead.1, hbehind]) hahead.2

theorem Alike.recover (h : p.Alike q) : p.recover.Alike q.recover := by
  have hmode := h.mode
  unfold Parser.recover
  cases hp : p.mode <;> cases hq : q.mode <;> rw [hp, hq] at hmode
  · exact h
  · cases hmode
  · cases hmode
  · obtain ⟨hbehind, hahead⟩ := seek_alike h.behind h.ahead
    exact ⟨hbehind, hahead, h.limit, rfl, h.causes⟩

/-! ## Whole runs -/

theorem Alike.declarations (h : p.Alike q) (room rounds : Nat) :
    (p.declarations (declaration room) rounds).1.map Stmt.erase =
        (q.declarations (declaration room) rounds).1.map Stmt.erase ∧
      (p.declarations (declaration room) rounds).2.Alike
        (q.declarations (declaration room) rounds).2 := by
  have hround {p q : Parser} (h : p.Alike q) (_ : q.atEnd = false) :
      (p.round (declaration room)).2.Alike (q.round (declaration room)).2 := by
    rw [round_eq, round_eq]
    exact (Alike.twins.turn room h).2.recover
  simpa only [funext Stmt.relocate_start] using Alike.twins.declarations hround rounds h

theorem alike_ofTokens {tokens tokens' : List Token}
    (h : (words tokens).map Token.reading = (words tokens').map Token.reading)
    (file file' : String) (limit : Nat) :
    (ofTokens tokens file limit).Alike (ofTokens tokens' file' limit) :=
  ⟨rfl, h, rfl, rfl, rfl⟩

end Parser

/--
Tokens that agree in kind and text up to the first end mark, comments left out, are read the
same: either as programs that are equal up to positions, or with the same faults in the same
order.
-/
theorem parse_of_readings (tokens tokens' : List Token) (file file' : String) (limit : Nat)
    (h : (words tokens).map Token.reading = (words tokens').map Token.reading) :
    (∃ program program', parse tokens file limit = .ok program ∧
      parse tokens' file' limit = .ok program' ∧ program.erase = program'.erase) ∨
    (∃ errors errors', parse tokens file limit = .error errors ∧
      parse tokens' file' limit = .error errors' ∧
      errors.map Diagnostic.cause = errors'.map Diagnostic.cause) := by
  have hlength : (words tokens).length = (words tokens').length := by
    simpa using congrArg List.length h
  obtain ⟨hitems, hlast⟩ := (Parser.alike_ofTokens h file file' limit).declarations limit
    (words tokens).length
  rw [parse_eq, parse_eq, ← hlength]
  dsimp only
  have hnone := congrArg List.isEmpty hlast.causes
  rw [List.isEmpty_map, List.isEmpty_map] at hnone
  simp only [← List.isEmpty_iff, hnone]
  split
  · refine .inl ⟨_, _, rfl, rfl, ?_⟩
    simpa [Program.erase, Stmt.eraseAll_eq_map] using hitems
  · exact .inr ⟨_, _, rfl, rfl, hlast.causes⟩

/-- A comment in the middle and tokens behind the end mark change neither of two faults. -/
theorem parse_of_readings_commented :
    let tokens : List Token :=
      [(.abeg, "abeg"), (.integer, "1"), (.semicolon, ";"), (.comot, "comot"), (.rparen, ")"),
        (.semicolon, ";")].map fun (kind, text) => ⟨kind, text, .start, ⟨"main", "."⟩⟩
    let tokens' : List Token :=
      [(.abeg, "abeg"), (.integer, "1"), (.comment, "# no name"), (.semicolon, ";"),
        (.comot, "comot"), (.rparen, ")"), (.semicolon, ";"), (.eof, ""), (.abi, "abi")].map
          fun (kind, text) => ⟨kind, text, ⟨3, 7⟩, ⟨"other", "lib"⟩⟩
    (words tokens).map Token.reading = (words tokens').map Token.reading ∧
      ∃ errors errors', parse tokens "main" 8 = .error errors ∧
        parse tokens' "other" 8 = .error errors' ∧ errors.length = 2 ∧
        errors.map Diagnostic.cause = errors'.map Diagnostic.cause := by
  intro tokens tokens'
  have h : (words tokens).map Token.reading = (words tokens').map Token.reading := by decide
  obtain ⟨d, d', htwo⟩ : ∃ d d', parse tokens "main" 8 = .error [d, d'] := ⟨_, _, rfl⟩
  refine ⟨h, ?_⟩
  rcases parse_of_readings tokens tokens' "main" "other" 8 h with
    ⟨program, program', hok, -⟩ | ⟨errors, errors', herror, herror', hcauses⟩
  · rw [htwo] at hok
    cases hok
  · refine ⟨errors, errors', herror, herror', ?_, hcauses⟩
    rw [htwo] at herror
    cases herror
    rfl

end Pidgin
