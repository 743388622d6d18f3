import Pidgin.Proofs.Parse.Clean

/-!
# Room for nesting

A reader that nests is given room for so many levels.  `Needs` says how many a
phrase takes: with that much room or more it is read, with less the parser
reports that it ran out, and this is the first thing it reports.  Where readers
follow one another, the one that needs more decides.
-/

namespace Pidgin

open Grammar

namespace Parser

/-- Since `p`, the first thing reported is that there is no room. -/
def RanOut (p q : Parser) : Prop :=
  q.mode = .panicking ∧ ∃ pos, q.errors = p.errors ++ [⟨.tooDeep p.limit, pos, p.file⟩]

theorem RanOut.reaches {p q r : Parser} (h : p.RanOut q) (hreach : q.Reaches r) :
    p.RanOut r := by
  obtain ⟨hmode, pos, herrors⟩ := h
  obtain ⟨hmode', herrors'⟩ := hreach.of_panicking hmode
  exact ⟨hmode', pos, herrors'.trans herrors⟩

end Parser

namespace Parse

variable {α β : Type}

def RunsOut (m : Parse α) (ahead : List Token) : Prop :=
  ∀ p : Parser, p.ahead = ahead → p.mode = .normal → p.RanOut (parserOf (m p))

theorem runsOut_tooDeep (ahead : List Token) : RunsOut (tooDeep : Parse α) ahead := by
  intro p _ hmode
  rw [tooDeep_eq, fail_eq]
  refine ⟨Parser.mode_record .., p.current.pos, ?_⟩
  simp [parserOf, Parser.record, hmode, Parser.diagnose]

theorem RunsOut.bind {m : Parse α} {f : α → Parse β} {ahead : List Token}
    (hm : RunsOut m ahead) (hf : ∀ a, Steady (f a)) : RunsOut (m >>= f) ahead := by
  intro p hp hmode
  have hout := hm p hp hmode
  cases h : m p with
  | ok a q =>
      rw [h] at hout
      rw [bind_of_ok h]
      exact hout.reaches (hf a q).reaches
  | error d q =>
      rw [h] at hout
      rw [bind_of_error h]
      exact hout

theorem Takes.bind_runsOut {m : Parse α} {f : α → Parse β} {u v : List Token} {a : α}
    (hm : Takes m u v a) (hf : RunsOut (f a) v) : RunsOut (m >>= f) (u ++ v) := by
  intro p hp hmode
  rw [bind_of_ok (hm p hp)]
  exact hf _ (Parser.ahead_read ..) hmode

/--
In front of `w`, with `rest` behind it, the reader steps over `w` and yields `a` if it has
room for `depth` levels, and runs out of room if it has not.
-/
structure Needs (m : Nat → Parse α) (depth : Nat) (w rest : List Token) (a : α) : Prop where
  takes : ∀ room, depth ≤ room → Takes (m room) w rest a
  runsOut : ∀ room, room < depth → RunsOut (m room) (w ++ rest)

namespace Needs

variable {m : Nat → Parse α} {f : Nat → α → Parse β} {j k : Nat} {u v w rest : List Token}
  {a : α} {b : β}

theorem of_takes (h : ∀ room, Takes (m room) w rest a) : Needs m 0 w rest a :=
  ⟨fun room _ => h room, nofun⟩

theorem bind (v : List Token) (hm : Needs m j u (v ++ rest) a)
    (hf : Needs (f · a) k v rest b) (hsteady : ∀ room a, Steady (f room a))
    (hw : w = u ++ v) : Needs (fun room => m room >>= f room) (max j k) w rest b := by
  constructor
  · intro room hroom
    exact .bind v (hm.takes room (by omega)) (hf.takes room (by omega)) hw
  · intro room hroom
    rw [hw, List.append_assoc]
    by_cases hj : room < j
    · exact (hm.runsOut room hj).bind (hsteady room)
    · exact (hm.takes room (by omega)).bind_runsOut (hf.runsOut room (by omega))

theorem after {m : Parse α} (v : List Token) (hm : Takes m u (v ++ rest) a)
    (hf : Needs (f · a) k v rest b) (hw : w = u ++ v) :
    Needs (fun room => m >>= f room) k w rest b := by
  constructor
  · intro room hroom
    exact .bind v hm (hf.takes room hroom) hw
  · intro room hroom
    rw [hw, List.append_assoc]
    exact hm.bind_runsOut (hf.runsOut room hroom)

theorem before (v : List Token) (hm : Needs m k u (v ++ rest) a)
    (hf : ∀ room, Takes (f room a) v rest b) (hsteady : ∀ room a, Steady (f room a))
    (hw : w = u ++ v) : Needs (fun room => m room >>= f room) k w rest b := by
  constructor
  · intro room hroom
    exact .bind v (hm.takes room hroom) (hf room) hw
  · intro room hroom
    rw [hw, List.append_assoc]
    exact (hm.runsOut room hroom).bind (hsteady room)

theorem bind_pure (hm : Needs m k w rest a) (g : α → β) :
    Needs (fun room => m room >>= fun a => pure (g a)) k w rest (g a) :=
  hm.before [] (fun _ => takes_pure (g a) rest) (fun _ a => steady_pure (g a))
    (List.append_nil w).symm

theorem map (hm : Needs m k w rest a) (g : α → β) :
    Needs (fun room => g <$> m room) k w rest (g a) := by
  simp only [← bind_pure_comp]
  exact hm.bind_pure g

theorem nested (hm : Needs m k w rest a) :
    Needs (fun room => Parse.nested room m) (k + 1) w rest a := by
  constructor
  · intro room hroom
    cases room with
    | zero => omega
    | succ room => exact hm.takes room (by omega)
  · intro room hroom
    cases room with
    | zero => exact runsOut_tooDeep _
    | succ room => exact hm.runsOut room (by omega)

theorem congr {m' : Nat → Parse α} (hm : Needs m k w rest a)
    (heq : ∀ room p, p.ahead = w ++ rest → m' room p = m room p) :
    Needs m' k w rest a := by
  constructor
  · intro room hroom p hp
    rw [heq room p hp]
    exact hm.takes room hroom p hp
  · intro room hroom p hp hmode
    rw [heq room p hp]
    exact hm.runsOut room hroom p hp hmode

theorem bounded {loop : Nat → Nat → Parse α}
    (h : ∀ rounds, w.length ≤ rounds → Needs (loop · rounds) k w rest a) :
    Needs (fun room => Parse.bounded (loop room)) k w rest a := by
  have hrounds {p : Parser} (hp : p.ahead = w ++ rest) : w.length ≤ p.ahead.length := by
    simp [hp]
  constructor
  · intro room hroom p hp
    exact (h _ (hrounds hp)).takes room hroom p hp
  · intro room hroom p hp hmode
    exact (h _ (hrounds hp)).runsOut room hroom p hp hmode

end Needs

end Parse

end Pidgin
