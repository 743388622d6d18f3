import Mathlib.Data.List.TakeWhile
import Pidgin.Proofs.Token.Spelling
import Pidgin.Token.Tokenize

/-!
# Tokens tile the text

The scanner decides by the first character what it reads.  For each form, what
it reads is a spelling, and a spelling is read whole; the two together make the
tokens of a text those of its only tiling.
-/

namespace Pidgin

open Spelling

namespace Spelling

variable {belongs : Char → Bool} {run rest : List Char}

theorem exists_maximal (belongs : Char → Bool) (text : List Char) :
    ∃ run rest, text = run ++ rest ∧ Maximal belongs run rest := by
  refine ⟨_, _, List.takeWhile_append_dropWhile.symm, fun c => List.mem_takeWhile_imp, ?_⟩
  intro c hc
  have hnot := List.head?_dropWhile_not belongs text
  rw [Option.mem_def] at hc
  simpa [hc] using hnot

theorem Maximal.cons {c : Char} (h : Maximal belongs run rest) (hc : belongs c = true) :
    Maximal belongs (c :: run) rest :=
  ⟨List.forall_mem_cons.2 ⟨hc, h.inside⟩, h.stops⟩

theorem Maximal.tail {c : Char} (h : Maximal belongs (c :: run) rest) :
    Maximal belongs run rest :=
  ⟨(List.forall_mem_cons.1 h.inside).2, h.stops⟩

theorem Maximal.takeWhile_eq (h : Maximal belongs run rest) :
    (run ++ rest).takeWhile belongs = run := by
  rw [List.takeWhile_append_of_pos h.inside]
  cases rest with
  | nil => simp
  | cons c rest => simp [h.stops c rfl]

theorem Maximal.dropWhile_eq (h : Maximal belongs run rest) :
    (run ++ rest).dropWhile belongs = rest := by
  rw [List.dropWhile_append_of_pos h.inside]
  cases rest with
  | nil => simp
  | cons c rest => simp [h.stops c rfl]

end Spelling

namespace Lexeme

variable {c : Char} {kind : Kind} {rest : List Char}

/-! ## What the first character decides -/

theorem single?_eq_some_iff : single? c = some kind ↔ (c, kind) ∈ marks := by
  constructor
  · intro h
    unfold single? at h
    split at h <;> cases h <;> decide
  · intro h
    have hmarks : ∀ mark ∈ marks, single? mark.1 = some mark.2 := by decide
    exact hmarks (c, kind) h

theorem scan_mark (h : (c, kind) ∈ marks) : scan c rest = plain kind [c] := by
  rw [scan, single?_eq_some_iff.2 h]

theorem scan_pairable {alone paired : Kind} (h : (c, alone, paired) ∈ pairable) :
    scan c rest = withEquals c alone paired rest := by
  simp only [pairable, List.mem_cons, Prod.mk.injEq, List.not_mem_nil, or_false] at h
  rcases h with ⟨rfl, rfl, rfl⟩ | ⟨rfl, rfl, rfl⟩ <;> rfl

theorem scan_quote (h : c = '"' ∨ c = '\'') : scan c rest = string c rest := by
  rcases h with rfl | rfl <;> rfl

theorem scan_of_not_sign (h : c ∉ signs) :
    scan c rest =
      if c.isDigit then number c rest
      else if isWordStart c then word c rest
      else plain .illegal [c] := by
  have hsingle : single? c = none := by
    cases hsingle : single? c with
    | none => rfl
    | some kind =>
        have hmark := List.mem_map_of_mem (f := Prod.fst) (single?_eq_some_iff.1 hsingle)
        exact absurd (List.mem_append_left _ (List.mem_append_left _ hmark)) h
  rw [scan, hsingle]
  have hne : ∀ d ∈ signs, c ≠ d := by
    rintro d hd rfl
    exact h hd
  have hquotes : ¬(c = '"' ∨ c = '\'') := by
    rintro (rfl | rfl) <;> exact h (by decide)
  simp only [hne '=' (by decide), hne '!' (by decide), hne '/' (by decide), hquotes, if_false]

theorem not_sign_of_digit (h : c.isDigit = true) : c ∉ signs := by
  have hsigns : signs.all (!·.isDigit) = true := by decide
  intro hc
  simpa [h] using List.all_eq_true.1 hsigns c hc

theorem not_sign_of_wordStart (h : isWordStart c = true) : c ∉ signs := by
  have hsigns : signs.all (!isWordStart ·) = true := by decide
  intro hc
  simpa [h] using List.all_eq_true.1 hsigns c hc

theorem le_toNat_of_isAlpha (h : c.isAlpha = true) : 'A'.toNat ≤ c.toNat := by
  change (decide ('A'.val ≤ c.val ∧ c.val ≤ 'Z'.val) ||
    (decide ('a'.val ≤ c.val) && decide (c.val ≤ 'z'.val))) = true at h
  simp only [Bool.or_eq_true, Bool.and_eq_true, decide_eq_true_eq,
    UInt32.le_iff_toNat_le] at h
  rcases h with hupper | hlower
  · exact hupper.1
  · exact Nat.le_trans (by decide) hlower.1

theorem isDigit_of_wordStart (h : isWordStart c = true) : c.isDigit = false := by
  rw [isWordStart, Bool.or_eq_true, decide_eq_true_eq] at h
  rcases h with halpha | rfl
  · cases hdigit : c.isDigit with
    | false => rfl
    | true =>
        have hnine := (Char.isDigit_iff_toNat.1 hdigit).2
        exact absurd (Nat.le_trans (le_toNat_of_isAlpha halpha) hnine) (by decide)
  · rfl

theorem isWordPart_of_wordStart (h : isWordStart c = true) : isWordPart c = true := by
  rw [isWordStart, Bool.or_eq_true] at h
  rw [isWordPart, Char.isAlphanum, Bool.or_eq_true, Bool.or_eq_true]
  exact h.imp_left .inl

theorem scan_digit (h : c.isDigit = true) : scan c rest = number c rest := by
  rw [scan_of_not_sign (not_sign_of_digit h), if_pos h]

theorem scan_wordStart (h : isWordStart c = true) : scan c rest = word c rest := by
  rw [scan_of_not_sign (not_sign_of_wordStart h), isDigit_of_wordStart h, if_pos h]
  rfl

theorem scan_illegal (h : ¬Starts c) : scan c rest = plain .illegal [c] := by
  rw [Starts, not_or, not_or] at h
  rw [scan_of_not_sign h.1, if_neg h.2.1, if_neg h.2.2]

/-! ## What is read is a spelling -/

/-- If the lexeme has a reading, the characters it takes from the text are a spelling of it. -/
def Sound (found : Lexeme) (text : List Char) : Prop :=
  ∀ kind value, found.reading = .ok (kind, value) → ∃ lexeme rest,
    text = lexeme ++ rest ∧ found.length = lexeme.length ∧
      Spells kind value.toList lexeme rest

theorem sound_of_spells {value lexeme : List Char} (h : Spells kind value lexeme rest) :
    Sound ⟨lexeme.length, .ok (kind, String.ofList value)⟩ (lexeme ++ rest) := by
  intro kind' value' hreading
  cases hreading
  refine ⟨lexeme, rest, rfl, rfl, ?_⟩
  rwa [String.toList_ofList]

theorem sound_plain {lexeme : List Char} (h : Verbatim kind lexeme rest) :
    Sound (plain kind lexeme) (lexeme ++ rest) :=
  sound_of_spells (.verbatim h)

theorem sound_withEquals {alone paired : Kind} (h : (c, alone, paired) ∈ pairable) :
    Sound (withEquals c alone paired rest) (c :: rest) := by
  unfold withEquals
  split
  · exact sound_plain (.paired h)
  · rename_i hnext
    refine sound_plain (.alone h ?_)
    intro heq
    obtain ⟨more, rfl⟩ := List.head?_eq_some_iff.1 heq
    exact hnext more rfl

theorem sound_number (h : c.isDigit = true) : Sound (number c rest) (c :: rest) := by
  obtain ⟨digits, after, rfl, hrest⟩ := exists_maximal Char.isDigit rest
  have hdigits : Maximal Char.isDigit (c :: digits) after := hrest.cons h
  unfold number
  rw [hrest.takeWhile_eq, hrest.dropWhile_eq]
  dsimp only
  split
  · rename_i d more
    split
    · rename_i hd
      obtain ⟨fraction, after, rfl, hmore⟩ := exists_maximal Char.isDigit more
      rw [hmore.takeWhile_eq]
      have hsound := sound_plain (.float (List.cons_ne_nil c digits) hdigits.inside
        (List.cons_ne_nil d fraction) (hmore.cons hd))
      simpa using hsound
    · rename_i hd
      refine sound_plain (.integer (List.cons_ne_nil c digits) hdigits ?_)
      intro d' more' heq
      cases heq
      simpa using hd
  · rename_i hpoint
    refine sound_plain (.integer (List.cons_ne_nil c digits) hdigits ?_)
    intro d more heq
    exact absurd heq (hpoint d more)

theorem kind_ofWord {letters : List Char} (h : Word letters rest) :
    Verbatim (.ofWord (String.ofList letters)) letters rest := by
  unfold Kind.ofWord
  cases hkeyword : keyword? (String.ofList letters) with
  | some kind =>
      obtain ⟨before, after, hsplit, -⟩ := List.lookup_eq_some_iff.1 hkeyword
      exact .keyword h (by rw [hsplit]; simp)
  | none =>
      have hnone : String.ofList letters ∉ keywords.map Prod.fst := by
        rw [keyword?, List.lookup_eq_none_iff] at hkeyword
        intro hmem
        obtain ⟨entry, hentry, hfst⟩ := List.mem_map.1 hmem
        have := hkeyword entry hentry
        simp [hfst] at this
      dsimp only
      split
      · rename_i htype
        exact .typeName h hnone (List.contains_iff_mem.1 htype)
      · rename_i htype
        exact .ident h hnone (fun hmem => htype (List.contains_iff_mem.2 hmem))

theorem sound_word (h : isWordStart c = true) : Sound (word c rest) (c :: rest) := by
  obtain ⟨tail, after, rfl, htail⟩ := exists_maximal isWordPart rest
  unfold word
  rw [htail.takeWhile_eq]
  exact sound_plain (kind_ofWord ⟨⟨c, rfl, h⟩, htail.cons (isWordPart_of_wordStart h)⟩)

theorem unescape?_eq_some_iff {e : Char} : unescape? e = some c ↔ (e, c) ∈ escapes := by
  constructor
  · intro h
    unfold unescape? at h
    split at h <;> cases h <;> decide
  · intro h
    have hescapes : ∀ entry ∈ escapes, unescape? entry.1 = some entry.2 := by decide
    exact hescapes (e, c) h

theorem cons_value_ok {n : Nat} {found : Body} {value : List Char}
    (h : (found.cons c n).value = .ok value) :
    ∃ more, found.value = .ok more ∧ value = c :: more := by
  unfold Body.cons at h
  cases hvalue : found.value with
  | error cause => simp [hvalue, Except.map] at h
  | ok more =>
      rw [hvalue] at h
      cases h
      exact ⟨more, rfl, rfl⟩

theorem resolves_of_body {quote : Char} {text value : List Char}
    (h : (body quote text).value = .ok value) :
    ∃ raw rest, text = raw ++ quote :: rest ∧ (body quote text).length = raw.length + 1 ∧
      Resolves quote raw value := by
  fun_induction body quote text generalizing value with
  | case1 => cases h
  | case2 rest =>
      cases h
      exact ⟨[], rest, rfl, rfl, .done⟩
  | case3 => cases h
  | case4 e more c hescape hquote ih =>
      obtain ⟨value, hvalue, rfl⟩ := cons_value_ok h
      obtain ⟨raw, rest, rfl, hlength, hraw⟩ := ih hvalue
      refine ⟨'\\' :: e :: raw, rest, rfl, ?_, .escape (unescape?_eq_some_iff.1 hescape) hraw⟩
      simp only [Body.cons, hlength, List.length_cons]
      omega
  | case5 => cases h
  | case6 c more hquote hescape ih =>
      obtain ⟨value, hvalue, rfl⟩ := cons_value_ok h
      obtain ⟨raw, rest, rfl, hlength, hraw⟩ := ih hvalue
      refine ⟨c :: raw, rest, rfl, ?_, .plain hquote hescape hraw⟩
      simp only [Body.cons, hlength, List.length_cons]
      omega

theorem sound_string (h : c = '"' ∨ c = '\'') : Sound (string c rest) (c :: rest) := by
  intro kind text hreading
  unfold string at hreading ⊢
  dsimp only at hreading ⊢
  cases hvalue : (body c rest).value with
  | error cause =>
      rw [hvalue] at hreading
      cases hreading
  | ok value =>
      rw [hvalue] at hreading
      cases hreading
      obtain ⟨raw, after, rfl, hlength, hraw⟩ := resolves_of_body hvalue
      refine ⟨c :: (raw ++ [c]), after, by simp, ?_, ?_⟩
      · rw [hlength]
        simp only [List.length_cons, List.length_append, List.length_nil]
        omega
      · rw [String.toList_ofList]
        exact .string h hraw

/-! ### Comments -/

theorem slash_line (more : List Char) :
    slash ('/' :: more) = ⟨2 + (more.takeWhile (· ≠ '\n')).length,
      .ok (.comment, String.ofList (more.takeWhile (· ≠ '\n')))⟩ := rfl

theorem slash_block {more text : List Char} (h : untilClosed more = some text) :
    slash ('*' :: more) = ⟨2 + text.length + 2, .ok (.comment, String.ofList text)⟩ := by
  simp [slash, h]

theorem closed_of_untilClosed {text value : List Char} (h : untilClosed text = some value) :
    ∃ rest, text = value ++ '*' :: '/' :: rest ∧ ¬['*', '/'] <:+: value := by
  fun_induction untilClosed text generalizing value with
  | case1 => cases h
  | case2 c rest hclose =>
      cases h
      obtain ⟨rfl, hhead⟩ := hclose
      obtain ⟨after, rfl⟩ := List.head?_eq_some_iff.1 hhead
      exact ⟨after, rfl, by simp⟩
  | case3 c rest hopen ih =>
      rw [Option.map_eq_some_iff] at h
      obtain ⟨value, hvalue, rfl⟩ := h
      obtain ⟨after, rfl, hinside⟩ := ih hvalue
      refine ⟨after, rfl, ?_⟩
      rw [List.infix_cons_iff]
      -- An end mark inside would start at `c`, which was checked, or further on.
      rintro (hhere | hthere)
      · obtain ⟨tail, htail⟩ := hhere
        cases htail
        exact hopen ⟨rfl, rfl⟩
      · exact hinside hthere

theorem sound_lineComment (more : List Char) :
    Sound (slash ('/' :: more)) ('/' :: '/' :: more) := by
  obtain ⟨text, after, rfl, hmaximal⟩ := exists_maximal (· ≠ '\n') more
  have htext : '\n' ∉ text := by
    intro hmem
    simpa using hmaximal.inside _ hmem
  have hend : after = [] ∨ after.head? = some '\n' := by
    cases after with
    | nil => exact .inl rfl
    | cons d after => exact .inr (by simpa using hmaximal.stops d rfl)
  rw [slash_line, hmaximal.takeWhile_eq, Nat.add_comm]
  exact sound_of_spells (.lineComment htext hend)

theorem sound_slash : Sound (slash rest) ('/' :: rest) := by
  unfold slash
  split
  · rename_i more
    exact sound_lineComment more
  · rename_i more
    split
    · rename_i value hvalue
      obtain ⟨after, rfl, hinside⟩ := closed_of_untilClosed hvalue
      have hspells : Spells .comment value ('/' :: '*' :: (value ++ ['*', '/'])) after :=
        .blockComment hinside
      have hsound := sound_of_spells hspells
      simpa [Nat.add_comm, Nat.add_left_comm] using hsound
    · rintro kind value hreading
      cases hreading
  · rename_i hline hblock
    refine sound_plain (.slash ?_ ?_)
    · intro heq
      obtain ⟨more, rfl⟩ := List.head?_eq_some_iff.1 heq
      exact hline more rfl
    · intro heq
      obtain ⟨more, rfl⟩ := List.head?_eq_some_iff.1 heq
      exact hblock more rfl

theorem sound_scan (h : Cursor.isBlank c = false) : Sound (scan c rest) (c :: rest) := by
  by_cases hsign : c ∈ signs
  · rw [signs, List.mem_append, List.mem_append] at hsign
    rcases hsign with (hmark | hpair) | hother
    · obtain ⟨⟨_, kind⟩, hentry, rfl⟩ := List.mem_map.1 hmark
      rw [scan_mark hentry]
      exact sound_plain (.mark hentry)
    · obtain ⟨⟨_, alone, paired⟩, hentry, rfl⟩ := List.mem_map.1 hpair
      rw [scan_pairable hentry]
      exact sound_withEquals hentry
    · simp only [List.mem_cons, List.not_mem_nil, or_false] at hother
      rcases hother with rfl | hquote
      · exact sound_slash
      · rw [scan_quote hquote]
        exact sound_string hquote
  · rw [scan_of_not_sign hsign]
    split
    · rename_i hdigit
      exact sound_number hdigit
    split
    · rename_i hword
      exact sound_word hword
    · rename_i hdigit hword
      refine sound_plain (.illegal ?_ h)
      rintro (hc | hc | hc)
      · exact hsign hc
      · exact hdigit hc
      · exact hword hc

/-! ## Every spelling is read -/

theorem scan_integer {digits : List Char} (hmaximal : Maximal Char.isDigit (c :: digits) rest)
    (hpoint : ∀ d more, rest = '.' :: d :: more → d.isDigit = false) :
    scan c (digits ++ rest) = plain .integer (c :: digits) := by
  rw [scan_digit (hmaximal.inside c List.mem_cons_self), number, hmaximal.tail.takeWhile_eq,
    hmaximal.tail.dropWhile_eq]
  split
  · rename_i d more
    rw [hpoint d more rfl]
    rfl
  · rfl

theorem scan_float {digits fraction : List Char}
    (hdigits : ∀ d ∈ c :: digits, d.isDigit = true) (hfraction : fraction ≠ [])
    (hmaximal : Maximal Char.isDigit fraction rest) :
    scan c (digits ++ '.' :: fraction ++ rest) =
      plain .float (c :: digits ++ '.' :: fraction) := by
  obtain ⟨d, more, rfl⟩ := List.exists_cons_of_ne_nil hfraction
  have hwhole : Maximal Char.isDigit digits ('.' :: d :: (more ++ rest)) := by
    refine ⟨fun d hd => hdigits d (List.mem_cons_of_mem c hd), ?_⟩
    rintro point ⟨⟩
    rfl
  rw [scan_digit (hdigits c List.mem_cons_self), number, List.append_assoc, List.cons_append,
    List.cons_append, hwhole.takeWhile_eq, hwhole.dropWhile_eq]
  change (if d.isDigit = true then _ else _) = _
  rw [if_pos (hmaximal.inside d List.mem_cons_self), hmaximal.tail.takeWhile_eq]

theorem not_blank_of_starts (h : Starts c) : Cursor.isBlank c = false := by
  cases hblank : Cursor.isBlank c with
  | false => rfl
  | true =>
      simp only [Cursor.isBlank, Bool.or_eq_true, decide_eq_true_eq] at hblank
      unfold Starts at h
      rcases hblank with ((rfl | rfl) | rfl) | rfl <;> revert h <;> decide

theorem scan_word {letters : List Char} (h : Word letters rest) :
    ∃ c tail, letters = c :: tail ∧ Cursor.isBlank c = false ∧
      scan c (tail ++ rest) = plain (.ofWord (String.ofList letters)) letters := by
  obtain ⟨c, hc, hstart⟩ := h.starts
  obtain ⟨tail, rfl⟩ := List.head?_eq_some_iff.1 hc
  refine ⟨c, tail, rfl, not_blank_of_starts (.inr (.inr hstart)), ?_⟩
  rw [scan_wordStart hstart, word, h.maximal.tail.takeWhile_eq]

theorem ofWord_keyword {text : String} (h : (text, kind) ∈ keywords) :
    Kind.ofWord text = kind := by
  have hkeywords : ∀ entry ∈ keywords, Kind.ofWord entry.1 = entry.2 := by decide
  exact hkeywords (text, kind) h

theorem ofWord_of_not_keyword {text : String} (h : text ∉ keywords.map Prod.fst) :
    Kind.ofWord text = if text ∈ typeNames then .typeName else .ident := by
  have hnone : keyword? text = none := by
    rw [keyword?, List.lookup_eq_none_iff]
    intro entry hentry
    rw [bne_iff_ne]
    rintro rfl
    exact h (List.mem_map_of_mem hentry)
  rw [Kind.ofWord, hnone]
  simp [isTypeName]

theorem backslash_ne_quote {quote : Char} (h : quote = '"' ∨ quote = '\'') : '\\' ≠ quote := by
  rcases h with rfl | rfl <;> decide

theorem isBlank_quote {quote : Char} (h : quote = '"' ∨ quote = '\'') :
    Cursor.isBlank quote = false := by
  rcases h with rfl | rfl <;> rfl

theorem body_quote (quote : Char) (rest : List Char) :
    body quote (quote :: rest) = ⟨1, .ok []⟩ := by
  unfold body
  rw [if_pos rfl]

theorem body_plain {quote : Char} (hquote : c ≠ quote) (hescape : c ≠ '\\') :
    body quote (c :: rest) = (body quote rest).cons c 1 := by
  rw [body.eq_def]
  dsimp only
  rw [if_neg hquote, if_neg hescape]

theorem body_escape {quote e : Char} (hquote : '\\' ≠ quote) (h : (e, c) ∈ escapes) :
    body quote ('\\' :: e :: rest) = (body quote rest).cons c 2 := by
  rw [body, if_neg hquote, if_pos rfl, unescape?_eq_some_iff.2 h]

/-- What stands between quotes is read through, up to what ends it or breaks it off. -/
theorem body_append {quote : Char} {raw value : List Char} (hquote : '\\' ≠ quote)
    (h : Resolves quote raw value) (rest : List Char) :
    body quote (raw ++ rest) =
      ⟨raw.length + (body quote rest).length, (body quote rest).value.map (value ++ ·)⟩ := by
  induction h with
  | done => cases hvalue : (body quote rest).value <;> simp [← hvalue, Except.map]
  | plain hne hescape more ih =>
      rw [List.cons_append, body_plain hne hescape, ih, Body.cons]
      cases (body quote rest).value <;> simp [Except.map] <;> omega
  | escape hentry more ih =>
      rw [List.cons_append, List.cons_append, body_escape hquote hentry, ih, Body.cons]
      cases (body quote rest).value <;> simp [Except.map] <;> omega

theorem body_of_resolves {quote : Char} {raw value : List Char} (hquote : '\\' ≠ quote)
    (h : Resolves quote raw value) (rest : List Char) :
    body quote (raw ++ quote :: rest) = ⟨raw.length + 1, .ok value⟩ := by
  rw [body_append hquote h, body_quote]
  simp [Except.map]

theorem untilClosed_append {value : List Char} (h : ¬['*', '/'] <:+: value) (rest : List Char) :
    untilClosed (value ++ '*' :: '/' :: rest) = some value := by
  induction value with
  | nil => rfl
  | cons c value ih =>
      rw [List.infix_cons_iff, not_or] at h
      have hopen : ¬(c = '*' ∧ (value ++ '*' :: '/' :: rest).head? = some '/') := by
        -- Nor does one straddle the end of the value: the end mark starts with a star.
        rintro ⟨rfl, hhead⟩
        cases value with
        | nil => cases hhead
        | cons d value =>
            cases hhead
            exact h.1 ⟨value, rfl⟩
      rw [List.cons_append, untilClosed, if_neg hopen, ih h.2]
      rfl

theorem scan_of_verbatim {lexeme : List Char} (h : Verbatim kind lexeme rest) :
    ∃ c tail, lexeme = c :: tail ∧ Cursor.isBlank c = false ∧
      scan c (tail ++ rest) = plain kind lexeme := by
  cases h with
  | @mark c _ _ hmark =>
      have hblank : ∀ mark ∈ marks, Cursor.isBlank mark.1 = false := by decide
      exact ⟨c, [], rfl, hblank (c, kind) hmark, scan_mark hmark⟩
  | @alone c _ paired _ hpair hnext =>
      have hblank : ∀ pair ∈ pairable, Cursor.isBlank pair.1 = false := by decide
      refine ⟨c, [], rfl, hblank (c, kind, paired) hpair, ?_⟩
      rw [scan_pairable hpair, List.nil_append]
      unfold withEquals
      split
      · exact absurd rfl hnext
      · rfl
  | @paired c alone _ _ hpair =>
      have hblank : ∀ pair ∈ pairable, Cursor.isBlank pair.1 = false := by decide
      refine ⟨c, ['='], rfl, hblank (c, alone, kind) hpair, ?_⟩
      rw [scan_pairable hpair]
      rfl
  | slash hline hblock =>
      refine ⟨'/', [], rfl, rfl, ?_⟩
      change slash rest = _
      unfold slash
      split
      · exact absurd rfl hline
      · exact absurd rfl hblock
      · rfl
  | integer hsome hdigits hpoint =>
      obtain ⟨c, tail, rfl⟩ := List.exists_cons_of_ne_nil hsome
      have hdigit := hdigits.inside c List.mem_cons_self
      exact ⟨c, tail, rfl, not_blank_of_starts (.inr (.inl hdigit)),
        scan_integer hdigits hpoint⟩
  | float hwhole hdigits hfraction hmaximal =>
      obtain ⟨c, tail, rfl⟩ := List.exists_cons_of_ne_nil hwhole
      have hdigit := hdigits c List.mem_cons_self
      exact ⟨c, _, rfl, not_blank_of_starts (.inr (.inl hdigit)),
        scan_float hdigits hfraction hmaximal⟩
  | keyword hword hkeyword =>
      rw [← ofWord_keyword hkeyword]
      exact scan_word hword
  | typeName hword hkeyword htype =>
      have hkind := ofWord_of_not_keyword hkeyword
      rw [if_pos htype] at hkind
      rw [← hkind]
      exact scan_word hword
  | ident hword hkeyword htype =>
      have hkind := ofWord_of_not_keyword hkeyword
      rw [if_neg htype] at hkind
      rw [← hkind]
      exact scan_word hword
  | @illegal c _ hstarts hblank => exact ⟨c, [], rfl, hblank, scan_illegal hstarts⟩

theorem scan_of_spells {text lexeme : List Char} (h : Spells kind text lexeme rest) :
    ∃ c tail, lexeme = c :: tail ∧ Cursor.isBlank c = false ∧
      scan c (tail ++ rest) = ⟨lexeme.length, .ok (kind, String.ofList text)⟩ := by
  cases h with
  | verbatim h => exact scan_of_verbatim h
  | lineComment htext hend =>
      have hmaximal : Maximal (· ≠ '\n') text rest := by
        constructor
        · rintro c hc
          simpa using ne_of_mem_of_not_mem hc htext
        · rintro c hc
          rcases hend with rfl | hnewline
          · cases hc
          · rw [hnewline] at hc
            cases hc
            rfl
      refine ⟨'/', '/' :: text, rfl, rfl, ?_⟩
      change slash ('/' :: (text ++ rest)) = _
      rw [slash_line, hmaximal.takeWhile_eq, Nat.add_comm]
      rfl
  | blockComment htext =>
      refine ⟨'/', '*' :: (text ++ ['*', '/']), rfl, rfl, ?_⟩
      change slash ('*' :: (text ++ ['*', '/'] ++ rest)) = _
      have hclosed : untilClosed (text ++ ['*', '/'] ++ rest) = some text := by
        rw [List.append_assoc]
        exact untilClosed_append htext rest
      rw [slash_block hclosed]
      simp [Nat.add_comm, Nat.add_left_comm]
  | @string quote raw value _ hquote hvalue =>
      refine ⟨quote, _, rfl, isBlank_quote hquote, ?_⟩
      rw [scan_quote hquote, string, List.append_assoc]
      rw [show [quote] ++ rest = quote :: rest from rfl,
        body_of_resolves (backslash_ne_quote hquote) hvalue]
      simp [Except.map, Nat.add_comm]

end Lexeme

/-! ## From one token to the next -/

namespace Spelling

theorem Verbatim.kind_ne_eof {kind : Kind} {lexeme rest : List Char}
    (h : Verbatim kind lexeme rest) : kind ≠ .eof := by
  cases h with
  | @mark c _ _ hmark =>
      have hmarks : ∀ mark ∈ marks, mark.2 ≠ .eof := by decide
      exact hmarks (c, kind) hmark
  | @alone c _ paired _ hpair hnext =>
      have hpairs : ∀ pair ∈ pairable, pair.2.1 ≠ .eof := by decide
      exact hpairs (c, kind, paired) hpair
  | @paired c alone _ _ hpair =>
      have hpairs : ∀ pair ∈ pairable, pair.2.2 ≠ .eof := by decide
      exact hpairs (c, alone, kind) hpair
  | keyword hword hkeyword =>
      have hkeywords : ∀ entry ∈ keywords, entry.2 ≠ .eof := by decide
      exact hkeywords _ hkeyword
  | slash | integer | float | typeName | ident | illegal => decide

theorem Spells.kind_ne_eof {kind : Kind} {text lexeme rest : List Char}
    (h : Spells kind text lexeme rest) : kind ≠ .eof := by
  cases h with
  | verbatim h => exact h.kind_ne_eof
  | lineComment | blockComment | string => decide

end Spelling

namespace Cursor

variable {cursor : Cursor}

theorem advance_append {first rest : List Char} (h : cursor.rest = first ++ rest) :
    cursor.advance first.length = ⟨rest, cursor.pos.afterAll first⟩ := by
  simp [advance, h]

theorem skipBlanks_eq {blanks rest : List Char} (h : cursor.rest = blanks ++ rest)
    (hblanks : Maximal isBlank blanks rest) :
    cursor.skipBlanks = ⟨rest, cursor.pos.afterAll blanks⟩ := by
  rw [skipBlanks, h, hblanks.takeWhile_eq]
  exact advance_append h

end Cursor

namespace Token

variable {origin : Origin} {cursor cursor' : Cursor}

def reading (token : Token) : Kind × String := (token.kind, token.text)

theorem next_of_blanks (origin : Origin) (h : ∀ c ∈ cursor.rest, Cursor.isBlank c = true) :
    Token.next origin cursor =
      (.ok ⟨.eof, "", cursor.pos.afterAll cursor.rest, origin⟩,
        ⟨[], cursor.pos.afterAll cursor.rest⟩) := by
  have hskip : cursor.skipBlanks = ⟨[], cursor.pos.afterAll cursor.rest⟩ :=
    Cursor.skipBlanks_eq (by simp) ⟨h, by simp⟩
  unfold Token.next
  rw [hskip]

theorem next_of_spells (origin : Origin) {blanks lexeme rest : List Char} {kind : Kind}
    {text : String} (hrest : cursor.rest = blanks ++ (lexeme ++ rest))
    (hblanks : Maximal Cursor.isBlank blanks (lexeme ++ rest))
    (hspells : Spells kind text.toList lexeme rest) :
    Token.next origin cursor =
      (.ok ⟨kind, text, cursor.pos.afterAll blanks, origin⟩,
        ⟨rest, cursor.pos.afterAll (blanks ++ lexeme)⟩) := by
  obtain ⟨c, tail, rfl, -, hscan⟩ := Lexeme.scan_of_spells hspells
  rw [String.ofList_toList] at hscan
  unfold Token.next
  rw [Cursor.skipBlanks_eq hrest hblanks]
  dsimp only [List.cons_append]
  rw [hscan]
  dsimp only
  rw [Cursor.advance_append rfl, Position.afterAll_append]

theorem next_cases {token : Token} (h : Token.next origin cursor = (.ok token, cursor')) :
    (token.reading = (.eof, "") ∧ ∀ c ∈ cursor.rest, Cursor.isBlank c = true) ∨
      ∃ blanks lexeme, cursor.rest = blanks ++ (lexeme ++ cursor'.rest) ∧
        Maximal Cursor.isBlank blanks (lexeme ++ cursor'.rest) ∧ lexeme ≠ [] ∧
        Spells token.kind token.text.toList lexeme cursor'.rest := by
  obtain ⟨blanks, after, hrest, hblanks⟩ := exists_maximal Cursor.isBlank cursor.rest
  have hstart : cursor.skipBlanks.rest = after := by
    rw [Cursor.rest_skipBlanks, hrest, hblanks.dropWhile_eq]
  unfold Token.next at h
  dsimp only at h
  rw [hstart] at h
  split at h
  · cases h
    refine .inl ⟨rfl, ?_⟩
    rw [hrest, List.append_nil]
    exact hblanks.inside
  · rename_i c rest
    split at h
    · rename_i kind text hreading
      cases h
      obtain ⟨lexeme, after, htext, hlength, hspells⟩ :=
        Lexeme.sound_scan (hblanks.stops c rfl) kind text hreading
      have hafter : (cursor.skipBlanks.advance (Lexeme.scan c rest).length).rest = after := by
        rw [Cursor.advance, hstart, htext, hlength]
        exact List.drop_left
      have hsome : lexeme ≠ [] := by
        rw [← List.length_pos_iff, ← hlength]
        exact Lexeme.length_scan_pos c rest
      rw [htext] at hrest hblanks
      rw [hafter]
      exact .inr ⟨blanks, lexeme, hrest, hblanks, hsome, hspells⟩
    · cases h

end Token

namespace Tokenization

variable {origin : Origin}

theorem tiles_ofCursor (cursor : Cursor) (h : (ofCursor origin cursor).fault? = none) :
    Tiles cursor.rest ((ofCursor origin cursor).tokens.map Token.reading) := by
  fun_induction ofCursor origin cursor with
  | case1 => cases h
  | case2 cursor token cursor' hnext hkind =>
      rcases Token.next_cases hnext with ⟨hreading, hblanks⟩ |
        ⟨blanks, lexeme, -, -, -, hspells⟩
      · rw [List.map_singleton, hreading]
        exact .done hblanks
      · exact absurd hkind hspells.kind_ne_eof
  | case3 cursor token cursor' hnext hkind _ ih =>
      rcases Token.next_cases hnext with ⟨hreading, -⟩ |
        ⟨blanks, lexeme, hrest, hblanks, hsome, hspells⟩
      · exact absurd (congrArg Prod.fst hreading) hkind
      · rw [hrest]
        exact .token hblanks hsome hspells (ih h)

theorem ofCursor_of_tiles {text : List Char} {readings : List (Kind × String)}
    (h : Tiles text readings) (cursor : Cursor) (hrest : cursor.rest = text) :
    (ofCursor origin cursor).fault? = none ∧
      (ofCursor origin cursor).tokens.map Token.reading = readings := by
  induction h generalizing cursor with
  | done hblanks =>
      subst hrest
      rw [ofCursor_of_eof (Token.next_of_blanks origin hblanks) rfl]
      exact ⟨rfl, rfl⟩
  | token hblanks hsome hspells more ih =>
      have hnext := Token.next_of_spells origin hrest hblanks hspells
      obtain ⟨hfault, htokens⟩ := ih ⟨_, cursor.pos.afterAll _⟩ rfl
      rw [ofCursor_of_token hnext hspells.kind_ne_eof]
      refine ⟨hfault, ?_⟩
      rw [cons, List.map_cons, htokens, Token.reading]

end Tokenization

/--
A text is read to its end exactly if tokens tile it, and there is only one such tiling: the
tokens that were read.
-/
theorem tokenize_eq_iff_tiles (source : String) (origin : Origin)
    (readings : List (Kind × String)) :
    (tokenize source origin).complete = true ∧
        (tokenize source origin).tokens.map Token.reading = readings ↔
      Tiles source.toList readings := by
  unfold tokenize Tokenization.complete
  rw [Option.isNone_iff_eq_none]
  constructor
  · rintro ⟨hcomplete, rfl⟩
    exact Tokenization.tiles_ofCursor (.ofText source) hcomplete
  · intro h
    exact Tokenization.ofCursor_of_tiles h (.ofText source) rfl

end Pidgin
