import Pidgin.Source.Cursor
import Pidgin.Token.Word

/-!
# How tokens are spelled

Which characters spell a token, and what has to follow them, said without a
scanner.  A source text is tiled by the spellings of its tokens and by runs of
blanks between them.
-/

namespace Pidgin.Spelling

/-- A run of characters of one class that the next character does not prolong. -/
structure Maximal (belongs : Char → Bool) (run rest : List Char) : Prop where
  inside : ∀ c ∈ run, belongs c = true
  stops : ∀ c ∈ rest.head?, belongs c = false

def marks : List (Char × Kind) :=
  [('+', .plus), ('-', .minus), ('*', .star), (';', .semicolon), (':', .colon),
   (',', .comma), ('(', .lparen), (')', .rparen), ('\x7b', .lbrace), ('\x7d', .rbrace),
   ('[', .lbracket), (']', .rbracket), ('<', .less), ('>', .greater)]

def pairable : List (Char × Kind × Kind) := [('=', .assign, .equal), ('!', .bang, .notEqual)]

def escapes : List (Char × Char) :=
  [('n', '\n'), ('t', '\t'), ('r', '\r'), ('\\', '\\'), ('"', '"'), ('\'', '\'')]

def signs : List Char := marks.map Prod.fst ++ pairable.map Prod.fst ++ ['/', '"', '\'']

def Starts (c : Char) : Prop := c ∈ signs ∨ c.isDigit = true ∨ isWordStart c = true

structure Word (letters rest : List Char) : Prop where
  starts : ∃ c ∈ letters.head?, isWordStart c = true
  maximal : Maximal isWordPart letters rest

/-- In front of `rest`, the lexeme is a token of the given kind whose text is the lexeme
itself. -/
inductive Verbatim : Kind → (lexeme rest : List Char) → Prop where
  | mark {c : Char} {kind : Kind} {rest : List Char} (hmark : (c, kind) ∈ marks) :
      Verbatim kind [c] rest
  | alone {c : Char} {alone paired : Kind} {rest : List Char}
      (hpair : (c, alone, paired) ∈ pairable) (hnext : rest.head? ≠ some '=') :
      Verbatim alone [c] rest
  | paired {c : Char} {alone paired : Kind} {rest : List Char}
      (hpair : (c, alone, paired) ∈ pairable) : Verbatim paired [c, '='] rest
  | slash {rest : List Char} (hline : rest.head? ≠ some '/') (hblock : rest.head? ≠ some '*') :
      Verbatim .slash ['/'] rest
  | integer {digits rest : List Char} (hsome : digits ≠ [])
      (hdigits : Maximal Char.isDigit digits rest)
      (hpoint : ∀ d more, rest = '.' :: d :: more → d.isDigit = false) :
      Verbatim .integer digits rest
  | float {whole fraction rest : List Char} (hwhole : whole ≠ [])
      (hdigits : ∀ c ∈ whole, c.isDigit = true) (hfraction : fraction ≠ [])
      (hmaximal : Maximal Char.isDigit fraction rest) :
      Verbatim .float (whole ++ '.' :: fraction) rest
  | keyword {letters rest : List Char} {kind : Kind} (hword : Word letters rest)
      (hkeyword : (String.ofList letters, kind) ∈ keywords) : Verbatim kind letters rest
  | typeName {letters rest : List Char} (hword : Word letters rest)
      (hkeyword : String.ofList letters ∉ keywords.map Prod.fst)
      (htype : String.ofList letters ∈ typeNames) : Verbatim .typeName letters rest
  | ident {letters rest : List Char} (hword : Word letters rest)
      (hkeyword : String.ofList letters ∉ keywords.map Prod.fst)
      (htype : String.ofList letters ∉ typeNames) : Verbatim .ident letters rest
  | illegal {c : Char} {rest : List Char} (hstarts : ¬Starts c)
      (hblank : Cursor.isBlank c = false) : Verbatim .illegal [c] rest

inductive Resolves (quote : Char) : (raw value : List Char) → Prop where
  | done : Resolves quote [] []
  | plain {c : Char} {raw value : List Char} (hquote : c ≠ quote) (hescape : c ≠ '\\')
      (more : Resolves quote raw value) : Resolves quote (c :: raw) (c :: value)
  | escape {e c : Char} {raw value : List Char} (hescape : (e, c) ∈ escapes)
      (more : Resolves quote raw value) : Resolves quote ('\\' :: e :: raw) (c :: value)

/-- In front of `rest`, the lexeme spells a token of the given kind and text. -/
inductive Spells : Kind → (text lexeme rest : List Char) → Prop where
  | verbatim {kind : Kind} {lexeme rest : List Char} (h : Verbatim kind lexeme rest) :
      Spells kind lexeme lexeme rest
  | lineComment {text rest : List Char} (htext : '\n' ∉ text)
      (hend : rest = [] ∨ rest.head? = some '\n') :
      Spells .comment text ('/' :: '/' :: text) rest
  | blockComment {text rest : List Char} (htext : ¬['*', '/'] <:+: text) :
      Spells .comment text ('/' :: '*' :: (text ++ ['*', '/'])) rest
  | string {quote : Char} {raw value rest : List Char} (hquote : quote = '"' ∨ quote = '\'')
      (hvalue : Resolves quote raw value) :
      Spells .string value (quote :: (raw ++ [quote])) rest

/-- The text is the spellings of these tokens, with the longest runs of blanks before,
between and after them. -/
inductive Tiles : List Char → List (Kind × String) → Prop where
  | done {blanks : List Char} (hblanks : ∀ c ∈ blanks, Cursor.isBlank c = true) :
      Tiles blanks [(.eof, "")]
  | token {blanks lexeme rest : List Char} {kind : Kind} {text : String}
      {tokens : List (Kind × String)} (hblanks : Maximal Cursor.isBlank blanks (lexeme ++ rest))
      (hsome : lexeme ≠ []) (hspells : Spells kind text.toList lexeme rest)
      (more : Tiles rest tokens) :
      Tiles (blanks ++ (lexeme ++ rest)) ((kind, text) :: tokens)

end Pidgin.Spelling
