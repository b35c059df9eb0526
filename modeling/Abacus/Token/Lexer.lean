-- SUMMARY: Source text to lexemes, one character at a time.
import Abacus.Text.Blank
import Abacus.Token.Basic
import Abacus.Token.Numeral

/-!
# Lexing

The lexer goes through the characters once and is always in one of four modes.
Words and numerals run as far as they can; a comment starts at `#` and ends at a
line feed or carriage return. Every other character that is not blank is a token
of its own, so lexing cannot fail.
-/

namespace Abacus.Lexer

/-- What the character before the current one was part of. The text of a word or
    numeral is kept last character first. -/
inductive Mode where
  | between
  | comment
  | word (start : Nat) (text : List Char)
  | numeral (start : Nat) (text : List Char)
deriving DecidableEq, Repr

/-- The word or numeral that ends at `pos`, if there is one. -/
def Mode.close (pos : Nat) : Mode → List Lexeme
  | .between => []
  | .comment => []
  | .word start text => [⟨Token.ofWord (String.ofList text.reverse), ⟨start, pos⟩⟩]
  | .numeral start text => [⟨.number (Numeral.value text.reverse), ⟨start, pos⟩⟩]

/-- What the character at `pos` starts when it continues nothing. -/
def enter (pos : Nat) (c : Char) : Mode × List Lexeme :=
  if Text.isBlank c then (.between, [])
  else if c = '#' then (.comment, [])
  else if c.isAlpha then (.word pos [c], [])
  else if Numeral.isPart c then (.numeral pos [c], [])
  else (.between, [⟨.char c, ⟨pos, pos + c.utf8Size⟩⟩])

/-- The mode after the character at `pos`, and the lexemes it completes. -/
def step (pos : Nat) (mode : Mode) (c : Char) : Mode × List Lexeme :=
  match mode with
  | .between => enter pos c
  | .comment => if c = '\n' ∨ c = '\r' then (.between, []) else (.comment, [])
  | .word start text =>
    if c.isAlphanum then (.word start (c :: text), [])
    else ((enter pos c).1, mode.close pos ++ (enter pos c).2)
  | .numeral start text =>
    if Numeral.isPart c then (.numeral start (c :: text), [])
    else ((enter pos c).1, mode.close pos ++ (enter pos c).2)

/-- The lexemes of the characters from `pos` on. -/
def scan (pos : Nat) (mode : Mode) : List Char → List Lexeme
  | []      => mode.close pos
  | c :: cs => (step pos mode c).2 ++ scan (pos + c.utf8Size) (step pos mode c).1 cs

end Abacus.Lexer

namespace Abacus

/-- The lexemes of a source text, in order. -/
def lexemes (text : String) : List Lexeme :=
  Lexer.scan 0 .between text.toList

end Abacus
